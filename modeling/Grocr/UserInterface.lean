/-!
# The loading overlay

`UIVC` owns one overlay view.  Each load adds it to the table again and each
completed load hides it; nothing else of the view is modelled.
-/

namespace Grocr

structure UIVC where
  /-- `loadView` has a superview. -/
  loadViewAdded : Bool
  /-- `loadView.isHidden` -/
  loadViewHidden : Bool
deriving DecidableEq

namespace UIVC

def initial : UIVC := ⟨false, false⟩

def setLoadingScreen (u : UIVC) : UIVC := { u with loadViewAdded := true }

def spinnerOff (u : UIVC) : UIVC := { u with loadViewHidden := true }

end UIVC

end Grocr
