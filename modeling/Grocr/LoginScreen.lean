import Grocr.LoginViewController
import Grocr.Support.Machine
/-!
# The login screen and Firebase Auth

What happens on the login screen arrives as events, in any order: the user
opens the alert, types into its fields and leaves it through one of its two
actions, editing of a field behind it ends, and Firebase Auth answers the
requests of any number of attempts.  The alert is modal, so the button that
presents it is out of reach while it is shown.
-/

namespace Grocr

open Support Support.Swift

/-- The two fields of the alert, in the order in which they were added. -/
inductive AlertField
  | email
  | password
deriving DecidableEq

def AlertField.index : AlertField → Nat
  | .email => 0
  | .password => 1

structure LoginScreen where
  controller : LoginViewController
  alertShown : Bool
  /-- The outstanding `createUser` requests. -/
  creating : List Credentials
  /-- The outstanding `signIn` requests. -/
  signingIn : List Credentials
  /-- The segues performed so far, oldest first. -/
  segues : List String
deriving DecidableEq

namespace LoginScreen

def initial : LoginScreen := ⟨.initial, false, [], [], []⟩

inductive Event
  | signUpDidTouch
  | editingChanged (field : AlertField) (text : String)
  /-- Editing of one of the screen's own fields ends. -/
  | didEndEditing (textField : UITextField)
  | saveTouched
  | cancelTouched
  | createUserCompleted (credentials : Credentials) (reply : AuthReply)
  | signInCompleted (credentials : Credentials) (reply : AuthReply)

def textField (s : LoginScreen) (field : AlertField) : Option AlertTextField :=
  s.controller.alert.bind fun alert => alert.textFields[field.index]?

def saveEnabled (s : LoginScreen) : Bool :=
  (s.controller.alert.bind fun alert => alert.actions[0]?).any
    UIAlertAction.isEnabled

def enabled (s : LoginScreen) : Event → Prop
  | .signUpDidTouch => s.alertShown = false
  | .editingChanged _ _ | .cancelTouched => s.alertShown = true
  | .didEndEditing _ => True
  | .saveTouched => s.alertShown = true ∧ s.saveEnabled = true
  | .createUserCompleted credentials _ => credentials ∈ s.creating
  | .signInCompleted credentials _ => credentials ∈ s.signingIn

instance (s : LoginScreen) : (e : Event) → Decidable (s.enabled e)
  | .signUpDidTouch => inferInstanceAs (Decidable (_ = false))
  | .editingChanged _ _ | .cancelTouched =>
      inferInstanceAs (Decidable (_ = true))
  | .didEndEditing _ => isTrue trivial
  | .saveTouched => inferInstanceAs (Decidable (_ ∧ _))
  | .createUserCompleted _ _ | .signInCompleted _ _ =>
      inferInstanceAs (Decidable (_ ∈ _))

/-- The system puts the text into the field and sends `.editingChanged`. -/
def edit (controller : LoginViewController) (field : AlertField)
    (text : String) : Except Trap LoginViewController := do
  let alert ← unwrap controller.alert
  let textFields ← assign alert.textFields field.index
    fun textField => { textField with text := some text }
  let sender ← subscript textFields field.index
  { controller with
    alert := some { alert with textFields } }.textFieldChanged sender

def respond (s : LoginScreen) : Event → Except Trap (List Command)
  | .saveTouched => s.controller.saveTouched
  | .createUserCompleted credentials reply =>
      LoginViewController.createUserCompleted credentials reply.userArgument
        reply.errorArgument
  | .signInCompleted _ reply =>
      LoginViewController.signInCompleted reply.userArgument
        reply.errorArgument
  | .signUpDidTouch | .editingChanged _ _ | .didEndEditing _
  | .cancelTouched => pure []

def update (s : LoginScreen) : Event → Except Trap LoginScreen
  | .signUpDidTouch => do
      let controller ← s.controller.signUpDidTouch
      pure { s with controller, alertShown := true }
  | .editingChanged field text => do
      let controller ← edit s.controller field text
      pure { s with controller }
  | .didEndEditing textField => do
      let controller ← s.controller.textFieldDidEndEditing textField
      pure { s with controller }
  | .saveTouched | .cancelTouched => pure { s with alertShown := false }
  | .createUserCompleted credentials _ =>
      pure { s with creating := s.creating.erase credentials }
  | .signInCompleted credentials _ =>
      pure { s with signingIn := s.signingIn.erase credentials }

def perform (s : LoginScreen) : Command → LoginScreen
  | .createUser credentials =>
      { s with creating := s.creating ++ [credentials] }
  | .signIn credentials =>
      { s with signingIn := s.signingIn ++ [credentials] }
  | .performSegue identifier =>
      { s with segues := s.segues ++ [identifier] }

def step (s : LoginScreen) (e : Event) : Except Trap LoginScreen := do
  let commands ← s.respond e
  let updated ← s.update e
  pure (commands.foldl perform updated)

def machine : Machine LoginScreen Event Trap := ⟨enabled, step⟩

instance (s : LoginScreen) (e : Event) : Decidable (machine.enabled s e) :=
  inferInstanceAs (Decidable (s.enabled e))

end LoginScreen

end Grocr
