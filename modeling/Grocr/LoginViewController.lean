import Grocr.DetailVC
/-!
# The login screen

`LoginViewController` registers new users through an alert with two text
fields and a Save action.  What a handler asks of Firebase Auth or of the
storyboard is its result; the completions are functions of their own.
-/

namespace Grocr

open Support.Swift

/-! ## Alerts -/

structure AlertTextField extends UITextField where
  tag : Nat
deriving DecidableEq

structure UIAlertAction where
  title : String
  isEnabled : Bool
deriving DecidableEq

structure UIAlertController where
  title : String
  message : String
  textFields : List AlertTextField
  actions : List UIAlertAction
deriving DecidableEq

namespace UIAlertController

/-- `addTextField(configurationHandler:)` with the configured field. -/
def addTextField (alert : UIAlertController) (textField : AlertTextField) :
    UIAlertController :=
  { alert with textFields := alert.textFields ++ [textField] }

def addAction (alert : UIAlertController) (action : UIAlertAction) :
    UIAlertController :=
  { alert with actions := alert.actions ++ [action] }

def setIsEnabled (alert : UIAlertController) (i : Nat) (isEnabled : Bool) :
    Except Trap UIAlertController := do
  let actions ← assign alert.actions i fun action => { action with isEnabled }
  pure { alert with actions }

end UIAlertController

/-! ## Firebase Auth -/

structure Credentials where
  email : String
  password : String
deriving DecidableEq

/-- A completion of Firebase Auth gets a user or an error, and never both. -/
inductive AuthReply
  | user (uid : String)
  | error (localizedDescription : String)
deriving DecidableEq

namespace AuthReply

def userArgument : AuthReply → Option String
  | .user uid => some uid
  | .error _ => none

def errorArgument : AuthReply → Option String
  | .user _ => none
  | .error localizedDescription => some localizedDescription

end AuthReply

inductive Command
  | createUser (credentials : Credentials)
  | signIn (credentials : Credentials)
  | performSegue (identifier : String)
deriving DecidableEq

/-! ## The view controller -/

structure LoginViewController where
  alert : Option UIAlertController
deriving DecidableEq

namespace LoginViewController

def initial : LoginViewController := ⟨none⟩

def loginToList : String := "LoginToList"

/-- `signUpDidTouch`; the alert it presents is empty and its Save action
disabled. -/
def signUpDidTouch (self : LoginViewController) :
    Except Trap LoginViewController := do
  let alert : UIAlertController :=
    ⟨"Register", "Please Input the ID/PW", [], []⟩
  let saveAction : UIAlertAction := ⟨"Save", true⟩
  let cancelAction : UIAlertAction := ⟨"Cancel", true⟩
  let alert := alert.addTextField
    ⟨{ UITextField.initial with placeholder := some "Enter your email" }, 0⟩
  let alert := alert.addTextField
    ⟨{ UITextField.initial with placeholder := some "Enter your password" }, 1⟩
  let alert := alert.addAction saveAction
  let alert := alert.addAction cancelAction
  let alert ← alert.setIsEnabled 0 false
  pure { self with alert := some alert }

/-- `alert?.actions[0].isEnabled = isEnabled` -/
def setSaveEnabled (self : LoginViewController) (isEnabled : Bool) :
    Except Trap LoginViewController :=
  match self.alert with
  | none => pure self
  | some alert => do
      let alert ← alert.setIsEnabled 0 isEnabled
      pure { self with alert := some alert }

/-- `textFieldChanged(sender:)`.  In Swift `|` binds tighter than `==`. -/
def textFieldChanged (self : LoginViewController) (sender : AlertTextField) :
    Except Trap LoginViewController :=
  if sender.tag = 0 ||| 1 ∧ sender.text ≠ some "" then
    self.setSaveEnabled true
  else pure self

/-- `textFieldDidEndEditing(_:)`, called for the two fields of the screen
itself. -/
def textFieldDidEndEditing (self : LoginViewController)
    (textField : UITextField) : Except Trap LoginViewController :=
  if textField.text = some "" then self.setSaveEnabled false
  else self.setSaveEnabled true

def saveTouched (self : LoginViewController) : Except Trap (List Command) := do
  let alert ← unwrap self.alert
  let textEmail ← subscript alert.textFields 0
  let textPassword ← subscript alert.textFields 1
  let emailTxt := textEmail.text
  let passwordText := textPassword.text
  if emailTxt ≠ some "" ∧ passwordText ≠ some "" then
    let email ← unwrap emailTxt
    let password ← unwrap passwordText
    pure [.createUser ⟨email, password⟩]
  else pure []

/-- The completion of `createUser`.  The user is unwrapped to be printed
before it is compared with nil; an error is printed, no more. -/
def createUserCompleted (credentials : Credentials)
    (user _error : Option String) : Except Trap (List Command) := do
  let _ ← unwrap user
  if user ≠ none then pure [.signIn credentials] else pure []

/-- The completion of `signIn`.  An error is printed, and the segue performed
all the same. -/
def signInCompleted (_user _error : Option String) :
    Except Trap (List Command) :=
  pure [.performSegue loginToList]

end LoginViewController

end Grocr
