import Grocr.DetailVC
import Grocr.PopUpController
/-!
# One operation against the two stores

A create and a modification, each run to its end against given answers of the
server.  Every request acts on one store by itself; what it did stays when a
later request fails or the app traps.
-/

namespace Grocr

open Support.Swift Firestore Storage

structure Stores (Data : Type) where
  documents : Collection
  bucket : Bucket Data
deriving DecidableEq

namespace Stores

variable {UIImage Data : Type}

/-- The answers to the requests of a create; `downloadURL` is nil after an
error. -/
structure CreateAnswers where
  putData : Bool
  downloadURL : Option String
  setData : Bool

/-- `updateBtnPressed` with its completions, and the trap it ended in. -/
def create (jpegData : UIImage → Option Data) (form : PopUController UIImage)
    (id price_Time : String) (answers : CreateAnswers) (s : Stores Data) :
    Stores Data × Option Trap :=
  match form.updateBtnPressed jpegData with
  | .error trap => (s, some trap)
  | .ok none => (s, none)
  | .ok (some upload) =>
      if answers.putData then
        let s := { s with
          bucket := s.bucket.putData upload.uploadProductData upload.image_Data }
        match PopUController.downloadURLCompleted upload answers.downloadURL
          price_Time with
        | .error trap => (s, some trap)
        | .ok uploadDoc =>
            -- both answers end in the same messages and the same dismissal
            if answers.setData then
              ({ s with documents := s.documents.setData id uploadDoc }, none)
            else (s, none)
      else (s, none)

/-- Whether the requests of a modification succeed. -/
structure ModifyAnswers where
  getDocuments : Bool
  price : Bool
  date : Bool

/-- An update acts if it succeeds; on a missing document it cannot. -/
def update (s : Stores Data) (u : Update) (success : Bool) : Stores Data :=
  if success then
    { s with documents := (s.documents.updateData u).getD s.documents }
  else s

/-- `modifyPressed` with its completions, and the trap it ended in. -/
def modify (detail : DetailViewController UIImage) (answers : ModifyAnswers)
    (s : Stores Data) : Stores Data × Option Trap :=
  let snapshot :=
    if answers.getDocuments then some s.documents.getDocuments else none
  match detail.modifyPressed snapshot with
  | .error trap => (s, some trap)
  | .ok (requests, _) =>
      ((requests.zip [answers.price, answers.date]).foldl
        (fun s r => s.update r.1 r.2) s, none)

end Stores

end Grocr
