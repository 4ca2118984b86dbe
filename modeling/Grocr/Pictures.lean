import Grocr.PopUpController
import Grocr.Support.Machine
/-!
# Creating products, step by step

The three remote steps of `updateBtnPressed`, each issued in the completion of
the one before, for any number of products at once.  A document gets a new
automatic ID; a picture goes to the path that its product's name gives.
-/

namespace Grocr

open Support Support.Swift Firestore Storage

inductive Phase
  | putData
  | downloadURL
  | setData (uploadDoc : Fields)
deriving DecidableEq

structure Creation (Data : Type) where
  upload : Upload Data
  phase : Phase
deriving DecidableEq

structure Created (Data : Type) where
  id : String
  upload : Upload Data
deriving DecidableEq

structure Pictures (Data : Type) where
  bucket : Bucket Data
  documents : Collection
  running : List (Creation Data)
  created : List (Created Data)
deriving DecidableEq

namespace Pictures

inductive Event (UIImage Data : Type)
  | updateBtnPressed (form : PopUController UIImage)
  | putDataCompleted (c : Creation Data)
  | downloadURLCompleted (c : Creation Data) (url price_Time : String)
  | setDataCompleted (c : Creation Data) (uploadDoc : Fields) (id : String)

variable {UIImage Data : Type} [DecidableEq Data]

/-- `refersTo` is the path of the object that a download address refers to. -/
def enabled (refersTo : String → Option String) (s : Pictures Data) :
    Event UIImage Data → Prop
  | .updateBtnPressed _ => True
  | .putDataCompleted c => c ∈ s.running ∧ c.phase = .putData
  | .downloadURLCompleted c url _ =>
      c ∈ s.running ∧ c.phase = .downloadURL ∧
        refersTo url = some c.upload.uploadProductData.fullPath
  | .setDataCompleted c uploadDoc id =>
      c ∈ s.running ∧ c.phase = .setData uploadDoc ∧ id ∉ s.documents.keys

instance (refersTo : String → Option String) (s : Pictures Data)
    (e : Event UIImage Data) : Decidable (enabled refersTo s e) := by
  cases e <;> unfold enabled <;> infer_instance

def advance (s : Pictures Data) (c : Creation Data) (phase : Phase) :
    Pictures Data :=
  { s with running := s.running.erase c ++ [⟨c.upload, phase⟩] }

def step (jpegData : UIImage → Option Data) (s : Pictures Data) :
    Event UIImage Data → Except Trap (Pictures Data)
  | .updateBtnPressed form => do
      let upload ← form.updateBtnPressed jpegData
      match upload with
      | none => pure s
      | some upload =>
          pure { s with running := s.running ++ [⟨upload, .putData⟩] }
  | .putDataCompleted c =>
      let bucket :=
        s.bucket.putData c.upload.uploadProductData c.upload.image_Data
      pure ({ s with bucket }.advance c .downloadURL)
  | .downloadURLCompleted c url price_Time => do
      let uploadDoc ←
        PopUController.downloadURLCompleted c.upload (some url) price_Time
      pure (s.advance c (.setData uploadDoc))
  | .setDataCompleted c uploadDoc id =>
      pure
        { s with
          documents := s.documents.setData id uploadDoc
          running := s.running.erase c
          created := s.created ++ [⟨id, c.upload⟩] }

def machine (jpegData : UIImage → Option Data)
    (refersTo : String → Option String) :
    Machine (Pictures Data) (Event UIImage Data) Trap :=
  ⟨enabled refersTo, step jpegData⟩

instance (jpegData : UIImage → Option Data)
    (refersTo : String → Option String) (s : Pictures Data)
    (e : Event UIImage Data) :
    Decidable ((machine jpegData refersTo).enabled s e) :=
  inferInstanceAs (Decidable (enabled refersTo s e))

def initial (bucket : Bucket Data) (documents : Collection) : Pictures Data :=
  ⟨bucket, documents, [], []⟩

end Pictures

end Grocr
