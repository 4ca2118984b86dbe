import Grocr.DetailVC
import Grocr.PopUpController
import Grocr.Support.Machine
/-!
# The collection and its writers

Any number of clients write the collection.  A create arrives as one
`setData`; a modification sends two `updateData` requests, each of which
arrives later or fails; a delete arrives as one `delete`.  A trap stops the
client it happens in and leaves the store as it is, so a run has no event for
it.
-/

namespace Grocr

open Support Support.Swift Firestore

structure Store where
  documents : Collection
  /-- The `updateData` requests under way. -/
  pending : List Update
deriving DecidableEq

namespace Store

def empty : Store := ⟨Table.empty, []⟩

inductive Event (UIImage : Type)
  /-- The `setData` of a create whose upload succeeded; `id` is automatic. -/
  | create (id : String) (form : PopUController UIImage) (url : String)
      (price_Time : CalendarDate)
  /-- The completion of `getDocuments` in `modifyPressed`. -/
  | modify (detail : DetailViewController UIImage)
      (snapshot : Option (List Document))
  | delivered (u : Update)
  | failed (u : Update)
  | delete (id : String)

variable {UIImage Data : Type}

/-- An automatic ID is new.  A snapshot may be arbitrarily old, so nothing is
asked of it. -/
def enabled (s : Store) : Event UIImage → Prop
  | .create id _ _ _ => id ∉ s.documents.keys
  | .modify _ _ => True
  | .delivered u => u ∈ s.pending
  | .failed u => u ∈ s.pending
  | .delete _ => True

instance (s : Store) (e : Event UIImage) : Decidable (s.enabled e) := by
  cases e <;> unfold enabled <;> infer_instance

def step (jpegData : UIImage → Option Data) (s : Store) :
    Event UIImage → Except Trap Store
  | .create id form url price_Time => do
      let uploadDoc ← form.createdDoc jpegData url price_Time.string
      match uploadDoc with
      | none => pure s
      | some uploadDoc =>
          pure { s with documents := s.documents.setData id uploadDoc }
  | .modify detail snapshot => do
      let requests ← detail.modifyPressed snapshot
      pure { s with pending := s.pending ++ requests.1 }
  | .delivered u =>
      -- the server refuses an update of a missing document
      pure
        { documents := (s.documents.updateData u).getD s.documents
          pending := s.pending.erase u }
  | .failed u => pure { s with pending := s.pending.erase u }
  | .delete id => pure { s with documents := s.documents.delete id }

def machine (jpegData : UIImage → Option Data) :
    Machine Store (Event UIImage) Trap :=
  ⟨enabled, step jpegData⟩

instance (jpegData : UIImage → Option Data) (s : Store) (e : Event UIImage) :
    Decidable ((machine jpegData).enabled s e) :=
  inferInstanceAs (Decidable (s.enabled e))

end Store

end Grocr
