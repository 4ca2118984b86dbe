import Mathlib.Tactic.Common
import Grocr.Firestore.Mutation
/-!
# The write calls of a document reference

`setData`, `updateData` and `deleteDocument` with the data that the user data
converter has parsed, and the mutations that they hand to the client.
-/

namespace Grocr.Firestore.Api

open Grocr.Support Grocr.Firestore.Model

/-- `ParsedSetData`; with a field mask the data is merged (`patch_`). -/
structure ParsedSetData where
  data : ObjectValue
  fieldMask : Option FieldMask
  fieldTransforms : List FieldTransform
deriving DecidableEq

structure ParsedUpdateData where
  data : ObjectValue
  fieldMask : FieldMask
  fieldTransforms : List FieldTransform
deriving DecidableEq

def transformMutations (key : DocumentKey)
    (fieldTransforms : List FieldTransform) : List Mutation :=
  if fieldTransforms = [] then [] else [.transform key fieldTransforms]

def ParsedSetData.toMutations (parsed : ParsedSetData) (key : DocumentKey)
    (precondition : Precondition) : List Mutation :=
  (match parsed.fieldMask with
    | some fieldMask => .patch key parsed.data fieldMask precondition
    | none => .set key parsed.data precondition) ::
      transformMutations key parsed.fieldTransforms

def ParsedUpdateData.toMutations (parsed : ParsedUpdateData)
    (key : DocumentKey) (precondition : Precondition) : List Mutation :=
  .patch key parsed.data parsed.fieldMask precondition ::
    transformMutations key parsed.fieldTransforms

inductive Call
  | setData (parsed : ParsedSetData)
  | updateData (parsed : ParsedUpdateData)
  | deleteDocument
deriving DecidableEq

def Call.mutations (key : DocumentKey) : Call → List Mutation
  | .setData parsed => parsed.toMutations key .none
  | .updateData parsed => parsed.toMutations key (.exists true)
  | .deleteDocument => [.delete key .none]

theorem Call.mutations_ne_nil (key : DocumentKey) (call : Call) :
    call.mutations key ≠ [] := by
  cases call <;> exact List.cons_ne_nil _ _

theorem Call.key_of_mem {key : DocumentKey} {call : Call} {m : Mutation}
    (h : m ∈ call.mutations key) : m.key = key := by
  have htransform (fieldTransforms : List FieldTransform)
      (hm : m ∈ transformMutations key fieldTransforms) : m.key = key := by
    unfold transformMutations at hm
    split at hm
    next => cases hm
    next => rw [List.mem_singleton.mp hm, Mutation.key]
  cases call with
  | setData parsed =>
      rcases List.mem_cons.mp h with rfl | hm
      · split <;> rfl
      · exact htransform _ hm
  | updateData parsed =>
      rcases List.mem_cons.mp h with rfl | hm
      · rfl
      · exact htransform _ hm
  | deleteDocument =>
      rw [List.mem_singleton.mp h, Mutation.key]

/-! ## What a call means -/

/-- The transforms of arrays, whose results do not depend on the backend. -/
def IsArrayTransform : TransformOperation → Prop
  | .arrayUnion _ => True
  | .arrayRemove _ => True
  | _ => False

def transformed (fieldTransforms : List FieldTransform) (o : ObjectValue) :
    ObjectValue :=
  TransformMutation.transformObject fieldTransforms
    (fieldTransforms.map fun t =>
      t.transformation.applyToRemoteDocument (o.get t.path) .null) o

def Call.apply : Call → Option ObjectValue → Option ObjectValue
  | .setData parsed, data =>
      match parsed.fieldMask with
      | none => some (transformed parsed.fieldTransforms parsed.data)
      | some fieldMask =>
          some (transformed parsed.fieldTransforms
            (PatchMutation.patchObject parsed.data fieldMask (data.getD [])))
  | .updateData parsed, data =>
      data.map fun o => transformed parsed.fieldTransforms
        (PatchMutation.patchObject parsed.data parsed.fieldMask o)
  | .deleteDocument, _ => none

/-- Array transforms of fields that the rest of the write leaves alone. -/
structure TransformsApart (fieldMask : FieldMask)
    (fieldTransforms : List FieldTransform) : Prop where
  arrays : ∀ t ∈ fieldTransforms, IsArrayTransform t.transformation
  apart : ∀ t ∈ fieldTransforms, ∀ path ∈ fieldMask, FieldPath.Apart path t.path

/-- A call whose outcome the client can tell by itself. -/
def Call.Predictable : Call → Prop
  | .setData parsed =>
      match parsed.fieldMask with
      | none => parsed.fieldTransforms = []
      | some fieldMask => TransformsApart fieldMask parsed.fieldTransforms
  | .updateData parsed =>
      TransformsApart parsed.fieldMask parsed.fieldTransforms
  | .deleteDocument => True

end Grocr.Firestore.Api
