import Mathlib.Tactic.Common
import Grocr.Firestore.DocumentReference
import Grocr.Proofs.LocalStore
/-!
# What the write calls mean

A predictable call turns the data of its document into `Call.apply` of it.
The view of the document, the acknowledgement of the batch and the loop of a
collection query each compute that on their own.
-/

namespace Grocr.Firestore.Api

open Grocr.Support Grocr.Support.Checked Grocr.Firestore.Model
open Grocr.Firestore.Local

/-! ## Patches and transforms -/

theorem get_patchObject_of_apart {value : ObjectValue} {mask : FieldMask}
    {path : FieldPath} (h : ∀ q ∈ mask, FieldPath.Apart q path)
    (o : ObjectValue) :
    (PatchMutation.patchObject value mask o).get path = o.get path := by
  unfold PatchMutation.patchObject
  induction mask generalizing o with
  | nil => rfl
  | cons q mask ih =>
      obtain ⟨hq, hmask⟩ := List.forall_mem_cons.mp h
      rw [List.foldl_cons, ih hmask]
      unfold PatchMutation.patchPath
      split
      next => rfl
      next =>
        split
        next => exact ObjectValue.get_delete_of_apart o hq
        next => exact ObjectValue.get_set_of_apart o _ hq

/-- The result of an array transform is the same wherever it is computed. -/
theorem applyToRemoteDocument_of_array {op : TransformOperation}
    (h : IsArrayTransform op) (previous : Option Model.FieldValue)
    (transformResult : Model.FieldValue) :
    op.applyToRemoteDocument previous transformResult =
      op.applyToRemoteDocument previous .null := by
  cases op with
  | serverTimestamp => exact h.elim
  | arrayUnion elements => rfl
  | arrayRemove elements => rfl
  | increment operand => exact h.elim

theorem serverTransformResults_eq {fieldTransforms : List FieldTransform}
    (h : ∀ t ∈ fieldTransforms, IsArrayTransform t.transformation)
    {results : List Model.FieldValue}
    (hlength : fieldTransforms.length = results.length)
    (doc : Option MaybeDocument) :
    TransformMutation.serverTransformResults fieldTransforms doc results =
      fieldTransforms.map fun t =>
        t.transformation.applyToRemoteDocument (readField doc t.path) .null := by
  unfold TransformMutation.serverTransformResults
  induction fieldTransforms generalizing results with
  | nil => rfl
  | cons t fieldTransforms ih =>
      obtain ⟨ht, hrest⟩ := List.forall_mem_cons.mp h
      cases results with
      | nil => cases hlength
      | cons result results =>
          rw [List.zip_cons_cons, List.map_cons, List.map_cons,
            applyToRemoteDocument_of_array ht,
            ih hrest (Nat.succ.inj hlength)]

theorem isValidFor_exists (doc : Option MaybeDocument) :
    (Precondition.exists true).isValidFor doc = (readData doc).isSome := by
  unfold Precondition.isValidFor
  cases (readData doc).isSome <;> rfl

/-! ## The acknowledgement -/

def acknowledged (answers : List (Mutation × MutationResult))
    (doc : Option MaybeDocument) : Except HardAssert (Option MaybeDocument) :=
  answers.foldlM
    (fun doc e => (e.1.applyToRemoteDocument doc e.2).map some) doc

theorem readData_transform_remote {key : DocumentKey}
    {fieldTransforms : List FieldTransform}
    (h : ∀ t ∈ fieldTransforms, IsArrayTransform t.transformation)
    {results : List MutationResult}
    (hanswers : List.Forall₂ IsAnswerTo
      (transformMutations key fieldTransforms) results)
    {doc d : Option MaybeDocument}
    (hd : acknowledged ((transformMutations key fieldTransforms).zip results)
      doc = .ok d) :
    readData d = (readData doc).map (transformed fieldTransforms) := by
  unfold transformMutations at hanswers hd
  by_cases hnil : fieldTransforms = []
  · rw [if_pos hnil] at hd
    cases hd
    rw [hnil]
    exact Option.map_id'.symm
  · rw [if_neg hnil] at hanswers hd
    cases hanswers with
    | @cons _ result _ rest hanswer hrest =>
        cases hrest
        obtain ⟨transformResults, hresults, hlength⟩ := hanswer
        simp only [acknowledged, List.zip_cons_cons, List.zip_nil_right,
          List.foldlM_cons, List.foldlM_nil, Mutation.applyToRemoteDocument,
          hresults] at hd
        cases hdata : readData doc with
        | none =>
            rw [hdata] at hd
            cases hd
            rfl
        | some data =>
            rw [hdata] at hd
            simp only [if_pos hlength] at hd
            cases hd
            rw [serverTransformResults_eq h hlength]
            simp only [readField, hdata]
            rfl

theorem acknowledged_cons {m : Mutation} {result : MutationResult}
    {answers : List (Mutation × MutationResult)} {doc d : Option MaybeDocument}
    (h : acknowledged ((m, result) :: answers) doc = .ok d) :
    ∃ d', m.applyToRemoteDocument doc result = .ok d' ∧
      acknowledged answers (some d') = .ok d := by
  rw [acknowledged, List.foldlM_cons] at h
  obtain ⟨e, he, hrest⟩ := bind_eq_ok.mp h
  obtain ⟨d', hd', rfl⟩ := map_eq_ok.mp he
  exact ⟨d', hd', hrest⟩

/-- What is cached after a predictable call has been accepted. -/
theorem readData_acknowledged {call : Call} (h : call.Predictable)
    {key : DocumentKey} {results : List MutationResult}
    (hanswers : List.Forall₂ IsAnswerTo (call.mutations key) results)
    {doc d : Option MaybeDocument}
    (hd : acknowledged ((call.mutations key).zip results) doc = .ok d) :
    readData d = call.apply (readData doc) := by
  cases call with
  | setData parsed =>
      obtain ⟨data, fieldMask, fieldTransforms⟩ := parsed
      cases hanswers with
      | @cons _ result _ rest hanswer hrest =>
          obtain ⟨d', hd', hlast⟩ := acknowledged_cons hd
          cases fieldMask with
          | none =>
              have hnil : fieldTransforms = [] := h
              have hnone : result.transformResults = none := hanswer
              simp only [Mutation.applyToRemoteDocument, if_pos hnone] at hd'
              cases hd'
              rw [hnil] at hlast ⊢
              cases hlast
              rfl
          | some mask =>
              have hnone : result.transformResults = none := hanswer
              simp only [Mutation.applyToRemoteDocument, if_pos hnone] at hd'
              cases hd'
              exact readData_transform_remote h.arrays hrest hlast
  | updateData parsed =>
      cases hanswers with
      | @cons _ result _ rest hanswer hrest =>
          obtain ⟨d', hd', hlast⟩ := acknowledged_cons hd
          have hnone : result.transformResults = none := hanswer
          rw [readData_transform_remote h.arrays hrest hlast]
          simp only [Mutation.applyToRemoteDocument, if_pos hnone,
            isValidFor_exists] at hd'
          cases hdata : readData doc with
          | none =>
              simp only [hdata, Option.isSome_none, Bool.false_eq_true,
                if_false] at hd'
              cases hd'
              rfl
          | some data =>
              simp only [hdata, Option.isSome_some, if_true] at hd'
              cases hd'
              rw [PatchMutation.patchDocument, hdata]
              rfl
  | deleteDocument =>
      cases hanswers with
      | @cons _ result _ rest hanswer hrest =>
          cases hrest
          obtain ⟨d', hd', hlast⟩ := acknowledged_cons hd
          have hnone : result.transformResults = none := hanswer
          simp only [Mutation.applyToRemoteDocument, if_pos hnone] at hd'
          cases hd'
          cases hlast
          rfl

/-! ## Batches of one call -/

/-- A batch that one predictable call has made. -/
structure MadeBy (b : MutationBatch) (key : DocumentKey) (call : Call) :
    Prop where
  mutations : b.mutations = call.mutations key
  bases : b.baseMutations = []
  predictable : call.Predictable

variable {b : MutationBatch} {key : DocumentKey} {call : Call}

theorem MadeBy.mem_keys_iff (h : MadeBy b key call) {key' : DocumentKey} :
    key' ∈ b.keys ↔ key' = key := by
  rw [Local.mem_keys_iff, h.mutations]
  constructor
  · rintro ⟨m, hm, rfl⟩
    exact Call.key_of_mem hm
  · rintro rfl
    obtain ⟨m, hm⟩ := List.exists_mem_of_ne_nil _ (call.mutations_ne_nil key')
    exact ⟨m, hm, Call.key_of_mem hm⟩

theorem MadeBy.readData_applyToRemoteDocument {r : MutationBatchResult}
    (h : MadeBy r.batch key call)
    (hanswers : List.Forall₂ IsAnswerTo r.batch.mutations r.mutationResults)
    {doc d : Option MaybeDocument}
    (hd : r.applyToRemoteDocument key doc = .ok d) :
    readData d = call.apply (readData doc) := by
  have hall : r.resultsFor key =
      (call.mutations key).zip r.mutationResults := by
    rw [MutationBatchResult.resultsFor, h.mutations, List.filter_eq_self]
    intro e he
    rw [decide_eq_true_eq]
    exact Call.key_of_mem (List.of_mem_zip he).1
  rw [h.mutations] at hanswers
  rw [MutationBatchResult.applyToRemoteDocument, hall] at hd
  exact readData_acknowledged h.predictable hanswers hd

structure Write where
  key : DocumentKey
  call : Call
deriving DecidableEq

def Write.mutations (w : Write) : List Mutation := w.call.mutations w.key

def written (writes : List Write) (key : DocumentKey)
    (data : Option ObjectValue) : Option ObjectValue :=
  writes.foldl
    (fun data w => if key = w.key then w.call.apply data else data) data

theorem written_cons (w : Write) (writes : List Write) (key : DocumentKey)
    (data : Option ObjectValue) :
    written (w :: writes) key data =
      written writes key (if key = w.key then w.call.apply data else data) := rfl

theorem written_filter {writes : List Write} {key : DocumentKey}
    {p : Write → Bool} (h : ∀ w ∈ writes, key = w.key → p w = true)
    (data : Option ObjectValue) :
    written (writes.filter p) key data = written writes key data := by
  induction writes generalizing data with
  | nil => rfl
  | cons w writes ih =>
      obtain ⟨hw, hrest⟩ := List.forall_mem_cons.mp h
      rw [List.filter_cons, written_cons]
      by_cases hkey : key = w.key
      · rw [if_pos (hw hkey), written_cons, ih hrest]
      · rw [if_neg hkey]
        split
        next => rw [written_cons, if_neg hkey, ih hrest]
        next => exact ih hrest data

theorem written_of_forall_ne {writes : List Write} {key : DocumentKey}
    (h : ∀ w ∈ writes, key ≠ w.key) (data : Option ObjectValue) :
    written writes key data = data := by
  have hnone := written_filter (p := fun _ => false)
    (fun w hw hkey => absurd hkey (h w hw)) data
  rw [List.filter_false] at hnone
  exact hnone.symm

theorem written_of_absolute {writes : List Write} {key : DocumentKey}
    (h : ∀ w ∈ writes, key = w.key →
      ∀ data data', w.call.apply data = w.call.apply data')
    (hsome : ∃ w ∈ writes, key = w.key) (data data' : Option ObjectValue) :
    written writes key data = written writes key data' := by
  induction writes generalizing data data' with
  | nil => simp at hsome
  | cons w writes ih =>
      obtain ⟨hw, hrest⟩ := List.forall_mem_cons.mp h
      rw [written_cons, written_cons]
      by_cases hkey : key = w.key
      · rw [if_pos hkey, if_pos hkey, hw hkey data data']
      · rw [if_neg hkey, if_neg hkey]
        obtain ⟨v, hv, hvkey⟩ := hsome
        rcases List.mem_cons.mp hv with rfl | hmem
        · exact absurd hvkey hkey
        · exact ih hrest ⟨v, hmem, hvkey⟩ data data'

theorem apply_of_no_patch {call : Call} (h : call.Predictable)
    {key : DocumentKey} (hpatch : ∀ value mask precondition,
      Mutation.patch key value mask precondition ∉ call.mutations key)
    (data data' : Option ObjectValue) : call.apply data = call.apply data' := by
  cases call with
  | setData parsed =>
      obtain ⟨data, _ | mask, fieldTransforms⟩ := parsed
      · rfl
      · exact absurd List.mem_cons_self (hpatch _ _ _)
  | updateData parsed => exact absurd List.mem_cons_self (hpatch _ _ _)
  | deleteDocument => rfl

abbrev MadeByAll (batches : List MutationBatch) (writes : List Write) : Prop :=
  List.Forall₂ (fun b w => MadeBy b w.key w.call) batches writes

theorem extractBaseValue_of_arrays {fieldTransforms : List FieldTransform}
    (h : ∀ t ∈ fieldTransforms, IsArrayTransform t.transformation)
    (doc : Option MaybeDocument) :
    TransformMutation.extractBaseValue fieldTransforms doc = none := by
  unfold TransformMutation.extractBaseValue
  induction fieldTransforms with
  | nil => rfl
  | cons t fieldTransforms ih =>
      obtain ⟨ht, hrest⟩ := List.forall_mem_cons.mp h
      have hnone : TransformMutation.addBaseValue doc none t = none := by
        unfold TransformMutation.addBaseValue
        cases hop : t.transformation with
        | serverTimestamp => rfl
        | arrayUnion elements => rfl
        | arrayRemove elements => rfl
        | increment operand =>
            rw [hop] at ht
            exact ht.elim
      rw [List.foldl_cons, hnone]
      exact ih hrest

theorem baseMutations_eq_nil {call : Call} (h : call.Predictable)
    (key : DocumentKey) (existing : MaybeDocumentMap) :
    (call.mutations key).filterMap (LocalStore.baseMutation existing) = [] := by
  have htransform {fieldTransforms : List FieldTransform}
      (ht : ∀ t ∈ fieldTransforms, IsArrayTransform t.transformation) :
      (transformMutations key fieldTransforms).filterMap
        (LocalStore.baseMutation existing) = [] := by
    unfold transformMutations
    split
    next => rfl
    next =>
      have hnone : LocalStore.baseMutation existing
          (.transform key fieldTransforms) = none := by
        rw [LocalStore.baseMutation, Mutation.extractBaseValue,
          extractBaseValue_of_arrays ht]
        rfl
      rw [List.filterMap_cons, hnone]
      rfl
  cases call with
  | setData parsed =>
      obtain ⟨data, _ | mask, fieldTransforms⟩ := parsed
      · have hnil : fieldTransforms = [] := h
        rw [hnil]
        rfl
      · exact htransform h.arrays
  | updateData parsed => exact htransform h.arrays
  | deleteDocument => rfl

/-! ## The view -/

variable [DoubleArithmetic]

theorem applyToLocalView_of_array {op : TransformOperation}
    (h : IsArrayTransform op) (previous : Option Model.FieldValue)
    (localWriteTime : Timestamp) :
    op.applyToLocalView previous localWriteTime =
      op.applyToRemoteDocument previous .null := by
  cases op with
  | serverTimestamp => exact h.elim
  | arrayUnion elements => rfl
  | arrayRemove elements => rfl
  | increment operand => exact h.elim

/-- Transforms of a document that has each field of the one before the
batch. -/
theorem localTransformResults_eq {fieldTransforms : List FieldTransform}
    (h : ∀ t ∈ fieldTransforms, IsArrayTransform t.transformation)
    {doc base : Option MaybeDocument}
    (hbase : ∀ t ∈ fieldTransforms,
      (readField doc t.path).or (readField base t.path) = readField doc t.path)
    (localWriteTime : Timestamp) :
    TransformMutation.localTransformResults fieldTransforms doc base
        localWriteTime =
      fieldTransforms.map fun t =>
        t.transformation.applyToRemoteDocument (readField doc t.path) .null := by
  unfold TransformMutation.localTransformResults
  refine List.map_congr_left fun t ht => ?_
  rw [hbase t ht, applyToLocalView_of_array (h t ht)]

theorem readData_transforms_local {key : DocumentKey}
    {fieldTransforms : List FieldTransform}
    (h : ∀ t ∈ fieldTransforms, IsArrayTransform t.transformation)
    {doc base : Option MaybeDocument}
    (hbase : ∀ t ∈ fieldTransforms,
      (readField doc t.path).or (readField base t.path) = readField doc t.path)
    (localWriteTime : Timestamp) :
    readData ((transformMutations key fieldTransforms).foldl
        (fun d m => m.applyToLocalView d base localWriteTime) doc) =
      (readData doc).map (transformed fieldTransforms) := by
  unfold transformMutations
  by_cases hnil : fieldTransforms = []
  · rw [if_pos hnil, hnil]
    exact Option.map_id'.symm
  · rw [if_neg hnil, List.foldl_cons, List.foldl_nil]
    simp only [Mutation.applyToLocalView, Mutation.precondition,
      isValidFor_exists]
    cases doc with
    | none => rfl
    | some doc =>
        cases doc with
        | document version data documentState =>
            simp only [localTransformResults_eq h hbase]
            rfl
        | noDocument version hasCommittedMutations => rfl
        | unknownDocument version => rfl

theorem readData_patch_local (key : DocumentKey) (value : ObjectValue)
    (mask : FieldMask) (precondition : Precondition)
    (doc base : Option MaybeDocument) (localWriteTime : Timestamp) :
    readData (Mutation.applyToLocalView (.patch key value mask precondition) doc
        base localWriteTime) =
      if precondition.isValidFor doc then
        some (PatchMutation.patchObject value mask ((readData doc).getD []))
      else readData doc := by
  unfold Mutation.applyToLocalView
  rw [Mutation.precondition]
  split
  next => rfl
  next => rfl

theorem readField_patch_local {mask : FieldMask}
    {fieldTransforms : List FieldTransform}
    (h : TransformsApart mask fieldTransforms) (key : DocumentKey)
    (value : ObjectValue) (precondition : Precondition)
    (doc : Option MaybeDocument) (localWriteTime : Timestamp) :
    ∀ t ∈ fieldTransforms,
      (readField (Mutation.applyToLocalView
          (.patch key value mask precondition) doc doc localWriteTime)
        t.path).or (readField doc t.path) =
      readField (Mutation.applyToLocalView
        (.patch key value mask precondition) doc doc localWriteTime)
        t.path := by
  intro t ht
  rw [readField, readField, readData_patch_local]
  split
  next =>
    rw [Option.bind_some, get_patchObject_of_apart (h.apart t ht)]
    cases readData doc with
    | none => exact Option.or_none
    | some data => exact Option.or_self
  next => exact Option.or_self

/-- In the view a predictable call does to the data what it means. -/
theorem readData_foldl_local {call : Call} (h : call.Predictable)
    (key : DocumentKey) (doc : Option MaybeDocument)
    (localWriteTime : Timestamp) :
    readData ((call.mutations key).foldl
        (fun d m => m.applyToLocalView d doc localWriteTime) doc) =
      call.apply (readData doc) := by
  cases call with
  | setData parsed =>
      obtain ⟨data, _ | fieldMask, fieldTransforms⟩ := parsed
      · have hnil : fieldTransforms = [] := h
        rw [hnil]
        rfl
      · rw [Call.mutations, ParsedSetData.toMutations, List.foldl_cons,
          readData_transforms_local h.arrays
            (readField_patch_local h key data .none doc localWriteTime),
          readData_patch_local]
        rfl
  | updateData parsed =>
      rw [Call.mutations, ParsedUpdateData.toMutations, List.foldl_cons,
        readData_transforms_local h.arrays (readField_patch_local h key
          parsed.data (.exists true) doc localWriteTime),
        readData_patch_local, isValidFor_exists, Call.apply]
      cases readData doc with
      | none => rfl
      | some data => rfl
  | deleteDocument => rfl

/-- What a batch does to the data in the view. -/
theorem MadeBy.readData_applyToLocalDocument (h : MadeBy b key call)
    (key' : DocumentKey) (doc : Option MaybeDocument) :
    readData (b.applyToLocalDocument key' doc) =
      if key' = key then call.apply (readData doc) else readData doc := by
  split
  next heq =>
    have hall : b.mutationsFor key' = call.mutations key := by
      rw [MutationBatch.mutationsFor, h.mutations, List.filter_eq_self]
      intro m hm
      rw [decide_eq_true_eq, heq]
      exact Call.key_of_mem hm
    rw [MutationBatch.applyToLocalDocument, MutationBatch.baseMutationsFor,
      h.bases, hall]
    exact readData_foldl_local h.predictable key doc b.localWriteTime
  next hne =>
    rw [LocalStore.applyToLocalDocument_of_not_mem]
    · simp [h.bases]
    · rwa [h.mem_keys_iff]

/-- What pending writes do to the data in the view. -/
theorem MadeByAll.readData_applyBatches {batches : List MutationBatch}
    {writes : List Write} (h : MadeByAll batches writes) (key : DocumentKey)
    (doc : Option MaybeDocument) :
    readData (LocalStore.applyBatches key doc batches) =
      written writes key (readData doc) := by
  unfold LocalStore.applyBatches written
  induction h generalizing doc with
  | nil => rfl
  | cons hb _ ih =>
      rw [List.foldl_cons, ih, hb.readData_applyToLocalDocument,
        List.foldl_cons]

end Grocr.Firestore.Api
