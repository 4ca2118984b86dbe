import Mathlib.Tactic.Common
import Grocr.Support.Checked
import Grocr.Support.SortedList
import Grocr.Firestore.Serializer
/-!
# Batches read back as they were written

Names without slashes survive the join and the split, and paths of fields
survive the escapes, as long as there is no null in them.
-/

namespace Grocr.Firestore.Model

open Grocr.Support Grocr.Support.Checked

/-! ## Names -/

namespace ResourcePath

/-- What `FromString` makes segments of. -/
def IsSegment (segment : String) : Prop :=
  segment ≠ "" ∧ '/' ∉ segment.toList

theorem splitOn_canonicalString {path : List String} (hne : path ≠ [])
    (h : ∀ segment ∈ path, IsSegment segment) :
    (canonicalString path).toList.splitOn '/' = path.map String.toList := by
  rw [canonicalString, String.toList_ofList]
  apply List.splitOn_intercalate
  · rw [List.forall_mem_map]
    exact fun segment hsegment => (h segment hsegment).2
  · simpa using hne

theorem nil_mem_splitOn {cs : List Char} (h : ['/', '/'] <:+: cs) :
    [] ∈ cs.splitOn '/' := by
  obtain ⟨before, after, rfl⟩ := h
  have hcs : before ++ ['/', '/'] ++ after = before ++ '/' :: '/' :: after := by
    simp
  rw [hcs, List.splitOn_append_cons_self, List.mem_append]
  have hslash : '/' :: after = [] ++ '/' :: after := rfl
  rw [hslash, List.splitOn_append_cons_self]
  simp

theorem fromStringView_canonicalString {path : List String} (hne : path ≠ [])
    (h : ∀ segment ∈ path, IsSegment segment) :
    fromStringView (canonicalString path) = .ok path := by
  have hsplit := splitOn_canonicalString hne h
  have hfull : ∀ segment ∈ path.map String.toList, segment ≠ [] := by
    rw [List.forall_mem_map]
    intro segment hsegment hnil
    exact (h segment hsegment).1 (String.toList_eq_nil_iff.mp hnil)
  have hslashes : ¬ ['/', '/'] <:+: (canonicalString path).toList := by
    intro hin
    have hmem := nil_mem_splitOn hin
    rw [hsplit] at hmem
    exact hfull [] hmem rfl
  rw [fromStringView, if_neg hslashes, hsplit, List.filter_eq_self.mpr,
    List.map_map]
  · simp [Function.comp_def]
  · simpa using hfull

end ResourcePath

/-! ## Paths of fields -/

namespace FieldPath

/-- The paths that can be read back. -/
def Legible (path : FieldPath) : Prop :=
  path ≠ [] ∧ ∀ segment ∈ path, segment ≠ "" ∧ '\x00' ∉ segment.toList

theorem escape_cons (c : Char) (segment : List Char) :
    escape (c :: segment) =
      (if c = backslash ∨ c = backtick then [backslash, c] else [c]) ++
        escape segment :=
  List.flatMap_cons

/-- A segment is read with its escapes taken away; dots are part of it within
backticks only. -/
theorem readSegments_escape {segment : List Char} (hnull : '\x00' ∉ segment)
    {insideBackticks : Bool} (hdot : insideBackticks = true ∨ '.' ∉ segment)
    (segments : FieldPath) (before rest : List Char) :
    readSegments segments before insideBackticks (escape segment ++ rest) =
      readSegments segments (before ++ segment) insideBackticks rest := by
  induction segment generalizing before with
  | nil => simp [escape]
  | cons c segment ih =>
      rw [List.mem_cons, not_or] at hnull
      have hdot' : insideBackticks = true ∨ '.' ∉ segment :=
        hdot.imp_right fun hnot hmem => hnot (List.mem_cons_of_mem c hmem)
      have hrest := ih hnull.2 hdot' (before ++ [c])
      rw [List.append_assoc, List.singleton_append] at hrest
      rw [← hrest, escape_cons]
      by_cases hescaped : c = backslash ∨ c = backtick
      · rw [if_pos hescaped]
        rfl
      · rw [if_neg hescaped]
        obtain ⟨hbackslash, hbacktick⟩ := not_or.mp hescaped
        rw [List.singleton_append, List.cons_append, readSegments,
          if_neg (Ne.symm hnull.1)]
        by_cases hc : c = '.'
        · have hinside : insideBackticks = true :=
            hdot.resolve_right fun hnot => hnot (hc ▸ List.mem_cons_self)
          rw [if_pos hc, if_pos hinside]
        · rw [if_neg hc, if_neg hbacktick, if_neg hbackslash]

theorem dot_notMem_of_isValidIdentifier {segment : List Char}
    (h : isValidIdentifier (escape segment)) : '.' ∉ segment := by
  intro hdot
  have hmem : '.' ∈ escape segment := by
    rw [escape, List.mem_flatMap]
    exact ⟨'.', hdot, by decide⟩
  cases hescaped : escape segment with
  | nil =>
      rw [hescaped] at hmem
      cases hmem
  | cons first rest =>
      rw [hescaped, isValidIdentifier, Bool.and_eq_true, List.all_eq_true] at h
      rw [hescaped] at hmem
      rcases List.mem_cons.mp hmem with rfl | hrest
      · exact absurd h.1 (by decide)
      · exact absurd (h.2 '.' hrest) (by decide)

theorem readSegments_escapedSegment {segment : List Char}
    (hnull : '\x00' ∉ segment) (segments : FieldPath) (rest : List Char) :
    readSegments segments [] false (escapedSegment segment ++ rest) =
      readSegments segments segment false rest := by
  rw [escapedSegment]
  split
  next hvalid =>
    exact readSegments_escape hnull
      (.inr (dot_notMem_of_isValidIdentifier hvalid)) segments [] rest
  next =>
    have hopen (before cs : List Char) (insideBackticks : Bool) :
        readSegments segments before insideBackticks (backtick :: cs) =
          readSegments segments before (!insideBackticks) cs := rfl
    rw [List.cons_append, hopen, List.append_assoc, Bool.not_false,
      readSegments_escape hnull (.inl rfl), List.nil_append,
      List.singleton_append, hopen]
    rfl

theorem finishSegment_toList {segment : String} (h : segment ≠ "")
    (segments : FieldPath) :
    finishSegment segments segment.toList = .ok (segments ++ [segment]) := by
  rw [finishSegment, if_neg (mt String.toList_eq_nil_iff.mp h),
    String.ofList_toList]

theorem readSegments_intercalate {path : FieldPath} (h : Legible path)
    (segments : FieldPath) :
    readSegments segments [] false (['.'].intercalate
        (path.map fun segment => escapedSegment segment.toList)) =
      .ok (segments ++ path) := by
  obtain ⟨hne, hlegible⟩ := h
  induction path generalizing segments with
  | nil => exact absurd rfl hne
  | cons segment path ih =>
      obtain ⟨⟨hfull, hnull⟩, hpath⟩ := List.forall_mem_cons.mp hlegible
      have hfinish := finishSegment_toList hfull segments
      cases path with
      | nil =>
          have hread := readSegments_escapedSegment hnull segments []
          rw [List.append_nil] at hread
          rw [List.map_singleton, List.intercalate_singleton, hread,
            readSegments, finishPath, hfinish, ok_bind, if_neg (by decide)]
          rfl
      | cons next path =>
          rw [List.map_cons, List.map_cons, List.intercalate_cons_cons,
            ← List.map_cons (f := fun segment : String =>
              escapedSegment segment.toList), List.append_assoc,
            readSegments_escapedSegment hnull, List.singleton_append,
            readSegments, if_neg (by decide), if_pos rfl, if_neg (by decide),
            hfinish, ok_bind, ih _ (List.cons_ne_nil _ _) hpath,
            List.append_assoc, List.singleton_append]

/-- The escapes of a path are taken away when it is read. -/
theorem fromServerFormat_canonicalString {path : FieldPath} (h : Legible path) :
    fromServerFormat (canonicalString path) = .ok path := by
  rw [fromServerFormat, canonicalString, String.toList_ofList,
    readSegments_intercalate h, List.nil_append]

end FieldPath

/-! ## What can be read back -/

def DocumentKey.Legible (key : DocumentKey) : Prop :=
  ∀ segment ∈ key.path, ResourcePath.IsSegment segment

def ObjectValue.Legible (fields : ObjectValue) : Prop :=
  entriesHaveServerTimestamp fields = false ∧ "" ∉ fields.map Prod.fst

def FieldTransform.Legible (t : FieldTransform) : Prop :=
  t.transformation.hasServerTimestamp = false ∧ t.path.Legible

def Mutation.Legible : Mutation → Prop
  | .set key value _ => key.Legible ∧ value.Legible
  | .patch key value mask _ => key.Legible ∧ value.Legible ∧
      mask.Pairwise (· < ·) ∧ ∀ path ∈ mask, path.Legible
  | .transform key fieldTransforms =>
      key.Legible ∧ ∀ t ∈ fieldTransforms, t.Legible
  | .delete key _ => key.Legible

/-- The IDs of the database are segments. -/
def DatabaseId.Legible (databaseId : DatabaseId) : Prop :=
  '/' ∉ databaseId.projectId.toList ∧ '/' ∉ databaseId.databaseId.toList

instance (path : FieldPath) : Decidable path.Legible :=
  inferInstanceAs (Decidable (_ ∧ _))

instance (key : DocumentKey) : Decidable key.Legible :=
  inferInstanceAs
    (Decidable (∀ segment ∈ key.path, segment ≠ "" ∧ '/' ∉ segment.toList))

instance (fields : ObjectValue) : Decidable fields.Legible :=
  inferInstanceAs (Decidable (_ ∧ _))

instance (t : FieldTransform) : Decidable t.Legible :=
  inferInstanceAs (Decidable (_ ∧ _))

instance (m : Mutation) : Decidable m.Legible :=
  match m with
  | .set _ _ _ => inferInstanceAs (Decidable (_ ∧ _))
  | .patch _ _ mask _ => inferInstanceAs (Decidable (_ ∧ _ ∧ _ ∧ ∀ path ∈ mask, _))
  | .transform _ fieldTransforms =>
      inferInstanceAs (Decidable (_ ∧ ∀ t ∈ fieldTransforms, _))
  | .delete key _ => inferInstanceAs (Decidable key.Legible)

end Grocr.Firestore.Model

namespace Grocr.Firestore.Remote.Serializer

open Grocr.Support Grocr.Support.Checked Grocr.Firestore.Model

variable {databaseId : DatabaseId}

theorem decodeKey_encodeKey (hdatabase : databaseId.Legible) {key : DocumentKey}
    (h : key.Legible) :
    decodeKey databaseId (encodeKey databaseId key) = .ok key := by
  have hsegments : ∀ segment ∈
      databaseName databaseId ++ "documents" :: key.path,
      ResourcePath.IsSegment segment := by
    simp only [databaseName, List.cons_append, List.nil_append,
      List.forall_mem_cons]
    exact ⟨⟨by decide, by decide⟩, ⟨databaseId.projectId_ne, hdatabase.1⟩,
      ⟨by decide, by decide⟩, ⟨databaseId.databaseId_ne, hdatabase.2⟩,
      ⟨by decide, by decide⟩, h⟩
  have hread := ResourcePath.fromStringView_canonicalString
    (List.append_ne_nil_of_right_ne_nil _ (List.cons_ne_nil _ _)) hsegments
  have hname : decodeResourceName (encodeKey databaseId key) =
      .ok (databaseName databaseId ++ "documents" :: key.path) := by
    rw [decodeResourceName, encodeKey, encodeResourceName, hread, ok_bind,
      if_pos (by simp [isValidResourceName, databaseName])]
    rfl
  have hvalid : validateDocumentKeyPath databaseId
      (databaseName databaseId ++ "documents" :: key.path) = .ok () := by
    rw [validateDocumentKeyPath, if_neg (by simp [databaseName]),
      if_neg (by simp [databaseName]), if_neg (by simp [databaseName])]
  have hlocal : extractLocalPathFromResourceName
      (databaseName databaseId ++ "documents" :: key.path) = .ok key.path := by
    rw [extractLocalPathFromResourceName, if_neg (by simp [databaseName])]
    rfl
  rw [decodeKey, hname, ok_bind, hvalid, ok_bind, hlocal, ok_bind,
    dif_pos key.even]
  rfl

theorem encodeFields_ok {fields : ObjectValue} (h : fields.Legible) :
    encodeFields fields = .ok fields := by
  rw [encodeFields, if_neg (by simp [h.1])]

theorem decodeFields_ok {fields : ObjectValue} (h : fields.Legible) :
    decodeFields fields = .ok fields := by
  rw [decodeFields, if_neg h.2]

theorem decodeFieldMask_map {mask : FieldMask} (hsorted : mask.Pairwise (· < ·))
    (h : ∀ path ∈ mask, path.Legible) :
    decodeFieldMask (mask.map FieldPath.canonicalString) = .ok mask := by
  have hread : (mask.map FieldPath.canonicalString).mapM
      FieldPath.fromServerFormat = .ok mask := by
    rw [List.mapM_map]
    refine (mapM_ok (g := id) fun path hpath => ?_).trans (by rw [List.map_id])
    exact FieldPath.fromServerFormat_canonicalString (h path hpath)
  rw [decodeFieldMask, hread, ok_bind]
  have hmem (path : FieldPath) : path ∈ (mask.foldl
      (fun (fields : Table FieldPath Unit) path => fields.insert path ())
        Table.empty).keys ↔
      path ∈ (Table.empty : Table FieldPath Unit).keys ∨
        ∃ field ∈ mask, field = path := Table.mem_keys_foldl_insert
  refine congrArg Except.ok (eq_of_increasing id (Table.keys_increasing _)
    hsorted fun path => (hmem path).trans ?_)
  simp [Table.notMem_keys_empty]

theorem decodeFieldTransform_encode {t : FieldTransform} (h : t.Legible) :
    ∃ proto, encodeFieldTransform t = .ok proto ∧
      decodeFieldTransform proto = .ok t := by
  refine ⟨⟨FieldPath.canonicalString t.path, t.transformation⟩, ?_, ?_⟩
  · rw [encodeFieldTransform, if_neg (by simp [h.1])]
  · rw [decodeFieldTransform, FieldPath.fromServerFormat_canonicalString h.2,
      ok_bind, dif_neg t.path_ne_nil]
    rfl

theorem decodeMutation_encode (hdatabase : databaseId.Legible) {m : Mutation}
    (h : m.Legible) :
    ∃ proto, encodeMutation databaseId m = .ok proto ∧
      decodeMutation databaseId proto = .ok m := by
  cases m with
  | set key value precondition =>
      obtain ⟨hkey, hvalue⟩ := h
      refine ⟨⟨precondition, .update (encodeKey databaseId key) value none⟩, ?_, ?_⟩
      · rw [encodeMutation, encodeFields_ok hvalue]
        rfl
      · rw [decodeMutation]
        simp only [decodeKey_encodeKey hdatabase hkey, decodeFields_ok hvalue,
          ok_bind]
        rfl
  | patch key value mask precondition =>
      obtain ⟨hkey, hvalue, hsorted, hmask⟩ := h
      refine ⟨⟨precondition, .update (encodeKey databaseId key) value
        (some (mask.map FieldPath.canonicalString))⟩, ?_, ?_⟩
      · rw [encodeMutation, encodeFields_ok hvalue]
        rfl
      · rw [decodeMutation]
        simp only [decodeKey_encodeKey hdatabase hkey, decodeFields_ok hvalue,
          decodeFieldMask_map hsorted hmask, ok_bind]
        rfl
  | transform key fieldTransforms =>
      obtain ⟨hkey, htransforms⟩ := h
      obtain ⟨protos, hencode, hdecode⟩ := mapM_roundTrip
        fun t ht => decodeFieldTransform_encode (htransforms t ht)
      refine ⟨⟨.exists true, .transform (encodeKey databaseId key) protos⟩, ?_, ?_⟩
      · rw [encodeMutation, hencode]
        rfl
      · rw [decodeMutation]
        simp only [hdecode, ok_bind, if_true, decodeKey_encodeKey hdatabase hkey]
        rfl
  | delete key precondition =>
      refine ⟨⟨precondition, .delete (encodeKey databaseId key)⟩, rfl, ?_⟩
      rw [decodeMutation]
      simp only [decodeKey_encodeKey hdatabase h, ok_bind]
      rfl

end Grocr.Firestore.Remote.Serializer

namespace Grocr.Firestore.Local.LocalSerializer

open Grocr.Support.Checked Grocr.Firestore.Model Grocr.Firestore.Remote

/-- A batch of legible mutations is read as it was written. -/
theorem decodeMutationBatch_encode {databaseId : DatabaseId}
    (hdatabase : databaseId.Legible) {batch : MutationBatch}
    (hbase : ∀ m ∈ batch.baseMutations, m.Legible)
    (h : ∀ m ∈ batch.mutations, m.Legible) :
    ∃ proto, encodeMutationBatch databaseId batch = .ok proto ∧
      decodeMutationBatch databaseId proto = .ok batch := by
  obtain ⟨baseWrites, hbaseEncode, hbaseDecode⟩ := mapM_roundTrip
    fun m hm => Serializer.decodeMutation_encode hdatabase (hbase m hm)
  obtain ⟨writes, hencode, hdecode⟩ := mapM_roundTrip
    fun m hm => Serializer.decodeMutation_encode hdatabase (h m hm)
  refine ⟨⟨batch.batchId, batch.localWriteTime, baseWrites, writes⟩, ?_, ?_⟩
  · rw [encodeMutationBatch, hbaseEncode, ok_bind, hencode]
    rfl
  · rw [decodeMutationBatch]
    simp only [hbaseDecode, hdecode, ok_bind, dif_neg batch.mutations_ne_nil]
    rfl

end Grocr.Firestore.Local.LocalSerializer
