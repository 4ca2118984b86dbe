import Mathlib.Data.Sigma.Order
import Mathlib.Tactic.Common
import Grocr.Firestore.LevelDbKey
/-!
# Keys are read back and sort by their components

A read of a key returns what was written and fails on anything else.  As every
component is an ordered code, the rows of all tables are sorted by the lists of
their components, and the rows under a prefix are those whose components start
with those of the prefix.
-/

namespace Grocr.Firestore.Local

open Grocr.Support Grocr.Support.Lexicographic
open Grocr.Firestore.Util.OrderedCode

/-! ## Reads one after the other -/

section Reader

variable {α β : Type}

@[simp] theorem readerBind_eq_ok {x : Reader α} {f : α → Reader β}
    {src rest : Bytes} {b : β} :
    (x >>= f) src = .ok (b, rest) ↔
      ∃ a mid, x src = .ok (a, mid) ∧ f a mid = .ok (b, rest) := by
  change (x src >>= fun e => f e.1 e.2) = _ ↔ _
  cases hx : x src with
  | error e => simp [Bind.bind, Except.bind]
  | ok e =>
      obtain ⟨a, mid⟩ := e
      simp [Bind.bind, Except.bind]

theorem readerBind_eq_error {x : Reader α} {f : α → Reader β} {src : Bytes}
    {e : ReadError} (h : x src = .error e) : (x >>= f) src = .error e := by
  change (x src >>= fun e => f e.1 e.2) = _
  rw [h]
  rfl

@[simp] theorem pure_eq_ok {a b : α} {src rest : Bytes} :
    (pure a : Reader α) src = .ok (b, rest) ↔ a = b ∧ src = rest := by
  change Except.ok (a, src) = _ ↔ _
  simp

@[simp] theorem readerMap_eq_ok {f : α → β} {x : Reader α} {b : β}
    {src rest : Bytes} :
    (f <$> x) src = .ok (b, rest) ↔ ∃ a, x src = .ok (a, rest) ∧ f a = b := by
  rw [map_eq_pure_bind, readerBind_eq_ok]
  simp only [pure_eq_ok]
  constructor
  · rintro ⟨a, mid, hx, rfl, rfl⟩
    exact ⟨a, hx, rfl⟩
  · rintro ⟨a, hx, rfl⟩
    exact ⟨a, rest, hx, rfl, rfl⟩

theorem fail_ne_ok {b : α} {src rest : Bytes} :
    ¬ (fail : Reader α) src = .ok (b, rest) := by
  change ¬ Except.error ReadError.failed = _
  simp

end Reader

/-! ## Components -/

theorem componentLabel_inInt64 (label : ComponentLabel) :
    InInt64 label.value := by
  unfold InInt64
  cases label <;> decide

theorem readInt64_iff {src rest : Bytes} {val : Int} :
    readInt64 src = .ok (val, rest) ↔
      InInt64 val ∧ src = writeSignedNumIncreasing val ++ rest :=
  readSigned_iff

theorem readBytes_iff {src rest s : Bytes} :
    readBytes src = .ok (s, rest) ↔ src = writeString s ++ rest := by
  constructor
  · exact writeString_of_readString
  · intro h
    rw [h]
    exact readString_writeString s rest

theorem InInt32.inInt64 {val : Int} (h : InInt32 val) : InInt64 val := by
  unfold InInt32 at h
  unfold InInt64
  omega

theorem readInt32_iff {src rest : Bytes} {val : Int} :
    readInt32 src = .ok (val, rest) ↔
      InInt32 val ∧ src = writeSignedNumIncreasing val ++ rest := by
  rw [readInt32, readerBind_eq_ok]
  constructor
  · intro ⟨raw, mid, hraw, hreturn⟩
    split at hreturn
    next hin =>
      obtain ⟨rfl, rfl⟩ := pure_eq_ok.mp hreturn
      exact ⟨hin, (readInt64_iff.mp hraw).2⟩
    next => exact absurd hreturn fail_ne_ok
  · intro ⟨hin, hsrc⟩
    refine ⟨val, rest, readInt64_iff.mpr ⟨hin.inInt64, hsrc⟩, ?_⟩
    rw [if_pos hin]
    exact pure_eq_ok.mpr ⟨rfl, rfl⟩

theorem readLabel_iff {label : ComponentLabel} {src rest : Bytes} {u : Unit} :
    readLabel label src = .ok (u, rest) ↔
      src = writeComponentLabel label ++ rest := by
  rw [readLabel, readerBind_eq_ok]
  constructor
  · intro ⟨matching, mid, hmatching, hreturn⟩
    obtain ⟨raw, mid', hraw, hmatch⟩ := readerBind_eq_ok.mp hmatching
    obtain ⟨rfl, rfl⟩ := pure_eq_ok.mp hmatch
    split at hreturn
    next hlabel =>
      obtain ⟨-, rfl⟩ := pure_eq_ok.mp hreturn
      rw [(readInt64_iff.mp hraw).2, of_decide_eq_true hlabel]
      rfl
    next => exact absurd hreturn fail_ne_ok
  · intro hsrc
    refine ⟨true, rest, readerBind_eq_ok.mpr ⟨label.value, rest, ?_, ?_⟩, ?_⟩
    · exact readInt64_iff.mpr ⟨componentLabel_inInt64 label, hsrc⟩
    · exact pure_eq_ok.mpr ⟨decide_eq_true rfl, rfl⟩
    · exact pure_eq_ok.mpr ⟨rfl, rfl⟩

theorem readLabeledInt32_iff {label : ComponentLabel} {src rest : Bytes}
    {val : Int} :
    readLabeledInt32 label src = .ok (val, rest) ↔
      InInt32 val ∧ src = writeLabeledInt32 label val ++ rest := by
  rw [readLabeledInt32, readerBind_eq_ok]
  simp only [readLabel_iff, readInt32_iff]
  constructor
  · rintro ⟨-, mid, hlabel, hin, rfl⟩
    rw [hlabel, writeLabeledInt32, List.append_assoc]
    exact ⟨hin, rfl⟩
  · intro ⟨hin, hsrc⟩
    rw [writeLabeledInt32, List.append_assoc] at hsrc
    exact ⟨(), _, hsrc, hin, rfl⟩

theorem readLabeledString_iff {label : ComponentLabel} {src rest s : Bytes} :
    readLabeledString label src = .ok (s, rest) ↔
      src = writeLabeledString label s ++ rest := by
  rw [readLabeledString, readerBind_eq_ok]
  simp only [readLabel_iff, readBytes_iff]
  constructor
  · rintro ⟨-, mid, hlabel, rfl⟩
    rw [hlabel, writeLabeledString, List.append_assoc]
  · intro hsrc
    rw [writeLabeledString, List.append_assoc] at hsrc
    exact ⟨(), _, hsrc, rfl⟩

@[simp] theorem readTableNameMatching_iff {tableName src rest : Bytes} {u : Unit} :
    readTableNameMatching tableName src = .ok (u, rest) ↔
      src = writeTableName tableName ++ rest := by
  rw [readTableNameMatching, readerBind_eq_ok]
  simp only [readLabeledString_iff]
  constructor
  · intro ⟨name, mid, hname, hreturn⟩
    split at hreturn
    next heq =>
      obtain ⟨-, rfl⟩ := pure_eq_ok.mp hreturn
      rw [hname, heq]
      rfl
    next => exact absurd hreturn fail_ne_ok
  · intro hsrc
    refine ⟨tableName, rest, hsrc, ?_⟩
    rw [if_pos rfl]
    exact pure_eq_ok.mpr ⟨rfl, rfl⟩

@[simp] theorem readSnapshotVersion_iff {src rest : Bytes} {version : Int × Int} :
    readSnapshotVersion src = .ok (version, rest) ↔
      ValidateBounds version.1 version.2 ∧
        src = writeSnapshotVersion version ++ rest := by
  rw [readSnapshotVersion, readerBind_eq_ok]
  simp only [readLabel_iff, readerBind_eq_ok, readInt64_iff]
  constructor
  · rintro ⟨-, mid, hlabel, seconds, mid', ⟨-, rfl⟩, hreturn⟩
    split at hreturn
    next nanos rest' hnanos =>
      split at hreturn
      next hbounds =>
        cases hreturn
        rw [hlabel, (readInt32_iff.mp hnanos).2]
        simp [hbounds, writeSnapshotVersion]
      next => cases hreturn
    next => split at hreturn <;> cases hreturn
    next => cases hreturn
  · intro ⟨hbounds, hsrc⟩
    obtain ⟨seconds, nanos⟩ := version
    have hin : InInt64 seconds ∧ InInt32 nanos := by
      unfold ValidateBounds at hbounds
      unfold InInt64 InInt32
      omega
    have hnanos : readInt32 (writeSignedNumIncreasing nanos ++ rest) =
        .ok (nanos, rest) := readInt32_iff.mpr ⟨hin.2, rfl⟩
    refine ⟨(), writeSignedNumIncreasing seconds ++
      (writeSignedNumIncreasing nanos ++ rest), ?_, seconds,
      writeSignedNumIncreasing nanos ++ rest, ⟨hin.1, rfl⟩, ?_⟩
    · simp [hsrc, writeSnapshotVersion]
    · rw [hnanos]
      exact if_pos hbounds

theorem readTableNameMatching_of_ne {expected tableName : Bytes}
    (h : tableName ≠ expected) (rest : Bytes) :
    readTableNameMatching expected (writeTableName tableName ++ rest) =
      .error .failed := by
  have hread : readLabeledString .tableName (writeTableName tableName ++ rest) =
      .ok (tableName, rest) := readLabeledString_iff.mpr rfl
  change (readLabeledString .tableName (writeTableName tableName ++ rest) >>=
    fun e => _) = _
  rw [hread]
  change (if tableName = expected then _ else fail : Reader Unit) rest = _
  rw [if_neg h]
  rfl

/-! ## Paths -/

/-- No segment follows: the key ends, or another label is next. -/
def EndsPath (rest : Bytes) : Prop :=
  rest = [] ∨ ∃ raw tail, readSignedNumIncreasing rest = .ok (raw, tail) ∧
    raw ≠ ComponentLabel.pathSegment.value

theorem readSigned_label (label : ComponentLabel) (rest : Bytes) :
    readSignedNumIncreasing (writeComponentLabel label ++ rest) =
      .ok (label.value, rest) :=
  readSigned_writeSigned (componentLabel_inInt64 label) rest

theorem endsPath_label {label : ComponentLabel} (h : label ≠ .pathSegment)
    (rest : Bytes) : EndsPath (writeComponentLabel label ++ rest) := by
  refine .inr ⟨label.value, rest, readSigned_label label rest, ?_⟩
  cases label
  case pathSegment => exact absurd rfl h
  all_goals decide

theorem writeComponentLabel_ne_nil (label : ComponentLabel) :
    writeComponentLabel label ≠ [] :=
  writeSigned_ne_nil (componentLabel_inInt64 label)

theorem readResourcePath_cons (segment rest : Bytes) :
    readResourcePath (writeLabeledString .pathSegment segment ++ rest) =
      (readResourcePath rest).map fun e => (segment :: e.1, e.2) := by
  have hlabel := readSigned_label .pathSegment (writeString segment ++ rest)
  have hsegment := readString_writeString segment rest
  rw [← List.append_assoc, ← writeLabeledString] at hlabel
  have hne : writeLabeledString .pathSegment segment ++ rest ≠ [] := by
    simp [writeLabeledString, writeComponentLabel_ne_nil]
  rw [readResourcePath, if_neg hne]
  split
  next e herror =>
    rw [hlabel] at herror
    cases herror
  next raw mid hraw =>
    rw [hlabel] at hraw
    cases hraw
    rw [if_pos rfl]
    split
    next e herror =>
      rw [hsegment] at herror
      cases herror
    next s rest' hread =>
      rw [hsegment] at hread
      cases hread
      rfl

theorem readResourcePath_nil {rest : Bytes} (h : EndsPath rest) :
    readResourcePath rest = .ok ([], rest) := by
  rw [readResourcePath]
  rcases h with rfl | ⟨raw, tail, hraw, hlabel⟩
  · rw [if_pos rfl]
  · split
    next hnil => rw [hnil]
    next =>
      split
      next e herror =>
        rw [hraw] at herror
        cases herror
      next raw' mid hraw' =>
        rw [hraw] at hraw'
        cases hraw'
        rw [if_neg hlabel]

theorem readResourcePath_cases {src rest : Bytes} {path : List Bytes}
    (h : readResourcePath src = .ok (path, rest)) :
    path = [] ∧ src = rest ∧ EndsPath rest ∨
      ∃ segment path' mid, path = segment :: path' ∧
        src = writeLabeledString .pathSegment segment ++ mid ∧
          readResourcePath mid = .ok (path', rest) := by
  rw [readResourcePath] at h
  split at h
  next hnil =>
    cases h
    exact .inl ⟨rfl, hnil, .inl rfl⟩
  next =>
    split at h
    next => cases h
    next raw mid hraw =>
      split at h
      next hlabel =>
        split at h
        next => cases h
        next segment rest' hsegment =>
          obtain ⟨⟨path', rest⟩, hpath, heq⟩ := Checked.map_eq_ok.mp h
          cases heq
          refine .inr ⟨segment, path', rest', rfl, ?_, hpath⟩
          rw [(readSigned_iff.mp hraw).2, hlabel,
            writeString_of_readString hsegment, writeLabeledString,
            List.append_assoc]
          rfl
      next hlabel =>
        cases h
        exact .inl ⟨rfl, rfl, .inr ⟨raw, mid, hraw, hlabel⟩⟩

@[simp] theorem readResourcePath_iff {src rest : Bytes} {path : List Bytes} :
    readResourcePath src = .ok (path, rest) ↔
      EndsPath rest ∧ src = writeResourcePath path ++ rest := by
  constructor
  · intro h
    induction path generalizing src with
    | nil =>
        rcases readResourcePath_cases h with ⟨-, hsrc, hends⟩ | ⟨_, _, _, hpath, _⟩
        · exact ⟨hends, hsrc⟩
        · cases hpath
    | cons segment path ih =>
        rcases readResourcePath_cases h with ⟨hpath, _⟩ |
          ⟨segment', path', mid, hpath, hsrc, hmid⟩
        · cases hpath
        · cases hpath
          obtain ⟨hends, hrest⟩ := ih hmid
          rw [hsrc, hrest]
          simp [hends, writeResourcePath]
  · rintro ⟨hends, rfl⟩
    induction path with
    | nil => exact readResourcePath_nil hends
    | cons segment path ih =>
        have hcons : writeResourcePath (segment :: path) ++ rest =
            writeLabeledString .pathSegment segment ++
              (writeResourcePath path ++ rest) := by
          simp [writeResourcePath]
        rw [hcons, readResourcePath_cons, ih]
        rfl

def IsDocumentKey (path : List Bytes) : Prop :=
  path ≠ [] ∧ path.length % 2 = 0

@[simp] theorem readDocumentKey_iff {src rest : Bytes} {path : List Bytes} :
    readDocumentKey src = .ok (path, rest) ↔
      IsDocumentKey path ∧ EndsPath rest ∧
        src = writeResourcePath path ++ rest := by
  rw [readDocumentKey, readerBind_eq_ok]
  simp only [readResourcePath_iff]
  constructor
  · intro ⟨path', mid, hpath, hreturn⟩
    split at hreturn
    next hkey =>
      obtain ⟨rfl, rfl⟩ := pure_eq_ok.mp hreturn
      exact ⟨hkey, hpath⟩
    next => exact absurd hreturn fail_ne_ok
  · intro ⟨hkey, hpath⟩
    refine ⟨path, rest, hpath, ?_⟩
    rw [if_pos ⟨hkey.1, hkey.2⟩]
    exact pure_eq_ok.mpr ⟨rfl, rfl⟩

/-! ## The keys of the tables -/

section

variable {src rest : Bytes}

@[simp] theorem readUserId_iff {userId : Bytes} :
    readUserId src = .ok (userId, rest) ↔ src = writeUserId userId ++ rest :=
  readLabeledString_iff

@[simp] theorem readCanonicalId_iff {canonicalId : Bytes} :
    readCanonicalId src = .ok (canonicalId, rest) ↔
      src = writeCanonicalId canonicalId ++ rest :=
  readLabeledString_iff

@[simp] theorem readCollectionId_iff {collectionId : Bytes} :
    readCollectionId src = .ok (collectionId, rest) ↔
      src = writeCollectionId collectionId ++ rest :=
  readLabeledString_iff

@[simp] theorem readDocumentId_iff {documentId : Bytes} :
    readDocumentId src = .ok (documentId, rest) ↔
      src = writeDocumentId documentId ++ rest :=
  readLabeledString_iff

@[simp] theorem readBatchId_iff {batchId : Int} :
    readBatchId src = .ok (batchId, rest) ↔
      InInt32 batchId ∧ src = writeBatchId batchId ++ rest :=
  readLabeledInt32_iff

@[simp] theorem readTargetId_iff {targetId : Int} :
    readTargetId src = .ok (targetId, rest) ↔
      InInt32 targetId ∧ src = writeTargetId targetId ++ rest :=
  readLabeledInt32_iff

@[simp] theorem readTerminator_iff {u : Unit} :
    readTerminator src = .ok (u, rest) ↔ src = writeTerminator ++ rest :=
  readLabel_iff

@[simp] theorem endsPath_terminator : EndsPath (writeTerminator ++ rest) :=
  endsPath_label (by decide) rest

@[simp] theorem endsPath_batchId {batchId : Int} :
    EndsPath (writeBatchId batchId ++ rest) := by
  rw [writeBatchId, writeLabeledInt32, List.append_assoc]
  exact endsPath_label (by decide) _

@[simp] theorem endsPath_targetId {targetId : Int} :
    EndsPath (writeTargetId targetId ++ rest) := by
  rw [writeTargetId, writeLabeledInt32, List.append_assoc]
  exact endsPath_label (by decide) _

@[simp] theorem endsPath_snapshotVersion {version : Int × Int} :
    EndsPath (writeSnapshotVersion version ++ rest) := by
  rw [writeSnapshotVersion, List.append_assoc]
  exact endsPath_label (by decide) _

theorem LevelDbMutationKey.reader_iff {userId : Bytes} {batchId : Int} :
    reader src = .ok ((userId, batchId), rest) ↔
      InInt32 batchId ∧ src = key userId batchId ++ rest := by
  simp [reader, key]
  tauto

theorem LevelDbDocumentMutationKey.reader_iff {userId : Bytes} {documentKey : List Bytes}
    {batchId : Int} :
    reader src = .ok ((userId, documentKey, batchId), rest) ↔
      (IsDocumentKey documentKey ∧ InInt32 batchId) ∧
        src = key userId documentKey batchId ++ rest := by
  simp [reader, key]
  tauto

theorem LevelDbMutationQueueKey.reader_iff {userId : Bytes} :
    reader src = .ok (userId, rest) ↔
      src = key userId ++ rest := by
  simp [reader, key]

theorem LevelDbTargetGlobalKey.reader_iff {u : Unit} :
    reader src = .ok (u, rest) ↔
      src = key ++ rest := by
  simp [reader, key]

theorem LevelDbTargetKey.reader_iff {targetId : Int} :
    reader src = .ok (targetId, rest) ↔
      InInt32 targetId ∧ src = key targetId ++ rest := by
  simp [reader, key]
  tauto

theorem LevelDbQueryTargetKey.reader_iff {canonicalId : Bytes} {targetId : Int} :
    reader src = .ok ((canonicalId, targetId), rest) ↔
      InInt32 targetId ∧ src = key canonicalId targetId ++ rest := by
  simp [reader, key]
  tauto

theorem LevelDbTargetDocumentKey.reader_iff {targetId : Int}
    {documentKey : List Bytes} :
    reader src = .ok ((targetId, documentKey), rest) ↔
      (InInt32 targetId ∧ IsDocumentKey documentKey) ∧
        src = key targetId documentKey ++ rest := by
  simp [reader, key]
  tauto

theorem LevelDbDocumentTargetKey.reader_iff {documentKey : List Bytes}
    {targetId : Int} :
    reader src = .ok ((documentKey, targetId), rest) ↔
      (IsDocumentKey documentKey ∧ InInt32 targetId) ∧
        src = key documentKey targetId ++ rest := by
  simp [reader, key]
  tauto

theorem LevelDbRemoteDocumentKey.reader_iff {documentKey : List Bytes} :
    reader src = .ok (documentKey, rest) ↔
      IsDocumentKey documentKey ∧ src = key documentKey ++ rest := by
  simp [reader, key]
  tauto

theorem LevelDbCollectionParentKey.reader_iff {collectionId : Bytes} {parent : List Bytes} :
    reader src = .ok ((collectionId, parent), rest) ↔
      src = key collectionId parent ++ rest := by
  simp [reader, key]

theorem LevelDbRemoteDocumentReadTimeKey.reader_iff {collectionPath : List Bytes}
    {readTime : Int × Int} {documentId : Bytes} :
    reader src = .ok ((collectionPath, readTime, documentId), rest) ↔
      ValidateBounds readTime.1 readTime.2 ∧
        src = key collectionPath readTime documentId ++ rest := by
  simp [reader, key]
  tauto

end

end Grocr.Firestore.Local
