import Mathlib.Tactic.Common
import Grocr.Proofs.LevelDbMutationQueue
/-!
# The IDs of batches after a restart

The queue looks for the largest ID on disk by seeking from one user to the
next.  Whoever wrote a batch, the IDs that follow are larger.
-/

namespace Grocr.Firestore.Local

open Grocr.Support Grocr.Support.Checked

/-! ## The end of a prefix -/

theorem prefixSuccessor_append {w : Bytes} {b : UInt8} (hb : b ≠ 0xff) :
    prefixSuccessor (w ++ [b]) = w ++ [b + 1] := by
  simp [prefixSuccessor, hb]

theorem lt_append_succ_iff {w x : Bytes} {b : UInt8} (hb : b ≠ 0xff) :
    x < w ++ [b + 1] ↔ x < w ++ [b] ∨ w ++ [b] <+: x := by
  have hsucc (c : UInt8) : c < b + 1 ↔ c < b ∨ c = b := by
    have hmax : b.toNat ≠ 255 := fun h => hb (UInt8.toNat_inj.mp h)
    have hbound := b.toNat_lt
    rw [UInt8.lt_iff_toNat_lt, UInt8.lt_iff_toNat_lt, ← UInt8.toNat_inj,
      UInt8.toNat_add, UInt8.toNat_one]
    omega
  induction w generalizing x with
  | nil =>
      cases x with
      | nil => simp
      | cons c x =>
          simp only [List.nil_append, List.cons_lt_cons_iff, hsucc,
            List.cons_prefix_cons, List.not_lt_nil, and_false, or_false,
            List.nil_prefix, and_true]
          rw [eq_comm (a := b)]
  | cons a w ih =>
      cases x with
      | nil => simp
      | cons c x =>
          simp only [List.cons_append, List.cons_lt_cons_iff, ih,
            List.cons_prefix_cons]
          rw [eq_comm (a := a)]
          tauto

theorem exists_keyPrefixOfUser (u : Bytes) :
    ∃ w, LevelDbMutationKey.keyPrefixOfUser u = w ++ [1] := by
  refine ⟨writeTableName kMutationsTable ++ (writeComponentLabel .userId ++
    (Util.OrderedCode.encodeStringFragment u ++ [0])), ?_⟩
  rw [LevelDbMutationKey.keyPrefixOfUser, writeUserId, writeLabeledString,
    Util.OrderedCode.writeString]
  simp [Util.OrderedCode.kEscape1, Util.OrderedCode.kSeparator]

theorem lt_userEnd_iff (u key : Bytes) :
    key < prefixSuccessor (LevelDbMutationKey.keyPrefixOfUser u) ↔
      key < LevelDbMutationKey.keyPrefixOfUser u ∨
        LevelDbMutationKey.keyPrefixOfUser u <+: key := by
  obtain ⟨w, hw⟩ := exists_keyPrefixOfUser u
  rw [hw, prefixSuccessor_append (by decide), lt_append_succ_iff (by decide)]

/-! ## From one user to the next -/

theorem le_userRow (u : Bytes) (id : Number32) :
    LevelDbMutationKey.keyPrefixOfUser u ≤ (RowKey.mutation u id).key :=
  Lexicographic.le_of_prefix (RowKey.mutationPrefix_iff.mpr ⟨id, rfl⟩)

theorem userRow_lt_userEnd (u : Bytes) (id : Number32) :
    (RowKey.mutation u id).key <
      prefixSuccessor (LevelDbMutationKey.keyPrefixOfUser u) :=
  (lt_userEnd_iff u _).mpr (.inr (RowKey.mutationPrefix_iff.mpr ⟨id, rfl⟩))

theorem userEnd_le_userRow {u v : Bytes} (h : u < v) (id : Number32) :
    prefixSuccessor (LevelDbMutationKey.keyPrefixOfUser u) ≤
      (RowKey.mutation v id).key := by
  rw [← not_lt, lt_userEnd_iff]
  rintro (hlt | hstarts)
  · have hback := hlt.trans_le (le_userRow u id)
    rcases RowKey.mutation_lt_iff.mp hback with hvu | ⟨rfl, -⟩
    · exact hvu.not_gt h
    · exact absurd h (lt_irrefl _)
  · obtain ⟨_, hsame⟩ := RowKey.mutationPrefix_iff.mp hstarts
    exact h.ne' (RowKey.mutation.inj hsame).1

theorem userRow_lt_userStart {u v : Bytes} (h : u < v) (id : Number32) :
    (RowKey.mutation u id).key < LevelDbMutationKey.keyPrefixOfUser v := by
  rw [← not_le]
  intro hle
  have hlt : (RowKey.mutation u id).key < (RowKey.mutation v id).key :=
    RowKey.mutation_lt_iff.mpr (.inl h)
  obtain ⟨_, hsame⟩ := RowKey.mutationPrefix_iff.mp
    (Lexicographic.prefix_of_le_of_le
      (RowKey.mutationPrefix_iff.mpr ⟨id, rfl⟩) hle hlt.le)
  exact h.ne (RowKey.mutation.inj hsame).1

section

variable {db : LevelDb RowValue} {u : Bytes}

def HasBatch (db : LevelDb RowValue) (u : Bytes) (id : Number32) : Prop :=
  (RowKey.mutation u id).key ∈ db.keys

theorem HasBatch.exists_entry {id : Number32} (h : HasBatch db u id) :
    ∃ value, ((RowKey.mutation u id).key, value) ∈ db.entries :=
  Table.mem_keys.mp h

theorem lastBefore_userEnd (hdb : ∀ key ∈ db.keys, ∃ r : RowKey, r.key = key)
    {id₀ : Number32} (h : HasBatch db u id₀) :
    ∃ id value, db.lastBefore
        (prefixSuccessor (LevelDbMutationKey.keyPrefixOfUser u)) =
          some ((RowKey.mutation u id).key, value) ∧
      HasBatch db u id ∧ ∀ id', HasBatch db u id' → id'.1 ≤ id.1 := by
  obtain ⟨value₀, hmem₀⟩ := h.exists_entry
  obtain ⟨row, hrow⟩ :=
    Table.exists_lastBefore hmem₀ (userRow_lt_userEnd u id₀)
  obtain ⟨hmem, hlt, hlast⟩ := Table.lastBefore_eq_some hrow
  have hkey : row.1 ∈ db.keys := List.mem_map_of_mem hmem
  have hstarts : LevelDbMutationKey.keyPrefixOfUser u <+: row.1 := by
    rcases (lt_userEnd_iff u row.1).mp hlt with hbefore | hstarts
    · have hle := hlast _ hmem₀ (userRow_lt_userEnd u id₀)
      exact absurd ((le_userRow u id₀).trans hle) hbefore.not_ge
    · exact hstarts
  obtain ⟨r, hr⟩ := hdb row.1 hkey
  rw [← hr] at hstarts
  obtain ⟨id, rfl⟩ := RowKey.mutationPrefix_iff.mp hstarts
  refine ⟨id, row.2, ?_, ?_, ?_⟩
  · rw [hrow, hr]
  · rw [HasBatch, hr]
    exact hkey
  · intro id' hid'
    obtain ⟨value', hmem'⟩ := hid'.exists_entry
    have hle := hlast _ hmem' (userRow_lt_userEnd u id')
    rw [← hr] at hle
    apply not_lt.mp
    intro hlt'
    exact hle.not_gt (RowKey.mutation_lt_iff.mpr (.inr ⟨rfl, hlt'⟩))

/-- What follows the end of a user is the next user with a row, if there is one.
-/
theorem endOfUser_ok (hdb : ∀ key ∈ db.keys, ∃ r : RowKey, r.key = key)
    {id₀ : Number32} (h : HasBatch db u id₀) :
    ∃ id value more, LevelDbMutationQueue.endOfUser db
        (prefixSuccessor (LevelDbMutationKey.keyPrefixOfUser u)) =
          .ok (some ((RowKey.mutation u id).key, value), more) ∧
      HasBatch db u id ∧ (∀ id', HasBatch db u id' → id'.1 ≤ id.1) ∧
      (more = none ∧ (∀ v id', u < v → ¬ HasBatch db v id') ∨
        ∃ v id', more = some v ∧ u < v ∧ HasBatch db v id' ∧
          ∀ w id'', u < w → HasBatch db w id'' → v ≤ w) := by
  obtain ⟨id, value, hlast, hbatch, hlargest⟩ := lastBefore_userEnd hdb h
  rw [LevelDbMutationQueue.endOfUser]
  cases hrows : db.entriesFrom
      (prefixSuccessor (LevelDbMutationKey.keyPrefixOfUser u)) with
  | nil =>
      refine ⟨id, value, none, ?_, hbatch, hlargest, .inl ⟨rfl, ?_⟩⟩
      · simp only [Table.getLast?_eq_lastBefore hrows, hlast]
      · intro v id' huv hv
        obtain ⟨_, hmem⟩ := hv.exists_entry
        have hlt := Table.entriesFrom_eq_nil hrows hmem
        exact (userEnd_le_userRow huv id').not_gt hlt
  | cons row rest =>
      obtain ⟨hmem, hfrom, hleast⟩ := Table.entriesFrom_eq_cons hrows
      have hkey : row.1 ∈ db.keys := List.mem_map_of_mem hmem
      obtain ⟨r, hr⟩ := hdb row.1 hkey
      have hnext {v : Bytes} {id' : Number32} (huv : u < v)
          (hv : HasBatch db v id') : r.key ≤ (RowKey.mutation v id').key := by
        obtain ⟨_, hmem'⟩ := hv.exists_entry
        rw [hr]
        exact hleast _ hmem' (userEnd_le_userRow huv id')
      have hafter : (RowKey.mutation u id).key < r.key := by
        rw [hr]
        exact (userRow_lt_userEnd u id).trans_le hfrom
      simp only [← hr, hlast]
      by_cases htable : r.table = .mutations
      · obtain ⟨v, id', rfl⟩ := RowKey.exists_of_table htable
        have huv : u < v := by
          rcases RowKey.mutation_lt_iff.mp hafter with huv | ⟨rfl, -⟩
          · exact huv
          · rw [← hr] at hfrom
            exact absurd (userRow_lt_userEnd u id') hfrom.not_gt
        refine ⟨id, value, some v, ?_, hbatch, hlargest,
          .inr ⟨v, id', rfl, huv, ?_, ?_⟩⟩
        · rw [tryDecode_mutation]
          rfl
        · rw [HasBatch, hr]
          exact hkey
        · intro w id'' huw hw
          apply not_lt.mp
          intro hwv
          exact (hnext huw hw).not_gt (RowKey.mutation_lt_iff.mpr (.inl hwv))
      · refine ⟨id, value, none, ?_, hbatch, hlargest, .inl ⟨rfl, ?_⟩⟩
        · rw [tryDecode_of_table htable]
          rfl
        · intro v id' huv hv
          -- all between two rows of the table are in the table
          have hstarts {w : Bytes} {i : Number32} :
              LevelDbMutationKey.keyPrefix <+: (RowKey.mutation w i).key :=
            RowKey.mutationTable_iff.mpr ⟨w, i, rfl⟩
          have hle : LevelDbMutationKey.keyPrefix ≤ r.key :=
            (Lexicographic.le_of_prefix hstarts).trans hafter.le
          obtain ⟨_, _, rfl⟩ := RowKey.mutationTable_iff.mp
            (Lexicographic.prefix_of_le_of_le hstarts hle (hnext huv hv))
          exact htable rfl

/-! ## The loop over the users -/

def rowsOfUsers (db : LevelDb RowValue) (u : Bytes) : List (Row RowValue) :=
  db.entries.filter (fun row => LevelDbMutationKey.keyPrefixOfUser u ≤ row.1)

theorem length_rowsOfUsers_lt {v : Bytes} (h : u < v) {id : Number32}
    (hid : HasBatch db u id) :
    (rowsOfUsers db v).length < (rowsOfUsers db u).length := by
  have hle : LevelDbMutationKey.keyPrefixOfUser u ≤
      LevelDbMutationKey.keyPrefixOfUser v :=
    (le_userRow u id).trans (userRow_lt_userStart h id).le
  have hpart : rowsOfUsers db v = (rowsOfUsers db u).filter
      (fun row => LevelDbMutationKey.keyPrefixOfUser v ≤ row.1) := by
    rw [rowsOfUsers, rowsOfUsers, List.filter_filter]
    refine List.filter_congr fun row _ => ?_
    by_cases hrow : LevelDbMutationKey.keyPrefixOfUser v ≤ row.1
    · simp [hrow, hle.trans hrow]
    · simp [hrow]
  obtain ⟨value, hmem⟩ := hid.exists_entry
  rw [hpart, List.length_filter_lt_length_iff_exists]
  refine ⟨((RowKey.mutation u id).key, value), ?_, ?_⟩
  · rw [rowsOfUsers, List.mem_filter, decide_eq_true_eq]
    exact ⟨hmem, le_userRow u id⟩
  · simpa using userRow_lt_userStart h id

theorem loadLoop_ok (hdb : ∀ key ∈ db.keys, ∃ r : RowKey, r.key = key)
    {id₀ : Number32} (h : HasBatch db u id₀) {turns : Nat}
    (hturns : (rowsOfUsers db u).length ≤ turns) (maxBatchId : Int) :
    ∃ m, LevelDbMutationQueue.loadLoop db turns u maxBatchId = .ok m ∧
      maxBatchId ≤ m ∧ (∀ v id, u ≤ v → HasBatch db v id → id.1 ≤ m) ∧
      (m = maxBatchId ∨ ∃ v id, HasBatch db v id ∧ m = id.1) := by
  induction turns generalizing u id₀ maxBatchId with
  | zero =>
      obtain ⟨value, hmem⟩ := h.exists_entry
      have hrow : ((RowKey.mutation u id₀).key, value) ∈ rowsOfUsers db u := by
        rw [rowsOfUsers, List.mem_filter, decide_eq_true_eq]
        exact ⟨hmem, le_userRow u id₀⟩
      have hpos := List.length_pos_of_mem hrow
      omega
  | succ turns ih =>
      obtain ⟨id, value, more, hend, hid, hlargest, hmore⟩ :=
        endOfUser_ok hdb h
      have hloop : LevelDbMutationQueue.loadLoop db (turns + 1) u maxBatchId =
          more.elim (.ok (if maxBatchId < id.1 then id.1 else maxBatchId))
            (fun userId => LevelDbMutationQueue.loadLoop db turns userId
              (if maxBatchId < id.1 then id.1 else maxBatchId)) := by
        rw [LevelDbMutationQueue.loadLoop]
        simp only [hend, ok_bind, tryDecode_mutation]
        cases more <;> rfl
      generalize hmax : (if maxBatchId < id.1 then id.1 else maxBatchId) = next
        at hloop
      have hnext : maxBatchId ≤ next ∧ id.1 ≤ next ∧
          (next = maxBatchId ∨ next = id.1) := by
        rw [← hmax]
        split <;> omega
      obtain ⟨hle, hidle, hsource⟩ := hnext
      have hfrom : next = maxBatchId ∨ ∃ v id, HasBatch db v id ∧ next = id.1 :=
        hsource.imp_right fun hsame => ⟨u, id, hid, hsame⟩
      rcases hmore with ⟨rfl, hnone⟩ | ⟨v, id', rfl, huv, hv, hleast⟩
      · refine ⟨next, hloop, hle, ?_, hfrom⟩
        intro v id' huv hv
        rcases huv.lt_or_eq with hlt | rfl
        · exact absurd hv (hnone v id' hlt)
        · exact (hlargest id' hv).trans hidle
      · have hshorter := length_rowsOfUsers_lt huv h
        obtain ⟨m, hm, hnextm, hall, hmsource⟩ :=
          ih hv (by omega) next
        refine ⟨m, hloop.trans hm, hle.trans hnextm, ?_, ?_⟩
        · intro w id'' huw hw
          rcases huw.lt_or_eq with hlt | rfl
          · exact hall w id'' (hleast w id'' hlt hw) hw
          · exact (hlargest id'' hw).trans (hidle.trans hnextm)
        · rcases hmsource with rfl | hrow
          · exact hfrom
          · exact .inr hrow

/-- The loop over all users finds the largest ID, or 0. -/
theorem loadNextBatchIdFromDb_eq
    (hdb : ∀ key ∈ db.keys, ∃ r : RowKey, r.key = key) :
    ∃ largest, LevelDbMutationQueue.loadNextBatchIdFromDb db =
        LevelDbMutationQueue.batchIdAfter largest ∧
      (∀ v id, HasBatch db v id → id.1 ≤ largest) ∧
      (largest = 0 ∨ ∃ v id, HasBatch db v id ∧ largest = id.1) := by
  have hstarts {w : Bytes} {i : Number32} :
      LevelDbMutationKey.keyPrefix <+: (RowKey.mutation w i).key :=
    RowKey.mutationTable_iff.mpr ⟨w, i, rfl⟩
  have hfrom (w : Bytes) (i : Number32) :
      LevelDbMutationKey.keyPrefix ≤ (RowKey.mutation w i).key :=
    Lexicographic.le_of_prefix hstarts
  rw [LevelDbMutationQueue.loadNextBatchIdFromDb]
  cases hrows : db.entriesFrom LevelDbMutationKey.keyPrefix with
  | nil =>
      refine ⟨0, rfl, ?_, .inl rfl⟩
      intro v id hv
      obtain ⟨_, hmem⟩ := hv.exists_entry
      exact absurd (hfrom v id) (Table.entriesFrom_eq_nil hrows hmem).not_ge
  | cons row rest =>
      obtain ⟨hmem, hle, hleast⟩ := Table.entriesFrom_eq_cons hrows
      have hkey : row.1 ∈ db.keys := List.mem_map_of_mem hmem
      obtain ⟨r, hr⟩ := hdb row.1 hkey
      have hnext {v : Bytes} {id : Number32} (hv : HasBatch db v id) :
          r.key ≤ (RowKey.mutation v id).key := by
        obtain ⟨_, hmem'⟩ := hv.exists_entry
        rw [hr]
        exact hleast _ hmem' (hfrom v id)
      simp only [← hr]
      by_cases htable : r.table = .mutations
      · obtain ⟨u, id, rfl⟩ := RowKey.exists_of_table htable
        have hbatch : HasBatch db u id := by
          rw [HasBatch, hr]
          exact hkey
        obtain ⟨largest, hloop, -, hall, hsource⟩ :=
          loadLoop_ok hdb hbatch (List.length_filter_le _ _) 0
        refine ⟨largest, ?_, ?_, hsource⟩
        · rw [tryDecode_mutation, ok_bind]
          simp only [hloop, ok_bind]
        · intro v id' hv
          apply hall v id' _ hv
          apply not_lt.mp
          intro hvu
          exact (hnext hv).not_gt (RowKey.mutation_lt_iff.mpr (.inl hvu))
      · refine ⟨0, ?_, ?_, .inl rfl⟩
        · rw [tryDecode_of_table htable]
          rfl
        · intro v id hv
          rw [← hr] at hle
          obtain ⟨_, _, rfl⟩ := RowKey.mutationTable_iff.mp
            (Lexicographic.prefix_of_le_of_le hstarts hle (hnext hv))
          exact absurd rfl htable

theorem batchIdAfter_eq_ok {largest n : Int} :
    LevelDbMutationQueue.batchIdAfter largest = .ok n ↔
      largest < Model.maxBatchId ∧ n = largest + 1 := by
  rw [LevelDbMutationQueue.batchIdAfter]
  split
  next hlt => simp [hlt, eq_comm]
  next hnot => simp [hnot]

end

section

variable {txn : LevelDbTransaction RowValue} {userId : Bytes}

theorem exists_metadataForKey_eq_ok {key : Bytes} :
    (∃ metadata, LevelDbMutationQueue.metadataForKey txn key = .ok metadata) ↔
      ∀ value, txn.get key = some value → value.tryParseMutationQueue ≠ none := by
  rw [LevelDbMutationQueue.metadataForKey]
  cases hget : txn.get key with
  | none => simp
  | some value => cases hparse : value.tryParseMutationQueue <;> simp [hparse]

theorem start_eq_ok {databaseId : Model.DatabaseId} {q : LevelDbMutationQueue} :
    LevelDbMutationQueue.start txn databaseId userId = .ok q ↔
      ∃ nextBatchId metadata,
        LevelDbMutationQueue.loadNextBatchIdFromDb txn.db = .ok nextBatchId ∧
        LevelDbMutationQueue.metadataForKey txn
          (LevelDbMutationQueueKey.key userId) = .ok metadata ∧
        q = ⟨userId, databaseId, nextBatchId, metadata⟩ := by
  rw [LevelDbMutationQueue.start, bind_eq_ok]
  simp only [bind_eq_ok]
  constructor
  · rintro ⟨nextBatchId, hload, metadata, hmetadata, hq⟩
    exact ⟨nextBatchId, metadata, hload, hmetadata, (Except.ok.inj hq).symm⟩
  · rintro ⟨nextBatchId, metadata, hload, hmetadata, rfl⟩
    exact ⟨nextBatchId, hload, metadata, hmetadata, rfl⟩

section

variable (hdb : ∀ key ∈ txn.db.keys, ∃ r : RowKey, r.key = key)
  {databaseId : Model.DatabaseId}

include hdb

theorem exists_start_iff :
    (∃ q, LevelDbMutationQueue.start txn databaseId userId = .ok q) ↔
      (∀ v id, HasBatch txn.db v id → id.1 < Model.maxBatchId) ∧
        ∀ value, txn.get (LevelDbMutationQueueKey.key userId) = some value →
          value.tryParseMutationQueue ≠ none := by
  obtain ⟨largest, hload, hall, hsource⟩ := loadNextBatchIdFromDb_eq hdb
  have hlargest : largest < Model.maxBatchId ↔
      ∀ v id, HasBatch txn.db v id → id.1 < Model.maxBatchId := by
    constructor
    · exact fun hlt v id hv => (hall v id hv).trans_lt hlt
    · intro hsmall
      rcases hsource with rfl | ⟨v, id, hv, rfl⟩
      · decide
      · exact hsmall v id hv
  simp only [start_eq_ok, hload, batchIdAfter_eq_ok]
  rw [← hlargest, ← exists_metadataForKey_eq_ok]
  constructor
  · rintro ⟨_, _, metadata, ⟨hlt, -⟩, hmetadata, -⟩
    exact ⟨hlt, metadata, hmetadata⟩
  · rintro ⟨hlt, metadata, hmetadata⟩
    exact ⟨_, _, metadata, ⟨hlt, rfl⟩, hmetadata, rfl⟩

theorem nextBatchId_of_start_eq {q : LevelDbMutationQueue}
    (hq : LevelDbMutationQueue.start txn databaseId userId = .ok q) :
    q.userId = userId ∧
      (∀ v id, HasBatch txn.db v id → id.1 < q.nextBatchId) ∧
      (q.nextBatchId = 1 ∨
        ∃ v id, HasBatch txn.db v id ∧ q.nextBatchId = id.1 + 1) := by
  obtain ⟨largest, hload, hall, hsource⟩ := loadNextBatchIdFromDb_eq hdb
  rw [start_eq_ok, hload] at hq
  simp only [batchIdAfter_eq_ok] at hq
  obtain ⟨_, metadata, ⟨-, rfl⟩, -, rfl⟩ := hq
  refine ⟨rfl, fun v id hv => Int.lt_add_one_of_le (hall v id hv), ?_⟩
  rcases hsource with rfl | ⟨v, id, hv, rfl⟩
  · exact .inl rfl
  · exact .inr ⟨v, id, hv, rfl⟩

end

/-- The ID after a restart is larger than those of all batches on disk, whoever
wrote them, and follows one of them.  There is none after the largest number,
and the row of the user must be one of a queue. -/
theorem nextBatchId_of_start
    (hdb : ∀ key ∈ txn.db.keys, ∃ r : RowKey, r.key = key)
    (databaseId : Model.DatabaseId) (userId : Bytes) :
    ((∃ q, LevelDbMutationQueue.start txn databaseId userId = .ok q) ↔
        (∀ v id, HasBatch txn.db v id → id.1 < Model.maxBatchId) ∧
          ∀ value, txn.get (LevelDbMutationQueueKey.key userId) = some value →
            value.tryParseMutationQueue ≠ none) ∧
      ∀ q, LevelDbMutationQueue.start txn databaseId userId = .ok q →
        q.userId = userId ∧
          (∀ v id, HasBatch txn.db v id → id.1 < q.nextBatchId) ∧
          (q.nextBatchId = 1 ∨
            ∃ v id, HasBatch txn.db v id ∧ q.nextBatchId = id.1 + 1) :=
  ⟨exists_start_iff hdb, fun _ hq => nextBatchId_of_start_eq hdb hq⟩

end

def appleDatabase : Model.DatabaseId :=
  ⟨"grocr", "(default)", by decide, by decide⟩

def oneBatch : LevelDb RowValue :=
  Table.empty.insert (LevelDbMutationKey.key [97] 7) (.string [])

theorem nextBatchId_of_start_apple : ∃ q,
    LevelDbMutationQueue.start (.begin oneBatch) appleDatabase [98] = .ok q ∧
      q.nextBatchId = 8 := by
  have hkeys {v : Bytes} {id : Number32} :
      HasBatch oneBatch v id ↔
        RowKey.mutation v id = .mutation [97] ⟨7, by decide⟩ := by
    rw [HasBatch, oneBatch, Table.mem_keys_insert,
      or_iff_left Table.notMem_keys_empty]
    exact RowKey.key_injective.eq_iff (b := .mutation [97] ⟨7, by decide⟩)
  have hdb : ∀ key ∈ oneBatch.keys, ∃ r : RowKey, r.key = key := by
    intro key hkey
    rcases Table.mem_keys_insert.mp hkey with rfl | hkey
    · exact ⟨.mutation [97] ⟨7, by decide⟩, rfl⟩
    · cases hkey
  have hsmall : ∀ v id, HasBatch oneBatch v id → id.1 < Model.maxBatchId := by
    intro v id hv
    rw [(RowKey.mutation.inj (hkeys.mp hv)).2]
    decide
  have hmetadata : ∀ value, (LevelDbTransaction.begin oneBatch).get
      (LevelDbMutationQueueKey.key [98]) = some value →
        value.tryParseMutationQueue ≠ none := by
    intro value hvalue
    have hother : LevelDbMutationQueueKey.key [98] ≠ LevelDbMutationKey.key [97] 7 :=
      RowKey.key_injective.ne
        (show RowKey.mutationQueue [98] ≠ .mutation [97] ⟨7, by decide⟩ from nofun)
    rw [LevelDbTransaction.get_begin, oneBatch, Table.find?_insert,
      if_neg hother] at hvalue
    cases hvalue
  obtain ⟨hstarts, hnext⟩ := nextBatchId_of_start
    (show ∀ key ∈ (LevelDbTransaction.begin oneBatch).db.keys, _ from hdb)
    appleDatabase [98]
  obtain ⟨q, hq⟩ := hstarts.mpr ⟨hsmall, hmetadata⟩
  obtain ⟨-, hall, hsource⟩ := hnext q hq
  have hlarger := hall [97] ⟨7, by decide⟩ (hkeys.mpr rfl)
  refine ⟨q, hq, ?_⟩
  rcases hsource with hone | ⟨v, id, hv, hfollows⟩
  · rw [hone] at hlarger
    exact absurd hlarger (by decide)
  · rw [hfollows, (RowKey.mutation.inj (hkeys.mp hv)).2]
    rfl

/-! ## The highest ID of a user -/

theorem userEnd_le_targetGlobal (u : Bytes) :
    prefixSuccessor (LevelDbMutationKey.keyPrefixOfUser u) ≤
      RowKey.targetGlobal.key := by
  rw [← not_lt, lt_userEnd_iff]
  rintro (hlt | hstarts)
  · have htable : RowKey.tableComponent .mutations <
        RowKey.tableComponent .targetGlobal :=
      RowKey.mk_lt_mk.mpr (by decide)
    have hafter : (RowKey.mutation u ⟨0, by decide⟩).key <
        RowKey.targetGlobal.key := by
      rw [RowKey.key_lt_iff]
      exact List.cons_lt_cons_iff.mpr (.inl htable)
    exact hafter.not_gt (hlt.trans_le (le_userRow u _))
  · obtain ⟨_, hsame⟩ := RowKey.mutationPrefix_iff.mp hstarts
    cases hsame

theorem tryDecode_of_no_batch
    (hdb : ∀ key ∈ db.keys, ∃ r : RowKey, r.key = key)
    (hnone : ∀ id, ¬ HasBatch db u id) {key : Bytes} (hkey : key ∈ db.keys) :
    ∃ fields, tryDecode LevelDbMutationKey.reader key = .ok fields ∧
      ∀ field ∈ fields, field.1 ≠ u := by
  obtain ⟨r, hr⟩ := hdb key hkey
  rw [← hr] at hkey ⊢
  by_cases htable : r.table = .mutations
  · obtain ⟨v, id, rfl⟩ := RowKey.exists_of_table htable
    refine ⟨_, tryDecode_mutation v id, fun field hfield heq => ?_⟩
    rw [← Option.some.inj hfield] at heq
    have huser : v = u := heq
    rw [huser] at hkey
    exact hnone id hkey
  · exact ⟨none, tryDecode_of_table htable, nofun⟩

namespace Stores

variable {txn : LevelDbTransaction RowValue}
  {databaseId : Model.DatabaseId} {pending : List Model.MutationBatch}
  {q : LevelDbMutationQueue}

theorem hasBatch_iff {u : Bytes} (h : Stores txn u databaseId pending) {id : Number32} :
    HasBatch txn.commit u id ↔ ∃ b ∈ pending, b.batchId = id.1 := by
  rw [HasBatch, Table.mem_keys_iff_find?,
    ← LevelDbTransaction.get_eq_find?_commit]
  constructor
  · rintro ⟨value, hvalue⟩
    obtain ⟨b, hb, hid, -⟩ := h.exists_batch hvalue
    exact ⟨b, hb, hid⟩
  · rintro ⟨b, hb, hid⟩
    have hget := h.get_of_mem hb
    rw [hid] at hget
    exact ⟨_, hget⟩

theorem rowKeys {u : Bytes} (h : Stores txn u databaseId pending) :
    ∀ key ∈ txn.commit.keys, ∃ r : RowKey, r.key = key := by
  intro key hkey
  obtain ⟨value, hvalue⟩ := Table.mem_keys.mp hkey
  exact h.known key value (LevelDbTransaction.mem_commit_iff_get.mp hvalue)

theorem batchId_le_getLast {u : Bytes} (h : Stores txn u databaseId pending)
    {b c : Model.MutationBatch} (hlast : pending.getLast? = some b)
    (hc : c ∈ pending) : c.batchId ≤ b.batchId := by
  obtain ⟨front, hfront⟩ := List.getLast?_eq_some_iff.mp hlast
  have hincreasing := h.increasing
  rw [hfront] at hc hincreasing
  rcases List.mem_append.mp hc with hin | hin
  · exact ((List.pairwise_append.mp hincreasing).2.2 c hin b
      (List.mem_singleton_self b)).le
  · rw [List.mem_singleton.mp hin]

/-- Once the transaction is committed, the last row before the end of the user
is that of the last batch. -/
theorem highest_eq (h : Stores txn q.userId q.databaseId pending) :
    q.getHighestUnacknowledgedBatchId txn.commit =
      .ok ((pending.getLast?.map Model.MutationBatch.batchId).getD
        Model.kBatchIdUnknown) := by
  obtain ⟨value, hglobal⟩ := h.globalRow
  have hmem := LevelDbTransaction.mem_commit_iff_get.mpr hglobal
  rw [LevelDbMutationQueue.getHighestUnacknowledgedBatchId]
  cases hrows : txn.commit.entriesFrom
      (prefixSuccessor (LevelDbMutationKey.keyPrefixOfUser q.userId)) with
  | nil =>
      have hlt := Table.entriesFrom_eq_nil hrows hmem
      exact absurd (userEnd_le_targetGlobal q.userId) hlt.not_ge
  | cons _ _ =>
      dsimp only
      cases hlast : pending.getLast? with
      | none =>
          have hempty := List.getLast?_eq_none_iff.mp hlast
          have hnone (id : Number32) : ¬ HasBatch txn.commit q.userId id := by
            rw [h.hasBatch_iff, hempty]
            simp
          cases hbefore : txn.commit.lastBefore
              (prefixSuccessor (LevelDbMutationKey.keyPrefixOfUser q.userId)) with
          | none => rfl
          | some row =>
              obtain ⟨hrow, -, -⟩ := Table.lastBefore_eq_some hbefore
              obtain ⟨fields, hdecode, hother⟩ := tryDecode_of_no_batch h.rowKeys
                hnone (List.mem_map_of_mem hrow)
              dsimp only
              rw [hdecode]
              cases fields with
              | none => rfl
              | some field =>
                  simp only [ok_bind, hother field rfl, if_false]
                  rfl
      | some b =>
          have hb : b ∈ pending := List.mem_of_getLast? hlast
          have hbatch : HasBatch txn.commit q.userId ⟨b.batchId, h.ids b hb⟩ :=
            h.hasBatch_iff.mpr ⟨b, hb, rfl⟩
          obtain ⟨id, value, hbefore, hid, hlargest⟩ :=
            lastBefore_userEnd h.rowKeys hbatch
          obtain ⟨c, hc, hcid⟩ := h.hasBatch_iff.mp hid
          have hsame : id.1 = b.batchId :=
            le_antisymm (hcid ▸ h.batchId_le_getLast hlast hc)
              (hlargest _ hbatch)
          rw [hbefore]
          dsimp only
          rw [tryDecode_mutation]
          simp only [ok_bind, if_true, hsame]
          rfl

end Stores

end Grocr.Firestore.Local
