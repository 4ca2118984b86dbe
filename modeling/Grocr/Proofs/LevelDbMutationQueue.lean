import Mathlib.Tactic.Common
import Grocr.Support.Checked
import Grocr.Firestore.LevelDbMutationQueue
import Grocr.Proofs.LevelDbScan
import Grocr.Proofs.MutationQueue
import Grocr.Proofs.Serializer
/-!
# The queue on disk answers like the queue in memory

The two tables of the queue hold the pending batches of a user in the order of
their IDs and an index of the documents of each.  What the queue finds by
seeking and scanning is a part of that list, as it is in memory.
-/

namespace Grocr.Firestore.Local

open Grocr.Support Grocr.Support.Checked Grocr.Firestore.Model

/-! ## Paths -/

theorem bytesOf_injective : Function.Injective bytesOf := by
  intro a b h
  unfold bytesOf at h
  apply String.toByteArray_inj.mp
  exact ByteArray.ext (Array.toList_inj.mp h)

theorem pathOf_injective : Function.Injective pathOf :=
  List.map_injective_iff.mpr bytesOf_injective

theorem pathOf_prefix_iff {p q : List String} :
    pathOf p <+: pathOf q ↔ p <+: q := by
  constructor
  · rintro ⟨rest, hrest⟩
    obtain ⟨p', rest', hq, hp, _⟩ := List.map_eq_append_iff.mp hrest.symm
    rw [pathOf_injective hp] at hq
    exact ⟨rest', hq.symm⟩
  · rintro ⟨rest, rfl⟩
    exact ⟨pathOf rest, by simp [pathOf]⟩

theorem length_pathOf (path : List String) : (pathOf path).length = path.length :=
  List.length_map _

def documentPath (key : DocumentKey) (h : key.path ≠ []) : DocumentPath :=
  ⟨pathOf key.path, by
    constructor
    · simpa [pathOf] using h
    · rw [length_pathOf]
      exact key.even⟩

theorem le_of_find?_eq_some {pending : List MutationBatch} {batchId : Int}
    {b : MutationBatch}
    (hincreasing : pending.Pairwise (fun b c => b.batchId < c.batchId))
    (h : pending.find? (fun b => batchId < b.batchId) = some b) :
    ∀ c ∈ pending, batchId < c.batchId → b.batchId ≤ c.batchId := by
  obtain ⟨-, before, after, rfl, hbefore⟩ := List.find?_eq_some_iff_append.mp h
  intro c hc hlt
  rcases List.mem_append.mp hc with hc | hc
  · simp only [Bool.not_eq_eq_eq_not, Bool.not_true, decide_eq_false_iff_not,
      not_lt] at hbefore
    exact absurd hlt (hbefore c hc).not_gt
  · have hafter := (List.pairwise_append.mp hincreasing).2.1
    rcases List.mem_cons.mp hc with rfl | hc
    · exact le_rfl
    · exact ((List.pairwise_cons.mp hafter).1 c hc).le

/-! ## What the tables hold -/

def Touches (b : MutationBatch) (path : List Bytes) : Prop :=
  ∃ m ∈ b.mutations, pathOf m.key.path = path

/-- Every key is that of a row, that of the targets is there, and the tables of
the queue hold the pending batches of the user, which can be read back. -/
structure Stores (txn : LevelDbTransaction RowValue) (u : Bytes)
    (databaseId : DatabaseId) (pending : List MutationBatch) : Prop where
  known : txn.Known
  globalRow : ∃ value, txn.get RowKey.targetGlobal.key = some value
  batchRow : ∀ id : Number32,
    (txn.get (RowKey.mutation u id).key).map
        (LevelDbMutationQueue.parseMutationBatch databaseId) =
      (pending.find? (fun b => b.batchId = id.1)).map .ok
  indexRow : ∀ (d : DocumentPath) (id : Number32),
    (∃ value, txn.get (RowKey.documentMutation u d id).key = some value) ↔
      ∃ b ∈ pending, b.batchId = id.1 ∧ Touches b d.1
  increasing : pending.Pairwise (fun b c => b.batchId < c.batchId)
  ids : ∀ b ∈ pending, InInt32 b.batchId
  documents : ∀ b ∈ pending, ∀ m ∈ b.mutations, m.key.path ≠ []

variable {txn : LevelDbTransaction RowValue} {pending : List MutationBatch}
  {databaseId : DatabaseId}

theorem row?_seek_of_get {key : Bytes} {value : RowValue}
    (h : txn.get key = some value) :
    (txn.newIterator.seek txn key).row? = some (key, value) := by
  have hmem := LevelDbTransaction.mem_commit_iff_get.mpr h
  have hfirst := (LevelDbTransaction.Iterator.seek_placed txn txn.newIterator key).2
  cases hrow : (txn.newIterator.seek txn key).row? with
  | none =>
      rw [hrow] at hfirst
      exact absurd le_rfl (hfirst _ hmem)
  | some row =>
      rw [hrow] at hfirst
      obtain ⟨hrowmem, hle, hleast⟩ := hfirst
      have hkey : row.1 = key := le_antisymm (hleast _ hmem le_rfl) hle
      have hvalue : row.2 = value := by
        apply Table.entry_unique (t := txn.commit) (k := key) _ hmem
        rw [← hkey]
        exact hrowmem
      exact congrArg some (Prod.ext hkey hvalue)

theorem tryDecode_mutation (u : Bytes) (id : Number32) :
    tryDecode LevelDbMutationKey.reader (RowKey.mutation u id).key =
      .ok (some (u, id.1)) := by
  rw [tryDecode, RowKey.decode_mutation]

theorem tryDecode_documentMutation (u : Bytes) (d : DocumentPath)
    (id : Number32) :
    tryDecode LevelDbDocumentMutationKey.reader
        (RowKey.documentMutation u d id).key = .ok (some (u, d.1, id.1)) := by
  rw [tryDecode, RowKey.decode_documentMutation]

theorem tryDecode_of_table {r : RowKey} (h : r.table ≠ .mutations) :
    tryDecode LevelDbMutationKey.reader r.key = .ok none := by
  rw [tryDecode, RowKey.decode_mutation_of_table h]

theorem RowKey.exists_of_table {r : RowKey} (h : r.table = .mutations) :
    ∃ u id, r = .mutation u id := by
  cases r with
  | mutation u id => exact ⟨u, id, rfl⟩
  | _ => cases h

def batchValue (txn : LevelDbTransaction RowValue) (u : Bytes)
    (b : MutationBatch) : RowValue :=
  (txn.get (LevelDbMutationKey.key u b.batchId)).getD default

namespace Stores

variable {q : LevelDbMutationQueue}

theorem find?_of_mem {u : Bytes} (h : Stores txn u databaseId pending)
    {b : MutationBatch} (hb : b ∈ pending) :
    pending.find? (fun c => c.batchId = b.batchId) = some b := by
  obtain ⟨i, hi, rfl⟩ := List.getElem_of_mem hb
  rw [List.find?_eq_some_iff_getElem]
  refine ⟨by simp, i, hi, rfl, ?_⟩
  intro j hj
  have hlt := List.pairwise_iff_getElem.mp h.increasing j i (hj.trans hi) hi hj
  simpa using hlt.ne

theorem exists_row {u : Bytes} (h : Stores txn u databaseId pending)
    {b : MutationBatch} (hb : b ∈ pending) :
    ∃ value, txn.get (LevelDbMutationKey.key u b.batchId) = some value ∧
      LevelDbMutationQueue.parseMutationBatch databaseId value = .ok b := by
  have hrow := h.batchRow ⟨b.batchId, h.ids b hb⟩
  rw [h.find?_of_mem hb] at hrow
  exact Option.map_eq_some_iff.mp hrow

theorem get_of_mem {u : Bytes} (h : Stores txn u databaseId pending)
    {b : MutationBatch} (hb : b ∈ pending) :
    txn.get (LevelDbMutationKey.key u b.batchId) = some (batchValue txn u b) := by
  obtain ⟨value, hget, -⟩ := h.exists_row hb
  rw [batchValue, hget]
  rfl

theorem parse_of_mem {u : Bytes} (h : Stores txn u databaseId pending)
    {b : MutationBatch} (hb : b ∈ pending) :
    LevelDbMutationQueue.parseMutationBatch databaseId (batchValue txn u b) =
      .ok b := by
  obtain ⟨value, hget, hparse⟩ := h.exists_row hb
  rw [batchValue, hget]
  exact hparse

theorem exists_batch {u : Bytes} (h : Stores txn u databaseId pending)
    {id : Number32} {value : RowValue}
    (hget : txn.get (RowKey.mutation u id).key = some value) :
    ∃ b ∈ pending, b.batchId = id.1 ∧ value = batchValue txn u b := by
  have hrow := h.batchRow id
  rw [hget] at hrow
  obtain ⟨b, hfind, -⟩ := Option.map_eq_some_iff.mp hrow.symm
  have hid : b.batchId = id.1 := by simpa using List.find?_some hfind
  have hb := List.mem_of_find?_eq_some hfind
  have hvalue := h.get_of_mem hb
  rw [hid] at hvalue
  exact ⟨b, hb, hid, Option.some.inj (hget.symm.trans hvalue)⟩

theorem eq_of_batchId_eq {u : Bytes} (h : Stores txn u databaseId pending)
    {b c : MutationBatch} (hb : b ∈ pending) (hc : c ∈ pending)
    (hid : b.batchId = c.batchId) : b = c := by
  have hfind := h.find?_of_mem hb
  rw [hid, h.find?_of_mem hc] at hfind
  exact (Option.some.inj hfind).symm

/-! ## Looking up batches -/

theorem lookup_eq_find? (h : Stores txn q.userId q.databaseId pending)
    {batchId : Int} (hid : InInt32 batchId) :
    q.lookupMutationBatch txn batchId =
      .ok (pending.find? (fun b => b.batchId = batchId)) := by
  have hrow := h.batchRow ⟨batchId, hid⟩
  have hkey : q.mutationBatchKey batchId =
      (RowKey.mutation q.userId ⟨batchId, hid⟩).key := rfl
  rw [LevelDbMutationQueue.lookupMutationBatch, hkey]
  cases hget : txn.get (RowKey.mutation q.userId ⟨batchId, hid⟩).key with
  | none =>
      rw [hget] at hrow
      rw [Option.map_eq_none_iff.mp hrow.symm]
  | some value =>
      rw [hget] at hrow
      obtain ⟨b, hfind, hparse⟩ := Option.map_eq_some_iff.mp hrow.symm
      simp only [hfind, ← hparse]
      rfl

theorem batchWithId_eq (h : Stores txn q.userId q.databaseId pending)
    {b : MutationBatch} (hb : b ∈ pending) : q.batchWithId txn b.batchId = .ok b := by
  have hseek := row?_seek_of_get (h.get_of_mem hb)
  rw [LevelDbMutationQueue.batchWithId, LevelDbMutationQueue.mutationBatchKey]
  simp only [hseek, if_true]
  exact h.parse_of_mem hb

theorem withIds_eq_filter (h : Stores txn q.userId q.databaseId pending)
    {batchIds : Table Int Unit}
    (hids : ∀ id ∈ batchIds.keys, ∃ b ∈ pending, b.batchId = id) :
    q.allMutationBatchesWithIds txn batchIds =
      .ok (pending.filter (fun b => b.batchId ∈ batchIds.keys)) := by
  have hkeys : batchIds.keys =
      (pending.filter (fun b => b.batchId ∈ batchIds.keys)).map
        MutationBatch.batchId := by
    apply eq_of_increasing id batchIds.keys_increasing
    · rw [List.pairwise_map]
      exact h.increasing.filter _
    · intro id
      rw [List.mem_map]
      constructor
      · intro hid
        obtain ⟨b, hb, hbid⟩ := hids id hid
        rw [← hbid] at hid
        exact ⟨b, List.mem_filter.mpr ⟨hb, decide_eq_true hid⟩, hbid⟩
      · intro ⟨b, hb, hbid⟩
        rw [← hbid]
        exact of_decide_eq_true (List.mem_filter.mp hb).2
  rw [LevelDbMutationQueue.allMutationBatchesWithIds, hkeys, List.mapM_map,
    ← hkeys]
  have hbatches : ∀ b ∈ pending.filter (fun b => b.batchId ∈ batchIds.keys),
      (q.batchWithId txn ∘ MutationBatch.batchId) b = .ok (id b) :=
    fun b hb => h.batchWithId_eq (List.mem_filter.mp hb).1
  exact (mapM_ok hbatches).trans (by rw [List.map_id])

theorem withIds_of_mem (h : Stores txn q.userId q.databaseId pending)
    {P : MutationBatch → Prop} [DecidablePred P] {batchIds : Table Int Unit}
    (hids : ∀ id, id ∈ batchIds.keys ↔ ∃ b ∈ pending, b.batchId = id ∧ P b) :
    q.allMutationBatchesWithIds txn batchIds =
      .ok (pending.filter (fun b => P b)) := by
  rw [h.withIds_eq_filter]
  · congr 1
    refine List.filter_congr fun b hb => ?_
    rw [decide_eq_decide, hids]
    constructor
    · rintro ⟨c, hc, hid, hP⟩
      rwa [← h.eq_of_batchId_eq hc hb hid]
    · exact fun hP => ⟨b, hb, rfl, hP⟩
  · intro id hid
    obtain ⟨b, hb, hbid, -⟩ := (hids id).mp hid
    exact ⟨b, hb, hbid⟩

theorem mem_scan_user (h : Stores txn q.userId q.databaseId pending)
    (row : Row RowValue) :
    row ∈ txn.scan (LevelDbMutationKey.keyPrefixOfUser q.userId) ↔
      ∃ b ∈ pending,
        row = (q.mutationBatchKey b.batchId, batchValue txn q.userId b) := by
  obtain ⟨found, hscan, -, hfound⟩ :=
    LevelDbTransaction.scan_user h.known q.userId
  rw [hscan, List.mem_map]
  constructor
  · rintro ⟨⟨id, value⟩, hx, rfl⟩
    obtain ⟨b, hb, hid, hvalue⟩ := h.exists_batch ((hfound id value).mp hx)
    refine ⟨b, hb, ?_⟩
    rw [LevelDbMutationQueue.mutationBatchKey, hid, hvalue]
  · rintro ⟨b, hb, rfl⟩
    exact ⟨(⟨b.batchId, h.ids b hb⟩, batchValue txn q.userId b),
      (hfound _ _).mpr (h.get_of_mem hb), rfl⟩

theorem scan_user_eq (h : Stores txn q.userId q.databaseId pending) :
    txn.scan (LevelDbMutationKey.keyPrefixOfUser q.userId) =
      pending.map (fun b =>
        (q.mutationBatchKey b.batchId, batchValue txn q.userId b)) := by
  apply eq_of_increasing Prod.fst
  · rw [LevelDbTransaction.scan_eq]
    exact txn.commit.sorted.filter _
  · rw [List.pairwise_map]
    refine h.increasing.imp_of_mem ?_
    intro b c hb hc hlt
    have hkeys : (RowKey.mutation q.userId ⟨b.batchId, h.ids b hb⟩).key <
        (RowKey.mutation q.userId ⟨c.batchId, h.ids c hc⟩).key :=
      RowKey.mutation_lt_iff.mpr (.inr ⟨rfl, hlt⟩)
    exact hkeys
  · intro row
    rw [h.mem_scan_user, List.mem_map]
    simp only [eq_comm]

/-- A loop over the rows of the user reads all batches, in their order. -/
theorem allMutationBatches_eq (h : Stores txn q.userId q.databaseId pending) :
    q.allMutationBatches txn = .ok pending := by
  rw [LevelDbMutationQueue.allMutationBatches, h.scan_user_eq, List.mapM_map]
  have hparse : ∀ b ∈ pending,
      ((fun row : Row RowValue =>
        LevelDbMutationQueue.parseMutationBatch q.databaseId row.2) ∘
          fun b => (q.mutationBatchKey b.batchId, batchValue txn q.userId b)) b =
        .ok (id b) :=
    fun _ hb => h.parse_of_mem hb
  exact (mapM_ok hparse).trans (by rw [List.map_id])

/-- The first row from the prefix of the user on tells whether there are any. -/
theorem isEmpty_eq (h : Stores txn q.userId q.databaseId pending) :
    q.isEmpty txn = pending.isEmpty := by
  have hfirst := (LevelDbTransaction.Iterator.seek_placed txn txn.newIterator
    (LevelDbMutationKey.keyPrefixOfUser q.userId)).2
  have hscan := h.mem_scan_user
  simp only [LevelDbTransaction.scan_eq, List.mem_filter,
    decide_eq_true_eq] at hscan
  rw [LevelDbMutationQueue.isEmpty]
  generalize LevelDbMutationKey.keyPrefixOfUser q.userId = userKey at hfirst hscan ⊢
  cases pending with
  | nil =>
      cases hrow : (txn.newIterator.seek txn userKey).row? with
      | none => rfl
      | some row =>
          rw [hrow] at hfirst
          have hnot : ¬ userKey <+: row.1 := by
            intro hstarts
            obtain ⟨b, hb, -⟩ := (hscan row).mp ⟨hfirst.1, hstarts⟩
            cases hb
          simp [hnot]
  | cons b rest =>
      obtain ⟨hmem, hstarts⟩ :=
        (hscan _).mpr ⟨b, List.mem_cons_self, rfl⟩
      have hle : userKey ≤ q.mutationBatchKey b.batchId := by
        exact Lexicographic.le_of_prefix hstarts
      cases hrow : (txn.newIterator.seek txn userKey).row? with
      | none =>
          rw [hrow] at hfirst
          exact absurd hle (hfirst _ hmem)
      | some row =>
          rw [hrow] at hfirst
          obtain ⟨-, hbelow, hleast⟩ := hfirst
          have hshared : userKey <+: row.1 :=
            Lexicographic.prefix_of_le_of_le hstarts hbelow
              (hleast _ hmem hle)
          simp [hshared]

/-- Where a seek for a batch of the user stops at a row of the user, that is the
row of a batch from there on. -/
theorem exists_batch_of_seek (h : Stores txn q.userId q.databaseId pending)
    {batchId : Int} (hid : InInt32 batchId) {row : Row RowValue}
    (hrow : (txn.newIterator.seek txn
      (RowKey.mutation q.userId ⟨batchId, hid⟩).key).row? = some row) :
    ∃ r : RowKey, r.key = row.1 ∧ ∀ id, r = .mutation q.userId id →
      batchId ≤ id.1 ∧ ∃ b ∈ pending, b.batchId = id.1 ∧
        row.2 = batchValue txn q.userId b := by
  have hfirst := (LevelDbTransaction.Iterator.seek_placed txn txn.newIterator
    (RowKey.mutation q.userId ⟨batchId, hid⟩).key).2
  rw [hrow] at hfirst
  obtain ⟨hmem, hfrom, -⟩ := hfirst
  have hget := LevelDbTransaction.mem_commit_iff_get.mp
    (show (row.1, row.2) ∈ txn.commit.entries from hmem)
  obtain ⟨r, hr⟩ := h.known row.1 row.2 hget
  rw [← hr] at hget hfrom
  refine ⟨r, hr, ?_⟩
  rintro id rfl
  exact ⟨RowKey.mutation_le_iff.mp hfrom, h.exists_batch hget⟩

theorem row?_seek_of_find? (h : Stores txn q.userId q.databaseId pending)
    {batchId : Int} (hid : InInt32 (batchId + 1)) {b : MutationBatch}
    (hfind : pending.find? (fun b => batchId < b.batchId) = some b) :
    (txn.newIterator.seek txn (q.mutationBatchKey (batchId + 1))).row? =
      some (q.mutationBatchKey b.batchId, batchValue txn q.userId b) := by
  have hb := List.mem_of_find?_eq_some hfind
  have hlt : batchId < b.batchId := by simpa using List.find?_some hfind
  have hstart : (RowKey.mutation q.userId ⟨batchId + 1, hid⟩).key ≤
      (RowKey.mutation q.userId ⟨b.batchId, h.ids b hb⟩).key :=
    RowKey.mutation_le_iff.mpr hlt
  have hmem : ((RowKey.mutation q.userId ⟨b.batchId, h.ids b hb⟩).key,
      batchValue txn q.userId b) ∈ txn.commit.entries :=
    LevelDbTransaction.mem_commit_iff_get.mpr (h.get_of_mem hb)
  have hfirst := (LevelDbTransaction.Iterator.seek_placed txn txn.newIterator
    (RowKey.mutation q.userId ⟨batchId + 1, hid⟩).key).2
  have hkey : q.mutationBatchKey (batchId + 1) =
      (RowKey.mutation q.userId ⟨batchId + 1, hid⟩).key := rfl
  rw [hkey]
  cases hrow : (txn.newIterator.seek txn
      (RowKey.mutation q.userId ⟨batchId + 1, hid⟩).key).row? with
  | none =>
      rw [hrow] at hfirst
      exact absurd hstart (hfirst _ hmem)
  | some row =>
      rw [hrow] at hfirst
      obtain ⟨-, hfrom, hleast⟩ := hfirst
      have hbelow := hleast _ hmem hstart
      obtain ⟨r, hr, hbatch⟩ := h.exists_batch_of_seek hid hrow
      have huser (id : Number32) : LevelDbMutationKey.keyPrefixOfUser q.userId <+:
          (RowKey.mutation q.userId id).key :=
        RowKey.mutationPrefix_iff.mpr ⟨id, rfl⟩
      -- between two rows of the user there are only rows of the user
      rw [← hr] at hfrom hbelow
      obtain ⟨id, rfl⟩ := RowKey.mutationPrefix_iff.mp
        (Lexicographic.prefix_of_le_of_le
          (huser ⟨b.batchId, h.ids b hb⟩)
          ((Lexicographic.le_of_prefix (huser _)).trans hfrom) hbelow)
      obtain ⟨hnext, c, hc, hcid, hvalue⟩ := hbatch id rfl
      have hleastId := le_of_find?_eq_some h.increasing hfind c hc (by omega)
      have hbelowId : id.1 ≤ b.batchId := RowKey.mutation_le_iff.mp hbelow
      have hcb : c = b := h.eq_of_batchId_eq hc hb (by omega)
      have hsame : id.1 = b.batchId := hcb ▸ hcid.symm
      have hidb : id = ⟨b.batchId, h.ids b hb⟩ := Subtype.ext hsame
      rw [hcb] at hvalue
      rw [hidb] at hr
      exact congrArg some (Prod.ext hr.symm hvalue)

theorem next_eq_find? (h : Stores txn q.userId q.databaseId pending)
    {batchId : Int} (hid : InInt32 (batchId + 1)) :
    q.nextMutationBatchAfterBatchId txn batchId =
      .ok (pending.find? (fun b => batchId < b.batchId)) := by
  rw [LevelDbMutationQueue.nextMutationBatchAfterBatchId]
  cases hfind : pending.find? (fun b => batchId < b.batchId) with
  | some b =>
      have hb := List.mem_of_find?_eq_some hfind
      have hlt : batchId + 1 ≤ b.batchId := by
        have hpast := List.find?_some hfind
        rw [decide_eq_true_eq] at hpast
        omega
      have hkey : q.mutationBatchKey b.batchId =
          (RowKey.mutation q.userId ⟨b.batchId, h.ids b hb⟩).key := rfl
      simp only [h.row?_seek_of_find? hid hfind, hkey, tryDecode_mutation, ok_bind,
        ne_eq, not_true, if_false, if_pos hlt, h.parse_of_mem hb]
      rfl
  | none =>
      have hnone : ∀ c ∈ pending, ¬ batchId < c.batchId := by
        simpa using hfind
      have hkey : q.mutationBatchKey (batchId + 1) =
          (RowKey.mutation q.userId ⟨batchId + 1, hid⟩).key := rfl
      simp only [hkey]
      cases hrow : (txn.newIterator.seek txn
          (RowKey.mutation q.userId ⟨batchId + 1, hid⟩).key).row? with
      | none => rfl
      | some row =>
          obtain ⟨r, hr, hbatch⟩ := h.exists_batch_of_seek hid hrow
          simp only [← hr]
          by_cases htable : r.table = .mutations
          · obtain ⟨v, id, rfl⟩ := RowKey.exists_of_table htable
            have hother : v ≠ q.userId := by
              rintro rfl
              obtain ⟨hnext, c, hc, hcid, -⟩ := hbatch id rfl
              exact hnone c hc (by omega)
            rw [tryDecode_mutation]
            simp only [ok_bind, ne_eq, hother, not_false_eq_true, if_true]
            rfl
          · rw [tryDecode_of_table htable]
            rfl

end Stores

/-! ## The index -/

section Index

variable {u : Bytes} {indexPrefix : Bytes}

def indexRowOf (u : Bytes) (x : (DocumentPath × Number32) × RowValue) :
    Row RowValue :=
  ((RowKey.documentMutation u x.1.1 x.1.2).key, x.2)

/-- The IDs of entries of the index, next to those that there are. -/
def insertFound (ids : Table Int Unit)
    (found : List ((DocumentPath × Number32) × RowValue)) : Table Int Unit :=
  found.foldl (fun ids x => ids.insert x.1.2.1 ()) ids

theorem mem_insertFound {ids : Table Int Unit}
    {found : List ((DocumentPath × Number32) × RowValue)} {id : Int} :
    id ∈ (insertFound ids found).keys ↔
      id ∈ ids.keys ∨ ∃ x ∈ found, x.1.2.1 = id :=
  Table.mem_keys_foldl_insert

theorem eq_cons_of_takeWhile {row : Row RowValue} {rows : List (Row RowValue)}
    {found : List ((DocumentPath × Number32) × RowValue)}
    (hrow : indexPrefix <+: row.1)
    (h : (row :: rows).takeWhile (fun row => indexPrefix <+: row.1) =
      found.map (indexRowOf u)) :
    ∃ x rest, found = x :: rest ∧ row = indexRowOf u x ∧
      rows.takeWhile (fun row => indexPrefix <+: row.1) =
        rest.map (indexRowOf u) := by
  rw [List.takeWhile_cons, if_pos (decide_eq_true hrow)] at h
  cases found with
  | nil => cases h
  | cons x rest =>
      rw [List.map_cons] at h
      obtain ⟨hx, hrest⟩ := List.cons.inj h
      exact ⟨x, rest, rfl, hx, hrest⟩

theorem eq_nil_of_takeWhile {row : Row RowValue} {rows : List (Row RowValue)}
    {found : List ((DocumentPath × Number32) × RowValue)}
    (hrow : ¬ indexPrefix <+: row.1)
    (h : (row :: rows).takeWhile (fun row => indexPrefix <+: row.1) =
      found.map (indexRowOf u)) : found = [] := by
  rw [List.takeWhile_cons, if_neg (by simpa using hrow)] at h
  exact List.map_eq_nil_iff.mp h.symm

open LevelDbMutationQueue in
theorem idsOfDocument_eq {path : List Bytes} {rows : List (Row RowValue)}
    {found : List ((DocumentPath × Number32) × RowValue)}
    (h : rows.takeWhile (fun row => indexPrefix <+: row.1) =
      found.map (indexRowOf u)) (ids : Table Int Unit) :
    idsOfDocument indexPrefix path rows ids =
      .ok (insertFound ids (found.takeWhile (fun x => x.1.1.1 = path))) := by
  induction rows generalizing found ids with
  | nil =>
      rw [List.map_eq_nil_iff.mp h.symm]
      rfl
  | cons row rows ih =>
      by_cases hrow : indexPrefix <+: row.1
      · obtain ⟨x, rest, rfl, rfl, hrest⟩ := eq_cons_of_takeWhile hrow h
        rw [idsOfDocument, if_pos hrow, indexRowOf, tryDecode_documentMutation,
          ok_bind, List.takeWhile_cons]
        by_cases hpath : x.1.1.1 = path
        · rw [if_pos (decide_eq_true hpath)]
          simp only [hpath, if_true]
          exact ih hrest _
        · rw [if_neg (by simpa using hpath)]
          simp only [hpath, if_false]
          rfl
      · rw [eq_nil_of_takeWhile hrow h, idsOfDocument, if_neg hrow]
        rfl

open LevelDbMutationQueue in
theorem idsOfCollection_eq {length : Nat} {rows : List (Row RowValue)}
    {found : List ((DocumentPath × Number32) × RowValue)}
    (h : rows.takeWhile (fun row => indexPrefix <+: row.1) =
      found.map (indexRowOf u)) (ids : Table Int Unit) :
    idsOfCollection indexPrefix length rows ids =
      .ok (insertFound ids
        (found.filter (fun x => x.1.1.1.length = length))) := by
  induction rows generalizing found ids with
  | nil =>
      rw [List.map_eq_nil_iff.mp h.symm]
      rfl
  | cons row rows ih =>
      by_cases hrow : indexPrefix <+: row.1
      · obtain ⟨x, rest, rfl, rfl, hrest⟩ := eq_cons_of_takeWhile hrow h
        rw [idsOfCollection, if_pos hrow, indexRowOf,
          tryDecode_documentMutation, ok_bind, List.filter_cons]
        by_cases hlength : x.1.1.1.length = length
        · rw [if_pos (decide_eq_true hlength)]
          simp only [hlength, if_true]
          exact ih hrest _
        · rw [if_neg (by simpa using hlength)]
          simp only [hlength, if_false]
          exact ih hrest _
      · rw [eq_nil_of_takeWhile hrow h, idsOfCollection, if_neg hrow]
        rfl

end Index

namespace Stores

variable {q : LevelDbMutationQueue}

theorem exists_index {u : Bytes} (h : Stores txn u databaseId pending) (path : List Bytes) :
    ∃ found : List ((DocumentPath × Number32) × RowValue),
      (txn.rowsFrom (LevelDbDocumentMutationKey.keyPrefixOfPath u path)
        ).takeWhile (fun row =>
          LevelDbDocumentMutationKey.keyPrefixOfPath u path <+: row.1) =
        found.map (indexRowOf u) ∧
      found.Pairwise (fun x y => x.1.1.1 ≤ y.1.1.1) ∧
      (∀ x ∈ found, path <+: x.1.1.1) ∧
      ∀ (d : DocumentPath) (id : Number32),
        (∃ x ∈ found, x.1 = (d, id)) ↔ path <+: d.1 ∧
          ∃ b ∈ pending, b.batchId = id.1 ∧ Touches b d.1 := by
  obtain ⟨found, hscan, hsorted, hmem⟩ :=
    LevelDbTransaction.scan_index h.known u path
  refine ⟨found, hscan, hsorted.imp ?_, ?_, ?_⟩
  · intro x y hxy
    rcases hxy with hlt | ⟨heq, -⟩
    · exact hlt.le
    · exact le_of_eq (congrArg Subtype.val heq)
  · intro x hx
    exact ((hmem x.1.1 x.1.2 x.2).mp hx).1
  · intro d id
    rw [← h.indexRow]
    constructor
    · rintro ⟨⟨a, value⟩, hx, rfl⟩
      obtain ⟨hstarts, hget⟩ := (hmem _ _ _).mp hx
      exact ⟨hstarts, value, hget⟩
    · rintro ⟨hstarts, value, hget⟩
      exact ⟨((d, id), value), (hmem _ _ _).mpr ⟨hstarts, hget⟩, rfl⟩

theorem exists_documentPath {u : Bytes} (h : Stores txn u databaseId pending)
    {b : MutationBatch} (hb : b ∈ pending) {path : List Bytes}
    (htouches : Touches b path) : ∃ d : DocumentPath, d.1 = path := by
  obtain ⟨m, hm, hpath⟩ := htouches
  exact ⟨documentPath m.key (h.documents b hb m hm), hpath⟩

/-- The scan of one document ends where the rows of the documents under it
start. -/
theorem idsOfDocument_ok {u : Bytes} (h : Stores txn u databaseId pending)
    (path : List Bytes) (ids : Table Int Unit) :
    ∃ ids', LevelDbMutationQueue.idsOfDocument
        (LevelDbDocumentMutationKey.keyPrefixOfPath u path) path
        (txn.rowsFrom (LevelDbDocumentMutationKey.keyPrefixOfPath u path)) ids =
          .ok ids' ∧
      ∀ id, id ∈ ids'.keys ↔
        id ∈ ids.keys ∨ ∃ b ∈ pending, b.batchId = id ∧ Touches b path := by
  obtain ⟨found, hrows, hsorted, hunder, hfound⟩ := h.exists_index path
  refine ⟨_, idsOfDocument_eq hrows ids, ?_⟩
  have hends : found.takeWhile (fun x => x.1.1.1 = path) =
      found.filter (fun x => x.1.1.1 = path) := by
    apply takeWhile_eq_filter
    refine hsorted.imp_of_mem ?_
    intro x y hx hy hle hne
    have hpathle : path ≤ x.1.1.1 :=
      Lexicographic.le_of_prefix (hunder x hx)
    rw [decide_eq_false_iff_not] at hne ⊢
    intro heq
    rw [heq] at hle
    exact hne (le_antisymm hle hpathle)
  intro id
  rw [mem_insertFound, hends]
  apply or_congr_right
  constructor
  · rintro ⟨x, hx, rfl⟩
    obtain ⟨hx, hpath⟩ := List.mem_filter.mp hx
    obtain ⟨-, b, hb, hid, htouches⟩ := (hfound x.1.1 x.1.2).mp ⟨x, hx, rfl⟩
    rw [of_decide_eq_true hpath] at htouches
    exact ⟨b, hb, hid, htouches⟩
  · rintro ⟨b, hb, rfl, htouches⟩
    obtain ⟨d, rfl⟩ := h.exists_documentPath hb htouches
    obtain ⟨x, hx, heq⟩ := (hfound d ⟨b.batchId, h.ids b hb⟩).mpr
      ⟨List.prefix_rfl, b, hb, rfl, htouches⟩
    refine ⟨x, List.mem_filter.mpr ⟨hx, ?_⟩, ?_⟩ <;> simp [heq]

theorem touches_iff {b : MutationBatch} {key : DocumentKey} :
    Touches b (pathOf key.path) ↔ key ∈ b.keys := by
  rw [mem_keys_iff, Touches]
  constructor
  · rintro ⟨m, hm, hpath⟩
    exact ⟨m, hm, DocumentKey.ext (pathOf_injective hpath)⟩
  · rintro ⟨m, hm, rfl⟩
    exact ⟨m, hm, rfl⟩

/-- The index leads to the batches that touch some documents, in their order. -/
theorem affectingKeys_eq_filter (h : Stores txn q.userId q.databaseId pending)
    (keys : List DocumentKey) :
    q.allMutationBatchesAffectingDocumentKeys txn keys =
      .ok (pending.filter (fun b => ∃ key ∈ keys, key ∈ b.keys)) := by
  have hloop (ids : Table Int Unit) : ∃ ids',
      keys.foldlM (fun ids key =>
        LevelDbMutationQueue.idsOfDocument
          (LevelDbDocumentMutationKey.keyPrefixOfPath q.userId (pathOf key.path))
          (pathOf key.path)
          (txn.rowsFrom (LevelDbDocumentMutationKey.keyPrefixOfPath q.userId
            (pathOf key.path))) ids) ids = .ok ids' ∧
      ∀ id, id ∈ ids'.keys ↔ id ∈ ids.keys ∨
        ∃ b ∈ pending, b.batchId = id ∧ ∃ key ∈ keys, key ∈ b.keys := by
    induction keys generalizing ids with
    | nil => exact ⟨ids, rfl, by simp⟩
    | cons key keys ih =>
        obtain ⟨ids', hids', hmem'⟩ := h.idsOfDocument_ok (pathOf key.path) ids
        obtain ⟨ids'', hids'', hmem''⟩ := ih ids'
        refine ⟨ids'', ?_, ?_⟩
        · rw [List.foldlM_cons, hids', ok_bind, hids'']
        · intro id
          rw [hmem'', hmem']
          simp only [touches_iff, List.exists_mem_cons_iff]
          constructor
          · rintro ((hold | ⟨b, hb, hid, hkey⟩) | ⟨b, hb, hid, hkeys⟩)
            · exact .inl hold
            · exact .inr ⟨b, hb, hid, .inl hkey⟩
            · exact .inr ⟨b, hb, hid, .inr hkeys⟩
          · rintro (hold | ⟨b, hb, hid, hkey | hkeys⟩)
            · exact .inl (.inl hold)
            · exact .inl (.inr ⟨b, hb, hid, hkey⟩)
            · exact .inr ⟨b, hb, hid, hkeys⟩
  obtain ⟨ids, hids, hmem⟩ := hloop Table.empty
  simp only [Table.notMem_keys_empty, false_or] at hmem
  rw [LevelDbMutationQueue.allMutationBatchesAffectingDocumentKeys]
  simp only [hids, ok_bind]
  exact h.withIds_of_mem hmem

/-- The scan under a collection leads to the batches that touch its documents.
-/
theorem affectingQuery_eq_filter (h : Stores txn q.userId q.databaseId pending)
    (path : List String) :
    q.allMutationBatchesAffectingQuery txn path =
      .ok (pending.filter
        (fun b => ∃ key ∈ b.keys, IsImmediateParentOf path key)) := by
  obtain ⟨found, hrows, -, -, hfound⟩ := h.exists_index (pathOf path)
  rw [LevelDbMutationQueue.allMutationBatchesAffectingQuery]
  simp only [idsOfCollection_eq hrows, ok_bind]
  apply h.withIds_of_mem
  intro id
  simp only [mem_insertFound, Table.notMem_keys_empty, false_or,
    List.mem_filter, decide_eq_true_eq, mem_keys_iff]
  constructor
  · rintro ⟨x, ⟨hx, hlength⟩, rfl⟩
    obtain ⟨hstarts, b, hb, hid, m, hm, hpath⟩ :=
      (hfound x.1.1 x.1.2).mp ⟨x, hx, rfl⟩
    rw [← hpath, pathOf_prefix_iff] at hstarts
    rw [← hpath, length_pathOf] at hlength
    exact ⟨b, hb, hid, m.key, ⟨m, hm, rfl⟩, hstarts, hlength⟩
  · rintro ⟨b, hb, rfl, key, ⟨m, hm, rfl⟩, hstarts, hlength⟩
    obtain ⟨d, hd⟩ := h.exists_documentPath hb ⟨m, hm, rfl⟩
    obtain ⟨x, hx, heq⟩ := (hfound d ⟨b.batchId, h.ids b hb⟩).mpr
      ⟨hd ▸ pathOf_prefix_iff.mpr hstarts, b, hb, rfl, m, hm, hd.symm⟩
    refine ⟨x, ⟨hx, ?_⟩, ?_⟩
    · rw [heq]
      simpa [hd, length_pathOf] using hlength
    · rw [heq]

theorem performConsistencyCheck_ok (h : Stores txn q.userId q.databaseId pending) :
    q.performConsistencyCheck txn = .ok () := by
  rw [LevelDbMutationQueue.performConsistencyCheck, h.isEmpty_eq]
  split
  next hempty =>
    have hstarts : LevelDbDocumentMutationKey.keyPrefixOfUser q.userId =
        LevelDbDocumentMutationKey.keyPrefixOfPath q.userId [] := by
      simp [LevelDbDocumentMutationKey.keyPrefixOfUser,
        LevelDbDocumentMutationKey.keyPrefixOfPath, writeResourcePath]
    obtain ⟨found, hrows, -, -, hfound⟩ := h.exists_index []
    have hnone : found = [] := by
      rw [List.eq_nil_iff_forall_not_mem]
      intro x hx
      obtain ⟨-, b, hb, -⟩ := (hfound x.1.1 x.1.2).mp ⟨x, hx, rfl⟩
      rw [List.isEmpty_iff.mp hempty] at hb
      cases hb
    rw [← hstarts, hnone, List.map_nil] at hrows
    exact if_pos hrows
  next => rfl

end Stores

/-! ## Changes of rows -/

theorem get_put_row (r : RowKey) (value : RowValue) :
    (txn.put r.key value).get r.key = some value := by
  rw [LevelDbTransaction.get_put, if_pos rfl]

theorem get_put_other {r s : RowKey} (h : s ≠ r) (value : RowValue) :
    (txn.put r.key value).get s.key = txn.get s.key := by
  rw [LevelDbTransaction.get_put, if_neg (RowKey.key_injective.ne h)]

theorem get_delete_row (r : RowKey) :
    (txn.delete r.key).get r.key = none := by
  rw [LevelDbTransaction.get_delete, if_pos rfl]

theorem get_delete_other {r s : RowKey} (h : s ≠ r) :
    (txn.delete r.key).get s.key = txn.get s.key := by
  rw [LevelDbTransaction.get_delete, if_neg (RowKey.key_injective.ne h)]

theorem known_put_row (h : txn.Known) (r : RowKey) (value : RowValue) :
    (txn.put r.key value).Known :=
  h.change (c := .put r.key value) ⟨r, rfl⟩

theorem known_delete_row (h : txn.Known) (r : RowKey) :
    (txn.delete r.key).Known :=
  h.change (c := .delete r.key) trivial

/-- Batches are as before, and the index of the user has the entries that `Q`
makes of those before. -/
structure Reindexed (txn txn' : LevelDbTransaction RowValue) (u : Bytes)
    (Q : Prop → DocumentPath → Number32 → Prop) : Prop where
  known : txn.Known → txn'.Known
  globalRow : txn'.get RowKey.targetGlobal.key = txn.get RowKey.targetGlobal.key
  batchRow : ∀ v id, txn'.get (RowKey.mutation v id).key =
    txn.get (RowKey.mutation v id).key
  indexRow : ∀ d id,
    (∃ value, txn'.get (RowKey.documentMutation u d id).key = some value) ↔
      Q (∃ value, txn.get (RowKey.documentMutation u d id).key = some value) d id

variable {q : LevelDbMutationQueue}

theorem addReference_ok (p : LevelDbPersistence) {m : Mutation}
    (hpath : m.key.path ≠ []) {batchId : Int} (hid : InInt32 batchId) :
    ∃ p', q.addReference batchId p m = .ok p' ∧
      Reindexed p.transaction p'.transaction q.userId (fun before d id =>
        before ∨ d.1 = pathOf m.key.path ∧ id.1 = batchId) := by
  have hkey : LevelDbDocumentMutationKey.key q.userId (pathOf m.key.path) batchId =
      (RowKey.documentMutation q.userId (documentPath m.key hpath)
        ⟨batchId, hid⟩).key := rfl
  have hindexed : Reindexed p.transaction (p.transaction.put
      (RowKey.documentMutation q.userId (documentPath m.key hpath)
        ⟨batchId, hid⟩).key (.string [])) q.userId (fun before d id =>
          before ∨ d.1 = pathOf m.key.path ∧ id.1 = batchId) := by
    constructor
    · exact fun h => known_put_row h _ _
    · exact get_put_other (by simp) _
    · exact fun v id => get_put_other (by simp) _
    · intro d id
      have hsame : RowKey.documentMutation q.userId d id =
          .documentMutation q.userId (documentPath m.key hpath) ⟨batchId, hid⟩ ↔
            d.1 = pathOf m.key.path ∧ id.1 = batchId := by
        rw [RowKey.documentMutation.injEq, Subtype.ext_iff, Subtype.ext_iff]
        simp [documentPath]
      by_cases heq : d.1 = pathOf m.key.path ∧ id.1 = batchId
      · rw [hsame.mpr heq, get_put_row]
        simp [heq]
      · rw [get_put_other (mt hsame.mp heq)]
        simp [heq]
  have hlength : (pathOf m.key.path).length = m.key.path.length :=
    length_pathOf _
  have heven := m.key.even
  have hpos := List.length_pos_of_ne_nil hpath
  have hcollection : pathOf m.key.path ≠ [] ∧
      (pathOf m.key.path).dropLast.length % 2 = 1 := by
    constructor
    · exact List.ne_nil_of_length_pos (by omega)
    · rw [List.length_dropLast]
      omega
  rw [LevelDbMutationQueue.addReference]
  simp only [LevelDbPersistence.addToCollectionParentIndex, if_pos hcollection]
  split
  next => exact ⟨_, rfl, hindexed⟩
  next =>
    refine ⟨_, rfl, ?_⟩
    constructor
    · exact fun h => known_put_row (hindexed.known h) (.collectionParent _ _) _
    · rw [← hindexed.globalRow]
      exact get_put_other (r := .collectionParent _ _) (by simp) _
    · intro v id
      rw [← hindexed.batchRow v id]
      exact get_put_other (r := .collectionParent _ _) (by simp) _
    · intro d id
      rw [← hindexed.indexRow d id]
      exact exists_congr fun value => eq_iff_eq_cancel_right.mpr
        (get_put_other (r := .collectionParent _ _) (by simp) _)

theorem addReferences_ok {ms : List Mutation}
    (hpaths : ∀ m ∈ ms, m.key.path ≠ []) {batchId : Int}
    (hid : InInt32 batchId) (p : LevelDbPersistence) :
    ∃ p', ms.foldlM (q.addReference batchId) p = .ok p' ∧
      Reindexed p.transaction p'.transaction q.userId (fun before d id =>
        before ∨ id.1 = batchId ∧ ∃ m ∈ ms, pathOf m.key.path = d.1) := by
  induction ms generalizing p with
  | nil => exact ⟨p, rfl, id, rfl, fun _ _ => rfl, by simp⟩
  | cons m ms ih =>
      rw [List.forall_mem_cons] at hpaths
      obtain ⟨p₁, hp₁, hadded⟩ := addReference_ok (q := q) p hpaths.1 hid
      obtain ⟨p₂, hp₂, hrest⟩ := ih hpaths.2 p₁
      refine ⟨p₂, ?_, ?_⟩
      · rw [List.foldlM_cons, hp₁, ok_bind, hp₂]
      · constructor
        · exact fun h => hrest.known (hadded.known h)
        · exact hrest.globalRow.trans hadded.globalRow
        · exact fun v id => (hrest.batchRow v id).trans (hadded.batchRow v id)
        · intro d id
          rw [hrest.indexRow, hadded.indexRow, List.exists_mem_cons_iff,
            eq_comm (a := d.1)]
          tauto

theorem removeReferences_ok {ms : List Mutation}
    (hpaths : ∀ m ∈ ms, m.key.path ≠ []) {batchId : Int}
    (hid : InInt32 batchId) (p : LevelDbPersistence) :
    Reindexed p.transaction
      (ms.foldl (q.removeReference batchId) p).transaction q.userId
      (fun before d id =>
        before ∧ ¬ (id.1 = batchId ∧ ∃ m ∈ ms, pathOf m.key.path = d.1)) := by
  induction ms generalizing p with
  | nil => exact ⟨id, rfl, fun _ _ => rfl, by simp⟩
  | cons m ms ih =>
      rw [List.forall_mem_cons] at hpaths
      have hrest := ih hpaths.2 (q.removeReference batchId p m)
      rw [List.foldl_cons]
      -- the entry goes, and the document is told of in a row of another table
      have hremoved : (q.removeReference batchId p m).transaction =
          (p.transaction.delete (RowKey.documentMutation q.userId
            (documentPath m.key hpaths.1) ⟨batchId, hid⟩).key).put
              (RowKey.documentTarget (documentPath m.key hpaths.1)
                ⟨0, by decide⟩).key
              (.string (LevelDbDocumentTargetKey.encodeSentinelValue
                p.sequenceNumber)) := rfl
      constructor
      · intro h
        apply hrest.known
        rw [hremoved]
        exact known_put_row (known_delete_row h _) _ _
      · rw [hrest.globalRow, hremoved, get_put_other (by simp),
          get_delete_other (by simp)]
      · intro v id
        rw [hrest.batchRow, hremoved, get_put_other (by simp),
          get_delete_other (by simp)]
      · intro d id
        have hsame : RowKey.documentMutation q.userId d id =
            .documentMutation q.userId (documentPath m.key hpaths.1)
              ⟨batchId, hid⟩ ↔
              id.1 = batchId ∧ pathOf m.key.path = d.1 := by
          rw [RowKey.documentMutation.injEq, Subtype.ext_iff, Subtype.ext_iff,
            eq_comm (a := d.1)]
          simp [documentPath, and_comm]
        rw [hrest.indexRow, hremoved, get_put_other (by simp),
          List.exists_mem_cons_iff]
        by_cases heq : id.1 = batchId ∧ pathOf m.key.path = d.1
        · rw [hsame.mpr heq, get_delete_row]
          simp [heq]
        · rw [get_delete_other (mt hsame.mp heq), and_or_left,
            or_iff_right heq]

/-! ## The operations of the queue -/

namespace Stores

/-- A batch behind the others is stored once its row and its entries in the
index have been put. -/
theorem append {txn' : LevelDbTransaction RowValue} {u : Bytes}
    (h : Stores txn u databaseId pending) {batch : MutationBatch}
    (hlast : ∀ b ∈ pending, b.batchId < batch.batchId)
    (hid : InInt32 batch.batchId)
    (hpaths : ∀ m ∈ batch.mutations, m.key.path ≠ []) {value : RowValue}
    (hparse : LevelDbMutationQueue.parseMutationBatch databaseId value =
      .ok batch)
    (hindexed : Reindexed
      (txn.put (RowKey.mutation u ⟨batch.batchId, hid⟩).key value) txn' u
      (fun before d id => before ∨ id.1 = batch.batchId ∧ Touches batch d.1)) :
    Stores txn' u databaseId (pending ++ [batch]) := by
  constructor
  · exact hindexed.known (known_put_row h.known _ _)
  · rw [hindexed.globalRow, get_put_other (by simp)]
    exact h.globalRow
  · intro id
    rw [hindexed.batchRow, List.find?_append]
    by_cases heq : id = ⟨batch.batchId, hid⟩
    · have hnone : pending.find? (fun b => b.batchId = id.1) = none := by
        rw [List.find?_eq_none]
        intro b hb hbid
        have hlt := hlast b hb
        rw [of_decide_eq_true hbid, heq] at hlt
        exact absurd hlt (lt_irrefl _)
      rw [hnone, heq, get_put_row, Option.map_some, hparse]
      simp
    · have hother : batch.batchId ≠ id.1 :=
        fun hsame => heq (Subtype.ext hsame.symm)
      rw [get_put_other (by simpa using heq), h.batchRow]
      simp [hother]
  · intro d id
    rw [hindexed.indexRow, get_put_other (by simp), h.indexRow]
    simp only [List.mem_append, List.mem_singleton, or_and_right, exists_or,
      exists_eq_left, eq_comm (a := id.1)]
  · rw [List.pairwise_append]
    refine ⟨h.increasing, List.pairwise_singleton _ _, ?_⟩
    intro b hb c hc
    rw [List.mem_singleton.mp hc]
    exact hlast b hb
  · rw [List.forall_mem_append, List.forall_mem_singleton]
    exact ⟨h.ids, hid⟩
  · rw [List.forall_mem_append, List.forall_mem_singleton]
    exact ⟨h.documents, hpaths⟩

theorem exists_message (batch : MutationBatch) (hdatabase : databaseId.Legible)
    (hbase : ∀ m ∈ batch.baseMutations, m.Legible)
    (hlegible : ∀ m ∈ batch.mutations, m.Legible) :
    ∃ message, LocalSerializer.encodeMutationBatch databaseId batch =
        .ok message ∧
      LevelDbMutationQueue.parseMutationBatch databaseId (.writeBatch message) =
        .ok batch := by
  obtain ⟨message, hencode, hdecode⟩ :=
    LocalSerializer.decodeMutationBatch_encode hdatabase hbase hlegible
  refine ⟨message, hencode, ?_⟩
  rw [LevelDbMutationQueue.parseMutationBatch, RowValue.tryParseWriteBatch,
    hdecode]
  rfl

theorem addMutationBatch_ok {p : LevelDbPersistence}
    (h : Stores p.transaction q.userId q.databaseId pending)
    (hnext : ∀ b ∈ pending, b.batchId < q.nextBatchId)
    (hid : InInt32 q.nextBatchId) (hdatabase : q.databaseId.Legible)
    (localWriteTime : Timestamp) {baseMutations mutations : List Mutation}
    (hbase : ∀ m ∈ baseMutations, m.Legible)
    (hlegible : ∀ m ∈ mutations, m.Legible)
    (hne : mutations ≠ []) (hpaths : ∀ m ∈ mutations, m.key.path ≠ []) :
    ∃ p', q.addMutationBatch p localWriteTime baseMutations mutations hne =
        .ok (⟨q.nextBatchId, localWriteTime, baseMutations, mutations, hne⟩,
          { q with nextBatchId := q.nextBatchId + 1 }, p') ∧
      Stores p'.transaction q.userId q.databaseId (pending ++
        [⟨q.nextBatchId, localWriteTime, baseMutations, mutations, hne⟩]) := by
  obtain ⟨message, hencode, hparse⟩ := exists_message
    ⟨q.nextBatchId, localWriteTime, baseMutations, mutations, hne⟩
    hdatabase hbase hlegible
  obtain ⟨p', hp', hindexed⟩ := addReferences_ok (q := q) hpaths hid
    (p.put (q.mutationBatchKey q.nextBatchId) (.writeBatch message))
  refine ⟨p', ?_, h.append hnext hid hpaths hparse hindexed⟩
  rw [LevelDbMutationQueue.addMutationBatch]
  simp only [hencode, Except.mapError, hp', ok_bind]
  rfl

theorem removeMutationBatch_ok {p : LevelDbPersistence} {head : MutationBatch}
    {rest : List MutationBatch}
    (h : Stores p.transaction q.userId q.databaseId (head :: rest)) :
    ∃ p', q.removeMutationBatch p head = .ok p' ∧
      Stores p'.transaction q.userId q.databaseId rest := by
  have hmem : head ∈ head :: rest := List.mem_cons_self
  have hid := h.ids head hmem
  have hseek := row?_seek_of_get (h.get_of_mem hmem)
  have hlater := (List.pairwise_cons.mp h.increasing).1
  have hindexed := removeReferences_ok (q := q) (h.documents head hmem) hid
    (p.delete (q.mutationBatchKey head.batchId))
  have hdelete : (p.delete (q.mutationBatchKey head.batchId)).transaction =
      p.transaction.delete
        (RowKey.mutation q.userId ⟨head.batchId, hid⟩).key := rfl
  rw [hdelete] at hindexed
  refine ⟨head.mutations.foldl (q.removeReference head.batchId)
    (p.delete (q.mutationBatchKey head.batchId)), ?_, ?_⟩
  · rw [LevelDbMutationQueue.removeMutationBatch]
    simp only [LevelDbMutationQueue.mutationBatchKey, hseek, if_true]
  constructor
  · exact hindexed.known (known_delete_row h.known _)
  · rw [hindexed.globalRow, get_delete_other (by simp)]
    exact h.globalRow
  · intro id
    rw [hindexed.batchRow]
    by_cases heq : id = ⟨head.batchId, hid⟩
    · have hnone : rest.find? (fun b => b.batchId = id.1) = none := by
        rw [List.find?_eq_none]
        intro b hb hbid
        have hlt := hlater b hb
        rw [of_decide_eq_true hbid, heq] at hlt
        exact absurd hlt (lt_irrefl _)
      rw [hnone, heq, get_delete_row]
      rfl
    · have hother : head.batchId ≠ id.1 :=
        fun hsame => heq (Subtype.ext hsame.symm)
      rw [get_delete_other (by simpa using heq), h.batchRow, List.find?_cons,
        decide_eq_false hother]
  · intro d id
    rw [hindexed.indexRow, get_delete_other (by simp), h.indexRow]
    constructor
    · rintro ⟨⟨b, hb, hbid, htouches⟩, hnot⟩
      rcases List.mem_cons.mp hb with rfl | hb
      · exact absurd ⟨hbid.symm, htouches⟩ hnot
      · exact ⟨b, hb, hbid, htouches⟩
    · rintro ⟨b, hb, hbid, htouches⟩
      refine ⟨⟨b, List.mem_cons_of_mem _ hb, hbid, htouches⟩, ?_⟩
      intro hsame
      have hlt := hlater b hb
      omega
  · exact (List.pairwise_cons.mp h.increasing).2
  · exact fun b hb => h.ids b (List.mem_cons_of_mem _ hb)
  · exact fun b hb => h.documents b (List.mem_cons_of_mem _ hb)

theorem commit {u : Bytes} (h : Stores txn u databaseId pending) :
    Stores (LevelDbTransaction.begin txn.commit) u databaseId pending := by
  have hget (key : Bytes) :
      (LevelDbTransaction.begin txn.commit).get key = txn.get key := by
    rw [LevelDbTransaction.get_begin, LevelDbTransaction.get_eq_find?_commit]
  constructor
  · intro key value hvalue
    rw [hget] at hvalue
    exact h.known key value hvalue
  · rw [hget]
    exact h.globalRow
  · intro id
    rw [hget, h.batchRow]
  · intro d id
    rw [hget, h.indexRow]
  · exact h.increasing
  · exact h.ids
  · exact h.documents

end Stores

end Grocr.Firestore.Local
