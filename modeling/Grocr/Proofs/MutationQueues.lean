import Mathlib.Tactic.Common
import Grocr.Support.Machine
import Grocr.Proofs.LevelDbBatchIds
/-!
# Two queues side by side

The queue on disk and the queue in memory take the same writes, answers and
commits.  Neither fails, and what they are asked they answer alike.
-/

namespace Grocr.Firestore.Local

open Grocr.Support Grocr.Support.Checked Grocr.Firestore.Model

inductive QueueEvent
  | add (localWriteTime : Timestamp) (baseMutations mutations : List Mutation)
  | removeFirst
  /-- The transaction is committed, and the next one begins. -/
  | commit

structure Queues where
  memory : MemoryMutationQueue
  disk : LevelDbMutationQueue
  persistence : LevelDbPersistence

namespace Queues

abbrev Failure := HardAssert ⊕ LevelDbFailure

def step (s : Queues) : QueueEvent → Except Failure Queues
  | .add localWriteTime baseMutations mutations =>
      if h : mutations = [] then .error (.inl .emptyBatch)
      else do
        let added ← (s.memory.addMutationBatch localWriteTime baseMutations
          mutations).mapError .inl
        let stored ← (s.disk.addMutationBatch s.persistence localWriteTime
          baseMutations mutations h).mapError .inr
        return ⟨added.2, stored.2.1, stored.2.2⟩
  | .removeFirst =>
      match s.memory.queue with
      | [] => .error (.inl .emptyQueue)
      | head :: _ => do
          let memory ← (s.memory.removeMutationBatch head).mapError .inl
          let persistence ←
            (s.disk.removeMutationBatch s.persistence head).mapError .inr
          return ⟨memory, s.disk, persistence⟩
  | .commit =>
      .ok { s with persistence :=
        { s.persistence with
          transaction := .begin s.persistence.transaction.commit } }

/-- Batches are not empty, of documents and of what can be read back, and their
IDs are numbers on four bytes. -/
def enabled (s : Queues) : QueueEvent → Prop
  | .add _ baseMutations mutations => mutations ≠ [] ∧
      (∀ m ∈ mutations, m.key.path ≠ []) ∧
      (∀ m ∈ baseMutations ++ mutations, m.Legible) ∧
      s.memory.nextBatchId < maxBatchId
  | .removeFirst => s.memory.queue ≠ []
  | .commit => True

def machine : Machine Queues QueueEvent Failure where
  enabled := enabled
  step := step

/-- The tables hold the queue in memory. -/
structure Agree (s : Queues) : Prop where
  wf : s.memory.WF
  database : s.disk.databaseId.Legible
  stores : Stores s.persistence.transaction s.disk.userId s.disk.databaseId
    s.memory.queue
  next : s.disk.nextBatchId = s.memory.nextBatchId

variable {s t : Queues}

theorem Agree.step (h : s.Agree) {e : QueueEvent} (he : s.enabled e) :
    ∃ t, s.step e = .ok t ∧ t.Agree ∧
      t.memory.nextBatchId ≤ s.memory.nextBatchId + 1 := by
  cases e with
  | add localWriteTime baseMutations mutations =>
      obtain ⟨hne, hpaths, hlegible, hsmall⟩ := he
      rw [List.forall_mem_append] at hlegible
      have hpositive := h.wf.positive
      have hid : InInt32 s.disk.nextBatchId := by
        rw [h.next]
        unfold InInt32 maxBatchId at *
        omega
      have hlast : ∀ b ∈ s.memory.queue, b.batchId < s.disk.nextBatchId := by
        intro b hb
        rw [h.next]
        exact (h.wf.batchId_bounds hb).2
      obtain ⟨batch, memory, hadd, hbatch, hqueue, hnext, hwf⟩ :=
        h.wf.addMutationBatch_ok localWriteTime baseMutations hne
      obtain ⟨p, hput, hstores⟩ := h.stores.addMutationBatch_ok hlast hid
        h.database localWriteTime hlegible.1 hlegible.2 hne hpaths
      refine ⟨⟨memory, { s.disk with nextBatchId := s.disk.nextBatchId + 1 }, p⟩,
        ?_, ⟨hwf, h.database, ?_, ?_⟩, hnext.le⟩
      · rw [Queues.step, dif_neg hne, hadd, hput]
        rfl
      · rw [h.next, ← hbatch, ← hqueue] at hstores
        exact hstores
      · rw [hnext, h.next]
  | removeFirst =>
      obtain ⟨head, rest, hqueue⟩ := List.exists_cons_of_ne_nil he
      obtain ⟨memory, hremove, hrest, hnext, hwf⟩ :=
        h.wf.removeMutationBatch_ok hqueue
      have hstores := h.stores
      rw [hqueue] at hstores
      obtain ⟨p, hdelete, hstores'⟩ := hstores.removeMutationBatch_ok
      refine ⟨⟨memory, s.disk, p⟩, ?_, ⟨hwf, h.database, ?_, ?_⟩, ?_⟩
      · rw [Queues.step, hqueue]
        simp only [hremove, hdelete]
        rfl
      · rw [hrest]
        exact hstores'
      · rw [hnext, h.next]
      · rw [hnext]
        omega
  | commit =>
      exact ⟨_, rfl, ⟨h.wf, h.database, h.stores.commit, h.next⟩,
        Int.le_add_one le_rfl⟩

/-! ## The start -/

/-- A database with the row that the migrations write for the targets, and
without rows of the queue. -/
structure Fresh (db : LevelDb RowValue) : Prop where
  rowKeys : ∀ key ∈ db.keys, ∃ r : RowKey, r.key = key ∧
    r.table ≠ .mutations ∧ r.table ≠ .documentMutations
  globalRow : RowKey.targetGlobal.key ∈ db.keys

theorem Fresh.stores {db : LevelDb RowValue} (h : Fresh db) (u : Bytes)
    (databaseId : DatabaseId) : Stores (.begin db) u databaseId [] := by
  have hnone (r : RowKey)
      (hr : r.table = .mutations ∨ r.table = .documentMutations) :
      db.find? r.key = none := by
    rw [Table.find?_eq_none]
    intro hkey
    obtain ⟨r', hr', hmutations, hindex⟩ := h.rowKeys r.key hkey
    rw [RowKey.key_injective hr'] at hmutations hindex
    rcases hr with hr | hr
    · exact hmutations hr
    · exact hindex hr
  constructor
  · intro key value hget
    rw [LevelDbTransaction.get_begin] at hget
    obtain ⟨r, hr, -⟩ :=
      h.rowKeys key (Table.mem_keys_iff_find?.mpr ⟨value, hget⟩)
    exact ⟨r, hr⟩
  · simp only [LevelDbTransaction.get_begin]
    exact Table.mem_keys_iff_find?.mp h.globalRow
  · intro id
    rw [LevelDbTransaction.get_begin, hnone _ (.inl rfl)]
    rfl
  · intro d id
    rw [LevelDbTransaction.get_begin, hnone _ (.inr rfl)]
    simp
  · exact List.Pairwise.nil
  · simp
  · simp

/-- The IDs begin at 1 where there are no batches. -/
theorem Fresh.loadNextBatchIdFromDb_eq {db : LevelDb RowValue} (h : Fresh db) :
    LevelDbMutationQueue.loadNextBatchIdFromDb db = .ok 1 := by
  obtain ⟨largest, hload, -, rfl | ⟨v, id, hv, -⟩⟩ := Local.loadNextBatchIdFromDb_eq
    fun key hkey => (h.rowKeys key hkey).imp fun _ hr => hr.1
  · exact hload
  · obtain ⟨r, hr, htable, -⟩ := h.rowKeys _ hv
    rw [RowKey.key_injective hr] at htable
    exact absurd rfl htable

def Initial (u : Bytes) (s : Queues) : Prop :=
  s.memory = .empty ∧ s.disk.databaseId.Legible ∧ ∃ db, Fresh db ∧
    s.persistence.transaction = .begin db ∧
    LevelDbMutationQueue.start (.begin db) s.disk.databaseId u = .ok s.disk

theorem Initial.agree {u : Bytes} (h : Initial u s) : s.Agree := by
  obtain ⟨hmemory, hdatabase, db, hfresh, htransaction, hstart⟩ := h
  constructor
  · rw [hmemory]
    exact .empty
  · exact hdatabase
  · rw [htransaction, hmemory]
    exact hfresh.stores _ _
  · obtain ⟨nextBatchId, metadata, hload, -, hdisk⟩ := start_eq_ok.mp hstart
    have hone := hload.symm.trans hfresh.loadNextBatchIdFromDb_eq
    rw [hdisk, hmemory, Except.ok.inj hone]
    rfl

theorem agree_of_run {u : Bytes} {es : List QueueEvent} (hs : Initial u s)
    (h : machine.Run s es t) : t.Agree := by
  apply h.invariant
  · exact hs.agree
  · intro s e t hs he hstep
    obtain ⟨t', hstep', ht', -⟩ := hs.step he
    have heq : s.step e = .ok t := hstep
    rw [hstep'] at heq
    rw [← Except.ok.inj heq]
    exact ht'

/-! ## What the queues are asked -/

def Same {α : Type} (x : Except HardAssert α) (y : Except LevelDbFailure α) :
    Prop :=
  ∃ a, x = .ok a ∧ y = .ok a

/-- What the two queues say of the pending batches. -/
structure AnswerAlike (s : Queues) : Prop where
  isEmpty : s.disk.isEmpty s.persistence.transaction = s.memory.isEmpty
  all : s.disk.allMutationBatches s.persistence.transaction =
    .ok s.memory.queue
  lookup : ∀ batchId, InInt32 batchId →
    Same (s.memory.lookupMutationBatch batchId)
      (s.disk.lookupMutationBatch s.persistence.transaction batchId)
  next : ∀ batchId, InInt32 (batchId + 1) →
    s.disk.nextMutationBatchAfterBatchId s.persistence.transaction batchId =
      .ok (s.memory.nextMutationBatchAfterBatchId batchId)
  affectingKeys : ∀ keys,
    Same (s.memory.allMutationBatchesAffectingDocumentKeys keys)
      (s.disk.allMutationBatchesAffectingDocumentKeys
        s.persistence.transaction keys)
  affectingQuery : ∀ path,
    Same (s.memory.allMutationBatchesAffectingQuery path)
      (s.disk.allMutationBatchesAffectingQuery s.persistence.transaction path)
  /-- This is read from the database, once the transaction is committed. -/
  highest : s.disk.getHighestUnacknowledgedBatchId
      s.persistence.transaction.commit =
    .ok s.memory.getHighestUnacknowledgedBatchId
  consistency : Same s.memory.performConsistencyCheck
    (s.disk.performConsistencyCheck s.persistence.transaction)

theorem highest_memory {q : MemoryMutationQueue} (h : q.WF) :
    q.getHighestUnacknowledgedBatchId =
      (q.queue.getLast?.map MutationBatch.batchId).getD kBatchIdUnknown := by
  rw [MemoryMutationQueue.getHighestUnacknowledgedBatchId,
    MemoryMutationQueue.isEmpty]
  cases hlast : q.queue.getLast? with
  | none =>
      rw [List.getLast?_eq_none_iff.mp hlast]
      rfl
  | some b =>
      have hne : q.queue ≠ [] := List.ne_nil_of_mem (List.mem_of_getLast? hlast)
      have hpos := List.length_pos_of_ne_nil hne
      rw [List.getLast?_eq_getElem?] at hlast
      have hid := h.ids _ b hlast
      rw [if_neg (by simpa using hne), Option.map_some, Option.getD_some]
      omega

theorem Agree.answerAlike (h : s.Agree) : s.AnswerAlike where
  isEmpty := h.stores.isEmpty_eq
  all := h.stores.allMutationBatches_eq
  lookup batchId hid :=
    ⟨_, h.wf.lookup_eq_find? batchId, h.stores.lookup_eq_find? hid⟩
  next batchId hid := by
    rw [h.wf.next_eq_find?, h.stores.next_eq_find? hid]
  affectingKeys keys :=
    ⟨_, h.wf.affectingKeys_eq_filter keys, h.stores.affectingKeys_eq_filter keys⟩
  affectingQuery path :=
    ⟨_, h.wf.affectingQuery_eq_filter path,
      h.stores.affectingQuery_eq_filter path⟩
  highest := by
    rw [h.stores.highest_eq, highest_memory h.wf]
  consistency :=
    ⟨_, h.wf.performConsistencyCheck_ok, h.stores.performConsistencyCheck_ok⟩

/-- After any writes, answers and commits the queue on disk finds the batches
that the queue in memory finds. -/
theorem answerAlike_of_run {u : Bytes} {es : List QueueEvent} (hs : Initial u s)
    (h : machine.Run s es t) : t.AnswerAlike :=
  (agree_of_run hs h).answerAlike

def emptyDisk : LevelDb RowValue :=
  Table.empty.insert LevelDbTargetGlobalKey.key (.string [])

def emptyQueues : Queues where
  memory := .empty
  disk := ⟨[97], appleDatabase, 1, ⟨0, []⟩⟩
  persistence := ⟨.begin emptyDisk, Table.empty, 0⟩

def deleteApple : QueueEvent :=
  .add 0 [] [.delete ⟨["items", "apple"], rfl⟩ .none]

/-- An update of a field whose name has a dot. -/
def updateApple : QueueEvent :=
  .add 0 [] [.patch ⟨["items", "apple"], rfl⟩ [("a.b", .integer 1)] [["a.b"]]
    (.exists true)]

theorem emptyQueues_initial : Initial [97] emptyQueues := by
  have hfresh : Fresh emptyDisk := by
    constructor
    · intro key hkey
      rcases Table.mem_keys_insert.mp hkey with rfl | hkey
      · exact ⟨.targetGlobal, rfl, by decide, by decide⟩
      · cases hkey
    · exact Table.mem_keys_insert.mpr (.inl rfl)
  have hother : LevelDbMutationQueueKey.key [97] ≠ LevelDbTargetGlobalKey.key :=
    RowKey.key_injective.ne
      (show RowKey.mutationQueue [97] ≠ .targetGlobal from nofun)
  have hmetadata : LevelDbMutationQueue.metadataForKey (.begin emptyDisk)
      (LevelDbMutationQueueKey.key [97]) = .ok ⟨0, []⟩ := by
    rw [LevelDbMutationQueue.metadataForKey, LevelDbTransaction.get_begin,
      emptyDisk, Table.find?_insert, if_neg hother]
    rfl
  exact ⟨rfl, ⟨by decide, by decide⟩, emptyDisk, hfresh, rfl, start_eq_ok.mpr
    ⟨1, ⟨0, []⟩, hfresh.loadNextBatchIdFromDb_eq, hmetadata, rfl⟩⟩

theorem apple_enabled (hsmall : s.memory.nextBatchId < maxBatchId) :
    s.enabled deleteApple ∧ s.enabled updateApple := by
  refine ⟨⟨by simp, by simp [Mutation.key], ?_, hsmall⟩,
    ⟨by simp, by simp [Mutation.key], ?_, hsmall⟩⟩
  · rw [List.nil_append, List.forall_mem_singleton]
    decide
  · rw [List.nil_append, List.forall_mem_singleton]
    decide

theorem exists_apple_run : ∃ t, machine.Run emptyQueues [deleteApple, .commit] t ∧
    t.Agree ∧ t.enabled updateApple := by
  have hfirst := (apple_enabled (s := emptyQueues) (by decide)).1
  obtain ⟨t, hstep, ht, hnext⟩ := emptyQueues_initial.agree.step hfirst
  obtain ⟨t', hstep', ht', hnext'⟩ := ht.step (e := .commit) trivial
  have hone : emptyQueues.memory.nextBatchId = 1 := rfl
  have hsmall : t'.memory.nextBatchId < maxBatchId := by
    unfold maxBatchId
    omega
  exact ⟨t', .cons hfirst hstep (.cons trivial hstep' (.nil t')), ht',
    (apple_enabled hsmall).2⟩

theorem answerAlike_of_run_apple : ∃ t,
    machine.Run emptyQueues [deleteApple, .commit, updateApple] t ∧
      t.AnswerAlike := by
  obtain ⟨t, hrun, ht, hsecond⟩ := exists_apple_run
  obtain ⟨t', hstep, -⟩ := ht.step hsecond
  have hrun' := hrun.snoc (e := updateApple) hsecond hstep
  exact ⟨t', hrun', answerAlike_of_run emptyQueues_initial hrun'⟩

end Queues

end Grocr.Firestore.Local
