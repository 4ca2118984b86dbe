import Mathlib.Tactic.Common
import Grocr.Firestore.LocalStore
import Grocr.Proofs.MutationQueue
/-!
# What the operations of the local store do

For each operation, that it succeeds where the client calls it and what it
changes: the queue, and the cache document by document.  The view of a
document is the cached one under all the batches of the queue.
-/

namespace Grocr.Firestore.Local

open Grocr.Support Grocr.Support.Checked Grocr.Firestore.Model

theorem RemoteDocumentCache.get_insert (cache : RemoteDocumentCache)
    (key key' : DocumentKey) (entry : MaybeDocument × SnapshotVersion) :
    RemoteDocumentCache.get (cache.insert key entry) key' =
      if key' = key then some entry.1 else cache.get key' := by
  unfold RemoteDocumentCache.get
  rw [Table.find?_insert]
  split <;> rfl

theorem RemoteDocumentCache.get_erase (cache : RemoteDocumentCache)
    (key key' : DocumentKey) :
    RemoteDocumentCache.get (cache.erase key) key' =
      if key' = key then none else cache.get key' := by
  unfold RemoteDocumentCache.get
  rw [Table.find?_erase]
  split <;> rfl

theorem find?_foldl_insert {κ α ν : Type} [LinearOrder κ] (xs : List α)
    (key : α → κ) (value : κ → ν) (t : Table κ ν) (k : κ) :
    (xs.foldl (fun t x => t.insert (key x) (value (key x))) t).find? k =
      if k ∈ xs.map key then some (value k) else t.find? k := by
  induction xs generalizing t with
  | nil => simp
  | cons x xs ih =>
      rw [List.foldl_cons, ih, Table.find?_insert, List.map_cons]
      by_cases hk : k = key x
      · simp [← hk]
      · simp [hk]

namespace LocalStore

variable {s : LocalStore}

def BasesCovered (batches : List MutationBatch) : Prop :=
  ∀ b ∈ batches, ∀ m ∈ b.baseMutations, m.key ∈ b.keys

structure QueueWF (q : MemoryMutationQueue) : Prop where
  queue : q.WF
  bases : BasesCovered q.queue

theorem QueueWF.empty : QueueWF .empty :=
  ⟨.empty, by simp [BasesCovered, MemoryMutationQueue.empty]⟩

theorem QueueWF.start {q : MemoryMutationQueue} (h : QueueWF q) :
    QueueWF q.start :=
  ⟨h.queue.start, by rw [MemoryMutationQueue.queue_start]; exact h.bases⟩

structure WF (s : LocalStore) : Prop extends QueueWF s.mutationQueue where
  /-- The queues of the other users wait in the same order. -/
  others : s.mutationQueues.All QueueWF

theorem WF.empty : LocalStore.empty.WF := ⟨.empty, .empty⟩

theorem mutationsFor_eq_nil {b : MutationBatch} {key : DocumentKey}
    (h : key ∉ b.keys) : b.mutationsFor key = [] := by
  rw [mem_keys_iff] at h
  refine List.filter_eq_nil_iff.mpr fun m hm => ?_
  simpa using fun hkey => h ⟨m, hm, hkey⟩

/-! ## Answers -/

/-- The states in which an accepted mutation can leave a cached document. -/
def IsOutcomeOf (m : Mutation) (version : SnapshotVersion)
    (doc : MaybeDocument) : Prop :=
  match m with
  | .delete _ _ => doc = .noDocument version true
  | _ => (∃ data, doc = .document version data .committedMutations) ∨
      doc = .unknownDocument version

theorem applyToRemoteDocument_ok {m : Mutation} {result : MutationResult}
    (h : IsAnswerTo m result) (doc : Option MaybeDocument) :
    ∃ d, m.applyToRemoteDocument doc result = .ok d ∧
      IsOutcomeOf m result.version d := by
  cases m with
  | set key value precondition =>
      refine ⟨.document result.version value .committedMutations, ?_, ?_⟩
      · rw [Mutation.applyToRemoteDocument]
        exact if_pos h
      · exact .inl ⟨value, rfl⟩
  | patch key value mask precondition =>
      have hnone : result.transformResults = none := h
      simp only [Mutation.applyToRemoteDocument, if_pos hnone]
      split
      next => exact ⟨_, rfl, .inl ⟨_, rfl⟩⟩
      next => exact ⟨_, rfl, .inr rfl⟩
  | transform key fieldTransforms =>
      obtain ⟨results, hresults, hlength⟩ := h
      simp only [Mutation.applyToRemoteDocument, hresults]
      split
      next => exact ⟨_, rfl, .inr rfl⟩
      next => exact ⟨_, if_pos hlength, .inl ⟨_, rfl⟩⟩
  | delete key precondition =>
      refine ⟨.noDocument result.version true, ?_, rfl⟩
      rw [Mutation.applyToRemoteDocument]
      exact if_pos h

/-- The whole batch leaves the document in the state that its last mutation
gives it. -/
theorem batch_applyToRemoteDocument_ok {r : MutationBatchResult}
    (h : List.Forall₂ IsAnswerTo r.batch.mutations r.mutationResults)
    {key : DocumentKey} (hkey : key ∈ r.batch.keys)
    (doc : Option MaybeDocument) :
    ∃ m result d, (r.resultsFor key).getLast? = some (m, result) ∧
      r.applyToRemoteDocument key doc = .ok (some d) ∧
      IsOutcomeOf m result.version d := by
  have hanswers : ∀ e ∈ r.resultsFor key, IsAnswerTo e.1 e.2 := by
    intro e he
    have hzip := (List.mem_filter.mp he).1
    exact List.forall₂_iff_zip.mp h |>.2 hzip
  have hne : r.resultsFor key ≠ [] := by
    obtain ⟨m, hm, hmkey⟩ := mem_keys_iff.mp hkey
    obtain ⟨i, hi⟩ := List.mem_iff_getElem?.mp hm
    have hlt : i < r.batch.mutations.length :=
      (List.getElem?_eq_some_iff.mp hi).1
    have hlt' : i < r.mutationResults.length := by
      rw [← r.length_eq]
      exact hlt
    have hmem : (m, r.mutationResults[i]) ∈
        r.batch.mutations.zip r.mutationResults := by
      apply List.mem_of_getElem? (i := i)
      rw [List.getElem?_zip_eq_some]
      exact ⟨hi, List.getElem?_eq_getElem hlt'⟩
    exact List.ne_nil_of_mem
      (List.mem_filter.mpr ⟨hmem, by simpa using hmkey⟩)
  unfold MutationBatchResult.applyToRemoteDocument
  generalize r.resultsFor key = results at hanswers hne
  induction results using List.reverseRecOn with
  | nil => exact absurd rfl hne
  | append_singleton results e ih =>
      have hbefore : ∃ doc', results.foldlM
          (fun doc e => (e.1.applyToRemoteDocument doc e.2).map some) doc =
            Except.ok doc' := by
        by_cases hnil : results = []
        · exact ⟨doc, by rw [hnil]; rfl⟩
        · obtain ⟨-, -, d, -, hd, -⟩ :=
            ih (fun e he => hanswers e (List.mem_append_left _ he)) hnil
          exact ⟨some d, hd⟩
      obtain ⟨doc', hdoc'⟩ := hbefore
      obtain ⟨d, hd, hkind⟩ := applyToRemoteDocument_ok
        (hanswers e (by simp)) doc'
      refine ⟨e.1, e.2, d, by simp, ?_, hkind⟩
      rw [List.foldlM_append, hdoc', ok_bind, List.foldlM_cons, hd]
      rfl

/-- A document before and after an answer to a batch that writes it: the cache
has it at the answer's version already, or takes the outcome. -/
def Acked (r : MutationBatchResult) (key : DocumentKey)
    (old new : Option MaybeDocument) : Prop :=
  ∃ m result, (r.resultsFor key).getLast? = some (m, result) ∧
    ((∃ doc, old = some doc ∧ result.version ≤ doc.version ∧ new = old) ∨
      (∀ doc ∈ old, doc.version < result.version) ∧
        ∃ d, new = some d ∧ r.applyToRemoteDocument key old = .ok (some d) ∧
          IsOutcomeOf m result.version d)

theorem applyBatchResultTo_ok {r : MutationBatchResult}
    (h : List.Forall₂ IsAnswerTo r.batch.mutations r.mutationResults)
    {key : DocumentKey} (hkey : key ∈ r.batch.keys)
    (cache : RemoteDocumentCache) :
    ∃ cache', applyBatchResultTo r cache key = .ok cache' ∧
      (∀ key', key' ≠ key → cache'.get key' = cache.get key') ∧
      Acked r key (cache.get key) (cache'.get key) := by
  obtain ⟨m, result, d, hlast, hd, houtcome⟩ :=
    batch_applyToRemoteDocument_ok h hkey (cache.get key)
  have hversion : r.docVersion key = some result.version := by
    rw [MutationBatchResult.docVersion, hlast]
    rfl
  unfold applyBatchResultTo
  simp only [hversion]
  split
  next hold =>
    rw [hd, ok_bind]
    refine ⟨cache.insert key (d, r.commitVersion), rfl, ?_, ?_⟩
    · intro key' hne
      rw [RemoteDocumentCache.get_insert, if_neg hne]
    · rw [RemoteDocumentCache.get_insert, if_pos rfl]
      exact ⟨m, result, hlast, .inr ⟨hold, d, rfl, hd, houtcome⟩⟩
  next hnew =>
    refine ⟨cache, rfl, fun _ _ => rfl, m, result, hlast, .inl ?_⟩
    push Not at hnew
    obtain ⟨doc, hdoc, hle⟩ := hnew
    exact ⟨doc, hdoc, hle, rfl⟩

/-- An answer changes the documents of its batch, each on its own. -/
theorem applyBatchResults_ok {r : MutationBatchResult}
    (h : List.Forall₂ IsAnswerTo r.batch.mutations r.mutationResults)
    {keys : List DocumentKey} (hkeys : ∀ key ∈ keys, key ∈ r.batch.keys)
    (hnodup : keys.Nodup) (cache : RemoteDocumentCache) :
    ∃ cache', keys.foldlM (applyBatchResultTo r) cache = .ok cache' ∧
      (∀ key ∉ keys, cache'.get key = cache.get key) ∧
      ∀ key ∈ keys, Acked r key (cache.get key) (cache'.get key) := by
  induction keys generalizing cache with
  | nil => exact ⟨cache, rfl, fun _ _ => rfl, by simp⟩
  | cons key keys ih =>
      obtain ⟨hkey, hrest⟩ := List.forall_mem_cons.mp hkeys
      obtain ⟨hnotin, hnodup⟩ := List.nodup_cons.mp hnodup
      obtain ⟨middle, hmiddle, hother, hacked⟩ :=
        applyBatchResultTo_ok h hkey cache
      obtain ⟨cache', hcache', hsame, hall⟩ := ih hrest hnodup middle
      refine ⟨cache', ?_, ?_, ?_⟩
      · rw [List.foldlM_cons, hmiddle, ok_bind, hcache']
      · intro key' hkey'
        rw [List.mem_cons, not_or] at hkey'
        rw [hsame key' hkey'.2, hother key' hkey'.1]
      · intro key' hkey'
        rcases List.mem_cons.mp hkey' with rfl | hmem
        · rw [hsame key' hnotin]
          exact hacked
        · have hne : key' ≠ key := fun heq => hnotin (heq ▸ hmem)
          rw [← hother key' hne]
          exact hall key' hmem

/-! ## Watch updates -/

/-- A cached document after a watch update that may concern it. -/
def watched (old : Option MaybeDocument) :
    Option MaybeDocument → Option MaybeDocument
  | none => old
  | some doc =>
      if isManufactured doc then none
      else if isAccepted old doc then some doc else old

theorem applyDocumentUpdates_ok {snapshotVersion : SnapshotVersion}
    {updates : List (DocumentKey × MaybeDocument)}
    (hzero : snapshotVersion = 0 → ∀ e ∈ updates, isManufactured e.2 = true)
    (hsorted : updates.Pairwise (fun a b => a.1 < b.1))
    (state : RemoteDocumentCache × List (DocumentKey × Option MaybeDocument)) :
    ∃ cache changed, updates.foldlM (applyDocumentUpdate snapshotVersion)
        state = .ok (cache, changed) ∧
      ∀ key, cache.get key =
        watched (state.1.get key) (Entries.find? updates key) := by
  induction updates generalizing state with
  | nil => exact ⟨state.1, state.2, rfl, fun _ => rfl⟩
  | cons e updates ih =>
      obtain ⟨hlt, hsorted⟩ := List.pairwise_cons.mp hsorted
      have hhead : ∃ middle changed,
          applyDocumentUpdate snapshotVersion state e =
            .ok (middle, changed) ∧
          ∀ key, middle.get key =
            if key = e.1 then watched (state.1.get key) (some e.2)
            else state.1.get key := by
        unfold applyDocumentUpdate
        simp only [watched]
        split
        next hmade =>
          refine ⟨_, _, rfl, fun key => ?_⟩
          rw [RemoteDocumentCache.get_erase]
        next hreal =>
          split
          next haccepted =>
            rw [if_neg fun h0 => hreal (hzero h0 e (by simp))]
            refine ⟨_, _, rfl, fun key => ?_⟩
            rw [RemoteDocumentCache.get_insert]
            by_cases hkey : key = e.1
            · rw [if_pos hkey, if_pos hkey, hkey, if_pos haccepted]
            · rw [if_neg hkey, if_neg hkey]
          next hrefused =>
            refine ⟨_, _, rfl, fun key => ?_⟩
            by_cases hkey : key = e.1
            · rw [if_pos hkey, hkey, if_neg hrefused]
            · rw [if_neg hkey]
      obtain ⟨middle, changed, hmiddle, hget⟩ := hhead
      obtain ⟨cache, changed', hcache, hall⟩ :=
        ih (fun h0 d hd => hzero h0 d (List.mem_cons_of_mem e hd)) hsorted
          (middle, changed)
      refine ⟨cache, changed', ?_, fun key => ?_⟩
      · rw [List.foldlM_cons, hmiddle, ok_bind, hcache]
      · rw [hall, hget, Entries.find?_cons]
        by_cases hkey : key = e.1
        · have hnone : Entries.find? updates key = none := by
            unfold Entries.find?
            rw [Option.map_eq_none_iff, List.find?_eq_none]
            intro d hd hdkey
            have hlt' := hlt d hd
            rw [of_decide_eq_true hdkey, hkey] at hlt'
            exact absurd hlt' (lt_irrefl _)
          rw [if_pos hkey, if_pos hkey.symm, hnone]
          rfl
        · rw [if_neg hkey, if_neg (Ne.symm hkey)]

variable [DoubleArithmetic]

/-! ## Reading -/

def view (s : LocalStore) (key : DocumentKey) : Option MaybeDocument :=
  applyBatches key (s.remoteDocumentCache.get key) s.mutationQueue.queue

theorem applyToLocalDocument_of_not_mem {b : MutationBatch}
    {key : DocumentKey} (hbase : ∀ m ∈ b.baseMutations, m.key ∈ b.keys)
    (h : key ∉ b.keys) (doc : Option MaybeDocument) :
    b.applyToLocalDocument key doc = doc := by
  have hnone : b.baseMutationsFor key = [] := by
    refine List.filter_eq_nil_iff.mpr fun m hm hkey => ?_
    exact h (of_decide_eq_true hkey ▸ hbase m hm)
  rw [MutationBatch.applyToLocalDocument, hnone, mutationsFor_eq_nil h]
  rfl

theorem applyBatches_filter {batches : List MutationBatch}
    (hbases : BasesCovered batches) {key : DocumentKey}
    {p : MutationBatch → Bool} (hp : ∀ b ∈ batches, key ∈ b.keys → p b = true)
    (doc : Option MaybeDocument) :
    applyBatches key doc (batches.filter p) = applyBatches key doc batches := by
  unfold applyBatches
  induction batches generalizing doc with
  | nil => rfl
  | cons b batches ih =>
      obtain ⟨hb, hrest⟩ := List.forall_mem_cons.mp hp
      obtain ⟨hbase, hbases⟩ := List.forall_mem_cons.mp hbases
      rw [List.filter_cons, List.foldl_cons]
      by_cases hpb : p b = true
      · rw [if_pos hpb, List.foldl_cons, ih hbases hrest]
      · have hkey : key ∉ b.keys := fun hmem => hpb (hb hmem)
        rw [if_neg hpb, applyToLocalDocument_of_not_mem hbase hkey,
          ih hbases hrest]

theorem getDocument_eq (h : s.WF) (key : DocumentKey) :
    s.getDocument key = .ok (s.view key) := by
  rw [getDocument, h.queue.affecting_eq_filter, ok_bind]
  change Except.ok _ = _
  rw [applyBatches_filter h.bases (fun b _ hkey => by simpa using hkey)]
  rfl

theorem getLocalViewOfDocuments_ok (h : s.WF)
    (baseDocs : List (DocumentKey × Option MaybeDocument)) :
    ∃ docs, s.getLocalViewOfDocuments baseDocs = .ok docs := by
  rw [getLocalViewOfDocuments, h.queue.affectingKeys_eq_filter, ok_bind]
  exact ⟨_, rfl⟩

theorem getDocuments_ok (h : s.WF) (keys : List DocumentKey) :
    ∃ docs, s.getDocuments keys = .ok docs ∧
      ∀ key, docs.find? key =
        if key ∈ keys then some ((s.view key).getD (.noDocument 0 false))
        else none := by
  rw [getDocuments, getLocalViewOfDocuments, h.queue.affectingKeys_eq_filter,
    ok_bind]
  refine ⟨_, rfl, fun key => ?_⟩
  have hfold : ∀ (xs : List DocumentKey) (t : MaybeDocumentMap),
      (∀ k ∈ xs, k ∈ keys) →
      (xs.map fun k => (k, s.remoteDocumentCache.get k)).foldl
        (fun results e => results.insert e.1
          ((applyBatches e.1 e.2 (s.mutationQueue.queue.filter fun b =>
            ∃ k ∈ (keys.map fun k =>
              (k, s.remoteDocumentCache.get k)).map Prod.fst,
                k ∈ b.keys)).getD (.noDocument 0 false))) t =
      xs.foldl (fun t k => t.insert k
        ((s.view k).getD (.noDocument 0 false))) t := by
    intro xs
    induction xs with
    | nil => exact fun _ _ => rfl
    | cons k xs ih =>
        intro t hxs
        obtain ⟨hk, hrest⟩ := List.forall_mem_cons.mp hxs
        have hview : ∀ b ∈ s.mutationQueue.queue, k ∈ b.keys →
            decide (∃ k ∈ (keys.map fun k =>
              (k, s.remoteDocumentCache.get k)).map Prod.fst, k ∈ b.keys) =
              true := by
          intro b _ hkb
          simp only [List.map_map, Function.comp_def, List.map_id',
            decide_eq_true_eq]
          exact ⟨k, hk, hkb⟩
        rw [List.map_cons, List.foldl_cons, List.foldl_cons, ih _ hrest,
          applyBatches_filter h.bases hview]
        rfl
  rw [hfold keys Table.empty fun _ hk => hk]
  have hlookup := find?_foldl_insert keys id
    (fun k => (s.view k).getD (.noDocument 0 false)) Table.empty key
  simpa using hlookup

/-! ## Users and references -/

theorem handleUserChange_ok (h : s.WF) (previous user : User) :
    ∃ changes s', s.handleUserChange previous user = .ok (changes, s') ∧
      s'.remoteDocumentCache = s.remoteDocumentCache ∧ s'.WF := by
  let queues := s.mutationQueues.insert previous s.mutationQueue
  have hqueues : queues.All QueueWF := h.others.insert h.toQueueWF
  have hqueue : QueueWF (getMutationQueueForUser queues user) := by
    unfold getMutationQueueForUser
    cases hfind : queues.find? user with
    | none => exact .empty
    | some q => exact hqueues user q hfind
  let s' : LocalStore :=
    { s with
      mutationQueue := (getMutationQueueForUser queues user).start
      mutationQueues := queues.erase user }
  have hwf : s'.WF := ⟨hqueue.start, hqueues.erase⟩
  obtain ⟨changes, hchanges, -⟩ := getDocuments_ok hwf
    ((s.mutationQueue.allMutationBatches ++
      s'.mutationQueue.allMutationBatches).flatMap
        MutationBatch.keys).eraseDups
  refine ⟨changes, s', ?_, rfl, hwf⟩
  simp only [s', queues] at hchanges
  simp only [handleUserChange, hchanges, ok_bind]
  rfl

omit [DoubleArithmetic] in
theorem get_removeOrphaned (s : LocalStore)
    (orphaned referenced : List DocumentKey) (key : DocumentKey) :
    (s.removeOrphaned orphaned referenced).remoteDocumentCache.get key =
      if key ∈ orphaned ∧ key ∉ referenced ∧
          s.mutationQueuesContainKey key = false then none
      else s.remoteDocumentCache.get key := by
  unfold removeOrphaned
  simp only
  generalize s.remoteDocumentCache = cache
  induction orphaned generalizing cache with
  | nil => simp
  | cons other orphaned ih =>
      rw [List.foldl_cons, ih]
      simp only [List.mem_cons]
      by_cases hkey : key = other
      · by_cases hgoes : key ∉ referenced ∧
            s.mutationQueuesContainKey key = false
        · simp [← hkey, hgoes, RemoteDocumentCache.get_erase]
        · have hstays : key ∈ referenced ∨
              s.mutationQueuesContainKey key = true := by
            simpa [Classical.or_iff_not_imp_left] using hgoes
          rw [← hkey, if_pos hstays]
          simp [hgoes]
      · simp only [hkey, false_or]
        split
        next => rfl
        next =>
          split
          next => rfl
          next => rw [RemoteDocumentCache.get_erase, if_neg hkey]

/-! ## Writes -/

theorem writeLocally_ok (h : s.WF) {mutations : List Mutation}
    (hne : mutations ≠ []) (localWriteTime : Timestamp) :
    ∃ existing result s', s.getDocuments
        (mutations.map Mutation.key).eraseDups = .ok existing ∧
      s.writeLocally mutations localWriteTime = .ok (result, s') ∧
      ∃ batch : MutationBatch,
        batch = ⟨s.mutationQueue.nextBatchId, localWriteTime,
          mutations.filterMap (baseMutation existing), mutations, hne⟩ ∧
        result = ⟨batch.batchId, applyToLocalDocumentSet batch existing⟩ ∧
        s'.mutationQueue.queue = s.mutationQueue.queue ++ [batch] ∧
        s'.mutationQueue.nextBatchId = s.mutationQueue.nextBatchId + 1 ∧
        s'.remoteDocumentCache = s.remoteDocumentCache ∧
        s'.lastRemoteSnapshotVersion = s.lastRemoteSnapshotVersion ∧ s'.WF := by
  obtain ⟨existing, hexisting, -⟩ :=
    getDocuments_ok h (mutations.map Mutation.key).eraseDups
  obtain ⟨batch, q', hadd, hbatch, hqueue, hnext, hwf⟩ :=
    h.queue.addMutationBatch_ok localWriteTime
      (mutations.filterMap (baseMutation existing)) hne
  refine ⟨existing, ⟨batch.batchId, applyToLocalDocumentSet batch existing⟩,
    { s with mutationQueue := q' }, hexisting, ?_, batch, hbatch, rfl, hqueue,
    hnext, rfl, rfl, ⟨hwf, ?_⟩, h.others⟩
  · rw [writeLocally, hexisting, ok_bind]
    simp only [hadd, ok_bind]
    rfl
  · intro b hb m hm
    simp only [hqueue, List.mem_append, List.mem_singleton] at hb
    rcases hb with hb | rfl
    · exact h.bases b hb m hm
    · rw [hbatch] at hm ⊢
      obtain ⟨n, hn, hbase⟩ := List.mem_filterMap.mp hm
      obtain ⟨value, -, rfl⟩ := Option.map_eq_some_iff.mp hbase
      exact mem_keys_iff.mpr ⟨n, hn, rfl⟩

/-! ## The operations succeed -/

theorem acknowledgeBatch_ok (h : s.WF) {r : MutationBatchResult}
    {rest : List MutationBatch} (hqueue : s.mutationQueue.queue = r.batch :: rest)
    (hanswers : List.Forall₂ IsAnswerTo r.batch.mutations r.mutationResults) :
    ∃ changes s', s.acknowledgeBatch r = .ok (changes, s') ∧
      s'.mutationQueue.queue = rest ∧
      s'.mutationQueue.nextBatchId = s.mutationQueue.nextBatchId ∧
      (∀ key ∉ r.batch.keys,
        s'.remoteDocumentCache.get key = s.remoteDocumentCache.get key) ∧
      (∀ key ∈ r.batch.keys, Acked r key (s.remoteDocumentCache.get key)
        (s'.remoteDocumentCache.get key)) ∧
      s'.lastRemoteSnapshotVersion = s.lastRemoteSnapshotVersion ∧ s'.WF := by
  obtain ⟨cache, hcache, hother, hacked⟩ :=
    applyBatchResults_ok hanswers (fun key (hkey : key ∈ r.batch.keys) => hkey)
      (nodup_eraseDups _) s.remoteDocumentCache
  obtain ⟨q', hremove, hrest, hnext, hwf⟩ := h.queue.removeMutationBatch_ok hqueue
  have hwf' : WF { s with remoteDocumentCache := cache, mutationQueue := q' } := by
    refine ⟨⟨hwf, fun b hb => h.bases b ?_⟩, h.others⟩
    rw [hqueue]
    exact List.mem_cons_of_mem _ (hrest ▸ hb)
  obtain ⟨changes, hchanges, -⟩ := getDocuments_ok hwf' r.batch.keys
  refine ⟨changes,
    { s with remoteDocumentCache := cache, mutationQueue := q' }, ?_, hrest,
    hnext, hother, hacked, rfl, hwf'⟩
  rw [acknowledgeBatch, MemoryMutationQueue.WF.acknowledgeBatch_ok hqueue,
    ok_bind, applyBatchResult, hcache, ok_bind, hremove]
  simp only [ok_bind, hwf.performConsistencyCheck_ok, hchanges, pure,
    Except.pure]

theorem rejectBatch_ok (h : s.WF) {head : MutationBatch}
    {rest : List MutationBatch} (hqueue : s.mutationQueue.queue = head :: rest) :
    ∃ changes s', s.rejectBatch head.batchId = .ok (changes, s') ∧
      s'.mutationQueue.queue = rest ∧
      s'.mutationQueue.nextBatchId = s.mutationQueue.nextBatchId ∧
      s'.remoteDocumentCache = s.remoteDocumentCache ∧
      s'.lastRemoteSnapshotVersion = s.lastRemoteSnapshotVersion ∧ s'.WF := by
  obtain ⟨q', hremove, hrest, hnext, hwf⟩ := h.queue.removeMutationBatch_ok hqueue
  have hwf' : WF { s with mutationQueue := q' } := by
    refine ⟨⟨hwf, fun b hb => h.bases b ?_⟩, h.others⟩
    rw [hqueue]
    exact List.mem_cons_of_mem _ (hrest ▸ hb)
  obtain ⟨changes, hchanges, -⟩ := getDocuments_ok hwf' head.keys
  have hhead : head ∈ s.mutationQueue.queue := by simp [hqueue]
  refine ⟨changes, { s with mutationQueue := q' }, ?_, hrest, hnext, rfl, rfl,
    hwf'⟩
  rw [rejectBatch, h.queue.lookup_of_mem hhead]
  simp only [ok_bind, hremove, hwf.performConsistencyCheck_ok, hchanges, pure,
    Except.pure]

theorem applyRemoteEvent_ok (h : s.WF) {event : RemoteEvent}
    (hzero : event.snapshotVersion = 0 →
      ∀ e ∈ event.documentUpdates.entries, isManufactured e.2 = true)
    (hlast : event.snapshotVersion ≠ 0 →
      s.lastRemoteSnapshotVersion ≤ event.snapshotVersion) :
    ∃ changes s', s.applyRemoteEvent event = .ok (changes, s') ∧
      s'.mutationQueue = s.mutationQueue ∧
      (∀ key, s'.remoteDocumentCache.get key =
        watched (s.remoteDocumentCache.get key)
          (event.documentUpdates.find? key)) ∧
      s.lastRemoteSnapshotVersion ≤ s'.lastRemoteSnapshotVersion ∧ s'.WF := by
  obtain ⟨cache, changed, hcache, hall⟩ :=
    applyDocumentUpdates_ok hzero event.documentUpdates.sorted
      (s.remoteDocumentCache, [])
  unfold applyRemoteEvent
  rw [hcache, ok_bind]
  by_cases h0 : event.snapshotVersion = 0
  · have hwf : WF { s with remoteDocumentCache := cache } :=
      ⟨h.toQueueWF, h.others⟩
    obtain ⟨changes, hchanges⟩ := getLocalViewOfDocuments_ok hwf changed
    refine ⟨changes, { s with remoteDocumentCache := cache }, ?_, rfl, hall,
      le_rfl, hwf⟩
    simp only [h0, if_true, pure, Except.pure, ok_bind, hchanges]
  · have hle : ¬ event.snapshotVersion < s.lastRemoteSnapshotVersion :=
      not_lt.mpr (hlast h0)
    have hwf : WF
        { s with
          remoteDocumentCache := cache
          lastRemoteSnapshotVersion := event.snapshotVersion } :=
      ⟨h.toQueueWF, h.others⟩
    obtain ⟨changes, hchanges⟩ := getLocalViewOfDocuments_ok hwf changed
    refine ⟨changes,
      { s with
        remoteDocumentCache := cache
        lastRemoteSnapshotVersion := event.snapshotVersion }, ?_, rfl, hall,
      hlast h0, hwf⟩
    simp only [h0, hle, if_false, pure, Except.pure, ok_bind, hchanges]

/-! ## Read times -/

section

variable {P : MaybeDocument × SnapshotVersion → Prop} {s' : LocalStore}
  {changes : MaybeDocumentMap}

omit [DoubleArithmetic] in
theorem all_applyBatchResultTo {r : MutationBatchResult} {key : DocumentKey}
    {cache cache' : RemoteDocumentCache} (hP : ∀ doc, P (doc, r.commitVersion))
    (h : cache.All P) (hcache : applyBatchResultTo r cache key = .ok cache') :
    cache'.All P := by
  unfold applyBatchResultTo at hcache
  simp only at hcache
  split at hcache
  next => cases hcache
  next ackVersion _ =>
    split at hcache
    next =>
      rw [bind_eq_ok] at hcache
      obtain ⟨doc, -, hcache⟩ := hcache
      split at hcache
      next doc =>
        cases hcache
        exact h.insert (hP doc)
      next =>
        split at hcache
        next =>
          cases hcache
          exact h
        next => cases hcache
    next =>
      cases hcache
      exact h

theorem all_acknowledgeBatch {r : MutationBatchResult}
    (hP : ∀ doc, P (doc, r.commitVersion)) (h : s.remoteDocumentCache.All P)
    (hack : s.acknowledgeBatch r = .ok (changes, s')) :
    s'.remoteDocumentCache.All P := by
  rw [acknowledgeBatch, bind_eq_ok] at hack
  obtain ⟨-, -, hack⟩ := hack
  rw [bind_eq_ok] at hack
  obtain ⟨acked, hacked, hack⟩ := hack
  rw [bind_eq_ok] at hack
  obtain ⟨-, -, hack⟩ := hack
  rw [bind_eq_ok] at hack
  obtain ⟨changes', -, hack⟩ := hack
  cases hack
  rw [applyBatchResult, bind_eq_ok] at hacked
  obtain ⟨cache, hcache, hacked⟩ := hacked
  rw [bind_eq_ok] at hacked
  obtain ⟨queue, -, hacked⟩ := hacked
  cases hacked
  exact foldlM_invariant hcache h
    fun key _ _ _ hall hnext => all_applyBatchResultTo hP hall hnext

omit [DoubleArithmetic] in
theorem all_applyDocumentUpdate {snapshotVersion : SnapshotVersion}
    {state state' :
      RemoteDocumentCache × List (DocumentKey × Option MaybeDocument)}
    {update : DocumentKey × MaybeDocument}
    (hP : snapshotVersion ≠ 0 → ∀ doc, P (doc, snapshotVersion))
    (h : state.1.All P)
    (hstate : applyDocumentUpdate snapshotVersion state update = .ok state') :
    state'.1.All P := by
  unfold applyDocumentUpdate at hstate
  simp only at hstate
  split at hstate
  next =>
    cases hstate
    exact h.erase
  next =>
    split at hstate
    next =>
      split at hstate
      next => cases hstate
      next hversion =>
        cases hstate
        exact h.insert (hP hversion _)
    next =>
      cases hstate
      exact h

theorem all_applyRemoteEvent {event : RemoteEvent}
    (hP : event.snapshotVersion ≠ 0 → ∀ doc, P (doc, event.snapshotVersion))
    (h : s.remoteDocumentCache.All P)
    (happly : s.applyRemoteEvent event = .ok (changes, s')) :
    s'.remoteDocumentCache.All P := by
  rw [applyRemoteEvent, bind_eq_ok] at happly
  obtain ⟨state, hstate, happly⟩ := happly
  have hall : state.1.All P := foldlM_invariant (I := fun state => state.1.All P)
    hstate h fun _ _ _ _ hall hnext => all_applyDocumentUpdate hP hall hnext
  -- the rest of the call changes the version of the snapshot at most
  have hrest {t : LocalStore} (ht : t.remoteDocumentCache.All P)
      (hview : (do
        let changes ← t.getLocalViewOfDocuments state.2
        pure (changes, t)) = Except.ok (changes, s')) :
      s'.remoteDocumentCache.All P := by
    rw [bind_eq_ok] at hview
    obtain ⟨changes', -, hview⟩ := hview
    cases hview
    exact ht
  simp only at happly
  split at happly
  next => exact hrest hall happly
  next =>
    split at happly
    next => cases happly
    next => exact hrest hall happly

omit [DoubleArithmetic] in
theorem all_removeOrphaned (orphaned referenced : List DocumentKey)
    (h : s.remoteDocumentCache.All P) :
    (s.removeOrphaned orphaned referenced).remoteDocumentCache.All P := by
  unfold removeOrphaned
  simp only
  refine List.foldlRecOn orphaned _ h fun cache hcache key _ => ?_
  split
  next => exact hcache
  next => exact hcache.erase

end

end LocalStore

end Grocr.Firestore.Local
