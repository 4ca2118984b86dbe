import Mathlib.Tactic.Common
import Grocr.Proofs.PendingWrites
/-!
# Collection queries

A query does not look at each document on its own: it scans the cache, adds the
documents that pending patches build on, and runs the pending batches over
these.  It finds what looking at each document of the collection would find.
-/

namespace Grocr.Firestore.Local.LocalStore

open Grocr.Support Grocr.Support.Checked Grocr.Firestore.Model
open Grocr.Firestore.Api

variable {query : Query}

theorem keepMatching_find? (results : MaybeDocumentMap) (key : DocumentKey) :
    (keepMatching query results).find? key =
      (results.find? key).filter (fun doc => query.matches key doc) := by
  unfold keepMatching
  rw [Entries.find?_foldl results.sorted (fun e doc =>
    if query.matches e.1 e.2 then doc else none)]
  · rw [Entries.find?_entries]
    cases results.find? key with
    | none => rfl
    | some doc => rfl
  · intro t e
    split
    next => rfl
    next => rw [Table.find?_erase, if_pos rfl]
  · intro t e k hk
    split
    next => rfl
    next => rw [Table.find?_erase, if_neg hk]

theorem getMatching_find? (cache : RemoteDocumentCache)
    {sinceReadTime : SnapshotVersion}
    (hread : ∀ e ∈ cache.entries, sinceReadTime < e.2.2) {key : DocumentKey}
    (hkey : IsImmediateParentOf query.path key) :
    (getMatching cache query sinceReadTime).find? key =
      (cache.get key).filter (fun doc => query.matches key doc) := by
  have hstart := MemoryMutationQueue.startKey_le hkey
  have hscan : (cache.entries.dropWhile
      (fun e => e.1 < MemoryMutationQueue.startKey query.path)).takeWhile
        (fun e => query.path <+: e.1.path) =
      (cache.entries.filter
        (fun e => MemoryMutationQueue.startKey query.path ≤ e.1)).filter
          (fun e => query.path <+: e.1.path) := by
    rw [dropWhile_lt_eq_filter Prod.fst cache.sorted]
    apply MemoryMutationQueue.scan_eq_filter Prod.fst
    · exact (cache.sorted.filter _).imp fun hab => le_of_lt hab
    · intro e he
      exact of_decide_eq_true (List.mem_filter.mp he).2
  have hfind : Entries.find? ((cache.entries.filter
      (fun e => MemoryMutationQueue.startKey query.path ≤ e.1)).filter
        (fun e => query.path <+: e.1.path)) key = cache.find? key := by
    rw [Entries.find?_filter_of_pos
        (p := fun k : DocumentKey => decide (query.path <+: k.path))
        (decide_eq_true hkey.1),
      Entries.find?_filter_of_pos
        (p := fun k => decide (MemoryMutationQueue.startKey query.path ≤ k))
        (decide_eq_true hstart)]
    rfl
  have hsorted : Entries.Sorted ((cache.entries.filter
      (fun e => MemoryMutationQueue.startKey query.path ≤ e.1)).filter
        (fun e => query.path <+: e.1.path)) :=
    (cache.sorted.filter _).filter _
  unfold getMatching
  simp only [hscan]
  rw [Entries.find?_foldl hsorted (fun e doc =>
    if sinceReadTime < e.2.2 ∧ query.matches e.1 e.2.1 then some e.2.1 else doc)]
  · rw [hfind, RemoteDocumentCache.get]
    cases hcached : cache.find? key with
    | none => rfl
    | some entry =>
        have hlt := hread _ (Table.find?_eq_some.mp hcached)
        simp only [hlt, true_and]
        rfl
  · intro t e
    split
    next => exact Table.find?_insert_self _ _ _
    next => rfl
  · intro t e k hk
    split
    next => exact Table.find?_insert_of_ne t _ hk
    next => rfl

/-! ## The documents that patches build on -/

def Patched (batches : List MutationBatch) (key : DocumentKey) : Prop :=
  ∃ b ∈ batches, ∃ value mask precondition,
    .patch key value mask precondition ∈ b.mutations

theorem mem_missingDocKeys {batches : List MutationBatch}
    {results : MaybeDocumentMap} {key : DocumentKey} :
    key ∈ missingDocKeys batches results ↔
      Patched batches key ∧ key ∉ results.keys := by
  unfold missingDocKeys Patched
  rw [List.mem_filterMap]
  constructor
  · rintro ⟨m, hm, hkey⟩
    obtain ⟨b, hb, hmb⟩ := List.mem_flatMap.mp hm
    cases m with
    | patch key' value mask precondition =>
        by_cases hmem : key' ∈ results.keys
        · simp [hmem] at hkey
        · simp only [hmem, if_false, Option.some.injEq] at hkey
          subst hkey
          exact ⟨⟨b, hb, value, mask, precondition, hmb⟩, hmem⟩
    | _ => cases hkey
  · rintro ⟨⟨b, hb, value, mask, precondition, hm⟩, hmem⟩
    refine ⟨_, List.mem_flatMap.mpr ⟨b, hb, hm⟩, ?_⟩
    simp [hmem]

theorem addMissingBaseDocuments_find? (cache : RemoteDocumentCache)
    (batches : List MutationBatch) (results : MaybeDocumentMap)
    (key : DocumentKey) :
    (addMissingBaseDocuments cache batches results).find? key =
      if key ∈ missingDocKeys batches results ∧
          (readData (cache.get key)).isSome = true then cache.get key
      else results.find? key := by
  unfold addMissingBaseDocuments
  generalize missingDocKeys batches results = keys
  induction keys generalizing results with
  | nil => simp
  | cons k keys ih =>
      rw [List.foldl_cons, ih]
      by_cases hk : key = k
      · subst hk
        cases hget : cache.get key with
        | none => simp [readData]
        | some doc =>
            cases doc with
            | document version data documentState =>
                simp [readData, MaybeDocument.data?]
            | noDocument version hasCommittedMutations =>
                simp [readData, MaybeDocument.data?]
            | unknownDocument version => simp [readData, MaybeDocument.data?]
      · cases cache.get k with
        | none => simp [hk]
        | some doc =>
            cases doc with
            | document version data documentState =>
                simp only [Table.find?_insert_of_ne results _ hk,
                  List.mem_cons, hk, false_or]
            | noDocument version hasCommittedMutations => simp [hk]
            | unknownDocument version => simp [hk]

/-- The loop over the batches starts from the cached document, or from nothing
where the document neither matches nor is patched. -/
theorem readData_start (batches : List MutationBatch)
    {cache : RemoteDocumentCache} {sinceReadTime : SnapshotVersion}
    (hread : ∀ e ∈ cache.entries, sinceReadTime < e.2.2) {key : DocumentKey}
    (hkey : IsImmediateParentOf query.path key) :
    readData ((addMissingBaseDocuments cache batches
        (getMatching cache query sinceReadTime)).find? key) =
        readData (cache.get key) ∨
      ¬ Patched batches key ∧
        readData ((addMissingBaseDocuments cache batches
          (getMatching cache query sinceReadTime)).find? key) = none ∧
        (readData (cache.get key)).filter (query.matchesFilters key) = none := by
  have hmatching := getMatching_find? cache hread hkey
  rw [addMissingBaseDocuments_find?]
  by_cases hmatches : ∃ doc, cache.get key = some doc ∧
      query.matches key doc = true
  · -- the document is among the matching ones
    obtain ⟨doc, hdoc, hmatch⟩ := hmatches
    rw [hdoc, Option.filter_some, if_pos hmatch] at hmatching
    have hmem : key ∈ (getMatching cache query sinceReadTime).keys :=
      Table.mem_keys_iff_find?.mpr ⟨doc, hmatching⟩
    rw [if_neg fun h => (mem_missingDocKeys.mp h.1).2 hmem, hmatching, hdoc]
    exact .inl rfl
  · have hnone : (getMatching cache query sinceReadTime).find? key = none := by
      rw [hmatching, Option.filter_eq_none_iff]
      intro doc hdoc hmatch
      exact hmatches ⟨doc, hdoc, hmatch⟩
    have hmem : key ∉ (getMatching cache query sinceReadTime).keys :=
      Table.find?_eq_none.mp hnone
    by_cases hpatched : Patched batches key
    · have hmissing : key ∈ missingDocKeys batches
          (getMatching cache query sinceReadTime) :=
        mem_missingDocKeys.mpr ⟨hpatched, hmem⟩
      refine .inl ?_
      split
      next => rfl
      next hnot =>
        have hdata : readData (cache.get key) = none := by
          by_contra hsome
          exact hnot ⟨hmissing, Option.isSome_iff_ne_none.mpr hsome⟩
        rw [hnone, hdata]
        rfl
    · rw [if_neg fun h => hpatched (mem_missingDocKeys.mp h.1).1, hnone]
      refine .inr ⟨hpatched, rfl, ?_⟩
      rw [Option.filter_eq_none_iff]
      intro data hdata hfilter
      obtain ⟨doc, hdoc, hdata'⟩ := Option.bind_eq_some_iff.mp hdata
      refine hmatches ⟨doc, hdoc, ?_⟩
      simp [Query.matches, hdata', hkey, hfilter]

theorem readData_filter_matches (doc : Option MaybeDocument)
    (key : DocumentKey) :
    readData (doc.filter (fun d => query.matches key d)) =
      if IsImmediateParentOf query.path key then
        (readData doc).filter (query.matchesFilters key)
      else none := by
  cases doc with
  | none => split <;> rfl
  | some doc =>
      rw [Option.filter_some, Query.matches]
      cases hdata : doc.data? with
      | none => simp [readData, hdata]
      | some data =>
          by_cases hkey : IsImmediateParentOf query.path key
          · by_cases hmatch : query.matchesFilters key data = true
            · simp [readData, hdata, hkey, hmatch, Option.filter]
            · simp [readData, hdata, hkey, hmatch, Option.filter]
          · simp [hkey, readData]

theorem madeByAll_filter {batches : List MutationBatch} {writes : List Write}
    (h : MadeByAll batches writes) (path : List String) :
    MadeByAll
      (batches.filter (fun b => ∃ key ∈ b.keys, IsImmediateParentOf path key))
      (writes.filter (fun w => IsImmediateParentOf path w.key)) := by
  induction h with
  | nil => exact .nil
  | @cons b w batches writes hb _ ih =>
      have hboth : (∃ key ∈ b.keys, IsImmediateParentOf path key) ↔
          IsImmediateParentOf path w.key := by
        simp only [hb.mem_keys_iff, exists_eq_left]
      rw [List.filter_cons, List.filter_cons]
      by_cases hin : IsImmediateParentOf path w.key
      · rw [if_pos (decide_eq_true (hboth.mpr hin)),
          if_pos (decide_eq_true hin)]
        exact .cons hb ih
      · rw [if_neg (by simpa using fun h => hin (hboth.mp h)),
          if_neg (by simpa using hin)]
        exact ih

theorem apply_of_not_patched {batches : List MutationBatch} {writes : List Write}
    (h : MadeByAll batches writes) {w : Write} (hw : w ∈ writes)
    (hpatched : ¬ Patched batches w.key) (data data' : Option ObjectValue) :
    w.call.apply data = w.call.apply data' := by
  induction h with
  | nil => cases hw
  | @cons b v batches writes hb _ ih =>
      rcases List.mem_cons.mp hw with rfl | hmem
      · apply apply_of_no_patch hb.predictable
        intro value mask precondition hpatch
        refine hpatched ⟨b, List.mem_cons_self, value, mask, precondition, ?_⟩
        rw [hb.mutations]
        exact hpatch
      · refine ih hmem fun ⟨b', hb', hpatch⟩ => hpatched ⟨b', ?_, hpatch⟩
        exact List.mem_cons_of_mem b hb'

variable [DoubleArithmetic]

/-! ## The loop over the batches -/

theorem applyMutation_find? (localWriteTime : Timestamp)
    (results : MaybeDocumentMap) (m : Mutation)
    (hm : IsImmediateParentOf query.path m.key) (key : DocumentKey) :
    readData ((applyMutation query localWriteTime results m).find? key) =
      if key = m.key then
        readData (m.applyToLocalView (results.find? key) (results.find? key)
          localWriteTime)
      else readData (results.find? key) := by
  unfold applyMutation
  rw [if_pos hm]
  by_cases hkey : key = m.key
  · subst hkey
    simp only [if_true]
    split
    next heq => rw [Table.find?_insert_self, heq]
    next hnot =>
      rw [Table.find?_erase, if_pos rfl]
      cases hdoc : m.applyToLocalView (results.find? m.key)
          (results.find? m.key) localWriteTime with
      | none => rfl
      | some doc =>
          cases doc with
          | document version data documentState =>
              exact absurd hdoc (hnot version data documentState)
          | noDocument version hasCommittedMutations => rfl
          | unknownDocument version => rfl
  · rw [if_neg hkey]
    simp only
    split
    next => rw [Table.find?_insert_of_ne results _ hkey]
    next => rw [Table.find?_erase, if_neg hkey]

/-- In the loop a predictable call does to the data what it means. -/
theorem readData_foldl_applyMutation {call : Call} (h : call.Predictable)
    {k : DocumentKey} (hk : IsImmediateParentOf query.path k)
    (localWriteTime : Timestamp) (results : MaybeDocumentMap)
    (key : DocumentKey) :
    readData (((call.mutations k).foldl (applyMutation query localWriteTime)
        results).find? key) =
      if key = k then call.apply (readData (results.find? key))
      else readData (results.find? key) := by
  have htransforms {fieldTransforms : List FieldTransform}
      (ht : ∀ t ∈ fieldTransforms, IsArrayTransform t.transformation)
      (results : MaybeDocumentMap) :
      readData (((transformMutations k fieldTransforms).foldl
          (applyMutation query localWriteTime) results).find? key) =
        if key = k then
          (readData (results.find? key)).map (transformed fieldTransforms)
        else readData (results.find? key) := by
    have hlocal : readData ((transformMutations k fieldTransforms).foldl
        (fun d m => m.applyToLocalView d (results.find? key) localWriteTime)
        (results.find? key)) =
        (readData (results.find? key)).map (transformed fieldTransforms) :=
      readData_transforms_local ht (fun _ _ => Option.or_self) localWriteTime
    rw [← hlocal]
    unfold transformMutations
    split
    next => split <;> rfl
    next =>
      rw [List.foldl_cons, List.foldl_nil, applyMutation_find? _ _ _ hk]
      rfl
  cases call with
  | setData parsed =>
      obtain ⟨data, _ | fieldMask, fieldTransforms⟩ := parsed
      · have hnil : fieldTransforms = [] := h
        rw [hnil]
        exact applyMutation_find? localWriteTime results (.set k data .none) hk
          key
      · rw [Call.mutations, ParsedSetData.toMutations, List.foldl_cons,
          htransforms h.arrays, applyMutation_find? _ _ _ hk,
          readData_patch_local, Mutation.key]
        split
        next => rfl
        next => rfl
  | updateData parsed =>
      rw [Call.mutations, ParsedUpdateData.toMutations, List.foldl_cons,
        htransforms h.arrays, applyMutation_find? _ _ _ hk,
        readData_patch_local, isValidFor_exists, Mutation.key, Call.apply]
      split
      next =>
        cases readData (results.find? key) with
        | none => rfl
        | some data => rfl
      next => rfl
  | deleteDocument =>
      exact applyMutation_find? localWriteTime results (.delete k .none) hk key

theorem readData_foldl_batches {batches : List MutationBatch}
    {writes : List Write} (h : MadeByAll batches writes)
    (hin : ∀ w ∈ writes, IsImmediateParentOf query.path w.key)
    (results : MaybeDocumentMap) (key : DocumentKey) :
    readData ((batches.foldl
        (fun results batch => batch.mutations.foldl
          (applyMutation query batch.localWriteTime) results)
        results).find? key) =
      written writes key (readData (results.find? key)) := by
  induction h generalizing results with
  | nil => rfl
  | @cons b w batches writes hb _ ih =>
      obtain ⟨hw, hrest⟩ := List.forall_mem_cons.mp hin
      rw [List.foldl_cons, ih hrest, hb.mutations,
        readData_foldl_applyMutation hb.predictable hw, written_cons]

/-- A query finds what looking at each document of the collection would
find. -/
theorem getDocumentsMatchingCollectionQuery_ok {s : LocalStore} (h : s.WF)
    {writes : List Write} (hmade : MadeByAll s.mutationQueue.queue writes)
    {sinceReadTime : SnapshotVersion}
    (hread : ∀ e ∈ s.remoteDocumentCache.entries, sinceReadTime < e.2.2)
    (query : Query) :
    ∃ results, s.getDocumentsMatchingCollectionQuery query sinceReadTime =
        .ok results ∧
      (∀ key doc, results.find? key = some doc →
        query.matches key doc = true) ∧
      ∀ key, readData (results.find? key) =
        if IsImmediateParentOf query.path key then
          (readData (s.view key)).filter (query.matchesFilters key)
        else none := by
  have hfiltered := madeByAll_filter hmade query.path
  have hin : ∀ w ∈ writes.filter
      (fun w => IsImmediateParentOf query.path w.key),
      IsImmediateParentOf query.path w.key := fun w hw =>
    of_decide_eq_true (List.mem_filter.mp hw).2
  rw [getDocumentsMatchingCollectionQuery, h.queue.affectingQuery_eq_filter,
    ok_bind]
  refine ⟨_, rfl, fun key doc hdoc => ?_, fun key => ?_⟩
  · rw [keepMatching_find?, Option.filter_eq_some_iff] at hdoc
    exact hdoc.2
  rw [keepMatching_find?, readData_filter_matches]
  split
  next hkey =>
    have hview : readData (s.view key) = written (writes.filter
        (fun w => IsImmediateParentOf query.path w.key)) key
          (readData (s.remoteDocumentCache.get key)) := by
      rw [view, hmade.readData_applyBatches, written_filter]
      exact fun w _ heq => by simpa [← heq] using hkey
    rw [readData_foldl_batches hfiltered hin, hview]
    rcases readData_start (s.mutationQueue.queue.filter
      (fun b => ∃ key ∈ b.keys, IsImmediateParentOf query.path key)) hread hkey
      with hstart | ⟨hpatched, hstart, hcached⟩
    · rw [hstart]
    · rw [hstart]
      by_cases hsome : ∃ w ∈ writes.filter
          (fun w => IsImmediateParentOf query.path w.key), key = w.key
      · congr 1
        refine written_of_absolute (fun w hw heq data data' => ?_) hsome _ _
        subst heq
        exact apply_of_not_patched hfiltered hw hpatched data data'
      · push Not at hsome
        rw [written_of_forall_ne hsome, written_of_forall_ne hsome, hcached]
        rfl
  next => rfl

end Grocr.Firestore.Local.LocalStore

namespace Grocr.Firestore.Remote.Client

open Grocr.Support Grocr.Firestore.Model Grocr.Firestore.Local
open Grocr.Firestore.Api

section

variable [DoubleArithmetic] {backend : Backend} {user : User} {c c' : Client}
  {e : Event} {es : List Event} {ws : List Write}

/-- What is cached was read at a time later than 0. -/
def ReadLater (c : Client) : Prop :=
  c.localStore.remoteDocumentCache.All fun entry => 0 < entry.2

theorem ReadLater.step (h : c.ReadLater) (hinv : c.Inv)
    (henabled : enabled backend c e) (hstep : c.step e = .ok c') :
    c'.ReadLater := by
  obtain ⟨d, hd, -, heffect⟩ := step_ok hinv henabled
  cases hstep.symm.trans hd
  have hsame (hcache : c'.localStore.remoteDocumentCache =
      c.localStore.remoteDocumentCache) : c'.ReadLater := by
    rw [ReadLater, hcache]
    exact h
  cases e with
  | writeMutations mutations localWriteTime =>
      obtain ⟨result, hwrite, -⟩ := heffect
      obtain ⟨-, result', s', -, hwrite', -, -, -, -, -, hcache, -⟩ :=
        LocalStore.writeLocally_ok hinv.store henabled.1 localWriteTime
      cases hwrite.symm.trans hwrite'
      exact hsame hcache
  | mutationResult commitVersion mutationResults =>
      obtain ⟨r, rest, changes, -, -, rfl, -, hack, -⟩ := heffect
      exact LocalStore.all_acknowledgeBatch (fun _ => henabled.2.2.1) h hack
  | streamError isPermanent =>
      rcases heffect with ⟨hstore, -⟩ |
        ⟨-, batch, rest, changes, hqueue, hreject, -⟩
      · exact hsame (by rw [hstore])
      · obtain ⟨changes', s', hreject', -, -, hcache, -⟩ :=
          LocalStore.rejectBatch_ok hinv.store hqueue
        cases hreject.symm.trans hreject'
        exact hsame hcache
  | credentialChange other =>
      rcases heffect with ⟨-, hstore, -⟩ | ⟨-, ⟨changes, hchange⟩, -⟩
      · exact hsame (by rw [hstore])
      · obtain ⟨changes', s', hchange', hcache, -⟩ :=
          LocalStore.handleUserChange_ok hinv.store c.callbacks.currentUser
            other
        cases hchange.symm.trans hchange'
        exact hsame hcache
  | remoteEvent event =>
      obtain ⟨changes, happly, -⟩ := heffect
      exact LocalStore.all_applyRemoteEvent
        (fun hversion _ => Nat.pos_of_ne_zero hversion) h happly
  | garbageCollection orphaned referenced =>
      rw [ReadLater, heffect.1]
      exact LocalStore.all_removeOrphaned orphaned referenced h
  | _ => exact hsame (by rw [heffect.1])

theorem readLater_of_run (hrun : (machine backend).Run (.empty user) es c) :
    ∀ entry ∈ c.localStore.remoteDocumentCache.entries, 0 < entry.2.2 := by
  have hall : c.Inv ∧ c.ReadLater := by
    apply hrun.invariant (I := fun u => u.Inv ∧ u.ReadLater)
      ⟨Inv.empty user, .empty⟩
    intro u e v ⟨hinv, hread⟩ henabled hstep
    obtain ⟨v', hv', hinv', -⟩ := step_ok hinv henabled
    cases hstep.symm.trans hv'
    exact ⟨hinv', hread.step hinv henabled hstep⟩
  exact fun entry hentry =>
    hall.2 entry.1 entry.2 (Table.find?_eq_some.mpr hentry)

/-- In every run of one user a full query finds the documents that the user
sees in its collection, no more and no fewer. -/
theorem query_finds_view (hrun : (machine backend).Run (.empty user) es c)
    (hkeeps : ∀ e ∈ es, e.Keeps user)
    (hws : writesOf es = ws.map Write.mutations)
    (hpredictable : ∀ w ∈ ws, w.call.Predictable) (query : Query) :
    ∃ results, c.localStore.getDocumentsMatchingCollectionQuery query 0 =
        .ok results ∧
      ∀ key, readData (results.find? key) =
        if IsImmediateParentOf query.path key then
          (readData (c.view key)).filter (query.matchesFilters key)
        else none := by
  have hmade := madeByAll_of_run hrun hkeeps hws hpredictable
  obtain ⟨results, hresults, -, hdata⟩ :=
    LocalStore.getDocumentsMatchingCollectionQuery_ok (inv_of_run hrun).store
      hmade (readLater_of_run hrun) query
  exact ⟨results, hresults, hdata⟩

end

theorem query_finds_view_apple : ∃ c results,
    (machine appleBackend).Run (.empty appleUser)
        (appleTagged ++ [appleAnswer]) c ∧
      c.localStore.getDocumentsMatchingCollectionQuery
        ⟨["grocery"], fun _ data => data.get ["tags"] ≠ none, rfl⟩ 0 =
          .ok results ∧
      readData (results.find? appleKey) =
        some (appleData ++ [("tags", .array [.string "red"])]) := by
  obtain ⟨c, hrun, -, hview⟩ := view_eq_written_apple
  obtain ⟨results, hresults, hdata⟩ := query_finds_view hrun keeps_apple rfl
    appleCalls_predictable
    ⟨["grocery"], fun _ data => data.get ["tags"] ≠ none, rfl⟩
  refine ⟨c, results, hrun, hresults, ?_⟩
  rw [hdata, hview]
  decide

end Grocr.Firestore.Remote.Client
