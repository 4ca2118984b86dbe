import Mathlib.Data.List.ReduceOption
import Mathlib.Tactic.Common
import Grocr.Support.Checked
import Grocr.Support.Lexicographic
import Grocr.Support.SortedList
import Grocr.Firestore.MutationQueue
/-!
# The queue finds what a search would find

The IDs of the queue follow one another without a gap, and the index holds
exactly the documents of the batches in it.  From this the arithmetic on IDs
and the scans of the index amount to searches and filters of the queue.
-/

namespace Grocr.Firestore.Local

open Grocr.Support Grocr.Support.Checked Grocr.Firestore.Model

theorem DocumentKeyReference.lt_iff {r s : DocumentKeyReference} :
    r < s ↔ r.key < s.key ∨ r.key = s.key ∧ r.refId < s.refId :=
  Prod.Lex.lt_iff

theorem DocumentKeyReference.le_iff {r s : DocumentKeyReference} :
    r ≤ s ↔ r.key < s.key ∨ r.key = s.key ∧ r.refId ≤ s.refId :=
  Prod.Lex.le_iff

@[simp] theorem DocumentKeyReference.key_mk (key : DocumentKey)
    (refId : Int) : (DocumentKeyReference.mk key refId).key = key := rfl

@[simp] theorem DocumentKeyReference.refId_mk (key : DocumentKey)
    (refId : Int) : (DocumentKeyReference.mk key refId).refId = refId := rfl

theorem DocumentKeyReference.ext_iff {r s : DocumentKeyReference} :
    r = s ↔ r.key = s.key ∧ r.refId = s.refId := by
  constructor
  · rintro rfl
    exact ⟨rfl, rfl⟩
  · rintro ⟨hkey, hid⟩
    exact Prod.ext hkey hid

theorem mem_keys_iff {batch : MutationBatch} {key : DocumentKey} :
    key ∈ batch.keys ↔ ∃ m ∈ batch.mutations, m.key = key := by
  rw [MutationBatch.keys, List.mem_eraseDups, List.mem_map]

namespace MemoryMutationQueue

structure WF (q : MemoryMutationQueue) : Prop where
  /-- The last batch has the ID before the next one, and so on down. -/
  ids : ∀ (i : Nat) (b : MutationBatch), q.queue[i]? = some b →
    b.batchId = q.nextBatchId - q.queue.length + i
  positive : (q.queue.length : Int) < q.nextBatchId
  references : ∀ r, r ∈ q.batchesByDocumentKey.keys ↔
    ∃ b ∈ q.queue, b.batchId = r.refId ∧ r.key ∈ b.keys

variable {q q' : MemoryMutationQueue}

theorem WF.empty : MemoryMutationQueue.empty.WF where
  ids := by simp [MemoryMutationQueue.empty]
  positive := by simp [MemoryMutationQueue.empty]
  references := by simp [MemoryMutationQueue.empty, Table.keys, Table.empty]

@[simp] theorem queue_start (q : MemoryMutationQueue) :
    q.start.queue = q.queue := by
  unfold start
  split <;> rfl

namespace WF

/-! ## The IDs -/

theorem getElem?_iff (h : q.WF) {i : Nat} {b : MutationBatch} :
    q.queue[i]? = some b ↔
      b ∈ q.queue ∧ b.batchId = q.nextBatchId - q.queue.length + i := by
  constructor
  · exact fun hi => ⟨List.mem_of_getElem? hi, h.ids i b hi⟩
  · rintro ⟨hmem, hid⟩
    obtain ⟨j, hj⟩ := List.mem_iff_getElem?.mp hmem
    have hidj := h.ids j b hj
    have hij : i = j := by omega
    rw [hij, hj]

theorem eq_of_batchId_eq (h : q.WF) {b c : MutationBatch} (hb : b ∈ q.queue)
    (hc : c ∈ q.queue) (hid : b.batchId = c.batchId) : b = c := by
  obtain ⟨i, hi⟩ := List.mem_iff_getElem?.mp hb
  have hci : q.queue[i]? = some c :=
    h.getElem?_iff.mpr ⟨hc, hid ▸ h.ids i b hi⟩
  rw [hi] at hci
  exact Option.some.inj hci

theorem batchId_bounds (h : q.WF) {b : MutationBatch} (hb : b ∈ q.queue) :
    0 < b.batchId ∧ b.batchId < q.nextBatchId := by
  obtain ⟨i, hi⟩ := List.mem_iff_getElem?.mp hb
  have hlt : i < q.queue.length := by
    obtain ⟨hlt, -⟩ := List.getElem?_eq_some_iff.mp hi
    exact hlt
  have hid := h.ids i b hi
  have hpos := h.positive
  omega

theorem increasing (h : q.WF) :
    q.queue.Pairwise (fun b c => b.batchId < c.batchId) := by
  rw [List.pairwise_iff_getElem]
  intro i j hi hj hij
  have hidi := h.ids i _ (List.getElem?_eq_getElem hi)
  have hidj := h.ids j _ (List.getElem?_eq_getElem hj)
  omega

theorem indexOfBatchId_eq (h : q.WF) (hne : q.queue ≠ []) (batchId : Int) :
    q.indexOfBatchId batchId =
      batchId - (q.nextBatchId - q.queue.length) := by
  unfold indexOfBatchId
  cases hqueue : q.queue with
  | nil => exact absurd hqueue hne
  | cons first rest =>
      have hid := h.ids 0 first (by rw [hqueue]; rfl)
      rw [hqueue] at hid
      simp only
      omega

theorem lookup_of_mem (h : q.WF) {b : MutationBatch} (hb : b ∈ q.queue) :
    q.lookupMutationBatch b.batchId = .ok (some b) := by
  obtain ⟨i, hi⟩ := List.mem_iff_getElem?.mp hb
  have hindex : q.indexOfBatchId b.batchId = i := by
    rw [h.indexOfBatchId_eq (List.ne_nil_of_mem hb), h.ids i b hi]
    omega
  unfold lookupMutationBatch
  simp [hindex, hi]

theorem lookup_of_forall_ne (h : q.WF) {batchId : Int}
    (hne : ∀ b ∈ q.queue, b.batchId ≠ batchId) :
    q.lookupMutationBatch batchId = .ok none := by
  unfold lookupMutationBatch
  simp only
  split
  next => rfl
  next hnonneg =>
    split
    next => rfl
    next b hb =>
      have hmem : b ∈ q.queue := List.mem_of_getElem? hb
      have hid := h.ids _ b hb
      rw [h.indexOfBatchId_eq (List.ne_nil_of_mem hmem)] at hid hnonneg
      have heq : b.batchId = batchId := by omega
      exact absurd heq (hne b hmem)

/-- Arithmetic on the ID finds the batch that a search finds. -/
theorem lookup_eq_find? (h : q.WF) (batchId : Int) :
    q.lookupMutationBatch batchId =
      .ok (q.queue.find? (fun b => b.batchId = batchId)) := by
  cases hfind : q.queue.find? (fun b => b.batchId = batchId) with
  | none =>
      apply h.lookup_of_forall_ne
      intro b hb
      simpa using List.find?_eq_none.mp hfind b hb
  | some b =>
      have hid : b.batchId = batchId := by simpa using List.find?_some hfind
      rw [← hid]
      exact h.lookup_of_mem (List.mem_of_find?_eq_some hfind)

/-- The next batch is the first one with a larger ID. -/
theorem next_eq_find? (h : q.WF) (batchId : Int) :
    q.nextMutationBatchAfterBatchId batchId =
      q.queue.find? (fun b => batchId < b.batchId) := by
  unfold nextMutationBatchAfterBatchId
  symm
  by_cases hne : q.queue = []
  · simp [hne]
  rw [h.indexOfBatchId_eq hne]
  generalize hindex :
    (batchId + 1 - (q.nextBatchId - (q.queue.length : Int))).toNat = index
  cases hget : q.queue[index]? with
  | none =>
      rw [List.find?_eq_none]
      intro b hb
      have hlength := List.getElem?_eq_none_iff.mp hget
      have hpos : 0 < q.queue.length := List.length_pos_of_mem hb
      have hbounds := h.batchId_bounds hb
      simp only [decide_eq_true_eq]
      omega
  | some b =>
      have hid := h.ids index b hget
      have hlt : index < q.queue.length :=
        (List.getElem?_eq_some_iff.mp hget).1
      rw [List.find?_eq_some_iff_getElem]
      refine ⟨by simp only [decide_eq_true_eq]; omega, index, hlt, ?_, ?_⟩
      · exact (List.getElem?_eq_some_iff.mp hget).2
      · intro j hj
        have hidj := h.ids j _ (List.getElem?_eq_getElem (hj.trans hlt))
        simp only [Bool.not_eq_true', decide_eq_false_iff_not]
        omega

/-! ## The index -/

theorem referencesTo_eq_filter (h : q.WF) (key : DocumentKey) :
    q.referencesTo key =
      q.batchesByDocumentKey.keys.filter (fun r => r.key = key) := by
  have hincreasing := q.batchesByDocumentKey.keys_increasing
  unfold referencesTo ReferenceSet.valuesFrom
  rw [dropWhile_lt_eq_filter (fun r => r) hincreasing, takeWhile_eq_filter]
  · rw [List.filter_filter]
    refine List.filter_congr fun r hr => ?_
    obtain ⟨b, hb, hid, -⟩ := (h.references r).mp hr
    have hpos := (h.batchId_bounds hb).1
    by_cases hkey : r.key = key
    · have hle : DocumentKeyReference.mk key 0 ≤ r := by
        rw [DocumentKeyReference.le_iff]
        refine .inr ⟨hkey.symm, ?_⟩
        rw [DocumentKeyReference.refId_mk, ← hid]
        exact hpos.le
      simp [hkey, hle]
    · simp [hkey]
  · -- past the references of `key` come those of larger keys only
    have hsorted := hincreasing.filter
      (fun r => decide (DocumentKeyReference.mk key 0 ≤ r))
    rw [List.pairwise_iff_forall_sublist] at hsorted ⊢
    intro r s hrs hr
    have hmem : r ∈ q.batchesByDocumentKey.keys.filter
        (fun r => decide (DocumentKeyReference.mk key 0 ≤ r)) :=
      hrs.subset (by simp)
    have hstart : DocumentKeyReference.mk key 0 ≤ r := by
      simpa using (List.mem_filter.mp hmem).2
    have hne : r.key ≠ key := by simpa using hr
    have hlt : key < r.key := by
      rcases DocumentKeyReference.le_iff.mp hstart with hlt | ⟨heq, -⟩
      · exact hlt
      · exact absurd heq.symm hne
    have hle : r.key ≤ s.key := by
      rcases DocumentKeyReference.lt_iff.mp (hsorted hrs) with hlt | ⟨heq, -⟩
      · exact hlt.le
      · exact heq.le
    simpa using (hlt.trans_le hle).ne'

theorem refIds_eq (h : q.WF) (key : DocumentKey) :
    (q.referencesTo key).map DocumentKeyReference.refId =
      (q.queue.filter (fun b => key ∈ b.keys)).map MutationBatch.batchId := by
  have hincreasing := q.batchesByDocumentKey.keys_increasing
  rw [h.referencesTo_eq_filter key]
  apply eq_of_increasing (fun id : Int => id)
  · rw [List.pairwise_map, List.pairwise_filter]
    refine hincreasing.imp ?_
    intro r s hrs hr hs
    rcases DocumentKeyReference.lt_iff.mp hrs with hlt | ⟨-, hlt⟩
    · simp only [decide_eq_true_eq] at hr hs
      exact absurd hlt (by rw [hr, hs]; exact lt_irrefl key)
    · exact hlt
  · rw [List.pairwise_map]
    exact h.increasing.filter _
  · intro id
    simp only [List.mem_map, List.mem_filter, decide_eq_true_eq]
    constructor
    · rintro ⟨r, ⟨hr, hkey⟩, hid⟩
      obtain ⟨b, hb, hbid, hbkey⟩ := (h.references r).mp hr
      exact ⟨b, ⟨hb, hkey ▸ hbkey⟩, hbid.trans hid⟩
    · rintro ⟨b, ⟨hb, hkey⟩, hid⟩
      exact ⟨.mk key id, ⟨(h.references _).mpr ⟨b, hb, hid, hkey⟩, rfl⟩, rfl⟩

/-- The index leads to the batches that touch a document, in their order. -/
theorem affecting_eq_filter (h : q.WF) (key : DocumentKey) :
    q.allMutationBatchesAffectingDocumentKey key =
      .ok (q.queue.filter (fun b => key ∈ b.keys)) := by
  have hloop : (q.referencesTo key).mapM q.referencedBatch =
      ((q.referencesTo key).map DocumentKeyReference.refId).mapM
        (fun id => q.referencedBatch (.mk key id)) := by
    rw [List.mapM_map]
    rfl
  have hbatch : ∀ b ∈ q.queue.filter (fun b => key ∈ b.keys),
      q.referencedBatch (.mk key b.batchId) = .ok b := by
    intro b hb
    simp only [referencedBatch, DocumentKeyReference.refId_mk,
      h.lookup_of_mem (List.mem_filter.mp hb).1]
  rw [allMutationBatchesAffectingDocumentKey, hloop, h.refIds_eq key,
    List.mapM_map]
  exact (mapM_ok (g := id) hbatch).trans (by rw [List.map_id])

theorem withIds_eq_filter (h : q.WF) (batchIds : Table Int Unit) :
    q.allMutationBatchesWithIds batchIds =
      .ok (q.queue.filter (fun b => b.batchId ∈ batchIds.keys)) := by
  have hlookups : batchIds.keys.mapM q.lookupMutationBatch =
      .ok (batchIds.keys.map fun id => q.queue.find? (fun b => b.batchId = id)) :=
    mapM_ok fun id _ => h.lookup_eq_find? id
  rw [allMutationBatchesWithIds, hlookups]
  change Except.ok _ = _
  congr 1
  rw [List.reduceOption, List.filterMap_map]
  apply eq_of_increasing MutationBatch.batchId
  · rw [List.pairwise_filterMap]
    refine batchIds.keys_increasing.imp ?_
    intro i j hij b hb c hc
    have hbi : b.batchId = i := by simpa using List.find?_some hb
    have hcj : c.batchId = j := by simpa using List.find?_some hc
    rw [hbi, hcj]
    exact hij
  · exact h.increasing.filter _
  · intro b
    rw [List.mem_filterMap, List.mem_filter]
    constructor
    · rintro ⟨id, hid, hb⟩
      have hbid : b.batchId = id := by simpa using List.find?_some hb
      exact ⟨List.mem_of_find?_eq_some hb, by simpa [hbid] using hid⟩
    · rintro ⟨hb, hid⟩
      refine ⟨b.batchId, by simpa using hid, ?_⟩
      have hlookup := h.lookup_of_mem hb
      rw [h.lookup_eq_find?] at hlookup
      exact Except.ok.inj hlookup

theorem mem_insertIds {batchIds : Table Int Unit}
    {references : List DocumentKeyReference} {id : Int} :
    id ∈ (insertIds batchIds references).keys ↔
      id ∈ batchIds.keys ∨ ∃ r ∈ references, r.refId = id :=
  Table.mem_keys_foldl_insert

theorem affectingKeys_eq_filter (h : q.WF) (keys : List DocumentKey) :
    q.allMutationBatchesAffectingDocumentKeys keys =
      .ok (q.queue.filter (fun b => ∃ key ∈ keys, key ∈ b.keys)) := by
  have hids : ∀ (ids : Table Int Unit) (id : Int),
      id ∈ (keys.foldl (fun ids key => insertIds ids (q.referencesTo key))
        ids).keys ↔
      id ∈ ids.keys ∨ ∃ key ∈ keys, ∃ r ∈ q.referencesTo key, r.refId = id := by
    induction keys with
    | nil => simp
    | cons key keys ih =>
        intro ids id
        rw [List.foldl_cons, ih, mem_insertIds, List.exists_mem_cons_iff,
          or_assoc]
  rw [allMutationBatchesAffectingDocumentKeys, h.withIds_eq_filter]
  congr 1
  refine List.filter_congr fun b hb => ?_
  have hrefs : ∀ key, (∃ r ∈ q.referencesTo key, r.refId = b.batchId) ↔
      key ∈ b.keys := by
    intro key
    have hmem : b.batchId ∈ (q.referencesTo key).map
        DocumentKeyReference.refId ↔ key ∈ b.keys := by
      rw [h.refIds_eq key, List.mem_map]
      constructor
      · rintro ⟨c, hc, hid⟩
        obtain ⟨hcq, hkey⟩ := List.mem_filter.mp hc
        rw [h.eq_of_batchId_eq hcq hb hid] at hkey
        simpa using hkey
      · intro hkey
        exact ⟨b, List.mem_filter.mpr ⟨hb, by simpa using hkey⟩, rfl⟩
    rwa [List.mem_map] at hmem
  simp only [hids, hrefs, Table.notMem_keys_empty, false_or]

/-! ## The documents of a collection -/

end WF

theorem path_startKey (path : List String) :
    (startKey path).path =
      if path.length % 2 = 0 then path else path ++ [""] := by
  unfold startKey
  split <;> rfl

theorem startKey_le {path : List String} {key : DocumentKey}
    (h : IsImmediateParentOf path key) : startKey path ≤ key := by
  obtain ⟨⟨rest, hrest⟩, hlength⟩ := h
  have hodd : path.length % 2 ≠ 0 := by
    have heven := key.even
    omega
  have hone : rest.length = 1 := by
    rw [← hrest, List.length_append] at hlength
    omega
  obtain ⟨id, rfl⟩ := List.length_eq_one_iff.mp hone
  change (startKey path).path ≤ key.path
  rw [path_startKey, if_neg hodd, ← hrest]
  clear hrest hlength hodd hone
  induction path with
  | nil =>
      apply not_lt.mp
      intro hlt
      rcases List.cons_lt_cons_iff.mp hlt with hid | ⟨-, hnil⟩
      · have hchars : id.toList < "".toList := String.lt_iff_toList_lt.mp hid
        exact absurd hchars (List.not_lt_nil _)
      · exact absurd hnil (List.not_lt_nil _)
  | cons x path ih => exact List.cons_le_cons x ih

theorem le_path_startKey (path : List String) : path ≤ (startKey path).path := by
  rw [path_startKey]
  split
  next => exact le_rfl
  next => exact Lexicographic.le_append path [""]

/-- A scan that starts at the start key leaves the collection for good. -/
theorem scan_eq_filter {α : Type} (f : α → DocumentKey) {path : List String}
    {xs : List α} (hincreasing : xs.Pairwise (fun a b => f a ≤ f b))
    (hstart : ∀ x ∈ xs, startKey path ≤ f x) :
    xs.takeWhile (fun x => path <+: (f x).path) =
      xs.filter (fun x => path <+: (f x).path) := by
  apply Lexicographic.takeWhile_prefix_eq_filter (fun x => (f x).path)
  · exact hincreasing
  · intro x hx
    exact (le_path_startKey path).trans (hstart x hx)

namespace WF

/-- The scan finds the batches that touch a document of the collection. -/
theorem affectingQuery_eq_filter (h : q.WF) (path : List String) :
    q.allMutationBatchesAffectingQuery path =
      .ok (q.queue.filter
        (fun b => ∃ key ∈ b.keys, IsImmediateParentOf path key)) := by
  have hincreasing := q.batchesByDocumentKey.keys_increasing
  have hscan : (q.batchesByDocumentKey.valuesFrom
      (.mk (startKey path) 0)).takeWhile (fun r => path <+: r.key.path) =
      (q.batchesByDocumentKey.keys.filter
        (fun r => DocumentKeyReference.mk (startKey path) 0 ≤ r)).filter
          (fun r => path <+: r.key.path) := by
    unfold ReferenceSet.valuesFrom
    rw [dropWhile_lt_eq_filter (fun r => r) hincreasing]
    apply scan_eq_filter DocumentKeyReference.key
    · refine (hincreasing.filter _).imp fun {r t} hrt => ?_
      rcases DocumentKeyReference.lt_iff.mp hrt with hlt | ⟨heq, -⟩
      · exact hlt.le
      · exact heq.le
    · intro r hr
      rcases DocumentKeyReference.le_iff.mp
        (of_decide_eq_true (List.mem_filter.mp hr).2) with hlt | ⟨heq, -⟩
      · exact hlt.le
      · exact heq.le
  rw [allMutationBatchesAffectingQuery, hscan, h.withIds_eq_filter]
  congr 1
  refine List.filter_congr fun b hb => ?_
  have hpos := (h.batchId_bounds hb).1
  rw [decide_eq_decide]
  simp only [mem_insertIds, Table.notMem_keys_empty, false_or, List.mem_filter,
    decide_eq_true_eq]
  constructor
  · rintro ⟨r, ⟨⟨⟨hr, -⟩, hprefix⟩, hlength⟩, hid⟩
    obtain ⟨c, hc, hcid, hkey⟩ := (h.references r).mp hr
    rw [h.eq_of_batchId_eq hc hb (hcid.trans hid)] at hkey
    exact ⟨r.key, hkey, hprefix, hlength⟩
  · rintro ⟨key, hkey, hparent⟩
    refine ⟨.mk key b.batchId, ⟨⟨⟨?_, ?_⟩, hparent.1⟩, hparent.2⟩, rfl⟩
    · exact (h.references _).mpr ⟨b, hb, rfl, hkey⟩
    · rw [DocumentKeyReference.le_iff]
      rcases (startKey_le hparent).lt_or_eq with hlt | heq
      · exact .inl hlt
      · exact .inr ⟨heq, hpos.le⟩

theorem containsKey_iff (h : q.WF) (key : DocumentKey) :
    q.containsKey key = true ↔ ∃ b ∈ q.queue, key ∈ b.keys := by
  have hrefs : q.referencesTo key ≠ [] ↔ ∃ b ∈ q.queue, key ∈ b.keys := by
    have hne : q.referencesTo key ≠ [] ↔
        (q.queue.filter (fun b => key ∈ b.keys)).map MutationBatch.batchId ≠
          [] := by
      rw [← h.refIds_eq key, Ne, Ne, List.map_eq_nil_iff]
    rw [hne, Ne, List.map_eq_nil_iff, List.filter_eq_nil_iff]
    simp
  rw [← hrefs, containsKey, referencesTo]
  cases q.batchesByDocumentKey.valuesFrom (.mk key 0) with
  | nil => simp
  | cons r rest => simp [List.takeWhile_cons]

/-! ## The operations keep the invariant -/

theorem start (h : q.WF) : q.start.WF := by
  unfold MemoryMutationQueue.start
  split
  next hempty =>
    have hnil : q.queue = [] := List.isEmpty_iff.mp hempty
    refine ⟨?_, ?_, h.references⟩
    · simp [hnil]
    · simp [hnil]
  next => exact h

theorem addMutationBatch_ok (h : q.WF) (localWriteTime : Timestamp)
    (baseMutations : List Mutation) {mutations : List Mutation}
    (hne : mutations ≠ []) :
    ∃ batch q', q.addMutationBatch localWriteTime baseMutations mutations =
        .ok (batch, q') ∧
      batch = ⟨q.nextBatchId, localWriteTime, baseMutations, mutations, hne⟩ ∧
      q'.queue = q.queue ++ [batch] ∧ q'.nextBatchId = q.nextBatchId + 1 ∧
      q'.WF := by
  have hprior : ∀ prior ∈ q.queue.getLast?, prior.batchId < q.nextBatchId :=
    fun prior hlast =>
      (h.batchId_bounds (List.mem_of_getLast? hlast)).2
  unfold addMutationBatch
  rw [dif_neg hne]
  simp only [if_pos hprior]
  refine ⟨_, _, rfl, rfl, rfl, rfl, ?_⟩
  constructor
  · intro i b hi
    simp only [List.length_append, List.length_singleton] at hi ⊢
    rcases Nat.lt_or_ge i q.queue.length with hlt | hge
    · rw [List.getElem?_append_left hlt] at hi
      have hid := h.ids i b hi
      omega
    · rw [List.getElem?_append_right hge, List.getElem?_singleton] at hi
      split at hi
      next hzero =>
        rw [Option.some.injEq] at hi
        subst hi
        simp only
        omega
      next => cases hi
  · have hpos := h.positive
    simp only [List.length_append, List.length_singleton]
    omega
  · intro r
    have hfold : ∀ (ms : List Mutation) (references : ReferenceSet),
        r ∈ (ms.foldl (addReference q.nextBatchId) references).keys ↔
          r ∈ references.keys ∨
            ∃ m ∈ ms, DocumentKeyReference.mk m.key q.nextBatchId = r := by
      intro ms
      induction ms with
      | nil => simp
      | cons m ms ih =>
          intro references
          rw [List.foldl_cons, ih, addReference, Table.mem_keys_insert,
            List.exists_mem_cons_iff, eq_comm (a := r)]
          tauto
    rw [hfold, h.references r]
    simp only [List.mem_append, or_and_right, exists_or, List.mem_singleton,
      exists_eq_left, mem_keys_iff, DocumentKeyReference.ext_iff,
      DocumentKeyReference.key_mk, DocumentKeyReference.refId_mk]
    constructor
    · rintro (hold | ⟨m, hm, hkey, hid⟩)
      · exact .inl hold
      · exact .inr ⟨hid, m, hm, hkey⟩
    · rintro (hold | ⟨hid, m, hm, hkey⟩)
      · exact .inl hold
      · exact .inr ⟨m, hm, hkey, hid⟩

theorem removeMutationBatch_ok (h : q.WF) {head : MutationBatch}
    {rest : List MutationBatch} (hqueue : q.queue = head :: rest) :
    ∃ q', q.removeMutationBatch head = .ok q' ∧ q'.queue = rest ∧
      q'.nextBatchId = q.nextBatchId ∧ q'.WF := by
  unfold removeMutationBatch
  rw [hqueue]
  simp only [if_true]
  refine ⟨_, rfl, rfl, rfl, ?_⟩
  have hheadid := h.ids 0 head (by rw [hqueue]; rfl)
  have hlength : q.queue.length = rest.length + 1 := by
    rw [hqueue, List.length_cons]
  constructor
  · intro i b hi
    have hid := h.ids (i + 1) b (by rw [hqueue]; exact hi)
    simp only
    omega
  · have hpos := h.positive
    simp only
    omega
  · intro r
    have hfold : ∀ (ms : List Mutation) (references : ReferenceSet),
        r ∈ (ms.foldl (removeReference head.batchId) references).keys ↔
          r ∈ references.keys ∧
            ∀ m ∈ ms, r ≠ DocumentKeyReference.mk m.key head.batchId := by
      intro ms
      induction ms with
      | nil => simp
      | cons m ms ih =>
          intro references
          rw [List.foldl_cons, ih, removeReference, Table.mem_keys_erase,
            List.forall_mem_cons]
          tauto
    rw [hfold, h.references r, hqueue, List.exists_mem_cons_iff]
    have hhead : head.batchId = r.refId ∧ r.key ∈ head.keys ↔
        ∃ m ∈ head.mutations, r = .mk m.key head.batchId := by
      rw [mem_keys_iff]
      simp only [DocumentKeyReference.ext_iff, DocumentKeyReference.key_mk,
        DocumentKeyReference.refId_mk]
      constructor
      · rintro ⟨hid, m, hm, hkey⟩
        exact ⟨m, hm, hkey.symm, hid.symm⟩
      · rintro ⟨m, hm, hkey, hid⟩
        exact ⟨hid.symm, m, hm, hkey.symm⟩
    have hrest : (∃ b ∈ rest, b.batchId = r.refId ∧ r.key ∈ b.keys) →
        ∀ m ∈ head.mutations, r ≠ .mk m.key head.batchId := by
      rintro ⟨b, hb, hid, -⟩ m - heq
      have hmem : b ∈ q.queue := by
        rw [hqueue]
        exact List.mem_cons_of_mem head hb
      have hlt : head.batchId < b.batchId := by
        have hsorted := h.increasing
        rw [hqueue] at hsorted
        exact (List.pairwise_cons.mp hsorted).1 b hb
      have hrid : r.refId = head.batchId := by
        rw [heq, DocumentKeyReference.refId_mk]
      omega
    rw [hhead]
    constructor
    · rintro ⟨⟨m, hm, heq⟩ | hold, hnone⟩
      · exact absurd heq (hnone m hm)
      · exact hold
    · exact fun hold => ⟨.inr hold, hrest hold⟩

theorem acknowledgeBatch_ok {head : MutationBatch}
    {rest : List MutationBatch} (hqueue : q.queue = head :: rest) :
    q.acknowledgeBatch head = .ok () := by
  unfold acknowledgeBatch
  rw [hqueue]
  simp only [if_true]

theorem performConsistencyCheck_ok (h : q.WF) :
    q.performConsistencyCheck = .ok () := by
  unfold performConsistencyCheck
  rw [if_neg]
  rintro ⟨hqueue, hentries⟩
  obtain ⟨e, he⟩ := List.exists_mem_of_ne_nil _ hentries
  have hkey : e.1 ∈ q.batchesByDocumentKey.keys := List.mem_map_of_mem he
  obtain ⟨b, hb, -⟩ := (h.references e.1).mp hkey
  simp [hqueue] at hb

end WF

end MemoryMutationQueue

end Grocr.Firestore.Local
