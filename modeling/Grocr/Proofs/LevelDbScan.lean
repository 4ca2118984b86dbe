import Mathlib.Data.Set.List
import Mathlib.Tactic.Common
import Grocr.Proofs.LevelDbRows
import Grocr.Proofs.LevelDbTransaction
/-!
# Scans of the tables

The queries of the tables are loops from a prefix on, as long as the keys have
the prefix.  Where every key is that of a row, such a loop passes the rows that
the prefix is for, in the order of their fields.
-/

namespace Grocr.Firestore.Local

open Grocr.Support Grocr.Support.Lexicographic
open Grocr.Firestore.Util.OrderedCode

namespace LevelDbTransaction

variable {ν : Type} {txn : LevelDbTransaction ν}

/-! ## What changes do -/

theorem get_put (txn : LevelDbTransaction ν) (k : Bytes) (value : ν)
    (key : Bytes) :
    (txn.put k value).get key = if key = k then some value else txn.get key := by
  by_cases h : key = k
  · subst h
    simp [get, put, isDeleted, Table.mem_keys_erase]
  · simp [get, put, isDeleted, Table.mem_keys_erase, Table.find?_insert, h]

theorem get_delete (txn : LevelDbTransaction ν) (k key : Bytes) :
    (txn.delete k).get key = if key = k then none else txn.get key := by
  by_cases h : key = k
  · subst h
    simp [get, delete, isDeleted, Table.mem_keys_insert]
  · simp [get, delete, isDeleted, Table.mem_keys_insert, Table.find?_erase, h]

theorem get_begin (db : LevelDb ν) (key : Bytes) :
    (begin db).get key = db.find? key := rfl

theorem mem_commit_iff_get {key : Bytes} {value : ν} :
    (key, value) ∈ txn.commit.entries ↔ txn.get key = some value := by
  rw [get_eq_find?_commit, Table.find?_eq_some]

/-- Every key that a read finds is that of a row. -/
def Known (txn : LevelDbTransaction ν) : Prop :=
  ∀ key value, txn.get key = some value → ∃ r : RowKey, r.key = key

def Change.OfRow : Change ν → Prop
  | .put key _ => ∃ r : RowKey, r.key = key
  | .delete _ => True

theorem Known.change (h : txn.Known) {c : Change ν} (hc : c.OfRow) :
    (txn.change c).Known := by
  intro key value hget
  cases c with
  | put k v =>
      rw [LevelDbTransaction.change, get_put] at hget
      by_cases hk : key = k
      · rw [hk]
        exact hc
      · rw [if_neg hk] at hget
        exact h key value hget
  | delete k =>
      rw [LevelDbTransaction.change, get_delete] at hget
      by_cases hk : key = k
      · rw [if_pos hk] at hget
        cases hget
      · rw [if_neg hk] at hget
        exact h key value hget

theorem known_changeAll {db : LevelDb ν}
    (hdb : ∀ key ∈ db.keys, ∃ r : RowKey, r.key = key) {cs : List (Change ν)}
    (hcs : ∀ c ∈ cs, c.OfRow) : ((begin db).changeAll cs).Known := by
  have hbegin : (begin db).Known := by
    intro key value hget
    apply hdb key
    rw [get_begin] at hget
    exact Table.mem_keys_iff_find?.mpr ⟨value, hget⟩
  have hall (txn : LevelDbTransaction ν) (h : txn.Known) :
      (txn.changeAll cs).Known := by
    induction cs generalizing txn with
    | nil => exact h
    | cons c cs ih =>
        rw [List.forall_mem_cons] at hcs
        exact ih hcs.2 _ (h.change hcs.1)
  exact hall _ hbegin

/-! ## Loops over a prefix -/

theorem scan_eq [Inhabited ν] (txn : LevelDbTransaction ν) (keyPrefix : Bytes) :
    txn.scan keyPrefix =
      txn.commit.entries.filter (fun row => keyPrefix <+: row.1) := by
  rw [scan, rowsFrom_eq]
  exact takeWhile_filter_le Prod.fst keyPrefix txn.commit.sorted

/-- Where a prefix is for some rows of a kind, a scan finds these rows, with
their values, in the order of the keys. -/
theorem scan_eq_map [Inhabited ν] {α : Type} (row : α → RowKey)
    (hrow : Function.Injective row) {P : α → Prop} {keyPrefix : Bytes}
    (hkeys : ∀ r : RowKey, keyPrefix <+: r.key ↔ ∃ a, r = row a ∧ P a)
    (h : txn.Known) :
    ∃ found : List (α × ν),
      txn.scan keyPrefix = found.map (fun x => ((row x.1).key, x.2)) ∧
      found.Pairwise (fun x y => (row x.1).key < (row y.1).key) ∧
      ∀ a value, (a, value) ∈ found ↔
        P a ∧ txn.get (row a).key = some value := by
  have hmem (e : Row ν) : e ∈ txn.scan keyPrefix ↔
      txn.get e.1 = some e.2 ∧ keyPrefix <+: e.1 := by
    rw [scan_eq, List.mem_filter, decide_eq_true_eq, ← mem_commit_iff_get]
  have hinjective :
      Function.Injective (fun x : α × ν => ((row x.1).key, x.2)) := by
    intro x y hxy
    obtain ⟨hkey, hvalue⟩ := Prod.mk.inj hxy
    exact Prod.ext (hrow (RowKey.key_injective hkey)) hvalue
  have hrange : txn.scan keyPrefix ∈
      Set.range (List.map (fun x : α × ν => ((row x.1).key, x.2))) := by
    rw [Set.range_list_map]
    intro e he
    obtain ⟨hget, hprefix⟩ := (hmem e).mp he
    obtain ⟨r, hr⟩ := h e.1 e.2 hget
    rw [← hr] at hprefix
    obtain ⟨a, ha, -⟩ := (hkeys r).mp hprefix
    rw [ha] at hr
    exact ⟨(a, e.2), Prod.ext hr rfl⟩
  obtain ⟨found, hfound⟩ := hrange
  have hsorted : (txn.scan keyPrefix).Pairwise (fun a b => a.1 < b.1) := by
    rw [scan_eq]
    exact txn.commit.sorted.filter _
  rw [← hfound, List.pairwise_map] at hsorted
  refine ⟨found, hfound.symm, hsorted, ?_⟩
  intro a value
  have hkey : keyPrefix <+: (row a).key ↔ P a := by
    rw [hkeys]
    constructor
    · rintro ⟨b, hb, hP⟩
      rwa [hrow hb]
    · exact fun hP => ⟨a, rfl, hP⟩
  have hfind := hmem ((row a).key, value)
  rw [← hfound, hkey, and_comm] at hfind
  rw [← hfind]
  exact (List.mem_map_of_injective hinjective).symm

/-! ## The tables of the mutation queue -/

section

variable [Inhabited ν]

theorem scan_user (h : txn.Known) (u : Bytes) :
    ∃ found : List (Number32 × ν),
      txn.scan (LevelDbMutationKey.keyPrefixOfUser u) =
        found.map (fun x => (LevelDbMutationKey.key u x.1.1, x.2)) ∧
      found.Pairwise (fun x y => x.1 < y.1) ∧
      ∀ (b : Number32) (value : ν), (b, value) ∈ found ↔
        txn.get (LevelDbMutationKey.key u b.1) = some value := by
  have hrow : Function.Injective (RowKey.mutation u) :=
    fun a b hab => (RowKey.mutation.inj hab).2
  have hkeys (r : RowKey) : LevelDbMutationKey.keyPrefixOfUser u <+: r.key ↔
      ∃ b, r = RowKey.mutation u b ∧ True := by
    rw [RowKey.mutationPrefix_iff]
    simp
  obtain ⟨found, hscan, hsorted, hmem⟩ := scan_eq_map _ hrow hkeys h
  refine ⟨found, hscan, hsorted.imp ?_, ?_⟩
  · intro x y hxy
    simpa using RowKey.mutation_lt_iff.mp hxy
  · intro b value
    rw [hmem, true_and]
    rfl

theorem scan_index (h : txn.Known) (u : Bytes) (path : List Bytes) :
    ∃ found : List ((DocumentPath × Number32) × ν),
      txn.scan (LevelDbDocumentMutationKey.keyPrefixOfPath u path) =
        found.map (fun x =>
          (LevelDbDocumentMutationKey.key u x.1.1.1 x.1.2.1, x.2)) ∧
      found.Pairwise (fun x y => x.1.1.1 < y.1.1.1 ∨
        x.1.1 = y.1.1 ∧ x.1.2 < y.1.2) ∧
      ∀ (d : DocumentPath) (b : Number32) (value : ν),
        ((d, b), value) ∈ found ↔ path <+: d.1 ∧
          txn.get (LevelDbDocumentMutationKey.key u d.1 b.1) = some value := by
  have hrow : Function.Injective
      (fun a : DocumentPath × Number32 => RowKey.documentMutation u a.1 a.2) := by
    intro a b hab
    obtain ⟨_, hpath, hid⟩ := RowKey.documentMutation.inj hab
    exact Prod.ext hpath hid
  have hkeys (r : RowKey) :
      LevelDbDocumentMutationKey.keyPrefixOfPath u path <+: r.key ↔
        ∃ a : DocumentPath × Number32,
          r = RowKey.documentMutation u a.1 a.2 ∧ path <+: a.1.1 := by
    rw [RowKey.documentMutationPrefix_iff, Prod.exists]
  obtain ⟨found, hscan, hsorted, hmem⟩ := scan_eq_map _ hrow hkeys h
  refine ⟨found, hscan, hsorted.imp ?_, ?_⟩
  · intro x y hxy
    simpa using RowKey.documentMutation_lt_iff.mp hxy
  · intro d b value
    exact hmem (d, b) value

variable {db : LevelDb ν} {cs : List (Change ν)}

/-- Whatever has been written to rows of any tables, the loop over the batches
of a user passes those that `Get` finds, in the order of their IDs. -/
theorem scan_mutations (hdb : ∀ key ∈ db.keys, ∃ r : RowKey, r.key = key)
    (hcs : ∀ c ∈ cs, c.OfRow) (u : Bytes) :
    ∃ found : List (Number32 × ν),
      ((begin db).changeAll cs).scan (LevelDbMutationKey.keyPrefixOfUser u) =
        found.map (fun x => (LevelDbMutationKey.key u x.1.1, x.2)) ∧
      found.Pairwise (fun x y => x.1 < y.1) ∧
      ∀ (b : Number32) (value : ν), (b, value) ∈ found ↔
        ((begin db).changeAll cs).get (LevelDbMutationKey.key u b.1) =
          some value :=
  scan_user (known_changeAll hdb hcs) u

/-- The loop over the index finds the batches of the documents at a path and
under it, document by document, as they stand. -/
theorem scan_documentMutations
    (hdb : ∀ key ∈ db.keys, ∃ r : RowKey, r.key = key)
    (hcs : ∀ c ∈ cs, c.OfRow) (u : Bytes) (path : List Bytes) :
    ∃ found : List ((DocumentPath × Number32) × ν),
      ((begin db).changeAll cs).scan
          (LevelDbDocumentMutationKey.keyPrefixOfPath u path) =
        found.map (fun x =>
          (LevelDbDocumentMutationKey.key u x.1.1.1 x.1.2.1, x.2)) ∧
      found.Pairwise (fun x y => x.1.1.1 < y.1.1.1 ∨
        x.1.1 = y.1.1 ∧ x.1.2 < y.1.2) ∧
      ∀ (d : DocumentPath) (b : Number32) (value : ν),
        ((d, b), value) ∈ found ↔ path <+: d.1 ∧
          ((begin db).changeAll cs).get
            (LevelDbDocumentMutationKey.key u d.1 b.1) = some value :=
  scan_index (known_changeAll hdb hcs) u path

end

theorem scan_mutations_apple : ∃ found : List (Number32 × Nat),
    ((begin Table.empty).changeAll
      [.put (LevelDbMutationKey.key [97] 2) 20,
        .put (LevelDbMutationKey.key [97] 1) 10]).scan
        (LevelDbMutationKey.keyPrefixOfUser [97]) =
      found.map (fun x => (LevelDbMutationKey.key [97] x.1.1, x.2)) ∧
    (⟨1, by decide⟩, 10) ∈ found := by
  have hdb (key : Bytes) (hkey : key ∈ (Table.empty : LevelDb Nat).keys) :
      ∃ r : RowKey, r.key = key := by
    cases hkey
  have hcs : ∀ c ∈ [Change.put (LevelDbMutationKey.key [97] 2) 20,
      .put (LevelDbMutationKey.key [97] 1) 10], c.OfRow := by
    rw [List.forall_mem_cons, List.forall_mem_singleton]
    exact ⟨⟨.mutation [97] ⟨2, by decide⟩, rfl⟩,
      ⟨.mutation [97] ⟨1, by decide⟩, rfl⟩⟩
  obtain ⟨found, hscan, -, hmem⟩ := scan_mutations hdb hcs [97]
  refine ⟨found, hscan, (hmem _ _).mpr ?_⟩
  rw [changeAll, List.foldl_cons, List.foldl_cons, List.foldl_nil, change,
    get_put, if_pos rfl]

theorem scan_documentMutations_apple :
    ∃ found : List ((DocumentPath × Number32) × Nat),
      ((begin Table.empty).changeAll
        [.put (LevelDbDocumentMutationKey.key [97] [[98], [99]] 1) 10]).scan
          (LevelDbDocumentMutationKey.keyPrefixOfPath [97] [[98]]) =
        found.map (fun x =>
          (LevelDbDocumentMutationKey.key [97] x.1.1.1 x.1.2.1, x.2)) ∧
      ((⟨[[98], [99]], by simp, rfl⟩, ⟨1, by decide⟩), 10) ∈ found := by
  have hdb (key : Bytes) (hkey : key ∈ (Table.empty : LevelDb Nat).keys) :
      ∃ r : RowKey, r.key = key := by
    cases hkey
  have hcs : ∀ c ∈ [Change.put
      (LevelDbDocumentMutationKey.key [97] [[98], [99]] 1) 10], c.OfRow := by
    rw [List.forall_mem_singleton]
    exact ⟨.documentMutation [97] ⟨[[98], [99]], by simp, rfl⟩ ⟨1, by decide⟩, rfl⟩
  obtain ⟨found, hscan, -, hmem⟩ := scan_documentMutations hdb hcs [97] [[98]]
  refine ⟨found, hscan, (hmem _ _ _).mpr ⟨by simp, ?_⟩⟩
  rw [changeAll, List.foldl_cons, List.foldl_nil, change, get_put, if_pos rfl]

end LevelDbTransaction

end Grocr.Firestore.Local
