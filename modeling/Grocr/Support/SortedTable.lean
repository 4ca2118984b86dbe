import Mathlib.Data.List.Basic
import Mathlib.Data.List.Nodup
import Mathlib.Data.List.Pairwise
import Mathlib.Data.List.Perm.Subperm
import Mathlib.Order.Lattice
import Mathlib.Tactic.Common
/-!
# Tables sorted by key

A finite map kept as the list of its entries in strictly increasing key
order.  Two tables with the same lookups are equal, and the position of a key
in the listing is the number of keys below it (`rank`).
-/

namespace Grocr.Support

/-- The entries of a finite map in strictly increasing key order. -/
structure Table (κ ν : Type) [LinearOrder κ] where
  entries : List (κ × ν)
  sorted : entries.Pairwise (fun a b => a.1 < b.1)
deriving DecidableEq

namespace Table

variable {κ ν μ : Type} [LinearOrder κ]

def empty : Table κ ν := ⟨[], .nil⟩

def keys (t : Table κ ν) : List κ := t.entries.map Prod.fst

def find? (t : Table κ ν) (k : κ) : Option ν :=
  (t.entries.find? (fun e => e.1 = k)).map Prod.snd

/-- Bind `k` to `v`, replacing what it was bound to. -/
def insert (t : Table κ ν) (k : κ) (v : ν) : Table κ ν where
  entries := t.entries.filter (fun e => e.1 < k) ++
    (k, v) :: t.entries.filter (fun e => k < e.1)
  sorted := by
    refine List.pairwise_append.mpr ⟨t.sorted.filter _, ?_, ?_⟩
    · refine List.pairwise_cons.mpr ⟨?_, t.sorted.filter _⟩
      intro e he
      simpa using (List.mem_filter.mp he).2
    · intro a ha b hb
      have hak : a.1 < k := by simpa using (List.mem_filter.mp ha).2
      rcases List.mem_cons.mp hb with rfl | hb
      · exact hak
      · exact hak.trans (by simpa using (List.mem_filter.mp hb).2)

def erase (t : Table κ ν) (k : κ) : Table κ ν where
  entries := t.entries.filter (fun e => e.1 ≠ k)
  sorted := t.sorted.filter _

/-- Replace the value at `k`, if there is one. -/
def modify (t : Table κ ν) (k : κ) (f : ν → ν) : Table κ ν where
  entries := t.entries.map (fun e => if e.1 = k then (e.1, f e.2) else e)
  sorted := by
    refine List.pairwise_map.mpr (t.sorted.imp ?_)
    intro a b hab
    split <;> split <;> exact hab

def map (f : ν → μ) (t : Table κ ν) : Table κ μ where
  entries := t.entries.map (fun e => (e.1, f e.2))
  sorted := List.pairwise_map.mpr t.sorted

def rank (t : Table κ ν) (k : κ) : Nat :=
  (t.entries.filter (fun e => e.1 < k)).length

/-! ## Lookup and membership -/

theorem nodup_keys (t : Table κ ν) : t.keys.Nodup :=
  List.pairwise_map.mpr (t.sorted.imp ne_of_lt)

theorem keys_increasing (t : Table κ ν) : t.keys.Pairwise (· < ·) :=
  List.pairwise_map.mpr t.sorted

theorem mem_keys {t : Table κ ν} {k : κ} :
    k ∈ t.keys ↔ ∃ v, (k, v) ∈ t.entries := by
  simp [keys]

theorem entry_unique {t : Table κ ν} {k : κ} {v w : ν}
    (hv : (k, v) ∈ t.entries) (hw : (k, w) ∈ t.entries) : v = w := by
  have heq : (k, v) = (k, w) :=
    List.inj_on_of_nodup_map t.nodup_keys hv hw rfl
  exact congrArg Prod.snd heq

theorem find?_eq_some {t : Table κ ν} {k : κ} {v : ν} :
    t.find? k = some v ↔ (k, v) ∈ t.entries := by
  constructor
  · intro h
    obtain ⟨e, he, rfl⟩ := Option.map_eq_some_iff.mp h
    have hk : e.1 = k := by simpa using List.find?_some he
    have hmem := List.mem_of_find?_eq_some he
    rwa [← hk]
  · intro h
    have hsome : (t.entries.find? (fun e => e.1 = k)).isSome := by
      rw [List.find?_isSome]
      exact ⟨(k, v), h, by simp⟩
    obtain ⟨e, he⟩ := Option.isSome_iff_exists.mp hsome
    have hk : e.1 = k := by simpa using List.find?_some he
    have hmem : (k, e.2) ∈ t.entries := by
      rw [← hk]
      exact List.mem_of_find?_eq_some he
    rw [find?, he, Option.map_some, entry_unique hmem h]

theorem mem_keys_iff_find? {t : Table κ ν} {k : κ} :
    k ∈ t.keys ↔ ∃ v, t.find? k = some v := by
  simp only [mem_keys, find?_eq_some]

theorem find?_eq_none {t : Table κ ν} {k : κ} :
    t.find? k = none ↔ k ∉ t.keys := by
  rw [mem_keys_iff_find?]
  cases t.find? k <;> simp

theorem ext_find? {t u : Table κ ν} (h : ∀ k, t.find? k = u.find? k) :
    t = u := by
  have hmem : ∀ e, e ∈ t.entries ↔ e ∈ u.entries := by
    rintro ⟨k, v⟩
    rw [← find?_eq_some, ← find?_eq_some, h k]
  have hnodup : ∀ s : Table κ ν, s.entries.Nodup := fun s =>
    s.nodup_keys.of_map _
  have hperm : t.entries.Perm u.entries :=
    (List.perm_ext_iff_of_nodup (hnodup t) (hnodup u)).mpr hmem
  have hentries : t.entries = u.entries := by
    refine hperm.eq_of_pairwise ?_ t.sorted u.sorted
    intro a b _ _ hab hba
    exact absurd hab (not_lt.mpr hba.le)
  cases t
  cases u
  cases hentries
  rfl

@[simp] theorem find?_empty (k : κ) : (empty : Table κ ν).find? k = none := rfl

theorem mem_entries_insert {t : Table κ ν} {k : κ} {v : ν} {e : κ × ν} :
    e ∈ (t.insert k v).entries ↔ e = (k, v) ∨ (e ∈ t.entries ∧ e.1 ≠ k) := by
  simp only [insert, List.mem_append, List.mem_cons, List.mem_filter,
    decide_eq_true_eq, ne_iff_lt_or_gt]
  tauto

theorem mem_keys_insert {t : Table κ ν} {k k' : κ} {v : ν} :
    k' ∈ (t.insert k v).keys ↔ k' = k ∨ k' ∈ t.keys := by
  simp only [mem_keys, mem_entries_insert, Prod.mk.injEq]
  constructor
  · rintro ⟨w, ⟨rfl, -⟩ | ⟨hw, -⟩⟩
    · exact .inl rfl
    · exact .inr ⟨w, hw⟩
  · rintro (rfl | ⟨w, hw⟩)
    · exact ⟨v, .inl ⟨rfl, rfl⟩⟩
    · by_cases h : k' = k
      · exact ⟨v, .inl ⟨h, rfl⟩⟩
      · exact ⟨w, .inr ⟨hw, h⟩⟩

theorem notMem_keys_empty {k : κ} : k ∉ (empty : Table κ ν).keys :=
  List.not_mem_nil

theorem mem_keys_foldl_insert {α : Type} {key : α → κ} {value : α → ν}
    {xs : List α} {t : Table κ ν} {k : κ} :
    k ∈ (xs.foldl (fun t x => t.insert (key x) (value x)) t).keys ↔
      k ∈ t.keys ∨ ∃ x ∈ xs, key x = k := by
  induction xs generalizing t with
  | nil => simp
  | cons x xs ih =>
      rw [List.foldl_cons, ih, mem_keys_insert, List.exists_mem_cons_iff,
        eq_comm (a := k)]
      tauto

theorem find?_insert (t : Table κ ν) (k k' : κ) (v : ν) :
    (t.insert k v).find? k' = if k' = k then some v else t.find? k' := by
  apply Option.ext
  intro w
  rw [find?_eq_some, mem_entries_insert]
  by_cases h : k' = k
  · subst h
    simp [eq_comm]
  · simp [h, find?_eq_some]

@[simp] theorem find?_insert_self (t : Table κ ν) (k : κ) (v : ν) :
    (t.insert k v).find? k = some v := by
  simp [find?_insert]

theorem find?_insert_of_ne (t : Table κ ν) {k k' : κ} (v : ν) (h : k' ≠ k) :
    (t.insert k v).find? k' = t.find? k' := by
  simp [find?_insert, h]

theorem mem_entries_erase {t : Table κ ν} {k : κ} {e : κ × ν} :
    e ∈ (t.erase k).entries ↔ e ∈ t.entries ∧ e.1 ≠ k := by
  simp [erase]

theorem mem_keys_erase {t : Table κ ν} {k k' : κ} :
    k' ∈ (t.erase k).keys ↔ k' ∈ t.keys ∧ k' ≠ k := by
  simp only [mem_keys, mem_entries_erase, exists_and_right]

theorem find?_erase (t : Table κ ν) (k k' : κ) :
    (t.erase k).find? k' = if k' = k then none else t.find? k' := by
  apply Option.ext
  intro w
  rw [find?_eq_some, mem_entries_erase]
  by_cases h : k' = k <;> simp [h, find?_eq_some]

@[simp] theorem keys_modify (t : Table κ ν) (k : κ) (f : ν → ν) :
    (t.modify k f).keys = t.keys := by
  simp only [keys, modify, List.map_map]
  refine List.map_congr_left fun e _ => ?_
  simp only [Function.comp_apply]
  split <;> rfl

theorem find?_modify (t : Table κ ν) (k k' : κ) (f : ν → ν) :
    (t.modify k f).find? k' =
      if k' = k then (t.find? k').map f else t.find? k' := by
  have hmem : ∀ e, e ∈ (t.modify k f).entries ↔
      ∃ d ∈ t.entries, (if d.1 = k then (d.1, f d.2) else d) = e := by
    simp [modify]
  apply Option.ext
  intro w
  rw [find?_eq_some, hmem]
  by_cases h : k' = k
  · subst h
    rw [if_pos rfl, Option.map_eq_some_iff]
    constructor
    · rintro ⟨⟨d, v⟩, hd, heq⟩
      split at heq
      next hk =>
        cases heq
        exact ⟨v, find?_eq_some.mpr hd, rfl⟩
      next hk =>
        cases heq
        exact absurd rfl hk
    · rintro ⟨v, hv, rfl⟩
      exact ⟨(k', v), find?_eq_some.mp hv, by simp⟩
  · rw [if_neg h, find?_eq_some]
    constructor
    · rintro ⟨⟨d, v⟩, hd, heq⟩
      split at heq
      next hk =>
        cases heq
        exact absurd hk h
      next => rwa [← heq]
    · exact fun hw => ⟨(k', w), hw, by simp [h]⟩

theorem find?_map (f : ν → μ) (t : Table κ ν) (k : κ) :
    (t.map f).find? k = (t.find? k).map f := by
  apply Option.ext
  intro w
  rw [find?_eq_some, Option.map_eq_some_iff]
  simp only [map, List.mem_map, Prod.mk.injEq, Prod.exists, find?_eq_some]
  constructor
  · rintro ⟨k', v, hv, rfl, rfl⟩
    exact ⟨v, hv, rfl⟩
  · rintro ⟨v, hv, rfl⟩
    exact ⟨k, v, hv, rfl, rfl⟩

/-! ## A property of every value -/

def All (P : ν → Prop) (t : Table κ ν) : Prop :=
  ∀ k v, t.find? k = some v → P v

namespace All

variable {P : ν → Prop} {t : Table κ ν} {k : κ}

theorem empty : (Table.empty : Table κ ν).All P := by
  simp [All]

theorem insert {v : ν} (h : t.All P) (hv : P v) : (t.insert k v).All P := by
  intro k' w hw
  rw [find?_insert] at hw
  split at hw
  next =>
    cases hw
    exact hv
  next => exact h k' w hw

theorem erase (h : t.All P) : (t.erase k).All P := by
  intro k' w hw
  rw [find?_erase] at hw
  split at hw
  next => cases hw
  next => exact h k' w hw

theorem modify {f : ν → ν} (h : t.All P)
    (hf : ∀ v, t.find? k = some v → P (f v)) : (t.modify k f).All P := by
  intro k' w hw
  rw [find?_modify] at hw
  split at hw
  next hk =>
    obtain ⟨v, hv, rfl⟩ := Option.map_eq_some_iff.mp hw
    exact hf v (hk ▸ hv)
  next => exact h k' w hw

end All

/-! ## Operations that change nothing, and maps of tables -/

theorem insert_of_find? {t : Table κ ν} {k : κ} {v : ν}
    (h : t.find? k = some v) : t.insert k v = t := by
  apply ext_find?
  intro k'
  rw [find?_insert]
  split
  next hk => rw [hk, h]
  next => rfl

theorem insert_eq_self_iff {t : Table κ ν} {k : κ} {v : ν} :
    t.insert k v = t ↔ t.find? k = some v := by
  constructor
  · intro h
    rw [← h, find?_insert_self]
  · exact insert_of_find?

theorem modify_of_find? {t : Table κ ν} {k : κ} {f : ν → ν}
    (h : ∀ v, t.find? k = some v → f v = v) : t.modify k f = t := by
  apply ext_find?
  intro k'
  rw [find?_modify]
  split
  next hk =>
    subst hk
    cases hv : t.find? k' with
    | none => rfl
    | some v => rw [Option.map_some, h v hv]
  next => rfl

theorem modify_modify (t : Table κ ν) (k : κ) (f g : ν → ν) :
    (t.modify k f).modify k g = t.modify k (fun v => g (f v)) := by
  apply ext_find?
  intro k'
  simp only [find?_modify]
  split
  next => rw [Option.map_map, Function.comp_def]
  next => rfl

theorem map_insert (f : ν → μ) (t : Table κ ν) (k : κ) (v : ν) :
    (t.insert k v).map f = (t.map f).insert k (f v) := by
  apply ext_find?
  intro k'
  rw [find?_map, find?_insert, find?_insert, find?_map]
  split <;> rfl

theorem map_erase (f : ν → μ) (t : Table κ ν) (k : κ) :
    (t.erase k).map f = (t.map f).erase k := by
  apply ext_find?
  intro k'
  rw [find?_map, find?_erase, find?_erase, find?_map]
  split <;> rfl

theorem map_modify (f : ν → μ) {g : ν → ν} {h : μ → μ}
    (hfg : ∀ v, f (g v) = h (f v)) (t : Table κ ν) (k : κ) :
    (t.modify k g).map f = (t.map f).modify k h := by
  apply ext_find?
  intro k'
  rw [find?_map, find?_modify, find?_modify, find?_map]
  split
  next => cases t.find? k' <;> simp [hfg]
  next => rfl

@[simp] theorem keys_map (f : ν → μ) (t : Table κ ν) :
    (t.map f).keys = t.keys := by
  simp [keys, map]

/-! ## Positions in the listing -/

@[simp] theorem rank_map (f : ν → μ) (t : Table κ ν) (k : κ) :
    (t.map f).rank k = t.rank k := by
  simp [rank, map, List.filter_map, Function.comp_def]

private theorem length_filter_lt {es : List (κ × ν)} {e : κ × ν} {i : Nat}
    (hsorted : es.Pairwise (fun a b => a.1 < b.1)) (h : es[i]? = some e) :
    (es.filter (fun d => d.1 < e.1)).length = i := by
  induction es generalizing i with
  | nil => simp at h
  | cons d es ih =>
      obtain ⟨hhead, htail⟩ := List.pairwise_cons.mp hsorted
      cases i with
      | zero =>
          simp only [List.getElem?_cons_zero, Option.some.injEq] at h
          subst h
          have hnone : es.filter (fun a => a.1 < d.1) = [] := by
            refine List.filter_eq_nil_iff.mpr fun a ha => ?_
            simpa using (hhead a ha).le
          simp [hnone]
      | succ i =>
          rw [List.getElem?_cons_succ] at h
          have hlt : d.1 < e.1 := hhead e (List.mem_of_getElem? h)
          rw [List.filter_cons_of_pos (by simpa using hlt), List.length_cons,
            ih htail h]

theorem rank_of_getElem? {t : Table κ ν} {i : Nat} {e : κ × ν}
    (h : t.entries[i]? = some e) : t.rank e.1 = i :=
  length_filter_lt t.sorted h

theorem getElem?_rank {t : Table κ ν} {k : κ} {v : ν}
    (h : (k, v) ∈ t.entries) : t.entries[t.rank k]? = some (k, v) := by
  obtain ⟨i, hi⟩ := List.mem_iff_getElem?.mp h
  have hrank : t.rank k = i := rank_of_getElem? hi
  rw [hrank, hi]

theorem keys_getElem?_iff {t : Table κ ν} {k : κ} {i : Nat} :
    t.keys[i]? = some k ↔ k ∈ t.keys ∧ t.rank k = i := by
  constructor
  · intro h
    refine ⟨List.mem_of_getElem? h, ?_⟩
    rw [keys, List.getElem?_map] at h
    obtain ⟨e, he, rfl⟩ := Option.map_eq_some_iff.mp h
    exact rank_of_getElem? he
  · rintro ⟨hmem, rfl⟩
    obtain ⟨v, hv⟩ := mem_keys.mp hmem
    rw [keys, List.getElem?_map, getElem?_rank hv, Option.map_some]

end Table

end Grocr.Support
