import Mathlib.Data.List.Basic
import Mathlib.Data.List.Pairwise
import Mathlib.Order.Lattice
import Mathlib.Tactic.Common
import Grocr.Support.SortedTable
/-!
# Sorted association lists

The operations of a finite map on a bare list of entries.  What a lookup finds
after an update does not depend on the order of the entries; that the entries
stay in strictly increasing key order does.  A `Table` is such a list with its
order.
-/

namespace Grocr.Support.Entries

variable {κ ν : Type} [LinearOrder κ]

def find? (es : List (κ × ν)) (k : κ) : Option ν :=
  (es.find? (fun e => e.1 = k)).map Prod.snd

/-- Bind `k` to `v` between the smaller and the larger keys. -/
def insert (es : List (κ × ν)) (k : κ) (v : ν) : List (κ × ν) :=
  es.filter (fun e => e.1 < k) ++ (k, v) :: es.filter (fun e => k < e.1)

def erase (es : List (κ × ν)) (k : κ) : List (κ × ν) :=
  es.filter (fun e => e.1 ≠ k)

def Sorted (es : List (κ × ν)) : Prop :=
  es.Pairwise (fun a b => a.1 < b.1)

/-! ## Lookups -/

@[simp] theorem find?_nil (k : κ) : find? ([] : List (κ × ν)) k = none := rfl

theorem find?_cons (e : κ × ν) (es : List (κ × ν)) (k : κ) :
    find? (e :: es) k = if e.1 = k then some e.2 else find? es k := by
  unfold find?
  by_cases h : e.1 = k <;> simp [h]

theorem find?_filter_of_ne {es : List (κ × ν)} {k : κ} {p : κ → Bool}
    (h : p k = false) : find? (es.filter (fun e => p e.1)) k = none := by
  unfold find?
  rw [Option.map_eq_none_iff, List.find?_eq_none]
  intro e he hk
  have hpe : p e.1 = true := (List.mem_filter.mp he).2
  have hek : e.1 = k := by simpa using hk
  rw [hek, h] at hpe
  cases hpe

theorem find?_filter_of_pos {es : List (κ × ν)} {k : κ} {p : κ → Bool}
    (h : p k = true) : find? (es.filter (fun e => p e.1)) k = find? es k := by
  induction es with
  | nil => rfl
  | cons e es ih =>
      rw [find?_cons, List.filter_cons]
      by_cases hek : e.1 = k
      · have hpe : p e.1 = true := by rw [hek, h]
        rw [if_pos hpe, find?_cons, if_pos hek, if_pos hek]
      · rw [if_neg hek, ← ih]
        by_cases hpe : p e.1 = true
        · rw [if_pos hpe, find?_cons, if_neg hek]
        · rw [if_neg hpe]

theorem find?_append (es fs : List (κ × ν)) (k : κ) :
    find? (es ++ fs) k = (find? es k).or (find? fs k) := by
  induction es with
  | nil => rfl
  | cons e es ih =>
      rw [List.cons_append, find?_cons, find?_cons, ih]
      split <;> rfl

theorem find?_insert (es : List (κ × ν)) (k k' : κ) (v : ν) :
    find? (insert es k v) k' = if k' = k then some v else find? es k' := by
  have hbelow : k' < k →
      find? (es.filter (fun e => decide (e.1 < k))) k' = find? es k' := fun h =>
    find?_filter_of_pos (p := fun x => decide (x < k)) (by simpa using h)
  have hnotbelow : ¬ k' < k →
      find? (es.filter (fun e => decide (e.1 < k))) k' = none := fun h =>
    find?_filter_of_ne (p := fun x => decide (x < k)) (by simpa using h)
  have habove : k < k' →
      find? (es.filter (fun e => decide (k < e.1))) k' = find? es k' := fun h =>
    find?_filter_of_pos (p := fun x => decide (k < x)) (by simpa using h)
  have hnotabove : ¬ k < k' →
      find? (es.filter (fun e => decide (k < e.1))) k' = none := fun h =>
    find?_filter_of_ne (p := fun x => decide (k < x)) (by simpa using h)
  rw [insert, find?_append, find?_cons]
  rcases lt_trichotomy k' k with h | h | h
  · rw [hbelow h, hnotabove h.not_gt, if_neg h.ne', if_neg h.ne, Option.or_none]
  · rw [hnotbelow h.not_lt, if_pos h.symm, if_pos h, Option.none_or]
  · rw [hnotbelow h.not_gt, habove h, if_neg h.ne, if_neg h.ne',
      Option.none_or]

@[simp] theorem find?_insert_self (es : List (κ × ν)) (k : κ) (v : ν) :
    find? (insert es k v) k = some v := by
  rw [find?_insert, if_pos rfl]

theorem find?_insert_of_ne (es : List (κ × ν)) {k k' : κ} (v : ν)
    (h : k' ≠ k) : find? (insert es k v) k' = find? es k' := by
  rw [find?_insert, if_neg h]

theorem find?_erase (es : List (κ × ν)) (k k' : κ) :
    find? (erase es k) k' = if k' = k then none else find? es k' := by
  unfold erase
  split
  next h =>
    exact find?_filter_of_ne (p := fun x => decide (x ≠ k)) (by simpa using h)
  next h =>
    exact find?_filter_of_pos (p := fun x => decide (x ≠ k)) (by simpa using h)

@[simp] theorem find?_erase_self (es : List (κ × ν)) (k : κ) :
    find? (erase es k) k = none := by
  rw [find?_erase, if_pos rfl]

theorem find?_erase_of_ne (es : List (κ × ν)) {k k' : κ} (h : k' ≠ k) :
    find? (erase es k) k' = find? es k' := by
  rw [find?_erase, if_neg h]

theorem mem_of_find? {es : List (κ × ν)} {k : κ} {v : ν}
    (h : find? es k = some v) : (k, v) ∈ es := by
  obtain ⟨e, he, rfl⟩ := Option.map_eq_some_iff.mp h
  have hk : e.1 = k := by simpa using List.find?_some he
  have hmem : e ∈ es := List.mem_of_find?_eq_some he
  rwa [← hk]

/-! ## Tables -/

@[simp] theorem find?_entries (t : Table κ ν) (k : κ) :
    find? t.entries k = t.find? k := rfl

@[simp] theorem insert_entries (t : Table κ ν) (k : κ) (v : ν) :
    insert t.entries k v = (t.insert k v).entries := rfl

@[simp] theorem erase_entries (t : Table κ ν) (k : κ) :
    erase t.entries k = (t.erase k).entries := rfl

/-- A loop over increasing entries whose every step looks after its own key. -/
theorem find?_foldl {μ : Type} {es : List (κ × ν)} (h : Sorted es)
    {step : Table κ μ → κ × ν → Table κ μ}
    (result : κ × ν → Option μ → Option μ)
    (hself : ∀ t e, (step t e).find? e.1 = result e (t.find? e.1))
    (hother : ∀ t e k, k ≠ e.1 → (step t e).find? k = t.find? k)
    (t : Table κ μ) (k : κ) :
    (es.foldl step t).find? k =
      match find? es k with
      | some v => result (k, v) (t.find? k)
      | none => t.find? k := by
  induction es generalizing t with
  | nil => rfl
  | cons e es ih =>
      obtain ⟨hlt, hrest⟩ := List.pairwise_cons.mp h
      rw [List.foldl_cons, ih hrest, find?_cons]
      by_cases hk : e.1 = k
      · have hnone : find? es k = none := by
          cases hfind : find? es k with
          | none => rfl
          | some v =>
              have hlt' := hlt _ (mem_of_find? hfind)
              exact absurd hlt' (hk ▸ lt_irrefl _)
        rw [hnone, if_pos hk]
        subst hk
        exact hself t e
      · rw [if_neg hk, hother t e k (Ne.symm hk)]

end Grocr.Support.Entries
