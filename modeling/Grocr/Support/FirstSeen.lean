import Mathlib.Data.List.Basic
import Mathlib.Data.List.Induction
import Mathlib.Data.List.Nodup
import Mathlib.Order.MinMax
import Mathlib.Tactic.Common
/-!
# Lists that keep first occurrences

A list grown by appending a value only when it is absent keeps the first
occurrence of each value and forgets the repetitions.  Extending the shorter
of two such lists by repetitions of its last value gives two lists of one
length again.  This module says which pairs of sequences survive that round
trip.
-/

namespace Grocr.Support

variable {α β : Type*}

/-! ## Extending by the last value -/

/-- Repeat the last value of `xs` until the list has length `n`.  The empty
list has no last value and stays as it is. -/
def padLast (n : Nat) (xs : List α) : List α :=
  match xs.getLast? with
  | some x => xs ++ List.replicate (n - xs.length) x
  | none => xs

theorem padLast_concat (n : Nat) (xs : List α) (x : α) :
    padLast n (xs ++ [x]) =
      xs ++ [x] ++ List.replicate (n - (xs.length + 1)) x := by
  simp [padLast]

theorem padLast_of_length_le {n : Nat} {xs : List α} (h : n ≤ xs.length) :
    padLast n xs = xs := by
  rcases List.eq_nil_or_concat' xs with rfl | ⟨ys, x, rfl⟩
  · rfl
  · have hzero : n - (ys.length + 1) = 0 := by
      rw [List.length_append, List.length_singleton] at h
      omega
    rw [padLast_concat, hzero]
    simp

theorem length_padLast {n : Nat} {xs : List α} (h : xs ≠ [])
    (hn : xs.length ≤ n) : (padLast n xs).length = n := by
  rcases List.eq_nil_or_concat' xs with rfl | ⟨ys, x, rfl⟩
  · exact absurd rfl h
  · rw [List.length_append, List.length_singleton] at hn
    rw [padLast_concat]
    simp
    omega

theorem prefix_padLast (n : Nat) (xs : List α) : xs <+: padLast n xs := by
  rcases List.eq_nil_or_concat' xs with rfl | ⟨ys, x, rfl⟩
  · exact List.prefix_rfl
  · rw [padLast_concat]
    exact List.prefix_append _ _

theorem getElem?_padLast {n i : Nat} {xs : List α} (hi : xs.length ≤ i)
    (hn : i < n) : (padLast n xs)[i]? = xs.getLast? := by
  rcases List.eq_nil_or_concat' xs with rfl | ⟨ys, x, rfl⟩
  · simp [padLast]
  · rw [padLast_concat, List.getElem?_append_right hi,
      List.getElem?_replicate, if_pos]
    · simp
    · rw [List.length_append, List.length_singleton] at hi ⊢
      omega

theorem getLast?_padLast (n : Nat) (xs : List α) :
    (padLast n xs).getLast? = xs.getLast? := by
  rcases List.eq_nil_or_concat' xs with rfl | ⟨ys, x, rfl⟩
  · rfl
  · rw [padLast_concat]
    simp only [List.getLast?_append, List.getLast?_replicate]
    split <;> simp

theorem mem_padLast {n : Nat} {xs : List α} {y : α} :
    y ∈ padLast n xs ↔ y ∈ xs := by
  rcases List.eq_nil_or_concat' xs with rfl | ⟨ys, x, rfl⟩
  · rfl
  · rw [padLast_concat]
    simp only [List.mem_append, List.mem_singleton, List.mem_replicate]
    tauto

theorem map_padLast (f : α → β) (n : Nat) (xs : List α) :
    (padLast n xs).map f = padLast n (xs.map f) := by
  rcases List.eq_nil_or_concat' xs with rfl | ⟨ys, x, rfl⟩
  · rfl
  · rw [padLast_concat]
    simp [padLast]

/-- `xs` runs without repetition and then stays at the value it reached. -/
def Settles (xs : List α) : Prop :=
  ∃ ys x k, (ys ++ [x]).Nodup ∧ xs = ys ++ [x] ++ List.replicate k x

variable [DecidableEq α] [DecidableEq β]

/-! ## Appending what is absent -/

/-- Append `x` unless it is already there. -/
def addNew (xs : List α) (x : α) : List α :=
  if x ∈ xs then xs else xs ++ [x]

@[simp] theorem addNew_of_mem {xs : List α} {x : α} (h : x ∈ xs) :
    addNew xs x = xs :=
  if_pos h

@[simp] theorem addNew_of_not_mem {xs : List α} {x : α} (h : x ∉ xs) :
    addNew xs x = xs ++ [x] :=
  if_neg h

@[simp] theorem mem_addNew {xs : List α} {x y : α} :
    y ∈ addNew xs x ↔ y ∈ xs ∨ y = x := by
  by_cases h : x ∈ xs
  · simp only [addNew_of_mem h, iff_self_or]
    rintro rfl
    exact h
  · simp [h]

theorem mem_foldl_addNew {xs ys : List α} {x : α} :
    x ∈ ys.foldl addNew xs ↔ x ∈ xs ∨ x ∈ ys := by
  induction ys generalizing xs with
  | nil => simp
  | cons y ys ih =>
      rw [List.foldl_cons, ih, mem_addNew, List.mem_cons]
      tauto

theorem foldl_addNew_of_subset {xs ys : List α} (h : ∀ y ∈ ys, y ∈ xs) :
    ys.foldl addNew xs = xs := by
  induction ys with
  | nil => rfl
  | cons y ys ih =>
      obtain ⟨hy, hys⟩ := List.forall_mem_cons.mp h
      rw [List.foldl_cons, addNew_of_mem hy, ih hys]

theorem map_addNew {f : α → β} (hf : ∀ x y, f x = f y → x = y) (xs : List α)
    (x : α) : (addNew xs x).map f = addNew (xs.map f) (f x) := by
  by_cases hx : x ∈ xs
  · rw [addNew_of_mem hx, addNew_of_mem (List.mem_map_of_mem hx)]
  · have hmap : f x ∉ xs.map f := by
      intro hmem
      obtain ⟨y, hy, heq⟩ := List.mem_map.mp hmem
      exact hx (hf y x heq ▸ hy)
    rw [addNew_of_not_mem hx, addNew_of_not_mem hmap, List.map_append,
      List.map_singleton]

theorem map_foldl_addNew {f : α → β} (hf : ∀ x y, f x = f y → x = y)
    (xs ys : List α) :
    (ys.foldl addNew xs).map f = (ys.map f).foldl addNew (xs.map f) := by
  induction ys generalizing xs with
  | nil => rfl
  | cons y ys ih =>
      rw [List.foldl_cons, ih, map_addNew hf, List.map_cons, List.foldl_cons]

theorem addNew_ne_nil (xs : List α) (x : α) : addNew xs x ≠ [] := by
  intro h
  have hx : x ∈ addNew xs x := mem_addNew.mpr (.inr rfl)
  simp [h] at hx

theorem nodup_addNew {xs : List α} (h : xs.Nodup) (x : α) :
    (addNew xs x).Nodup := by
  by_cases hx : x ∈ xs
  · rwa [addNew_of_mem hx]
  · rw [addNew_of_not_mem hx]
    simpa using h.concat hx

theorem addNew_eraseDups (xs : List α) (x : α) :
    addNew xs.eraseDups x = (xs ++ [x]).eraseDups := by
  rw [List.eraseDups_append]
  by_cases hx : x ∈ xs
  · simp [hx, List.removeAll]
  · simp [hx, List.removeAll, List.eraseDups_cons]

/-- Growing a list one value at a time removes the repetitions of what was
appended. -/
theorem foldl_addNew_eraseDups (xs ys : List α) :
    ys.foldl addNew xs.eraseDups = (xs ++ ys).eraseDups := by
  induction ys generalizing xs with
  | nil => simp
  | cons y ys ih =>
      calc
        (y :: ys).foldl addNew xs.eraseDups =
            ys.foldl addNew (addNew xs.eraseDups y) := List.foldl_cons ..
        _ = ys.foldl addNew (xs ++ [y]).eraseDups := by rw [addNew_eraseDups]
        _ = (xs ++ [y] ++ ys).eraseDups := ih (xs ++ [y])
        _ = (xs ++ y :: ys).eraseDups := by
          rw [List.append_assoc, List.singleton_append]

theorem foldl_addNew_of_nodup (xs ys : List α) (h : (xs ++ ys).Nodup) :
    ys.foldl addNew xs = xs ++ ys := by
  induction ys generalizing xs with
  | nil => simp
  | cons y ys ih =>
      have hy : y ∉ xs := by
        intro hmem
        exact (List.nodup_append.mp h).2.2 y hmem y (by simp) rfl
      rw [List.foldl_cons, addNew_of_not_mem hy, ih _ (by simpa using h)]
      simp

theorem eraseDups_of_nodup {xs : List α} (h : xs.Nodup) : xs.eraseDups = xs := by
  calc
    xs.eraseDups = xs.foldl addNew ([] : List α).eraseDups :=
      (foldl_addNew_eraseDups [] xs).symm
    _ = xs.foldl addNew [] := by rw [List.eraseDups_nil]
    _ = xs := foldl_addNew_of_nodup [] xs (by rwa [List.nil_append])

theorem nodup_eraseDups (xs : List α) : xs.eraseDups.Nodup := by
  induction xs using List.reverseRecOn with
  | nil => simp
  | append_singleton xs x ih =>
      rw [← addNew_eraseDups]
      exact nodup_addNew ih x

theorem eraseDups_ne_nil {xs : List α} (h : xs ≠ []) : xs.eraseDups ≠ [] := by
  obtain ⟨x, hx⟩ := List.exists_mem_of_ne_nil xs h
  exact List.ne_nil_of_mem (List.mem_eraseDups.mpr hx)

theorem length_eraseDups_le (xs : List α) : xs.eraseDups.length ≤ xs.length := by
  induction xs using List.reverseRecOn with
  | nil => simp
  | append_singleton xs x ih =>
      rw [← addNew_eraseDups, addNew]
      split <;> simp <;> omega

/-- Only a list without repetitions keeps its length. -/
theorem length_eraseDups_eq_iff {xs : List α} :
    xs.eraseDups.length = xs.length ↔ xs.Nodup := by
  constructor
  · intro h
    induction xs using List.reverseRecOn with
    | nil => simp
    | append_singleton xs x ih =>
        have hle := length_eraseDups_le xs
        rw [← addNew_eraseDups] at h
        by_cases hx : x ∈ xs.eraseDups
        · rw [addNew_of_mem hx] at h
          simp at h
          omega
        · rw [addNew_of_not_mem hx] at h
          have hxs : xs.Nodup := ih (by simpa using h)
          simpa using hxs.concat (by simpa using hx)
  · intro h
    rw [eraseDups_of_nodup h]

/-- A list grown by `addNew` from one value: it is never empty and never
repeats a value. -/
structure FirstSeen (α : Type*) where
  toList : List α
  ne_nil : toList ≠ []
  nodup : toList.Nodup

namespace FirstSeen

def singleton (x : α) : FirstSeen α :=
  ⟨[x], by simp, by simp⟩

def add (xs : FirstSeen α) (x : α) : FirstSeen α :=
  ⟨addNew xs.toList x, addNew_ne_nil _ _, nodup_addNew xs.nodup x⟩

def last (xs : FirstSeen α) : α := xs.toList.getLast xs.ne_nil

omit [DecidableEq α] in
@[simp] theorem toList_singleton (x : α) : (singleton x).toList = [x] := rfl

@[simp] theorem toList_add (xs : FirstSeen α) (x : α) :
    (xs.add x).toList = addNew xs.toList x := rfl

omit [DecidableEq α] in
theorem getLast?_eq (xs : FirstSeen α) : xs.toList.getLast? = some xs.last :=
  List.getLast?_eq_some_getLast xs.ne_nil

omit [DecidableEq α] in
theorem last_mem (xs : FirstSeen α) : xs.last ∈ xs.toList :=
  List.getLast_mem xs.ne_nil

theorem last_add_of_not_mem {xs : FirstSeen α} {x : α} (h : x ∉ xs.toList) :
    (xs.add x).last = x := by
  simp [last, addNew_of_not_mem h]

end FirstSeen

/-! ## Which sequences survive -/

theorem eraseDups_settled {ys : List α} {x : α} (k : Nat)
    (h : (ys ++ [x]).Nodup) :
    (ys ++ [x] ++ List.replicate k x).eraseDups = ys ++ [x] := by
  rw [List.eraseDups_append, eraseDups_of_nodup h]
  have hnone : (List.replicate k x).removeAll (ys ++ [x]) = [] := by
    simp [List.removeAll]
  simp [hnone]

theorem padLast_eraseDups_iff {xs : List α} (h : xs ≠ []) :
    padLast xs.length xs.eraseDups = xs ↔ Settles xs := by
  constructor
  · intro heq
    have hne := eraseDups_ne_nil h
    have hnodup := nodup_eraseDups xs
    rcases List.eq_nil_or_concat' xs.eraseDups with hnil | ⟨ys, x, hys⟩
    · exact absurd hnil hne
    · rw [hys] at heq hnodup
      rw [padLast_concat] at heq
      exact ⟨ys, x, _, hnodup, heq.symm⟩
  · rintro ⟨ys, x, k, hnodup, rfl⟩
    rw [eraseDups_settled k hnodup, padLast_concat]
    congr 2
    simp
    omega

/-- The round trip of two sequences of one length: repetitions are forgotten
on each side, then the shorter side is extended by its last value.  Both come
back exactly when one side had no repetition to forget and the other only
repeated its final value. -/
theorem padLast_max_eraseDups_iff {xs : List α} {ys : List β}
    (hlength : xs.length = ys.length) (hxs : xs ≠ []) :
    (padLast (max xs.eraseDups.length ys.eraseDups.length) xs.eraseDups = xs ∧
      padLast (max xs.eraseDups.length ys.eraseDups.length) ys.eraseDups = ys) ↔
    (xs.Nodup ∧ Settles ys) ∨ (ys.Nodup ∧ Settles xs) := by
  have hys : ys ≠ [] := by
    intro hnil
    rw [hnil, List.length_nil] at hlength
    exact hxs (List.length_eq_zero_iff.mp hlength)
  have hlex := length_eraseDups_le xs
  have hley := length_eraseDups_le ys
  set m := max xs.eraseDups.length ys.eraseDups.length with hm
  have hpx : (padLast m xs.eraseDups).length = m :=
    length_padLast (eraseDups_ne_nil hxs) (le_max_left _ _)
  constructor
  · rintro ⟨hx, hy⟩
    have hmx : m = xs.length := by rw [← hpx, hx]
    rcases le_total ys.eraseDups.length xs.eraseDups.length with hle | hle
    · -- the values of `xs` reach the full length, so none was forgotten
      left
      have hfull : xs.eraseDups.length = xs.length := by omega
      refine ⟨length_eraseDups_eq_iff.mp hfull, ?_⟩
      rw [hmx, hlength] at hy
      exact (padLast_eraseDups_iff hys).mp hy
    · right
      have hfull : ys.eraseDups.length = ys.length := by omega
      refine ⟨length_eraseDups_eq_iff.mp hfull, ?_⟩
      rw [hmx] at hx
      exact (padLast_eraseDups_iff hxs).mp hx
  · rintro (⟨hnodup, hsettles⟩ | ⟨hnodup, hsettles⟩)
    · have hmx : m = xs.length := by
        rw [hm, length_eraseDups_eq_iff.mpr hnodup]
        omega
      have hy := (padLast_eraseDups_iff hys).mpr hsettles
      rw [← hlength, ← hmx] at hy
      refine ⟨?_, hy⟩
      rw [eraseDups_of_nodup hnodup, hmx, padLast_of_length_le le_rfl]
    · have hmy : m = ys.length := by
        rw [hm, length_eraseDups_eq_iff.mpr hnodup]
        omega
      have hx := (padLast_eraseDups_iff hxs).mpr hsettles
      rw [hlength, ← hmy] at hx
      refine ⟨hx, ?_⟩
      rw [eraseDups_of_nodup hnodup, hmy, padLast_of_length_le le_rfl]

end Grocr.Support
