import Mathlib.Data.List.Basic
import Mathlib.Data.List.Nodup
import Mathlib.Data.List.Pairwise
import Mathlib.Data.List.Perm.Subperm
import Mathlib.Order.Lattice
import Mathlib.Tactic.Common
/-!
# Strictly increasing lists

A strictly increasing list is determined by its members, and a part of it that
starts and stops somewhere is a filter of it.
-/

namespace Grocr.Support

variable {α β : Type}

/-- Lists in which `f` increases strictly are equal when their members are. -/
theorem eq_of_increasing [LinearOrder β] (f : α → β) {xs ys : List α}
    (hxs : xs.Pairwise (fun a b => f a < f b))
    (hys : ys.Pairwise (fun a b => f a < f b))
    (hmem : ∀ x, x ∈ xs ↔ x ∈ ys) : xs = ys := by
  have hnodup : ∀ {zs : List α}, zs.Pairwise (fun a b => f a < f b) →
      zs.Nodup := fun h =>
    h.imp fun hab heq => absurd (congrArg f heq) hab.ne
  have hperm : xs.Perm ys :=
    (List.perm_ext_iff_of_nodup (hnodup hxs) (hnodup hys)).mpr hmem
  refine hperm.eq_of_pairwise ?_ hxs hys
  intro a b _ _ hab hba
  exact absurd hab (not_lt.mpr hba.le)

/-- Where a test fails for good, what precedes the first failure is all that
passes. -/
theorem takeWhile_eq_filter {p : α → Bool} {xs : List α}
    (h : xs.Pairwise (fun a b => p a = false → p b = false)) :
    xs.takeWhile p = xs.filter p := by
  induction xs with
  | nil => rfl
  | cons x xs ih =>
      obtain ⟨hx, hxs⟩ := List.pairwise_cons.mp h
      rw [List.takeWhile_cons, List.filter_cons]
      by_cases hpx : p x = true
      · rw [if_pos hpx, if_pos hpx, ih hxs]
      · have hnone : xs.filter p = [] := by
          refine List.filter_eq_nil_iff.mpr fun y hy => ?_
          simpa using hx y hy (by simpa using hpx)
        rw [if_neg hpx, if_neg hpx, hnone]

/-- Where a test passes for good, what follows the failures is all that
passes. -/
theorem dropWhile_not_eq_filter {p : α → Bool} {xs : List α}
    (h : xs.Pairwise (fun a b => p a = true → p b = true)) :
    xs.dropWhile (fun x => !p x) = xs.filter p := by
  induction xs with
  | nil => rfl
  | cons x xs ih =>
      obtain ⟨hx, hxs⟩ := List.pairwise_cons.mp h
      rw [List.dropWhile_cons, List.filter_cons]
      by_cases hpx : p x = true
      · have hall : xs.filter p = xs :=
          List.filter_eq_self.mpr fun y hy => hx y hy hpx
        simp [hpx, hall]
      · simp [hpx, ih hxs]

/-- The part of a list, increasing in `f`, from `start` on. -/
theorem dropWhile_lt_eq_filter [LinearOrder β] (f : α → β) {xs : List α}
    (h : xs.Pairwise (fun a b => f a < f b)) (start : β) :
    xs.dropWhile (fun x => f x < start) =
      xs.filter (fun x => start ≤ f x) := by
  have hmono : xs.Pairwise (fun a b =>
      decide (start ≤ f a) = true → decide (start ≤ f b) = true) := by
    refine h.imp ?_
    intro a b hab ha
    simp only [decide_eq_true_eq] at ha ⊢
    exact ha.trans hab.le
  rw [← dropWhile_not_eq_filter hmono]
  congr 1
  funext x
  by_cases hx : f x < start
  · simp [hx]
  · simp [hx, not_lt.mp hx]

end Grocr.Support
