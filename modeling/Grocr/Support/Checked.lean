import Mathlib.Data.List.Basic
import Mathlib.Tactic.Common
/-!
# Computations that may fail an assertion

Equations for sequences and loops of computations in `Except ε`: a sequence
succeeds when each part does, and a loop whose every step succeeds is the loop
over the results.
-/

namespace Grocr.Support.Checked

variable {ε α β : Type}

theorem bind_eq_ok {x : Except ε α} {f : α → Except ε β} {b : β} :
    x >>= f = .ok b ↔ ∃ a, x = .ok a ∧ f a = .ok b := by
  cases x with
  | error e => simp [bind, Except.bind]
  | ok a => simp [bind, Except.bind]

theorem ok_bind (a : α) (f : α → Except ε β) :
    ((.ok a : Except ε α) >>= f) = f a := rfl

theorem map_eq_ok {x : Except ε α} {f : α → β} {b : β} :
    x.map f = .ok b ↔ ∃ a, x = .ok a ∧ f a = b := by
  cases x <;> simp [Except.map]

theorem mapM_ok {f : α → Except ε β} {g : α → β} {xs : List α}
    (h : ∀ x ∈ xs, f x = .ok (g x)) : xs.mapM f = .ok (xs.map g) := by
  induction xs with
  | nil => rfl
  | cons x xs ih =>
      obtain ⟨hx, hxs⟩ := List.forall_mem_cons.mp h
      rw [List.mapM_cons, hx, ok_bind, ih hxs, ok_bind, List.map_cons]
      rfl

/-- A loop of computations that `g` undoes is undone by a loop. -/
theorem mapM_roundTrip {f : α → Except ε β} {g : β → Except ε α} {xs : List α}
    (h : ∀ x ∈ xs, ∃ y, f x = .ok y ∧ g y = .ok x) :
    ∃ ys, xs.mapM f = .ok ys ∧ ys.mapM g = .ok xs := by
  induction xs with
  | nil => exact ⟨[], rfl, rfl⟩
  | cons x xs ih =>
      obtain ⟨⟨y, hf, hg⟩, hxs⟩ := List.forall_mem_cons.mp h
      obtain ⟨ys, hfs, hgs⟩ := ih hxs
      refine ⟨y :: ys, ?_, ?_⟩
      · rw [List.mapM_cons, hf, ok_bind, hfs]
        rfl
      · rw [List.mapM_cons, hg, ok_bind, hgs]
        rfl

theorem foldlM_invariant {f : β → α → Except ε β} {I : β → Prop}
    {xs : List α} {b c : β} (h : xs.foldlM f b = .ok c) (hb : I b)
    (hstep : ∀ x ∈ xs, ∀ b c, I b → f b x = .ok c → I c) : I c := by
  induction xs generalizing b with
  | nil =>
      cases h
      exact hb
  | cons x xs ih =>
      rw [List.foldlM_cons, bind_eq_ok] at h
      obtain ⟨d, hd, hrest⟩ := h
      obtain ⟨hx, hxs⟩ := List.forall_mem_cons.mp hstep
      exact ih hrest (hx b d hb hd) hxs

end Grocr.Support.Checked
