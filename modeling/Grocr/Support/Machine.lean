import Mathlib.Data.List.Basic
import Mathlib.Data.List.Induction
import Mathlib.Tactic.Common
/-!
# Event-driven machines

A machine is a step function over explicit states together with the events
each state can receive.  A step may fail with a fault, after which nothing
more happens.  Properties of whole runs come from one rule, `Run.induct`: a
history-dependent invariant that every step taken under a side condition
preserves.  Nothing here mentions a particular machine.
-/

namespace Grocr.Support

/-- States `σ`, events `ε` and faults `τ`. -/
structure Machine (σ ε τ : Type) where
  /-- The events that can occur in a state. -/
  enabled : σ → ε → Prop
  /-- What an event does, or the fault that it ends in. -/
  step : σ → ε → Except τ σ

namespace Machine

variable {σ ε τ : Type} {M : Machine σ ε τ}

/-- `M.Run s es t`: the events `es` can occur in this order from `s`, none of
them faults, and they lead to `t`. -/
inductive Run (M : Machine σ ε τ) : σ → List ε → σ → Prop
  | nil (s : σ) : Run M s [] s
  | cons {s t u : σ} {e : ε} {es : List ε} :
      M.enabled s e → M.step s e = .ok t → Run M t es u → Run M s (e :: es) u

namespace Run

theorem append {s t u : σ} {es fs : List ε}
    (h : M.Run s es t) (h' : M.Run t fs u) : M.Run s (es ++ fs) u := by
  induction h with
  | nil => exact h'
  | cons henabled hstep _ ih => exact .cons henabled hstep (ih h')

theorem snoc {s t u : σ} {es : List ε} {e : ε} (h : M.Run s es t)
    (henabled : M.enabled t e) (hstep : M.step t e = .ok u) :
    M.Run s (es ++ [e]) u :=
  h.append (.cons henabled hstep (.nil u))

theorem split {s u : σ} {es fs : List ε} (h : M.Run s (es ++ fs) u) :
    ∃ t, M.Run s es t ∧ M.Run t fs u := by
  induction es generalizing s with
  | nil => exact ⟨s, .nil s, h⟩
  | cons e es ih =>
      cases h with
      | cons henabled hstep hrest =>
          obtain ⟨t, hleft, hright⟩ := ih hrest
          exact ⟨t, .cons henabled hstep hleft, hright⟩

theorem split_last {s u : σ} {es : List ε} {e : ε}
    (h : M.Run s (es ++ [e]) u) :
    ∃ t, M.Run s es t ∧ M.enabled t e ∧ M.step t e = .ok u := by
  obtain ⟨t, hrun, hlast⟩ := h.split
  cases hlast with
  | cons henabled hstep hnil =>
      cases hnil
      exact ⟨t, hrun, henabled, hstep⟩

/-- Steps are functions, so a run's events determine where it ends. -/
theorem unique {s t u : σ} {es : List ε}
    (h : M.Run s es t) (h' : M.Run s es u) : t = u := by
  induction h with
  | nil =>
      cases h'
      rfl
  | cons _ hstep _ ih =>
      cases h' with
      | cons _ hstep' hrest =>
          rw [hstep] at hstep'
          cases hstep'
          exact ih hrest

theorem next {s t u : σ} {pre post : List ε} {e : ε}
    (h : M.Run s (pre ++ e :: post) t) (hpre : M.Run s pre u) :
    M.enabled u e ∧ ∃ v, M.step u e = .ok v := by
  obtain ⟨u', hpre', hrest⟩ := h.split
  cases hpre.unique hpre'
  cases hrest with
  | cons henabled hstep _ => exact ⟨henabled, _, hstep⟩

end Run

/-- Every event of `es`, at the moment when it is due in a run from `s`, meets
`C`, which may look at the events before it and at the state it finds. -/
def Along (M : Machine σ ε τ) (s : σ) (es : List ε)
    (C : List ε → σ → ε → Prop) : Prop :=
  ∀ pre e post, es = pre ++ e :: post → ∀ t, M.Run s pre t → C pre t e

namespace Along

variable {s : σ} {es fs : List ε} {C : List ε → σ → ε → Prop}

theorem of_forall_mem {P : ε → Prop} (h : ∀ e ∈ es, P e) :
    M.Along s es (fun _ _ e => P e) := by
  rintro pre e post rfl t -
  exact h e (by simp)

theorem singleton {e : ε} (h : C [] s e) : M.Along s [e] C := by
  intro pre f post hes t hrun
  obtain ⟨rfl, hrest⟩ | ⟨rest, rfl, hnil⟩ := List.cons_eq_append_iff.mp hes
  · obtain ⟨rfl, -⟩ := List.cons.inj hrest
    cases hrun
    exact h
  · simp at hnil

theorem of_append (h : M.Along s (es ++ fs) C) : M.Along s es C := by
  intro pre e post hes t hrun
  exact h pre e (post ++ fs) (by simp [hes]) t hrun

theorem and {D : List ε → σ → ε → Prop} (hC : M.Along s es C)
    (hD : M.Along s es D) :
    M.Along s es (fun pre t e => C pre t e ∧ D pre t e) :=
  fun pre e post hes t hrun =>
    ⟨hC pre e post hes t hrun, hD pre e post hes t hrun⟩

theorem last {e : ε} {t : σ} (h : M.Along s (es ++ [e]) C)
    (hrun : M.Run s es t) : C es t e :=
  h es e [] rfl t hrun

theorem enabled_of_run {t : σ} (hrun : M.Run s es t) :
    M.Along s es (fun _ u e => M.enabled u e) := by
  rintro pre e post rfl u hpre
  exact (hrun.next hpre).1

/-- What holds after every part of a run holds after every step of it. -/
theorem of_prefixes {t : σ} {Q : σ → Prop} (hrun : M.Run s es t)
    (h : ∀ pre u, pre <+: es → M.Run s pre u → Q u) :
    M.Along s es (fun _ u e => ∀ v, M.step u e = .ok v → Q v) := by
  rintro pre e post rfl u hpre v hstep
  obtain ⟨henabled, -⟩ := hrun.next hpre
  exact h (pre ++ [e]) v ⟨post, by simp⟩ (hpre.snoc henabled hstep)

end Along

/-- Induction over a run.  `I` may mention the events so far; each step has to
preserve it only under the condition `C` that the run meets along the way. -/
theorem Run.induct {s t : σ} {es : List ε} {C : List ε → σ → ε → Prop}
    {I : List ε → σ → Prop} (h : M.Run s es t) (hC : M.Along s es C)
    (hinit : I [] s)
    (hstep : ∀ pre u e v, I pre u → C pre u e → M.enabled u e →
      M.step u e = .ok v → I (pre ++ [e]) v) :
    I es t := by
  induction es using List.reverseRecOn generalizing t with
  | nil =>
      cases h
      exact hinit
  | append_singleton es e ih =>
      obtain ⟨u, hrun, henabled, hlast⟩ := h.split_last
      exact hstep es u e t (ih hrun hC.of_append) (hC.last hrun) henabled hlast

/-- The same rule for an invariant of the state alone, in every run. -/
theorem Run.invariant {s t : σ} {es : List ε} {I : σ → Prop}
    (h : M.Run s es t) (hinit : I s)
    (hstep : ∀ u e v, I u → M.enabled u e → M.step u e = .ok v → I v) :
    I t :=
  h.induct (C := fun _ _ _ => True) (I := fun _ => I)
    (fun _ _ _ _ _ _ => trivial) hinit
    (fun _ u e v hI _ henabled hv => hstep u e v hI henabled hv)

/-- When a property of states holds all along a run.  Each step that meets the
side condition `D` leads to a state with `Q` exactly when it meets `C`, and
meeting `C` also keeps the invariant `I` that this rests on. -/
theorem Run.always_iff {s t : σ} {es : List ε} {I : List ε → σ → Prop}
    {Q : σ → Prop} {C D : List ε → σ → ε → Prop} (h : M.Run s es t)
    (hD : M.Along s es D) (hinit : I [] s) (hQ : ∀ pre u, I pre u → Q u)
    (hstep : ∀ pre u e v, I pre u → D pre u e → M.enabled u e →
      M.step u e = .ok v → (Q v ↔ C pre u e) ∧ (C pre u e → I (pre ++ [e]) v)) :
    (∀ pre u, pre <+: es → M.Run s pre u → Q u) ↔ M.Along s es C := by
  constructor
  · intro hall pre e post hes u hpre
    have hnext := Along.of_prefixes h hall
    rw [hes] at h hD hnext
    have hI : I pre u := by
      apply hpre.induct (hD.of_append.and hnext.of_append) hinit
      intro pre' u' e' v' hI ⟨hD', hQ'⟩ henabled hv
      have hexact := hstep pre' u' e' v' hI hD' henabled hv
      exact hexact.2 (hexact.1.mp (hQ' v' hv))
    obtain ⟨henabled, v, hv⟩ := h.next hpre
    have hexact := hstep pre u e v hI (hD pre e post rfl u hpre) henabled hv
    exact hexact.1.mp (hnext pre e post rfl u hpre v hv)
  · intro hC pre u hprefix hpre
    obtain ⟨post, rfl⟩ := hprefix
    apply hQ pre u
    apply hpre.induct (hD.of_append.and hC.of_append) hinit
    intro pre' u' e' v' hI ⟨hD', hC'⟩ henabled hv
    exact (hstep pre' u' e' v' hI hD' henabled hv).2 hC'

/-- Two conditions that agree wherever an invariant holds agree along any
events that can occur one after the other. -/
theorem Along.congr_of_invariant {s : σ} {es : List ε} {I : σ → Prop}
    {C D : List ε → σ → ε → Prop}
    (henabled : M.Along s es (fun _ u e => M.enabled u e)) (hinit : I s)
    (hstep : ∀ u e v, I u → M.enabled u e → M.step u e = .ok v → I v)
    (hCD : ∀ pre u e, I u → M.enabled u e → (C pre u e ↔ D pre u e)) :
    M.Along s es C ↔ M.Along s es D := by
  have hagree : ∀ pre e post, es = pre ++ e :: post → ∀ u, M.Run s pre u →
      (C pre u e ↔ D pre u e) := by
    intro pre e post hes u hrun
    exact hCD pre u e (hrun.invariant hinit hstep)
      (henabled pre e post hes u hrun)
  constructor
  · intro h pre e post hes u hrun
    exact (hagree pre e post hes u hrun).mp (h pre e post hes u hrun)
  · intro h pre e post hes u hrun
    exact (hagree pre e post hes u hrun).mpr (h pre e post hes u hrun)

def Reachable (M : Machine σ ε τ) (s t : σ) : Prop := ∃ es, M.Run s es t

theorem Reachable.invariant {s t : σ} {I : σ → Prop}
    (h : M.Reachable s t) (hinit : I s)
    (hstep : ∀ u e v, I u → M.enabled u e → M.step u e = .ok v → I v) :
    I t :=
  h.elim fun _ hrun => hrun.invariant hinit hstep

/-! ## Running a machine on given events -/

/-- Play `es` from `s`; `none` if one of them cannot occur or faults. -/
def replay (M : Machine σ ε τ) [∀ s e, Decidable (M.enabled s e)] :
    σ → List ε → Option σ
  | s, [] => some s
  | s, e :: es =>
      if M.enabled s e then
        match M.step s e with
        | .ok t => replay M t es
        | .error _ => none
      else none

theorem run_of_replay [∀ s e, Decidable (M.enabled s e)] {s t : σ}
    {es : List ε} (h : M.replay s es = some t) : M.Run s es t := by
  induction es generalizing s with
  | nil =>
      cases h
      exact .nil _
  | cons e es ih =>
      simp only [replay] at h
      split at h
      next henabled =>
        split at h
        next u hstep => exact .cons henabled hstep (ih h)
        next => cases h
      next => cases h

/-- Play `es` from `s` and test `C` before each event. -/
def check (M : Machine σ ε τ) (C : σ → ε → Prop) [∀ s e, Decidable (C s e)] :
    σ → List ε → Bool
  | _, [] => true
  | s, e :: es =>
      decide (C s e) &&
        match M.step s e with
        | .ok t => check M C t es
        | .error _ => true

theorem along_of_check {C : σ → ε → Prop} [∀ s e, Decidable (C s e)] {s : σ}
    {es : List ε} (h : M.check C s es = true) :
    M.Along s es (fun _ t e => C t e) := by
  induction es generalizing s with
  | nil =>
      intro pre e post hes
      simp at hes
  | cons f es ih =>
      rw [check, Bool.and_eq_true, decide_eq_true_eq] at h
      obtain ⟨hnow, hrest⟩ := h
      intro pre e post hes t hrun
      cases hrun with
      | nil =>
          cases hes
          exact hnow
      | cons _ hstep hrun =>
          obtain ⟨rfl, htail⟩ := List.cons.inj hes
          rw [hstep] at hrest
          exact ih hrest _ e post htail t hrun

end Machine

end Grocr.Support
