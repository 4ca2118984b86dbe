import Mathlib.Order.Lattice
import Mathlib.Tactic.Common
/-!
# Versioned histories

A value that changes over time, each state of it carrying the time of the last
change as its version, and what an observer who has read it may know.  The
observer's knowledge only ever concerns single moments; the lemmas say how two
pieces of it compare by their versions alone.
-/

namespace Grocr.Support

/-- What is there at each time: nothing, or a value and the time since which
it has been there. -/
structure History (τ α : Type) [LinearOrder τ] where
  read : τ → Option (τ × α)
  version_le : ∀ {t v a}, read t = some (v, a) → v ≤ t
  constant : ∀ {t v a t'}, read t = some (v, a) → v ≤ t' → t' ≤ t →
    read t' = some (v, a)

namespace History

variable {τ α : Type} [LinearOrder τ] (h : History τ α)

theorem read_version {t v : τ} {a : α} (ht : h.read t = some (v, a)) :
    h.read v = some (v, a) :=
  h.constant ht le_rfl (h.version_le ht)

theorem value_unique {t t' v : τ} {a b : α} (ht : h.read t = some (v, a))
    (ht' : h.read t' = some (v, b)) : a = b := by
  have heq := (h.read_version ht).symm.trans (h.read_version ht')
  rw [Option.some.injEq, Prod.mk.injEq] at heq
  exact heq.2

/-- What has been there until `t` cannot be older than what was there
before. -/
theorem version_mono {t t' v v' : τ} {a a' : α} (htt' : t ≤ t')
    (ht : h.read t = some (v, a)) (ht' : h.read t' = some (v', a')) :
    v ≤ v' := by
  by_contra hlt
  have hle : v' ≤ t := (not_le.mp hlt).le.trans (h.version_le ht)
  have heq := ht.symm.trans (h.constant ht' hle htt')
  rw [Option.some.injEq, Prod.mk.injEq] at heq
  exact hlt heq.1.le

def createdAt {τ α : Type} [LinearOrder τ] (v : τ) (a : α) : History τ α where
  read t := if v ≤ t then some (v, a) else none
  version_le := by
    intro t w b h
    split at h
    next hle =>
      cases h
      exact hle
    next => cases h
  constant := by
    intro t w b t' h hlow _
    split at h
    next =>
      cases h
      rw [if_pos hlow]
    next => cases h

/-! ## Knowledge -/

/-- What an observer may know: the value of a version, a version of a value
that it does not know for certain, or that at some time there was nothing. -/
inductive Knowledge (τ α : Type)
  | value (version : τ) (value : α)
  | version (version : τ)
  | absent (time : τ)

def Knowledge.time : Knowledge τ α → τ
  | .value v _ => v
  | .version v => v
  | .absent t => t

/-- Knowledge that the history bears out. -/
def Backs : Knowledge τ α → Prop
  | .value v a => h.read v = some (v, a)
  | .version v => ∃ a, h.read v = some (v, a)
  | .absent t => h.read t = none

/-- Nothing changes from `s` on. -/
def SettledFrom (s : τ) : Prop := ∀ t, s ≤ t → h.read t = h.read s

variable {h}

/-- Once the value has settled, a version that is there is final. -/
theorem backs_value_le {s v t : τ} {a b : α} (hs : h.SettledFrom s)
    (hread : h.read s = some (v, a)) (ht : h.read t = some (t, b)) :
    t ≤ v := by
  rcases le_total s t with hst | hts
  · have heq := ht.symm.trans ((hs t hst).trans hread)
    rw [Option.some.injEq, Prod.mk.injEq] at heq
    exact heq.1.le
  · exact h.version_mono hts ht hread

theorem absent_lt {s v t : τ} {a : α} (hs : h.SettledFrom s)
    (hread : h.read s = some (v, a)) (ht : h.read t = none) : t < s := by
  by_contra hle
  have heq := (hs t (not_lt.mp hle)).trans hread
  rw [ht] at heq
  cases heq

theorem absent_lt_version {s v t : τ} {a : α} (hs : h.SettledFrom s)
    (hread : h.read s = some (v, a)) (ht : h.read t = none) : t < v := by
  by_contra hle
  have heq := h.constant hread (not_lt.mp hle) (absent_lt hs hread ht).le
  rw [ht] at heq
  cases heq

theorem present_lt {s t : τ} {a : α} (hs : h.SettledFrom s)
    (hread : h.read s = none) (ht : h.read t = some (t, a)) : t < s := by
  by_contra hle
  have heq := (hs t (not_lt.mp hle)).trans hread
  rw [ht] at heq
  cases heq

end History

end Grocr.Support
