import Mathlib.Data.List.Basic
import Mathlib.Data.List.Forall2
import Mathlib.Data.List.Infix
import Mathlib.Data.List.Induction
import Mathlib.Tactic.Common
/-!
# Swift expressions that may trap

The checked operations of Swift code as functions into `Except Trap`: forced
unwrapping, array subscripts, `remove(at:)`, and `for i in 0..<n` loops.  A
trap ends the program, so nothing after it is evaluated.
-/

namespace Grocr.Support.Swift

/-- The run-time failures that stop a Swift program. -/
inductive Trap
  | unexpectedNil
  | indexOutOfRange
  | stringIndexOutOfBounds
  | notRepresentable
deriving DecidableEq, Repr

variable {α β : Type}

theorem bind_eq_ok {x : Except Trap α} {f : α → Except Trap β} {b : β} :
    x >>= f = .ok b ↔ ∃ a, x = .ok a ∧ f a = .ok b := by
  cases x with
  | error trap => simp [bind, Except.bind]
  | ok a => simp [bind, Except.bind]

@[simp] theorem ok_bind (a : α) (f : α → Except Trap β) :
    ((.ok a : Except Trap α) >>= f) = f a := rfl

@[simp] theorem error_bind (trap : Trap) (f : α → Except Trap β) :
    ((.error trap : Except Trap α) >>= f) = .error trap := rfl

theorem pure_eq_ok (a : α) : (pure a : Except Trap α) = .ok a := rfl

/-! ## Optionals -/

def unwrap : Option α → Except Trap α
  | some x => .ok x
  | none => .error .unexpectedNil

@[simp] theorem unwrap_some (x : α) : unwrap (some x) = .ok x := rfl

@[simp] theorem unwrap_none :
    unwrap (none : Option α) = .error .unexpectedNil := rfl

@[simp] theorem unwrap_eq_ok {x : Option α} {a : α} :
    unwrap x = .ok a ↔ x = some a := by
  cases x <;> simp

/-- `x!!` on an optional of an optional. -/
def unwrapTwice (x : Option (Option α)) : Except Trap α := do
  let y ← unwrap x
  unwrap y

@[simp] theorem unwrapTwice_eq_ok {x : Option (Option α)} {a : α} :
    unwrapTwice x = .ok a ↔ x = some (some a) := by
  rw [unwrapTwice, bind_eq_ok]
  simp

/-! ## Arrays -/

def subscript (xs : List α) (i : Nat) : Except Trap α :=
  match xs[i]? with
  | some x => .ok x
  | none => .error .indexOutOfRange

@[simp] theorem subscript_eq_ok {xs : List α} {i : Nat} {x : α} :
    subscript xs i = .ok x ↔ xs[i]? = some x := by
  unfold subscript
  split <;> simp_all

theorem subscript_of_getElem? {xs : List α} {i : Nat} {x : α}
    (h : xs[i]? = some x) : subscript xs i = .ok x :=
  subscript_eq_ok.mpr h

def assign (xs : List α) (i : Nat) (f : α → α) : Except Trap (List α) :=
  if i < xs.length then .ok (xs.modify i f) else .error .indexOutOfRange

theorem assign_of_lt {xs : List α} {i : Nat} (f : α → α)
    (h : i < xs.length) : assign xs i f = .ok (xs.modify i f) :=
  if_pos h

def removeAt (xs : List α) (i : Nat) : Except Trap (List α) :=
  if i < xs.length then .ok (xs.eraseIdx i) else .error .indexOutOfRange

theorem removeAt_eq_ok {xs ys : List α} {i : Nat} :
    removeAt xs i = .ok ys ↔ i < xs.length ∧ ys = xs.eraseIdx i := by
  unfold removeAt
  split
  next h => simp [h, eq_comm]
  next h => simp [h]

/-! ## Loops -/

def forRange (n : Nat) (body : Nat → α → Except Trap α) (init : α) :
    Except Trap α :=
  (List.range n).foldlM (fun s i => body i s) init

theorem forRange_succ (n : Nat) (body : Nat → α → Except Trap α) (init : α) :
    forRange (n + 1) body init = forRange n body init >>= body n := by
  rw [forRange, List.range_succ, List.foldlM_append]
  simp only [List.foldlM_cons, List.foldlM_nil, bind_pure]
  rfl

/-- A loop invariant that each turn preserves without a trap. -/
theorem forRange_spec {n : Nat} {body : Nat → α → Except Trap α} {init : α}
    (I : Nat → α → Prop) (hinit : I 0 init)
    (hbody : ∀ i s, i < n → I i s → ∃ s', body i s = .ok s' ∧ I (i + 1) s') :
    ∃ s, forRange n body init = .ok s ∧ I n s := by
  induction n with
  | zero => exact ⟨init, rfl, hinit⟩
  | succ n ih =>
      obtain ⟨s, hs, hI⟩ := ih fun i t hi => hbody i t (by omega)
      obtain ⟨s', hs', hI'⟩ := hbody n s (by omega) hI
      exact ⟨s', by rw [forRange_succ, hs, ok_bind, hs'], hI'⟩

theorem forRange_of_ok {n : Nat} {body : Nat → α → Except Trap α} {init s : α}
    (I : Nat → α → Prop) (h : forRange n body init = .ok s) (hinit : I 0 init)
    (hbody : ∀ i t t', i < n → I i t → body i t = .ok t' → I (i + 1) t') :
    I n s := by
  induction n generalizing s with
  | zero =>
      cases h
      exact hinit
  | succ n ih =>
      rw [forRange_succ] at h
      obtain ⟨t, ht, hlast⟩ := bind_eq_ok.mp h
      have hI : I n t := ih ht fun i u u' hi => hbody i u u' (by omega)
      exact hbody n t s (by omega) hI hlast

theorem forRange_first {n : Nat} {body : Nat → α → Except Trap α}
    {init s : α} (hn : 0 < n) (h : forRange n body init = .ok s) :
    ∃ t, body 0 init = .ok t := by
  induction n generalizing s with
  | zero => omega
  | succ n ih =>
      rw [forRange_succ] at h
      obtain ⟨t, ht, hlast⟩ := bind_eq_ok.mp h
      rcases Nat.eq_zero_or_pos n with rfl | hpos
      · cases ht
        exact ⟨s, hlast⟩
      · exact ih hpos ht

/-- A loop that appends one computed value a turn. -/
def appendRange (n : Nat) (value : Nat → Except Trap α) :
    Except Trap (List α) :=
  forRange n (fun i out => do
    let x ← value i
    pure (out ++ [x])) []

/-- It completes exactly when every value does, in the order of the indices. -/
theorem appendRange_eq_ok {n : Nat} {value : Nat → Except Trap α}
    {out : List α} :
    appendRange n value = .ok out ↔
      out.length = n ∧ ∀ i x, out[i]? = some x → value i = .ok x := by
  induction n generalizing out with
  | zero =>
      constructor
      · intro h
        cases h
        simp
      · rintro ⟨hlength, -⟩
        rw [List.length_eq_zero_iff.mp hlength]
        rfl
  | succ n ih =>
      rw [appendRange, forRange_succ, bind_eq_ok]
      show (∃ ys, appendRange n value = .ok ys ∧ _) ↔ _
      constructor
      · rintro ⟨ys, hys, hlast⟩
        obtain ⟨hlength, hvalues⟩ := ih.mp hys
        obtain ⟨x, hx, hout⟩ := bind_eq_ok.mp hlast
        cases hout
        refine ⟨by simp [hlength], fun i y hi => ?_⟩
        rcases Nat.lt_or_ge i ys.length with hlt | hge
        · rw [List.getElem?_append_left hlt] at hi
          exact hvalues i y hi
        · rw [List.getElem?_append_right hge] at hi
          obtain ⟨hzero, hy⟩ := List.getElem?_eq_some_iff.mp hi
          rw [List.length_singleton] at hzero
          have hin : i = n := by omega
          subst hin
          simp only [List.getElem_singleton] at hy
          rw [hx, hy]
      · rintro ⟨hlength, hvalues⟩
        rcases List.eq_nil_or_concat' out with rfl | ⟨ys, x, rfl⟩
        · simp at hlength
        · have hys : ys.length = n := by simpa using hlength
          refine ⟨ys, ih.mpr ⟨hys, fun i y hi => ?_⟩, ?_⟩
          · refine hvalues i y ?_
            rw [List.getElem?_append_left (List.getElem?_eq_some_iff.mp hi).1]
            exact hi
          · rw [hvalues n x (by simp [← hys]), ok_bind, pure_eq_ok]

/-- A loop over all indices of `xs` that computes one value for each
element. -/
theorem appendRange_subscript {xs : List α} {f : α → Except Trap β}
    {out : List β} :
    (appendRange xs.length fun i => do
      let x ← subscript xs i
      f x) = .ok out ↔ List.Forall₂ (fun x y => f x = .ok y) xs out := by
  rw [appendRange_eq_ok, List.forall₂_iff_get, eq_comm]
  refine and_congr_right fun hlength => ?_
  constructor
  · intro h i hi hi'
    have hvalue := h i _ (List.getElem?_eq_getElem hi')
    rwa [subscript_of_getElem? (List.getElem?_eq_getElem hi), ok_bind] at hvalue
  · intro h i y hy
    obtain ⟨hi', rfl⟩ := List.getElem?_eq_some_iff.mp hy
    have hi : i < xs.length := hlength ▸ hi'
    rw [subscript_of_getElem? (List.getElem?_eq_getElem hi), ok_bind]
    exact h i hi hi'

/-- The same loop when the value is a function of the element, defined where
`P` holds. -/
theorem appendRange_subscript_map {xs : List α} {f : α → Except Trap β}
    {P : α → Prop} {g : α → β} {out : List β}
    (hf : ∀ x y, f x = .ok y ↔ P x ∧ y = g x) :
    (appendRange xs.length fun i => do
      let x ← subscript xs i
      f x) = .ok out ↔ (∀ x ∈ xs, P x) ∧ out = xs.map g := by
  rw [appendRange_subscript]
  simp only [hf]
  induction xs generalizing out with
  | nil => simp
  | cons x xs ih =>
      rw [List.forall₂_cons_left_iff]
      simp only [ih, List.forall_mem_cons, List.map_cons]
      constructor
      · rintro ⟨y, ys, ⟨hx, rfl⟩, ⟨hxs, rfl⟩, rfl⟩
        exact ⟨⟨hx, hxs⟩, rfl⟩
      · rintro ⟨⟨hx, hxs⟩, rfl⟩
        exact ⟨_, _, ⟨hx, rfl⟩, ⟨hxs, rfl⟩, rfl⟩

theorem appendRange_copy {xs out : List α} {n : Nat} :
    appendRange n (fun i => subscript xs i) = .ok out ↔
      n ≤ xs.length ∧ out = xs.take n := by
  rw [appendRange_eq_ok]
  constructor
  · rintro ⟨rfl, h⟩
    have hcopied : out <+: xs := by
      refine List.prefix_iff_getElem?.mpr fun i hi => ?_
      have hvalue := h i _ (List.getElem?_eq_getElem hi)
      rwa [subscript_eq_ok] at hvalue
    exact ⟨hcopied.length_le, List.prefix_iff_eq_take.mp hcopied⟩
  · rintro ⟨hn, rfl⟩
    refine ⟨by simp [hn], fun i x hi => ?_⟩
    obtain ⟨hlt, hx⟩ := List.getElem?_eq_some_iff.mp hi
    rw [List.getElem_take] at hx
    exact subscript_of_getElem? (List.getElem?_eq_some_iff.mpr ⟨_, hx⟩)

/-! ## Characters of a string -/

/-- `String(s[s.index(s.startIndex, offsetBy: i)...s.index(s.startIndex,
offsetBy: j)])` over the characters of `s`.  An offset may reach the end
index, but a closed range may not contain it. -/
def closedRange (characters : List String) (i j : Nat) :
    Except Trap String :=
  if i ≤ characters.length ∧ j < characters.length ∧ i ≤ j then
    .ok (String.join ((characters.take (j + 1)).drop i))
  else .error .stringIndexOutOfBounds

theorem closedRange_eq_ok {characters : List String} {i j : Nat} {s : String}
    (hij : i ≤ j) :
    closedRange characters i j = .ok s ↔
      j < characters.length ∧
        s = String.join ((characters.take (j + 1)).drop i) := by
  unfold closedRange
  split
  next h => simp [h.2.1, eq_comm]
  next h =>
    constructor
    · intro hs
      cases hs
    · rintro ⟨hj, -⟩
      exact absurd ⟨by omega, hj, hij⟩ h

end Grocr.Support.Swift
