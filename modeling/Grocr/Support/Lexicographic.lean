import Mathlib.Data.List.Lex
import Mathlib.Data.List.Infix
import Mathlib.Data.Prod.Lex
import Mathlib.Data.Sigma.Order
import Mathlib.Order.Lattice
import Mathlib.Tactic.Common
import Grocr.Support.SortedList
/-!
# Lexicographic order and ordered codes

Two lists that differ at a position stay in order whatever is appended to them.
A code that puts its values apart in this way can be read off the front of a
list and keeps the order of tuples when codes are written one after the other.
Lists with a common prefix are neighbours in the order.
-/

namespace Grocr.Support.Lexicographic

variable {α β : Type}

/-- A list starts with another one and its end when the two are the same. -/
theorem append_singleton_prefix_iff {t : β} {a b : List β}
    (hb : t ∉ b) : a ++ [t] <+: b ++ [t] ↔ a = b := by
  constructor
  · intro h
    induction a generalizing b with
    | nil =>
        cases b with
        | nil => rfl
        | cons y b =>
            have heq := (List.cons_prefix_cons.mp h).1
            exact absurd (heq ▸ List.mem_cons_self) hb
    | cons x a ih =>
        cases b with
        | nil =>
            have hlength := h.length_le
            simp at hlength
        | cons y b =>
            obtain ⟨rfl, hrest⟩ := List.cons_prefix_cons.mp h
            rw [ih (fun hmem => hb (List.mem_cons_of_mem x hmem)) hrest]
  · rintro rfl
    exact List.prefix_rfl

variable [LinearOrder β]

/-! ## Lists that differ at a position -/

/-- `a` is the smaller of the two at the first position where they differ. -/
def Before (a b : List β) : Prop :=
  ∃ common x y r s, a = common ++ x :: r ∧ b = common ++ y :: s ∧ x < y

theorem before_of_lt {x y : β} (h : x < y) (a b : List β) :
    Before (x :: a) (y :: b) :=
  ⟨[], x, y, a, b, rfl, rfl, h⟩

namespace Before

variable {a b : List β}

theorem append (h : Before a b) (c d : List β) : Before (a ++ c) (b ++ d) := by
  obtain ⟨common, x, y, r, s, rfl, rfl, hxy⟩ := h
  exact ⟨common, x, y, r ++ c, s ++ d, by simp, by simp, hxy⟩

theorem prepend (h : Before a b) (c : List β) : Before (c ++ a) (c ++ b) := by
  obtain ⟨common, x, y, r, s, rfl, rfl, hxy⟩ := h
  exact ⟨c ++ common, x, y, r, s, by simp, by simp, hxy⟩

theorem lt (h : Before a b) : a < b := by
  obtain ⟨common, x, y, r, s, rfl, rfl, hxy⟩ := h
  induction common with
  | nil => exact List.cons_lt_cons_iff.mpr (.inl hxy)
  | cons z common ih => exact List.cons_lt_cons_iff.mpr (.inr ⟨rfl, ih⟩)

/-- Neither of two such lists goes on from the other. -/
theorem apart (h : Before a b) {c d e : List β} (ha : e = a ++ c)
    (hb : e = b ++ d) : False := by
  have hlt := (h.append c d).lt
  rw [← ha, ← hb] at hlt
  exact lt_irrefl e hlt

end Before

theorem append_lt_append_left (c : List β) {a b : List β} :
    c ++ a < c ++ b ↔ a < b := by
  induction c with
  | nil => rfl
  | cons x c ih => simp [ih]

/-- An end that precedes every element does not change the order. -/
theorem append_singleton_lt_iff {t : β} {a b : List β} (ha : ∀ x ∈ a, t < x)
    (hb : ∀ x ∈ b, t < x) : a ++ [t] < b ++ [t] ↔ a < b := by
  induction a generalizing b with
  | nil =>
      cases b with
      | nil => simp
      | cons y b =>
          have hy := hb y List.mem_cons_self
          exact iff_of_true (List.cons_lt_cons_iff.mpr (.inl hy))
            (List.nil_lt_cons y b)
  | cons x a ih =>
      have hx := ha x List.mem_cons_self
      cases b with
      | nil =>
          refine iff_of_false (fun hlt => ?_) (List.not_lt_nil _)
          rcases List.cons_lt_cons_iff.mp hlt with hgt | ⟨heq, _⟩
          · exact hgt.not_gt hx
          · exact hx.ne' heq
      | cons y b =>
          have ih := ih (b := b)
            (fun z hz => ha z (List.mem_cons_of_mem x hz))
            (fun z hz => hb z (List.mem_cons_of_mem y hz))
          rw [List.cons_append, List.cons_append, List.cons_lt_cons_iff, ih,
            List.cons_lt_cons_iff]

theorem nil_lt_append {a : List β} (hne : a ≠ []) (r : List β) :
    [] < a ++ r := by
  obtain ⟨y, t, rfl⟩ := List.exists_cons_of_ne_nil hne
  exact List.nil_lt_cons y (t ++ r)

/-! ## Ordered codes -/

/-- A code that keeps the order and puts different values apart. -/
def OrderedCode [LinearOrder α] (encode : α → List β) : Prop :=
  ∀ x y, x < y → Before (encode x) (encode y)

namespace OrderedCode

variable [LinearOrder α] {encode : α → List β} {x y : α} {r s : List β}

theorem unique (h : OrderedCode encode) (heq : encode x ++ r = encode y ++ s) :
    x = y ∧ r = s := by
  rcases lt_trichotomy x y with hlt | hxy | hgt
  · exact ((h x y hlt).apart rfl heq).elim
  · subst hxy
    exact ⟨rfl, List.append_cancel_left heq⟩
  · exact ((h y x hgt).apart rfl heq.symm).elim

/-- Codes followed by anything are in the order of their values, then in the
order of what follows. -/
theorem append_lt_append_iff (h : OrderedCode encode) :
    encode x ++ r < encode y ++ s ↔ x < y ∨ x = y ∧ r < s := by
  rcases lt_trichotomy x y with hlt | rfl | hgt
  · exact iff_of_true ((h x y hlt).append r s).lt (.inl hlt)
  · rw [append_lt_append_left]
    simp
  · have hback := ((h y x hgt).append s r).lt
    refine iff_of_false hback.not_gt ?_
    rintro (hlt | ⟨heq, -⟩)
    · exact hgt.not_gt hlt
    · exact hgt.ne heq.symm

theorem prefix_append_iff (h : OrderedCode encode) :
    encode x ++ r <+: encode y ++ s ↔ x = y ∧ r <+: s := by
  constructor
  · rintro ⟨t, ht⟩
    rw [List.append_assoc] at ht
    obtain ⟨hxy, hrs⟩ := h.unique ht
    exact ⟨hxy, t, hrs⟩
  · rintro ⟨rfl, t, rfl⟩
    exact ⟨t, List.append_assoc _ _ _⟩

end OrderedCode

/-! ## Codes of tuples, of tagged values and of lists -/

namespace OrderedCode

variable [LinearOrder α] {encode : α → List β}

theorem pair {γ : Type} [LinearOrder γ] {encode' : γ → List β}
    (h : OrderedCode encode) (h' : OrderedCode encode') :
    OrderedCode (fun x : α ×ₗ γ => encode (ofLex x).1 ++ encode' (ofLex x).2) := by
  intro x y hxy
  rcases Prod.Lex.lt_iff.mp hxy with hlt | ⟨heq, hlt⟩
  · exact (h _ _ hlt).append _ _
  · dsimp only
    rw [heq]
    exact (h' _ _ hlt).prepend _

theorem sigma {ι : Type} {γ : ι → Type} [LinearOrder ι] [∀ i, LinearOrder (γ i)]
    {tag : ι → List β} {payload : ∀ i, γ i → List β} (htag : OrderedCode tag)
    (hpayload : ∀ i, OrderedCode (payload i)) :
    OrderedCode (fun x : Σₗ i, γ i => tag x.1 ++ payload x.1 x.2) := by
  intro x y hxy
  cases hxy with
  | left a b hlt => exact (htag _ _ hlt).append _ _
  | right a b hlt => exact (hpayload _ _ _ hlt).prepend _

/-- Codes written one after the other are in the order of the lists. -/
theorem flatMap_lt_iff (h : OrderedCode encode) (hne : ∀ x, encode x ≠ [])
    {xs ys : List α} : xs.flatMap encode < ys.flatMap encode ↔ xs < ys := by
  induction xs generalizing ys with
  | nil =>
      cases ys with
      | nil => simp
      | cons y ys =>
          rw [List.flatMap_nil, List.flatMap_cons]
          exact iff_of_true (nil_lt_append (hne y) _) (List.nil_lt_cons y ys)
  | cons x xs ih =>
      cases ys with
      | nil =>
          rw [List.flatMap_nil]
          exact iff_of_false (List.not_lt_nil _) (List.not_lt_nil _)
      | cons y ys =>
          rw [List.flatMap_cons, List.flatMap_cons, h.append_lt_append_iff, ih,
            List.cons_lt_cons_iff]

/-- One list of codes starts with another when the one list starts with the
other. -/
theorem flatMap_prefix_iff (h : OrderedCode encode) (hne : ∀ x, encode x ≠ [])
    {xs ys : List α} :
    xs.flatMap encode <+: ys.flatMap encode ↔ xs <+: ys := by
  induction xs generalizing ys with
  | nil => simp
  | cons x xs ih =>
      cases ys with
      | nil =>
          rw [List.flatMap_nil, List.flatMap_cons, List.prefix_nil,
            List.append_eq_nil_iff]
          exact iff_of_false (fun hnil => hne x hnil.1) (by simp)
      | cons y ys =>
          rw [List.flatMap_cons, List.flatMap_cons, h.prefix_append_iff, ih,
            List.cons_prefix_cons]

end OrderedCode

/-! ## Lists with a common prefix -/

theorem le_append (a c : List β) : a ≤ a ++ c := by
  induction a with
  | nil => exact not_lt.mp (List.not_lt_nil _)
  | cons x a ih => exact List.cons_le_cons x ih

theorem le_of_prefix {p a : List β} (h : p <+: a) : p ≤ a := by
  obtain ⟨rest, rfl⟩ := h
  exact le_append p rest

/-- The lists that start with `p` are an interval of the order that `p`
starts. -/
theorem prefix_of_le_of_le {p a c : List β} (hc : p <+: c) (hpa : p ≤ a)
    (hac : a ≤ c) : p <+: a := by
  induction p generalizing a c with
  | nil => exact List.nil_prefix
  | cons x p ih =>
      obtain ⟨rest, rfl⟩ := hc
      cases a with
      | nil => exact absurd hpa (by simp)
      | cons y a =>
          have hle {u v : β} {us vs : List β} (h : u :: us ≤ v :: vs) :
              u < v ∨ u = v ∧ us ≤ vs := by
            rcases h.lt_or_eq with hlt | heq
            · rcases List.cons_lt_cons_iff.mp hlt with h | ⟨h, h'⟩
              · exact .inl h
              · exact .inr ⟨h, h'.le⟩
            · obtain ⟨h, h'⟩ := List.cons.inj heq
              exact .inr ⟨h, h'.le⟩
          rcases hle hpa with hxy | ⟨rfl, hbelow⟩
          · rcases hle hac with hyx | ⟨hyx, -⟩
            · exact absurd hyx hxy.not_gt
            · exact absurd hyx hxy.ne'
          · rcases hle hac with hxx | ⟨-, habove⟩
            · exact absurd hxx (lt_irrefl x)
            · exact List.cons_prefix_cons.mpr
                ⟨rfl, ih (List.prefix_append p rest) hbelow habove⟩

/-- A scan from `p` or from a start after it leaves the lists that start with
`p` for good. -/
theorem takeWhile_prefix_eq_filter (f : α → List β) {p : List β} {xs : List α}
    (hincreasing : xs.Pairwise (fun a b => f a ≤ f b))
    (hstart : ∀ x ∈ xs, p ≤ f x) :
    xs.takeWhile (fun x => p <+: f x) = xs.filter (fun x => p <+: f x) := by
  apply takeWhile_eq_filter
  rw [List.pairwise_iff_forall_sublist] at hincreasing ⊢
  intro a b hab ha
  have hmem := hab.subset (List.mem_cons_self (a := a) (l := [b]))
  simp only [decide_eq_false_iff_not] at ha ⊢
  exact fun hb => ha (prefix_of_le_of_le hb (hstart a hmem) (hincreasing hab))

/-- Of increasing lists from `p` on, those that start with `p` come first. -/
theorem takeWhile_filter_le (f : α → List β) (p : List β) {xs : List α}
    (h : xs.Pairwise (fun a b => f a < f b)) :
    (xs.filter (fun x => p ≤ f x)).takeWhile (fun x => p <+: f x) =
      xs.filter (fun x => p <+: f x) := by
  have hscan := takeWhile_prefix_eq_filter (p := p) f
    ((h.filter (fun x => decide (p ≤ f x))).imp fun hab => hab.le)
    (fun x hx => of_decide_eq_true (List.mem_filter.mp hx).2)
  rw [hscan, List.filter_filter]
  refine List.filter_congr fun x _ => ?_
  by_cases hx : p <+: f x
  · simp [hx, le_of_prefix hx]
  · simp [hx]

end Grocr.Support.Lexicographic
