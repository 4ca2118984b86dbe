import Mathlib.Data.List.Infix
import Mathlib.Data.List.TakeWhile
import Mathlib.Order.Lattice
import Mathlib.Tactic.Common
import Grocr.Support.SortedList
import Grocr.Support.SortedTable
/-!
# Cursors over sorted entries

A cursor is the part of a sorted list of entries that it has yet to pass.  It
skips some keys, and the entries that it has yet to pass are those of the other
keys that a condition calls ahead.
-/

namespace Grocr.Support

variable {κ ν : Type}

/-- The entries from a key on. -/
def Table.entriesFrom [LinearOrder κ] (t : Table κ ν) (k : κ) : List (κ × ν) :=
  t.entries.dropWhile (fun e => e.1 < k)

/-- The last entry before a key. -/
def Table.lastBefore [LinearOrder κ] (t : Table κ ν) (k : κ) :
    Option (κ × ν) :=
  (t.entries.takeWhile (fun e => e.1 < k)).getLast?

namespace Table

variable [LinearOrder κ] {t : Table κ ν} {k : κ}

theorem entriesFrom_eq_filter (t : Table κ ν) (k : κ) :
    t.entriesFrom k = t.entries.filter (fun e => k ≤ e.1) :=
  dropWhile_lt_eq_filter Prod.fst t.sorted k

theorem entriesFrom_eq_cons {e : κ × ν} {rest : List (κ × ν)}
    (h : t.entriesFrom k = e :: rest) :
    e ∈ t.entries ∧ k ≤ e.1 ∧ ∀ e' ∈ t.entries, k ≤ e'.1 → e.1 ≤ e'.1 := by
  have hsorted := t.sorted.filter (fun e => decide (k ≤ e.1))
  have hmem (e' : κ × ν) : e' ∈ e :: rest ↔ e' ∈ t.entries ∧ k ≤ e'.1 := by
    rw [← h, entriesFrom_eq_filter, List.mem_filter, decide_eq_true_eq]
  rw [← entriesFrom_eq_filter, h] at hsorted
  obtain ⟨he, hle⟩ := (hmem e).mp List.mem_cons_self
  refine ⟨he, hle, ?_⟩
  intro e' he' hle'
  rcases List.mem_cons.mp ((hmem e').mpr ⟨he', hle'⟩) with rfl | hrest
  · exact le_rfl
  · exact ((List.pairwise_cons.mp hsorted).1 e' hrest).le

theorem entriesFrom_eq_nil (h : t.entriesFrom k = []) {e : κ × ν}
    (he : e ∈ t.entries) : e.1 < k := by
  rw [entriesFrom_eq_filter, List.filter_eq_nil_iff] at h
  simpa using h e he

/-- Where nothing follows a key, the last entry is before it. -/
theorem getLast?_eq_lastBefore (h : t.entriesFrom k = []) :
    t.entries.getLast? = t.lastBefore k := by
  have hsplit := List.takeWhile_append_dropWhile
    (p := fun e : κ × ν => decide (e.1 < k)) (l := t.entries)
  rw [entriesFrom] at h
  rw [h, List.append_nil] at hsplit
  rw [lastBefore, hsplit]

theorem mem_before {e : κ × ν} :
    e ∈ t.entries.takeWhile (fun e => e.1 < k) ↔
      e ∈ t.entries ∧ e.1 < k := by
  have hfilter : t.entries.takeWhile (fun e => e.1 < k) =
      t.entries.filter (fun e => e.1 < k) := by
    apply takeWhile_eq_filter
    refine t.sorted.imp ?_
    intro a b hab ha
    rw [decide_eq_false_iff_not, not_lt] at ha ⊢
    exact ha.trans hab.le
  rw [hfilter, List.mem_filter, decide_eq_true_eq]

theorem lastBefore_eq_some {e : κ × ν} (h : t.lastBefore k = some e) :
    e ∈ t.entries ∧ e.1 < k ∧ ∀ e' ∈ t.entries, e'.1 < k → e'.1 ≤ e.1 := by
  obtain ⟨front, hfront⟩ := List.getLast?_eq_some_iff.mp h
  have hsorted := t.sorted.sublist
    (List.takeWhile_sublist (fun e => decide (e.1 < k)))
  obtain ⟨he, hlt⟩ := mem_before.mp (List.mem_of_getLast? h)
  refine ⟨he, hlt, ?_⟩
  intro e' he' hlt'
  have hmem := mem_before.mpr ⟨he', hlt'⟩
  rw [hfront] at hmem hsorted
  rcases List.mem_append.mp hmem with hin | hin
  · exact ((List.pairwise_append.mp hsorted).2.2 e' hin e
      (List.mem_singleton_self e)).le
  · rw [List.mem_singleton.mp hin]

theorem exists_lastBefore {e : κ × ν} (he : e ∈ t.entries) (hlt : e.1 < k) :
    ∃ e', t.lastBefore k = some e' := by
  have hmem := mem_before.mpr ⟨he, hlt⟩
  rw [← Option.isSome_iff_exists, lastBefore, List.getLast?_isSome]
  exact List.ne_nil_of_mem hmem

end Table

/-- The entries of `xs` left at `rest`: those ahead, less those it skips. -/
structure Cursor (xs : List (κ × ν)) (skip : κ → Bool) (ahead : κ → Prop)
    (rest : List (κ × ν)) : Prop where
  suffix : rest <:+ xs
  mem : ∀ e ∈ xs, skip e.1 = false → (e ∈ rest ↔ ahead e.1)
  /-- The cursor does not stand at a key that it skips. -/
  head : ∀ e, rest.head? = some e → skip e.1 = false

theorem mem_dropWhile_of_neg {α : Type} {p : α → Bool} {xs : List α} {x : α}
    (hx : x ∈ xs) (hp : p x = false) : x ∈ xs.dropWhile p := by
  rw [← List.takeWhile_append_dropWhile (p := p) (l := xs)] at hx
  rcases List.mem_append.mp hx with h | h
  · rw [List.mem_takeWhile_imp h] at hp
    cases hp
  · exact h

@[simp] theorem dropWhile_false {α : Type} (xs : List α) :
    xs.dropWhile (fun _ => false) = xs := by
  cases xs <;> rfl

namespace Cursor

variable {xs rest : List (κ × ν)} {skip : κ → Bool} {ahead : κ → Prop}

theorem skipping (h : rest <:+ xs)
    (hmem : ∀ e ∈ xs, skip e.1 = false → (e ∈ rest ↔ ahead e.1)) :
    Cursor xs skip ahead (rest.dropWhile (fun e => skip e.1)) where
  suffix := (List.dropWhile_suffix _).trans h
  mem e he hskip := by
    rw [← hmem e he hskip]
    constructor
    · exact fun hrest => (List.dropWhile_suffix _).subset hrest
    · exact fun hrest => mem_dropWhile_of_neg hrest hskip
  head e he := by
    have hnot := List.head?_dropWhile_not (fun e => skip e.1) rest
    rw [he] at hnot
    simpa using hnot

theorem head_mem (h : Cursor xs skip ahead rest) {e : κ × ν}
    (he : rest.head? = some e) : e ∈ xs ∧ ahead e.1 := by
  have hrest : e ∈ rest := List.mem_of_head? he
  have hmem : e ∈ xs := h.suffix.subset hrest
  exact ⟨hmem, (h.mem e hmem (h.head e he)).mp hrest⟩

variable [LinearOrder κ]

theorem seek (t : Table κ ν) (skip : κ → Bool) (k : κ) :
    Cursor t.entries skip (fun k' => k ≤ k')
      ((t.entriesFrom k).dropWhile (fun e => skip e.1)) := by
  apply skipping (List.dropWhile_suffix _)
  intro e he _
  rw [dropWhile_lt_eq_filter Prod.fst t.sorted k, List.mem_filter]
  simp [he]

/-- No entry ahead precedes the one that a cursor stands at. -/
theorem exists_le (h : Cursor xs skip ahead rest)
    (hsorted : xs.Pairwise (fun a b => a.1 < b.1)) {x : κ × ν} (hx : x ∈ xs)
    (hskip : skip x.1 = false) (hahead : ahead x.1) :
    ∃ e, rest.head? = some e ∧ e.1 ≤ x.1 := by
  have hrest := hsorted.sublist h.suffix.sublist
  have hmem := (h.mem x hx hskip).mpr hahead
  cases rest with
  | nil => cases hmem
  | cons e tail =>
      refine ⟨e, rfl, ?_⟩
      rcases List.mem_cons.mp hmem with rfl | htail
      · exact le_rfl
      · exact ((List.pairwise_cons.mp hrest).1 x htail).le

theorem advance {e : κ × ν} (h : Cursor xs skip ahead (e :: rest))
    (hsorted : xs.Pairwise (fun a b => a.1 < b.1)) :
    Cursor xs skip (fun k => e.1 < k) (rest.dropWhile (fun e => skip e.1)) := by
  obtain ⟨passed, hxs⟩ := h.suffix
  apply skipping ⟨passed ++ [e], by rw [← hxs]; simp⟩
  intro x hx _
  rw [← hxs] at hsorted hx
  obtain ⟨_, hrest, hpassed⟩ := List.pairwise_append.mp hsorted
  constructor
  · exact (List.pairwise_cons.mp hrest).1 x
  · intro hlt
    rcases List.mem_append.mp hx with hin | hin
    · exact absurd hlt (hpassed x hin e List.mem_cons_self).not_gt
    · rcases List.mem_cons.mp hin with rfl | hin
      · exact absurd hlt (lt_irrefl _)
      · exact hin

theorem stay (h : Cursor xs skip ahead rest)
    (hsorted : xs.Pairwise (fun a b => a.1 < b.1)) {k : κ}
    (hpast : ∀ e, rest.head? = some e → k < e.1)
    (hahead : ∀ k', k < k' → ahead k') :
    Cursor xs skip (fun k' => k < k') rest where
  suffix := h.suffix
  head := h.head
  mem x hx hskip := by
    rw [h.mem x hx hskip]
    constructor
    · intro hx'
      obtain ⟨e, he, hle⟩ := h.exists_le hsorted hx hskip hx'
      exact (hpast e he).trans_le hle
    · exact hahead x.1

end Cursor

end Grocr.Support
