import Mathlib.Data.List.Basic
import Mathlib.Data.List.Nodup
import Mathlib.Data.List.Perm.Basic
import Mathlib.Tactic.Common
/-!
# Two parallel lists

Records are kept as two lists, one for each field, and the fields of a record
are appended to their lists independently.  A record is intact when its fields
stand at one position.
-/

namespace Grocr.Support

variable {ι α β : Type*}

/-- In a list without repetitions the value appended for the `k`-th record
stands only at its place. -/
theorem eq_of_getElem?_append_map {P : List ι} {xs : List α} {f : ι → α}
    (h : (xs ++ P.map f).Nodup) {i : ι} {k n : Nat} (hk : P[k]? = some i)
    (hn : (xs ++ P.map f)[n]? = some (f i)) : n = xs.length + k := by
  have hplace : (xs ++ P.map f)[xs.length + k]? = some (f i) := by
    rw [List.getElem?_append_right (by omega), Nat.add_sub_cancel_left,
      List.getElem?_map, hk, Option.map_some]
  have hlt : n < (xs ++ P.map f).length := (List.getElem?_eq_some_iff.mp hn).1
  exact (List.getElem?_inj hlt h).mp (hn.trans hplace.symm)

/-- Every appended record is intact exactly when both fields were appended in
the same order. -/
theorem intact_iff_eq {P D : List ι} {xs : List α} {ys : List β} {f : ι → α}
    {g : ι → β} (hlength : xs.length = ys.length)
    (hP : (xs ++ P.map f).Nodup) (hD : (ys ++ D.map g).Nodup)
    (hmem : ∀ i, i ∈ P ↔ i ∈ D) :
    (∀ i ∈ P, ∃ n : Nat, (xs ++ P.map f)[n]? = some (f i) ∧
        (ys ++ D.map g)[n]? = some (g i)) ↔ P = D := by
  have hnodupP : P.Nodup := (List.nodup_append.mp hP).2.1.of_map
  have hnodupD : D.Nodup := (List.nodup_append.mp hD).2.1.of_map
  have hperm : P.Perm D := (List.perm_ext_iff_of_nodup hnodupP hnodupD).mpr hmem
  constructor
  · intro h
    apply List.ext_getElem?
    intro k
    rcases Nat.lt_or_ge k P.length with hk | hk
    · have hi : P[k]? = some P[k] := List.getElem?_eq_getElem hk
      obtain ⟨n, hn, hn'⟩ := h P[k] (List.getElem_mem hk)
      have hplace : n = xs.length + k := eq_of_getElem?_append_map hP hi hn
      obtain ⟨j, hj⟩ := List.mem_iff_getElem?.mp
        ((hmem P[k]).mp (List.getElem_mem hk))
      have hplace' : n = ys.length + j := eq_of_getElem?_append_map hD hj hn'
      have hjk : j = k := by omega
      rw [hi, ← hj, hjk]
    · have hk' : D.length ≤ k := hperm.length_eq ▸ hk
      rw [List.getElem?_eq_none hk, List.getElem?_eq_none hk']
  · rintro rfl i hi
    obtain ⟨k, hk⟩ := List.mem_iff_getElem?.mp hi
    refine ⟨xs.length + k, ?_, ?_⟩
    · rw [List.getElem?_append_right (by omega), Nat.add_sub_cancel_left,
        List.getElem?_map, hk, Option.map_some]
    · rw [hlength, List.getElem?_append_right (by omega),
        Nat.add_sub_cancel_left, List.getElem?_map, hk, Option.map_some]

end Grocr.Support
