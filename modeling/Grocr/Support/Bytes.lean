import Mathlib.Data.List.Lex
import Mathlib.Tactic.Common
import Mathlib.Tactic.Ring
import Grocr.Support.Lexicographic
/-!
# Byte strings

Byte strings in the order of `memcmp`, the numbers that they spell with the
highest byte first, and the complement of a byte string.
-/

namespace Grocr.Support

instance byteOrder : LinearOrder UInt8 where
  le_refl a := UInt8.le_refl a
  le_trans a b c := UInt8.le_trans
  le_antisymm a b := UInt8.le_antisymm
  le_total := UInt8.le_total
  lt_iff_le_not_ge a b := by
    rw [UInt8.lt_iff_toNat_lt, UInt8.le_iff_toNat_le, UInt8.le_iff_toNat_le]
    omega
  toDecidableLE := inferInstance
  toDecidableEq := inferInstance
  toDecidableLT := inferInstance

abbrev Bytes := List UInt8

namespace Bytes

/-! ## Numbers -/

/-- The number that bytes spell, highest byte first. -/
def value (s : Bytes) : Nat := s.foldl (fun acc b => acc * 256 + b.toNat) 0

def bigEndian : Nat → Nat → Bytes
  | 0, _ => []
  | n + 1, v => UInt8.ofNat (v / 256 ^ n) :: bigEndian n v

theorem foldl_value (s : Bytes) (acc : Nat) :
    s.foldl (fun acc b => acc * 256 + b.toNat) acc =
      acc * 256 ^ s.length + value s := by
  unfold value
  induction s generalizing acc with
  | nil => simp
  | cons b s ih =>
      rw [List.foldl_cons, List.foldl_cons, ih, ih (0 * 256 + b.toNat),
        List.length_cons, Nat.pow_succ]
      ring

theorem value_cons (b : UInt8) (s : Bytes) :
    value (b :: s) = b.toNat * 256 ^ s.length + value s := by
  have h := foldl_value s b.toNat
  rw [← h, value, List.foldl_cons, Nat.zero_mul, Nat.zero_add]

theorem value_append (s t : Bytes) :
    value (s ++ t) = value s * 256 ^ t.length + value t := by
  rw [value, List.foldl_append, foldl_value, ← value]

theorem value_lt (s : Bytes) : value s < 256 ^ s.length := by
  induction s with
  | nil => exact Nat.one_pos
  | cons b s ih =>
      have hb := b.toNat_lt
      rw [value_cons, List.length_cons, Nat.pow_succ]
      have hmul : b.toNat * 256 ^ s.length ≤ 255 * 256 ^ s.length :=
        Nat.mul_le_mul_right _ (by omega)
      omega

@[simp] theorem length_bigEndian (n v : Nat) : (bigEndian n v).length = n := by
  induction n with
  | zero => rfl
  | succ n ih => rw [bigEndian, List.length_cons, ih]

theorem value_bigEndian (n v : Nat) : value (bigEndian n v) = v % 256 ^ n := by
  induction n with
  | zero => simp [bigEndian, value, Nat.mod_one]
  | succ n ih =>
      have hbyte : (UInt8.ofNat (v / 256 ^ n)).toNat = v / 256 ^ n % 256 :=
        UInt8.toNat_ofNat' ..
      rw [bigEndian, value_cons, hbyte, length_bigEndian, ih, Nat.pow_succ,
        Nat.mod_mul]
      ring

theorem before_of_value_lt {s t : Bytes} (hlength : s.length = t.length)
    (h : value s < value t) : Lexicographic.Before s t := by
  induction s generalizing t with
  | nil =>
      cases t with
      | nil => exact absurd h (Nat.lt_irrefl _)
      | cons c t => simp at hlength
  | cons b s ih =>
      cases t with
      | nil => simp at hlength
      | cons c t =>
          have hlength' : s.length = t.length := by simpa using hlength
          have hs := value_lt s
          have ht := value_lt t
          rw [value_cons, value_cons, ← hlength'] at h
          rw [← hlength'] at ht
          rcases lt_trichotomy b c with hbc | rfl | hcb
          · exact Lexicographic.before_of_lt hbc s t
          · exact (ih hlength' (by omega)).prepend [b]
          · have hle : c.toNat + 1 ≤ b.toNat := UInt8.lt_iff_toNat_lt.mp hcb
            have hmul := Nat.mul_le_mul_right (256 ^ s.length) hle
            rw [Nat.add_mul, Nat.one_mul] at hmul
            omega

theorem eq_of_value_eq {s t : Bytes} (hlength : s.length = t.length)
    (h : value s = value t) : s = t := by
  induction s generalizing t with
  | nil => exact (List.length_eq_zero_iff.mp hlength.symm).symm
  | cons b s ih =>
      cases t with
      | nil => simp at hlength
      | cons c t =>
          have hlength' : s.length = t.length := by simpa using hlength
          have hs := value_lt s
          have ht := value_lt t
          rw [value_cons, value_cons, ← hlength'] at h
          rw [← hlength'] at ht
          have hbc : b.toNat = c.toNat := by
            have hb := congrArg (· / 256 ^ s.length) h
            simpa [Nat.mul_add_div, Nat.div_eq_of_lt, hs, ht, Nat.mul_comm]
              using hb
          rw [hbc] at h
          rw [UInt8.toNat_inj.mp hbc, ih hlength' (by omega)]

/-! ## Complements -/

def complement (s : Bytes) : Bytes := s.map (~~~ ·)

theorem toNat_not (b : UInt8) : (~~~b).toNat = 255 - b.toNat := by
  simp [UInt8.toNat_not]

@[simp] theorem length_complement (s : Bytes) :
    (complement s).length = s.length := List.length_map _

@[simp] theorem complement_complement (s : Bytes) :
    complement (complement s) = s := by
  simp [complement, Function.comp_def]

theorem complement_injective : Function.Injective complement := by
  intro s t h
  rw [← complement_complement s, h, complement_complement]

theorem complement_append (s t : Bytes) :
    complement (s ++ t) = complement s ++ complement t := List.map_append

theorem value_complement (s : Bytes) :
    value (complement s) + value s + 1 = 256 ^ s.length := by
  induction s with
  | nil => rfl
  | cons b s ih =>
      have hb := b.toNat_lt
      have hlength := length_complement s
      rw [complement, List.map_cons, value_cons, value_cons, toNat_not,
        ← complement, hlength, List.length_cons, Nat.pow_succ]
      have hsum : (255 - b.toNat) * 256 ^ s.length + b.toNat * 256 ^ s.length =
          255 * 256 ^ s.length := by
        rw [← Nat.add_mul]
        congr 1
        omega
      omega

theorem before_complement {s t : Bytes} (h : Lexicographic.Before s t) :
    Lexicographic.Before (complement t) (complement s) := by
  obtain ⟨common, x, y, r, r', rfl, rfl, hxy⟩ := h
  refine ⟨complement common, ~~~y, ~~~x, complement r', complement r, ?_, ?_,
    ?_⟩
  · simp [complement]
  · simp [complement]
  · have hlt := UInt8.lt_iff_toNat_lt.mp hxy
    have hy := y.toNat_lt
    rw [UInt8.lt_iff_toNat_lt, toNat_not, toNat_not]
    omega

end Bytes

end Grocr.Support
