import Mathlib.Data.Nat.Bitwise
import Mathlib.Tactic.Common
import Mathlib.Tactic.Ring
import Grocr.Support.Checked
import Grocr.Firestore.OrderedCode
/-!
# Reading back and comparing the code of the keys

What is written can be read off the front of any longer byte string, what is
read was written, and codes compare as the values do.  The search for special
bytes by words of eight finds what a search byte by byte finds.
-/

namespace Grocr.Firestore.Util.OrderedCode

open Grocr.Support Grocr.Support.Lexicographic

/-! ## Special bytes in a word -/

theorem isSpecialByte_iff (c : UInt8) :
    isSpecialByte c = true ↔ c = 0 ∨ c = 255 := by
  have hc := c.toNat_lt
  have hzero : c = 0 ↔ c.toNat = 0 := UInt8.toNat_inj.symm
  have hlast : c = 255 ↔ c.toNat = 255 := UInt8.toNat_inj.symm
  have hsum : (c + 1).toNat = (c.toNat + 1) % 256 := UInt8.toNat_add c 1
  unfold isSpecialByte
  rw [decide_eq_true_eq, UInt8.lt_iff_toNat_lt, hsum, hzero, hlast]
  change (c.toNat + 1) % 256 < 2 ↔ _
  omega

/-- The number whose `n` bytes are 1. -/
def ones : Nat → Nat
  | 0 => 0
  | n + 1 => 1 + 256 * ones n

/-- The test for special bytes, on a number of `n` bytes. -/
def wordTest (n v : Nat) : Nat :=
  (v + (256 ^ n - ones n)) % 256 ^ n &&&
    (256 ^ n - 1 - (v + ones n) % 256 ^ n) &&& 128 * ones n

theorem ones_lt (n : Nat) : ones n < 256 ^ n := by
  induction n with
  | zero => exact Nat.one_pos
  | succ n ih =>
      rw [ones, Nat.pow_succ]
      omega

theorem and_split {a b : Nat} (x y : Nat) (ha : a < 256) (hb : b < 256) :
    (a + 256 * x) &&& (b + 256 * y) = (a &&& b) + 256 * (x &&& y) := by
  have hmod : ((a + 256 * x) &&& (b + 256 * y)) % 2 ^ 8 = a &&& b := by
    rw [Nat.and_mod_two_pow]
    congr 1 <;> omega
  have hdiv : ((a + 256 * x) &&& (b + 256 * y)) / 2 ^ 8 = x &&& y := by
    rw [Nat.and_div_two_pow]
    congr 1 <;> omega
  have hsplit := Nat.mod_add_div ((a + 256 * x) &&& (b + 256 * y)) (2 ^ 8)
  rw [hmod, hdiv] at hsplit
  exact hsplit.symm

theorem wordTest_parts {n b v : Nat} (hb : b < 256) :
    wordTest (n + 1) (b + 256 * v) =
      ((b + 255) % 256 + 256 * ((v + (b + 255) / 256 +
          (256 ^ n - ones n) - 1) % 256 ^ n)) &&&
        (255 - (b + 1) % 256 + 256 * (256 ^ n - 1 -
          (v + (b + 1) / 256 + ones n) % 256 ^ n)) &&&
        (128 + 256 * (128 * ones n)) := by
  have hones := ones_lt n
  have hpow : 256 ^ (n + 1) = 256 * 256 ^ n := Nat.pow_succ'
  have hsub : (b + 256 * v + (256 ^ (n + 1) - ones (n + 1))) % 256 ^ (n + 1) =
      (b + 255) % 256 + 256 * ((v + (b + 255) / 256 +
        (256 ^ n - ones n) - 1) % 256 ^ n) := by
    have hlow : (b + 256 * v + (256 * 256 ^ n - (1 + 256 * ones n))) % 256 =
        (b + 255) % 256 := by omega
    have hhigh : (b + 256 * v + (256 * 256 ^ n - (1 + 256 * ones n))) / 256 =
        v + (b + 255) / 256 + (256 ^ n - ones n) - 1 := by omega
    rw [hpow, ones, Nat.mod_mul, hlow, hhigh]
  have hadd : (b + 256 * v + ones (n + 1)) % 256 ^ (n + 1) =
      (b + 1) % 256 + 256 * ((v + (b + 1) / 256 + ones n) % 256 ^ n) := by
    have hlow : (b + 256 * v + (1 + 256 * ones n)) % 256 = (b + 1) % 256 := by
      omega
    have hhigh : (b + 256 * v + (1 + 256 * ones n)) / 256 =
        v + (b + 1) / 256 + ones n := by omega
    rw [hpow, ones, Nat.mod_mul, hlow, hhigh]
  have hlt := Nat.mod_lt (v + (b + 1) / 256 + ones n)
    (Nat.pow_pos (n := n) (by decide : 0 < 256))
  have hnot : 256 * 256 ^ n - 1 - ((b + 1) % 256 +
      256 * ((v + (b + 1) / 256 + ones n) % 256 ^ n)) =
      255 - (b + 1) % 256 + 256 * (256 ^ n - 1 -
        (v + (b + 1) / 256 + ones n) % 256 ^ n) := by omega
  have hhighs : 128 * (1 + 256 * ones n) = 128 + 256 * (128 * ones n) := by
    ring
  unfold wordTest
  rw [hsub, hadd, hpow, hnot, ones, hhighs]

theorem wordTest_special {n b v : Nat} (hb : b = 0 ∨ b = 255) :
    wordTest (n + 1) (b + 256 * v) ≠ 0 := by
  have hlow : wordTest (n + 1) (b + 256 * v) % 2 ^ 8 = 128 := by
    rw [wordTest_parts (by omega), Nat.and_mod_two_pow, Nat.and_mod_two_pow]
    rcases hb with rfl | rfl <;> simp [Nat.add_mul_mod_self_left]
  intro hzero
  rw [hzero] at hlow
  exact absurd hlow (by decide)

theorem wordTest_normal {n b v : Nat} (hlow : 0 < b) (hhigh : b < 255) :
    wordTest (n + 1) (b + 256 * v) = 256 * wordTest n v := by
  have hones := ones_lt n
  have hnone : (b + 255) % 256 &&& (255 - (b + 1) % 256) &&& 128 = 0 := by
    have hsmall : (b + 255) % 256 &&& (255 - (b + 1) % 256) < 2 ^ 7 := by
      by_cases hb : b ≤ 128
      · refine Nat.lt_of_le_of_lt Nat.and_le_left ?_
        omega
      · refine Nat.lt_of_le_of_lt Nat.and_le_right ?_
        omega
    change _ &&& 2 ^ 7 = 0
    rw [Nat.and_two_pow, Nat.testBit_lt_two_pow hsmall]
    rfl
  rw [wordTest_parts (by omega), and_split _ _ (by omega) (by omega),
    and_split _ _ (by
      refine Nat.lt_of_le_of_lt Nat.and_le_left ?_
      omega) (by decide), hnone, Nat.zero_add]
  unfold wordTest
  have hcarry : (b + 255) / 256 = 1 := by omega
  have hnocarry : (b + 1) / 256 = 0 := by omega
  rw [hcarry, hnocarry, Nat.add_zero]
  congr 4
  omega

theorem littleEndian_cons (c : UInt8) (s : Bytes) :
    littleEndian (c :: s) = c.toNat + 256 * littleEndian s := by
  have hsingle : Bytes.value [c] = c.toNat := by simp [Bytes.value]
  rw [littleEndian, List.reverse_cons, Bytes.value_append, hsingle,
    List.length_singleton, littleEndian]
  ring

theorem littleEndian_lt (s : Bytes) : littleEndian s < 256 ^ s.length := by
  have h := Bytes.value_lt s.reverse
  rwa [List.length_reverse] at h

theorem wordTest_iff (s : Bytes) :
    wordTest s.length (littleEndian s) ≠ 0 ↔
      ∃ c ∈ s, isSpecialByte c = true := by
  induction s with
  | nil => simp [wordTest, ones]
  | cons c s ih =>
      have hexists : (∃ x ∈ c :: s, isSpecialByte x = true) ↔
          (c = 0 ∨ c = 255) ∨ wordTest s.length (littleEndian s) ≠ 0 := by
        rw [ih, ← isSpecialByte_iff]
        simp
      rw [littleEndian_cons, List.length_cons, hexists]
      by_cases hc : c = 0 ∨ c = 255
      · refine iff_of_true (wordTest_special ?_) (.inl hc)
        rcases hc with rfl | rfl
        · exact .inl rfl
        · exact .inr rfl
      · have hlt := c.toNat_lt
        have hzero : c.toNat ≠ 0 := fun h => hc (.inl (UInt8.toNat_inj.mp h))
        have hlast : c.toNat ≠ 255 := fun h => hc (.inr (UInt8.toNat_inj.mp h))
        rw [wordTest_normal (by omega) (by omega)]
        simp [hc]

/-! ## The search by words -/

theorem littleEndian_append (s t : Bytes) :
    littleEndian (s ++ t) = littleEndian s + 256 ^ s.length * littleEndian t := by
  unfold littleEndian
  rw [List.reverse_append, Bytes.value_append, List.length_reverse]
  ring

theorem toNat_test {n w : Nat} (hw : 2 ^ w = 256 ^ n) {y z : BitVec w}
    (hy : y.toNat = ones n) (hz : z.toNat = 128 * ones n) (v : BitVec w) :
    ((v - y) &&& ~~~(v + y) &&& z).toNat = wordTest n v.toNat := by
  rw [BitVec.toNat_and, BitVec.toNat_and, BitVec.toNat_not, BitVec.toNat_sub,
    BitVec.toNat_add, hw, hy, hz, Nat.add_comm (256 ^ n - ones n)]
  rfl

theorem test_iff {n w : Nat} (hw : 2 ^ w = 256 ^ n) {y z : BitVec w}
    (hy : y.toNat = ones n) (hz : z.toNat = 128 * ones n) {s : Bytes}
    (hs : s.length = n) :
    (BitVec.ofNat w (littleEndian s) - y) &&&
        ~~~(BitVec.ofNat w (littleEndian s) + y) &&& z ≠ 0 ↔
      ∃ c ∈ s, isSpecialByte c = true := by
  have hlt := littleEndian_lt s
  rw [hs, ← hw] at hlt
  have hzero : (0 : BitVec w).toNat = 0 := BitVec.toNat_zero ..
  rw [← wordTest_iff, Ne, ← BitVec.toNat_inj, toNat_test hw hy hz, hzero,
    BitVec.toNat_ofNat, Nat.mod_eq_of_lt hlt, hs]

theorem hasZeroOr255Byte_iff {p : Bytes} (h : 8 ≤ p.length) :
    hasZeroOr255Byte (unalignedLoad64 p) = true ↔
      ∃ c ∈ p.take 8, isSpecialByte c = true := by
  have hlength : (p.take 8).length = 8 := by
    rw [List.length_take]
    omega
  unfold hasZeroOr255Byte unalignedLoad64
  rw [decide_eq_true_eq]
  exact test_iff (by decide) (by decide) (by decide) hlength

theorem advanceIfNoSpecialBytes_eq {p : Bytes} (h : 4 ≤ p.length) :
    advanceIfNoSpecialBytes (unalignedLoad32 p) =
      if ∃ c ∈ p.take 4, isSpecialByte c = true then 0 else 4 := by
  have hlength : (p.take 4).length = 4 := by
    rw [List.length_take]
    omega
  unfold advanceIfNoSpecialBytes unalignedLoad32
  congr 1
  exact propext (test_iff (by decide) (by decide) (by decide) hlength)

theorem setWidth_unalignedLoad64 {p : Bytes} (h : 4 ≤ p.length) :
    (unalignedLoad64 p).setWidth 32 = unalignedLoad32 p := by
  have hsplit : p.take (4 + 4) = p.take 4 ++ (p.drop 4).take 4 := List.take_add
  have hlength : (p.take 4).length = 4 := by
    rw [List.length_take]
    omega
  unfold unalignedLoad64 unalignedLoad32
  rw [BitVec.setWidth_ofNat_of_le (by decide), hsplit, littleEndian_append,
    hlength, ← BitVec.toNat_inj, BitVec.toNat_ofNat, BitVec.toNat_ofNat]
  omega

theorem findIdx_skip {p : Bytes} {k : Nat} (hk : k ≤ p.length)
    (h : ¬ ∃ c ∈ p.take k, isSpecialByte c = true) :
    k + (p.drop k).findIdx isSpecialByte = p.findIdx isSpecialByte := by
  have hlength : (p.take k).length = k := by
    rw [List.length_take]
    omega
  have hnone : (p.take k).findIdx isSpecialByte = (p.take k).length :=
    List.findIdx_eq_length.mpr fun c hc =>
      Bool.eq_false_iff.mpr fun hspecial => h ⟨c, hc, hspecial⟩
  have hsplit : (p.take k ++ p.drop k).findIdx isSpecialByte =
      if (p.take k).findIdx isSpecialByte < (p.take k).length then
        (p.take k).findIdx isSpecialByte
      else (p.drop k).findIdx isSpecialByte + (p.take k).length :=
    List.findIdx_append
  rw [List.take_append_drop, hnone, if_neg (by omega), hlength] at hsplit
  omega

theorem findIdx_take_three {p : Bytes} (h : ∃ c ∈ p.take 4,
    isSpecialByte c = true) :
    (p.take 3).findIdx isSpecialByte = p.findIdx isSpecialByte := by
  match p with
  | [] => rfl
  | [a] => rfl
  | [a, b] => rfl
  | [a, b, c] => rfl
  | a :: b :: c :: d :: rest =>
      simp only [List.take_succ_cons, List.take_zero, List.mem_cons,
        List.not_mem_nil, or_false, exists_eq_or_imp, exists_eq_left] at h
      simp only [List.take_succ_cons, List.take_zero, List.findIdx_cons,
        List.findIdx_nil]
      cases ha : isSpecialByte a with
      | true => rfl
      | false =>
          cases hb : isSpecialByte b with
          | true => rfl
          | false =>
              cases hc : isSpecialByte c with
              | true => rfl
              | false =>
                  have hd : isSpecialByte d = true := by simpa [ha, hb, hc] using h
                  rw [hd]
                  rfl

theorem skipRest_eq (p : Bytes) : skipRest p = p.findIdx isSpecialByte := by
  unfold skipRest
  by_cases h : 4 ≤ p.length
  · rw [if_pos h, advanceIfNoSpecialBytes_eq h]
    split
    next => simp
    next hnone => exact findIdx_skip h hnone
  · rw [if_neg h]
    simp

theorem skipWords_eq (words : Nat) (p : Bytes) (h : 8 * words ≤ p.length) :
    skipWords words p = p.findIdx isSpecialByte := by
  induction words generalizing p with
  | zero => exact skipRest_eq p
  | succ words ih =>
      have hword : 8 ≤ p.length := by omega
      rw [skipWords, setWidth_unalignedLoad64 (by omega),
        advanceIfNoSpecialBytes_eq (by omega)]
      by_cases hspecial : ∃ c ∈ p.take 8, isSpecialByte c = true
      · rw [if_pos ((hasZeroOr255Byte_iff hword).mpr hspecial)]
        split
        next hfirst =>
          have hthree := findIdx_take_three hfirst
          simpa using hthree
        next hfirst =>
          have hsplit : p.take (4 + 4) = p.take 4 ++ (p.drop 4).take 4 := List.take_add
          have hsecond : ∃ c ∈ (p.drop 4).take 4, isSpecialByte c = true := by
            obtain ⟨c, hc, hcspecial⟩ := hspecial
            rw [hsplit, List.mem_append] at hc
            refine ⟨c, hc.resolve_left fun hin => ?_, hcspecial⟩
            exact hfirst ⟨c, hin, hcspecial⟩
          have hthree := findIdx_take_three hsecond
          change 4 + ((p.drop 4).take 3).findIdx isSpecialByte = _
          rw [hthree]
          exact findIdx_skip (by omega) hfirst
      · rw [if_neg fun htest =>
            hspecial ((hasZeroOr255Byte_iff hword).mp htest),
          ih (p.drop 8) (by rw [List.length_drop]; omega)]
        exact findIdx_skip hword hspecial

/-- The search by words finds what a search byte by byte finds. -/
theorem skipToNextSpecialByte_eq (p : Bytes) :
    skipToNextSpecialByte p = p.findIdx isSpecialByte := by
  apply skipWords_eq
  omega

/-- The search by words stops at the first byte 0 or 255, or at the end. -/
theorem skipToNextSpecialByte_first (p : Bytes) :
    skipToNextSpecialByte p ≤ p.length ∧
      (∀ i c, i < skipToNextSpecialByte p → p[i]? = some c →
        c ≠ 0 ∧ c ≠ 255) ∧
      ∀ c, p[skipToNextSpecialByte p]? = some c → c = 0 ∨ c = 255 := by
  rw [skipToNextSpecialByte_eq]
  refine ⟨List.findIdx_le_length, ?_, ?_⟩
  · intro i c hi hc
    have hnormal := List.not_of_lt_findIdx hi
    obtain ⟨hlt, rfl⟩ := List.getElem?_eq_some_iff.mp hc
    have hnot : ¬ (p[i] = 0 ∨ p[i] = 255) := by
      rw [← isSpecialByte_iff, hnormal]
      decide
    exact not_or.mp hnot
  · intro c hc
    obtain ⟨hlt, rfl⟩ := List.getElem?_eq_some_iff.mp hc
    exact (isSpecialByte_iff _).mp (List.findIdx_getElem (w := hlt))

theorem skipToNextSpecialByte_first_apple :
    skipToNextSpecialByte [97, 112, 112, 108, 101, 0, 1] ≤ 7 :=
  (skipToNextSpecialByte_first [97, 112, 112, 108, 101, 0, 1]).1

/-! ## Strings -/

def escape (c : UInt8) : Bytes :=
  if c = 0 then [0, 255] else if c = 255 then [255, 0] else [c]

theorem escape_normal {c : UInt8} (h : isSpecialByte c = false) :
    escape c = [c] := by
  have hnot : ¬ (c = 0 ∨ c = 255) := by
    rw [← isSpecialByte_iff, h]
    exact Bool.false_ne_true
  rw [escape, if_neg fun hc => hnot (.inl hc), if_neg fun hc => hnot (.inr hc)]

theorem flatMap_escape_normal {s : Bytes}
    (h : ∀ c ∈ s, isSpecialByte c = false) : s.flatMap escape = s := by
  induction s with
  | nil => rfl
  | cons c s ih =>
      obtain ⟨hc, hs⟩ := List.forall_mem_cons.mp h
      rw [List.flatMap_cons, escape_normal hc, ih hs]
      rfl

/-- The first special byte of a string with what precedes and what follows
it. -/
theorem special_cases (s : Bytes) : (∀ c ∈ s, isSpecialByte c = false) ∨
    ∃ t c rest, s = t ++ c :: rest ∧ (∀ x ∈ t, isSpecialByte x = false) ∧
      isSpecialByte c = true := by
  induction s with
  | nil => exact .inl (by simp)
  | cons x s ih =>
      cases hx : isSpecialByte x with
      | true => exact .inr ⟨[], x, s, rfl, by simp, hx⟩
      | false =>
          rcases ih with hs | ⟨t, c, rest, rfl, ht, hc⟩
          · exact .inl (List.forall_mem_cons.mpr ⟨hx, hs⟩)
          · exact .inr ⟨x :: t, c, rest, rfl,
              List.forall_mem_cons.mpr ⟨hx, ht⟩, hc⟩

/-- Induction from one special byte to the next. -/
theorem special_induction {P : Bytes → Prop}
    (hnormal : ∀ s, (∀ c ∈ s, isSpecialByte c = false) → P s)
    (hspecial : ∀ t c rest, (∀ x ∈ t, isSpecialByte x = false) →
      isSpecialByte c = true → P rest → P (t ++ c :: rest)) (s : Bytes) :
    P s := by
  rcases special_cases s with hs | ⟨t, c, rest, rfl, ht, hc⟩
  · exact hnormal s hs
  · exact hspecial t c rest ht hc (special_induction hnormal hspecial rest)
termination_by s.length
decreasing_by
  rename_i hs _
  rw [hs, List.length_append, List.length_cons]
  omega

theorem skip_normal {s : Bytes} (h : ∀ c ∈ s, isSpecialByte c = false) :
    skipToNextSpecialByte s = s.length := by
  rw [skipToNextSpecialByte_eq, List.findIdx_eq_length]
  exact h

theorem skip_special {t rest : Bytes} {c : UInt8}
    (ht : ∀ x ∈ t, isSpecialByte x = false) (hc : isSpecialByte c = true) :
    skipToNextSpecialByte (t ++ c :: rest) = t.length := by
  have hnone : t.findIdx isSpecialByte = t.length :=
    List.findIdx_eq_length.mpr ht
  rw [skipToNextSpecialByte_eq, List.findIdx_append, hnone,
    if_neg (Nat.lt_irrefl _), List.findIdx_cons, hc]
  exact Nat.zero_add _

theorem encodeStringFragment_normal {s : Bytes}
    (h : ∀ c ∈ s, isSpecialByte c = false) : encodeStringFragment s = s := by
  rw [encodeStringFragment]
  split
  next => rfl
  next c rest hdrop =>
    rw [skip_normal h, List.drop_length] at hdrop
    cases hdrop

theorem encodeStringFragment_special {t rest : Bytes} {c : UInt8}
    (ht : ∀ x ∈ t, isSpecialByte x = false) (hc : isSpecialByte c = true) :
    encodeStringFragment (t ++ c :: rest) =
      t ++ escape c ++ encodeStringFragment rest := by
  have hescape : (if c = kEscape1 then [kEscape1, kNullCharacter]
      else [kEscape2, kFFCharacter]) = escape c := by
    rcases (isSpecialByte_iff c).mp hc with rfl | rfl <;> rfl
  rw [encodeStringFragment]
  split
  next hdrop =>
    rw [skip_special ht hc, List.drop_left] at hdrop
    cases hdrop
  next c' rest' hdrop =>
    rw [skip_special ht hc, List.drop_left] at hdrop
    obtain ⟨rfl, rfl⟩ := List.cons.inj hdrop
    rw [skip_special ht hc, List.take_left, hescape]

/-- Writing a string escapes its bytes. -/
theorem encodeStringFragment_eq (s : Bytes) :
    encodeStringFragment s = s.flatMap escape := by
  apply special_induction _ _ s
  · intro s hs
    rw [encodeStringFragment_normal hs, flatMap_escape_normal hs]
  · intro t c rest ht hc ih
    rw [encodeStringFragment_special ht hc, ih, List.flatMap_append,
      List.flatMap_cons, flatMap_escape_normal ht, List.append_assoc]

theorem writeString_eq (s : Bytes) :
    writeString s = s.flatMap escape ++ [0, 1] := by
  rw [writeString, encodeStringFragment_eq]
  rfl

theorem readString_special {t rest : Bytes} {c next : UInt8}
    (ht : ∀ x ∈ t, isSpecialByte x = false) (hc : isSpecialByte c = true) :
    readString (t ++ c :: next :: rest) =
      if c = kEscape1 then
        if next = kSeparator then .ok (t, rest)
        else if next = kNullCharacter then
          (readString rest).map fun e => (t ++ 0 :: e.1, e.2)
        else .error .failed
      else if next = kFFCharacter then
        (readString rest).map fun e => (t ++ 0xff :: e.1, e.2)
      else .error .failed := by
  have hlast : (t ++ c :: next :: rest).dropLast =
      t ++ c :: (next :: rest).dropLast := by
    rw [List.dropLast_append_of_ne_nil (List.cons_ne_nil _ _)]
    rfl
  have hskip : skipToNextSpecialByte (t ++ c :: next :: rest).dropLast =
      t.length := by
    rw [hlast, skip_special ht hc]
  rw [readString]
  split
  next c' next' rest' hdrop =>
    rw [hskip, List.drop_left] at hdrop
    cases hdrop
    rw [hskip, List.take_left]
  next hdrop =>
    rw [hskip, List.drop_left] at hdrop
    exact absurd rfl (hdrop c next rest)

theorem readString_normal {src : Bytes}
    (h : ∀ c ∈ src.dropLast, isSpecialByte c = false) :
    readString src = .error .failed := by
  have hskip := skip_normal h
  rw [readString]
  split
  next c next rest hdrop =>
    have hlength := congrArg List.length hdrop
    rw [hskip, List.length_drop, List.length_dropLast, List.length_cons,
      List.length_cons] at hlength
    omega
  next => rfl

/-- A string that was written can be read off the front. -/
theorem readString_writeString (s rest : Bytes) :
    readString (writeString s ++ rest) = .ok (s, rest) := by
  rw [writeString_eq]
  apply special_induction (P := fun s =>
    readString (s.flatMap escape ++ [0, 1] ++ rest) = .ok (s, rest)) _ _ s
  · intro s hs
    rw [flatMap_escape_normal hs, List.append_assoc]
    exact readString_special hs rfl
  · intro t c s ht hc ih
    rw [List.flatMap_append, List.flatMap_cons, flatMap_escape_normal ht]
    rcases (isSpecialByte_iff c).mp hc with rfl | rfl
    · have hsplit : t ++ (escape 0 ++ s.flatMap escape) ++ [0, 1] ++ rest =
          t ++ 0 :: 255 :: (s.flatMap escape ++ [0, 1] ++ rest) := by
        simp [escape]
      rw [hsplit, readString_special ht rfl, ih]
      rfl
    · have hsplit : t ++ (escape 255 ++ s.flatMap escape) ++ [0, 1] ++ rest =
          t ++ 255 :: 0 :: (s.flatMap escape ++ [0, 1] ++ rest) := by
        simp [escape]
      rw [hsplit, readString_special ht rfl, ih]
      rfl

theorem writeString_special {t s : Bytes} {c : UInt8}
    (ht : ∀ x ∈ t, isSpecialByte x = false) :
    writeString (t ++ c :: s) = t ++ escape c ++ writeString s := by
  rw [writeString_eq, writeString_eq, List.flatMap_append, List.flatMap_cons,
    flatMap_escape_normal ht]
  simp only [List.append_assoc]

/-- Only what was written is read. -/
theorem writeString_of_readString {src s rest : Bytes}
    (h : readString src = .ok (s, rest)) : src = writeString s ++ rest := by
  induction hn : src.length using Nat.strong_induction_on generalizing src s
  rename_i n ih
  have hfailed {src : Bytes} (hsrc : ∀ c ∈ src.dropLast,
      isSpecialByte c = false) : readString src ≠ .ok (s, rest) := by
    rw [readString_normal hsrc]
    exact nofun
  rcases special_cases src with hsrc | ⟨t, c, tail, rfl, ht, hc⟩
  · exact absurd h (hfailed fun c hc => hsrc c (List.mem_of_mem_dropLast hc))
  · cases tail with
    | nil =>
        refine absurd h (hfailed fun x hx => ht x ?_)
        rwa [List.dropLast_concat] at hx
    | cons next tail =>
        rw [readString_special ht hc] at h
        have hread {b : UInt8} (hb : (readString tail).map
            (fun e => (t ++ b :: e.1, e.2)) = .ok (s, rest)) :
            ∃ s', s = t ++ b :: s' ∧ tail = writeString s' ++ rest := by
          obtain ⟨⟨s', rest'⟩, htail, heq⟩ := Checked.map_eq_ok.mp hb
          cases heq
          refine ⟨s', rfl, ih tail.length ?_ htail rfl⟩
          rw [← hn, List.length_append, List.length_cons, List.length_cons]
          omega
        rcases (isSpecialByte_iff c).mp hc with rfl | rfl
        · have hescape : (0 : UInt8) = kEscape1 := rfl
          rw [if_pos hescape] at h
          by_cases hsep : next = kSeparator
          · rw [if_pos hsep] at h
            cases h
            rw [hsep, writeString_eq, flatMap_escape_normal ht]
            simp [kSeparator]
          · rw [if_neg hsep] at h
            by_cases hnull : next = kNullCharacter
            · rw [if_pos hnull] at h
              obtain ⟨s', rfl, rfl⟩ := hread h
              rw [hnull, writeString_special ht]
              simp [escape, kNullCharacter]
            · rw [if_neg hnull] at h
              cases h
        · rw [if_neg (by decide)] at h
          by_cases hff : next = kFFCharacter
          · rw [if_pos hff] at h
            obtain ⟨s', rfl, rfl⟩ := hread h
            rw [hff, writeString_special ht]
            simp [escape, kFFCharacter]
          · rw [if_neg hff] at h
            cases h

theorem before_escape {c d : UInt8} (h : c < d) (r s : Bytes) :
    Before (escape c ++ r) (escape d ++ s) := by
  have hlt := UInt8.lt_iff_toNat_lt.mp h
  have hd : d ≠ 0 := by
    rintro rfl
    exact Nat.not_lt_zero _ hlt
  have hc : c ≠ 255 := by
    rintro rfl
    exact absurd d.toNat_lt (Nat.not_lt.mpr hlt)
  have hhead {x : UInt8} (hx : x ≠ 0) : ∃ tail, escape x = x :: tail := by
    unfold escape
    rw [if_neg hx]
    split
    next heq => exact ⟨[0], by rw [heq]⟩
    next => exact ⟨[], rfl⟩
  obtain ⟨tail, htail⟩ := hhead hd
  by_cases hzero : c = 0
  · rw [hzero, htail]
    exact before_of_lt (hzero ▸ h) _ _
  · have hsingle : escape c = [c] := by
      rw [escape, if_neg hzero, if_neg hc]
    rw [hsingle, htail]
    exact before_of_lt h _ _

theorem before_terminator (d : UInt8) (r s : Bytes) :
    Before ([0, 1] ++ r) (escape d ++ s) := by
  unfold escape
  split
  next => exact (before_of_lt (by decide) r s).prepend [0]
  next hd =>
    have hpos : (0 : UInt8) < d := lt_of_le_of_ne (Nat.zero_le _) (Ne.symm hd)
    split
    next => exact before_of_lt (by decide) _ _
    next => exact before_of_lt hpos _ _

theorem writeString_ordered : OrderedCode writeString := by
  intro s t hst
  rw [writeString_eq, writeString_eq]
  induction s generalizing t with
  | nil =>
      cases t with
      | nil => exact absurd hst (lt_irrefl _)
      | cons d t =>
          have hbefore := before_terminator d [] (t.flatMap escape ++ [0, 1])
          simpa using hbefore
  | cons c s ih =>
      cases t with
      | nil => exact absurd hst (List.not_lt_nil _)
      | cons d t =>
          rw [List.flatMap_cons, List.flatMap_cons, List.append_assoc,
            List.append_assoc]
          rcases List.cons_lt_cons_iff.mp hst with hcd | ⟨rfl, hrest⟩
          · exact before_escape hcd _ _
          · exact (ih t hrest).prepend _

end Grocr.Firestore.Util.OrderedCode
