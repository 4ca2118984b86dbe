import Mathlib.Tactic.Common
import Mathlib.Tactic.Ring
import Grocr.Proofs.OrderedCode
/-!
# Signed numbers in the code of the keys

The code of a number that is not negative is its header and the number in one:
on `n` bytes, `n` ones followed by `7 * n` bits.  The code of a negative number
is the complement of the code of the number on the other side of zero.
-/

namespace Grocr.Firestore.Util.OrderedCode

open Grocr.Support Grocr.Support.Lexicographic

def InInt64 (val : Int) : Prop := -2 ^ 63 ≤ val ∧ val < 2 ^ 63

/-! ## The length of the code -/

theorem lt_bitCount (n : Nat) : n < 2 ^ bitCount n := by
  unfold bitCount
  split
  next h => omega
  next => exact Nat.lt_log2_self

theorem bitCount_le {n k : Nat} (h : n < 2 ^ k) : bitCount n ≤ k := by
  unfold bitCount
  split
  next => exact Nat.zero_le k
  next hn => exact (Nat.log2_lt hn).mpr h

theorem pow_le_of_bitCount {n k : Nat} (h : k < bitCount n) : 2 ^ k ≤ n := by
  unfold bitCount at h
  split at h
  next => omega
  next hn => exact (Nat.le_log2 hn).mp (by omega)

theorem kBitsToLength_eq :
    ∀ bits < 64, kBitsToLength.getD bits 0 = bits / 7 + 1 := by
  decide

def codeLength (x : Nat) : Nat := bitCount x / 7 + 1

theorem signedEncodingLength_eq {val : Int} (h : magnitude val < 2 ^ 63) :
    signedEncodingLength val = codeLength (magnitude val) := by
  have hbits := bitCount_le h
  exact kBitsToLength_eq _ (by omega)

theorem codeLength_le {x : Nat} (h : x < 2 ^ 63) : codeLength x ≤ 10 := by
  have hbits := bitCount_le h
  unfold codeLength
  omega

theorem one_le_codeLength (x : Nat) : 1 ≤ codeLength x := by
  unfold codeLength
  omega

theorem lt_of_codeLength (x : Nat) : x < 2 ^ (7 * codeLength x - 1) := by
  have hlt := lt_bitCount x
  refine hlt.trans_le (Nat.pow_le_pow_right (by decide) ?_)
  unfold codeLength
  omega

theorem le_of_lt_codeLength {x n : Nat} (h : n < codeLength x) :
    2 ^ (7 * n - 1) ≤ x ∨ n = 0 := by
  unfold codeLength at h
  by_cases hn : n = 0
  · exact .inr hn
  · refine .inl (pow_le_of_bitCount ?_)
    omega

theorem codeLength_mono {x y : Nat} (h : x ≤ y) : codeLength x ≤ codeLength y := by
  by_contra hlt
  have hpos := one_le_codeLength y
  rcases le_of_lt_codeLength (not_le.mp hlt) with hx | hzero
  · have hy := lt_of_codeLength y
    omega
  · omega

theorem codeLength_eq_one_iff {x : Nat} : codeLength x = 1 ↔ x < 64 := by
  constructor
  · intro h
    have hlt := lt_of_codeLength x
    rwa [h] at hlt
  · intro h
    have hbits := bitCount_le (show x < 2 ^ 6 from h)
    unfold codeLength
    omega

/-! ## Headers -/

def header (n : Nat) : Nat := (2 ^ n - 1) * 2 ^ (7 * n)

/-- Bits in different places are added by an exclusive or. -/
theorem mul_xor_eq_add (m : Nat) {k b : Nat} (h : b < 2 ^ k) :
    2 ^ k * m ^^^ b = 2 ^ k * m + b := by
  apply Nat.eq_of_testBit_eq
  intro j
  have hzero : (2 ^ k * m).testBit j = if j < k then false else m.testBit (j - k) := by
    have hadd := Nat.testBit_two_pow_mul_add m (Nat.two_pow_pos k) j
    simpa using hadd
  rw [Nat.testBit_xor, Nat.testBit_two_pow_mul_add m h, hzero]
  split
  next => simp
  next hj =>
    have hlarge : b.testBit j = false :=
      Nat.testBit_lt_two_pow (h.trans_le (Nat.pow_le_pow_right (by decide)
        (by omega)))
    simp [hlarge]

theorem xor_split {a b : Nat} (x y : Nat) (ha : a < 256) (hb : b < 256) :
    (256 * x + a) ^^^ (256 * y + b) = 256 * (x ^^^ y) + (a ^^^ b) := by
  have hmod : ((256 * x + a) ^^^ (256 * y + b)) % 2 ^ 8 = a ^^^ b := by
    rw [Nat.xor_mod_two_pow]
    congr 1 <;> omega
  have hdiv : ((256 * x + a) ^^^ (256 * y + b)) / 2 ^ 8 = x ^^^ y := by
    rw [Nat.xor_div_two_pow]
    congr 1 <;> omega
  have hsplit := Nat.div_add_mod ((256 * x + a) ^^^ (256 * y + b)) (2 ^ 8)
  rw [hmod, hdiv] at hsplit
  exact hsplit.symm

/-- The header bits stand at the top of the first two bytes. -/
theorem kLengthToHeaderBits_eq : ∀ len < 11, 1 ≤ len →
    256 * (kLengthToHeaderBits.getD len (0, 0)).1.toNat +
      (kLengthToHeaderBits.getD len (0, 0)).2.toNat =
        2 ^ (16 - len) * (2 ^ len - 1) := by
  decide

theorem value_withHeader {len v : Nat} (hlow : 2 ≤ len) (hhigh : len ≤ 10)
    (hv : v < 2 ^ (7 * len - 1)) :
    Bytes.value (withHeader (kLengthToHeaderBits.getD len (0, 0))
      (Bytes.bigEndian len v)) = header len + v := by
  obtain ⟨k, rfl⟩ : ∃ k, len = k + 2 := ⟨len - 2, by omega⟩
  have hheader := kLengthToHeaderBits_eq (k + 2) (by omega) (by omega)
  generalize kLengthToHeaderBits.getD (k + 2) (0, 0) = bits at hheader
  have htop : v / 256 ^ k < 2 ^ (13 - k) := by
    rw [Nat.div_lt_iff_lt_mul (Nat.pow_pos (by decide))]
    refine hv.trans_le ?_
    rw [show 256 = 2 ^ 8 from rfl, ← Nat.pow_mul, ← Nat.pow_add]
    exact Nat.pow_le_pow_right (by decide) (by omega)
  have hpow : (2 : Nat) ^ (13 - k) ≤ 2 ^ 13 :=
    Nat.pow_le_pow_right (by decide) (by omega)
  have hfirst : (UInt8.ofNat (v / 256 ^ (k + 1))).toNat = v / 256 ^ k / 256 := by
    have htwo : v / 256 ^ k < 256 * 256 :=
      htop.trans_le (hpow.trans (by decide))
    rw [UInt8.toNat_ofNat', Nat.pow_succ, ← Nat.div_div_eq_div_mul]
    exact Nat.mod_eq_of_lt (Nat.div_lt_of_lt_mul htwo)
  have hsecond : (UInt8.ofNat (v / 256 ^ k)).toNat = v / 256 ^ k % 256 :=
    UInt8.toNat_ofNat' ..
  have hxor : 256 * (v / 256 ^ k / 256 ^^^ bits.1.toNat) +
      (v / 256 ^ k % 256 ^^^ bits.2.toNat) =
        2 ^ (14 - k) * (2 ^ (k + 2) - 1) + v / 256 ^ k := by
    have hlt : v / 256 ^ k < 2 ^ (14 - k) :=
      htop.trans_le (Nat.pow_le_pow_right (by decide) (by omega))
    have hexp : 16 - (k + 2) = 14 - k := by omega
    rw [← xor_split _ _ (Nat.mod_lt _ (by decide)) bits.2.toNat_lt, hheader,
      hexp, Nat.div_add_mod, Nat.xor_comm, mul_xor_eq_add _ hlt]
  have hrest := Bytes.value_bigEndian k v
  have hdiv := Nat.div_add_mod v (256 ^ k)
  rw [Bytes.bigEndian, Bytes.bigEndian, withHeader, Bytes.value_cons,
    Bytes.value_cons, hrest, List.length_cons, Bytes.length_bigEndian,
    UInt8.toNat_xor, UInt8.toNat_xor, hfirst, hsecond]
  have hscale : 2 ^ (14 - k) * (2 ^ (k + 2) - 1) * 256 ^ k = header (k + 2) := by
    have hpow : 2 ^ (14 - k) * 256 ^ k = 2 ^ (7 * (k + 2)) := by
      rw [show 256 = 2 ^ 8 from rfl, ← Nat.pow_mul, ← Nat.pow_add]
      congr 1
      omega
    rw [header, ← hpow]
    ring
  calc
    _ = (256 * (v / 256 ^ k / 256 ^^^ bits.1.toNat) +
          (v / 256 ^ k % 256 ^^^ bits.2.toNat)) * 256 ^ k + v % 256 ^ k := by
        ring
    _ = header (k + 2) + (256 ^ k * (v / 256 ^ k) + v % 256 ^ k) := by
        rw [hxor, Nat.add_mul, hscale]
        ring
    _ = header (k + 2) + v := by rw [hdiv]

theorem length_withHeader (bits : UInt8 × UInt8) (s : Bytes) :
    (withHeader bits s).length = s.length := by
  unfold withHeader
  split <;> rfl

/-! ## The code of a number -/

theorem magnitude_of_nonneg (x : Nat) : magnitude x = x := by
  unfold magnitude
  split <;> omega

theorem drop_bigEndian (m n v : Nat) :
    (Bytes.bigEndian (m + n) v).drop m = Bytes.bigEndian n v := by
  induction m with
  | zero => rw [Nat.zero_add, List.drop_zero]
  | succ m ih => rw [Nat.succ_add, Bytes.bigEndian, List.drop_succ_cons, ih]

theorem signExtended_of_nonneg {x : Nat} (h : x < 2 ^ 63) :
    signExtended x = Bytes.bigEndian 10 x := by
  have hmod : ((x : Int) % 2 ^ 64).toNat = x := by omega
  have hnot : ¬ (x : Int) < 0 := by omega
  apply Bytes.eq_of_value_eq
  · simp [signExtended]
  · rw [signExtended, if_neg hnot, hmod, Bytes.value_cons, Bytes.value_cons,
      Bytes.value_bigEndian, Bytes.value_bigEndian]
    simp only [UInt8.toNat_zero, Nat.zero_mul, Nat.zero_add]
    omega

theorem writeSigned_of_nonneg {x : Nat} (h : x < 2 ^ 63) :
    (writeSignedNumIncreasing x).length = codeLength x ∧
      Bytes.value (writeSignedNumIncreasing x) = header (codeLength x) + x := by
  unfold writeSignedNumIncreasing
  rw [magnitude_of_nonneg]
  split
  next hsmall =>
    have hmod : ((x : Int) % 256).toNat = x := by omega
    have hbyte : (UInt8.ofNat x).toNat = x := by
      rw [UInt8.toNat_ofNat']
      omega
    have hxor : 128 ^^^ x = 128 + x :=
      mul_xor_eq_add 1 (show x < 2 ^ 7 by omega)
    rw [codeLength_eq_one_iff.mpr hsmall, hmod, Bytes.value_cons,
      UInt8.toNat_xor, hbyte]
    refine ⟨rfl, ?_⟩
    change (128 ^^^ x) * 1 + 0 = header 1 + x
    have hheader : header 1 = 128 := by decide
    rw [hxor, hheader, Nat.mul_one, Nat.add_zero]
  next hlarge =>
    have hlength := signedEncodingLength_eq
      (show magnitude (x : Int) < 2 ^ 63 by rwa [magnitude_of_nonneg])
    rw [magnitude_of_nonneg] at hlength
    have hlow : codeLength x ≠ 1 := fun h => hlarge (codeLength_eq_one_iff.mp h)
    have hpos := one_le_codeLength x
    have hhigh := codeLength_le h
    have hdrop := drop_bigEndian (10 - codeLength x) (codeLength x) x
    rw [Nat.sub_add_cancel hhigh] at hdrop
    dsimp only
    rw [hlength, signExtended_of_nonneg h, hdrop]
    refine ⟨?_, value_withHeader (by omega) hhigh (lt_of_codeLength x)⟩
    rw [length_withHeader, Bytes.length_bigEndian]

theorem withHeader_complement (bits : UInt8 × UInt8) (s : Bytes) :
    withHeader bits (Bytes.complement s) =
      Bytes.complement (withHeader bits s) := by
  match s with
  | [] => rfl
  | [a] => rfl
  | a :: b :: rest =>
      simp only [Bytes.complement, List.map_cons, withHeader, UInt8.not_xor]

theorem signExtended_complement {val : Int} (h : InInt64 val) :
    signExtended (-val - 1) = Bytes.complement (signExtended val) := by
  obtain ⟨hlow, hhigh⟩ := h
  have hlow' : (val % 2 ^ 64).toNat < 256 ^ 8 := by
    have hpow : (256 : Nat) ^ 8 = 2 ^ 64 := by decide
    rw [hpow]
    omega
  have hsum : ((-val - 1) % 2 ^ 64).toNat + (val % 2 ^ 64).toNat + 1 =
      256 ^ 8 := by
    have hpow : (256 : Nat) ^ 8 = 2 ^ 64 := by decide
    rw [hpow]
    omega
  have hbytes : Bytes.bigEndian 8 ((-val - 1) % 2 ^ 64).toNat =
      Bytes.complement (Bytes.bigEndian 8 (val % 2 ^ 64).toNat) := by
    have hvalue := Bytes.value_complement (Bytes.bigEndian 8 (val % 2 ^ 64).toNat)
    rw [Bytes.length_bigEndian, Bytes.value_bigEndian,
      Nat.mod_eq_of_lt hlow'] at hvalue
    apply Bytes.eq_of_value_eq
    · simp
    · rw [Bytes.value_bigEndian, Nat.mod_eq_of_lt (by omega)]
      omega
  have hsign : (if -val - 1 < 0 then 0xff else 0 : UInt8) =
      ~~~(if val < 0 then 0xff else 0) := by
    split <;> split <;> first | omega | rfl
  rw [signExtended, hbytes, hsign]
  rfl

theorem magnitude_complement (val : Int) :
    magnitude (-val - 1) = magnitude val := by
  unfold magnitude
  split <;> split <;> omega

theorem encodingLength_complement (val : Int) :
    signedEncodingLength (-val - 1) = signedEncodingLength val := by
  rw [signedEncodingLength, magnitude_complement]
  rfl

theorem writeSigned_complement {val : Int} (h : InInt64 val) :
    writeSignedNumIncreasing (-val - 1) =
      Bytes.complement (writeSignedNumIncreasing val) := by
  unfold writeSignedNumIncreasing
  rw [magnitude_complement, encodingLength_complement]
  split
  next =>
    have hbyte : UInt8.ofNat ((-val - 1) % 256).toNat =
        ~~~UInt8.ofNat (val % 256).toNat := by
      rw [← UInt8.toNat_inj, Bytes.toNat_not, UInt8.toNat_ofNat',
        UInt8.toNat_ofNat']
      omega
    rw [hbyte, UInt8.xor_not]
    rfl
  next =>
    have hdrop (k : Nat) (s : Bytes) :
        (Bytes.complement s).drop k = Bytes.complement (s.drop k) :=
      List.map_drop.symm
    dsimp only
    rw [signExtended_complement h, hdrop, withHeader_complement]

/-! ## The order of the codes -/

theorem header_lt : ∀ n < 11, ∀ m < n, 1 ≤ m →
    header m + 2 ^ (7 * m - 1) ≤ header n / 256 ^ (n - m) := by
  decide

theorem before_of_nonneg {x y : Nat} (hy : y < 2 ^ 63) (hxy : x < y) :
    Before (writeSignedNumIncreasing x) (writeSignedNumIncreasing y) := by
  obtain ⟨hxlength, hxvalue⟩ := writeSigned_of_nonneg (hxy.trans hy)
  obtain ⟨hylength, hyvalue⟩ := writeSigned_of_nonneg hy
  generalize writeSignedNumIncreasing (y : Int) = b at hylength hyvalue
  generalize writeSignedNumIncreasing (x : Int) = a at hxlength hxvalue
  have hlt := lt_of_codeLength x
  have hpos := one_le_codeLength x
  have hhigh := codeLength_le hy
  rcases (codeLength_mono hxy.le).eq_or_lt with heq | hlonger
  · apply Bytes.before_of_value_lt (by omega)
    rw [hxvalue, hyvalue, heq]
    omega
  · -- the first bytes of the longer code already make a larger number
    have hsplit := List.take_append_drop (codeLength x) b
    have hvalue := Bytes.value_append (b.take (codeLength x))
      (b.drop (codeLength x))
    have hdrop := Bytes.value_lt (b.drop (codeLength x))
    rw [hsplit, List.length_drop, hylength] at hvalue
    rw [List.length_drop, hylength] at hdrop
    have hheader := header_lt (codeLength y) (by omega) (codeLength x) hlonger
      hpos
    have hle : header (codeLength y) / 256 ^ (codeLength y - codeLength x) ≤
        Bytes.value (b.take (codeLength x)) := by
      have hmul : header (codeLength y) / 256 ^ (codeLength y - codeLength x) ≤
          Bytes.value b / 256 ^ (codeLength y - codeLength x) :=
        Nat.div_le_div_right (by omega)
      rw [hvalue, Nat.mul_comm, Nat.mul_add_div (Nat.pow_pos (by decide)),
        Nat.div_eq_of_lt hdrop, Nat.add_zero] at hmul
      exact hmul
    have hbefore : Before a (b.take (codeLength x)) := by
      apply Bytes.before_of_value_lt
      · rw [List.length_take]
        omega
      · omega
    have happend := hbefore.append [] (b.drop (codeLength x))
    rwa [List.append_nil, hsplit] at happend

theorem head_of_nonneg {x : Nat} (h : x < 2 ^ 63) :
    ∃ head tail, writeSignedNumIncreasing x = head :: tail ∧
      128 ≤ head.toNat := by
  obtain ⟨hlength, hvalue⟩ := writeSigned_of_nonneg h
  have hpos := one_le_codeLength x
  have hhigh := codeLength_le h
  cases hcode : writeSignedNumIncreasing (x : Int) with
  | nil =>
      rw [hcode] at hlength
      simp only [List.length_nil] at hlength
      omega
  | cons head tail =>
      refine ⟨head, tail, rfl, ?_⟩
      rw [hcode, List.length_cons] at hlength
      rw [hcode, Bytes.value_cons] at hvalue
      have htail := Bytes.value_lt tail
      have hheader : ∀ n < 11, 1 ≤ n → 128 * 256 ^ (n - 1) ≤ header n := by
        decide
      have hle := hheader (codeLength x) (by omega) hpos
      rw [← hlength, Nat.add_sub_cancel] at hle
      rw [← hlength] at hvalue
      by_contra hsmall
      have hmul : (head.toNat + 1) * 256 ^ tail.length ≤
          128 * 256 ^ tail.length := Nat.mul_le_mul_right _ (by omega)
      rw [Nat.add_mul, Nat.one_mul] at hmul
      omega

/-- Codes of numbers are in the order of the numbers. -/
theorem writeSigned_before {a b : Int} (ha : InInt64 a) (hb : InInt64 b)
    (hab : a < b) :
    Before (writeSignedNumIncreasing a) (writeSignedNumIncreasing b) := by
  have hback {v : Int} (hv : InInt64 v) : writeSignedNumIncreasing v =
      Bytes.complement (writeSignedNumIncreasing (-v - 1)) := by
    rw [writeSigned_complement hv, Bytes.complement_complement]
  unfold InInt64 at ha hb
  by_cases hneg : b < 0
  · -- both are negative
    obtain ⟨x, hx⟩ := Int.eq_ofNat_of_zero_le (show 0 ≤ -a - 1 by omega)
    obtain ⟨y, hy⟩ := Int.eq_ofNat_of_zero_le (show 0 ≤ -b - 1 by omega)
    rw [hback ha, hback hb, hx, hy]
    exact Bytes.before_complement (before_of_nonneg (by omega) (by omega))
  · obtain ⟨y, rfl⟩ := Int.eq_ofNat_of_zero_le (show 0 ≤ b by omega)
    by_cases hsign : a < 0
    · obtain ⟨x, hx⟩ := Int.eq_ofNat_of_zero_le (show 0 ≤ -a - 1 by omega)
      obtain ⟨head, tail, hcode, hhead⟩ :=
        head_of_nonneg (show x < 2 ^ 63 by omega)
      obtain ⟨head', tail', hcode', hhead'⟩ :=
        head_of_nonneg (show y < 2 ^ 63 by omega)
      rw [hback ha, hx, hcode, hcode']
      apply before_of_lt
      rw [UInt8.lt_iff_toNat_lt, Bytes.toNat_not]
      omega
    · obtain ⟨x, rfl⟩ := Int.eq_ofNat_of_zero_le (show 0 ≤ a by omega)
      exact before_of_nonneg (by omega) (by omega)

/-! ## Reading a number -/

theorem shift_or (a : Nat) (c : UInt8) :
    BitVec.ofNat 64 a <<< 8 ||| BitVec.ofNat 64 c.toNat =
      BitVec.ofNat 64 (a * 256 + c.toNat) := by
  have hc : c.toNat < 2 ^ 8 := c.toNat_lt
  have hor := Nat.two_pow_add_eq_or_of_lt hc (a % 2 ^ 56)
  have hshift : (a % 2 ^ 64) <<< 8 % 2 ^ 64 = 2 ^ 8 * (a % 2 ^ 56) := by
    rw [Nat.shiftLeft_eq]
    omega
  have hsmall : c.toNat % 2 ^ 64 = c.toNat := by omega
  rw [← BitVec.toNat_inj, BitVec.toNat_or, BitVec.toNat_shiftLeft,
    BitVec.toNat_ofNat, BitVec.toNat_ofNat, BitVec.toNat_ofNat, hshift, hsmall,
    ← hor]
  omega

theorem foldl_shift (s : Bytes) (a : Nat) :
    s.foldl (fun (x : BitVec 64) (c : UInt8) => x <<< 8 ||| BitVec.ofNat 64 c.toNat)
        (BitVec.ofNat 64 a) =
      BitVec.ofNat 64 (a * 256 ^ s.length + Bytes.value s) := by
  rw [← Bytes.foldl_value]
  induction s generalizing a with
  | nil => rfl
  | cons c s ih => rw [List.foldl_cons, List.foldl_cons, shift_or, ih]

theorem kLengthToMask_eq : ∀ len < 11, 1 ≤ len →
    (kLengthToMask.getD len 0).toNat = header len % 2 ^ 64 ∧
      header len % 2 ^ 64 % 2 ^ min (7 * len) 63 = 0 ∧
      header len % 2 ^ 64 + 2 ^ min (7 * len - 1) 63 ≤ 2 ^ 64 := by
  decide

/-- The mask takes the header away again, and the length is checked. -/
theorem finishSignedNum_header (src : Bytes) {len x : Nat} (hpos : 1 ≤ len)
    (hhigh : len ≤ 10) (hlt : x < 2 ^ (7 * len - 1)) (h : x < 2 ^ 63) :
    finishSignedNum src len (BitVec.ofNat 64 (header len + x)) =
      if len = codeLength x then .ok ((x : Int), src.drop len)
      else .error .hardAssert := by
  obtain ⟨hmask, hdvd, hroom⟩ := kLengthToMask_eq len (by omega) hpos
  have hx : x < 2 ^ min (7 * len - 1) 63 := by
    rcases Nat.le_total (7 * len - 1) 63 with hle | hle
    · rwa [Nat.min_eq_left hle]
    · rwa [Nat.min_eq_right hle]
  have hx' : x < 2 ^ min (7 * len) 63 :=
    hx.trans_le (Nat.pow_le_pow_right (by decide) (by omega))
  generalize hm : header len % 2 ^ 64 = m at hmask hdvd hroom
  have hsum : (header len + x) % 2 ^ 64 = m + x := by
    have hmod := Nat.add_mod (header len) x (2 ^ 64)
    rw [hm, Nat.mod_eq_of_lt (show x < 2 ^ 64 by omega)] at hmod
    rw [hmod]
    exact Nat.mod_eq_of_lt (by omega)
  have hxor : (m + x) ^^^ m = x := by
    obtain ⟨q, rfl⟩ := Nat.dvd_of_mod_eq_zero hdvd
    rw [← mul_xor_eq_add q hx', Nat.xor_comm, ← Nat.xor_assoc, Nat.xor_self,
      Nat.zero_xor]
  have hnumber : BitVec.ofNat 64 (header len + x) ^^^ kLengthToMask.getD len 0 =
      BitVec.ofNat 64 x := by
    rw [← BitVec.toNat_inj, BitVec.toNat_xor, BitVec.toNat_ofNat, hsum, hmask,
      hxor, BitVec.toNat_ofNat]
    omega
  have hint : (BitVec.ofNat 64 x).toInt = x := by
    rw [BitVec.toInt_eq_toNat_of_lt, BitVec.toNat_ofNat]
    · omega
    · rw [BitVec.toNat_ofNat]
      omega
  have hlength := signedEncodingLength_eq
    (show magnitude (x : Int) < 2 ^ 63 by rwa [magnitude_of_nonneg])
  rw [magnitude_of_nonneg] at hlength
  unfold finishSignedNum
  dsimp only
  rw [hnumber, hint, hlength]

theorem xor_255 (b : UInt8) : b ^^^ 0xff = ~~~b := by
  have h := UInt8.xor_neg_one (a := b)
  rwa [show (-1 : UInt8) = 0xff from rfl] at h

theorem header_short : ∀ len < 8, 1 ≤ len →
    (256 - 2 ^ (8 - len)) * 256 ^ (len - 1) = header len ∧
      header len + 2 ^ (7 * len - 1) = (256 - 2 ^ (7 - len)) * 256 ^ (len - 1) ∧
      2 ^ (8 - len) ≤ 2 ^ 7 := by
  decide

/-- The length of a short code is in its first byte. -/
theorem short_iff {head : UInt8} {tail : Bytes} {len : Nat} (hpos : 1 ≤ len)
    (hshort : len ≤ 7) (hlen : len ≤ tail.length + 1) :
    (header len ≤ Bytes.value ((head :: tail).take len) ∧
        Bytes.value ((head :: tail).take len) < header len + 2 ^ (7 * len - 1)) ↔
      head ≠ 0xff ∧ 7 - Nat.log2 (head ^^^ 0xff).toNat = len ∧
        128 ≤ head.toNat := by
  obtain ⟨hlow, hhigh, htop⟩ := header_short len (by omega) hpos
  obtain ⟨k, rfl⟩ : ∃ k, len = k + 1 := ⟨len - 1, by omega⟩
  rw [Nat.add_sub_cancel] at hlow hhigh
  have hrest := Bytes.value_lt (tail.take k)
  have htake : (tail.take k).length = k := by
    rw [List.length_take]
    omega
  rw [htake] at hrest
  rw [List.take_succ_cons, Bytes.value_cons, htake, xor_255, Bytes.toNat_not,
    hhigh, ← hlow]
  have hhead := head.toNat_lt
  have hne : head ≠ 0xff ↔ head.toNat ≠ 255 := by
    rw [Ne, ← UInt8.toNat_inj]
    rfl
  have hstep : 2 ^ (8 - (k + 1)) = 2 ^ (7 - (k + 1)) * 2 := by
    rw [← Nat.pow_succ]
    congr 1
    omega
  have hone := Nat.two_pow_pos (7 - (k + 1))
  have hle (n : Nat) :
      n * 256 ^ k ≤ head.toNat * 256 ^ k + Bytes.value (tail.take k) ↔
        n ≤ head.toNat := by
    rw [← Nat.le_div_iff_mul_le (Nat.pow_pos (by decide)), Nat.mul_comm,
      Nat.mul_add_div (Nat.pow_pos (by decide)), Nat.div_eq_of_lt hrest,
      Nat.add_zero]
  have hlog : 255 - head.toNat ≠ 0 → (Nat.log2 (255 - head.toNat) = 6 - k ↔
      2 ^ (7 - (k + 1)) ≤ 255 - head.toNat ∧
        255 - head.toNat < 2 ^ (8 - (k + 1))) := by
    intro hzero
    rw [Nat.log2_eq_iff hzero, show 6 - k = 7 - (k + 1) by omega,
      show 7 - (k + 1) + 1 = 8 - (k + 1) by omega]
  have hsmall : head.toNat ≠ 255 → 128 ≤ head.toNat →
      Nat.log2 (255 - head.toNat) ≤ 6 := by
    intro hn hbig
    have hlog := (Nat.log2_lt (show 255 - head.toNat ≠ 0 by omega)).mpr
      (show 255 - head.toNat < 2 ^ 7 by omega)
    omega
  rw [hle, ← not_le, hle, hne]
  constructor
  · intro ⟨hfrom, hto⟩
    have hbytes := (hlog (by omega)).mpr (by omega)
    omega
  · intro ⟨hn, hlength, hbig⟩
    have hbits := hsmall hn hbig
    have hbytes := (hlog (by omega)).mp (by omega)
    omega

theorem header_long : ∀ k < 8, 5 ≤ k →
    header (k + 3) = (255 * 65536 + if k = 5 then 0 else if k = 6 then
        128 * 256 else 192 * 256) * 256 ^ k ∧
      2 ^ min (7 * (k + 3) - 1) 63 = (if k = 5 then 128 * 256 else if k = 6 then
        64 * 256 else 128) * 256 ^ k := by
  decide

theorem longLength_eq_some_iff {b c : UInt8} {len : Nat} :
    longLength b c = some len ↔
      len = 8 ∧ b.toNat < 128 ∨
        len = 9 ∧ 128 ≤ b.toNat ∧ b.toNat < 192 ∨
          len = 10 ∧ b.toNat = 192 ∧ c.toNat < 128 := by
  have h128 (x : UInt8) : x < 0x80 ↔ x.toNat < 128 := UInt8.lt_iff_toNat_lt
  have h192 : b < 0xc0 ↔ b.toNat < 192 := UInt8.lt_iff_toNat_lt
  have heq : b = 0xc0 ↔ b.toNat = 192 := UInt8.toNat_inj.symm
  simp only [longLength, h128, h192, heq]
  split_ifs
  next => rw [Option.some.injEq]; omega
  next => rw [Option.some.injEq]; omega
  next => rw [Option.some.injEq]; omega
  next => simp only [false_iff]; omega

/-- The length of a long code is in its second and third byte. -/
theorem long_iff {a b c : UInt8} {more : Bytes} {len : Nat} (hlow : 8 ≤ len)
    (hhigh : len ≤ 10) (hlen : len ≤ more.length + 3) :
    (header len ≤ Bytes.value ((a :: b :: c :: more).take len) ∧
        Bytes.value ((a :: b :: c :: more).take len) <
          header len + 2 ^ min (7 * len - 1) 63) ↔
      a = 0xff ∧ longLength b c = some len := by
  obtain ⟨k, rfl⟩ : ∃ k, len = k + 3 := ⟨len - 3, by omega⟩
  obtain ⟨hheader, hroom⟩ := header_long k (by omega) (by omega)
  have hrest := Bytes.value_lt (more.take k)
  have htake : (more.take k).length = k := by
    rw [List.length_take]
    omega
  rw [htake] at hrest
  have hvalue : Bytes.value ((a :: b :: c :: more).take (k + 3)) =
      (a.toNat * 65536 + b.toNat * 256 + c.toNat) * 256 ^ k +
        Bytes.value (more.take k) := by
    rw [List.take_succ_cons, List.take_succ_cons, List.take_succ_cons,
      Bytes.value_cons, Bytes.value_cons, Bytes.value_cons]
    simp only [List.length_cons, htake]
    ring
  have hle (n : Nat) : n * 256 ^ k ≤
      (a.toNat * 65536 + b.toNat * 256 + c.toNat) * 256 ^ k +
        Bytes.value (more.take k) ↔
        n ≤ a.toNat * 65536 + b.toNat * 256 + c.toNat := by
    rw [← Nat.le_div_iff_mul_le (Nat.pow_pos (by decide)), Nat.mul_comm,
      Nat.mul_add_div (Nat.pow_pos (by decide)), Nat.div_eq_of_lt hrest,
      Nat.add_zero]
  have ha := a.toNat_lt
  have hb := b.toNat_lt
  have hc := c.toNat_lt
  have h255 : a = 0xff ↔ a.toNat = 255 := UInt8.toNat_inj.symm
  rw [hvalue, hroom, hheader, ← Nat.add_mul, hle, ← not_le, hle,
    longLength_eq_some_iff, h255]
  split_ifs <;> omega

/-- The length of a code whose sign bit is set, by its first bytes. -/
def framedLength (head : UInt8) (tail : Bytes) : Option Nat :=
  if head ≠ 0xff then some (7 - Nat.log2 (head ^^^ 0xff).toNat)
  else if tail.length + 1 < 8 then none
  else longLength (tail.getD 0 0) (tail.getD 1 0)

/-- `src` has a code of `len` bytes in front: the header, then a number that
fits. -/
def Framed (src : Bytes) (len x : Nat) : Prop :=
  1 ≤ len ∧ len ≤ 10 ∧ len ≤ src.length ∧ x < 2 ^ min (7 * len - 1) 63 ∧
    Bytes.value (src.take len) = header len + x

theorem framedLength_bounds {head : UInt8} {tail : Bytes} {len : Nat}
    (h : framedLength head tail = some len) (hhead : 128 ≤ head.toNat) :
    1 ≤ len ∧ len ≤ 10 ∧ (8 ≤ len ↔ head = 0xff) := by
  unfold framedLength at h
  split at h
  next hne =>
    have hbyte := head.toNat_lt
    have hne' : head.toNat ≠ 255 := fun heq => hne (UInt8.toNat_inj.mp heq)
    rw [xor_255, Bytes.toNat_not, Option.some.injEq] at h
    have hlog := (Nat.log2_lt (show 255 - head.toNat ≠ 0 by omega)).mpr
      (show 255 - head.toNat < 2 ^ 7 by omega)
    refine ⟨by omega, by omega, ?_⟩
    constructor
    · intro hlen
      omega
    · exact fun heq => absurd heq hne
  next heq =>
    split at h
    next => simp at h
    next =>
      have hlen := longLength_eq_some_iff.mp h
      refine ⟨by omega, by omega, ?_⟩
      constructor
      · exact fun _ => not_not.mp heq
      · intro _
        omega

theorem exists_third {s : Bytes} (h : 2 ≤ s.length) :
    ∃ b c more, s = b :: c :: more := by
  match s with
  | b :: c :: more => exact ⟨b, c, more, rfl⟩
  | [_] => exact absurd h (Nat.not_succ_le_self 1)
  | [] => exact absurd h (Nat.not_succ_le_zero 1)

theorem framed_iff {head : UInt8} {tail : Bytes} {len : Nat}
    (hhead : 128 ≤ head.toNat) :
    (∃ x, Framed (head :: tail) len x) ↔
      framedLength head tail = some len ∧ len ≤ tail.length + 1 := by
  have hexists : (∃ x, Framed (head :: tail) len x) ↔
      1 ≤ len ∧ len ≤ 10 ∧ len ≤ tail.length + 1 ∧
        header len ≤ Bytes.value ((head :: tail).take len) ∧
          Bytes.value ((head :: tail).take len) <
            header len + 2 ^ min (7 * len - 1) 63 := by
    constructor
    · intro ⟨x, hpos, hhigh, hlen, hx, hvalue⟩
      exact ⟨hpos, hhigh, hlen, by omega, by omega⟩
    · intro ⟨hpos, hhigh, hlen, hfrom, hto⟩
      exact ⟨Bytes.value ((head :: tail).take len) - header len, hpos, hhigh,
        hlen, by omega, by omega⟩
  have hmin : len ≤ 7 → min (7 * len - 1) 63 = 7 * len - 1 := by omega
  rw [hexists]
  constructor
  · intro ⟨hpos, hhigh, hlen, hvalue⟩
    refine ⟨?_, hlen⟩
    by_cases hshort : len ≤ 7
    · rw [hmin hshort] at hvalue
      obtain ⟨hne, hlength, _⟩ := (short_iff hpos hshort hlen).mp hvalue
      rw [framedLength, if_pos hne, hlength]
    · obtain ⟨b, c, more, rfl⟩ := exists_third (show 2 ≤ tail.length by omega)
      obtain ⟨rfl, hlength⟩ := (long_iff (by omega) hhigh hlen).mp hvalue
      rw [framedLength, if_neg (not_not.mpr rfl), if_neg (by omega)]
      exact hlength
  · intro ⟨hframed, hlen⟩
    obtain ⟨hpos, hhigh, hlong⟩ := framedLength_bounds hframed hhead
    refine ⟨hpos, hhigh, hlen, ?_⟩
    unfold framedLength at hframed
    by_cases hff : head = 0xff
    · have hlong := hlong.mpr hff
      obtain ⟨b, c, more, rfl⟩ := exists_third (show 2 ≤ tail.length by omega)
      rw [if_neg (not_not.mpr hff), if_neg (by omega)] at hframed
      exact (long_iff hlong hhigh hlen).mpr ⟨hff, hframed⟩
    · have hshort : len ≤ 7 := by
        by_contra hnot
        exact hff (hlong.mp (by omega))
      rw [if_pos hff, Option.some.injEq] at hframed
      rw [hmin hshort]
      exact (short_iff hpos hshort hlen).mpr ⟨hff, hframed, hhead⟩

theorem and_128_iff (b : UInt8) : b &&& 0x80 = 0 ↔ b.toNat < 128 := by
  have hb := b.toNat_lt
  have hand : (b &&& 0x80).toNat = 2 ^ 7 * (b.toNat / 2 ^ 7 % 2) := by
    rw [UInt8.toNat_and]
    change b.toNat &&& 2 ^ 7 = _
    rw [Nat.and_two_pow, Nat.testBit_eq_decide_div_mod_eq, Nat.mul_comm]
    rcases Nat.mod_two_eq_zero_or_one (b.toNat / 2 ^ 7) with h | h
    · rw [h]
      rfl
    · rw [h]
      rfl
  rw [← UInt8.toNat_inj, hand]
  simp only [UInt8.toNat_zero]
  omega

theorem load_eq {s : Bytes} {len : Nat} (hlong : 8 ≤ len)
    (hlen : len ≤ s.length) :
    BitVec.ofNat 64 (Bytes.value ((s.drop (len - 8)).take 8)) =
      BitVec.ofNat 64 (Bytes.value (s.take len)) := by
  have hsplit : s.take len = s.take (len - 8) ++ (s.drop (len - 8)).take 8 := by
    rw [← List.take_add, Nat.sub_add_cancel hlong]
  have hlength : ((s.drop (len - 8)).take 8).length = 8 := by
    rw [List.length_take, List.length_drop]
    omega
  rw [← BitVec.toNat_inj, BitVec.toNat_ofNat, BitVec.toNat_ofNat, hsplit,
    Bytes.value_append, hlength]
  omega

/-- A read with the sign bit set takes the frame off. -/
theorem readSigned_eq {head : UInt8} {tail : Bytes} (hhead : 128 ≤ head.toNat) :
    readSignedNumIncreasing (head :: tail) =
      match framedLength head tail with
      | none => .error .failed
      | some len =>
          if (head :: tail).length < len then .error .failed
          else
            finishSignedNum (head :: tail) len
              (BitVec.ofNat 64 (Bytes.value ((head :: tail).take len))) := by
  have hnot : ¬ head &&& 0x80 = 0 := by
    rw [and_128_iff]
    omega
  have hfold (len : Nat) := foldl_shift ((head :: tail).take len) 0
  simp only [Nat.zero_mul, Nat.zero_add] at hfold
  unfold readSignedNumIncreasing framedLength
  simp only [hnot, if_false, UInt8.xor_zero]
  by_cases hff : head ≠ 0xff
  · rw [if_pos hff, if_pos hff]
    dsimp only
    split
    next => rfl
    next => exact congrArg (finishSignedNum _ _) (hfold _)
  · rw [if_neg hff, if_neg hff]
    simp only [List.length_cons]
    split
    next => rfl
    next =>
      cases hlong : longLength (tail.getD 0 0) (tail.getD 1 0) with
      | none => rfl
      | some len =>
          have hbounds := longLength_eq_some_iff.mp hlong
          dsimp only
          split
          next => rfl
          next hlen =>
            rw [load_eq (by omega) (by simp only [List.length_cons]; omega)]

theorem Framed.room {src : Bytes} {len x : Nat} (h : Framed src len x) :
    x < 2 ^ (7 * len - 1) ∧ x < 2 ^ 63 := by
  obtain ⟨_, _, _, hx, _⟩ := h
  constructor
  · exact hx.trans_le (Nat.pow_le_pow_right (by decide) (Nat.min_le_left _ _))
  · exact hx.trans_le (Nat.pow_le_pow_right (by decide) (Nat.min_le_right _ _))

theorem framed_writeSigned {x : Nat} (h : x < 2 ^ 63) (rest : Bytes) :
    Framed (writeSignedNumIncreasing x ++ rest) (codeLength x) x := by
  obtain ⟨hlength, hvalue⟩ := writeSigned_of_nonneg h
  have hlt := lt_of_codeLength x
  refine ⟨one_le_codeLength x, codeLength_le h, ?_, ?_, ?_⟩
  · rw [List.length_append]
    omega
  · rcases Nat.le_total (7 * codeLength x - 1) 63 with hle | hle
    · rwa [Nat.min_eq_left hle]
    · rwa [Nat.min_eq_right hle]
  · rw [List.take_left' hlength, hvalue]

/-- Only a written number is framed on the length of its code. -/
theorem Framed.eq_writeSigned {src : Bytes} {x : Nat}
    (h : Framed src (codeLength x) x) :
    src = writeSignedNumIncreasing x ++ src.drop (codeLength x) := by
  obtain ⟨hlength, hvalue⟩ := writeSigned_of_nonneg h.room.2
  obtain ⟨_, _, hlen, _, htake⟩ := h
  have heq : src.take (codeLength x) = writeSignedNumIncreasing x := by
    apply Bytes.eq_of_value_eq
    · rw [List.length_take, hlength]
      omega
    · rw [htake, hvalue]
  rw [← heq, List.take_append_drop]

/-- What a read with the sign bit set returns is what was written in front. -/
theorem readSigned_nonneg_iff {head : UInt8} {tail rest : Bytes} {val : Int}
    (hhead : 128 ≤ head.toNat) :
    readSignedNumIncreasing (head :: tail) = .ok (val, rest) ↔
      0 ≤ val ∧ val < 2 ^ 63 ∧
        head :: tail = writeSignedNumIncreasing val ++ rest := by
  rw [readSigned_eq hhead]
  constructor
  · intro h
    cases hframed : framedLength head tail with
    | none => simp [hframed] at h
    | some len =>
        rw [hframed] at h
        dsimp only at h
        split at h
        next => simp at h
        next hlen =>
          obtain ⟨x, hx⟩ := (framed_iff hhead).mpr
            ⟨hframed, by simpa using hlen⟩
          have hroom := hx.room
          obtain ⟨hpos, hhigh, _, _, hvalue⟩ := id hx
          rw [hvalue, finishSignedNum_header _ hpos hhigh hroom.1 hroom.2] at h
          split at h
          next hcode =>
            simp only [Except.ok.injEq, Prod.mk.injEq] at h
            obtain ⟨rfl, rfl⟩ := h
            subst hcode
            exact ⟨by omega, by omega, hx.eq_writeSigned⟩
          next => simp at h
  · intro ⟨hnonneg, hlt, hsrc⟩
    obtain ⟨x, rfl⟩ := Int.eq_ofNat_of_zero_le hnonneg
    have hx := framed_writeSigned (show x < 2 ^ 63 by omega) rest
    have hlength := (writeSigned_of_nonneg (show x < 2 ^ 63 by omega)).1
    rw [← hsrc] at hx
    obtain ⟨hframed, hlen⟩ := (framed_iff hhead).mp ⟨x, hx⟩
    have hroom := hx.room
    obtain ⟨hpos, hhigh, _, _, hvalue⟩ := hx
    rw [hframed]
    dsimp only
    rw [if_neg (by simpa using hlen), hvalue,
      finishSignedNum_header _ hpos hhigh hroom.1 hroom.2, if_pos rfl, hsrc,
      List.drop_left' hlength]

/-! ## Reading a negative number -/

theorem shift_or_not (x : BitVec 64) (c : UInt8) :
    ~~~x <<< 8 ||| BitVec.ofNat 64 (~~~c).toNat =
      ~~~(x <<< 8 ||| BitVec.ofNat 64 c.toNat) := by
  have hx := x.isLt
  have hc := c.toNat_lt
  have hnot : ~~~x = BitVec.ofNat 64 (2 ^ 64 - 1 - x.toNat) := by
    rw [← BitVec.toNat_inj, BitVec.toNat_not, BitVec.toNat_ofNat]
    omega
  have hself : x = BitVec.ofNat 64 x.toNat := by
    rw [BitVec.ofNat_toNat, BitVec.setWidth_eq]
  have hright := shift_or x.toNat c
  rw [← hself] at hright
  rw [hright, hnot, shift_or, Bytes.toNat_not, ← BitVec.toNat_inj,
    BitVec.toNat_not, BitVec.toNat_ofNat, BitVec.toNat_ofNat]
  omega

theorem foldl_shift_complement (s : Bytes) (x : BitVec 64) :
    (Bytes.complement s).foldl
        (fun (x : BitVec 64) (c : UInt8) => x <<< 8 ||| BitVec.ofNat 64 c.toNat)
        (~~~x) =
      ~~~s.foldl
        (fun (x : BitVec 64) (c : UInt8) => x <<< 8 ||| BitVec.ofNat 64 c.toNat)
        x := by
  induction s generalizing x with
  | nil => rfl
  | cons c s ih =>
      rw [Bytes.complement, List.map_cons, List.foldl_cons, shift_or_not,
        ← Bytes.complement, ih, List.foldl_cons]

theorem load_complement {s : Bytes} (h : s.length = 8) :
    BitVec.ofNat 64 (Bytes.value (Bytes.complement s)) =
      ~~~BitVec.ofNat 64 (Bytes.value s) := by
  have hvalue := Bytes.value_complement s
  rw [h, show (256 : Nat) ^ 8 = 2 ^ 64 from rfl] at hvalue
  rw [← BitVec.toNat_inj, BitVec.toNat_not, BitVec.toNat_ofNat,
    BitVec.toNat_ofNat]
  omega

/-- The number on the other side of zero, read from the complement. -/
def otherSide (read : Int × Bytes) : Int × Bytes :=
  (-read.1 - 1, Bytes.complement read.2)

theorem finishSignedNum_complement (src : Bytes) (len : Nat) (x : BitVec 64) :
    finishSignedNum (Bytes.complement src) len (~~~x) =
      (finishSignedNum src len x).map otherSide := by
  have hint (y : BitVec 64) : (~~~y).toInt = -y.toInt - 1 := by
    have hy := y.isLt
    rw [BitVec.toInt_eq_toNat_cond, BitVec.toInt_eq_toNat_cond,
      BitVec.toNat_not]
    split <;> split <;> omega
  have hdrop : (Bytes.complement src).drop len =
      Bytes.complement (src.drop len) := List.map_drop.symm
  unfold finishSignedNum
  dsimp only
  rw [← BitVec.not_xor_left, hint, encodingLength_complement, hdrop]
  split <;> rfl

/-- `ReadSignedNumIncreasing` with the masks given. -/
def readMasked (xorMask : BitVec 64) (maskByte head : UInt8) (tail : Bytes) :
    Except ReadError (Int × Bytes) :=
  let firstByte := head ^^^ maskByte
  if firstByte ≠ 0xff then
    let len := 7 - Nat.log2 (firstByte ^^^ 0xff).toNat
    if (head :: tail).length < len then .error .failed
    else
      finishSignedNum (head :: tail) len
        (((head :: tail).take len).foldl
          (fun x c => x <<< 8 ||| BitVec.ofNat 64 c.toNat) xorMask)
  else if (head :: tail).length < 8 then .error .failed
  else
    match longLength (tail.getD 0 0 ^^^ maskByte)
        (tail.getD 1 0 ^^^ maskByte) with
    | none => .error .failed
    | some len =>
        if (head :: tail).length < len then .error .failed
        else
          finishSignedNum (head :: tail) len
            (BitVec.ofNat 64
              (Bytes.value (((head :: tail).drop (len - 8)).take 8)))

theorem readMasked_complement (xorMask : BitVec 64) (maskByte head : UInt8)
    (tail : Bytes) :
    readMasked (~~~xorMask) (~~~maskByte) (~~~head) (Bytes.complement tail) =
      (readMasked xorMask maskByte head tail).map otherSide := by
  have hxor (a b : UInt8) : ~~~a ^^^ ~~~b = a ^^^ b := by
    rw [UInt8.not_xor, UInt8.xor_not, UInt8.not_not]
  have hcons : ~~~head :: Bytes.complement tail =
      Bytes.complement (head :: tail) := rfl
  have htake (k : Nat) (s : Bytes) : (Bytes.complement s).take k =
      Bytes.complement (s.take k) := List.map_take.symm
  have hdrop (k : Nat) (s : Bytes) : (Bytes.complement s).drop k =
      Bytes.complement (s.drop k) := List.map_drop.symm
  unfold readMasked
  dsimp only
  rw [hxor, hcons, Bytes.length_complement]
  split
  next =>
    split
    next => rfl
    next =>
      rw [htake, foldl_shift_complement, finishSignedNum_complement]
  next =>
    split
    next => rfl
    next hlong =>
      obtain ⟨b, c, more, rfl⟩ := exists_third
        (show 2 ≤ tail.length by simp only [List.length_cons] at hlong; omega)
      have hsecond : (Bytes.complement (b :: c :: more)).getD 0 0 = ~~~b := rfl
      have hthird : (Bytes.complement (b :: c :: more)).getD 1 0 = ~~~c := rfl
      have hb : (b :: c :: more).getD 0 0 = b := rfl
      have hc : (b :: c :: more).getD 1 0 = c := rfl
      rw [hsecond, hthird, hb, hc, hxor, hxor]
      cases hlength : longLength (b ^^^ maskByte) (c ^^^ maskByte) with
      | none => rfl
      | some len =>
          have hbounds := longLength_eq_some_iff.mp hlength
          dsimp only
          split
          next => rfl
          next hlen =>
            rw [hdrop, htake, load_complement, finishSignedNum_complement]
            rw [List.length_take, List.length_drop]
            omega

theorem readSigned_complement (src : Bytes) :
    readSignedNumIncreasing (Bytes.complement src) =
      (readSignedNumIncreasing src).map otherSide := by
  cases src with
  | nil => rfl
  | cons head tail =>
      have hmasked (head : UInt8) (tail : Bytes) :
          readSignedNumIncreasing (head :: tail) =
            readMasked (if head &&& 0x80 = 0 then ~~~0 else 0)
              (if head &&& 0x80 = 0 then 0xff else 0) head tail := rfl
      have hsign : ~~~head &&& 0x80 = 0 ↔ ¬ head &&& 0x80 = 0 := by
        have hhead := head.toNat_lt
        rw [and_128_iff, and_128_iff, Bytes.toNat_not]
        omega
      have hxor : (if ~~~head &&& 0x80 = 0 then ~~~0 else 0 : BitVec 64) =
          ~~~(if head &&& 0x80 = 0 then ~~~0 else 0) := by
        by_cases h : head &&& 0x80 = 0
        · rw [if_neg fun h' => hsign.mp h' h, if_pos h, BitVec.not_not]
        · rw [if_pos (hsign.mpr h), if_neg h]
      have hbyte : (if ~~~head &&& 0x80 = 0 then 0xff else 0 : UInt8) =
          ~~~(if head &&& 0x80 = 0 then 0xff else 0) := by
        by_cases h : head &&& 0x80 = 0
        · rw [if_neg fun h' => hsign.mp h' h, if_pos h]
          rfl
        · rw [if_pos (hsign.mpr h), if_neg h]
          rfl
      have hcons : Bytes.complement (head :: tail) =
          ~~~head :: Bytes.complement tail := rfl
      rw [hcons, hmasked, hmasked, hxor, hbyte, readMasked_complement]

theorem map_otherSide_eq_ok {read : Except ReadError (Int × Bytes)} {val : Int}
    {rest : Bytes} :
    read.map otherSide = .ok (-val - 1, Bytes.complement rest) ↔
      read = .ok (val, rest) := by
  cases read with
  | error e => simp [Except.map]
  | ok r =>
      obtain ⟨v, t⟩ := r
      simp only [Except.map, otherSide, Except.ok.injEq, Prod.mk.injEq]
      constructor
      · intro ⟨hv, ht⟩
        exact ⟨by omega, Bytes.complement_injective ht⟩
      · intro ⟨hv, ht⟩
        rw [hv, ht]
        exact ⟨rfl, rfl⟩

theorem nonneg_iff_head {val : Int} (h : InInt64 val) {head : UInt8}
    {tail rest : Bytes}
    (hsrc : head :: tail = writeSignedNumIncreasing val ++ rest) :
    0 ≤ val ↔ 128 ≤ head.toNat := by
  unfold InInt64 at h
  constructor
  · intro hval
    obtain ⟨x, rfl⟩ := Int.eq_ofNat_of_zero_le hval
    obtain ⟨b, t, hcode, hb⟩ := head_of_nonneg (show x < 2 ^ 63 by omega)
    rw [hcode, List.cons_append, List.cons.injEq] at hsrc
    rwa [hsrc.1]
  · intro hhead
    by_contra hneg
    obtain ⟨x, hx⟩ := Int.eq_ofNat_of_zero_le (show 0 ≤ -val - 1 by omega)
    obtain ⟨b, t, hcode, hb⟩ := head_of_nonneg (show x < 2 ^ 63 by omega)
    have hother : InInt64 (-val - 1) := ⟨by omega, by omega⟩
    have hback := writeSigned_complement hother
    have hval : -(-val - 1) - 1 = val := by omega
    rw [hval, hx, hcode] at hback
    rw [hback, Bytes.complement, List.map_cons, List.cons_append,
      List.cons.injEq] at hsrc
    have hbyte := Bytes.toNat_not b
    rw [← hsrc.1] at hbyte
    omega

theorem writeSigned_ne_nil {val : Int} (h : InInt64 val) :
    writeSignedNumIncreasing val ≠ [] := by
  intro hnil
  have hback := writeSigned_complement h
  unfold InInt64 at h
  rw [hnil] at hback
  by_cases hval : 0 ≤ val
  · obtain ⟨x, rfl⟩ := Int.eq_ofNat_of_zero_le hval
    obtain ⟨b, t, hcode, _⟩ := head_of_nonneg (show x < 2 ^ 63 by omega)
    simp [hcode] at hnil
  · obtain ⟨x, hx⟩ := Int.eq_ofNat_of_zero_le (show 0 ≤ -val - 1 by omega)
    obtain ⟨b, t, hcode, _⟩ := head_of_nonneg (show x < 2 ^ 63 by omega)
    rw [hx, hcode] at hback
    simp [Bytes.complement] at hback

/-- What a read returns is what was written in front, and it fails on anything
else. -/
theorem readSigned_iff {src rest : Bytes} {val : Int} :
    readSignedNumIncreasing src = .ok (val, rest) ↔
      InInt64 val ∧ src = writeSignedNumIncreasing val ++ rest := by
  cases src with
  | nil =>
      constructor
      · intro h
        simp [readSignedNumIncreasing] at h
      · intro ⟨hval, hsrc⟩
        have hnil := (List.append_eq_nil_iff.mp hsrc.symm).1
        exact absurd hnil (writeSigned_ne_nil hval)
  | cons head tail =>
      by_cases hhead : 128 ≤ head.toNat
      · rw [readSigned_nonneg_iff hhead]
        constructor
        · intro ⟨hnonneg, hlt, hsrc⟩
          exact ⟨⟨by omega, hlt⟩, hsrc⟩
        · intro ⟨hval, hsrc⟩
          have hsign := nonneg_iff_head hval hsrc
          exact ⟨hsign.mpr hhead, hval.2, hsrc⟩
      · -- read on the other side of zero
        have hbyte := Bytes.toNat_not head
        have hother : readSignedNumIncreasing
            (~~~head :: Bytes.complement tail) =
              .ok (-val - 1, Bytes.complement rest) ↔ _ :=
          readSigned_nonneg_iff (show 128 ≤ (~~~head).toNat by omega)
        have hcons : ~~~head :: Bytes.complement tail =
            Bytes.complement (head :: tail) := rfl
        rw [hcons, readSigned_complement, map_otherSide_eq_ok] at hother
        rw [hother]
        constructor
        · intro ⟨hnonneg, hlt, hsrc⟩
          have hval : InInt64 val := ⟨by omega, by omega⟩
          rw [writeSigned_complement hval, ← Bytes.complement_append] at hsrc
          exact ⟨hval, Bytes.complement_injective hsrc⟩
        · intro ⟨hval, hsrc⟩
          have hsign := nonneg_iff_head hval hsrc
          have hval' := id hval
          unfold InInt64 at hval'
          refine ⟨by omega, by omega, ?_⟩
          rw [writeSigned_complement hval, ← Bytes.complement_append, hsrc]

theorem readSigned_writeSigned {val : Int} (h : InInt64 val) (rest : Bytes) :
    readSignedNumIncreasing (writeSignedNumIncreasing val ++ rest) =
      .ok (val, rest) :=
  readSigned_iff.mpr ⟨h, rfl⟩

end Grocr.Firestore.Util.OrderedCode
