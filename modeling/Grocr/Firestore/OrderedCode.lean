import Mathlib.Tactic.Common
import Grocr.Support.Bytes
/-!
# The code of the keys on disk

Strings and numbers as byte strings that sort as the values do and can be read
off the front of a longer byte string.  Strings escape the bytes 0 and 255 and
end with a separator; numbers start with their length in unary.
-/

namespace Grocr.Firestore.Util.OrderedCode

open Grocr.Support

/-! ## Strings -/

def kEscape1 : UInt8 := 0

/-- Combined with `kEscape1`, as is the separator. -/
def kNullCharacter : UInt8 := 0xff

def kSeparator : UInt8 := 1

def kEscape2 : UInt8 := 0xff

/-- Combined with `kEscape2`. -/
def kFFCharacter : UInt8 := 0

def isSpecialByte (c : UInt8) : Bool := c + 1 < 2

/-- The bytes of a number in memory, lowest byte first. -/
def littleEndian (s : Bytes) : Nat := Bytes.value s.reverse

def unalignedLoad64 (p : Bytes) : BitVec 64 :=
  BitVec.ofNat 64 (littleEndian (p.take 8))

def unalignedLoad32 (p : Bytes) : BitVec 32 :=
  BitVec.ofNat 32 (littleEndian (p.take 4))

def hasZeroOr255Byte (v : BitVec 64) : Bool :=
  (v - 0x0101010101010101) &&& ~~~(v + 0x0101010101010101) &&&
    0x8080808080808080 ≠ 0

/-- `AdvanceIfNoSpecialBytes`, less its assertions. -/
def advanceIfNoSpecialBytes (v : BitVec 32) : Nat :=
  if (v - 0x01010101) &&& ~~~(v + 0x01010101) &&& 0x80808080 ≠ 0 then 0 else 4

/-- What is left once there is no whole word of eight bytes. -/
def skipRest (p : Bytes) : Nat :=
  let advanced :=
    if 4 ≤ p.length then advanceIfNoSpecialBytes (unalignedLoad32 p) else 0
  advanced + (p.drop advanced).findIdx isSpecialByte

/-- The loop of `SkipToNextSpecialByte` over words of eight bytes. -/
def skipWords : Nat → Bytes → Nat
  | 0, p => skipRest p
  | words + 1, p =>
      let v := unalignedLoad64 p
      if hasZeroOr255Byte v then
        let advanced := advanceIfNoSpecialBytes (v.setWidth 32)
        advanced + ((p.drop advanced).take 3).findIdx isSpecialByte
      else 8 + skipWords words (p.drop 8)

/-- `SkipToNextSpecialByte`: how far the first byte 0 or 255 is. -/
def skipToNextSpecialByte (p : Bytes) : Nat := skipWords (p.length / 8) p

/-- `EncodeStringFragment`, from one special byte to the next. -/
def encodeStringFragment (s : Bytes) : Bytes :=
  let p := skipToNextSpecialByte s
  match _h : s.drop p with
  | [] => s
  | c :: rest =>
      s.take p ++
        (if c = kEscape1 then [kEscape1, kNullCharacter]
          else [kEscape2, kFFCharacter]) ++
        encodeStringFragment rest
termination_by s.length
decreasing_by
  have hlength := congrArg List.length _h
  simp only [List.length_drop, List.length_cons] at hlength
  omega

def writeString (s : Bytes) : Bytes :=
  encodeStringFragment s ++ [kEscape1, kSeparator]

inductive ReadError
  | failed
  | hardAssert
deriving DecidableEq

/-- `ReadString`: the string in front and what follows it.  A special byte has
to have another one after it, so the last byte is not looked at. -/
def readString (src : Bytes) : Except ReadError (Bytes × Bytes) :=
  let p := skipToNextSpecialByte src.dropLast
  match _h : src.drop p with
  | c :: next :: rest =>
      if c = kEscape1 then
        if next = kSeparator then .ok (src.take p, rest)
        else if next = kNullCharacter then
          (readString rest).map fun e => (src.take p ++ 0 :: e.1, e.2)
        else .error .failed
      else if next = kFFCharacter then
        (readString rest).map fun e => (src.take p ++ 0xff :: e.1, e.2)
      else .error .failed
  | _ => .error .failed
termination_by src.length
decreasing_by
  all_goals
    have hlength := congrArg List.length _h
    simp only [List.length_drop, List.length_cons] at hlength
    omega

/-! ## Signed numbers -/

/-- The header of the code in its first two bytes, by length. -/
def kLengthToHeaderBits : List (UInt8 × UInt8) :=
  [(0, 0), (0x80, 0), (0xc0, 0), (0xe0, 0), (0xf0, 0), (0xf8, 0), (0xfc, 0),
    (0xfe, 0), (0xff, 0), (0xff, 0x80), (0xff, 0xc0)]

/-- The part of the header that overlaps the number, by length. -/
def kLengthToMask : List (BitVec 64) :=
  [0, 0x80, 0xc000, 0xe00000, 0xf0000000, 0xf800000000, 0xfc0000000000,
    0xfe000000000000, 0xff00000000000000, 0x8000000000000000, 0]

/-- The length of the code, by the number of bits. -/
def kBitsToLength : List Nat :=
  [1, 1, 1, 1, 1, 1, 1, 2, 2, 2, 2, 2, 2, 2, 3, 3, 3, 3, 3, 3, 3, 4,
    4, 4, 4, 4, 4, 4, 5, 5, 5, 5, 5, 5, 5, 6, 6, 6, 6, 6, 6, 6, 7, 7,
    7, 7, 7, 7, 7, 8, 8, 8, 8, 8, 8, 8, 9, 9, 9, 9, 9, 9, 9, 10]

/-- `Log2Floor64`, plus one: how many bits a number has. -/
def bitCount (n : Nat) : Nat := if n = 0 then 0 else Nat.log2 n + 1

/-- `val < 0 ? ~val : val` -/
def magnitude (val : Int) : Nat := (if val < 0 then -val - 1 else val).toNat

def signedEncodingLength (val : Int) : Nat :=
  kBitsToLength.getD (bitCount (magnitude val)) 0

/-- The number on ten bytes, in two's complement. -/
def signExtended (val : Int) : Bytes :=
  let signByte : UInt8 := if val < 0 then 0xff else 0
  signByte :: signByte :: Bytes.bigEndian 8 (val % 2 ^ 64).toNat

def withHeader (header : UInt8 × UInt8) : Bytes → Bytes
  | a :: b :: rest => (a ^^^ header.1) :: (b ^^^ header.2) :: rest
  | s => s

def writeSignedNumIncreasing (val : Int) : Bytes :=
  if magnitude val < 64 then
    [0x80 ^^^ UInt8.ofNat (val % 256).toNat]
  else
    let len := signedEncodingLength val
    withHeader (kLengthToHeaderBits.getD len (0, 0))
      ((signExtended val).drop (10 - len))

/-- The end of `ReadSignedNumIncreasing`: the header goes, and the length has
to be the one that the number is written with. -/
def finishSignedNum (src : Bytes) (len : Nat) (x : BitVec 64) :
    Except ReadError (Int × Bytes) :=
  let x := x ^^^ kLengthToMask.getD len 0
  if len = signedEncodingLength x.toInt then .ok (x.toInt, src.drop len)
  else .error .hardAssert

/-- The length of a code that starts with the byte 255, once negative numbers
are complemented. -/
def longLength (secondByte thirdByte : UInt8) : Option Nat :=
  if secondByte < 0x80 then some 8
  else if secondByte < 0xc0 then some 9
  else if secondByte = 0xc0 ∧ thirdByte < 0x80 then some 10
  else none

def readSignedNumIncreasing (src : Bytes) : Except ReadError (Int × Bytes) :=
  match src with
  | [] => .error .failed
  | head :: tail =>
      let negative := head &&& 0x80 = 0
      let xorMask : BitVec 64 := if negative then ~~~0 else 0
      let maskByte : UInt8 := if negative then 0xff else 0
      let firstByte := head ^^^ maskByte
      if firstByte ≠ 0xff then
        let len := 7 - Nat.log2 (firstByte ^^^ 0xff).toNat
        if (head :: tail).length < len then .error .failed
        else
          finishSignedNum src len
            (((head :: tail).take len).foldl
              (fun x c => x <<< 8 ||| BitVec.ofNat 64 c.toNat) xorMask)
      else if (head :: tail).length < 8 then .error .failed
      else
        match longLength (tail.getD 0 0 ^^^ maskByte)
            (tail.getD 1 0 ^^^ maskByte) with
        | none => .error .failed
        | some len =>
            if (head :: tail).length < len then .error .failed
            else
              finishSignedNum src len
                (BitVec.ofNat 64
                  (Bytes.value (((head :: tail).drop (len - 8)).take 8)))

end Grocr.Firestore.Util.OrderedCode
