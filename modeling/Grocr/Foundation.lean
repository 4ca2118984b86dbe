import Mathlib.Data.List.Basic
import Mathlib.Data.String.Basic
import Mathlib.Tactic.Common
/-!
# What the app takes from Swift and Foundation

Text, number and image conversions that the app calls and does not define.
They are parameters: a theorem about the app holds for every `Foundation` and
every `ImageLoading`, and uses no more of them than the laws stated here.
-/

namespace Grocr

/-- Text and numbers.  `characters` splits a string into its grapheme
clusters, `int` and `double` are `Int(_:)` and `Double(_:)`, and `decimal`
is a `NumberFormatter` of style `.decimal`. -/
structure Foundation (Double : Type) where
  characters : String → List String
  int : String → Option Int
  double : String → Option Double
  decimal : Int → String
  /-- An ASCII digit or full stop is a character of its own. -/
  characters_ascii : ∀ s : String,
    (∀ c ∈ s.toList, c.isDigit = true ∨ c = '.') →
      characters s = s.toList.map String.singleton
  double_of_int : ∀ s, (int s).isSome → (double s).isSome

namespace Foundation

variable {Double : Type} (F : Foundation Double)

/-- `numberFormat.string(for: Int(text))`; the formatter returns nil for a
nil number. -/
def decimalString (text : String) : Option String :=
  (F.int text).map F.decimal

end Foundation

/-- `URL(string:)`, `Data(contentsOf:)` and `UIImage(data:)`. -/
structure ImageLoading (URL Data UIImage : Type) where
  url : String → Option URL
  contents : URL → Option Data
  image : Data → Option UIImage

def ImageLoading.Loads {URL Data UIImage : Type}
    (I : ImageLoading URL Data UIImage) (address : String) : Prop :=
  ∃ url data image, I.url address = some url ∧
    I.contents url = some data ∧ I.image data = some image

/-! ## Dates -/

structure CalendarDate where
  year : Nat
  month : Nat
  day : Nat
  month_le : month ≤ 12
  day_le : day ≤ 31

/-- Decimal digits, filled up with zeros on the left. -/
def zeroPadded (width n : Nat) : List Char :=
  (Nat.toDigits 10 n).leftpad width '0'

/-- `string(from:)` of a `DateFormatter` whose format is `yyyy.MM.dd`. -/
def CalendarDate.string (date : CalendarDate) : String :=
  String.ofList (zeroPadded 4 date.year ++ '.' ::
    (zeroPadded 2 date.month ++ '.' :: zeroPadded 2 date.day))

theorem le_length_zeroPadded (width n : Nat) :
    width ≤ (zeroPadded width n).length := by
  simp [zeroPadded, List.leftpad]
  omega

theorem isDigit_zeroPadded {width n : Nat} {c : Char}
    (h : c ∈ zeroPadded width n) : c.isDigit = true := by
  rw [zeroPadded, List.leftpad, List.mem_append, List.mem_replicate] at h
  rcases h with ⟨-, rfl⟩ | h
  · decide
  · exact Nat.isDigit_of_mem_toDigits (by decide) (by decide) h

theorem length_zeroPadded {width n : Nat} (hwidth : 0 < width)
    (h : n < 10 ^ width) : (zeroPadded width n).length = width := by
  have hle : (Nat.toDigits 10 n).length ≤ width :=
    (Nat.length_toDigits_le_iff (by omega) hwidth).mpr h
  rw [zeroPadded, List.leftpad, List.length_append, List.length_replicate]
  omega

theorem CalendarDate.ten_le_length (date : CalendarDate) :
    10 ≤ date.string.toList.length := by
  have hyear := le_length_zeroPadded 4 date.year
  have hmonth := le_length_zeroPadded 2 date.month
  have hday := le_length_zeroPadded 2 date.day
  rw [CalendarDate.string, String.toList_ofList]
  simp only [List.length_append, List.length_cons]
  omega

theorem Foundation.characters_date {Double : Type} (F : Foundation Double)
    (date : CalendarDate) :
    F.characters date.string = date.string.toList.map String.singleton := by
  refine F.characters_ascii _ fun c hc => ?_
  rw [CalendarDate.string, String.toList_ofList] at hc
  simp only [List.mem_append, List.mem_cons] at hc
  rcases hc with hc | rfl | hc | rfl | hc
  · exact .inl (isDigit_zeroPadded hc)
  · exact .inr rfl
  · exact .inl (isDigit_zeroPadded hc)
  · exact .inr rfl
  · exact .inl (isDigit_zeroPadded hc)

theorem Foundation.ten_le_characters_date {Double : Type}
    (F : Foundation Double) (date : CalendarDate) :
    10 ≤ (F.characters date.string).length := by
  rw [F.characters_date, List.length_map]
  exact date.ten_le_length

/-! ## A concrete instance -/

def digitsValue (digits : List Char) : Option Nat :=
  if digits ≠ [] ∧ digits.all Char.isDigit then
    some (digits.foldl (fun n c => 10 * n + (c.toNat - '0'.toNat)) 0)
  else none

/-- `Int(text)`: an optional sign and ASCII digits, within 64 bits. -/
def parseInt (text : String) : Option Int :=
  let value : Option Int :=
    match text.toList with
    | '-' :: digits => (digitsValue digits).map fun n : Nat => -(n : Int)
    | '+' :: digits => (digitsValue digits).map Int.ofNat
    | digits => (digitsValue digits).map Int.ofNat
  value.filter fun n =>
    -9223372036854775808 ≤ n ∧ n ≤ 9223372036854775807

/-- ASCII text and whole numbers below a thousand, on which the platform
behaves as written here. -/
def Foundation.ascii : Foundation Int where
  characters s := s.toList.map String.singleton
  int := parseInt
  double := parseInt
  decimal := toString
  characters_ascii _ _ := rfl
  double_of_int _ h := h

example : (CalendarDate.mk 2021 3 8 (by decide) (by decide)).string =
    "2021.03.08" := by
  decide

end Grocr
