import Mathlib.Data.List.Basic
import Mathlib.Data.List.Count
import Mathlib.Data.List.Perm.Basic
import Mathlib.Tactic.Common
import Grocr.Firestore.FieldValue
/-!
# Transform operations

What `FieldValue.serverTimestamp`, `arrayUnion`, `arrayRemove` and `increment`
do to a field, in the local view of a document and to the cached document once
the backend has answered.
-/

namespace Grocr.Firestore.Model

open Grocr.Support

class DoubleArithmetic where
  /-- `static_cast<double>` of an integer -/
  ofInteger : Int → UInt64
  add : UInt64 → UInt64 → UInt64

instance : DoubleArithmetic where
  ofInteger n := (Float.ofInt n).toBits
  add a b := (Float.ofBits a + Float.ofBits b).toBits

inductive Number
  | integer (value : Int)
  | double (bits : UInt64)
deriving DecidableEq

namespace Number

def toFieldValue : Number → FieldValue
  | .integer n => .integer n
  | .double bits => .double bits

def asDouble [DoubleArithmetic] : Number → UInt64
  | .integer n => DoubleArithmetic.ofInteger n
  | .double bits => bits

end Number

def FieldValue.number? : FieldValue → Option Number
  | .integer n => some (.integer n)
  | .double bits => some (.double bits)
  | _ => none

def LONG_MAX : Int := 9223372036854775807

def LONG_MIN : Int := -9223372036854775808

def Int64Range (n : Int) : Prop := LONG_MIN ≤ n ∧ n ≤ LONG_MAX

/-- `SafeIncrement`; the guards come before the sum, which cannot overflow. -/
def safeIncrement (x y : Int) : Int :=
  if 0 < x ∧ LONG_MAX - x < y then LONG_MAX
  else if x < 0 ∧ y < LONG_MIN - x then LONG_MIN
  else x + y

inductive TransformOperation
  | serverTimestamp
  | arrayUnion (elements : List FieldValue)
  | arrayRemove (elements : List FieldValue)
  | increment (operand : Number)
deriving DecidableEq

namespace ArrayTransform

def coercedArray : Option FieldValue → List FieldValue
  | some (.array elements) => elements
  | _ => []

/-- `Apply` of a union; no server timestamp stands in an array, so `c_find`
looks for the same value. -/
def union (elements : List FieldValue) (previous : Option FieldValue) :
    FieldValue :=
  .array (elements.foldl addNew (coercedArray previous))

/-- `Apply` of a removal: for each element its first occurrence goes. -/
def remove (elements : List FieldValue) (previous : Option FieldValue) :
    FieldValue :=
  .array (elements.foldl List.erase (coercedArray previous))

end ArrayTransform

namespace TransformOperation

def baseNumber (previous : Option FieldValue) : Number :=
  (previous.bind FieldValue.number?).getD (.integer 0)

def computeBaseValue (op : TransformOperation)
    (previous : Option FieldValue) : Option FieldValue :=
  match op with
  | .increment _ => some (baseNumber previous).toFieldValue
  | _ => none

def addNumbers [DoubleArithmetic] : Number → Number → Number
  | .integer base, .integer operand => .integer (safeIncrement base operand)
  | base, operand =>
      .double (DoubleArithmetic.add base.asDouble operand.asDouble)

def applyToLocalView [DoubleArithmetic] (op : TransformOperation)
    (previous : Option FieldValue) (localWriteTime : Timestamp) : FieldValue :=
  match op with
  | .serverTimestamp => .serverTimestamp localWriteTime previous
  | .arrayUnion elements => ArrayTransform.union elements previous
  | .arrayRemove elements => ArrayTransform.remove elements previous
  | .increment operand =>
      (addNumbers (baseNumber previous) operand).toFieldValue

/-- `ApplyToRemoteDocument`; for an array the server's result is null. -/
def applyToRemoteDocument (op : TransformOperation)
    (previous : Option FieldValue) (transformResult : FieldValue) :
    FieldValue :=
  match op with
  | .serverTimestamp => transformResult
  | .arrayUnion elements => ArrayTransform.union elements previous
  | .arrayRemove elements => ArrayTransform.remove elements previous
  | .increment _ => transformResult

end TransformOperation

/-! ## Increments stay in the range of `int64_t` -/

theorem safeIncrement_eq_clamp {x y : Int} (hx : Int64Range x)
    (hy : Int64Range y) :
    safeIncrement x y = max LONG_MIN (min LONG_MAX (x + y)) := by
  unfold Int64Range at hx hy
  unfold safeIncrement
  have hmin : LONG_MIN = -9223372036854775808 := rfl
  have hmax : LONG_MAX = 9223372036854775807 := rfl
  split
  next h => omega
  next h =>
    split
    next h' => omega
    next h' => omega

@[simp] theorem FieldValue.number?_toFieldValue (n : Number) :
    n.toFieldValue.number? = some n := by
  cases n <;> rfl

@[simp] theorem TransformOperation.baseNumber_number (n : Number) :
    baseNumber (some n.toFieldValue) = n := by
  rw [baseNumber, Option.bind_some, FieldValue.number?_toFieldValue,
    Option.getD_some]

/-! ## Array transforms applied twice -/

namespace ArrayTransform

/-- A union takes nothing new from a second application. -/
theorem union_union (elements : List FieldValue)
    (previous : Option FieldValue) :
    union elements (some (union elements previous)) =
      union elements previous := by
  have hall : ∀ y ∈ elements,
      y ∈ elements.foldl addNew (coercedArray previous) := fun y hy =>
    mem_foldl_addNew.mpr (.inr hy)
  unfold union
  rw [coercedArray, foldl_addNew_of_subset hall]

theorem count_foldl_erase (xs ys : List FieldValue) (x : FieldValue) :
    (ys.foldl List.erase xs).count x = xs.count x - ys.count x := by
  rw [← List.diff_eq_foldl]
  exact List.count_diff x xs ys

theorem foldl_erase_eq_self_iff (xs ys : List FieldValue) :
    ys.foldl List.erase xs = xs ↔ ∀ y ∈ ys, y ∉ xs := by
  constructor
  · intro h y hy hmem
    have hcount := congrArg (List.count y) h
    rw [count_foldl_erase] at hcount
    have hxs : 0 < xs.count y := List.count_pos_iff.mpr hmem
    have hys : 0 < ys.count y := List.count_pos_iff.mpr hy
    omega
  · intro h
    induction ys with
    | nil => rfl
    | cons y ys ih =>
        obtain ⟨hy, hys⟩ := List.forall_mem_cons.mp h
        rw [List.foldl_cons, List.erase_of_not_mem hy, ih hys]

/-- A removal takes nothing more from a second application exactly when no
element stands in the array more often than in the list of removals. -/
theorem remove_remove_iff (elements : List FieldValue)
    (previous : Option FieldValue) :
    remove elements (some (remove elements previous)) =
        remove elements previous ↔
      ∀ y ∈ elements,
        (coercedArray previous).count y ≤ elements.count y := by
  unfold remove
  rw [coercedArray, FieldValue.array.injEq, foldl_erase_eq_self_iff]
  have hcount : ∀ y, y ∉ elements.foldl List.erase (coercedArray previous) ↔
      (coercedArray previous).count y ≤ elements.count y := by
    intro y
    rw [← List.count_eq_zero, count_foldl_erase]
    omega
  simp only [hcount]

end ArrayTransform

end Grocr.Firestore.Model
