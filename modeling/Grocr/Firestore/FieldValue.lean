import Mathlib.Data.String.Basic
import Mathlib.Tactic.Common
import Grocr.Support.Entries
import Grocr.Firestore.Collection
/-!
# Field values of the client

The values that the Firestore client keeps for the fields of a document, maps
inside maps included, and `ObjectValue`: the fields themselves, read, set and
deleted along a field path.
-/

namespace Grocr.Firestore.Model

open Grocr.Support

/-- An instant, counted from the one that `Timestamp()` stands for. -/
abbrev Timestamp := Nat

/-- `other` stands for blobs, references and geo points, a double is its bit
pattern with one NaN. -/
inductive FieldValue
  | null
  | boolean (value : Bool)
  | integer (value : Int)
  | double (bits : UInt64)
  | timestamp (value : Timestamp)
  | serverTimestamp (localWriteTime : Timestamp)
      (previousValue : Option FieldValue)
  | string (value : String)
  | other (value : String)
  | array (elements : List FieldValue)
  | object (entries : List (String × FieldValue))

namespace FieldValue

/-! ## Equality -/

mutual

def equals : FieldValue → FieldValue → Bool
  | .null, .null => true
  | .boolean a, .boolean b => a == b
  | .integer a, .integer b => a == b
  | .double a, .double b => a == b
  | .timestamp a, .timestamp b => a == b
  | .serverTimestamp a p, .serverTimestamp b q => a == b && equalsOption p q
  | .string a, .string b => a == b
  | .other a, .other b => a == b
  | .array as, .array bs => equalsElements as bs
  | .object as, .object bs => equalsEntries as bs
  | _, _ => false
termination_by structural a => a

def equalsOption : Option FieldValue → Option FieldValue → Bool
  | none, none => true
  | some a, some b => equals a b
  | _, _ => false
termination_by structural a => a

def equalsElements : List FieldValue → List FieldValue → Bool
  | [], [] => true
  | a :: as, b :: bs => equals a b && equalsElements as bs
  | _, _ => false
termination_by structural as => as

def equalsEntries :
    List (String × FieldValue) → List (String × FieldValue) → Bool
  | [], [] => true
  | (k, a) :: as, (l, b) :: bs => k == l && equals a b && equalsEntries as bs
  | _, _ => false
termination_by structural as => as

end

mutual

theorem equals_iff (a b : FieldValue) : equals a b = true ↔ a = b := by
  cases a with
  | null => cases b <;> simp [equals]
  | boolean a => cases b <;> simp [equals]
  | integer a => cases b <;> simp [equals]
  | double a => cases b <;> simp [equals]
  | timestamp a => cases b <;> simp [equals]
  | serverTimestamp a p => cases b <;> simp [equals, equalsOption_iff p]
  | string a => cases b <;> simp [equals]
  | other a => cases b <;> simp [equals]
  | array as => cases b <;> simp [equals, equalsElements_iff as]
  | object as => cases b <;> simp [equals, equalsEntries_iff as]
termination_by structural a

theorem equalsOption_iff (a b : Option FieldValue) :
    equalsOption a b = true ↔ a = b := by
  cases a with
  | none => cases b <;> simp [equalsOption]
  | some a => cases b <;> simp [equalsOption, equals_iff a]
termination_by structural a

theorem equalsElements_iff (as bs : List FieldValue) :
    equalsElements as bs = true ↔ as = bs := by
  cases as with
  | nil => cases bs <;> simp [equalsElements]
  | cons a as =>
      cases bs <;> simp [equalsElements, equals_iff a, equalsElements_iff as]
termination_by structural as

theorem equalsEntries_iff (as bs : List (String × FieldValue)) :
    equalsEntries as bs = true ↔ as = bs := by
  match as, bs with
  | [], [] => simp [equalsEntries]
  | [], _ :: _ => simp [equalsEntries]
  | _ :: _, [] => simp [equalsEntries]
  | (k, a) :: as, (l, b) :: bs =>
      simp [equalsEntries, equals_iff a b, equalsEntries_iff as bs]
termination_by structural as

end

instance : DecidableEq FieldValue :=
  fun a b => decidable_of_iff _ (equals_iff a b)

end FieldValue

/-! ## Field paths -/

abbrev FieldPath := List String

/-- Neither path leads through the field of the other. -/
def FieldPath.Apart (p q : FieldPath) : Prop := ¬ p <+: q ∧ ¬ q <+: p

namespace FieldPath

instance (p q : FieldPath) : Decidable (Apart p q) :=
  inferInstanceAs (Decidable (¬ p <+: q ∧ ¬ q <+: p))

theorem apart_cons {k l : String} {p q : FieldPath} :
    Apart (k :: p) (l :: q) ↔ k ≠ l ∨ Apart p q := by
  unfold Apart
  rw [List.cons_prefix_cons, List.cons_prefix_cons, eq_comm (a := l)]
  tauto

@[simp] theorem not_apart_nil_left (q : FieldPath) : ¬ Apart [] q :=
  fun h => h.1 List.nil_prefix

@[simp] theorem not_apart_nil_right (p : FieldPath) : ¬ Apart p [] :=
  fun h => h.2 List.nil_prefix

end FieldPath

abbrev FieldMask := List FieldPath

/-! ## Objects -/

/-- The fields of a document or of a map, in increasing order of the names. -/
abbrev ObjectValue := List (String × FieldValue)

def FieldValue.get : FieldValue → FieldPath → Option FieldValue
  | v, [] => some v
  | .object es, k :: path =>
      match Entries.find? es k with
      | none => none
      | some v => get v path
  | _, _ :: _ => none

namespace ObjectValue

def get (o : ObjectValue) (path : FieldPath) : Option FieldValue :=
  (FieldValue.object o).get path

/-- The map that `set` works on below `k`: a value that is not a map gives way
to an empty one. -/
def child (o : ObjectValue) (k : String) : ObjectValue :=
  match Entries.find? o k with
  | some (.object es) => es
  | _ => []

/-- `Set`; the empty path is ruled out by an assertion. -/
def set (o : ObjectValue) (value : FieldValue) : FieldPath → ObjectValue
  | [] => o
  | [k] => Entries.insert o k value
  | k :: path => Entries.insert o k (.object (set (child o k) value path))

/-- `Delete`; a value that is not a map stays as it is. -/
def delete (o : ObjectValue) : FieldPath → ObjectValue
  | [] => o
  | [k] => Entries.erase o k
  | k :: path =>
      match Entries.find? o k with
      | some (.object es) => Entries.insert o k (.object (delete es path))
      | _ => o

mutual

/-- The paths inside a map value; other values have none. -/
def nestedMask : FieldValue → FieldMask
  | .object es => toFieldMask es
  | _ => []
termination_by structural v => v

/-- `ToFieldMask`: the paths to the leaves; a map without fields is a leaf. -/
def toFieldMask : List (String × FieldValue) → FieldMask
  | [] => []
  | (k, v) :: es =>
      (if nestedMask v = [] then [[k]]
        else (nestedMask v).map (fun path => k :: path)) ++ toFieldMask es
termination_by structural es => es

end

/-! ## What is read after an update -/

@[simp] theorem get_nil (o : ObjectValue) : o.get [] = some (.object o) := rfl

theorem get_cons (o : ObjectValue) (k : String) (path : FieldPath) :
    o.get (k :: path) = (Entries.find? o k).bind (fun v => v.get path) := by
  rw [get, FieldValue.get]
  cases Entries.find? o k <;> rfl

theorem get_child (o : ObjectValue) (k l : String) (path : FieldPath) :
    (o.child k).get (l :: path) = o.get (k :: l :: path) := by
  rw [get_cons o, child]
  cases h : Entries.find? o k with
  | none => rfl
  | some v => cases v <;> rfl

theorem get_append (o : ObjectValue) (p q : FieldPath) :
    o.get (p ++ q) = (o.get p).bind (fun v => v.get q) := by
  unfold get
  generalize FieldValue.object o = v
  induction p generalizing v with
  | nil => cases v <;> rfl
  | cons k p ih =>
      cases v with
      | object es =>
          simp only [List.cons_append, FieldValue.get]
          cases Entries.find? es k with
          | none => rfl
          | some w => exact ih w
      | _ => rfl

theorem set_cons_cons (o : ObjectValue) (v : FieldValue) (k l : String)
    (path : FieldPath) :
    o.set v (k :: l :: path) =
      Entries.insert o k (.object ((o.child k).set v (l :: path))) := rfl

theorem get_set_self {path : FieldPath} (o : ObjectValue) (v : FieldValue)
    (hpath : path ≠ []) : (o.set v path).get path = some v := by
  induction path generalizing o with
  | nil => exact absurd rfl hpath
  | cons k path ih =>
      cases path with
      | nil =>
          rw [set, get_cons, Entries.find?_insert_self]
          rfl
      | cons l path =>
          rw [set_cons_cons, get_cons, Entries.find?_insert_self]
          exact ih (o.child k) (by simp)

theorem get_set_append {path : FieldPath} (o : ObjectValue) (v : FieldValue)
    (hpath : path ≠ []) (rest : FieldPath) :
    (o.set v path).get (path ++ rest) = v.get rest := by
  rw [get_append, get_set_self o v hpath, Option.bind_some]

theorem get_set_of_apart {p q : FieldPath} (o : ObjectValue) (v : FieldValue)
    (h : p.Apart q) : (o.set v p).get q = o.get q := by
  induction p generalizing o q with
  | nil => exact absurd h (FieldPath.not_apart_nil_left q)
  | cons k p ih =>
      cases q with
      | nil => exact absurd h (FieldPath.not_apart_nil_right _)
      | cons l q =>
          by_cases hkl : l = k
          · subst hkl
            have hpq : FieldPath.Apart p q := by
              rcases FieldPath.apart_cons.mp h with hne | hpq
              · exact absurd rfl hne
              · exact hpq
            cases p with
            | nil => exact absurd hpq (FieldPath.not_apart_nil_left q)
            | cons m p =>
                cases q with
                | nil => exact absurd hpq (FieldPath.not_apart_nil_right _)
                | cons n q =>
                    rw [set_cons_cons, get_cons, Entries.find?_insert_self,
                      ← get_child o l n q]
                    exact ih (o.child l) hpq
          · have hfind (w : FieldValue) :
                get (Entries.insert o k w) (l :: q) = get o (l :: q) := by
              rw [get_cons, get_cons, Entries.find?_insert_of_ne o w hkl]
            cases p with
            | nil => exact hfind v
            | cons m p => exact hfind _

theorem delete_cons_cons (o : ObjectValue) (k l : String) (path : FieldPath) :
    o.delete (k :: l :: path) =
      match Entries.find? o k with
      | some (.object es) =>
          Entries.insert o k (.object (delete es (l :: path)))
      | _ => o := rfl

theorem get_delete_self {path : FieldPath} (o : ObjectValue)
    (hpath : path ≠ []) : (o.delete path).get path = none := by
  induction path generalizing o with
  | nil => exact absurd rfl hpath
  | cons k path ih =>
      cases path with
      | nil => rw [delete, get_cons, Entries.find?_erase_self, Option.bind_none]
      | cons l path =>
          rw [delete_cons_cons]
          split
          next es hes =>
            rw [get_cons, Entries.find?_insert_self]
            exact ih es (by simp)
          next hnone =>
            rw [get_cons]
            cases hv : Entries.find? o k with
            | none => rfl
            | some v =>
                cases v with
                | object es => exact absurd hv (hnone es)
                | _ => rfl

theorem get_delete_append {path : FieldPath} (o : ObjectValue)
    (hpath : path ≠ []) (rest : FieldPath) :
    (o.delete path).get (path ++ rest) = none := by
  rw [get_append, get_delete_self o hpath, Option.bind_none]

theorem get_delete_of_apart {p q : FieldPath} (o : ObjectValue)
    (h : p.Apart q) : (o.delete p).get q = o.get q := by
  induction p generalizing o q with
  | nil => exact absurd h (FieldPath.not_apart_nil_left q)
  | cons k p ih =>
      cases q with
      | nil => exact absurd h (FieldPath.not_apart_nil_right _)
      | cons l q =>
          cases p with
          | nil =>
              have hlk : l ≠ k := by
                rcases FieldPath.apart_cons.mp h with hne | hnil
                · exact hne.symm
                · exact absurd hnil (FieldPath.not_apart_nil_left q)
              rw [delete, get_cons, get_cons, Entries.find?_erase_of_ne o hlk]
          | cons m p =>
              rw [delete_cons_cons]
              split
              next es hes =>
                by_cases hkl : l = k
                · subst hkl
                  have hpq : FieldPath.Apart (m :: p) q := by
                    rcases FieldPath.apart_cons.mp h with hne | hpq
                    · exact absurd rfl hne
                    · exact hpq
                  rw [get_cons, Entries.find?_insert_self, get_cons o, hes]
                  exact ih es hpq
                · rw [get_cons, get_cons, Entries.find?_insert_of_ne o _ hkl]
              next => rfl

end ObjectValue

end Grocr.Firestore.Model
