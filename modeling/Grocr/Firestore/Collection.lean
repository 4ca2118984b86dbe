import Mathlib.Data.String.Basic
import Grocr.Support.FirstSeen
import Grocr.Support.SortedTable
/-!
# Documents of a Firestore collection

The values a document holds, the Swift casts that read them back, and the
requests of the app on one collection: `setData`, `updateData` with
`FieldValue.arrayUnion`, `delete` and `getDocuments`, the last listing the
documents in document-ID order.
-/

namespace Grocr.Firestore

open Grocr.Support

/-- The values of a field that are not arrays.  A number without a fraction is
an `integer`; `other` stands for fractions, timestamps, maps and whatever else
no cast of the app takes. -/
inductive Scalar
  | null
  | boolean (value : Bool)
  | integer (value : Int)
  | string (value : String)
  | other (value : String)
deriving DecidableEq

/-- A field's value.  Firestore refuses an array directly inside an array. -/
inductive FieldValue
  | scalar (value : Scalar)
  | array (elements : List Scalar)
deriving DecidableEq

namespace FieldValue

def string (s : String) : FieldValue := .scalar (.string s)

def boolean (b : Bool) : FieldValue := .scalar (.boolean b)

def integer (n : Int) : FieldValue := .scalar (.integer n)

def strings (ss : List String) : FieldValue := .array (ss.map .string)

end FieldValue

/-! ## Swift casts of field values -/

namespace Scalar

def asString : Scalar → Option String
  | .string s => some s
  | _ => none

/-- `as? Bool`; a number that is exactly 0 or 1 bridges to `Bool`. -/
def asBool : Scalar → Option Bool
  | .boolean b => some b
  | .integer n => if n = 0 then some false else if n = 1 then some true else none
  | _ => none

/-- `as? Int`; a Boolean bridges to 0 or 1. -/
def asInt : Scalar → Option Int
  | .integer n => some n
  | .boolean b => some (if b then 1 else 0)
  | _ => none

end Scalar

namespace FieldValue

def asString : FieldValue → Option String
  | .scalar v => v.asString
  | .array _ => none

def asBool : FieldValue → Option Bool
  | .scalar v => v.asBool
  | .array _ => none

def asInt : FieldValue → Option Int
  | .scalar v => v.asInt
  | .array _ => none

/-- `as? [String]`: every element has to be a string. -/
def asStrings : FieldValue → Option (List String)
  | .scalar _ => none
  | .array elements => elements.mapM Scalar.asString

@[simp] theorem asString_string (s : String) :
    (FieldValue.string s).asString = some s := rfl

@[simp] theorem asBool_boolean (b : Bool) :
    (FieldValue.boolean b).asBool = some b := rfl

@[simp] theorem asInt_integer (n : Int) :
    (FieldValue.integer n).asInt = some n := rfl

@[simp] theorem asStrings_strings (ss : List String) :
    (FieldValue.strings ss).asStrings = some ss := by
  simp only [strings, asStrings]
  induction ss with
  | nil => rfl
  | cons s ss ih => simp [Scalar.asString, ih]

theorem strings_inj {ss ts : List String} (h : strings ss = strings ts) :
    ss = ts := by
  have hread := congrArg asStrings h
  rw [asStrings_strings, asStrings_strings] at hread
  exact Option.some.inj hread

end FieldValue

/-! ## Array union -/

namespace ArrayTransform

/-- The elements of an array value; anything else counts as no elements. -/
def coercedFieldValuesArray : Option FieldValue → List Scalar
  | some (.array elements) => elements
  | _ => []

/-- `ArrayTransform::Rep::Apply` for an array union: each element is pushed
unless the result already contains it. -/
def apply (elements : List Scalar) (previousValue : Option FieldValue) :
    FieldValue :=
  .array (elements.foldl addNew (coercedFieldValuesArray previousValue))

theorem map_string_addNew (ss : List String) (s : String) :
    (addNew ss s).map Scalar.string = addNew (ss.map .string) (.string s) := by
  by_cases h : s ∈ ss
  · have hmem : Scalar.string s ∈ ss.map Scalar.string :=
      List.mem_map_of_mem h
    rw [addNew_of_mem h, addNew_of_mem hmem]
  · have hmem : Scalar.string s ∉ ss.map Scalar.string := by
      simpa using h
    rw [addNew_of_not_mem h, addNew_of_not_mem hmem]
    simp

/-- The union of one string with an array of strings. -/
theorem apply_strings (ss : List String) (s : String) :
    apply [.string s] (some (.strings ss)) = .strings (addNew ss s) := by
  simp only [apply, FieldValue.strings, coercedFieldValuesArray,
    List.foldl_cons, List.foldl_nil, map_string_addNew]

end ArrayTransform

/-! ## Requests on a collection -/

abbrev Fields := Table String FieldValue

abbrev Collection := Table String Fields

/-- `QueryDocumentSnapshot` -/
structure Document where
  documentID : String
  data : Fields
deriving DecidableEq

/-- `document(documentID).updateData([field: FieldValue.arrayUnion(elements)])` -/
structure Update where
  documentID : String
  field : String
  elements : List Scalar
deriving DecidableEq

namespace Update

def applyTo (u : Update) (data : Fields) : Fields :=
  data.insert u.field (ArrayTransform.apply u.elements (data.find? u.field))

@[simp] theorem find?_applyTo (u : Update) (data : Fields) (field : String) :
    (u.applyTo data).find? field =
      if field = u.field then
        some (ArrayTransform.apply u.elements (data.find? u.field))
      else data.find? field :=
  Table.find?_insert _ _ _ _

end Update

namespace Collection

/-- `getDocuments`: every document, in the order of the document IDs. -/
def getDocuments (c : Collection) : List Document :=
  c.entries.map fun e => ⟨e.1, e.2⟩

def setData (c : Collection) (id : String) (data : Fields) : Collection :=
  c.insert id data

/-- `updateData` has the precondition that the document exists. -/
def updateData (c : Collection) (u : Update) : Option Collection :=
  if u.documentID ∈ c.keys then some (c.modify u.documentID u.applyTo)
  else none

def delete (c : Collection) (id : String) : Collection :=
  c.erase id

@[simp] theorem map_documentID (c : Collection) :
    c.getDocuments.map Document.documentID = c.keys := by
  simp [getDocuments, Table.keys]

theorem mem_getDocuments {c : Collection} {d : Document} :
    d ∈ c.getDocuments ↔ c.find? d.documentID = some d.data := by
  rw [Table.find?_eq_some, getDocuments, List.mem_map]
  constructor
  · rintro ⟨e, he, rfl⟩
    exact he
  · exact fun h => ⟨(d.documentID, d.data), h, rfl⟩

theorem getDocuments_getElem?_rank {c : Collection} {id : String}
    {data : Fields} (h : c.find? id = some data) :
    c.getDocuments[c.rank id]? = some ⟨id, data⟩ := by
  rw [getDocuments, List.getElem?_map,
    Table.getElem?_rank (Table.find?_eq_some.mp h)]
  rfl

theorem documentID_getElem?_iff {c : Collection} {row : Nat} {id : String} :
    (c.getDocuments[row]?).map Document.documentID = some id ↔
      id ∈ c.keys ∧ c.rank id = row := by
  rw [← List.getElem?_map, map_documentID]
  exact Table.keys_getElem?_iff

theorem find?_setData (c : Collection) (id id' : String) (data : Fields) :
    (c.setData id data).find? id' =
      if id' = id then some data else c.find? id' :=
  Table.find?_insert _ _ _ _

theorem updateData_eq_some {c c' : Collection} {u : Update} :
    c.updateData u = some c' ↔
      u.documentID ∈ c.keys ∧ c' = c.modify u.documentID u.applyTo := by
  unfold updateData
  split <;> simp_all [eq_comm]

/-- Updates of one existing document all succeed, and act on it in turn. -/
theorem foldlM_updateData {c : Collection} {us : List Update} {id : String}
    {data : Fields} (hus : ∀ u ∈ us, u.documentID = id)
    (h : c.find? id = some data) :
    ∃ c', us.foldlM updateData c = some c' ∧
      c'.find? id = some (us.foldl (fun d u => u.applyTo d) data) := by
  induction us generalizing c data with
  | nil => exact ⟨c, rfl, h⟩
  | cons u us ih =>
      obtain ⟨rfl, hrest⟩ := List.forall_mem_cons.mp hus
      have hmem : u.documentID ∈ c.keys :=
        Table.mem_keys_iff_find?.mpr ⟨data, h⟩
      have hfind : (c.modify u.documentID u.applyTo).find? u.documentID =
          some (u.applyTo data) := by
        rw [Table.find?_modify, if_pos rfl, h, Option.map_some]
      obtain ⟨c', hc', hdata⟩ := ih hrest hfind
      refine ⟨c', ?_, hdata⟩
      rw [List.foldlM_cons, updateData, if_pos hmem]
      exact hc'

end Collection

end Grocr.Firestore
