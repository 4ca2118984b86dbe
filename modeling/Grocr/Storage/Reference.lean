import Mathlib.Data.List.Basic
import Mathlib.Data.String.Basic
import Grocr.Support.SortedTable
/-!
# References into a storage bucket

`FIRStoragePath` normalises the object path of a reference: it splits the
path at slashes, drops the empty components and joins the rest again.  Two
references name one object when the components that are left agree.
-/

namespace Grocr.Storage

open Grocr.Support

/-- The slash-separated components of a path that are not empty. -/
def pathComponents (path : String) : List (List Char) :=
  (path.toList.splitOn '/').filter (fun component => component ≠ [])

/-- `standardizedPathForString:`, e.g. `/foo//bar///baz////` to
`foo/bar/baz`. -/
def standardizedPathForString (path : String) : String :=
  String.ofList (['/'].intercalate (pathComponents path))

/-- The object path of a `FIRStorageReference`; the root has none. -/
structure Reference where
  object : Option String
deriving DecidableEq

namespace Reference

def initWithObject (object : String) : Reference :=
  ⟨some (standardizedPathForString object)⟩

def root : Reference := ⟨none⟩

/-- `child:`; `stringByAppendingPathComponent:` puts a slash between the
receiver and the component, and the initializer normalises the result. -/
def child (r : Reference) (path : String) : Reference :=
  if path.isEmpty then r
  else
    match r.object with
    | none => initWithObject path
    | some object => initWithObject (object ++ "/" ++ path)

def withPath (path : String) : Reference := root.child path

def fullPath (r : Reference) : String := r.object.getD ""

end Reference

abbrev Bucket (Data : Type) := Table String Data

/-- `putData` replaces whatever is stored at the path. -/
def Bucket.putData {Data : Type} (b : Bucket Data) (r : Reference)
    (data : Data) : Bucket Data :=
  b.insert r.fullPath data

/-! ## Paths as component lists -/

theorem not_mem_of_mem_splitOn {a : Char} {xs piece : List Char}
    (h : piece ∈ xs.splitOn a) : a ∉ piece := by
  induction xs generalizing piece with
  | nil =>
      rw [List.splitOn_nil, List.mem_singleton] at h
      simp [h]
  | cons x xs ih =>
      rw [List.splitOn_cons_eq_if_modifyHead] at h
      split at h
      next =>
        rcases List.mem_cons.mp h with rfl | h
        · simp
        · exact ih h
      next hx =>
        obtain ⟨first, rest, hsplit⟩ :=
          List.exists_cons_of_ne_nil (List.splitOn_ne_nil a xs)
        rw [hsplit, List.modifyHead_cons] at h
        rcases List.mem_cons.mp h with rfl | h
        · have hfirst : a ∉ first := ih (by simp [hsplit])
          have hne : a ≠ x := by
            rintro rfl
            simp at hx
          simp [hne, hfirst]
        · exact ih (by simp [hsplit, h])

theorem pathComponents_append (s t : String) :
    pathComponents (s ++ "/" ++ t) = pathComponents s ++ pathComponents t := by
  have hlist : (s ++ "/" ++ t).toList = s.toList ++ '/' :: t.toList := by
    simp [String.toList_append]
  rw [pathComponents, hlist, List.splitOn_append_cons_self,
    List.filter_append]
  rfl

theorem pathComponents_standardized (path : String) :
    pathComponents (standardizedPathForString path) = pathComponents path := by
  have hclean : ∀ c ∈ pathComponents path, c ≠ [] ∧ '/' ∉ c := by
    intro c hc
    obtain ⟨hsplit, hne⟩ := List.mem_filter.mp hc
    exact ⟨by simpa using hne, not_mem_of_mem_splitOn hsplit⟩
  have hkeep : (pathComponents path).filter (fun c => c ≠ []) =
      pathComponents path :=
    List.filter_eq_self.mpr fun c hc => by simpa using (hclean c hc).1
  rw [pathComponents, standardizedPathForString, String.toList_ofList]
  by_cases hnil : pathComponents path = []
  · rw [hnil]
    rfl
  · rw [List.splitOn_intercalate '/' (fun c hc => (hclean c hc).2) hnil, hkeep]

/-- Two paths name one object exactly when their components agree. -/
theorem standardizedPathForString_inj {s t : String} :
    standardizedPathForString s = standardizedPathForString t ↔
      pathComponents s = pathComponents t := by
  constructor
  · intro h
    rw [← pathComponents_standardized s, h, pathComponents_standardized]
  · intro h
    rw [standardizedPathForString, standardizedPathForString, h]

namespace Reference

theorem fullPath_child {r : Reference} {object path : String}
    (hobject : r.object = some object) (hpath : path ≠ "") :
    (r.child path).fullPath =
      standardizedPathForString (object ++ "/" ++ path) := by
  have hempty : path.isEmpty = false := by
    simpa [String.isEmpty_iff] using hpath
  simp [child, hempty, hobject, initWithObject, fullPath]

end Reference

example : standardizedPathForString "/foo//bar///baz////" = "foo/bar/baz" := by
  decide

end Grocr.Storage
