import Mathlib.Data.List.Lex
import Mathlib.Data.List.Infix
import Mathlib.Tactic.Common
import Grocr.Support.SortedTable
import Grocr.Firestore.Mutation
/-!
# The messages of batches on disk

`Serializer` and `LocalSerializer`: a message names a document by one string
that begins with the database, and a field by its path with escapes.  Both are
taken apart again when the batch is read.  Values of fields, versions and times
stand for their encodings.
-/

namespace Grocr.Firestore.Model

open Grocr.Support

/-- Where the messages of batches stop the program. -/
inductive SerializerFailure
  /-- `reader->Fail`; the code reads on and stops at the end, with
  `MutationBatch proto failed to parse: %s` -/
  | failed
  /-- `Invalid path (%s). Paths must not contain // in them.` -/
  | pathSlashes
  /-- `Transforms only support precondition "exists == true"` -/
  | transformPrecondition
  /-- `Cannot create an empty mutation batch` -/
  | emptyBatch
  /-- `Unhandled type %s on %s` -/
  | unhandledType
deriving DecidableEq

/-! ## Paths as strings -/

namespace ResourcePath

def canonicalString (path : List String) : String :=
  String.ofList (['/'].intercalate (path.map String.toList))

/-- `FromStringView`, which skips empty segments. -/
def fromStringView (path : String) : Except SerializerFailure (List String) :=
  if ['/', '/'] <:+: path.toList then .error .pathSlashes
  else .ok (((path.toList.splitOn '/').filter (· ≠ [])).map String.ofList)

end ResourcePath

namespace FieldPath

def backtick : Char := '\x60'

def backslash : Char := '\x5c'

def isLetter (c : Char) : Bool :=
  c = '_' || ('a' ≤ c && c ≤ 'z') || ('A' ≤ c && c ≤ 'Z')

def isValidIdentifier : List Char → Bool
  | [] => false
  | first :: rest =>
      isLetter first && rest.all (fun c => isLetter c || ('0' ≤ c && c ≤ '9'))

/-- `StrReplaceAll` puts a backslash before backslashes and backticks. -/
def escape (segment : List Char) : List Char :=
  segment.flatMap fun c =>
    if c = backslash ∨ c = backtick then [backslash, c] else [c]

def escapedSegment (segment : List Char) : List Char :=
  let escaped := escape segment
  if isValidIdentifier escaped then escaped
  else backtick :: (escaped ++ [backtick])

def canonicalString (path : FieldPath) : String :=
  String.ofList
    (['.'].intercalate (path.map fun segment => escapedSegment segment.toList))

def finishSegment (segments : FieldPath) (segment : List Char) :
    Except SerializerFailure FieldPath :=
  if segment = [] then .error .failed
  else .ok (segments ++ [String.ofList segment])

/-- What follows the loop of `FromServerFormatView`. -/
def finishPath (segments : FieldPath) (segment : List Char)
    (insideBackticks : Bool) : Except SerializerFailure FieldPath := do
  let segments ← finishSegment segments segment
  if insideBackticks then .error .failed else return segments

mutual

/-- The loop of `FromServerFormatView`, which ends at the first null. -/
def readSegments (segments : FieldPath) (segment : List Char)
    (insideBackticks : Bool) : List Char → Except SerializerFailure FieldPath
  | [] => finishPath segments segment insideBackticks
  | c :: rest =>
      if c = '\x00' then finishPath segments segment insideBackticks
      else if c = '.' then
        if insideBackticks then
          readSegments segments (segment ++ [c]) insideBackticks rest
        else do
          let segments ← finishSegment segments segment
          readSegments segments [] insideBackticks rest
      else if c = backtick then
        readSegments segments segment (!insideBackticks) rest
      else if c = backslash then
        readEscaped segments segment insideBackticks rest
      else readSegments segments (segment ++ [c]) insideBackticks rest
termination_by structural path => path

/-- The character behind a backslash. -/
def readEscaped (segments : FieldPath) (segment : List Char)
    (insideBackticks : Bool) : List Char → Except SerializerFailure FieldPath
  | [] => .error .failed
  | c :: rest => readSegments segments (segment ++ [c]) insideBackticks rest
termination_by structural path => path

end

def fromServerFormat (path : String) : Except SerializerFailure FieldPath :=
  readSegments [] [] false path.toList

end FieldPath

/-! ## Values -/

mutual

/-- A value of the kind that only local views have. -/
def FieldValue.hasServerTimestamp : FieldValue → Bool
  | .serverTimestamp _ _ => true
  | .array elements => elementsHaveServerTimestamp elements
  | .object entries => entriesHaveServerTimestamp entries
  | _ => false
termination_by structural value => value

def elementsHaveServerTimestamp : List FieldValue → Bool
  | [] => false
  | value :: elements =>
      value.hasServerTimestamp || elementsHaveServerTimestamp elements
termination_by structural elements => elements

def entriesHaveServerTimestamp : List (String × FieldValue) → Bool
  | [] => false
  | (_, value) :: entries =>
      value.hasServerTimestamp || entriesHaveServerTimestamp entries
termination_by structural entries => entries

end

/-- The same, of the operands of a transform. -/
def TransformOperation.hasServerTimestamp : TransformOperation → Bool
  | .arrayUnion elements => elementsHaveServerTimestamp elements
  | .arrayRemove elements => elementsHaveServerTimestamp elements
  | _ => false

/-! ## Messages -/

structure FieldTransformMessage where
  fieldPath : String
  transformation : TransformOperation
deriving DecidableEq

inductive WriteOperation
  /-- A patch if there is a mask. -/
  | update (name : String) (fields : ObjectValue) (updateMask : Option (List String))
  | transform (document : String) (fieldTransforms : List FieldTransformMessage)
  | delete (name : String)
deriving DecidableEq

structure WriteMessage where
  /-- `none` also where `has_current_document` is false -/
  currentDocument : Precondition
  operation : WriteOperation
deriving DecidableEq

structure WriteBatchMessage where
  batchId : Int
  localWriteTime : Timestamp
  baseWrites : List WriteMessage
  writes : List WriteMessage
deriving DecidableEq

/-- The constructor asserts that neither ID is empty. -/
structure DatabaseId where
  projectId : String
  databaseId : String
  projectId_ne : projectId ≠ ""
  databaseId_ne : databaseId ≠ ""
deriving DecidableEq

end Grocr.Firestore.Model

namespace Grocr.Firestore.Remote.Serializer

open Grocr.Support Grocr.Firestore.Model

/-! ## Names of documents -/

def databaseName (databaseId : DatabaseId) : List String :=
  ["projects", databaseId.projectId, "databases", databaseId.databaseId]

def encodeResourceName (databaseId : DatabaseId) (path : List String) : String :=
  ResourcePath.canonicalString (databaseName databaseId ++ "documents" :: path)

def encodeKey (databaseId : DatabaseId) (key : DocumentKey) : String :=
  encodeResourceName databaseId key.path

def isValidResourceName (path : List String) : Bool :=
  4 ≤ path.length ∧ path[0]? = some "projects" ∧ path[2]? = some "databases"

def decodeResourceName (encoded : String) :
    Except SerializerFailure (List String) := do
  let resource ← ResourcePath.fromStringView encoded
  if isValidResourceName resource then return resource else .error .failed

def validateDocumentKeyPath (databaseId : DatabaseId)
    (resourceName : List String) : Except SerializerFailure Unit :=
  if resourceName.length < 5 then .error .failed
  else if resourceName[1]? ≠ some databaseId.projectId then .error .failed
  else if resourceName[3]? ≠ some databaseId.databaseId then .error .failed
  else .ok ()

def extractLocalPathFromResourceName (resourceName : List String) :
    Except SerializerFailure (List String) :=
  if resourceName.length ≤ 4 ∨ resourceName[4]? ≠ some "documents" then
    .error .failed
  else .ok (resourceName.drop 5)

def decodeKey (databaseId : DatabaseId) (name : String) :
    Except SerializerFailure DocumentKey := do
  let resourceName ← decodeResourceName name
  validateDocumentKeyPath databaseId resourceName
  let localPath ← extractLocalPathFromResourceName resourceName
  if h : localPath.length % 2 = 0 then return ⟨localPath, h⟩
  else .error .failed

/-! ## Mutations -/

/-- The fields of `EncodeDocument`. -/
def encodeFields (fields : ObjectValue) : Except SerializerFailure ObjectValue :=
  if entriesHaveServerTimestamp fields then .error .unhandledType
  else .ok fields

/-- `DecodeFields`; maps within the fields may have empty keys. -/
def decodeFields (fields : ObjectValue) : Except SerializerFailure ObjectValue :=
  if "" ∈ fields.map Prod.fst then .error .failed else .ok fields

/-- `DecodeFieldMask`, which makes a sorted set. -/
def decodeFieldMask (fieldPaths : List String) :
    Except SerializerFailure FieldMask := do
  let paths ← fieldPaths.mapM FieldPath.fromServerFormat
  let fields : Table FieldPath Unit :=
    paths.foldl (fun fields path => fields.insert path ()) Table.empty
  return fields.keys

def encodeFieldTransform (t : FieldTransform) :
    Except SerializerFailure FieldTransformMessage :=
  if t.transformation.hasServerTimestamp then .error .unhandledType
  else .ok ⟨FieldPath.canonicalString t.path, t.transformation⟩

/-- `DecodeFieldTransform`; a path that can be read is not empty. -/
def decodeFieldTransform (proto : FieldTransformMessage) :
    Except SerializerFailure FieldTransform := do
  let field ← FieldPath.fromServerFormat proto.fieldPath
  if h : field = [] then .error .failed
  else return ⟨field, proto.transformation, h⟩

def encodeMutation (databaseId : DatabaseId) :
    Mutation → Except SerializerFailure WriteMessage
  | .set key value precondition => do
      let fields ← encodeFields value
      return ⟨precondition, .update (encodeKey databaseId key) fields none⟩
  | .patch key value mask precondition => do
      let fields ← encodeFields value
      return ⟨precondition, .update (encodeKey databaseId key) fields
        (some (mask.map FieldPath.canonicalString))⟩
  | .transform key fieldTransforms => do
      let fieldTransforms ← fieldTransforms.mapM encodeFieldTransform
      return ⟨.exists true, .transform (encodeKey databaseId key) fieldTransforms⟩
  | .delete key precondition =>
      return ⟨precondition, .delete (encodeKey databaseId key)⟩

def decodeMutation (databaseId : DatabaseId) (mutation : WriteMessage) :
    Except SerializerFailure Mutation :=
  match mutation.operation with
  | .update name fields updateMask => do
      let key ← decodeKey databaseId name
      let value ← decodeFields fields
      match updateMask with
      | none => return .set key value mutation.currentDocument
      | some fieldPaths =>
          let mask ← decodeFieldMask fieldPaths
          return .patch key value mask mutation.currentDocument
  | .transform document fieldTransforms => do
      let fieldTransforms ← fieldTransforms.mapM decodeFieldTransform
      if mutation.currentDocument = .exists true then
        let key ← decodeKey databaseId document
        return .transform key fieldTransforms
      else .error .transformPrecondition
  | .delete name => do
      let key ← decodeKey databaseId name
      return .delete key mutation.currentDocument

end Grocr.Firestore.Remote.Serializer

namespace Grocr.Firestore.Local.LocalSerializer

open Grocr.Firestore.Model Grocr.Firestore.Remote

def encodeMutationBatch (databaseId : DatabaseId) (batch : MutationBatch) :
    Except SerializerFailure WriteBatchMessage := do
  let baseWrites ←
    batch.baseMutations.mapM (Serializer.encodeMutation databaseId)
  let writes ← batch.mutations.mapM (Serializer.encodeMutation databaseId)
  return ⟨batch.batchId, batch.localWriteTime, baseWrites, writes⟩

def decodeMutationBatch (databaseId : DatabaseId) (proto : WriteBatchMessage) :
    Except SerializerFailure MutationBatch := do
  let baseMutations ←
    proto.baseWrites.mapM (Serializer.decodeMutation databaseId)
  let mutations ← proto.writes.mapM (Serializer.decodeMutation databaseId)
  if h : mutations = [] then .error .emptyBatch
  else return ⟨proto.batchId, proto.localWriteTime, baseMutations, mutations, h⟩

end Grocr.Firestore.Local.LocalSerializer
