import Mathlib.Tactic.Common
import Grocr.Proofs.OrderedNumbers
/-!
# The keys of the rows on disk

The rows of all tables are kept in one order, so the key of a row starts with
the name of its table.  Every component of a key has a label in front of it.
Paths are lists of byte strings here.
-/

namespace Grocr.Firestore.Local

open Grocr.Support Grocr.Firestore.Util.OrderedCode

inductive ComponentLabel
  | terminator
  | tableName
  | batchId
  | canonicalId
  | targetId
  | userId
  | collectionId
  | documentId
  | snapshotVersion
  | pathSegment
  | unknown
deriving DecidableEq

namespace ComponentLabel

/-- Larger than those of the other components is the label of a segment, so
that what lies under a path sorts after the rest of the rows of the path. -/
def value : ComponentLabel → Int
  | terminator => 0
  | tableName => 5
  | batchId => 10
  | canonicalId => 11
  | targetId => 12
  | userId => 13
  | collectionId => 14
  | documentId => 15
  | snapshotVersion => 16
  | pathSegment => 62
  | unknown => 63

end ComponentLabel

/-! ## `Writer` -/

def writeComponentLabel (label : ComponentLabel) : Bytes :=
  writeSignedNumIncreasing label.value

def writeLabeledInt32 (label : ComponentLabel) (value : Int) : Bytes :=
  writeComponentLabel label ++ writeSignedNumIncreasing value

def writeLabeledString (label : ComponentLabel) (value : Bytes) : Bytes :=
  writeComponentLabel label ++ writeString value

def writeTerminator : Bytes := writeComponentLabel .terminator

def writeTableName (tableName : Bytes) : Bytes :=
  writeLabeledString .tableName tableName

def writeBatchId (batchId : Int) : Bytes := writeLabeledInt32 .batchId batchId

def writeCanonicalId (canonicalId : Bytes) : Bytes :=
  writeLabeledString .canonicalId canonicalId

def writeTargetId (targetId : Int) : Bytes :=
  writeLabeledInt32 .targetId targetId

def writeUserId (userId : Bytes) : Bytes := writeLabeledString .userId userId

def writeCollectionId (collectionId : Bytes) : Bytes :=
  writeLabeledString .collectionId collectionId

def writeDocumentId (documentId : Bytes) : Bytes :=
  writeLabeledString .documentId documentId

/-- The seconds and the nanoseconds of a version. -/
def writeSnapshotVersion (version : Int × Int) : Bytes :=
  writeComponentLabel .snapshotVersion ++
    (writeSignedNumIncreasing version.1 ++ writeSignedNumIncreasing version.2)

def writeResourcePath (path : List Bytes) : Bytes :=
  path.flatMap (writeLabeledString .pathSegment)

/-! ## `Reader` -/

/-- A read from the front of what is left of a key; once one has failed, all do.
-/
abbrev Reader (α : Type) := StateT Bytes (Except ReadError) α

def fail {α : Type} : Reader α := throw .failed

def InInt32 (val : Int) : Prop := -2147483648 ≤ val ∧ val ≤ 2147483647

instance (val : Int) : Decidable (InInt32 val) :=
  inferInstanceAs (Decidable (_ ∧ _))

def readInt64 : Reader Int := readSignedNumIncreasing

def readBytes : Reader Bytes := readString

/-- `ReadComponentLabelMatching`: another label is no failure. -/
def readComponentLabelMatching (expectedLabel : ComponentLabel) :
    Reader Bool := do
  let rawResult ← readInt64
  return rawResult = expectedLabel.value

def readInt32 : Reader Int := do
  let rawResult ← readInt64
  if InInt32 rawResult then return rawResult else fail

def readLabel (expectedLabel : ComponentLabel) : Reader Unit := do
  let matching ← readComponentLabelMatching expectedLabel
  if matching then return () else fail

def readLabeledInt32 (expectedLabel : ComponentLabel) : Reader Int := do
  readLabel expectedLabel
  readInt32

def readLabeledString (expectedLabel : ComponentLabel) : Reader Bytes := do
  readLabel expectedLabel
  readBytes

def readTableNameMatching (expectedTableName : Bytes) : Reader Unit := do
  let tableName ← readLabeledString .tableName
  if tableName = expectedTableName then return () else fail

def readBatchId : Reader Int := readLabeledInt32 .batchId

def readCanonicalId : Reader Bytes := readLabeledString .canonicalId

def readTargetId : Reader Int := readLabeledInt32 .targetId

def readUserId : Reader Bytes := readLabeledString .userId

def readCollectionId : Reader Bytes := readLabeledString .collectionId

def readDocumentId : Reader Bytes := readLabeledString .documentId

def ValidateBounds (seconds nanos : Int) : Prop :=
  0 ≤ nanos ∧ nanos < 1000000000 ∧
    -62135596800 ≤ seconds ∧ seconds < 253402300800

instance (seconds nanos : Int) : Decidable (ValidateBounds seconds nanos) :=
  inferInstanceAs (Decidable (_ ∧ _))

/-- `ReadSnapshotVersion`: the version is built, and checked, from what was
read and zeros, also when the reader has failed. -/
def readSnapshotVersion : Reader (Int × Int) := do
  readLabel .snapshotVersion
  let seconds ← readInt64
  fun src =>
    match readInt32 src with
    | .ok (nanos, rest) =>
        if ValidateBounds seconds nanos then .ok ((seconds, nanos), rest)
        else .error .hardAssert
    | .error .failed =>
        if ValidateBounds seconds 0 then .error .failed
        else .error .hardAssert
    | .error .hardAssert => .error .hardAssert

/-- `ReadResourcePath`: the segments in front, up to another label or to the end
of the key. -/
def readResourcePath (src : Bytes) : Except ReadError (List Bytes × Bytes) :=
  if src = [] then .ok ([], [])
  else
    match _hlabel : readSignedNumIncreasing src with
    | .error e => .error e
    | .ok (rawResult, rest) =>
        if rawResult = ComponentLabel.pathSegment.value then
          match _hsegment : readString rest with
          | .error e => .error e
          | .ok (segment, rest) =>
              (readResourcePath rest).map fun e => (segment :: e.1, e.2)
        else .ok ([], src)
termination_by src.length
decreasing_by
  have hlabel := congrArg List.length (readSigned_iff.mp _hlabel).2
  have hsegment :=
    congrArg List.length (writeString_of_readString _hsegment)
  rw [List.length_append] at hlabel hsegment
  have hlong : 0 < (writeString segment).length := by
    rw [writeString, List.length_append]
    simp
  omega

/-- `ReadDocumentKey`: a path to a document is not empty and goes in pairs. -/
def readDocumentKey : Reader (List Bytes) := do
  let path ← (readResourcePath : Reader (List Bytes))
  if path ≠ [] ∧ path.length % 2 = 0 then return path else fail

def readTerminator : Reader Unit := readLabel .terminator

/-! ## The tables -/

def bytesOf (name : String) : Bytes := name.toUTF8.data.toList

def kVersionGlobalTable : Bytes := bytesOf "version"

def kMutationsTable : Bytes := bytesOf "mutation"

def kDocumentMutationsTable : Bytes := bytesOf "document_mutation"

def kMutationQueuesTable : Bytes := bytesOf "mutation_queue"

def kTargetGlobalTable : Bytes := bytesOf "target_global"

def kTargetsTable : Bytes := bytesOf "target"

def kQueryTargetsTable : Bytes := bytesOf "query_target"

def kTargetDocumentsTable : Bytes := bytesOf "target_document"

def kDocumentTargetsTable : Bytes := bytesOf "document_target"

def kRemoteDocumentsTable : Bytes := bytesOf "remote_document"

def kCollectionParentsTable : Bytes := bytesOf "collection_parent"

def kRemoteDocumentReadTimeTable : Bytes := bytesOf "remote_document_read_time"

/-- What `Decode` reads from a key; it does not look at what follows. -/
def decodeWith {α : Type} (reader : Reader α) (key : Bytes) :
    Except ReadError α :=
  (reader key).map Prod.fst

namespace LevelDbVersionKey

def key : Bytes := writeTableName kVersionGlobalTable ++ writeTerminator

end LevelDbVersionKey

namespace LevelDbMutationKey

def keyPrefix : Bytes := writeTableName kMutationsTable

def keyPrefixOfUser (userId : Bytes) : Bytes :=
  writeTableName kMutationsTable ++ writeUserId userId

def key (userId : Bytes) (batchId : Int) : Bytes :=
  writeTableName kMutationsTable ++ (writeUserId userId ++
    (writeBatchId batchId ++ writeTerminator))

def reader : Reader (Bytes × Int) := do
  readTableNameMatching kMutationsTable
  let userId ← readUserId
  let batchId ← readBatchId
  readTerminator
  return (userId, batchId)

end LevelDbMutationKey

namespace LevelDbDocumentMutationKey

def keyPrefix : Bytes := writeTableName kDocumentMutationsTable

def keyPrefixOfUser (userId : Bytes) : Bytes :=
  writeTableName kDocumentMutationsTable ++ writeUserId userId

def keyPrefixOfPath (userId : Bytes) (resourcePath : List Bytes) : Bytes :=
  writeTableName kDocumentMutationsTable ++ (writeUserId userId ++
    writeResourcePath resourcePath)

def key (userId : Bytes) (documentKey : List Bytes) (batchId : Int) : Bytes :=
  writeTableName kDocumentMutationsTable ++ (writeUserId userId ++
    (writeResourcePath documentKey ++
      (writeBatchId batchId ++ writeTerminator)))

def reader : Reader (Bytes × List Bytes × Int) := do
  readTableNameMatching kDocumentMutationsTable
  let userId ← readUserId
  let documentKey ← readDocumentKey
  let batchId ← readBatchId
  readTerminator
  return (userId, documentKey, batchId)

end LevelDbDocumentMutationKey

namespace LevelDbMutationQueueKey

def keyPrefix : Bytes := writeTableName kMutationQueuesTable

def key (userId : Bytes) : Bytes :=
  writeTableName kMutationQueuesTable ++ (writeUserId userId ++
    writeTerminator)

def reader : Reader Bytes := do
  readTableNameMatching kMutationQueuesTable
  let userId ← readUserId
  readTerminator
  return userId

end LevelDbMutationQueueKey

namespace LevelDbTargetGlobalKey

def key : Bytes := writeTableName kTargetGlobalTable ++ writeTerminator

def reader : Reader Unit := do
  readTableNameMatching kTargetGlobalTable
  readTerminator

end LevelDbTargetGlobalKey

namespace LevelDbTargetKey

def keyPrefix : Bytes := writeTableName kTargetsTable

def key (targetId : Int) : Bytes :=
  writeTableName kTargetsTable ++ (writeTargetId targetId ++ writeTerminator)

def reader : Reader Int := do
  readTableNameMatching kTargetsTable
  let targetId ← readTargetId
  readTerminator
  return targetId

end LevelDbTargetKey

namespace LevelDbQueryTargetKey

def keyPrefix : Bytes := writeTableName kQueryTargetsTable

def keyPrefixOfId (canonicalId : Bytes) : Bytes :=
  writeTableName kQueryTargetsTable ++ writeCanonicalId canonicalId

def key (canonicalId : Bytes) (targetId : Int) : Bytes :=
  writeTableName kQueryTargetsTable ++ (writeCanonicalId canonicalId ++
    (writeTargetId targetId ++ writeTerminator))

def reader : Reader (Bytes × Int) := do
  readTableNameMatching kQueryTargetsTable
  let canonicalId ← readCanonicalId
  let targetId ← readTargetId
  readTerminator
  return (canonicalId, targetId)

end LevelDbQueryTargetKey

namespace LevelDbTargetDocumentKey

def keyPrefix : Bytes := writeTableName kTargetDocumentsTable

def keyPrefixOfTarget (targetId : Int) : Bytes :=
  writeTableName kTargetDocumentsTable ++ writeTargetId targetId

def key (targetId : Int) (documentKey : List Bytes) : Bytes :=
  writeTableName kTargetDocumentsTable ++ (writeTargetId targetId ++
    (writeResourcePath documentKey ++ writeTerminator))

def reader : Reader (Int × List Bytes) := do
  readTableNameMatching kTargetDocumentsTable
  let targetId ← readTargetId
  let documentKey ← readDocumentKey
  readTerminator
  return (targetId, documentKey)

end LevelDbTargetDocumentKey

namespace LevelDbDocumentTargetKey

def keyPrefix : Bytes := writeTableName kDocumentTargetsTable

def keyPrefixOfPath (resourcePath : List Bytes) : Bytes :=
  writeTableName kDocumentTargetsTable ++ writeResourcePath resourcePath

def key (documentKey : List Bytes) (targetId : Int) : Bytes :=
  writeTableName kDocumentTargetsTable ++ (writeResourcePath documentKey ++
    (writeTargetId targetId ++ writeTerminator))

def kInvalidTargetId : Int := 0

def sentinelKey (documentKey : List Bytes) : Bytes :=
  key documentKey kInvalidTargetId

def encodeSentinelValue (sequenceNumber : Int) : Bytes :=
  writeSignedNumIncreasing sequenceNumber

def decodeSentinelValue (slice : Bytes) : Except ReadError Int :=
  match readSignedNumIncreasing slice with
  | .ok (decoded, _) => .ok decoded
  | .error _ => .error .hardAssert

def reader : Reader (List Bytes × Int) := do
  readTableNameMatching kDocumentTargetsTable
  let documentKey ← readDocumentKey
  let targetId ← readTargetId
  readTerminator
  return (documentKey, targetId)

end LevelDbDocumentTargetKey

namespace LevelDbRemoteDocumentKey

def keyPrefix : Bytes := writeTableName kRemoteDocumentsTable

def keyPrefixOfPath (resourcePath : List Bytes) : Bytes :=
  writeTableName kRemoteDocumentsTable ++ writeResourcePath resourcePath

def key (documentKey : List Bytes) : Bytes :=
  writeTableName kRemoteDocumentsTable ++ (writeResourcePath documentKey ++
    writeTerminator)

def reader : Reader (List Bytes) := do
  readTableNameMatching kRemoteDocumentsTable
  let documentKey ← readDocumentKey
  readTerminator
  return documentKey

end LevelDbRemoteDocumentKey

namespace LevelDbCollectionParentKey

def keyPrefix : Bytes := writeTableName kCollectionParentsTable

def keyPrefixOfId (collectionId : Bytes) : Bytes :=
  writeTableName kCollectionParentsTable ++ writeCollectionId collectionId

def key (collectionId : Bytes) (parent : List Bytes) : Bytes :=
  writeTableName kCollectionParentsTable ++ (writeCollectionId collectionId ++
    (writeResourcePath parent ++ writeTerminator))

def reader : Reader (Bytes × List Bytes) := do
  readTableNameMatching kCollectionParentsTable
  let collectionId ← readCollectionId
  let parent ← (readResourcePath : Reader (List Bytes))
  readTerminator
  return (collectionId, parent)

end LevelDbCollectionParentKey

namespace LevelDbRemoteDocumentReadTimeKey

def keyPrefixOfTime (collectionPath : List Bytes) (readTime : Int × Int) :
    Bytes :=
  writeTableName kRemoteDocumentReadTimeTable ++
    (writeResourcePath collectionPath ++ writeSnapshotVersion readTime)

def key (collectionPath : List Bytes) (readTime : Int × Int)
    (documentId : Bytes) : Bytes :=
  writeTableName kRemoteDocumentReadTimeTable ++
    (writeResourcePath collectionPath ++ (writeSnapshotVersion readTime ++
      (writeDocumentId documentId ++ writeTerminator)))

def reader : Reader (List Bytes × (Int × Int) × Bytes) := do
  readTableNameMatching kRemoteDocumentReadTimeTable
  let collectionPath ← (readResourcePath : Reader (List Bytes))
  let readTime ← readSnapshotVersion
  let documentId ← readDocumentId
  readTerminator
  return (collectionPath, readTime, documentId)

end LevelDbRemoteDocumentReadTimeKey

end Grocr.Firestore.Local
