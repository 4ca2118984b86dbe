import Mathlib.Data.Prod.Lex
import Mathlib.Tactic.Common
import Grocr.Firestore.LevelDbKey
import Grocr.Firestore.LevelDbTransaction
import Grocr.Firestore.MutationQueue
import Grocr.Firestore.Serializer
/-!
# The queue of pending mutation batches on disk

`LevelDbMutationQueue`: the batches of all users in one table, and an index from
documents to batches in another.  Everything is found by seeking in the order
of the keys.
-/

namespace Grocr.Firestore.Local

open Grocr.Support Grocr.Firestore.Model Grocr.Firestore.Util.OrderedCode

inductive LevelDbFailure
  /-- An assertion in `OrderedCode` or `Timestamp` -/
  | orderedCode
  /-- `MutationBatch proto failed to parse: %s`, or an assertion on the way -/
  | serializer (failure : SerializerFailure)
  /-- `MetadataForKey: failed loading key %s with status: %s` -/
  | metadata
  /-- An ID past the largest `BatchId`, which the language leaves undefined -/
  | batchIdOverflow
  /-- `Mutation batch %s did not exist`, `Mutation batch %s not found; …` -/
  | missingBatch
  /-- `Dangling document-mutation reference found: Missing batch %s; …` -/
  | danglingReference
  /-- `There should have been a key previous to %s` -/
  | noPreviousKey
  /-- `Prev` on an iterator that has passed the last row -/
  | invalidIterator
  /-- `Should have found mutation after %s` -/
  | batchBefore
  /-- `Document leak -- detected dangling mutation references …` -/
  | documentLeak
  /-- `Cannot call PopLast() on empty path`, `Expected a collection path.` -/
  | collectionPath
deriving DecidableEq

structure MutationQueueMetadata where
  lastAcknowledgedBatchId : Int
  lastStreamToken : Bytes
deriving DecidableEq

/-- The values of rows: a message, which stands for its encoding, or a string
that encodes none but the one without fields. -/
inductive RowValue
  | writeBatch (message : WriteBatchMessage)
  | mutationQueue (metadata : MutationQueueMetadata)
  | string (value : Bytes)
deriving DecidableEq

namespace RowValue

instance : Inhabited RowValue := ⟨.string []⟩

/-- `TryParse`, which gives the message without fields where it fails. -/
def tryParseWriteBatch : RowValue → WriteBatchMessage
  | .writeBatch message => message
  | _ => ⟨0, 0, [], []⟩

def tryParseMutationQueue : RowValue → Option MutationQueueMetadata
  | .mutationQueue metadata => some metadata
  | .string [] => some ⟨0, []⟩
  | _ => none

end RowValue

def pathOf (path : List String) : List Bytes := path.map bytesOf

def tryDecode {α : Type} (reader : Reader α) (key : Bytes) :
    Except LevelDbFailure (Option α) :=
  match decodeWith reader key with
  | .ok fields => .ok (some fields)
  | .error .failed => .ok none
  | .error .hardAssert => .error .orderedCode

/-- `PrefixSuccessor`: the last byte that is not 255 goes up, those after it are
erased. -/
def prefixSuccessor (limit : Bytes) : Bytes :=
  match limit.reverse.dropWhile (fun b => b = 0xff) with
  | [] => []
  | b :: rest => ((b + 1) :: rest).reverse

structure LevelDbPersistence where
  transaction : LevelDbTransaction RowValue
  /-- `collection_parents_cache_` of the index manager -/
  collectionParents : Table (Bytes ×ₗ List Bytes) Unit
  /-- `current_sequence_number` of the reference delegate -/
  sequenceNumber : Int

namespace LevelDbPersistence

def put (p : LevelDbPersistence) (key : Bytes) (value : RowValue) :
    LevelDbPersistence :=
  { p with transaction := p.transaction.put key value }

def delete (p : LevelDbPersistence) (key : Bytes) : LevelDbPersistence :=
  { p with transaction := p.transaction.delete key }

/-- `AddToCollectionParentIndex`, of the path of a document less its last
segment. -/
def addToCollectionParentIndex (p : LevelDbPersistence)
    (documentPath : List Bytes) : Except LevelDbFailure LevelDbPersistence :=
  let collectionPath := documentPath.dropLast
  if documentPath ≠ [] ∧ collectionPath.length % 2 = 1 then
    let collectionId := collectionPath.getLastD []
    let parentPath := collectionPath.dropLast
    if toLex (collectionId, parentPath) ∈ p.collectionParents.keys then .ok p
    else
      .ok
        { p.put (LevelDbCollectionParentKey.key collectionId parentPath)
            (.string []) with
          collectionParents :=
            p.collectionParents.insert (toLex (collectionId, parentPath)) () }
  else .error .collectionPath

/-- `RemoveMutationReference`, which writes the sentinel row of the document. -/
def removeMutationReference (p : LevelDbPersistence) (documentPath : List Bytes) :
    LevelDbPersistence :=
  p.put (LevelDbDocumentTargetKey.sentinelKey documentPath)
    (.string (LevelDbDocumentTargetKey.encodeSentinelValue p.sequenceNumber))

end LevelDbPersistence

structure LevelDbMutationQueue where
  userId : Bytes
  /-- The database of the serializer -/
  databaseId : DatabaseId
  nextBatchId : Int
  metadata : MutationQueueMetadata

namespace LevelDbMutationQueue

def mutationBatchKey (q : LevelDbMutationQueue) (batchId : Int) : Bytes :=
  LevelDbMutationKey.key q.userId batchId

/-- The last row before the end of a user, and the user whose rows follow. -/
def endOfUser (db : LevelDb RowValue) (userEnd : Bytes) :
    Except LevelDbFailure (Option (Row RowValue) × Option Bytes) :=
  match db.entriesFrom userEnd with
  | [] => .ok (db.entries.getLast?, none)
  | row :: _ =>
      (tryDecode LevelDbMutationKey.reader row.1).map fun rowKey =>
        (db.lastBefore userEnd, rowKey.map Prod.fst)

/-- The loop of `LoadNextBatchIdFromDb`, from one user to the next; each turn
reads the last row of a user. -/
def loadLoop (db : LevelDb RowValue) :
    Nat → Bytes → Int → Except LevelDbFailure Int
  | 0, _, maxBatchId => .ok maxBatchId
  | turns + 1, nextUserId, maxBatchId => do
      let userEnd := prefixSuccessor (LevelDbMutationKey.keyPrefixOfUser nextUserId)
      let (last, more) ← endOfUser db userEnd
      match last with
      | none => .error .noPreviousKey
      | some row =>
          match ← tryDecode LevelDbMutationKey.reader row.1 with
          | none => .error .noPreviousKey
          | some (_, batchId) =>
              let maxBatchId := if maxBatchId < batchId then batchId else maxBatchId
              match more with
              | none => .ok maxBatchId
              | some userId => loadLoop db turns userId maxBatchId

/-- `max_batch_id + 1` -/
def batchIdAfter (batchId : Int) : Except LevelDbFailure Int :=
  if batchId < maxBatchId then .ok (batchId + 1) else .error .batchIdOverflow

/-- `LoadNextBatchIdFromDb`; there are no more users than rows. -/
def loadNextBatchIdFromDb (db : LevelDb RowValue) : Except LevelDbFailure Int := do
  match db.entriesFrom LevelDbMutationKey.keyPrefix with
  | [] => batchIdAfter 0
  | row :: _ =>
      match ← tryDecode LevelDbMutationKey.reader row.1 with
      | none => batchIdAfter 0
      | some (userId, _) =>
          let largest ← loadLoop db db.entries.length userId 0
          batchIdAfter largest

def metadataForKey (txn : LevelDbTransaction RowValue) (key : Bytes) :
    Except LevelDbFailure MutationQueueMetadata :=
  match txn.get key with
  | none => .ok ⟨0, []⟩
  | some value =>
      match value.tryParseMutationQueue with
      | some metadata => .ok metadata
      | none => .error .metadata

/-- `Start`, which looks for the IDs in the database itself. -/
def start (txn : LevelDbTransaction RowValue) (databaseId : DatabaseId)
    (userId : Bytes) : Except LevelDbFailure LevelDbMutationQueue := do
  let nextBatchId ← loadNextBatchIdFromDb txn.db
  let metadata ← metadataForKey txn (LevelDbMutationQueueKey.key userId)
  return ⟨userId, databaseId, nextBatchId, metadata⟩

def isEmpty (q : LevelDbMutationQueue) (txn : LevelDbTransaction RowValue) : Bool :=
  let userKey := LevelDbMutationKey.keyPrefixOfUser q.userId
  match (txn.newIterator.seek txn userKey).row? with
  | some row => ¬ userKey <+: row.1
  | none => true

def parseMutationBatch (databaseId : DatabaseId) (value : RowValue) :
    Except LevelDbFailure MutationBatch :=
  (LocalSerializer.decodeMutationBatch databaseId
    value.tryParseWriteBatch).mapError .serializer

def addReference (q : LevelDbMutationQueue) (batchId : Int)
    (p : LevelDbPersistence) (m : Mutation) :
    Except LevelDbFailure LevelDbPersistence :=
  let key := pathOf m.key.path
  (p.put (LevelDbDocumentMutationKey.key q.userId key batchId)
    (.string [])).addToCollectionParentIndex key

def addMutationBatch (q : LevelDbMutationQueue) (p : LevelDbPersistence)
    (localWriteTime : Timestamp) (baseMutations mutations : List Mutation)
    (h : mutations ≠ []) :
    Except LevelDbFailure
      (MutationBatch × LevelDbMutationQueue × LevelDbPersistence) := do
  let batchId := q.nextBatchId
  let batch : MutationBatch :=
    ⟨batchId, localWriteTime, baseMutations, mutations, h⟩
  let message ← (LocalSerializer.encodeMutationBatch q.databaseId
    batch).mapError .serializer
  let p := p.put (q.mutationBatchKey batchId) (.writeBatch message)
  let p ← mutations.foldlM (q.addReference batchId) p
  return (batch, { q with nextBatchId := batchId + 1 }, p)

def removeReference (q : LevelDbMutationQueue) (batchId : Int)
    (p : LevelDbPersistence) (m : Mutation) : LevelDbPersistence :=
  let key := pathOf m.key.path
  (p.delete (LevelDbDocumentMutationKey.key q.userId key batchId)
    ).removeMutationReference key

def removeMutationBatch (q : LevelDbMutationQueue) (p : LevelDbPersistence)
    (batch : MutationBatch) : Except LevelDbFailure LevelDbPersistence :=
  let key := q.mutationBatchKey batch.batchId
  let txn := p.transaction
  match (txn.newIterator.seek txn key).row? with
  | none => .error .missingBatch
  | some row =>
      if row.1 = key then
        .ok (batch.mutations.foldl (q.removeReference batch.batchId)
          (p.delete key))
      else .error .missingBatch

def allMutationBatches (q : LevelDbMutationQueue) (txn : LevelDbTransaction RowValue) :
    Except LevelDbFailure (List MutationBatch) :=
  (txn.scan (LevelDbMutationKey.keyPrefixOfUser q.userId)).mapM
    fun row => parseMutationBatch q.databaseId row.2

/-- One step of `AllMutationBatchesWithIds`. -/
def batchWithId (q : LevelDbMutationQueue) (txn : LevelDbTransaction RowValue)
    (batchId : Int) : Except LevelDbFailure MutationBatch :=
  let mutationKey := q.mutationBatchKey batchId
  match (txn.newIterator.seek txn mutationKey).row? with
  | none => .error .danglingReference
  | some row =>
      if row.1 = mutationKey then parseMutationBatch q.databaseId row.2
      else .error .danglingReference

def allMutationBatchesWithIds (q : LevelDbMutationQueue)
    (txn : LevelDbTransaction RowValue) (batchIds : Table Int Unit) :
    Except LevelDbFailure (List MutationBatch) :=
  batchIds.keys.mapM (q.batchWithId txn)

/-- The scan of the rows of one document, which ends at the first row that is
not exactly of that document. -/
def idsOfDocument (indexPrefix : Bytes) (documentKey : List Bytes) :
    List (Row RowValue) → Table Int Unit → Except LevelDbFailure (Table Int Unit)
  | [], ids => .ok ids
  | row :: rows, ids =>
      if indexPrefix <+: row.1 then do
        match ← tryDecode LevelDbDocumentMutationKey.reader row.1 with
        | none => return ids
        | some (_, key, batchId) =>
            if key = documentKey then
              idsOfDocument indexPrefix documentKey rows (ids.insert batchId ())
            else return ids
      else .ok ids

/-- The scan of the rows under a collection, which passes over the deeper ones.
-/
def idsOfCollection (indexPrefix : Bytes) (length : Nat) :
    List (Row RowValue) → Table Int Unit → Except LevelDbFailure (Table Int Unit)
  | [], ids => .ok ids
  | row :: rows, ids =>
      if indexPrefix <+: row.1 then do
        match ← tryDecode LevelDbDocumentMutationKey.reader row.1 with
        | none => return ids
        | some (_, key, batchId) =>
            if key.length = length then
              idsOfCollection indexPrefix length rows (ids.insert batchId ())
            else idsOfCollection indexPrefix length rows ids
      else .ok ids

def allMutationBatchesAffectingDocumentKeys (q : LevelDbMutationQueue)
    (txn : LevelDbTransaction RowValue) (keys : List DocumentKey) :
    Except LevelDbFailure (List MutationBatch) := do
  let batchIds ← keys.foldlM (fun ids key =>
    let path := pathOf key.path
    let indexPrefix := LevelDbDocumentMutationKey.keyPrefixOfPath q.userId path
    idsOfDocument indexPrefix path (txn.rowsFrom indexPrefix) ids) Table.empty
  q.allMutationBatchesWithIds txn batchIds

def allMutationBatchesAffectingDocumentKey (q : LevelDbMutationQueue)
    (txn : LevelDbTransaction RowValue) (key : DocumentKey) :
    Except LevelDbFailure (List MutationBatch) :=
  q.allMutationBatchesAffectingDocumentKeys txn [key]

/-- `AllMutationBatchesAffectingQuery`, for the collection at `path`. -/
def allMutationBatchesAffectingQuery (q : LevelDbMutationQueue)
    (txn : LevelDbTransaction RowValue) (path : List String) :
    Except LevelDbFailure (List MutationBatch) := do
  let indexPrefix :=
    LevelDbDocumentMutationKey.keyPrefixOfPath q.userId (pathOf path)
  let batchIds ← idsOfCollection indexPrefix (path.length + 1)
    (txn.rowsFrom indexPrefix) Table.empty
  q.allMutationBatchesWithIds txn batchIds

def lookupMutationBatch (q : LevelDbMutationQueue) (txn : LevelDbTransaction RowValue)
    (batchId : Int) : Except LevelDbFailure (Option MutationBatch) :=
  match txn.get (q.mutationBatchKey batchId) with
  | none => .ok none
  | some value => (parseMutationBatch q.databaseId value).map some

def nextMutationBatchAfterBatchId (q : LevelDbMutationQueue)
    (txn : LevelDbTransaction RowValue) (batchId : Int) :
    Except LevelDbFailure (Option MutationBatch) :=
  let nextBatchId := batchId + 1
  match (txn.newIterator.seek txn (q.mutationBatchKey nextBatchId)).row? with
  | none => .ok none
  | some row => do
      match ← tryDecode LevelDbMutationKey.reader row.1 with
      | none => return none
      | some (userId, found) =>
          if userId ≠ q.userId then return none
          else if nextBatchId ≤ found then
            (parseMutationBatch q.databaseId row.2).map some
          else .error .batchBefore

/-- `GetHighestUnacknowledgedBatchId`, which reads the database itself. -/
def getHighestUnacknowledgedBatchId (q : LevelDbMutationQueue) (db : LevelDb RowValue) :
    Except LevelDbFailure Int :=
  let nextUserKey :=
    prefixSuccessor (LevelDbMutationKey.keyPrefixOfUser q.userId)
  match db.entriesFrom nextUserKey with
  | [] => .error .invalidIterator
  | _ :: _ =>
      match db.lastBefore nextUserKey with
      | none => .ok kBatchIdUnknown
      | some row => do
          match ← tryDecode LevelDbMutationKey.reader row.1 with
          | some (userId, batchId) =>
              if userId = q.userId then return batchId
              else return kBatchIdUnknown
          | none => return kBatchIdUnknown

def performConsistencyCheck (q : LevelDbMutationQueue)
    (txn : LevelDbTransaction RowValue) : Except LevelDbFailure Unit :=
  if q.isEmpty txn then
    let dangling :=
      txn.scan (LevelDbDocumentMutationKey.keyPrefixOfUser q.userId)
    if dangling = [] then .ok () else .error .documentLeak
  else .ok ()

end LevelDbMutationQueue

end Grocr.Firestore.Local
