import Mathlib.Data.Prod.Lex
import Mathlib.Tactic.Common
import Grocr.Firestore.Mutation
/-!
# The queue of pending mutation batches

`MemoryMutationQueue`: the batches that the backend has not answered, in the
order of their IDs, and an index from document keys to batches.  A batch is
found by arithmetic on its ID.
-/

namespace Grocr.Firestore.Local

open Grocr.Support Grocr.Firestore.Model

/-- `DocumentKeyReference`, ordered by the key, then by the ID. -/
abbrev DocumentKeyReference := DocumentKey ×ₗ Int

def DocumentKeyReference.mk (key : DocumentKey) (refId : Int) :
    DocumentKeyReference :=
  toLex (key, refId)

def DocumentKeyReference.key (r : DocumentKeyReference) : DocumentKey :=
  (ofLex r).1

def DocumentKeyReference.refId (r : DocumentKeyReference) : Int :=
  (ofLex r).2

abbrev ReferenceSet := Table DocumentKeyReference Unit

/-- `values_from`: the references from `start` on, in their order. -/
def ReferenceSet.valuesFrom (references : ReferenceSet)
    (start : DocumentKeyReference) : List DocumentKeyReference :=
  references.keys.dropWhile (fun r => r < start)

structure MemoryMutationQueue where
  queue : List MutationBatch
  nextBatchId : Int
  batchesByDocumentKey : ReferenceSet
deriving DecidableEq

namespace MemoryMutationQueue

def empty : MemoryMutationQueue := ⟨[], 1, Table.empty⟩

def isEmpty (q : MemoryMutationQueue) : Bool := q.queue.isEmpty

/-- `Start`: the IDs begin again when nothing is pending. -/
def start (q : MemoryMutationQueue) : MemoryMutationQueue :=
  if q.isEmpty then { q with nextBatchId := 1 } else q

/-- `IndexOfBatchId`; in an empty queue every index is past its end. -/
def indexOfBatchId (q : MemoryMutationQueue) (batchId : Int) : Int :=
  match q.queue with
  | [] => 0
  | firstBatch :: _ => batchId - firstBatch.batchId

def lookupMutationBatch (q : MemoryMutationQueue) (batchId : Int) :
    Except HardAssert (Option MutationBatch) :=
  let index := q.indexOfBatchId batchId
  if index < 0 then .ok none
  else
    match q.queue[index.toNat]? with
    | none => .ok none
    | some batch =>
        if batch.batchId = batchId then .ok (some batch)
        else .error .batchMismatch

/-- `NextMutationBatchAfterBatchId`; an index before the queue is moved to its
start. -/
def nextMutationBatchAfterBatchId (q : MemoryMutationQueue)
    (batchId : Int) : Option MutationBatch :=
  q.queue[(q.indexOfBatchId (batchId + 1)).toNat]?

def getHighestUnacknowledgedBatchId (q : MemoryMutationQueue) : Int :=
  if q.isEmpty then kBatchIdUnknown else q.nextBatchId - 1

def allMutationBatches (q : MemoryMutationQueue) : List MutationBatch := q.queue

def addReference (batchId : Int) (references : ReferenceSet)
    (m : Mutation) : ReferenceSet :=
  references.insert (.mk m.key batchId) ()

def removeReference (batchId : Int) (references : ReferenceSet)
    (m : Mutation) : ReferenceSet :=
  references.erase (.mk m.key batchId)

def addMutationBatch (q : MemoryMutationQueue) (localWriteTime : Timestamp)
    (baseMutations mutations : List Mutation) :
    Except HardAssert (MutationBatch × MemoryMutationQueue) :=
  if h : mutations = [] then .error .emptyBatch
  else
    let batchId := q.nextBatchId
    if ∀ prior ∈ q.queue.getLast?, prior.batchId < batchId then
      let batch : MutationBatch :=
        ⟨batchId, localWriteTime, baseMutations, mutations, h⟩
      .ok (batch,
        { queue := q.queue ++ [batch]
          nextBatchId := batchId + 1
          batchesByDocumentKey :=
            mutations.foldl (addReference batchId) q.batchesByDocumentKey })
    else .error .batchIdOrder

/-- `AcknowledgeBatch` checks that the batch is the first one. -/
def acknowledgeBatch (q : MemoryMutationQueue) (batch : MutationBatch) :
    Except HardAssert Unit :=
  match q.queue with
  | [] => .error .emptyQueue
  | check :: _ =>
      if batch.batchId = check.batchId then .ok () else .error .queueOrder

def removeMutationBatch (q : MemoryMutationQueue) (batch : MutationBatch) :
    Except HardAssert MemoryMutationQueue :=
  match q.queue with
  | [] => .error .emptyQueue
  | head :: rest =>
      if head.batchId = batch.batchId then
        .ok
          { q with
            queue := rest
            batchesByDocumentKey :=
              batch.mutations.foldl (removeReference batch.batchId)
                q.batchesByDocumentKey }
      else .error .queueOrder

def performConsistencyCheck (q : MemoryMutationQueue) :
    Except HardAssert Unit :=
  if q.queue = [] ∧ q.batchesByDocumentKey.entries ≠ [] then
    .error .documentLeak
  else .ok ()

/-- The references of one document, read from the index up to the first one of
another document. -/
def referencesTo (q : MemoryMutationQueue) (key : DocumentKey) :
    List DocumentKeyReference :=
  (q.batchesByDocumentKey.valuesFrom (.mk key 0)).takeWhile
    (fun r => r.key = key)

/-- The batch that a reference of the index names. -/
def referencedBatch (q : MemoryMutationQueue) (r : DocumentKeyReference) :
    Except HardAssert MutationBatch :=
  match q.lookupMutationBatch r.refId with
  | .ok (some batch) => .ok batch
  | .ok none => .error .danglingReference
  | .error assertion => .error assertion

def allMutationBatchesAffectingDocumentKey (q : MemoryMutationQueue)
    (key : DocumentKey) : Except HardAssert (List MutationBatch) :=
  (q.referencesTo key).mapM q.referencedBatch

/-- `AllMutationBatchesWithIds`, of a `std::set` of IDs. -/
def allMutationBatchesWithIds (q : MemoryMutationQueue)
    (batchIds : Table Int Unit) : Except HardAssert (List MutationBatch) :=
  (batchIds.keys.mapM q.lookupMutationBatch).map List.reduceOption

def insertIds (batchIds : Table Int Unit)
    (references : List DocumentKeyReference) : Table Int Unit :=
  references.foldl (fun ids r => ids.insert r.refId ()) batchIds

def allMutationBatchesAffectingDocumentKeys (q : MemoryMutationQueue)
    (keys : List DocumentKey) : Except HardAssert (List MutationBatch) :=
  q.allMutationBatchesWithIds
    (keys.foldl (fun ids key => insertIds ids (q.referencesTo key))
      Table.empty)

/-- The key that the scan of a collection starts from: the empty segment
precedes every document ID. -/
def startKey (path : List String) : DocumentKey :=
  if h : path.length % 2 = 0 then ⟨path, h⟩
  else ⟨path ++ [""], by rw [List.length_append, List.length_singleton]; omega⟩

/-- `AllMutationBatchesAffectingQuery`, for the collection at `path`: the scan
stops where the path is left, and passes over deeper documents. -/
def allMutationBatchesAffectingQuery (q : MemoryMutationQueue)
    (path : List String) : Except HardAssert (List MutationBatch) :=
  let scanned := (q.batchesByDocumentKey.valuesFrom
    (.mk (startKey path) 0)).takeWhile (fun r => path <+: r.key.path)
  q.allMutationBatchesWithIds
    (insertIds Table.empty
      (scanned.filter (fun r => r.key.path.length = path.length + 1)))

def containsKey (q : MemoryMutationQueue) (key : DocumentKey) : Bool :=
  match q.batchesByDocumentKey.valuesFrom (.mk key 0) with
  | [] => false
  | r :: _ => r.key = key

end MemoryMutationQueue

end Grocr.Firestore.Local
