import Mathlib.Data.List.Lex
import Mathlib.Order.Lattice
import Mathlib.Tactic.Common
import Grocr.Firestore.TransformOperation
/-!
# Documents, mutations and batches of the client

The states in which the client knows a document, the four kinds of mutation
with their preconditions, and batches of mutations.  A mutation acts in two
ways: on the local view, before the backend has answered, and on the cached
document once it has.
-/

namespace Grocr.Firestore.Model

open Grocr.Support

inductive HardAssert
  /-- `Transform results received by …` a mutation that is no transform -/
  | transformResultsReceived
  /-- `Transform results missing from TransformMutation.` -/
  | transformResultsMissing
  /-- `server transform result size (%s) should match field transforms size` -/
  | transformResultsSize
  /-- `Number of mutations sent %s must equal results received %s` -/
  | mutationResultsSize
  /-- `doc_versions should contain every doc in the write.` -/
  | docVersionMissing
  /-- `Mutation batch %s applied to document %s resulted in nullopt.` -/
  | batchResultNullopt
  /-- `Mutation batches should not be empty` -/
  | emptyBatch
  /-- `Mutation batch_ids must be in monotonically increasing order` -/
  | batchIdOrder
  /-- `Cannot acknowledge batch on an empty queue`,
  `Trying to remove batch from empty queue` -/
  | emptyQueue
  /-- `Queue ordering failure: expected batch %s, got batch %s`,
  `Can only remove the first entry of the mutation queue` -/
  | queueOrder
  /-- `If found, batch must match` -/
  | batchMismatch
  /-- `Batches in the index must exist in the main table` -/
  | danglingReference
  /-- `Document leak -- detected dangling mutation references …` -/
  | documentLeak
  /-- `Attempt to reject nonexistent batch!` -/
  | rejectNonexistentBatch
  /-- `Cannot add a document when the remote version is zero` -/
  | remoteVersionZero
  /-- `Watch stream reverted to previous snapshot?? (%s < %s)` -/
  | watchStreamReverted
  /-- `Got result for empty write pipeline` -/
  | emptyWritePipeline
  /-- `Write stream was stopped gracefully while still needed.` -/
  | writeStreamStillNeeded
  /-- `Already started` -/
  | alreadyStarted
  /-- `Can only cancel backoff in a stopped state (was %s)` -/
  | inhibitBackoffWhileStarted
  /-- `Cannot write when the stream is not open.` -/
  | streamNotOpen
  /-- `Handshake already completed` -/
  | handshakeAlreadyCompleted
  /-- `Handshake must be complete before writing mutations` -/
  | handshakeNotComplete
  /-- `Trying to close a non-started stream` -/
  | closeNotStarted
deriving DecidableEq

/-- Document keys: paths of collection and document IDs in turn. -/
@[ext] structure DocumentKey where
  path : List String
  even : path.length % 2 = 0

instance : LinearOrder DocumentKey :=
  LinearOrder.lift' DocumentKey.path fun _ _ => DocumentKey.ext

def IsImmediateParentOf (path : List String) (key : DocumentKey) : Prop :=
  path <+: key.path ∧ key.path.length = path.length + 1

instance (path : List String) (key : DocumentKey) :
    Decidable (IsImmediateParentOf path key) :=
  inferInstanceAs (Decidable (_ ∧ _))

/-- A version of a document; 0 is `SnapshotVersion::None()`. -/
abbrev SnapshotVersion := Nat

inductive DocumentState
  | localMutations
  | committedMutations
  | synced
deriving DecidableEq

inductive MaybeDocument
  | document (version : SnapshotVersion) (data : ObjectValue)
      (documentState : DocumentState)
  | noDocument (version : SnapshotVersion) (hasCommittedMutations : Bool)
  | unknownDocument (version : SnapshotVersion)
deriving DecidableEq

namespace MaybeDocument

def version : MaybeDocument → SnapshotVersion
  | .document version _ _ => version
  | .noDocument version _ => version
  | .unknownDocument version => version

def data? : MaybeDocument → Option ObjectValue
  | .document _ data _ => some data
  | _ => none

def hasPendingWrites : MaybeDocument → Bool
  | .document _ _ documentState => documentState ≠ .synced
  | .noDocument _ hasCommittedMutations => hasCommittedMutations
  | .unknownDocument _ => true

end MaybeDocument

def readData (doc : Option MaybeDocument) : Option ObjectValue :=
  doc.bind MaybeDocument.data?

def readField (doc : Option MaybeDocument) (path : FieldPath) :
    Option FieldValue :=
  (readData doc).bind (fun data => data.get path)

/-! ## Preconditions -/

inductive Precondition
  | none
  | exists (value : Bool)
  | updateTime (version : SnapshotVersion)
deriving DecidableEq

namespace Precondition

def isValidFor (precondition : Precondition) (doc : Option MaybeDocument) :
    Bool :=
  match precondition with
  | .updateTime version =>
      match doc with
      | some (.document v _ _) => v = version
      | _ => false
  | .exists value => value = (readData doc).isSome
  | .none => true

end Precondition

/-! ## Mutations -/

/-- A field and what to do to it; no path is empty. -/
structure FieldTransform where
  path : FieldPath
  transformation : TransformOperation
  path_ne_nil : path ≠ []
deriving DecidableEq

inductive Mutation
  | set (key : DocumentKey) (value : ObjectValue) (precondition : Precondition)
  | patch (key : DocumentKey) (value : ObjectValue) (mask : FieldMask)
      (precondition : Precondition)
  | transform (key : DocumentKey) (fieldTransforms : List FieldTransform)
  | delete (key : DocumentKey) (precondition : Precondition)
deriving DecidableEq

structure MutationResult where
  version : SnapshotVersion
  transformResults : Option (List FieldValue)
deriving DecidableEq

/-- A result of the kind that the mutation calls for. -/
def IsAnswerTo (m : Mutation) (result : MutationResult) : Prop :=
  match m with
  | .transform _ fieldTransforms =>
      ∃ results, result.transformResults = some results ∧
        fieldTransforms.length = results.length
  | _ => result.transformResults = none

def getPostMutationVersion : Option MaybeDocument → SnapshotVersion
  | some (.document version _ _) => version
  | _ => 0

namespace PatchMutation

/-- One step of `PatchObject`. -/
def patchPath (value o : ObjectValue) (path : FieldPath) : ObjectValue :=
  if path = [] then o
  else
    match value.get path with
    | none => o.delete path
    | some newValue => o.set newValue path

def patchObject (value : ObjectValue) (mask : FieldMask) (o : ObjectValue) :
    ObjectValue :=
  mask.foldl (patchPath value) o

def patchDocument (value : ObjectValue) (mask : FieldMask)
    (doc : Option MaybeDocument) : ObjectValue :=
  patchObject value mask ((readData doc).getD [])

end PatchMutation

namespace TransformMutation

def transformObject (fieldTransforms : List FieldTransform)
    (transformResults : List FieldValue) (o : ObjectValue) : ObjectValue :=
  (fieldTransforms.zip transformResults).foldl
    (fun o e => o.set e.2 e.1.path) o

def serverTransformResults (fieldTransforms : List FieldTransform)
    (doc : Option MaybeDocument) (results : List FieldValue) :
    List FieldValue :=
  (fieldTransforms.zip results).map fun e =>
    e.1.transformation.applyToRemoteDocument (readField doc e.1.path) e.2

/-- `LocalTransformResults`; a field that is gone from the document still has
the value it had before the batch. -/
def localTransformResults [DoubleArithmetic]
    (fieldTransforms : List FieldTransform) (doc base : Option MaybeDocument)
    (localWriteTime : Timestamp) : List FieldValue :=
  fieldTransforms.map fun t =>
    t.transformation.applyToLocalView
      ((readField doc t.path).or (readField base t.path)) localWriteTime

/-- One step of `ExtractBaseValue`. -/
def addBaseValue (doc : Option MaybeDocument)
    (baseObject : Option ObjectValue) (t : FieldTransform) :
    Option ObjectValue :=
  match t.transformation.computeBaseValue (readField doc t.path) with
  | none => baseObject
  | some value => some ((baseObject.getD []).set value t.path)

def extractBaseValue (fieldTransforms : List FieldTransform)
    (doc : Option MaybeDocument) : Option ObjectValue :=
  fieldTransforms.foldl (addBaseValue doc) none

end TransformMutation

namespace Mutation

def key : Mutation → DocumentKey
  | .set key _ _ => key
  | .patch key _ _ _ => key
  | .transform key _ => key
  | .delete key _ => key

/-- A transform needs the document to exist. -/
def precondition : Mutation → Precondition
  | .set _ _ precondition => precondition
  | .patch _ _ _ precondition => precondition
  | .transform _ _ => .exists true
  | .delete _ precondition => precondition

def applyToLocalView [DoubleArithmetic] (m : Mutation)
    (doc base : Option MaybeDocument) (localWriteTime : Timestamp) :
    Option MaybeDocument :=
  if m.precondition.isValidFor doc then
    match m with
    | .set _ value _ =>
        some (.document (getPostMutationVersion doc) value .localMutations)
    | .patch _ value mask _ =>
        some (.document (getPostMutationVersion doc)
          (PatchMutation.patchDocument value mask doc) .localMutations)
    | .transform _ fieldTransforms =>
        match doc with
        | some (.document version data _) =>
            some (.document version
              (TransformMutation.transformObject fieldTransforms
                (TransformMutation.localTransformResults fieldTransforms doc
                  base localWriteTime) data) .localMutations)
        | _ => doc
    | .delete _ _ => some (.noDocument 0 false)
  else doc

/-- `ApplyToRemoteDocument`: the backend has accepted the mutation, so a
precondition that does not hold here means that the cached document is not the
one the backend had. -/
def applyToRemoteDocument (m : Mutation) (doc : Option MaybeDocument)
    (result : MutationResult) : Except HardAssert MaybeDocument :=
  match m with
  | .set _ value _ =>
      if result.transformResults = none then
        .ok (.document result.version value .committedMutations)
      else .error .transformResultsReceived
  | .patch _ value mask precondition =>
      if result.transformResults = none then
        if precondition.isValidFor doc then
          .ok (.document result.version
            (PatchMutation.patchDocument value mask doc) .committedMutations)
        else .ok (.unknownDocument result.version)
      else .error .transformResultsReceived
  | .transform _ fieldTransforms =>
      match result.transformResults with
      | none => .error .transformResultsMissing
      | some results =>
          match readData doc with
          | none => .ok (.unknownDocument result.version)
          | some data =>
              if fieldTransforms.length = results.length then
                .ok (.document result.version
                  (TransformMutation.transformObject fieldTransforms
                    (TransformMutation.serverTransformResults fieldTransforms
                      doc results) data) .committedMutations)
              else .error .transformResultsSize
  | .delete _ _ =>
      if result.transformResults = none then
        .ok (.noDocument result.version true)
      else .error .transformResultsReceived

def extractBaseValue (m : Mutation) (doc : Option MaybeDocument) :
    Option ObjectValue :=
  match m with
  | .transform _ fieldTransforms =>
      TransformMutation.extractBaseValue fieldTransforms doc
  | _ => none

end Mutation

/-! ## Batches -/

def kBatchIdUnknown : Int := -1

/-- The largest `BatchId`, an `int32_t`. -/
def maxBatchId : Int := 2147483647

structure MutationBatch where
  batchId : Int
  localWriteTime : Timestamp
  baseMutations : List Mutation
  mutations : List Mutation
  mutations_ne_nil : mutations ≠ []
deriving DecidableEq

namespace MutationBatch

def keys (batch : MutationBatch) : List DocumentKey :=
  (batch.mutations.map Mutation.key).eraseDups

def mutationsFor (batch : MutationBatch) (key : DocumentKey) : List Mutation :=
  batch.mutations.filter (fun m => m.key = key)

def baseMutationsFor (batch : MutationBatch) (key : DocumentKey) :
    List Mutation :=
  batch.baseMutations.filter (fun m => m.key = key)

/-- `ApplyToLocalDocument`: first the base mutations, then the user's. -/
def applyToLocalDocument [DoubleArithmetic] (batch : MutationBatch)
    (key : DocumentKey) (doc : Option MaybeDocument) : Option MaybeDocument :=
  let base := (batch.baseMutationsFor key).foldl
    (fun doc m => m.applyToLocalView doc doc batch.localWriteTime) doc
  (batch.mutationsFor key).foldl
    (fun doc m => m.applyToLocalView doc base batch.localWriteTime) base

end MutationBatch

structure MutationBatchResult where
  batch : MutationBatch
  commitVersion : SnapshotVersion
  mutationResults : List MutationResult
  length_eq : batch.mutations.length = mutationResults.length
deriving DecidableEq

namespace MutationBatchResult

/-- The mutations of one document with the answers to them. -/
def resultsFor (r : MutationBatchResult) (key : DocumentKey) :
    List (Mutation × MutationResult) :=
  (r.batch.mutations.zip r.mutationResults).filter (fun e => e.1.key = key)

/-- `doc_versions()`: the version of the last mutation of a document. -/
def docVersion (r : MutationBatchResult) (key : DocumentKey) :
    Option SnapshotVersion :=
  (r.resultsFor key).getLast?.map (fun e => e.2.version)

/-- `MutationBatch::ApplyToRemoteDocument` -/
def applyToRemoteDocument (r : MutationBatchResult) (key : DocumentKey)
    (doc : Option MaybeDocument) : Except HardAssert (Option MaybeDocument) :=
  (r.resultsFor key).foldlM
    (fun doc e => (e.1.applyToRemoteDocument doc e.2).map some) doc

end MutationBatchResult

end Grocr.Firestore.Model
