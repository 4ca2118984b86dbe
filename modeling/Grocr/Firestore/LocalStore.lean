import Mathlib.Order.WithBot
import Mathlib.Tactic.Common
import Grocr.Firestore.MutationQueue
/-!
# The local store

The cache of remote documents, the queues of pending mutations, one for each
user, and the view of the documents that the cache and the queue of the current
user give together.  The store takes writes of the user, the backend's answers
to them and watch updates, and runs queries over the view.
-/

namespace Grocr.Firestore.Local

open Grocr.Support Grocr.Firestore.Model

/-- The cached documents with the versions at which they were read. -/
abbrev RemoteDocumentCache := Table DocumentKey (MaybeDocument × SnapshotVersion)

def RemoteDocumentCache.get (cache : RemoteDocumentCache) (key : DocumentKey) :
    Option MaybeDocument :=
  (cache.find? key).map Prod.fst

abbrev MaybeDocumentMap := Table DocumentKey MaybeDocument

/-- A user by the `uid`; `⊥` is the unauthenticated one. -/
abbrev User := WithBot String

structure LocalStore where
  /-- The queue of the current user. -/
  mutationQueue : MemoryMutationQueue
  /-- The queues that the persistence keeps of other users. -/
  mutationQueues : Table User MemoryMutationQueue
  remoteDocumentCache : RemoteDocumentCache
  lastRemoteSnapshotVersion : SnapshotVersion
deriving DecidableEq

/-- The documents of a watch snapshot; version 0 marks the made-up events of
rejected limbo resolutions. -/
structure RemoteEvent where
  snapshotVersion : SnapshotVersion
  documentUpdates : MaybeDocumentMap
deriving DecidableEq

/-- A query of one collection; the predicate stands for its filters. -/
structure Query where
  path : List String
  matchesFilters : DocumentKey → ObjectValue → Bool
  odd : path.length % 2 = 1

/-- `Query::Matches`, for what is known of a document. -/
def Query.matches (query : Query) (key : DocumentKey) (doc : MaybeDocument) :
    Bool :=
  match doc.data? with
  | none => false
  | some data =>
      decide (IsImmediateParentOf query.path key) &&
        query.matchesFilters key data

namespace LocalStore

def empty : LocalStore := ⟨.empty, Table.empty, Table.empty, 0⟩

section

variable [DoubleArithmetic]

/-! ## The local view -/

/-- A document with batches of mutations applied to it in turn. -/
def applyBatches (key : DocumentKey) (doc : Option MaybeDocument)
    (batches : List MutationBatch) : Option MaybeDocument :=
  batches.foldl (fun doc batch => batch.applyToLocalDocument key doc) doc

def getDocument (s : LocalStore) (key : DocumentKey) :
    Except HardAssert (Option MaybeDocument) := do
  let batches ← s.mutationQueue.allMutationBatchesAffectingDocumentKey key
  pure (applyBatches key (s.remoteDocumentCache.get key) batches)

/-- `GetLocalViewOfDocuments`; a document that is not known is missing. -/
def getLocalViewOfDocuments (s : LocalStore)
    (baseDocs : List (DocumentKey × Option MaybeDocument)) :
    Except HardAssert MaybeDocumentMap := do
  let batches ← s.mutationQueue.allMutationBatchesAffectingDocumentKeys
    (baseDocs.map Prod.fst)
  pure (baseDocs.foldl
    (fun results e =>
      results.insert e.1
        ((applyBatches e.1 e.2 batches).getD (.noDocument 0 false)))
    Table.empty)

def getDocuments (s : LocalStore) (keys : List DocumentKey) :
    Except HardAssert MaybeDocumentMap :=
  s.getLocalViewOfDocuments
    (keys.map fun key => (key, s.remoteDocumentCache.get key))

/-! ## Users -/

def getMutationQueueForUser (queues : Table User MemoryMutationQueue)
    (user : User) : MemoryMutationQueue :=
  (queues.find? user).getD .empty

/-- `HandleUserChange`: the queue of `user` comes in for that of `previous`. -/
def handleUserChange (s : LocalStore) (previous user : User) :
    Except HardAssert (MaybeDocumentMap × LocalStore) := do
  let oldBatches := s.mutationQueue.allMutationBatches
  let queues := s.mutationQueues.insert previous s.mutationQueue
  -- the current queue is kept apart from the others
  let s :=
    { s with
      mutationQueue := (getMutationQueueForUser queues user).start
      mutationQueues := queues.erase user }
  let newBatches := s.mutationQueue.allMutationBatches
  let changedKeys :=
    ((oldBatches ++ newBatches).flatMap MutationBatch.keys).eraseDups
  let changes ← s.getDocuments changedKeys
  pure (changes, s)

/-! ## Writes of the user -/

/-- The base mutation that `WriteLocally` records for a mutation. -/
def baseMutation (existing : MaybeDocumentMap) (m : Mutation) :
    Option Mutation :=
  (m.extractBaseValue (existing.find? m.key)).map fun baseValue =>
    .patch m.key baseValue (ObjectValue.toFieldMask baseValue) (.exists true)

/-- `MutationBatch::ApplyToLocalDocumentSet`: the whole batch is applied for
each of its mutations. -/
def applyToLocalDocumentSet (batch : MutationBatch)
    (documentSet : MaybeDocumentMap) : MaybeDocumentMap :=
  batch.mutations.foldl
    (fun mutated m =>
      match batch.applyToLocalDocument m.key (mutated.find? m.key) with
      | some doc => mutated.insert m.key doc
      | none => mutated)
    documentSet

/-- What `WriteLocally` answers: the ID of the new batch and the documents
that changed. -/
structure LocalWriteResult where
  batchId : Int
  changes : MaybeDocumentMap
deriving DecidableEq

def writeLocally (s : LocalStore) (mutations : List Mutation)
    (localWriteTime : Timestamp) :
    Except HardAssert (LocalWriteResult × LocalStore) := do
  let existing ← s.getDocuments (mutations.map Mutation.key).eraseDups
  let baseMutations := mutations.filterMap (baseMutation existing)
  let added ← s.mutationQueue.addMutationBatch localWriteTime baseMutations
    mutations
  pure (⟨added.1.batchId, applyToLocalDocumentSet added.1 existing⟩,
    { s with mutationQueue := added.2 })

/-! ## Answers of the backend -/

/-- `ApplyBatchResult` for one document: the cache takes the result unless it
has the document at that version already. -/
def applyBatchResultTo (r : MutationBatchResult) (cache : RemoteDocumentCache)
    (key : DocumentKey) : Except HardAssert RemoteDocumentCache :=
  let remoteDoc := cache.get key
  match r.docVersion key with
  | none => .error .docVersionMissing
  | some ackVersion =>
      if ∀ doc ∈ remoteDoc, doc.version < ackVersion then do
        let doc ← r.applyToRemoteDocument key remoteDoc
        match doc with
        | some doc => pure (cache.insert key (doc, r.commitVersion))
        | none =>
            if remoteDoc = none then pure cache else .error .batchResultNullopt
      else pure cache

def applyBatchResult (s : LocalStore) (r : MutationBatchResult) :
    Except HardAssert LocalStore := do
  let cache ← r.batch.keys.foldlM (applyBatchResultTo r) s.remoteDocumentCache
  let queue ← s.mutationQueue.removeMutationBatch r.batch
  pure { s with remoteDocumentCache := cache, mutationQueue := queue }

def acknowledgeBatch (s : LocalStore) (r : MutationBatchResult) :
    Except HardAssert (MaybeDocumentMap × LocalStore) := do
  s.mutationQueue.acknowledgeBatch r.batch
  let s ← s.applyBatchResult r
  s.mutationQueue.performConsistencyCheck
  let changes ← s.getDocuments r.batch.keys
  pure (changes, s)

def rejectBatch (s : LocalStore) (batchId : Int) :
    Except HardAssert (MaybeDocumentMap × LocalStore) := do
  let toReject ← s.mutationQueue.lookupMutationBatch batchId
  match toReject with
  | none => .error .rejectNonexistentBatch
  | some toReject =>
      let queue ← s.mutationQueue.removeMutationBatch toReject
      let s := { s with mutationQueue := queue }
      s.mutationQueue.performConsistencyCheck
      let changes ← s.getDocuments toReject.keys
      pure (changes, s)

/-! ## Watch updates -/

/-- A watch update replaces what is cached if it is newer, or as new as a
document that still has writes of the client in it. -/
def isAccepted (existing : Option MaybeDocument) (doc : MaybeDocument) : Prop :=
  ∀ d ∈ existing, d.version < doc.version ∨
    (doc.version = d.version ∧ d.hasPendingWrites = true)

instance (existing : Option MaybeDocument) (doc : MaybeDocument) :
    Decidable (isAccepted existing doc) :=
  inferInstanceAs (Decidable (∀ d ∈ existing, _))

/-- A missing document at version 0: the client lost access to it. -/
def isManufactured : MaybeDocument → Bool
  | .noDocument version _ => version = 0
  | _ => false

/-- One update of `ApplyRemoteEvent`, with the documents changed so far. -/
def applyDocumentUpdate (snapshotVersion : SnapshotVersion)
    (state : RemoteDocumentCache × List (DocumentKey × Option MaybeDocument))
    (update : DocumentKey × MaybeDocument) :
    Except HardAssert
      (RemoteDocumentCache × List (DocumentKey × Option MaybeDocument)) :=
  let key := update.1
  let doc := update.2
  let changed := state.2 ++ [(key, some doc)]
  if isManufactured doc then pure (state.1.erase key, changed)
  else if isAccepted (state.1.get key) doc then
    if snapshotVersion = 0 then .error .remoteVersionZero
    else pure (state.1.insert key (doc, snapshotVersion), changed)
  else pure state

def applyRemoteEvent (s : LocalStore) (event : RemoteEvent) :
    Except HardAssert (MaybeDocumentMap × LocalStore) := do
  let state ← event.documentUpdates.entries.foldlM
    (applyDocumentUpdate event.snapshotVersion) (s.remoteDocumentCache, [])
  let s := { s with remoteDocumentCache := state.1 }
  let remoteVersion := event.snapshotVersion
  let s ←
    if remoteVersion = 0 then pure s
    else if remoteVersion < s.lastRemoteSnapshotVersion then
      .error .watchStreamReverted
    else pure { s with lastRemoteSnapshotVersion := remoteVersion }
  let changes ← s.getLocalViewOfDocuments state.2
  pure (changes, s)

/-! ## Garbage collection -/

def mutationQueuesContainKey (s : LocalStore) (key : DocumentKey) : Bool :=
  s.mutationQueue.containsKey key ||
    s.mutationQueues.entries.any (fun e => e.2.containsKey key)

/-- `OnTransactionCommitted`: of the documents that lost a reference those go
that nothing refers to.  The targets and the views refer to `referenced`. -/
def removeOrphaned (s : LocalStore) (orphaned referenced : List DocumentKey) :
    LocalStore :=
  { s with
    remoteDocumentCache := orphaned.foldl
      (fun cache key =>
        if key ∈ referenced ∨ s.mutationQueuesContainKey key = true then cache
        else cache.erase key)
      s.remoteDocumentCache }

/-! ## Queries -/

/-- `MemoryRemoteDocumentCache::GetMatching`: a scan of the cache from the
start of the collection to its end. -/
def getMatching (cache : RemoteDocumentCache) (query : Query)
    (sinceReadTime : SnapshotVersion) : MaybeDocumentMap :=
  let scanned := (cache.entries.dropWhile
    (fun e => e.1 < MemoryMutationQueue.startKey query.path)).takeWhile
      (fun e => query.path <+: e.1.path)
  scanned.foldl
    (fun results e =>
      if sinceReadTime < e.2.2 ∧ query.matches e.1 e.2.1 then
        results.insert e.1 e.2.1
      else results)
    Table.empty

/-- The keys of the patches that `results` has no document for. -/
def missingDocKeys (batches : List MutationBatch) (results : MaybeDocumentMap) :
    List DocumentKey :=
  (batches.flatMap MutationBatch.mutations).filterMap fun m =>
    match m with
    | .patch key _ _ _ => if key ∈ results.keys then none else some key
    | _ => none

def addMissingBaseDocuments (cache : RemoteDocumentCache)
    (batches : List MutationBatch) (results : MaybeDocumentMap) :
    MaybeDocumentMap :=
  (missingDocKeys batches results).foldl
    (fun results key =>
      match cache.get key with
      | some (.document version data documentState) =>
          results.insert key (.document version data documentState)
      | _ => results)
    results

/-- What the query does with one mutation of a batch. -/
def applyMutation (query : Query) (localWriteTime : Timestamp)
    (results : MaybeDocumentMap) (m : Mutation) : MaybeDocumentMap :=
  if IsImmediateParentOf query.path m.key then
    let baseDoc := results.find? m.key
    match m.applyToLocalView baseDoc baseDoc localWriteTime with
    | some (.document version data documentState) =>
        results.insert m.key (.document version data documentState)
    | _ => results.erase m.key
  else results

def keepMatching (query : Query) (results : MaybeDocumentMap) :
    MaybeDocumentMap :=
  results.entries.foldl
    (fun kept e => if query.matches e.1 e.2 then kept else kept.erase e.1)
    results

def getDocumentsMatchingCollectionQuery (s : LocalStore) (query : Query)
    (sinceReadTime : SnapshotVersion) : Except HardAssert MaybeDocumentMap := do
  let remote := getMatching s.remoteDocumentCache query sinceReadTime
  let batches ← s.mutationQueue.allMutationBatchesAffectingQuery query.path
  let based := addMissingBaseDocuments s.remoteDocumentCache batches remote
  let mutated := batches.foldl
    (fun results batch =>
      batch.mutations.foldl (applyMutation query batch.localWriteTime) results)
    based
  pure (keepMatching query mutated)

end

end LocalStore

end Grocr.Firestore.Local
