import Mathlib.Tactic.Common
import Grocr.Support.History
import Grocr.Support.Machine
import Grocr.Firestore.LocalStore
/-!
# The client and its write stream

The write half of `RemoteStore`, the write stream under it, and what
`SyncEngine` does around the local store: batches go from the queue into the
write pipeline, from there onto the stream, and the backend's answers come
back in the same order.  The stream can open, fail, back off and stop at any
moment, and watch updates arrive in between.
-/

namespace Grocr.Firestore.Remote

open Grocr.Support Grocr.Firestore.Model Grocr.Firestore.Local

/-! ## The write stream -/

/-- `Stream::State`; `opened` is `Open`. -/
inductive StreamState
  | initial
  | starting
  | opened
  | error
  | backoff
deriving DecidableEq

structure WriteStream where
  state : StreamState
  handshakeComplete : Bool
  idlenessTimer : Bool
  /-- The requests on this connection that have no answer yet. -/
  unanswered : List (List Mutation)
deriving DecidableEq

namespace WriteStream

def isOpen (w : WriteStream) : Bool := w.state = .opened

def isStarted (w : WriteStream) : Bool :=
  w.state = .starting || w.state = .backoff || w.isOpen

/-- `Start`; after an error the stream backs off first. -/
def start (w : WriteStream) : Except HardAssert WriteStream :=
  match w.state with
  | .error => .ok { w with state := .backoff }
  | .initial => .ok { w with state := .starting }
  | _ => .error .alreadyStarted

def inhibitBackoff (w : WriteStream) : Except HardAssert WriteStream :=
  if w.isStarted then .error .inhibitBackoffWhileStarted
  else .ok { w with state := .initial }

def markIdle (w : WriteStream) : WriteStream :=
  if w.isOpen then { w with idlenessTimer := true } else w

/-- `Write`; the idle timer stops. -/
def write (w : WriteStream) : Except HardAssert WriteStream :=
  if w.isOpen then .ok { w with idlenessTimer := false }
  else .error .streamNotOpen

def writeHandshake (w : WriteStream) : Except HardAssert WriteStream :=
  if w.handshakeComplete then .error .handshakeAlreadyCompleted else w.write

def writeMutations (w : WriteStream) (mutations : List Mutation) :
    Except HardAssert WriteStream :=
  if w.handshakeComplete then do
    let w ← w.write
    pure { w with unanswered := w.unanswered ++ [mutations] }
  else .error .handshakeNotComplete

end WriteStream

/-! ## The client -/

inductive Completion
  | write (batchId : Int) (ok : Bool)
  /-- `waitForPendingWrites` -/
  | pendingWrites (token : Nat) (ok : Bool)
deriving DecidableEq

structure Callbacks where
  currentUser : User
  /-- Of each user the batches whose writers wait for an answer. -/
  mutationCallbacks : Table User (Table Int Unit)
  /-- Callers of `waitForPendingWrites` with the batch they wait for. -/
  pendingWritesCallbacks : List (Int × Nat)
  /-- The callbacks called so far. -/
  completions : List Completion
deriving DecidableEq

structure Client where
  localStore : LocalStore
  isNetworkEnabled : Bool
  writePipeline : List MutationBatch
  writeStream : WriteStream
  callbacks : Callbacks
deriving DecidableEq

/-- How the write stream ended: gracefully, or with an error that is permanent
for the write or not. -/
inductive CloseStatus
  | ok
  | failed (isPermanent : Bool)
deriving DecidableEq

def kMaxPendingWrites : Nat := 10

namespace Callbacks

def empty (user : User) : Callbacks := ⟨user, Table.empty, [], []⟩

def waiting (cbs : Callbacks) : Table Int Unit :=
  (cbs.mutationCallbacks.find? cbs.currentUser).getD Table.empty

def addMutationCallback (cbs : Callbacks) (batchId : Int) : Callbacks :=
  { cbs with
    mutationCallbacks := cbs.mutationCallbacks.insert cbs.currentUser
      (cbs.waiting.insert batchId ()) }

def notifyUser (cbs : Callbacks) (batchId : Int) (ok : Bool) : Callbacks :=
  if batchId ∈ cbs.waiting.keys then
    { cbs with
      completions := cbs.completions ++ [.write batchId ok]
      mutationCallbacks := cbs.mutationCallbacks.insert cbs.currentUser
        (cbs.waiting.erase batchId) }
  else cbs

def triggerPendingWriteCallbacks (cbs : Callbacks) (batchId : Int) :
    Callbacks :=
  { cbs with
    completions := cbs.completions ++
      (cbs.pendingWritesCallbacks.filter (fun e => e.1 = batchId)).map
        (fun e => .pendingWrites e.2 true)
    pendingWritesCallbacks :=
      cbs.pendingWritesCallbacks.filter (fun e => e.1 ≠ batchId) }

def failOutstandingPendingWriteCallbacks (cbs : Callbacks) : Callbacks :=
  { cbs with
    completions := cbs.completions ++
      cbs.pendingWritesCallbacks.map (fun e => .pendingWrites e.2 false)
    pendingWritesCallbacks := [] }

end Callbacks

namespace Client

def empty (user : User) : Client :=
  ⟨.empty, false, [], ⟨.initial, false, false, []⟩, .empty user⟩

/-! ## The write pipeline -/

def canAddToWritePipeline (c : Client) : Bool :=
  c.isNetworkEnabled && c.writePipeline.length < kMaxPendingWrites

def shouldStartWriteStream (c : Client) : Bool :=
  c.isNetworkEnabled && !c.writeStream.isStarted && !c.writePipeline.isEmpty

/-- `StartWriteStream`, where the stream should start. -/
def startIfNeeded (c : Client) : Except HardAssert Client :=
  if c.shouldStartWriteStream then do
    let w ← c.writeStream.start
    pure { c with writeStream := w }
  else pure c

/-- `AddToWritePipeline`; its caller has checked that there is room. -/
def addToWritePipeline (c : Client) (batch : MutationBatch) :
    Except HardAssert Client := do
  let c := { c with writePipeline := c.writePipeline ++ [batch] }
  if c.writeStream.isOpen && c.writeStream.handshakeComplete then
    let w ← c.writeStream.writeMutations batch.mutations
    pure { c with writeStream := w }
  else pure c

/-- The loop of `FillWritePipeline`, for at most `slots` batches. -/
def fillSlots : Nat → Int → Client → Except HardAssert Client
  | 0, _, c => pure c
  | slots + 1, lastBatchIdRetrieved, c =>
      if c.canAddToWritePipeline then
        match c.localStore.mutationQueue.nextMutationBatchAfterBatchId
            lastBatchIdRetrieved with
        | none =>
            if c.writePipeline.isEmpty then
              pure { c with writeStream := c.writeStream.markIdle }
            else pure c
        | some batch => do
            let c ← c.addToWritePipeline batch
            fillSlots slots batch.batchId c
      else pure c

def lastBatchIdRetrieved (c : Client) : Int :=
  match c.writePipeline.getLast? with
  | none => kBatchIdUnknown
  | some batch => batch.batchId

/-- `FillWritePipeline`; with `kMaxPendingWrites` batches the pipeline is
full. -/
def fillWritePipeline (c : Client) : Except HardAssert Client := do
  let c ← fillSlots kMaxPendingWrites c.lastBatchIdRetrieved c
  c.startIfNeeded

def registerPendingWritesCallback (c : Client) (token : Nat) : Client :=
  let largestPendingBatchId :=
    c.localStore.mutationQueue.getHighestUnacknowledgedBatchId
  if largestPendingBatchId = kBatchIdUnknown then
    { c with
      callbacks := { c.callbacks with
        completions := c.callbacks.completions ++
          [.pendingWrites token true] } }
  else
    { c with
      callbacks := { c.callbacks with
        pendingWritesCallbacks := c.callbacks.pendingWritesCallbacks ++
          [(largestPendingBatchId, token)] } }

section

variable [DoubleArithmetic]

/-! ## Writes and their answers -/

def writeMutations (c : Client) (mutations : List Mutation)
    (localWriteTime : Timestamp) : Except HardAssert Client := do
  let written ← c.localStore.writeLocally mutations localWriteTime
  let c :=
    { c with
      localStore := written.2
      callbacks := c.callbacks.addMutationCallback written.1.batchId }
  c.fillWritePipeline

/-- `HandleSuccessfulWrite`: the user hears of it before the views do. -/
def handleSuccessfulWrite (c : Client) (r : MutationBatchResult) :
    Except HardAssert Client := do
  let callbacks := (c.callbacks.notifyUser r.batch.batchId true)
    |>.triggerPendingWriteCallbacks r.batch.batchId
  let acknowledged ← c.localStore.acknowledgeBatch r
  pure { c with callbacks := callbacks, localStore := acknowledged.2 }

def handleRejectedWrite (c : Client) (batchId : Int) :
    Except HardAssert Client := do
  let rejected ← c.localStore.rejectBatch batchId
  let callbacks := (c.callbacks.notifyUser batchId false)
    |>.triggerPendingWriteCallbacks batchId
  pure { c with callbacks := callbacks, localStore := rejected.2 }

/-- `OnWriteStreamMutationResult`: the answer is to the first batch of the
pipeline. -/
def onWriteStreamMutationResult (c : Client) (commitVersion : SnapshotVersion)
    (mutationResults : List MutationResult) : Except HardAssert Client :=
  match c.writePipeline with
  | [] => .error .emptyWritePipeline
  | batch :: rest =>
      if h : batch.mutations.length = mutationResults.length then do
        let c := { c with writePipeline := rest }
        let c ← c.handleSuccessfulWrite
          ⟨batch, commitVersion, mutationResults, h⟩
        c.fillWritePipeline
      else .error .mutationResultsSize

/-- `HandleWriteError`: a permanent error rejects the first batch, others are
left to the next connection. -/
def handleWriteError (c : Client) (isPermanent : Bool) :
    Except HardAssert Client :=
  if isPermanent then
    match c.writePipeline with
    | [] => pure c
    | batch :: rest => do
        let w ← c.writeStream.inhibitBackoff
        let c := { c with writePipeline := rest, writeStream := w }
        let c ← c.handleRejectedWrite batch.batchId
        c.fillWritePipeline
  else pure c

/-- `OnWriteStreamClose`; an error before the handshake only concerns the
stream token. -/
def onWriteStreamClose (c : Client) (status : CloseStatus) :
    Except HardAssert Client := do
  let c ←
    match status with
    | .ok =>
        if c.shouldStartWriteStream then .error .writeStreamStillNeeded
        else pure c
    | .failed isPermanent =>
        if !c.writePipeline.isEmpty && c.writeStream.handshakeComplete then
          c.handleWriteError isPermanent
        else pure c
  c.startIfNeeded

/-- `Stream::Close`; the handshake is forgotten only after the callback. -/
def closeWriteStream (c : Client) (status : CloseStatus) :
    Except HardAssert Client :=
  if c.writeStream.isStarted then do
    let w : WriteStream :=
      { c.writeStream with
        idlenessTimer := false
        unanswered := []
        state := if status = .ok then .initial else .error }
    let c ← { c with writeStream := w }.onWriteStreamClose status
    pure
      { c with writeStream := { c.writeStream with handshakeComplete := false } }
  else if status = .ok then pure c
  else .error .closeNotStarted

/-- `OnWriteStreamHandshakeComplete`: the pipeline is sent. -/
def onHandshakeComplete (c : Client) : Except HardAssert Client := do
  let w ← c.writePipeline.foldlM
    (fun w batch => WriteStream.writeMutations w batch.mutations)
    { c.writeStream with handshakeComplete := true }
  pure { c with writeStream := w }

/-! ## The network -/

/-- `DisableNetworkInternal`, once the network is marked as disabled. -/
def disableNetwork (c : Client) : Except HardAssert Client := do
  let c ← { c with isNetworkEnabled := false }.closeWriteStream .ok
  pure { c with writePipeline := [] }

def enableNetwork (c : Client) : Except HardAssert Client :=
  { c with isNetworkEnabled := true }.fillWritePipeline

def restartNetwork (c : Client) : Except HardAssert Client := do
  let c ← c.disableNetwork
  let w ← c.writeStream.inhibitBackoff
  { c with writeStream := w }.enableNetwork

/-- What `HandleCredentialChange` does only when the user changes. -/
def changeUser (c : Client) (user : User) : Except HardAssert Client :=
  if c.callbacks.currentUser = user then pure c
  else do
    let changed ← c.localStore.handleUserChange c.callbacks.currentUser user
    pure
      { c with
        localStore := changed.2
        callbacks := { c.callbacks.failOutstandingPendingWriteCallbacks with
          currentUser := user } }

/-- `HandleCredentialChange`: also a new token of the same user restarts the
network. -/
def handleCredentialChange (c : Client) (user : User) :
    Except HardAssert Client := do
  let c ← c.changeUser user
  if c.isNetworkEnabled then c.restartNetwork else pure c

/-! ## The machine -/

inductive Event
  /-- A write of the user. -/
  | writeMutations (mutations : List Mutation) (localWriteTime : Timestamp)
  | waitForPendingWrites (token : Nat)
  /-- The connection is there; the handshake is sent. -/
  | streamStart
  | backoffElapsed
  /-- The answer to the handshake. -/
  | handshake
  /-- The answer to a request. -/
  | mutationResult (commitVersion : SnapshotVersion)
      (mutationResults : List MutationResult)
  | streamError (isPermanent : Bool)
  | idleTimeout
  | enableNetwork
  | disableNetwork
  | credentialChange (user : User)
  | remoteEvent (event : RemoteEvent)
  /-- The end of a transaction in which documents lost references. -/
  | garbageCollection (orphaned referenced : List DocumentKey)

def step (c : Client) : Event → Except HardAssert Client
  | .writeMutations mutations localWriteTime =>
      c.writeMutations mutations localWriteTime
  | .waitForPendingWrites token => pure (c.registerPendingWritesCallback token)
  | .streamStart => do
      let w ← { c.writeStream with state := .opened }.writeHandshake
      pure { c with writeStream := w }
  | .backoffElapsed => do
      let w ← { c.writeStream with state := .initial }.start
      pure { c with writeStream := w }
  | .handshake => c.onHandshakeComplete
  | .mutationResult commitVersion mutationResults =>
      let w := { c.writeStream with
        unanswered := c.writeStream.unanswered.tail }
      { c with writeStream := w }.onWriteStreamMutationResult commitVersion
        mutationResults
  | .streamError isPermanent => c.closeWriteStream (.failed isPermanent)
  | .idleTimeout => c.closeWriteStream .ok
  | .enableNetwork => c.enableNetwork
  | .disableNetwork => c.disableNetwork
  | .credentialChange user => c.handleCredentialChange user
  | .remoteEvent event => do
      let applied ← c.localStore.applyRemoteEvent event
      pure { c with localStore := applied.2 }
  | .garbageCollection orphaned referenced =>
      pure
        { c with
          localStore := c.localStore.removeOrphaned orphaned referenced }

end

/-! ## What the backend sends -/

abbrev Backend := DocumentKey → History SnapshotVersion ObjectValue

/-- What a document cached at a version tells about the backend's. -/
def knowledge : MaybeDocument → History.Knowledge SnapshotVersion ObjectValue
  | .document version data .synced => .value version data
  | .document version _ _ => .version version
  | .noDocument version _ => .absent version
  | .unknownDocument version => .version version

/-- After a batch each document is gone, or there at the version of its last
mutation. -/
def Committed (backend : Backend) (mutations : List Mutation)
    (mutationResults : List MutationResult) : Prop :=
  ∀ key m result,
    ((mutations.zip mutationResults).filter
      (fun e => e.1.key = key)).getLast? = some (m, result) →
    match m with
    | .delete _ _ => (backend key).read result.version = none
    | _ => ∃ data, (backend key).read result.version =
        some (result.version, data)

/-- A watch update is made up, or what the backend had at its version. -/
def IsWatchUpdate (backend : Backend) (key : DocumentKey)
    (doc : MaybeDocument) : Prop :=
  LocalStore.isManufactured doc = true ∨
    match doc with
    | .document version data documentState =>
        documentState = .synced ∧
          (backend key).read version = some (version, data)
    | .noDocument version hasCommittedMutations =>
        hasCommittedMutations = false ∧ (backend key).read version = none
    | .unknownDocument _ => False

/-- When an event can occur.  The backend answers the requests of a connection
in their order, at times later than 0, and ends a connection with an error,
never gracefully; the IDs of batches stay in their type. -/
def enabled (backend : Backend) (c : Client) : Event → Prop
  | .writeMutations mutations _ =>
      mutations ≠ [] ∧
        c.localStore.mutationQueue.nextBatchId < maxBatchId
  | .waitForPendingWrites _ => True
  | .streamStart => c.writeStream.state = .starting
  | .backoffElapsed => c.writeStream.state = .backoff
  | .handshake =>
      c.writeStream.isOpen = true ∧ c.writeStream.handshakeComplete = false
  | .mutationResult commitVersion mutationResults =>
      c.writeStream.isOpen = true ∧ c.writeStream.handshakeComplete = true ∧
        0 < commitVersion ∧ ∃ mutations ∈ c.writeStream.unanswered.head?,
          List.Forall₂ IsAnswerTo mutations mutationResults ∧
            Committed backend mutations mutationResults
  | .streamError _ =>
      c.writeStream.state = .starting ∨ c.writeStream.state = .opened
  | .idleTimeout => c.writeStream.idlenessTimer = true
  | .enableNetwork => True
  | .disableNetwork => True
  | .credentialChange _ => True
  | .remoteEvent event =>
      (event.snapshotVersion = 0 →
        ∀ e ∈ event.documentUpdates.entries,
          LocalStore.isManufactured e.2 = true) ∧
      (event.snapshotVersion ≠ 0 →
        c.localStore.lastRemoteSnapshotVersion ≤ event.snapshotVersion) ∧
      ∀ e ∈ event.documentUpdates.entries, IsWatchUpdate backend e.1 e.2
  | .garbageCollection _ _ => True

def machine [DoubleArithmetic] (backend : Backend) :
    Machine Client Event HardAssert :=
  ⟨enabled backend, step⟩

end Client

end Grocr.Firestore.Remote
