import Mathlib.Data.List.Range
import Mathlib.Tactic.Common
import Grocr.Proofs.WritePipeline
/-!
# When the callbacks of the user are called

Each write is answered once, in the order in which the writes were made, and
what has no answer yet is in the queue.  A caller of `waitForPendingWrites`
hears of it when the last write that was pending at that moment has its
answer.
-/

namespace Grocr.Firestore.Remote

open Grocr.Support Grocr.Support.Checked Grocr.Firestore.Model
open Grocr.Firestore.Local

def Callbacks.writeIds (cbs : Callbacks) : List Int :=
  cbs.completions.filterMap fun completion =>
    match completion with
    | .write batchId _ => some batchId
    | .pendingWrites _ _ => none

namespace Client

def pendingIds (c : Client) : List Int :=
  c.localStore.mutationQueue.queue.map MutationBatch.batchId

def issued (n : Nat) : List Int :=
  (List.range n).map fun k : Nat => (k : Int) + 1

def Event.isWrite : Event → Bool
  | .writeMutations _ _ => true
  | _ => false

/-- Credentials that come are those of `user`. -/
def Event.Keeps (user : User) : Event → Prop
  | .credentialChange other => other = user
  | _ => True

theorem issued_succ (n : Nat) : issued (n + 1) = issued n ++ [(n : Int) + 1] := by
  rw [issued, List.range_succ, List.map_append]
  rfl

theorem mem_issued {n : Nat} {id : Int} : id ∈ issued n ↔ 1 ≤ id ∧ id ≤ n := by
  unfold issued
  rw [List.mem_map]
  constructor
  · rintro ⟨k, hk, rfl⟩
    have hlt := List.mem_range.mp hk
    omega
  · intro h
    exact ⟨(id - 1).toNat, List.mem_range.mpr (by omega), by omega⟩

theorem issued_increasing (n : Nat) : (issued n).Pairwise (· < ·) := by
  unfold issued
  rw [List.pairwise_map]
  refine List.pairwise_lt_range.imp fun {a b} hlt => ?_
  omega

/-! ## An answered batch -/

theorem completions_settle {cbs : Callbacks} {id : Int} (ok : Bool)
    (h : id ∈ cbs.waiting.keys) :
    (settle cbs id ok).completions = cbs.completions ++ .write id ok ::
      (cbs.pendingWritesCallbacks.filter (fun e => e.1 = id)).map
        (fun e => .pendingWrites e.2 true) := by
  unfold settle Callbacks.notifyUser Callbacks.triggerPendingWriteCallbacks
  rw [if_pos h]
  exact List.append_assoc _ _ _

theorem writeIds_settle {cbs : Callbacks} {id : Int} (ok : Bool)
    (h : id ∈ cbs.waiting.keys) :
    (settle cbs id ok).writeIds = cbs.writeIds ++ [id] := by
  have hnone (es : List (Int × Nat)) :
      (es.map fun e => Completion.pendingWrites e.2 true).filterMap
        (fun completion =>
          match completion with
          | .write batchId _ => some batchId
          | .pendingWrites _ _ => none) = [] := by
    simp [List.filterMap_map]
  unfold Callbacks.writeIds
  rw [completions_settle ok h, List.filterMap_append, List.filterMap_cons,
    hnone]

theorem currentUser_settle (cbs : Callbacks) (id : Int) (ok : Bool) :
    (settle cbs id ok).currentUser = cbs.currentUser := by
  unfold settle Callbacks.notifyUser Callbacks.triggerPendingWriteCallbacks
  split <;> rfl

theorem waiting_addMutationCallback (cbs : Callbacks) (id : Int) :
    (cbs.addMutationCallback id).waiting = cbs.waiting.insert id () := by
  rw [Callbacks.waiting, Callbacks.addMutationCallback,
    Table.find?_insert_self]
  rfl

theorem mem_waiting_settle {cbs : Callbacks} {id id' : Int} {ok : Bool} :
    id' ∈ (settle cbs id ok).waiting.keys ↔
      id' ∈ cbs.waiting.keys ∧ id' ≠ id := by
  unfold settle Callbacks.notifyUser Callbacks.triggerPendingWriteCallbacks
  split
  next =>
    rw [Callbacks.waiting, Table.find?_insert_self, Option.getD_some]
    exact Table.mem_keys_erase
  next hnot =>
    constructor
    · intro hmem
      exact ⟨hmem, fun heq => hnot (heq ▸ hmem)⟩
    · exact fun h => h.1

theorem mem_completions_settle {cbs : Callbacks} {id : Int} (ok : Bool)
    (h : id ∈ cbs.waiting.keys) (token : Nat) :
    .pendingWrites token true ∈ (settle cbs id ok).completions ↔
      .pendingWrites token true ∈ cbs.completions ∨
        (id, token) ∈ cbs.pendingWritesCallbacks := by
  rw [completions_settle ok h, List.mem_append, List.mem_cons]
  simp

theorem pendingWritesCallbacks_settle (cbs : Callbacks) (id : Int) (ok : Bool) :
    (settle cbs id ok).pendingWritesCallbacks =
      cbs.pendingWritesCallbacks.filter (fun e => e.1 ≠ id) := by
  unfold settle Callbacks.notifyUser Callbacks.triggerPendingWriteCallbacks
  split <;> rfl

/-! ## Every write is answered once -/

variable {c c' : Client} {n : Nat} {user : User}

/-- Between the writes that have been answered and those that are pending
nothing is lost. -/
structure Accounted (user : User) (c : Client) (n : Nat) : Prop where
  user : c.callbacks.currentUser = user
  next : c.localStore.mutationQueue.nextBatchId = n + 1
  answered : c.callbacks.writeIds ++ c.pendingIds = issued n
  waiting : ∀ id, id ∈ c.callbacks.waiting.keys ↔ id ∈ c.pendingIds
  registered : ∀ e ∈ c.callbacks.pendingWritesCallbacks, e.1 ∈ c.pendingIds

namespace Accounted

theorem empty (user : User) : Accounted user (.empty user) 0 where
  user := rfl
  next := rfl
  answered := rfl
  waiting _ := Iff.rfl
  registered _ h := nomatch h

theorem keeps (h : c.Accounted user n) {e : Event} (hkeeps : e.Keeps user) :
    e.Keeps c.callbacks.currentUser := by
  rw [h.user]
  exact hkeeps

theorem not_mem_rest (h : c.Accounted user n) {id : Int} {ids : List Int}
    (hids : c.pendingIds = id :: ids) : id ∉ ids := by
  have hsorted := issued_increasing n
  rw [← h.answered, hids] at hsorted
  obtain ⟨-, hids, -⟩ := List.pairwise_append.mp hsorted
  intro hmem
  exact lt_irrefl id ((List.pairwise_cons.mp hids).1 id hmem)

theorem lt_of_answered (h : c.Accounted user n) {a b : Int}
    (ha : a ∈ c.callbacks.writeIds) (hb : b ∈ c.pendingIds) : a < b := by
  have hsorted := issued_increasing n
  rw [← h.answered] at hsorted
  exact (List.pairwise_append.mp hsorted).2.2 a ha b hb

theorem mem_iff (h : c.Accounted user n) (id : Int) :
    id ∈ c.callbacks.writeIds ∨ id ∈ c.pendingIds ↔ 1 ≤ id ∧ id ≤ n := by
  rw [← List.mem_append, h.answered, mem_issued]

theorem length_add (h : c.Accounted user n) :
    c.callbacks.writeIds.length + c.localStore.mutationQueue.queue.length =
      n := by
  have hlength := congrArg List.length h.answered
  simp only [List.length_append, pendingIds, List.length_map, issued,
    List.length_range] at hlength
  exact hlength

theorem last_mem (h : c.Accounted user n) (hne : c.pendingIds ≠ []) :
    (n : Int) ∈ c.pendingIds := by
  have hlast := congrArg List.getLast? h.answered
  rw [List.getLast?_append_of_ne_nil _ hne] at hlast
  cases n with
  | zero =>
      have hnil : c.callbacks.writeIds ++ c.pendingIds = [] := h.answered
      exact absurd (List.append_eq_nil_iff.mp hnil).2 hne
  | succ n =>
      rw [issued_succ, List.getLast?_concat] at hlast
      exact List.mem_of_getLast? hlast

theorem register_eq (h : c.Accounted user n) (token : Nat) :
    (c.registerPendingWritesCallback token).callbacks =
      if c.pendingIds = [] then
        { c.callbacks with
          completions := c.callbacks.completions ++ [.pendingWrites token true] }
      else
        { c.callbacks with
          pendingWritesCallbacks := c.callbacks.pendingWritesCallbacks ++
            [((n : Int), token)] } := by
  have hlargest :
      c.localStore.mutationQueue.getHighestUnacknowledgedBatchId =
        if c.pendingIds = [] then kBatchIdUnknown else (n : Int) := by
    unfold MemoryMutationQueue.getHighestUnacknowledgedBatchId
      MemoryMutationQueue.isEmpty
    simp only [pendingIds, List.map_eq_nil_iff, List.isEmpty_iff, h.next]
    split <;> omega
  unfold registerPendingWritesCallback
  rw [hlargest]
  by_cases hnil : c.pendingIds = []
  · simp only [if_pos hnil, if_true]
  · have hknown : (n : Int) ≠ kBatchIdUnknown := by
      unfold kBatchIdUnknown
      omega
    simp only [if_neg hnil, if_neg hknown]

theorem congr (h : c.Accounted user n)
    (hnext : c'.localStore.mutationQueue.nextBatchId =
      c.localStore.mutationQueue.nextBatchId)
    (hids : c'.pendingIds = c.pendingIds)
    (hcallbacks : c'.callbacks = c.callbacks) : c'.Accounted user n where
  user := by
    rw [hcallbacks]
    exact h.user
  next := hnext.trans h.next
  answered := by
    rw [hcallbacks, hids]
    exact h.answered
  waiting := by
    rw [hcallbacks, hids]
    exact h.waiting
  registered := by
    rw [hcallbacks, hids]
    exact h.registered

theorem add (h : c.Accounted user n)
    (hnext : c'.localStore.mutationQueue.nextBatchId = (n + 1 : Int) + 1)
    (hids : c'.pendingIds = c.pendingIds ++ [(n + 1 : Int)])
    (hcallbacks : c'.callbacks = c.callbacks.addMutationCallback (n + 1)) :
    c'.Accounted user (n + 1) where
  user := by
    rw [hcallbacks]
    exact h.user
  next := by
    rw [hnext]
    push_cast
    rfl
  answered := by
    rw [hcallbacks, hids, issued_succ, ← h.answered, List.append_assoc]
    rfl
  waiting id := by
    rw [hcallbacks, waiting_addMutationCallback, hids, Table.mem_keys_insert,
      List.mem_append, List.mem_singleton, h.waiting]
    exact or_comm
  registered e he := by
    rw [hcallbacks] at he
    rw [hids]
    exact List.mem_append_left _ (h.registered e he)

theorem register (h : c.Accounted user n) {token : Nat}
    (hstore : c'.localStore = c.localStore)
    (hcallbacks : c'.callbacks =
      (c.registerPendingWritesCallback token).callbacks) :
    c'.Accounted user n := by
  have hids : c'.pendingIds = c.pendingIds := by
    rw [pendingIds, pendingIds, hstore]
  rw [h.register_eq] at hcallbacks
  by_cases hnil : c.pendingIds = []
  · rw [if_pos hnil] at hcallbacks
    refine ⟨?_, ?_, ?_, ?_, ?_⟩
    · rw [hcallbacks]
      exact h.user
    · rw [hstore]
      exact h.next
    · rw [hids, hcallbacks, Callbacks.writeIds, List.filterMap_append,
        List.filterMap_cons, List.filterMap_nil, List.append_nil]
      exact h.answered
    · rw [hids, hcallbacks]
      exact h.waiting
    · rw [hids, hcallbacks]
      exact h.registered
  · rw [if_neg hnil] at hcallbacks
    refine ⟨?_, ?_, ?_, ?_, fun e he => ?_⟩
    · rw [hcallbacks]
      exact h.user
    · rw [hstore]
      exact h.next
    · rw [hids, hcallbacks]
      exact h.answered
    · rw [hids, hcallbacks]
      exact h.waiting
    · rw [hcallbacks, List.mem_append, List.mem_singleton] at he
      rw [hids]
      rcases he with he | rfl
      · exact h.registered e he
      · exact h.last_mem hnil

theorem settle (h : c.Accounted user n) {id : Int} {ok : Bool}
    (hnext : c'.localStore.mutationQueue.nextBatchId =
      c.localStore.mutationQueue.nextBatchId)
    (hids : c.pendingIds = id :: c'.pendingIds)
    (hcallbacks : c'.callbacks = Client.settle c.callbacks id ok) :
    c'.Accounted user n := by
  have hmem : id ∈ c.callbacks.waiting.keys := by
    rw [h.waiting, hids]
    exact List.mem_cons_self
  refine ⟨?_, hnext.trans h.next, ?_, fun id' => ?_, fun e he => ?_⟩
  · rw [hcallbacks, currentUser_settle]
    exact h.user
  · rw [hcallbacks, writeIds_settle ok hmem, List.append_assoc,
      List.singleton_append, ← hids]
    exact h.answered
  · rw [hcallbacks, mem_waiting_settle, h.waiting, hids, List.mem_cons]
    have hnot := h.not_mem_rest hids
    constructor
    · exact fun hor => hor.1.resolve_left hor.2
    · exact fun hin => ⟨.inr hin, fun heq => hnot (heq ▸ hin)⟩
  · rw [hcallbacks, pendingWritesCallbacks_settle, List.mem_filter,
      decide_eq_true_eq] at he
    have hin := h.registered e he.1
    rw [hids, List.mem_cons] at hin
    exact hin.resolve_left he.2

end Accounted

section

variable [DoubleArithmetic] {backend : Backend} {e : Event}

theorem queue_of_write (h : c.Inv) {mutations : List Mutation}
    (hne : mutations ≠ []) {localWriteTime : Timestamp}
    (heffect : Effect c (.writeMutations mutations localWriteTime) c') :
    ∃ existing batch,
      batch.batchId = c.localStore.mutationQueue.nextBatchId ∧
      batch.mutations = mutations ∧
      batch.baseMutations =
        mutations.filterMap (LocalStore.baseMutation existing) ∧
      c'.localStore.mutationQueue.queue =
        c.localStore.mutationQueue.queue ++ [batch] ∧
      c'.localStore.mutationQueue.nextBatchId =
        c.localStore.mutationQueue.nextBatchId + 1 ∧
      c'.callbacks = c.callbacks.addMutationCallback batch.batchId := by
  obtain ⟨result, hwrite, hcallbacks⟩ := heffect
  obtain ⟨existing, result', s', -, hwrite', batch, hbatch, hresult, hqueue,
    hnext, -⟩ := LocalStore.writeLocally_ok h.store hne localWriteTime
  cases hwrite.symm.trans hwrite'
  refine ⟨existing, batch, ?_, ?_, ?_, hqueue, hnext, ?_⟩
  · rw [hbatch]
  · rw [hbatch]
  · rw [hbatch]
  · rw [hcallbacks, hresult]

def Settles (c c' : Client) : Prop :=
  c'.localStore.mutationQueue.nextBatchId =
      c.localStore.mutationQueue.nextBatchId ∧
    ((∃ batch ok, c.localStore.mutationQueue.queue =
          batch :: c'.localStore.mutationQueue.queue ∧
        c'.callbacks = settle c.callbacks batch.batchId ok) ∨
      c'.localStore.mutationQueue.queue = c.localStore.mutationQueue.queue ∧
        c'.callbacks = c.callbacks)

omit [DoubleArithmetic] in
theorem Settles.of_queue
    (hqueue : c'.localStore.mutationQueue = c.localStore.mutationQueue)
    (hcallbacks : c'.callbacks = c.callbacks) : c.Settles c' := by
  rw [Settles, hqueue]
  exact ⟨rfl, .inr ⟨rfl, hcallbacks⟩⟩

theorem Settles.of_result (h : c.Inv) {commitVersion : SnapshotVersion}
    {mutationResults : List MutationResult}
    (henabled : enabled backend c
      (.mutationResult commitVersion mutationResults))
    (heffect : Effect c (.mutationResult commitVersion mutationResults) c') :
    c.Settles c' := by
  obtain ⟨r, rest, changes, hqueue, hhead, -, hresults, hack, hcallbacks⟩ :=
    heffect
  obtain ⟨-, -, -, mutations, hhead', hanswers, -⟩ := henabled
  cases hhead.symm.trans hhead'
  obtain ⟨changes', s', hack', hqueue', hnext, -⟩ :=
    LocalStore.acknowledgeBatch_ok h.store hqueue (hresults ▸ hanswers)
  cases hack.symm.trans hack'
  refine ⟨hnext, .inl ⟨r.batch, true, ?_, hcallbacks⟩⟩
  rw [hqueue, hqueue']

theorem Settles.of_streamError (h : c.Inv) {isPermanent : Bool}
    (heffect : Effect c (.streamError isPermanent) c') : c.Settles c' := by
  rcases heffect with ⟨hstore, hcallbacks⟩ |
    ⟨-, batch, rest, changes, hqueue, hreject, hcallbacks⟩
  · exact .of_queue (by rw [hstore]) hcallbacks
  · obtain ⟨changes', s', hreject', hqueue', hnext, -⟩ :=
      LocalStore.rejectBatch_ok h.store hqueue
    cases hreject.symm.trans hreject'
    refine ⟨hnext, .inl ⟨batch, false, ?_, hcallbacks⟩⟩
    rw [hqueue, hqueue']

theorem Settles.of_remoteEvent (h : c.Inv) {event : RemoteEvent}
    (henabled : enabled backend c (.remoteEvent event))
    (heffect : Effect c (.remoteEvent event) c') : c.Settles c' := by
  obtain ⟨changes, happly, hcallbacks⟩ := heffect
  obtain ⟨changes', s', happly', hqueue, -⟩ :=
    LocalStore.applyRemoteEvent_ok h.store henabled.1 henabled.2.1
  cases happly.symm.trans happly'
  exact .of_queue hqueue hcallbacks

/-- What an event can do to the queue and to the callbacks while the user stays
the same: add a batch, register a caller, answer the first batch, or nothing. -/
theorem queue_cases (h : c.Inv) (henabled : enabled backend c e)
    (hkeeps : e.Keeps c.callbacks.currentUser) (hstep : c.step e = .ok c') :
    (∃ mutations localWriteTime existing batch,
      e = .writeMutations mutations localWriteTime ∧
      batch.batchId = c.localStore.mutationQueue.nextBatchId ∧
      batch.mutations = mutations ∧
      batch.baseMutations =
        mutations.filterMap (LocalStore.baseMutation existing) ∧
      c'.localStore.mutationQueue.queue =
        c.localStore.mutationQueue.queue ++ [batch] ∧
      c'.localStore.mutationQueue.nextBatchId =
        c.localStore.mutationQueue.nextBatchId + 1 ∧
      c'.callbacks = c.callbacks.addMutationCallback batch.batchId) ∨
    (∃ token, e = .waitForPendingWrites token ∧
      c'.localStore = c.localStore ∧
      c'.callbacks = (c.registerPendingWritesCallback token).callbacks) ∨
    (e.isWrite = false ∧ (∀ token, e ≠ .waitForPendingWrites token) ∧
      c.Settles c') := by
  obtain ⟨d, hd, -, heffect⟩ := step_ok h henabled
  cases hstep.symm.trans hd
  have hsame (hstore : c'.localStore = c.localStore)
      (hcallbacks : c'.callbacks = c.callbacks) : c.Settles c' :=
    .of_queue (by rw [hstore]) hcallbacks
  cases e with
  | writeMutations mutations localWriteTime =>
      obtain ⟨existing, batch, hadds⟩ := queue_of_write h henabled.1 heffect
      exact .inl ⟨mutations, localWriteTime, existing, batch, rfl, hadds⟩
  | waitForPendingWrites token => exact .inr (.inl ⟨token, rfl, heffect⟩)
  | mutationResult commitVersion mutationResults =>
      exact .inr (.inr ⟨rfl, nofun, .of_result h henabled heffect⟩)
  | streamError isPermanent =>
      exact .inr (.inr ⟨rfl, nofun, .of_streamError h heffect⟩)
  | remoteEvent event =>
      exact .inr (.inr ⟨rfl, nofun, .of_remoteEvent h henabled heffect⟩)
  | credentialChange other =>
      rcases heffect with ⟨-, hstore, hcallbacks⟩ | ⟨hne, -⟩
      · exact .inr (.inr ⟨rfl, nofun, hsame hstore hcallbacks⟩)
      · exact absurd hkeeps hne
  | garbageCollection orphaned referenced =>
      refine .inr (.inr ⟨rfl, nofun, .of_queue ?_ heffect.2⟩)
      rw [heffect.1]
      rfl
  | streamStart => exact .inr (.inr ⟨rfl, nofun, hsame heffect.1 heffect.2⟩)
  | backoffElapsed => exact .inr (.inr ⟨rfl, nofun, hsame heffect.1 heffect.2⟩)
  | handshake => exact .inr (.inr ⟨rfl, nofun, hsame heffect.1 heffect.2⟩)
  | idleTimeout => exact .inr (.inr ⟨rfl, nofun, hsame heffect.1 heffect.2⟩)
  | enableNetwork => exact .inr (.inr ⟨rfl, nofun, hsame heffect.1 heffect.2⟩)
  | disableNetwork => exact .inr (.inr ⟨rfl, nofun, hsame heffect.1 heffect.2⟩)

theorem callbacks_cases (h : c.Inv) (henabled : enabled backend c e)
    (hkeeps : e.Keeps c.callbacks.currentUser) (hstep : c.step e = .ok c') :
    (e.isWrite = true ∧ (∀ token, e ≠ .waitForPendingWrites token) ∧
      c'.pendingIds = c.pendingIds ++ [c.localStore.mutationQueue.nextBatchId] ∧
      c'.localStore.mutationQueue.nextBatchId =
        c.localStore.mutationQueue.nextBatchId + 1 ∧
      c'.callbacks = c.callbacks.addMutationCallback
        c.localStore.mutationQueue.nextBatchId) ∨
    (∃ token, e = .waitForPendingWrites token ∧
      c'.localStore = c.localStore ∧
      c'.callbacks = (c.registerPendingWritesCallback token).callbacks) ∨
    (e.isWrite = false ∧ (∀ token, e ≠ .waitForPendingWrites token) ∧
      c'.localStore.mutationQueue.nextBatchId =
        c.localStore.mutationQueue.nextBatchId ∧
      ((∃ id ok, c.pendingIds = id :: c'.pendingIds ∧
          c'.callbacks = settle c.callbacks id ok) ∨
        c'.pendingIds = c.pendingIds ∧ c'.callbacks = c.callbacks)) := by
  unfold pendingIds
  rcases queue_cases h henabled hkeeps hstep with
    ⟨_, _, _, batch, rfl, hid, -, -, hqueue, hnext, hcallbacks⟩ | hregistered |
    ⟨hwrite, hwait, hnext, ⟨batch, ok, hqueue, hcallbacks⟩ |
      ⟨hqueue, hcallbacks⟩⟩
  · rw [hid] at hcallbacks
    refine .inl ⟨rfl, nofun, ?_, hnext, hcallbacks⟩
    rw [hqueue, List.map_append, List.map_singleton, hid]
  · exact .inr (.inl hregistered)
  · refine .inr (.inr ⟨hwrite, hwait, hnext,
      .inl ⟨batch.batchId, ok, ?_, hcallbacks⟩⟩)
    rw [hqueue, List.map_cons]
  · exact .inr (.inr ⟨hwrite, hwait, hnext, .inr ⟨by rw [hqueue], hcallbacks⟩⟩)

theorem Accounted.step (h : c.Accounted user n) (hinv : c.Inv)
    (henabled : enabled backend c e) (hkeeps : e.Keeps user)
    (hstep : c.step e = .ok c') :
    c'.Accounted user (n + if e.isWrite then 1 else 0) := by
  rcases callbacks_cases hinv henabled (h.keeps hkeeps) hstep with
    ⟨hwrite, -, hids, hnext, hcallbacks⟩ | ⟨token, rfl, hstore, hcallbacks⟩ |
    ⟨hwrite, -, hnext, ⟨id, ok, hids, hcallbacks⟩ | ⟨hids, hcallbacks⟩⟩
  · rw [if_pos hwrite]
    rw [h.next] at hids hnext hcallbacks
    exact h.add hnext hids hcallbacks
  · exact h.register hstore hcallbacks
  · rw [hwrite]
    exact h.settle hnext hids hcallbacks
  · rw [hwrite]
    exact h.congr hnext hids hcallbacks

variable {es : List Event}

theorem Accounted.induct {s : Client} {D : Event → Prop} {I : Client → Prop}
    (hrun : (machine backend).Run s es c) (hinv : s.Inv)
    (haccounted : s.Accounted user n) (hkeeps : ∀ e ∈ es, e.Keeps user)
    (hD : ∀ e ∈ es, D e) (hinit : I s)
    (hstep : ∀ u k e v, u.Inv → u.Accounted user k → n ≤ k →
      e.Keeps user → D e → enabled backend u e → u.step e = .ok v →
      I u → I v) :
    c.Inv ∧ c.Accounted user (n + es.countP Event.isWrite) ∧ I c := by
  have hboth : ∀ e ∈ es, e.Keeps user ∧ D e := fun e he =>
    ⟨hkeeps e he, hD e he⟩
  apply hrun.induct (Machine.Along.of_forall_mem hboth)
    (I := fun pre u => u.Inv ∧
      u.Accounted user (n + pre.countP Event.isWrite) ∧ I u)
    ⟨hinv, haccounted, hinit⟩
  intro pre u e v ⟨hinv, haccounted, hI⟩ ⟨hkeeps, hDe⟩ henabled hv
  obtain ⟨v', hv', hinv', -⟩ := step_ok hinv henabled
  cases hv.symm.trans hv'
  refine ⟨hinv', ?_, ?_⟩
  · rw [List.countP_append, List.countP_singleton, ← Nat.add_assoc]
    exact haccounted.step hinv henabled hkeeps hv
  · exact hstep u _ e v hinv haccounted (Nat.le_add_right _ _) hkeeps hDe
      henabled hv hI

theorem accounted_of_run (hrun : (machine backend).Run (.empty user) es c)
    (hkeeps : ∀ e ∈ es, e.Keeps user) :
    c.Accounted user (es.countP Event.isWrite) := by
  have h := Accounted.induct (D := fun _ => True) (I := fun _ => True) hrun
    (Inv.empty user) (.empty user) hkeeps (fun _ _ => trivial) trivial
    (fun _ _ _ _ _ _ _ _ _ _ _ _ => trivial)
  rw [Nat.zero_add] at h
  exact h.2.1

/-! ## `waitForPendingWrites` -/

/-- A caller waits for the batch `last`, or has heard of its answer. -/
def Awaits (token : Nat) (last : Int) (c : Client) : Prop :=
  (.pendingWrites token true ∈ c.callbacks.completions ∧ last ∉ c.pendingIds ∧
      ∀ e ∈ c.callbacks.pendingWritesCallbacks, e.2 ≠ token) ∨
    (.pendingWrites token true ∉ c.callbacks.completions ∧ last ∈ c.pendingIds ∧
      (last, token) ∈ c.callbacks.pendingWritesCallbacks ∧
      ∀ e ∈ c.callbacks.pendingWritesCallbacks, e.2 = token → e.1 = last)

def Unheard (token : Nat) (c : Client) : Prop :=
  .pendingWrites token true ∉ c.callbacks.completions ∧
    ∀ e ∈ c.callbacks.pendingWritesCallbacks, e.2 ≠ token

theorem Unheard.step {token : Nat} (h : c.Unheard token)
    (haccounted : c.Accounted user n) (hinv : c.Inv)
    (henabled : enabled backend c e) (hkeeps : e.Keeps user)
    (hne : e ≠ .waitForPendingWrites token)
    (hstep : c.step e = .ok c') : c'.Unheard token := by
  obtain ⟨hcompletions, hpending⟩ := h
  rcases callbacks_cases hinv henabled (haccounted.keeps hkeeps) hstep with
    ⟨-, -, -, -, hcallbacks⟩ | ⟨other, rfl, -, hcallbacks⟩ |
    ⟨-, -, -, ⟨id, ok, hids, hcallbacks⟩ | ⟨-, hcallbacks⟩⟩
  · rw [Unheard, hcallbacks]
    exact ⟨hcompletions, hpending⟩
  · have hother : other ≠ token := fun heq => hne (heq ▸ rfl)
    rw [haccounted.register_eq] at hcallbacks
    split at hcallbacks
    · rw [Unheard, hcallbacks]
      exact ⟨by simp [hcompletions, hother.symm], hpending⟩
    · rw [Unheard, hcallbacks]
      refine ⟨hcompletions, List.forall_mem_append.mpr ⟨hpending, ?_⟩⟩
      simpa using hother
  · have hmem : id ∈ c.callbacks.waiting.keys := by
      rw [haccounted.waiting, hids]
      exact List.mem_cons_self
    rw [Unheard, hcallbacks, mem_completions_settle ok hmem,
      pendingWritesCallbacks_settle]
    refine ⟨fun hor => ?_, fun e he => hpending e (List.mem_filter.mp he).1⟩
    exact hor.elim hcompletions fun hin => hpending _ hin rfl
  · rw [Unheard, hcallbacks]
    exact ⟨hcompletions, hpending⟩

theorem Unheard.register {token : Nat} (h : c.Unheard token)
    (haccounted : c.Accounted user n) (hinv : c.Inv)
    (hstep : c.step (.waitForPendingWrites token) = .ok c') :
    c'.Awaits token n := by
  obtain ⟨hcompletions, hpending⟩ := h
  obtain ⟨d, hd, -, hstore, hcallbacks⟩ := waitForPendingWrites_ok hinv token
  cases hstep.symm.trans hd
  have hids : c'.pendingIds = c.pendingIds := by
    rw [pendingIds, pendingIds, hstore]
  rw [haccounted.register_eq] at hcallbacks
  by_cases hnil : c.pendingIds = []
  · rw [if_pos hnil] at hcallbacks
    rw [Awaits, hcallbacks, hids]
    exact .inl ⟨by simp, by simp [hnil], hpending⟩
  · rw [if_neg hnil] at hcallbacks
    rw [Awaits, hcallbacks, hids]
    refine .inr ⟨hcompletions, haccounted.last_mem hnil, by simp, ?_⟩
    refine List.forall_mem_append.mpr ⟨fun e he heq => ?_, by simp⟩
    exact absurd heq (hpending e he)

theorem Awaits.step {token m : Nat} (h : c.Awaits token m)
    (haccounted : c.Accounted user n) (hle : m ≤ n) (hinv : c.Inv)
    (henabled : enabled backend c e) (hkeeps : e.Keeps user)
    (hne : e ≠ .waitForPendingWrites token)
    (hstep : c.step e = .ok c') : c'.Awaits token m := by
  rcases callbacks_cases hinv henabled (haccounted.keeps hkeeps) hstep with
    ⟨-, -, hids, -, hcallbacks⟩ | ⟨other, rfl, hstore, hcallbacks⟩ |
    ⟨-, -, -, ⟨id, ok, hids, hcallbacks⟩ | ⟨hids, hcallbacks⟩⟩
  · have hmem : (m : Int) ∈ c'.pendingIds ↔ (m : Int) ∈ c.pendingIds := by
      rw [hids, haccounted.next, List.mem_append, List.mem_singleton]
      constructor
      · exact fun hor => hor.resolve_right (by omega)
      · exact .inl
    rw [Awaits, hcallbacks, hmem]
    exact h
  · have hids : c'.pendingIds = c.pendingIds := by
      rw [pendingIds, pendingIds, hstore]
    have hother : other ≠ token := fun heq => hne (heq ▸ rfl)
    rw [haccounted.register_eq] at hcallbacks
    split at hcallbacks
    · rw [Awaits, hcallbacks, hids]
      simpa [Awaits, hother.symm] using h
    · rw [Awaits, hcallbacks, hids]
      simp only [List.mem_append, List.mem_singleton, Prod.mk.injEq,
        hother.symm, and_false, or_false]
      refine h.imp (fun h => ⟨h.1, h.2.1, ?_⟩) fun h =>
        ⟨h.1, h.2.1, h.2.2.1, ?_⟩
      · rintro e (he | rfl)
        · exact h.2.2 e he
        · exact hother
      · rintro e (he | rfl) heq
        · exact h.2.2.2 e he heq
        · exact absurd heq hother
  · have hwaiting : id ∈ c.callbacks.waiting.keys := by
      rw [haccounted.waiting, hids]
      exact List.mem_cons_self
    have hnot := haccounted.not_mem_rest hids
    rw [Awaits, hcallbacks, mem_completions_settle ok hwaiting,
      pendingWritesCallbacks_settle]
    rcases h with ⟨hheard, hanswered, hpending⟩ |
      ⟨hunheard, hwaits, hregistered, honly⟩
    · refine .inl ⟨.inl hheard, fun hin => hanswered ?_, fun e he => ?_⟩
      · rw [hids]
        exact List.mem_cons_of_mem id hin
      · exact hpending e (List.mem_filter.mp he).1
    · rw [hids, List.mem_cons] at hwaits
      by_cases heq : (m : Int) = id
      · -- this is the answer that the caller waits for
        refine .inl ⟨.inr (heq ▸ hregistered), heq ▸ hnot, fun e he htoken => ?_⟩
        obtain ⟨hin, hkeep⟩ := List.mem_filter.mp he
        rw [decide_eq_true_eq] at hkeep
        exact hkeep ((honly e hin htoken).trans heq)
      · refine .inr ⟨?_, hwaits.resolve_left heq, ?_, fun e he htoken => ?_⟩
        · exact fun hor => hor.elim hunheard fun hin =>
            heq (honly _ hin rfl).symm
        · exact List.mem_filter.mpr ⟨hregistered, by simpa using heq⟩
        · exact honly e (List.mem_filter.mp he).1 htoken
  · rw [Awaits, hcallbacks, hids]
    exact h

theorem pendingIds_step (hinv : c.Inv) (henabled : enabled backend c e)
    (hkeeps : e.Keeps c.callbacks.currentUser) (hstep : c.step e = .ok c')
    {id : Int} (hid : id ∈ c'.pendingIds) :
    id ∈ c.pendingIds ∨ id = c.localStore.mutationQueue.nextBatchId := by
  rcases callbacks_cases hinv henabled hkeeps hstep with
    ⟨-, -, hids, -⟩ | ⟨-, -, hstore, -⟩ | ⟨-, -, -, ⟨_, _, hids, -⟩ | ⟨hids, -⟩⟩
  · rw [hids, List.mem_append, List.mem_singleton] at hid
    exact hid
  · rw [pendingIds, hstore] at hid
    exact .inl hid
  · rw [hids]
    exact .inl (List.mem_cons_of_mem _ hid)
  · rw [hids] at hid
    exact .inl hid

/-- While the user stays the same, a caller of `waitForPendingWrites` hears
exactly when all the writes that were pending when it asked have their
answers. -/
theorem pendingWrites_called_iff {token : Nat} {pre post : List Event}
    {u : Client}
    (hrun : (machine backend).Run (.empty user)
      (pre ++ .waitForPendingWrites token :: post) c)
    (hpre : (machine backend).Run (.empty user) pre u)
    (hkeeps : ∀ e ∈ pre ++ post, e.Keeps user)
    (hfresh : ∀ e ∈ pre ++ post, e ≠ .waitForPendingWrites token) :
    .pendingWrites token true ∈ c.callbacks.completions ↔
      ∀ id ∈ u.pendingIds, id ∈ c.callbacks.writeIds := by
  obtain ⟨hfreshPre, hfreshPost⟩ := List.forall_mem_append.mp hfresh
  obtain ⟨hkeepsPre, hkeepsPost⟩ := List.forall_mem_append.mp hkeeps
  obtain ⟨hinv, haccounted, hunheard⟩ := Accounted.induct (I := Unheard token)
    hpre (Inv.empty user) (.empty user) hkeepsPre hfreshPre ⟨nofun, nofun⟩
    (fun _ _ _ _ hinv haccounted _ hkeeps hne henabled hstep hI =>
      hI.step haccounted hinv henabled hkeeps hne hstep)
  rw [Nat.zero_add] at haccounted
  obtain ⟨u', hu', hrest⟩ := hrun.split
  cases hu'.unique hpre
  cases hrest with
  | @cons _ v _ _ _ henabled hstep hpost =>
      have henabled' : enabled backend u (.waitForPendingWrites token) :=
        henabled
      have hawaits := hunheard.register haccounted hinv hstep
      have haccountedv := haccounted.step hinv henabled' trivial hstep
      obtain ⟨d, hd, hinvv, hstore, -⟩ := waitForPendingWrites_ok hinv token
      cases hstep.symm.trans hd
      have hold : ∀ id ∈ v.pendingIds, id ≤ (pre.countP Event.isWrite : Nat) →
          id ∈ u.pendingIds := by
        intro id hid _
        rw [pendingIds, hstore] at hid
        exact hid
      obtain ⟨-, haccountedc, hawaitsc, holdc⟩ := Accounted.induct
        (I := fun c => c.Awaits token (pre.countP Event.isWrite : Nat) ∧
          ∀ id ∈ c.pendingIds, id ≤ (pre.countP Event.isWrite : Nat) →
            id ∈ u.pendingIds)
        hpost hinvv haccountedv hkeepsPost hfreshPost ⟨hawaits, hold⟩
        (fun x k f y hinvx haccountedx hle hkeeps hne henabledx hstepx hI => by
          refine ⟨hI.1.step haccountedx hle hinvx henabledx hkeeps hne hstepx,
            ?_⟩
          intro id hid hidle
          rcases pendingIds_step hinvx henabledx (haccountedx.keeps hkeeps)
            hstepx hid with hin | hnew
          · exact hI.2 id hin hidle
          · rw [haccountedx.next] at hnew
            have hle' : pre.countP Event.isWrite ≤ k := hle
            omega)
      rcases hawaitsc with ⟨hheard, hanswered, -⟩ | ⟨hnot, hwaits, -⟩
      · refine iff_of_true hheard fun id hid => ?_
        have hbounds := (haccounted.mem_iff id).mp (.inr hid)
        have hlast := (haccountedc.mem_iff
          (pre.countP Event.isWrite : Nat)).mpr (by omega)
        have hmem := (haccountedc.mem_iff id).mpr (by omega)
        refine hmem.resolve_right fun hpending => ?_
        have hlt := haccountedc.lt_of_answered (hlast.resolve_right hanswered)
          hpending
        omega
      · refine iff_of_false hnot fun hall => ?_
        have hin := holdc _ hwaits le_rfl
        exact lt_irrefl _ (haccountedc.lt_of_answered (hall _ hin) hwaits)

/-- Every write of a run of one user is answered once or still pending, in the
order of the writes, and exactly the pending ones have a caller waiting. -/
theorem answered_in_order (hrun : (machine backend).Run (.empty user) es c)
    (hkeeps : ∀ e ∈ es, e.Keeps user) :
    c.callbacks.writeIds ++ c.pendingIds = issued (es.countP Event.isWrite) ∧
      c.callbacks.waiting.keys = c.pendingIds := by
  have haccounted := accounted_of_run hrun hkeeps
  refine ⟨haccounted.answered, ?_⟩
  apply eq_of_increasing (fun id : Int => id)
  · exact c.callbacks.waiting.keys_increasing
  · have hsorted := issued_increasing (es.countP Event.isWrite)
    rw [← haccounted.answered] at hsorted
    exact (List.pairwise_append.mp hsorted).2.1
  · exact haccounted.waiting

end

theorem keeps_apple :
    ∀ e ∈ appleTagged ++ [appleAnswer], e.Keeps appleUser := by
  simp [appleTagged, appleSent, appleAnswer, Event.Keeps]

theorem pendingWrites_called_iff_apple : ∃ c,
    (machine appleBackend).Run (.empty appleUser)
        (appleTagged ++ [.waitForPendingWrites 7, appleAnswer]) c ∧
      .pendingWrites 7 true ∉ c.callbacks.completions := by
  obtain ⟨u, c, hpre, hlast, hids, hanswered⟩ : ∃ u c,
      (machine appleBackend).Run (.empty appleUser) appleTagged u ∧
      (machine appleBackend).Run u [.waitForPendingWrites 7, appleAnswer] c ∧
      u.pendingIds = [1, 2] ∧ c.callbacks.writeIds = [1] := by
    refine ⟨_, _, .cons trivial rfl (.cons ⟨?_, ?_⟩ rfl (.cons rfl rfl
      (.cons ⟨rfl, rfl⟩ rfl (.cons ⟨?_, ?_⟩ rfl (.nil _))))),
      .cons trivial rfl
        (.cons (enabled_appleAnswer rfl rfl rfl) rfl (.nil _)), rfl, rfl⟩
    · exact List.cons_ne_nil _ _
    · decide
    · exact List.cons_ne_nil _ _
    · decide
  refine ⟨c, hpre.append hlast, ?_⟩
  rw [pendingWrites_called_iff (hpre.append hlast) hpre keeps_apple
    (by simp [appleTagged, appleSent, appleAnswer]), hids, hanswered]
  simp

theorem answered_in_order_apple : ∃ c,
    (machine appleBackend).Run (.empty appleUser)
        (appleTagged ++ [appleAnswer]) c ∧
      c.callbacks.writeIds ++ c.pendingIds = [1, 2] ∧
      c.callbacks.waiting.keys = c.pendingIds := by
  obtain ⟨_, c, _, _, hrun, henabled, hstep, -⟩ := exists_apple_run
  have hlast := hrun.snoc (e := appleAnswer) henabled hstep
  exact ⟨c, hlast, answered_in_order hlast keeps_apple⟩

end Client

end Grocr.Firestore.Remote
