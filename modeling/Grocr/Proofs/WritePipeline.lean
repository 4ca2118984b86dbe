import Mathlib.Tactic.Common
import Grocr.Firestore.SyncEngine
import Grocr.Proofs.LocalStore
/-!
# The write pipeline

While the network is enabled the pipeline holds the oldest batches of the
queue, as many as fit, and what is on the wire without an answer is the
pipeline.  So an answer is always about the batch it is taken for, and in a
client that runs against the backend no assertion fails.
-/

namespace Grocr.Firestore.Remote

open Grocr.Support Grocr.Support.Checked Grocr.Firestore.Model
open Grocr.Firestore.Local

/-! ## The stream against the pipeline -/

namespace WriteStream

def isReady (w : WriteStream) : Bool := w.isOpen && w.handshakeComplete

structure Serves (w : WriteStream) (pipeline : List MutationBatch) : Prop where
  /-- What is on the wire is the pipeline. -/
  wire : w.isReady = true → w.unanswered = pipeline.map MutationBatch.mutations
  /-- A stream is only brought up for writes. -/
  waiting : w.isStarted = true → w.isReady = false → pipeline ≠ []
  idle : w.idlenessTimer = true → pipeline = [] ∧ w.isReady = true
  quiet : w.isReady = false → w.unanswered = []

variable {w w' : WriteStream} {pipeline : List MutationBatch}

theorem isStarted_of_isOpen (h : w.isOpen = true) : w.isStarted = true := by
  simp [isStarted, h]

theorem isOpen_of_isReady (h : w.isReady = true) : w.isOpen = true :=
  (Bool.and_eq_true _ _ ▸ h).1

theorem Serves.of_not_started (hstarted : w.isStarted = false)
    (hidle : w.idlenessTimer = false) (hquiet : w.unanswered = []) :
    w.Serves pipeline where
  wire hready := by
    rw [isStarted_of_isOpen (isOpen_of_isReady hready)] at hstarted
    cases hstarted
  waiting h := by
    rw [hstarted] at h
    cases h
  idle h := by
    rw [hidle] at h
    cases h
  quiet _ := hquiet

theorem Serves.quiet_of_stopped (h : w.Serves pipeline)
    (hhandshake : w.handshakeComplete = true → w.isOpen = true)
    (hstopped : w.isStarted = false) :
    w.idlenessTimer = false ∧ w.unanswered = [] ∧
      w.handshakeComplete = false := by
  have hopen : w.isOpen = false := by
    by_contra hopen
    rw [isStarted_of_isOpen (by simpa using hopen)] at hstopped
    cases hstopped
  have hready : w.isReady = false := by rw [isReady, hopen, Bool.false_and]
  refine ⟨?_, h.quiet hready, ?_⟩
  · by_contra htimer
    obtain ⟨-, hready'⟩ := h.idle (by simpa using htimer)
    exact absurd (hready.symm.trans hready') (by decide)
  · by_contra hcomplete
    exact absurd (hopen.symm.trans (hhandshake (by simpa using hcomplete)))
      (by decide)

theorem Serves.forgetHandshake (h : w.Serves pipeline)
    (hopen : w.isOpen = false) :
    WriteStream.Serves { w with handshakeComplete := false } pipeline where
  wire hready := by simp [isReady] at hready
  waiting hstarted _ := h.waiting hstarted (by simp [isReady, hopen])
  idle hidle := by
    obtain ⟨-, hready⟩ := h.idle hidle
    rw [isOpen_of_isReady hready] at hopen
    cases hopen
  quiet _ := h.quiet (by simp [isReady, hopen])

theorem writeMutations_ok (hready : w.isReady = true)
    (mutations : List Mutation) :
    w.writeMutations mutations =
      .ok { w with
        idlenessTimer := false
        unanswered := w.unanswered ++ [mutations] } := by
  obtain ⟨hopen, hhandshake⟩ := Bool.and_eq_true _ _ ▸ hready
  simp only [writeMutations, write, hopen, hhandshake, if_true, ok_bind, pure,
    Except.pure]

theorem start_ok (h : w.isStarted = false) :
    ∃ w', w.start = .ok w' ∧ w'.isStarted = true ∧ w'.isOpen = false ∧
      w'.handshakeComplete = w.handshakeComplete ∧
      w'.idlenessTimer = w.idlenessTimer ∧ w'.unanswered = w.unanswered := by
  unfold start
  cases hstate : w.state with
  | initial =>
      exact ⟨{ w with state := .starting }, rfl, rfl, rfl, rfl, rfl, rfl⟩
  | error =>
      exact ⟨{ w with state := .backoff }, rfl, rfl, rfl, rfl, rfl, rfl⟩
  | starting => simp [isStarted, hstate] at h
  | opened => simp [isStarted, isOpen, hstate] at h
  | backoff => simp [isStarted, hstate] at h

end WriteStream

namespace Client

variable {c c' : Client}

/-! ## Filling the pipeline -/

/-- The batches that the pipeline should hold. -/
def window (c : Client) : List MutationBatch :=
  c.localStore.mutationQueue.queue.take kMaxPendingWrites

theorem next_eq_getElem? (h : c.localStore.mutationQueue.WF) {k : Nat}
    (hpipeline : c.writePipeline = c.localStore.mutationQueue.queue.take k)
    (hk : k ≤ c.localStore.mutationQueue.queue.length) :
    c.localStore.mutationQueue.nextMutationBatchAfterBatchId
        c.lastBatchIdRetrieved =
      c.localStore.mutationQueue.queue[k]? := by
  unfold lastBatchIdRetrieved
  rw [hpipeline]
  generalize c.localStore.mutationQueue = q at h hk
  unfold MemoryMutationQueue.nextMutationBatchAfterBatchId
  by_cases hne : q.queue = []
  · simp [hne]
  rw [h.indexOfBatchId_eq hne]
  cases k with
  | zero =>
      have hpos := h.positive
      have hlength := List.length_pos_iff.mpr hne
      have hzero : (kBatchIdUnknown + 1 -
          (q.nextBatchId - (q.queue.length : Int))).toNat = 0 := by
        unfold kBatchIdUnknown
        omega
      simp only [List.take_zero, List.getLast?_nil]
      rw [hzero]
  | succ k =>
      have hlast : (q.queue.take (k + 1)).getLast? = some q.queue[k] := by
        rw [List.getLast?_eq_getElem?, List.length_take, Nat.min_eq_left hk,
          Nat.add_sub_cancel, List.getElem?_take_of_lt (Nat.lt_succ_self k),
          List.getElem?_eq_getElem hk]
      have hid := h.ids k _ (List.getElem?_eq_getElem hk)
      rw [hlast]
      simp only
      congr 1
      omega

/-- What filling the pipeline up to `window` with the batches `extra` does to
the stream. -/
structure Sent (w : WriteStream) (extra window : List MutationBatch)
    (w' : WriteStream) : Prop where
  state : w'.state = w.state
  handshake : w'.handshakeComplete = w.handshakeComplete
  unanswered : w.isReady = true →
    w'.unanswered = w.unanswered ++ extra.map MutationBatch.mutations
  quiet : w.isReady = false → w'.unanswered = w.unanswered
  idle : w'.idlenessTimer = true →
    w.idlenessTimer = true ∧ (extra = [] ∨ w.isReady = false) ∨
      window = [] ∧ w.isOpen = true

namespace Sent

variable {w w' : WriteStream} {extra window : List MutationBatch}

theorem nothing (w : WriteStream) (window : List MutationBatch) :
    Sent w [] window w where
  state := rfl
  handshake := rfl
  unanswered _ := by simp
  quiet _ := rfl
  idle hidle := .inl ⟨hidle, .inl rfl⟩

theorem markIdle (w : WriteStream) : Sent w [] [] w.markIdle := by
  by_cases hopen : w.isOpen = true
  · rw [WriteStream.markIdle, if_pos hopen]
    exact ⟨rfl, rfl, fun _ => by simp, fun _ => rfl, fun _ => .inr ⟨rfl, hopen⟩⟩
  · rw [WriteStream.markIdle, if_neg hopen]
    exact nothing w []

theorem isOpen_eq (h : Sent w extra window w') : w'.isOpen = w.isOpen := by
  simp [WriteStream.isOpen, h.state]

theorem isReady_eq (h : Sent w extra window w') : w'.isReady = w.isReady := by
  simp [WriteStream.isReady, h.isOpen_eq, h.handshake]

theorem isStarted_eq (h : Sent w extra window w') :
    w'.isStarted = w.isStarted := by
  simp [WriteStream.isStarted, h.isOpen_eq, h.state]

theorem cons {w'' : WriteStream} {batch : MutationBatch}
    (hfirst : Sent w [batch] window w') (hrest : Sent w' extra window w'') :
    Sent w (batch :: extra) window w'' where
  state := hrest.state.trans hfirst.state
  handshake := hrest.handshake.trans hfirst.handshake
  unanswered hready := by
    rw [hrest.unanswered (hfirst.isReady_eq.trans hready),
      hfirst.unanswered hready, List.append_assoc]
    rfl
  quiet hready := by
    rw [hrest.quiet (hfirst.isReady_eq.trans hready), hfirst.quiet hready]
  idle hidle := by
    rcases hrest.idle hidle with ⟨hidle', -⟩ | ⟨hnil, hopen⟩
    · rcases hfirst.idle hidle' with ⟨hidle, hnot⟩ | hnil
      · exact .inl ⟨hidle, .inr (hnot.resolve_left (by simp))⟩
      · exact .inr hnil
    · exact .inr ⟨hnil, hfirst.isOpen_eq ▸ hopen⟩

/-- The stream serves the window if it served what was there before. -/
theorem serves (h : Sent w extra window w') {pipeline : List MutationBatch}
    (hserves : w.Serves pipeline) (hwindow : window = pipeline ++ extra) :
    w'.Serves window where
  wire hready := by
    have hready' : w.isReady = true := h.isReady_eq ▸ hready
    rw [h.unanswered hready', hserves.wire hready', hwindow, List.map_append]
  waiting hstarted hready := by
    have hne := hserves.waiting (h.isStarted_eq ▸ hstarted)
      (h.isReady_eq ▸ hready)
    rw [hwindow]
    exact List.append_ne_nil_of_left_ne_nil hne extra
  idle hidle := by
    rw [h.isReady_eq]
    rcases h.idle hidle with ⟨hbefore, hextra⟩ | ⟨hnil, hopen⟩
    · obtain ⟨hnil, hready⟩ := hserves.idle hbefore
      rcases hextra with hextra | hnot
      · exact ⟨by rw [hwindow, hnil, hextra]; rfl, hready⟩
      · rw [hready] at hnot
        cases hnot
    · refine ⟨hnil, ?_⟩
      by_contra hnot
      have hne := hserves.waiting (WriteStream.isStarted_of_isOpen hopen)
        (by simpa using hnot)
      rw [hnil] at hwindow
      exact hne (List.append_eq_nil_iff.mp hwindow.symm).1
  quiet hready := by
    have hready' : w.isReady = false := h.isReady_eq ▸ hready
    rw [h.quiet hready', hserves.quiet hready']

end Sent

theorem addToWritePipeline_ok (c : Client) (batch : MutationBatch) :
    ∃ w, c.addToWritePipeline batch =
        .ok { c with
          writePipeline := c.writePipeline ++ [batch], writeStream := w } ∧
      ∀ window, Sent c.writeStream [batch] window w := by
  unfold addToWritePipeline
  by_cases hready : c.writeStream.isReady = true
  · have hboth : (c.writeStream.isOpen &&
        c.writeStream.handshakeComplete) = true := hready
    simp only [hboth, if_true, WriteStream.writeMutations_ok hready, ok_bind]
    refine ⟨_, rfl, fun window => ⟨rfl, rfl, fun _ => rfl, ?_, ?_⟩⟩
    · exact fun hnot => absurd (hready.symm.trans hnot) (by decide)
    · exact fun hidle => nomatch hidle
  · have hnot : c.writeStream.isReady = false := by simpa using hready
    have hboth : (c.writeStream.isOpen &&
        c.writeStream.handshakeComplete) = false := hnot
    simp only [hboth, Bool.false_eq_true, if_false]
    exact ⟨c.writeStream, rfl, fun window =>
      ⟨rfl, rfl, fun hready' => absurd hready' hready, fun _ => rfl,
        fun hidle => .inl ⟨hidle, .inr hnot⟩⟩⟩

theorem filled {k : Nat}
    (hpipeline : c.writePipeline = c.localStore.mutationQueue.queue.take k)
    (hwindow : c.window = c.writePipeline) {w : WriteStream}
    (hw : Sent c.writeStream [] c.window w) :
    ∃ w', (Except.ok { c with writeStream := w } : Except HardAssert Client) =
        .ok { c with writePipeline := c.window, writeStream := w' } ∧
      Sent c.writeStream (c.window.drop k) c.window w' := by
  have hdrop : c.window.drop k = [] := by
    rw [hwindow, hpipeline, List.drop_eq_nil_iff, List.length_take]
    exact Nat.min_le_left _ _
  exact ⟨w, by rw [hwindow], hdrop ▸ hw⟩

theorem canAddToWritePipeline_iff (hnetwork : c.isNetworkEnabled = true) :
    c.canAddToWritePipeline = true ↔
      c.writePipeline.length < kMaxPendingWrites := by
  simp [canAddToWritePipeline, hnetwork]

theorem window_eq_of_end {k : Nat}
    (hpipeline : c.writePipeline = c.localStore.mutationQueue.queue.take k)
    (hroom : k ≤ kMaxPendingWrites)
    (hend : c.localStore.mutationQueue.queue[k]? = none) :
    c.window = c.writePipeline := by
  have hall := List.getElem?_eq_none_iff.mp hend
  rw [hpipeline, window, List.take_of_length_le hall,
    List.take_of_length_le (by omega)]

theorem drop_window {k : Nat} {batch : MutationBatch}
    (hroom : k < kMaxPendingWrites)
    (hget : c.localStore.mutationQueue.queue[k]? = some batch) :
    c.window.drop k = batch :: c.window.drop (k + 1) := by
  have hwindow : c.window[k]? = some batch := by
    rw [window, List.getElem?_take_of_lt hroom, hget]
  obtain ⟨hlt, hget'⟩ := List.getElem?_eq_some_iff.mp hwindow
  rw [List.drop_eq_getElem_cons hlt, hget']

theorem fillSlots_ok (h : c.localStore.mutationQueue.WF)
    (hnetwork : c.isNetworkEnabled = true) {k : Nat} (slots : Nat)
    (hpipeline : c.writePipeline = c.localStore.mutationQueue.queue.take k)
    (hk : k ≤ c.localStore.mutationQueue.queue.length)
    (hslots : kMaxPendingWrites ≤ k + slots) (hroom : k ≤ kMaxPendingWrites) :
    ∃ w, fillSlots slots c.lastBatchIdRetrieved c =
        .ok { c with writePipeline := c.window, writeStream := w } ∧
      Sent c.writeStream (c.window.drop k) c.window w := by
  induction slots generalizing c k with
  | zero =>
      have hfull : k = kMaxPendingWrites := by omega
      exact filled hpipeline (by rw [hpipeline, hfull]; rfl) (.nothing _ _)
  | succ slots ih =>
      have hlength : c.writePipeline.length = k := by
        rw [hpipeline, List.length_take]
        omega
      have hcan := canAddToWritePipeline_iff hnetwork
      rw [hlength] at hcan
      rw [fillSlots, next_eq_getElem? h hpipeline hk]
      by_cases hfull : k = kMaxPendingWrites
      · rw [if_neg (hcan.not.mpr (by omega))]
        exact filled hpipeline (by rw [hpipeline, hfull]; rfl) (.nothing _ _)
      have hlt : k < kMaxPendingWrites := by omega
      rw [if_pos (hcan.mpr hlt)]
      cases hget : c.localStore.mutationQueue.queue[k]? with
      | none =>
          have hwindow := window_eq_of_end hpipeline hroom hget
          simp only
          split
          next hempty =>
            have hnil : c.window = [] := by simpa [hwindow] using hempty
            exact filled hpipeline hwindow
              (hnil ▸ Sent.markIdle c.writeStream)
          next => exact filled hpipeline hwindow (.nothing _ _)
      | some batch =>
          have hlt' := (List.getElem?_eq_some_iff.mp hget).1
          obtain ⟨w, hw, hsent⟩ := addToWritePipeline_ok c batch
          let added : Client :=
            { c with
              writePipeline := c.writePipeline ++ [batch], writeStream := w }
          have hadded : added.writePipeline =
              added.localStore.mutationQueue.queue.take (k + 1) := by
            simp only [added, hpipeline, List.take_add_one, hget]
            rfl
          have hlast : added.lastBatchIdRetrieved = batch.batchId := by
            simp [added, lastBatchIdRetrieved]
          obtain ⟨w', hw', hsent'⟩ := ih (c := added) (k := k + 1) h hnetwork
            hadded hlt' (by omega) hlt
          refine ⟨w', ?_, ?_⟩
          · simp only [hw, ok_bind]
            rw [← hlast]
            exact hw'
          · rw [drop_window hlt hget]
            exact (hsent c.window).cons hsent'

theorem startIfNeeded_ok (hserves : c.writeStream.Serves c.writePipeline) :
    ∃ w, c.startIfNeeded = .ok { c with writeStream := w } ∧
      w.Serves c.writePipeline ∧
      (c.isNetworkEnabled = true → c.writePipeline ≠ [] →
        w.isStarted = true) ∧
      w.handshakeComplete = c.writeStream.handshakeComplete ∧
      w.isOpen = c.writeStream.isOpen ∧
      (c.isNetworkEnabled = false → w = c.writeStream) := by
  unfold startIfNeeded
  by_cases hshould : c.shouldStartWriteStream = true
  · have hparts := hshould
    simp only [shouldStartWriteStream, Bool.and_eq_true, Bool.not_eq_true',
      List.isEmpty_eq_false_iff] at hparts
    obtain ⟨⟨hnetwork, hstopped⟩, hne⟩ := hparts
    obtain ⟨w, hw, hstarted, hopen, hhandshake, htimer, hunanswered⟩ :=
      WriteStream.start_ok hstopped
    have hnotopen : c.writeStream.isOpen = false := by
      by_contra h
      rw [WriteStream.isStarted_of_isOpen (by simpa using h)] at hstopped
      cases hstopped
    rw [if_pos hshould, hw, ok_bind]
    refine ⟨w, rfl, ⟨?_, ?_, ?_, ?_⟩, fun _ _ => hstarted, hhandshake,
      hopen.trans hnotopen.symm, ?_⟩
    · intro hready
      rw [WriteStream.isOpen_of_isReady hready] at hopen
      cases hopen
    · exact fun _ _ => hne
    · intro hidle
      obtain ⟨hnil, -⟩ := hserves.idle (htimer ▸ hidle)
      exact absurd hnil hne
    · intro _
      rw [hunanswered]
      exact hserves.quiet (by simp [WriteStream.isReady, hnotopen])
    · intro hoff
      rw [hoff] at hnetwork
      cases hnetwork
  · rw [if_neg hshould]
    refine ⟨c.writeStream, rfl, hserves, fun hnetwork hne => ?_, rfl, rfl,
      fun _ => rfl⟩
    by_contra hstopped
    apply hshould
    simpa [shouldStartWriteStream, hnetwork, hne] using hstopped

/-- Filling the pipeline puts the oldest batches into it and brings the stream
up for them. -/
theorem fillWritePipeline_ok (h : c.localStore.mutationQueue.WF)
    (hnetwork : c.isNetworkEnabled = true) {k : Nat}
    (hpipeline : c.writePipeline = c.localStore.mutationQueue.queue.take k)
    (hroom : k ≤ kMaxPendingWrites)
    (hserves : c.writeStream.Serves c.writePipeline) :
    ∃ w, c.fillWritePipeline =
        .ok { c with writePipeline := c.window, writeStream := w } ∧
      w.Serves c.window ∧ (c.window ≠ [] → w.isStarted = true) ∧
      w.handshakeComplete = c.writeStream.handshakeComplete ∧
      w.isOpen = c.writeStream.isOpen := by
  have hmin : c.writePipeline = c.localStore.mutationQueue.queue.take
      (min k c.localStore.mutationQueue.queue.length) := by
    rw [hpipeline, List.take_eq_take_min]
  obtain ⟨w, hw, hsent⟩ := fillSlots_ok h hnetwork kMaxPendingWrites
    hmin (Nat.min_le_right _ _) (by omega) (by omega)
  have hwindow : c.window = c.writePipeline ++ c.window.drop
      (min k c.localStore.mutationQueue.queue.length) := by
    have htake : c.writePipeline = c.window.take
        (min k c.localStore.mutationQueue.queue.length) := by
      rw [hmin, window, List.take_take]
      congr 1
      omega
    rw [htake, List.take_append_drop]
  have hserves' := hsent.serves hserves hwindow
  obtain ⟨w', hw', hserves'', hstarted, hhandshake, hopen, -⟩ :=
    startIfNeeded_ok
      (c := { c with writePipeline := c.window, writeStream := w }) hserves'
  refine ⟨w', ?_, hserves'', hstarted hnetwork, hhandshake.trans hsent.handshake,
    hopen.trans hsent.isOpen_eq⟩
  rw [fillWritePipeline, hw, ok_bind, hw']

theorem fillWritePipeline_of_disabled (hnetwork : c.isNetworkEnabled = false) :
    c.fillWritePipeline = .ok c := by
  have hslots (last : Int) : fillSlots kMaxPendingWrites last c = .ok c := by
    rw [kMaxPendingWrites, fillSlots, canAddToWritePipeline, hnetwork]
    rfl
  rw [fillWritePipeline, hslots, ok_bind, startIfNeeded,
    shouldStartWriteStream, hnetwork]
  rfl

/-! ## The invariant -/

/-- What holds of a client, the memory of the last handshake aside. -/
structure Running (c : Client) : Prop where
  store : c.localStore.WF
  pipeline : c.writePipeline = if c.isNetworkEnabled then c.window else []
  serves : c.writeStream.Serves c.writePipeline
  started : c.writePipeline ≠ [] → c.writeStream.isStarted = true
  stopped : c.isNetworkEnabled = false → c.writeStream.isStarted = false

structure Inv (c : Client) : Prop extends Running c where
  handshake : c.writeStream.handshakeComplete = true →
    c.writeStream.isOpen = true

theorem Inv.empty (user : User) : (Client.empty user).Inv where
  store := .empty
  pipeline := rfl
  serves := .of_not_started rfl rfl rfl
  started hne := absurd rfl hne
  stopped _ := rfl
  handshake h := nomatch h

theorem Inv.network_of_started (h : c.Inv)
    (hstarted : c.writeStream.isStarted = true) : c.isNetworkEnabled = true := by
  by_contra hoff
  rw [h.stopped (by simpa using hoff)] at hstarted
  cases hstarted

/-- A client whose pipeline is some first part of the queue fills it up. -/
theorem refill (hstore : c.localStore.WF)
    (hpipeline : c.isNetworkEnabled = true → ∃ k ≤ kMaxPendingWrites,
      c.writePipeline = c.localStore.mutationQueue.queue.take k)
    (hoff : c.isNetworkEnabled = false →
      c.writePipeline = [] ∧ c.writeStream.isStarted = false)
    (hserves : c.writeStream.Serves c.writePipeline) :
    ∃ pipeline w, c.fillWritePipeline =
        .ok { c with writePipeline := pipeline, writeStream := w } ∧
      Running { c with writePipeline := pipeline, writeStream := w } ∧
      w.handshakeComplete = c.writeStream.handshakeComplete ∧
      w.isOpen = c.writeStream.isOpen := by
  by_cases hnetwork : c.isNetworkEnabled = true
  · obtain ⟨k, hk, htake⟩ := hpipeline hnetwork
    obtain ⟨w, hw, hserves', hstarted, hhandshake, hopen⟩ :=
      fillWritePipeline_ok hstore.queue hnetwork htake hk hserves
    refine ⟨c.window, w, hw, ⟨hstore, ?_, hserves', hstarted, ?_⟩, hhandshake,
      hopen⟩
    · rw [if_pos hnetwork]
      rfl
    · intro hdisabled
      rw [hnetwork] at hdisabled
      cases hdisabled
  · have hdisabled : c.isNetworkEnabled = false := by simpa using hnetwork
    obtain ⟨hnil, hstopped⟩ := hoff hdisabled
    refine ⟨c.writePipeline, c.writeStream,
      fillWritePipeline_of_disabled hdisabled, ?_, rfl, rfl⟩
    refine ⟨hstore, ?_, hserves, fun hne => absurd hnil hne, fun _ => hstopped⟩
    rw [hnil, if_neg hnetwork]

theorem Inv.refill (hstore : c.localStore.WF)
    (hpipeline : c.isNetworkEnabled = true → ∃ k ≤ kMaxPendingWrites,
      c.writePipeline = c.localStore.mutationQueue.queue.take k)
    (hoff : c.isNetworkEnabled = false →
      c.writePipeline = [] ∧ c.writeStream.isStarted = false)
    (hserves : c.writeStream.Serves c.writePipeline)
    (hhandshake : c.writeStream.handshakeComplete = true →
      c.writeStream.isOpen = true) :
    ∃ c', c.fillWritePipeline = .ok c' ∧ c'.Inv ∧
      c'.localStore = c.localStore ∧ c'.callbacks = c.callbacks := by
  obtain ⟨pipeline, w, hw, hrunning, hflag, hopen⟩ :=
    Client.refill hstore hpipeline hoff hserves
  refine ⟨_, hw, ⟨hrunning, ?_⟩, rfl, rfl⟩
  intro h
  exact hopen.trans (hhandshake (hflag.symm.trans h))

theorem Inv.pipeline_take (h : c.Inv) :
    ∃ k ≤ kMaxPendingWrites,
      c.writePipeline = c.localStore.mutationQueue.queue.take k ∧
      k ≤ c.localStore.mutationQueue.queue.length := by
  rw [h.pipeline]
  split
  next =>
    refine ⟨min kMaxPendingWrites c.localStore.mutationQueue.queue.length,
      Nat.min_le_left _ _, ?_, Nat.min_le_right _ _⟩
    rw [window, List.take_eq_take_min]
  next => exact ⟨0, Nat.zero_le _, rfl, Nat.zero_le _⟩

theorem Inv.queue_of_pipeline (h : c.Inv) {batch : MutationBatch}
    {rest : List MutationBatch} (hpipeline : c.writePipeline = batch :: rest) :
    ∃ later, c.localStore.mutationQueue.queue = batch :: later ∧
      ∃ k ≤ kMaxPendingWrites, rest = later.take k := by
  obtain ⟨k, hk, htake, -⟩ := h.pipeline_take
  rw [hpipeline] at htake
  cases k with
  | zero => cases htake
  | succ k =>
      cases hqueue : c.localStore.mutationQueue.queue with
      | nil =>
          rw [hqueue] at htake
          cases htake
      | cons head later =>
          rw [hqueue, List.take_succ_cons] at htake
          obtain ⟨rfl, hrest⟩ := List.cons.inj htake
          exact ⟨later, rfl, k, by omega, hrest⟩

theorem restart_ok (hstore : c.localStore.WF)
    (hpipeline : c.writePipeline = if c.isNetworkEnabled then c.window else [])
    (hserves : c.writeStream.Serves c.writePipeline)
    (hopen : c.writeStream.isOpen = false)
    (hoff : c.isNetworkEnabled = false → c.writeStream.isStarted = false) :
    ∃ c' w, c.startIfNeeded = .ok { c with writeStream := w } ∧
      c' = { c with writeStream := { w with handshakeComplete := false } } ∧
      c'.Inv := by
  obtain ⟨w, hw, hserves', hstarted, -, hopen', hsame⟩ :=
    startIfNeeded_ok hserves
  refine ⟨_, w, hw, rfl, ⟨⟨hstore, hpipeline, ?_, ?_, ?_⟩, ?_⟩⟩
  · exact hserves'.forgetHandshake (hopen'.trans hopen)
  · intro hne
    apply hstarted _ hne
    by_contra hnetwork
    rw [hpipeline, if_neg hnetwork] at hne
    exact hne rfl
  · intro hdisabled
    have hstopped := hoff hdisabled
    rw [← hsame hdisabled] at hstopped
    exact hstopped
  · exact fun h => nomatch h

theorem Inv.of_stopped (hstore : c.localStore.WF)
    (hpipeline : c.writePipeline = []) (hwindow : c.isNetworkEnabled = true →
      c.window = [])
    (hstopped : c.writeStream.isStarted = false)
    (hidle : c.writeStream.idlenessTimer = false)
    (hquiet : c.writeStream.unanswered = [])
    (hhandshake : c.writeStream.handshakeComplete = false) : c.Inv where
  store := hstore
  pipeline := by
    split
    next hnetwork => rw [hpipeline, hwindow hnetwork]
    next => exact hpipeline
  serves := .of_not_started hstopped hidle hquiet
  started hne := absurd hpipeline hne
  stopped _ := hstopped
  handshake h := absurd (hhandshake.symm.trans h) (by decide)

theorem enableNetwork_ok (h : c.Inv) :
    ∃ c', c.enableNetwork = .ok c' ∧ c'.Inv ∧
      c'.localStore = c.localStore ∧ c'.callbacks = c.callbacks := by
  obtain ⟨k, hk, htake, -⟩ := h.pipeline_take
  exact Inv.refill (c := { c with isNetworkEnabled := true }) h.store
    (fun _ => ⟨k, hk, htake⟩) (fun hoff => nomatch hoff) h.serves h.handshake

theorem sendAll_ok {w : WriteStream} (hready : w.isReady = true)
    (hidle : w.idlenessTimer = false) (batches : List MutationBatch) :
    batches.foldlM
        (fun w batch => WriteStream.writeMutations w batch.mutations) w =
      .ok { w with
        unanswered := w.unanswered ++ batches.map MutationBatch.mutations } := by
  induction batches generalizing w with
  | nil =>
      rw [List.foldlM_nil, List.map_nil, List.append_nil]
      rfl
  | cons batch batches ih =>
      let sent : WriteStream :=
        { w with
          idlenessTimer := false
          unanswered := w.unanswered ++ [batch.mutations] }
      have hrest := ih (w := sent) hready rfl
      rw [List.foldlM_cons, WriteStream.writeMutations_ok hready, ok_bind,
        hrest, List.map_cons, hidle, List.append_assoc]
      rfl

section

variable [DoubleArithmetic]

/-! ## What the events do -/

def settle (cbs : Callbacks) (batchId : Int) (ok : Bool) : Callbacks :=
  (cbs.notifyUser batchId ok).triggerPendingWriteCallbacks batchId

/-- What an event does to the store and to the callbacks. -/
def Effect (c : Client) (e : Event) (c' : Client) : Prop :=
  match e with
  | .writeMutations mutations localWriteTime =>
      ∃ result, c.localStore.writeLocally mutations localWriteTime =
          .ok (result, c'.localStore) ∧
        c'.callbacks = c.callbacks.addMutationCallback result.batchId
  | .waitForPendingWrites token =>
      c'.localStore = c.localStore ∧
        c'.callbacks = (c.registerPendingWritesCallback token).callbacks
  | .mutationResult commitVersion mutationResults =>
      ∃ r rest changes,
        c.localStore.mutationQueue.queue = r.batch :: rest ∧
        c.writeStream.unanswered.head? = some r.batch.mutations ∧
        r.commitVersion = commitVersion ∧
        r.mutationResults = mutationResults ∧
        c.localStore.acknowledgeBatch r = .ok (changes, c'.localStore) ∧
        c'.callbacks = settle c.callbacks r.batch.batchId true
  | .streamError isPermanent =>
      (c'.localStore = c.localStore ∧ c'.callbacks = c.callbacks) ∨
        isPermanent = true ∧ ∃ batch rest changes,
          c.localStore.mutationQueue.queue = batch :: rest ∧
          c.localStore.rejectBatch batch.batchId =
            .ok (changes, c'.localStore) ∧
          c'.callbacks = settle c.callbacks batch.batchId false
  | .credentialChange user =>
      (user = c.callbacks.currentUser ∧
          c'.localStore = c.localStore ∧ c'.callbacks = c.callbacks) ∨
        user ≠ c.callbacks.currentUser ∧
          (∃ changes, c.localStore.handleUserChange c.callbacks.currentUser
            user = .ok (changes, c'.localStore)) ∧
          c'.callbacks =
            { c.callbacks.failOutstandingPendingWriteCallbacks with
              currentUser := user }
  | .remoteEvent event =>
      ∃ changes, c.localStore.applyRemoteEvent event =
          .ok (changes, c'.localStore) ∧
        c'.callbacks = c.callbacks
  | .garbageCollection orphaned referenced =>
      c'.localStore = c.localStore.removeOrphaned orphaned referenced ∧
        c'.callbacks = c.callbacks
  | _ => c'.localStore = c.localStore ∧ c'.callbacks = c.callbacks

theorem writeMutations_ok (h : c.Inv) {mutations : List Mutation}
    (hne : mutations ≠ []) (localWriteTime : Timestamp) :
    ∃ c', c.writeMutations mutations localWriteTime = .ok c' ∧ c'.Inv ∧
      Effect c (.writeMutations mutations localWriteTime) c' := by
  obtain ⟨existing, result, s', -, hwrite, batch, -, -, hqueue, -, -, -, hwf⟩ :=
    LocalStore.writeLocally_ok h.store hne localWriteTime
  obtain ⟨k, hk, htake, hlength⟩ := h.pipeline_take
  have htake' : c.writePipeline = s'.mutationQueue.queue.take k := by
    rw [htake, hqueue, List.take_append_of_le_length hlength]
  let written : Client :=
    { c with
      localStore := s'
      callbacks := c.callbacks.addMutationCallback result.batchId }
  have hoff : c.isNetworkEnabled = false →
      c.writePipeline = [] ∧ c.writeStream.isStarted = false := by
    intro hoff
    refine ⟨?_, h.stopped hoff⟩
    rw [h.pipeline, hoff]
    rfl
  obtain ⟨c', hc', hinv, hstore, hcallbacks⟩ := Inv.refill (c := written) hwf
    (fun _ => ⟨k, hk, htake'⟩) hoff h.serves h.handshake
  refine ⟨c', ?_, hinv, result, ?_, hcallbacks⟩
  · rw [writeMutations, hwrite, ok_bind]
    exact hc'
  · rw [hwrite, hstore]

/-- An answer on the wire is taken for the batch that it answers. -/
theorem mutationResult_ok (h : c.Inv) {commitVersion : SnapshotVersion}
    {mutationResults : List MutationResult} {mutations : List Mutation}
    (hready : c.writeStream.isReady = true)
    (hhead : c.writeStream.unanswered.head? = some mutations)
    (hanswers : List.Forall₂ IsAnswerTo mutations mutationResults) :
    ∃ c', c.step (.mutationResult commitVersion mutationResults) = .ok c' ∧
      c'.Inv ∧ Effect c (.mutationResult commitVersion mutationResults) c' := by
  have hwire := h.serves.wire hready
  cases hpipeline : c.writePipeline with
  | nil =>
      rw [hwire, hpipeline] at hhead
      cases hhead
  | cons batch rest =>
      have hmutations : batch.mutations = mutations := by
        rw [hwire, hpipeline] at hhead
        exact Option.some.inj hhead
      obtain ⟨later, hqueue, k, hk, hrest⟩ := h.queue_of_pipeline hpipeline
      have hlength : batch.mutations.length = mutationResults.length := by
        rw [hmutations]
        exact hanswers.length_eq
      let r : MutationBatchResult :=
        ⟨batch, commitVersion, mutationResults, hlength⟩
      obtain ⟨changes, s', hack, hqueue', -, -, -, -, hwf⟩ :=
        LocalStore.acknowledgeBatch_ok (r := r) h.store hqueue
          (hmutations ▸ hanswers)
      have hidle : c.writeStream.idlenessTimer = false := by
        by_contra htimer
        obtain ⟨hnil, -⟩ := h.serves.idle (by simpa using htimer)
        rw [hpipeline] at hnil
        cases hnil
      have hserves : WriteStream.Serves
          { c.writeStream with unanswered := c.writeStream.unanswered.tail }
          rest := by
        refine ⟨fun _ => ?_, fun _ hnot => ?_, fun htimer => ?_, fun hnot => ?_⟩
        · simp only [hwire, hpipeline, List.map_cons, List.tail_cons]
        · exact absurd (hready.symm.trans hnot) (by decide)
        · exact absurd (hidle.symm.trans htimer) (by decide)
        · exact absurd (hready.symm.trans hnot) (by decide)
      have hnetwork := h.network_of_started
        (WriteStream.isStarted_of_isOpen
          (WriteStream.isOpen_of_isReady hready))
      let answered : Client :=
        { c with
          localStore := s'
          writePipeline := rest
          writeStream :=
            { c.writeStream with unanswered := c.writeStream.unanswered.tail }
          callbacks := settle c.callbacks batch.batchId true }
      obtain ⟨c', hc', hinv, hstore, hcallbacks⟩ := Inv.refill (c := answered)
        hwf (fun _ => ⟨k, hk, by rw [hqueue']; exact hrest⟩)
        (fun hoff => absurd (hnetwork.symm.trans hoff) (by decide)) hserves
        h.handshake
      refine ⟨c', ?_, hinv, r, later, changes, hqueue, ?_, rfl, rfl, ?_,
        hcallbacks⟩
      · simp only [step, onWriteStreamMutationResult, hpipeline, dif_pos hlength,
          handleSuccessfulWrite, r] at hack ⊢
        rw [hack]
        exact hc'
      · rw [hhead, ← hmutations]
      · rw [hack, hstore]

/-! ### The stream goes up and down -/

theorem stop_ok
    (hneeded : c.isNetworkEnabled = false ∨ c.writePipeline = [])
    (hserves : c.writeStream.Serves c.writePipeline)
    (hhandshake : c.writeStream.handshakeComplete = true →
      c.writeStream.isOpen = true) :
    ∃ w, c.closeWriteStream .ok = .ok { c with writeStream := w } ∧
      w.isStarted = false ∧ w.idlenessTimer = false ∧ w.unanswered = [] ∧
      w.handshakeComplete = false := by
  by_cases hstarted : c.writeStream.isStarted = true
  · have hshould (w : WriteStream) :
        shouldStartWriteStream { c with writeStream := w } = false := by
      rcases hneeded with hoff | hnil
      · simp [shouldStartWriteStream, hoff]
      · simp [shouldStartWriteStream, hnil]
    refine ⟨⟨.initial, false, false, []⟩, ?_, rfl, rfl, rfl, rfl⟩
    simp only [closeWriteStream, hstarted, if_true, onWriteStreamClose,
      startIfNeeded, hshould, Bool.false_eq_true, if_false, pure,
      Except.pure, ok_bind]
  · have hstopped : c.writeStream.isStarted = false := by simpa using hstarted
    refine ⟨c.writeStream, ?_, hstopped,
      hserves.quiet_of_stopped hhandshake hstopped⟩
    rw [closeWriteStream, if_neg hstarted]
    rfl

theorem idleTimeout_ok (h : c.Inv)
    (htimer : c.writeStream.idlenessTimer = true) :
    ∃ c', c.step .idleTimeout = .ok c' ∧ c'.Inv ∧ Effect c .idleTimeout c' := by
  obtain ⟨hnil, hready⟩ := h.serves.idle htimer
  obtain ⟨w, hw, hnot, hidle, hquiet, hhandshake⟩ :=
    stop_ok (.inr hnil) h.serves h.handshake
  refine ⟨_, hw, .of_stopped h.store hnil ?_ hnot hidle hquiet hhandshake, rfl,
    rfl⟩
  intro hnetwork
  have hpipeline := h.pipeline
  rw [if_pos hnetwork, hnil] at hpipeline
  exact hpipeline.symm

theorem disableNetwork_ok (hstore : c.localStore.WF)
    (hserves : c.writeStream.Serves c.writePipeline)
    (hhandshake : c.writeStream.handshakeComplete = true →
      c.writeStream.isOpen = true) :
    ∃ c', c.disableNetwork = .ok c' ∧ c'.Inv ∧ c'.isNetworkEnabled = false ∧
      c'.localStore = c.localStore ∧ c'.callbacks = c.callbacks := by
  obtain ⟨w, hw, hnot, hidle, hquiet, hforgotten⟩ :=
    stop_ok (c := { c with isNetworkEnabled := false }) (.inl rfl) hserves
      hhandshake
  let disabled : Client :=
    { c with isNetworkEnabled := false, writeStream := w, writePipeline := [] }
  refine ⟨disabled, ?_,
    .of_stopped hstore rfl ?_ hnot hidle hquiet hforgotten, rfl, rfl, rfl⟩
  · rw [disableNetwork, hw, ok_bind]
    rfl
  · exact fun hnetwork => nomatch hnetwork

theorem restartNetwork_ok (hstore : c.localStore.WF)
    (hserves : c.writeStream.Serves c.writePipeline)
    (hhandshake : c.writeStream.handshakeComplete = true →
      c.writeStream.isOpen = true) :
    ∃ c', c.restartNetwork = .ok c' ∧ c'.Inv ∧
      c'.localStore = c.localStore ∧ c'.callbacks = c.callbacks := by
  obtain ⟨d, hd, hinv, hoff, hstore', hcallbacks⟩ :=
    disableNetwork_ok hstore hserves hhandshake
  have hstopped := hinv.stopped hoff
  obtain ⟨hidle, hquiet, hforgotten⟩ :=
    hinv.serves.quiet_of_stopped hinv.handshake hstopped
  have hpipeline : d.writePipeline = [] := by
    rw [hinv.pipeline, hoff]
    rfl
  have hinv' : Inv { d with
      writeStream := { d.writeStream with state := .initial } } :=
    .of_stopped hinv.store hpipeline
      (fun hnetwork => absurd (hoff.symm.trans hnetwork) (by decide)) rfl
      hidle hquiet hforgotten
  obtain ⟨c', hc', hinv'', hsame, hsame'⟩ := enableNetwork_ok hinv'
  refine ⟨c', ?_, hinv'', hsame.trans hstore', hsame'.trans hcallbacks⟩
  rw [restartNetwork, hd, ok_bind, WriteStream.inhibitBackoff, hstopped]
  exact hc'

theorem changeUser_ok (h : c.Inv) (user : User) :
    ∃ d : Client, c.changeUser user = .ok d ∧ d.localStore.WF ∧
      d.isNetworkEnabled = c.isNetworkEnabled ∧
      d.writePipeline = c.writePipeline ∧ d.writeStream = c.writeStream ∧
      Effect c (.credentialChange user) d := by
  unfold changeUser
  by_cases huser : c.callbacks.currentUser = user
  · rw [if_pos huser]
    exact ⟨c, rfl, h.store, rfl, rfl, rfl, .inl ⟨huser.symm, rfl, rfl⟩⟩
  · obtain ⟨changes, s', hchange, -, hwf⟩ :=
      LocalStore.handleUserChange_ok h.store c.callbacks.currentUser user
    rw [if_neg huser, hchange, ok_bind]
    exact ⟨_, rfl, hwf, rfl, rfl, rfl,
      .inr ⟨Ne.symm huser, ⟨changes, hchange⟩, rfl⟩⟩

theorem credentialChange_ok (h : c.Inv) (user : User) :
    ∃ c', c.handleCredentialChange user = .ok c' ∧ c'.Inv ∧
      Effect c (.credentialChange user) c' := by
  obtain ⟨d, hd, hwf, hnetwork, hpipeline, hstream, heffect⟩ :=
    changeUser_ok h user
  rw [handleCredentialChange, hd, ok_bind]
  have hserves := h.serves
  have hhandshake := h.handshake
  rw [← hpipeline, ← hstream] at hserves
  rw [← hstream] at hhandshake
  by_cases hon : d.isNetworkEnabled = true
  · obtain ⟨c', hc', hinv, hstore, hcallbacks⟩ :=
      restartNetwork_ok hwf hserves hhandshake
    refine ⟨c', by rw [if_pos hon, hc'], hinv, ?_⟩
    rw [Effect, hstore, hcallbacks]
    exact heffect
  · have hoff : d.isNetworkEnabled = false := by simpa using hon
    have hnil : d.writePipeline = [] := by
      rw [hpipeline, h.pipeline, ← hnetwork, hoff]
      rfl
    have hstopped : d.writeStream.isStarted = false := by
      rw [hstream]
      exact h.stopped (hnetwork ▸ hoff)
    obtain ⟨hidle, hquiet, hforgotten⟩ :=
      hserves.quiet_of_stopped hhandshake hstopped
    rw [if_neg hon]
    exact ⟨d, rfl, .of_stopped hwf hnil (fun hon' => absurd hon' hon) hstopped
      hidle hquiet hforgotten, heffect⟩

theorem garbageCollection_ok (h : c.Inv)
    (orphaned referenced : List DocumentKey) :
    ∃ c', c.step (.garbageCollection orphaned referenced) = .ok c' ∧ c'.Inv ∧
      Effect c (.garbageCollection orphaned referenced) c' :=
  ⟨_, rfl, ⟨⟨⟨h.store.toQueueWF, h.store.others⟩, h.pipeline, h.serves,
    h.started, h.stopped⟩, h.handshake⟩, rfl, rfl⟩

theorem handshake_ok (h : c.Inv) (hopen : c.writeStream.isOpen = true)
    (hcomplete : c.writeStream.handshakeComplete = false) :
    ∃ c', c.step .handshake = .ok c' ∧ c'.Inv ∧ Effect c .handshake c' := by
  have hready : c.writeStream.isReady = false := by
    rw [WriteStream.isReady, hopen, hcomplete]
    rfl
  have hquiet := h.serves.quiet hready
  have hidle : c.writeStream.idlenessTimer = false := by
    by_contra htimer
    obtain ⟨-, hready'⟩ := h.serves.idle (by simpa using htimer)
    exact absurd (hready.symm.trans hready') (by decide)
  have hne := h.serves.waiting (WriteStream.isStarted_of_isOpen hopen) hready
  let w : WriteStream := { c.writeStream with handshakeComplete := true }
  have hready' : w.isReady = true := by
    simp only [w, WriteStream.isReady, Bool.and_true]
    exact hopen
  have hsend := sendAll_ok (w := w) hready' hidle c.writePipeline
  let w' : WriteStream :=
    { w with unanswered := w.unanswered ++
        c.writePipeline.map MutationBatch.mutations }
  have hserves : w'.Serves c.writePipeline := by
    refine ⟨fun _ => ?_, fun _ _ => hne, fun htimer => ?_, fun hnot => ?_⟩
    · simp only [w', w, hquiet, List.nil_append]
    · exact absurd (hidle.symm.trans htimer) (by decide)
    · exact absurd (hready'.symm.trans hnot) (by decide)
  refine ⟨{ c with writeStream := w' }, ?_,
    ⟨⟨h.store, h.pipeline, hserves, fun _ => ?_, h.stopped⟩, fun _ => hopen⟩,
    rfl, rfl⟩
  · rw [step, onHandshakeComplete, hsend, ok_bind]
    rfl
  · exact WriteStream.isStarted_of_isOpen hopen

theorem streamStart_ok (h : c.Inv) (hstate : c.writeStream.state = .starting) :
    ∃ c', c.step .streamStart = .ok c' ∧ c'.Inv ∧ Effect c .streamStart c' := by
  have hopen : c.writeStream.isOpen = false := by
    rw [WriteStream.isOpen, hstate]
    rfl
  have hstarted : c.writeStream.isStarted = true := by
    rw [WriteStream.isStarted, hstate]
    rfl
  have hcomplete : c.writeStream.handshakeComplete = false := by
    by_contra hcomplete
    have hopen' := h.handshake (by simpa using hcomplete)
    exact absurd (hopen.symm.trans hopen') (by decide)
  have hready : c.writeStream.isReady = false := by
    rw [WriteStream.isReady, hcomplete, Bool.and_false]
  have hnetwork := h.network_of_started hstarted
  have hserves : WriteStream.Serves
      { c.writeStream with state := .opened, idlenessTimer := false }
      c.writePipeline := by
    refine ⟨fun hready' => ?_, fun _ _ => h.serves.waiting hstarted hready,
      (fun htimer => nomatch htimer), fun _ => h.serves.quiet hready⟩
    simp [WriteStream.isReady, hcomplete] at hready'
  refine ⟨{ c with
      writeStream :=
        { c.writeStream with state := .opened, idlenessTimer := false } }, ?_,
    ⟨⟨h.store, h.pipeline, hserves, fun _ => rfl, fun hoff => ?_⟩,
      fun _ => rfl⟩, rfl, rfl⟩
  · simp only [step, WriteStream.writeHandshake, hcomplete, Bool.false_eq_true,
      if_false]
    rfl
  · exact absurd (hnetwork.symm.trans hoff) (by decide)

theorem backoffElapsed_ok (h : c.Inv)
    (hstate : c.writeStream.state = .backoff) :
    ∃ c', c.step .backoffElapsed = .ok c' ∧ c'.Inv ∧
      Effect c .backoffElapsed c' := by
  have hopen : c.writeStream.isOpen = false := by
    rw [WriteStream.isOpen, hstate]
    rfl
  have hready : c.writeStream.isReady = false := by
    rw [WriteStream.isReady, hopen, Bool.false_and]
  have hstarted : c.writeStream.isStarted = true := by
    rw [WriteStream.isStarted, hstate]
    rfl
  have hserves : WriteStream.Serves { c.writeStream with state := .starting }
      c.writePipeline := by
    refine ⟨(fun hready' => nomatch hready'),
      fun _ _ => h.serves.waiting hstarted hready, fun htimer => ?_,
      fun _ => h.serves.quiet hready⟩
    obtain ⟨-, hready'⟩ := h.serves.idle htimer
    exact absurd (hready.symm.trans hready') (by decide)
  refine ⟨{ c with writeStream := { c.writeStream with state := .starting } },
    rfl, ⟨⟨h.store, h.pipeline, hserves, fun _ => rfl, fun hoff => ?_⟩,
      fun hcomplete => ?_⟩, rfl, rfl⟩
  · exact absurd (hstarted.symm.trans (h.stopped hoff)) (by decide)
  · exact absurd (hopen.symm.trans (h.handshake hcomplete)) (by decide)

theorem remoteEvent_ok (h : c.Inv) {event : RemoteEvent}
    (hzero : event.snapshotVersion = 0 →
      ∀ e ∈ event.documentUpdates.entries,
        LocalStore.isManufactured e.2 = true)
    (hlast : event.snapshotVersion ≠ 0 →
      c.localStore.lastRemoteSnapshotVersion ≤ event.snapshotVersion) :
    ∃ c', c.step (.remoteEvent event) = .ok c' ∧ c'.Inv ∧
      Effect c (.remoteEvent event) c' := by
  obtain ⟨changes, s', happlied, hqueue, -, -, hwf⟩ :=
    LocalStore.applyRemoteEvent_ok h.store hzero hlast
  have hwindow : window { c with localStore := s' } = c.window := by
    rw [window, window, hqueue]
  refine ⟨{ c with localStore := s' }, ?_,
    ⟨⟨hwf, ?_, h.serves, h.started, h.stopped⟩, h.handshake⟩, changes, happlied,
    rfl⟩
  · rw [step, happlied, ok_bind]
    rfl
  · rw [hwindow]
    exact h.pipeline

theorem waitForPendingWrites_ok (h : c.Inv) (token : Nat) :
    ∃ c', c.step (.waitForPendingWrites token) = .ok c' ∧ c'.Inv ∧
      Effect c (.waitForPendingWrites token) c' := by
  refine ⟨_, rfl, ?_, ?_⟩
  · unfold registerPendingWritesCallback
    simp only
    split
    next => exact ⟨⟨h.store, h.pipeline, h.serves, h.started, h.stopped⟩,
      h.handshake⟩
    next => exact ⟨⟨h.store, h.pipeline, h.serves, h.started, h.stopped⟩,
      h.handshake⟩
  · refine ⟨?_, rfl⟩
    unfold registerPendingWritesCallback
    simp only
    split <;> rfl

theorem handleWriteError_ok (hstore : c.localStore.WF)
    {batch : MutationBatch} {rest later : List MutationBatch}
    (hpipeline : c.writePipeline = batch :: rest)
    (hqueue : c.localStore.mutationQueue.queue = batch :: later) {k : Nat}
    (hk : k ≤ kMaxPendingWrites) (hrest : rest = later.take k)
    (hnetwork : c.isNetworkEnabled = true)
    (hstate : c.writeStream.state = .error)
    (hidle : c.writeStream.idlenessTimer = false)
    (hquiet : c.writeStream.unanswered = []) :
    ∃ c' changes, c.handleWriteError true = .ok c' ∧ c'.Running ∧
      c'.writeStream.isOpen = false ∧
      c.localStore.rejectBatch batch.batchId = .ok (changes, c'.localStore) ∧
      c'.callbacks = settle c.callbacks batch.batchId false := by
  obtain ⟨changes, s', hreject, hqueue', -, -, -, hwf⟩ :=
    LocalStore.rejectBatch_ok hstore hqueue
  let w : WriteStream := { c.writeStream with state := .initial }
  have hinhibit : c.writeStream.inhibitBackoff = .ok w := by
    rw [WriteStream.inhibitBackoff, WriteStream.isStarted, WriteStream.isOpen,
      hstate]
    rfl
  let rejected : Client :=
    { c with
      localStore := s'
      writePipeline := rest
      writeStream := w
      callbacks := settle c.callbacks batch.batchId false }
  have hserves : w.Serves rest := .of_not_started rfl hidle hquiet
  obtain ⟨pipeline, w', hw', hrunning, -, hopen⟩ :=
    Client.refill (c := rejected) hwf
      (fun _ => ⟨k, hk, by rw [hqueue']; exact hrest⟩)
      (fun hoff => absurd (hnetwork.symm.trans hoff) (by decide)) hserves
  refine ⟨{ rejected with writePipeline := pipeline, writeStream := w' },
    changes, ?_, hrunning, hopen, hreject, rfl⟩
  simp only [handleWriteError, if_true, hpipeline, hinhibit, ok_bind,
    handleRejectedWrite, hreject]
  exact hw'

theorem streamError_ok (h : c.Inv) (isPermanent : Bool)
    (hstate : c.writeStream.state = .starting ∨
      c.writeStream.state = .opened) :
    ∃ c', c.step (.streamError isPermanent) = .ok c' ∧ c'.Inv ∧
      Effect c (.streamError isPermanent) c' := by
  have hstarted : c.writeStream.isStarted = true := by
    rcases hstate with hstate | hstate <;>
      simp [WriteStream.isStarted, WriteStream.isOpen, hstate]
  have hnetwork := h.network_of_started hstarted
  let failed : Client :=
    { c with
      writeStream :=
        { c.writeStream with
          idlenessTimer := false, unanswered := [], state := .error } }
  have hfailed : failed.writeStream.Serves failed.writePipeline :=
    .of_not_started rfl rfl rfl
  have hhandled : ∃ d : Client,
      failed.onWriteStreamClose (.failed isPermanent) = d.startIfNeeded ∧
        d.localStore.WF ∧
        d.writePipeline = (if d.isNetworkEnabled then d.window else []) ∧
        d.writeStream.Serves d.writePipeline ∧
        d.writeStream.isOpen = false ∧
        (d.isNetworkEnabled = false → d.writeStream.isStarted = false) ∧
        Effect c (.streamError isPermanent) d := by
    by_cases hwrites : (!failed.writePipeline.isEmpty &&
        failed.writeStream.handshakeComplete && isPermanent) = true
    · simp only [Bool.and_eq_true] at hwrites
      obtain ⟨⟨hne, hcomplete⟩, rfl⟩ := hwrites
      cases hpipeline : c.writePipeline with
      | nil => simp [failed, hpipeline] at hne
      | cons batch rest =>
          obtain ⟨later, hqueue, k, hk, hrest⟩ := h.queue_of_pipeline hpipeline
          obtain ⟨d, changes, hd, hrunning, hopen, hreject, hcallbacks⟩ :=
            handleWriteError_ok (c := failed) h.store hpipeline hqueue hk hrest
              hnetwork rfl rfl rfl
          refine ⟨d, ?_, hrunning.store, hrunning.pipeline, hrunning.serves,
            hopen, hrunning.stopped,
            .inr ⟨rfl, batch, later, changes, hqueue, hreject, hcallbacks⟩⟩
          have hboth : (!failed.writePipeline.isEmpty &&
              failed.writeStream.handshakeComplete) = true := by
            rw [Bool.and_eq_true]
            exact ⟨by simp [failed, hpipeline], hcomplete⟩
          simp only [onWriteStreamClose, hboth, if_true, hd, ok_bind]
    · refine ⟨failed, ?_, h.store, h.pipeline, hfailed, rfl, fun _ => rfl,
        .inl ⟨rfl, rfl⟩⟩
      unfold onWriteStreamClose
      simp only
      split
      next hboth =>
        have htransient : isPermanent = false := by
          by_contra hpermanent
          exact hwrites (by simp [hboth, hpermanent])
        rw [htransient]
        rfl
      next => rfl
  obtain ⟨d, hd, hstore, hpipeline, hserves, hopen, hoff, heffect⟩ := hhandled
  obtain ⟨c', w, hw, rfl, hinv⟩ :=
    restart_ok hstore hpipeline hserves hopen hoff
  refine ⟨_, ?_, hinv, heffect⟩
  rw [step, closeWriteStream, if_pos hstarted]
  change (failed.onWriteStreamClose (.failed isPermanent) >>= _) = _
  rw [hd, hw]
  rfl

/-! ## Runs -/

/-- No assertion fails in a client in order, whatever happens to it. -/
theorem step_ok {backend : Backend} (h : c.Inv) {e : Event}
    (henabled : enabled backend c e) :
    ∃ c', c.step e = .ok c' ∧ c'.Inv ∧ Effect c e c' := by
  cases e with
  | writeMutations mutations localWriteTime =>
      exact writeMutations_ok h henabled.1 localWriteTime
  | waitForPendingWrites token => exact waitForPendingWrites_ok h token
  | streamStart => exact streamStart_ok h henabled
  | backoffElapsed => exact backoffElapsed_ok h henabled
  | handshake => exact handshake_ok h henabled.1 henabled.2
  | mutationResult commitVersion mutationResults =>
      obtain ⟨hopen, hcomplete, -, mutations, hhead, hanswers, -⟩ := henabled
      have hready : c.writeStream.isReady = true := by
        rw [WriteStream.isReady, hopen, hcomplete]
        rfl
      exact mutationResult_ok h hready hhead hanswers
  | streamError isPermanent => exact streamError_ok h isPermanent henabled
  | idleTimeout => exact idleTimeout_ok h henabled
  | enableNetwork => exact enableNetwork_ok h
  | disableNetwork =>
      obtain ⟨c', hc', hinv, -, hstore, hcallbacks⟩ :=
        disableNetwork_ok h.store h.serves h.handshake
      exact ⟨c', hc', hinv, hstore, hcallbacks⟩
  | credentialChange user => exact credentialChange_ok h user
  | remoteEvent event => exact remoteEvent_ok h henabled.1 henabled.2.1
  | garbageCollection orphaned referenced =>
      exact garbageCollection_ok h orphaned referenced

variable {backend : Backend} {user : User} {es : List Event}

theorem inv_of_run (hrun : (machine backend).Run (.empty user) es c) :
    c.Inv := by
  apply hrun.invariant (Inv.empty user)
  intro u e v hinv henabled hstep
  obtain ⟨v', hv', hinv', -⟩ := step_ok hinv henabled
  cases hstep.symm.trans hv'
  exact hinv'

/-- With the network on, the pipeline is the front of the queue and a stream is
under way for it; once the stream is ready, what is on the wire is the
pipeline.  With the network off there is neither. -/
theorem pipeline_of_run (hrun : (machine backend).Run (.empty user) es c) :
    c.writePipeline = (if c.isNetworkEnabled then
        c.localStore.mutationQueue.queue.take kMaxPendingWrites else []) ∧
      (c.writePipeline ≠ [] → c.writeStream.isStarted = true) ∧
      (c.isNetworkEnabled = false → c.writeStream.isStarted = false) ∧
      (c.writeStream.isReady = true → c.writeStream.unanswered =
        c.writePipeline.map MutationBatch.mutations) := by
  have hinv := inv_of_run hrun
  exact ⟨hinv.pipeline, hinv.started, hinv.stopped, hinv.serves.wire⟩

end

def appleKey : DocumentKey := ⟨["grocery", "apple"], by decide⟩

def appleData : ObjectValue := [("name", .string "apple")]

def appleBackend : Backend := fun _ => History.createdAt 5 appleData

def appleUser : User := (("uid1" : String) : WithBot String)

def appleSent : List Event :=
  [.enableNetwork, .writeMutations [.set appleKey appleData .none] 0,
    .streamStart, .handshake]

theorem exists_apple_sent : ∃ c,
    (machine appleBackend).Run (.empty appleUser) appleSent c ∧
      c.isNetworkEnabled = true ∧ c.writeStream.isReady = true ∧
      c.localStore.mutationQueue.queue.map MutationBatch.mutations =
        [[.set appleKey appleData .none]] := by
  refine ⟨_, .cons trivial rfl (.cons ⟨?_, ?_⟩ rfl (.cons rfl rfl
    (.cons ⟨rfl, rfl⟩ rfl (.nil _)))), rfl, rfl, rfl⟩
  · exact List.cons_ne_nil _ _
  · decide

theorem pipeline_of_run_apple : ∃ c,
    (machine appleBackend).Run (.empty appleUser) appleSent c ∧
      c.writeStream.isStarted = true ∧
      c.writeStream.unanswered = [[.set appleKey appleData .none]] := by
  obtain ⟨c, hrun, hnetwork, hready, hqueue⟩ := exists_apple_sent
  obtain ⟨hpipeline, hstarted, -, hwire⟩ := pipeline_of_run hrun
  have hsent : c.writePipeline.map MutationBatch.mutations =
      [[.set appleKey appleData .none]] := by
    rw [hpipeline, if_pos hnetwork, List.map_take, hqueue]
    rfl
  refine ⟨c, hrun, hstarted ?_, (hwire hready).trans hsent⟩
  intro hnil
  rw [hnil] at hsent
  cases hsent

def redTag : FieldTransform :=
  ⟨["tags"], .arrayUnion [.string "red"], List.cons_ne_nil _ _⟩

def appleTags : List Mutation :=
  [.patch appleKey [] [] (.exists true), .transform appleKey [redTag]]

def appleTagged : List Event :=
  appleSent ++ [.writeMutations appleTags 0]

def appleAnswer : Event := .mutationResult 5 [⟨5, none⟩]

def appleUpdate : Event :=
  .remoteEvent ⟨6,
    Table.empty.insert appleKey (.document 5 appleData .synced)⟩

theorem enabled_appleAnswer {c : Client} (hopen : c.writeStream.isOpen = true)
    (hcomplete : c.writeStream.handshakeComplete = true)
    (hhead : c.writeStream.unanswered.head? =
      some [.set appleKey appleData .none]) :
    enabled appleBackend c appleAnswer := by
  refine ⟨hopen, hcomplete, by decide, _, hhead, .cons rfl .nil, ?_⟩
  intro key m result hlast
  have hmem := (List.mem_filter.mp (List.mem_of_getLast? hlast)).1
  cases List.mem_singleton.mp hmem
  exact ⟨appleData, rfl⟩

theorem enabled_appleUpdate {c : Client}
    (hlast : c.localStore.lastRemoteSnapshotVersion ≤ 6) :
    enabled appleBackend c appleUpdate := by
  refine ⟨nofun, fun _ => hlast, fun e he => ?_⟩
  cases List.mem_singleton.mp he
  exact .inr ⟨rfl, rfl⟩

/-- The first write is answered while the second one is on its way; an update
comes, and the second write is rejected. -/
theorem exists_apple_run : ∃ a b c d,
    (machine appleBackend).Run (.empty appleUser) appleTagged a ∧
      enabled appleBackend a appleAnswer ∧ a.step appleAnswer = .ok b ∧
      enabled appleBackend b appleUpdate ∧ b.step appleUpdate = .ok c ∧
      (machine appleBackend).Run c [.streamError true] d ∧
      a.localStore.remoteDocumentCache = Table.empty ∧
      b.localStore.mutationQueue.queue.map MutationBatch.mutations =
        [appleTags] ∧
      b.localStore.mutationQueuesContainKey appleKey = true ∧
      b.localStore.remoteDocumentCache = Table.empty.insert appleKey
        (.document 5 appleData .committedMutations, 5) ∧
      b.callbacks.completions = [.write 1 true] ∧
      d.localStore.mutationQueue.queue = [] := by
  refine ⟨_, _, _, _, .cons trivial rfl (.cons ⟨?_, ?_⟩ rfl (.cons rfl rfl
    (.cons ⟨rfl, rfl⟩ rfl (.cons ⟨?_, ?_⟩ rfl (.nil _))))),
    enabled_appleAnswer rfl rfl rfl, rfl, enabled_appleUpdate (by decide), rfl,
    .cons (.inr rfl) rfl (.nil _), rfl, rfl, rfl, rfl, rfl, rfl⟩
  · exact List.cons_ne_nil _ _
  · decide
  · exact List.cons_ne_nil _ _
  · decide

end Client

end Grocr.Firestore.Remote
