import Mathlib.Data.List.Forall2
import Mathlib.Tactic.Common
import Grocr.Proofs.Completions
import Grocr.Proofs.Convergence
import Grocr.Proofs.Writes
/-!
# What the user sees while writes are pending

The queue is what is left of the user's writes once the answered ones are
taken away.  The view of a document is what is cached of it under these writes,
and an answer moves a write from the one part to the other without a change of
the view.
-/

namespace Grocr.Firestore.Remote.Client

open Grocr.Support Grocr.Support.Checked Grocr.Firestore.Model
open Grocr.Firestore.Local Grocr.Firestore.Api

def writesOf (es : List Event) : List (List Mutation) :=
  es.filterMap fun e =>
    match e with
    | .writeMutations mutations _ => some mutations
    | _ => none

theorem length_writesOf (es : List Event) :
    (writesOf es).length = es.countP Event.isWrite := by
  induction es with
  | nil => rfl
  | cons e es ih =>
      cases e with
      | writeMutations mutations localWriteTime =>
          rw [List.countP_cons_of_pos rfl, ← ih]
          rfl
      | _ =>
          rw [List.countP_cons_of_neg (by simp [Event.isWrite]), ← ih]
          rfl

theorem writesOf_snoc (es : List Event) (e : Event) (h : e.isWrite = false) :
    writesOf (es ++ [e]) = writesOf es := by
  rw [writesOf, List.filterMap_append]
  cases e with
  | writeMutations mutations localWriteTime => cases h
  | _ => exact List.append_nil _

/-- `R` relates the batches of the queue to the writes among `es` that have no
answer; each write is given by some `x`. -/
def Unanswered {α : Type} (f : α → List Mutation) (P : α → Prop)
    (R : MutationBatch → α → Prop) (es : List Event) (c : Client) : Prop :=
  ∀ xs : List α, writesOf es = xs.map f → (∀ x ∈ xs, P x) →
    List.Forall₂ R c.localStore.mutationQueue.queue
      (xs.drop c.callbacks.writeIds.length)

section

variable [DoubleArithmetic] {backend : Backend} {user : User}
  {c c' : Client} {es : List Event}

section

variable {α : Type} {f : α → List Mutation} {P : α → Prop}
  {R : MutationBatch → α → Prop}
  (hR : ∀ batch x existing, P x → batch.mutations = f x →
    batch.baseMutations = (f x).filterMap (LocalStore.baseMutation existing) →
    R batch x)

include hR

theorem Unanswered.step {e : Event} (h : Unanswered f P R es c) (hinv : c.Inv)
    (haccounted : c.Accounted user (es.countP Event.isWrite))
    (henabled : enabled backend c e) (hkeeps : e.Keeps user)
    (hstep : c.step e = .ok c') : Unanswered f P R (es ++ [e]) c' := by
  intro xs hxs hP
  rcases queue_cases hinv henabled (haccounted.keeps hkeeps) hstep with
    ⟨mutations, localWriteTime, existing, batch, rfl, -, hmutations, hbases,
      hqueue, -, hcallbacks⟩ | ⟨token, rfl, hstore, hcallbacks⟩ |
    ⟨hwrite, -, -, ⟨batch, ok, hqueue, hcallbacks⟩ | ⟨hqueue, hcallbacks⟩⟩
  · -- the new batch is for the new write
    rw [writesOf, List.filterMap_append] at hxs
    obtain ⟨before, last, rfl, hbefore, hlast⟩ :=
      List.append_eq_map_iff.mp hxs
    obtain ⟨x, rfl, hx⟩ := List.map_eq_singleton_iff.mp hlast
    obtain ⟨hPbefore, hPx⟩ := List.forall_mem_append.mp hP
    have hlength := haccounted.length_add
    rw [← length_writesOf, writesOf, ← hbefore, List.length_map] at hlength
    have hids : c'.callbacks.writeIds = c.callbacks.writeIds := by
      rw [hcallbacks]
      rfl
    rw [hqueue, hids, List.drop_append_of_le_length (by omega)]
    refine List.rel_append (h before hbefore.symm hPbefore) (.cons ?_ .nil)
    exact hR batch x existing (hPx x (by simp)) (hmutations.trans hx.symm)
      (by rw [hbases, hx])
  · rw [writesOf_snoc es _ rfl] at hxs
    have hids : c'.callbacks.writeIds = c.callbacks.writeIds := by
      rw [hcallbacks, haccounted.register_eq, Callbacks.writeIds]
      split
      next => simp [Callbacks.writeIds]
      next => rfl
    rw [hstore, hids]
    exact h xs hxs hP
  · rw [writesOf_snoc es e hwrite] at hxs
    have hold := h xs hxs hP
    have hmem : batch.batchId ∈ c.callbacks.waiting.keys := by
      rw [haccounted.waiting, pendingIds, hqueue]
      exact List.mem_cons_self
    rw [hcallbacks, writeIds_settle ok hmem, List.length_append,
      List.length_singleton, ← List.tail_drop]
    rw [hqueue] at hold
    cases hdrop : xs.drop c.callbacks.writeIds.length with
    | nil =>
        rw [hdrop] at hold
        cases hold
    | cons x rest =>
        rw [hdrop] at hold
        exact (List.forall₂_cons.mp hold).2
  · rw [writesOf_snoc es e hwrite] at hxs
    rw [hqueue, hcallbacks]
    exact h xs hxs hP

/-- The queue holds the writes that have no answer, each as it was made. -/
theorem unanswered_of_run (hrun : (machine backend).Run (.empty user) es c)
    (hkeeps : ∀ e ∈ es, e.Keeps user) : Unanswered f P R es c := by
  have hall : c.Inv ∧ c.Accounted user (es.countP Event.isWrite) ∧
      Unanswered f P R es c := by
    apply hrun.induct (Machine.Along.of_forall_mem hkeeps)
      (I := fun pre u => u.Inv ∧
        u.Accounted user (pre.countP Event.isWrite) ∧ Unanswered f P R pre u)
    · refine ⟨Inv.empty user, .empty user, fun xs hxs _ => ?_⟩
      rw [List.map_eq_nil_iff.mp hxs.symm]
      exact .nil
    · intro pre u e v ⟨hinv, haccounted, hpending⟩ hkeeps henabled hstep
      obtain ⟨v', hv', hinv', -⟩ := step_ok hinv henabled
      cases hstep.symm.trans hv'
      refine ⟨hinv', ?_,
        hpending.step hR hinv haccounted henabled hkeeps hstep⟩
      rw [List.countP_append, List.countP_singleton]
      exact haccounted.step hinv henabled hkeeps hstep
  exact hall.2.2

end

/-! ## The view -/

variable {ws : List Write}

theorem madeByAll_of_run (hrun : (machine backend).Run (.empty user) es c)
    (hkeeps : ∀ e ∈ es, e.Keeps user)
    (hws : writesOf es = ws.map Write.mutations)
    (hpredictable : ∀ w ∈ ws, w.call.Predictable) :
    MadeByAll c.localStore.mutationQueue.queue
      (ws.drop c.callbacks.writeIds.length) := by
  apply unanswered_of_run (f := Write.mutations)
    (P := fun w => w.call.Predictable) _ hrun hkeeps ws hws hpredictable
  intro batch w existing hpredictable hmutations hbases
  refine ⟨hmutations, ?_, hpredictable⟩
  rw [hbases]
  exact baseMutations_eq_nil hpredictable w.key existing

/-- A user who stays sees what is cached under the writes that have no answer,
in the order in which they were made. -/
theorem view_eq_written (hrun : (machine backend).Run (.empty user) es c)
    (hkeeps : ∀ e ∈ es, e.Keeps user)
    (hws : writesOf es = ws.map Write.mutations)
    (hpredictable : ∀ w ∈ ws, w.call.Predictable) (key : DocumentKey) :
    readData (c.view key) =
      written (ws.drop c.callbacks.writeIds.length) key
        (readData (c.cached key)) :=
  (madeByAll_of_run hrun hkeeps hws hpredictable).readData_applyBatches key _

/-- The acknowledgement of a write does not change what the user sees of a
document that is not cached at the acknowledged version already. -/
theorem view_of_mutationResult
    (hrun : (machine backend).Run (.empty user) es c)
    (hkeeps : ∀ e ∈ es, e.Keeps user)
    (hws : writesOf es = ws.map Write.mutations)
    (hpredictable : ∀ w ∈ ws, w.call.Predictable)
    {commitVersion : SnapshotVersion} {mutationResults : List MutationResult}
    (henabled : enabled backend c (.mutationResult commitVersion mutationResults))
    (hstep : c.step (.mutationResult commitVersion mutationResults) = .ok c')
    {key : DocumentKey} (hnews : ∀ doc ∈ c.cached key,
      ∀ result ∈ mutationResults, doc.version < result.version) :
    readData (c'.view key) = readData (c.view key) := by
  have hinv := inv_of_run hrun
  have hmade := madeByAll_of_run hrun hkeeps hws hpredictable
  obtain ⟨d, hd, -, heffect⟩ := step_ok hinv henabled
  cases hstep.symm.trans hd
  obtain ⟨r, rest, changes, hqueue, hhead, -, rfl, hack, -⟩ := heffect
  obtain ⟨-, -, -, mutations, hhead', hanswers, -⟩ := henabled
  cases hhead.symm.trans hhead'
  obtain ⟨changes', s', hack', hrest, -, hother, hacked, -⟩ :=
    LocalStore.acknowledgeBatch_ok hinv.store hqueue hanswers
  cases hack.symm.trans hack'
  rw [view, LocalStore.view, hrest, view, LocalStore.view, hqueue]
  rw [hqueue] at hmade
  generalize ws.drop c.callbacks.writeIds.length = pending at hmade
  cases hmade with
  | @cons _ w _ later hbatch hlater =>
      rw [MadeByAll.readData_applyBatches hlater,
        MadeByAll.readData_applyBatches (.cons hbatch hlater)]
      by_cases hkey : key = w.key
      · have hcached : readData (c'.cached key) =
            w.call.apply (readData (c.cached key)) := by
          have hmem : key ∈ r.batch.keys := hbatch.mem_keys_iff.mpr hkey
          obtain ⟨m, result, hlast, ⟨doc, hdoc, hle, -⟩ |
            ⟨-, new, hnew, happly, -⟩⟩ := hacked key hmem
          · have hin := List.mem_of_getLast? hlast
            have hzip := List.of_mem_zip (List.mem_filter.mp hin).1
            exact absurd hle (not_le.mpr (hnews doc hdoc result hzip.2))
          · rw [cached, hnew]
            rw [hkey] at happly ⊢
            exact hbatch.readData_applyToRemoteDocument hanswers happly
        rw [written_cons, if_pos hkey]
        exact congrArg (written later key) hcached
      · have hmem : key ∉ r.batch.keys := fun h =>
          hkey (hbatch.mem_keys_iff.mp h)
        rw [hother key hmem, written_cons, if_neg hkey]

end

def appleCalls : List Write :=
  [⟨appleKey, .setData ⟨appleData, none, []⟩⟩,
    ⟨appleKey, .updateData ⟨[], [], [redTag]⟩⟩]

theorem appleCalls_predictable : ∀ w ∈ appleCalls, w.call.Predictable := by
  refine List.forall_mem_cons.mpr ⟨rfl, List.forall_mem_singleton.mpr
    ⟨fun t ht => ?_, fun t ht path hpath => nomatch hpath⟩⟩
  rw [List.mem_singleton.mp ht]
  trivial

theorem view_eq_written_apple : ∃ c,
    (machine appleBackend).Run (.empty appleUser)
        (appleTagged ++ [appleAnswer]) c ∧
      readData (c.cached appleKey) = some appleData ∧
      readData (c.view appleKey) =
        some (appleData ++ [("tags", .array [.string "red"])]) := by
  obtain ⟨a, c, -, -, hrun, henabled, hstep, -, -, -, -, -, -, hcache,
    hcompletions, -⟩ := exists_apple_run
  have hlast := hrun.snoc (e := appleAnswer) henabled hstep
  have hcached : readData (c.cached appleKey) = some appleData := by
    rw [cached, hcache, RemoteDocumentCache.get_insert, if_pos rfl]
    rfl
  have hanswered : c.callbacks.writeIds = [1] := by
    rw [Callbacks.writeIds, hcompletions]
    rfl
  refine ⟨c, hlast, hcached, ?_⟩
  rw [view_eq_written hlast keeps_apple rfl appleCalls_predictable, hanswered,
    hcached]
  decide

theorem view_of_mutationResult_apple : ∃ c c' : Client,
    (machine appleBackend).Run (.empty appleUser) appleTagged c ∧
      c.step appleAnswer = .ok c' ∧
      readData (c'.view appleKey) = readData (c.view appleKey) := by
  obtain ⟨c, c', -, -, hrun, henabled, hstep, -, -, -, hcache, -⟩ :=
    exists_apple_run
  have hnews : ∀ doc ∈ c.cached appleKey,
      ∀ result ∈ [(⟨5, none⟩ : MutationResult)],
        doc.version < result.version := by
    rw [cached, hcache]
    intro doc hdoc
    cases hdoc
  have hkeeps := (List.forall_mem_append.mp keeps_apple).1
  exact ⟨c, c', hrun, hstep, view_of_mutationResult hrun hkeeps rfl
    appleCalls_predictable henabled hstep hnews⟩

end Grocr.Firestore.Remote.Client
