import Mathlib.Tactic.Common
import Grocr.Proofs.WritePipeline
/-!
# What the cache knows of the backend

Answers and watch updates reach the client in any order.  What they leave in
the cache is something that the backend had, a document never goes back to an
older version, and once the backend has settled and the client has been told,
the client has the backend's document, whatever arrives afterwards.
-/

namespace Grocr.Firestore.Remote.Client

open Grocr.Support Grocr.Support.Checked Grocr.Firestore.Model
open Grocr.Firestore.Local

def cached (c : Client) (key : DocumentKey) : Option MaybeDocument :=
  c.localStore.remoteDocumentCache.get key

def view [DoubleArithmetic] (c : Client) (key : DocumentKey) :
    Option MaybeDocument :=
  c.localStore.view key

/-- An event that takes the document out of the cache: the client has lost its
access to it, or nothing refers to it any more. -/
def Removes (c : Client) (key : DocumentKey) : Event → Prop
  | .remoteEvent event =>
      ∃ doc, event.documentUpdates.find? key = some doc ∧
        LocalStore.isManufactured doc = true
  | .garbageCollection orphaned referenced =>
      key ∈ orphaned ∧ key ∉ referenced ∧
        c.localStore.mutationQueuesContainKey key = false
  | _ => False

/-- How an event changes what is cached of a document: not at all, to something
that the backend had and that is not older, or to nothing. -/
inductive Learns (h : History SnapshotVersion ObjectValue) (removes : Prop)
    (old : Option MaybeDocument) : Option MaybeDocument → Prop
  | same : Learns h removes old old
  | removed (hremoves : removes) : Learns h removes old none
  | newer (doc : MaybeDocument) (backed : h.Backs (knowledge doc))
      (later : ∀ d ∈ old, d.version < doc.version ∨
        doc.version = d.version ∧ d.hasPendingWrites = true) :
      Learns h removes old (some doc)

variable {backend : Backend}

/-- An accepted mutation leaves the document in a state that the backend
had. -/
theorem backs_of_outcome {mutations : List Mutation}
    {mutationResults : List MutationResult}
    (h : Committed backend mutations mutationResults) {key : DocumentKey}
    {m : Mutation} {result : MutationResult}
    (hlast : ((mutations.zip mutationResults).filter
      (fun e => e.1.key = key)).getLast? = some (m, result))
    {doc : MaybeDocument} (hdoc : LocalStore.IsOutcomeOf m result.version doc) :
    (backend key).Backs (knowledge doc) ∧ doc.version = result.version := by
  have hread := h key m result hlast
  cases m with
  | delete key precondition =>
      rw [LocalStore.IsOutcomeOf] at hdoc
      rw [hdoc]
      exact ⟨hread, rfl⟩
  | _ =>
      obtain ⟨data, hread⟩ := hread
      rcases hdoc with ⟨data', rfl⟩ | rfl
      · exact ⟨⟨data, hread⟩, rfl⟩
      · exact ⟨⟨data, hread⟩, rfl⟩

theorem learns_acked {r : MutationBatchResult}
    (h : Committed backend r.batch.mutations r.mutationResults)
    {key : DocumentKey} {old new : Option MaybeDocument}
    (hacked : LocalStore.Acked r key old new) {removes : Prop} :
    Learns (backend key) removes old new := by
  obtain ⟨m, result, hlast, ⟨-, -, -, rfl⟩ | ⟨hold, doc, rfl, -, houtcome⟩⟩ :=
    hacked
  · exact .same
  · obtain ⟨hbacked, hversion⟩ := backs_of_outcome h hlast houtcome
    refine .newer doc hbacked fun d hd => .inl ?_
    rw [hversion]
    exact hold d hd

theorem learns_watched {key : DocumentKey} {event : RemoteEvent}
    (h : ∀ e ∈ event.documentUpdates.entries, IsWatchUpdate backend e.1 e.2)
    (c : Client) (old : Option MaybeDocument) :
    Learns (backend key) (c.Removes key (.remoteEvent event)) old
      (LocalStore.watched old (event.documentUpdates.find? key)) := by
  unfold LocalStore.watched
  cases hfind : event.documentUpdates.find? key with
  | none => exact .same
  | some doc =>
      have hupdate := h _ (Table.find?_eq_some.mp hfind)
      by_cases hmade : LocalStore.isManufactured doc = true
      · simp only [if_pos hmade]
        exact .removed ⟨doc, hfind, hmade⟩
      · simp only [if_neg hmade]
        split
        next haccepted =>
          refine .newer doc ?_ haccepted
          have hbacked := hupdate.resolve_left hmade
          cases doc with
          | document version data documentState =>
              obtain ⟨rfl, hread⟩ := hbacked
              exact hread
          | noDocument version hasCommittedMutations => exact hbacked.2
          | unknownDocument version => exact hbacked.elim
        next => exact .same

/-- The cached document is the one that the backend has for good since `s`. -/
def UpToDate (h : History SnapshotVersion ObjectValue) (s : SnapshotVersion)
    (doc : Option MaybeDocument) : Prop :=
  match h.read s with
  | some (version, data) => doc = some (.document version data .synced)
  | none => ∃ version hasCommittedMutations,
      doc = some (.noDocument version hasCommittedMutations) ∧ s ≤ version

section

variable {h : History SnapshotVersion ObjectValue} {s version : SnapshotVersion}
  {data : ObjectValue} {doc : MaybeDocument}

theorem version_le_of_backs (hs : h.SettledFrom s)
    (hread : h.read s = some (version, data)) (hdoc : h.Backs (knowledge doc)) :
    doc.version ≤ version := by
  cases doc with
  | document v data' documentState =>
      cases documentState with
      | synced => exact History.backs_value_le hs hread hdoc
      | _ =>
          obtain ⟨data', hv⟩ := hdoc
          exact History.backs_value_le hs hread hv
  | noDocument t hasCommittedMutations =>
      exact (History.absent_lt_version hs hread hdoc).le
  | unknownDocument v =>
      obtain ⟨data', hv⟩ := hdoc
      exact History.backs_value_le hs hread hv

theorem noDocument_of_backs (hs : h.SettledFrom s) (hread : h.read s = none)
    (hle : s ≤ doc.version) (hdoc : h.Backs (knowledge doc)) :
    ∃ hasCommittedMutations,
      doc = .noDocument doc.version hasCommittedMutations := by
  cases doc with
  | document v data' documentState =>
      have hlt : v < s := by
        cases documentState with
        | synced => exact History.present_lt hs hread hdoc
        | _ =>
            obtain ⟨data', hv⟩ := hdoc
            exact History.present_lt hs hread hv
      exact absurd hlt (not_lt.mpr hle)
  | noDocument t hasCommittedMutations => exact ⟨hasCommittedMutations, rfl⟩
  | unknownDocument v =>
      obtain ⟨data', hv⟩ := hdoc
      exact absurd (History.present_lt hs hread hv) (not_lt.mpr hle)

theorem eq_of_synced (hs : h.SettledFrom s)
    (hread : h.read s = some (version, data)) (hdoc : h.Backs (knowledge doc))
    (hversion : doc.version = version) (hsynced : ¬ doc.hasPendingWrites = true) :
    doc = .document version data .synced := by
  cases doc with
  | document v data' documentState =>
      cases documentState with
      | synced =>
          cases hversion
          rw [h.value_unique hdoc hread]
          rfl
      | _ => exact absurd rfl hsynced
  | noDocument t hasCommittedMutations =>
      exact absurd (History.absent_lt_version hs hread hdoc) hversion.not_lt
  | unknownDocument v => exact absurd rfl hsynced

theorem UpToDate.readData {doc : Option MaybeDocument}
    (hdoc : UpToDate h s doc) :
    readData doc = (h.read s).map Prod.snd := by
  unfold UpToDate at hdoc
  cases hread : h.read s with
  | some e =>
      rw [hread] at hdoc
      cases hdoc
      rfl
  | none =>
      rw [hread] at hdoc
      obtain ⟨t, flag, rfl, -⟩ := hdoc
      rfl

theorem UpToDate.learns {old new : Option MaybeDocument} {removes : Prop}
    (hold : UpToDate h s old) (hs : h.SettledFrom s) (hremoves : ¬ removes)
    (hlearns : Learns h removes old new) : UpToDate h s new := by
  cases hlearns with
  | same => exact hold
  | removed hr => exact absurd hr hremoves
  | newer doc hbacked hlater =>
      unfold UpToDate at hold ⊢
      cases hread : h.read s with
      | some e =>
          rw [hread] at hold
          have hle := version_le_of_backs hs hread hbacked
          rcases hlater _ hold with hlt | ⟨-, hpending⟩
          · exact absurd hlt (not_lt.mpr hle)
          · cases hpending
      | none =>
          rw [hread] at hold
          obtain ⟨t, flag, rfl, hst⟩ := hold
          have hle : t ≤ doc.version := by
            rcases hlater _ rfl with hlt | ⟨heq, -⟩
            · exact hlt.le
            · exact heq.ge
          obtain ⟨flag', hdoc⟩ :=
            noDocument_of_backs hs hread (hst.trans hle) hbacked
          exact ⟨doc.version, flag', congrArg some hdoc, hst.trans hle⟩

theorem UpToDate.watched {old : Option MaybeDocument}
    (hold : ∀ d ∈ old, h.Backs (knowledge d)) (hs : h.SettledFrom s)
    (hdoc : UpToDate h s (some doc))
    (hreal : LocalStore.isManufactured doc = false) :
    UpToDate h s (LocalStore.watched old (some doc)) := by
  simp only [LocalStore.watched, hreal, Bool.false_eq_true, if_false]
  split
  next => exact hdoc
  next hrefused =>
    -- what is cached is not older, so it is what the backend has
    unfold LocalStore.isAccepted at hrefused
    push Not at hrefused
    obtain ⟨d, hd, hnot, hsynced⟩ := hrefused
    have hbacked := hold d hd
    rw [Option.mem_def] at hd
    rw [hd]
    unfold UpToDate at hdoc ⊢
    cases hread : h.read s with
    | some e =>
        rw [hread] at hdoc
        cases hdoc
        have hversion : d.version = e.1 :=
          le_antisymm (version_le_of_backs hs hread hbacked) hnot
        exact congrArg some
          (eq_of_synced hs hread hbacked hversion (hsynced hversion.symm))
    | none =>
        rw [hread] at hdoc
        obtain ⟨t, flag, heq, hst⟩ := hdoc
        cases heq
        obtain ⟨flag', hdoc⟩ :=
          noDocument_of_backs hs hread (hst.trans hnot) hbacked
        exact ⟨d.version, flag', congrArg some hdoc, hst.trans hnot⟩

end

section

variable [DoubleArithmetic] {c c' : Client} {e : Event}

theorem learns_step (h : c.Inv) (henabled : enabled backend c e)
    (hstep : c.step e = .ok c') (key : DocumentKey) :
    Learns (backend key) (c.Removes key e) (c.cached key) (c'.cached key) := by
  obtain ⟨d, hd, -, heffect⟩ := step_ok h henabled
  cases hstep.symm.trans hd
  have hsame {e : Event} (hcache : c'.localStore.remoteDocumentCache =
      c.localStore.remoteDocumentCache) :
      Learns (backend key) (c.Removes key e) (c.cached key)
        (c'.cached key) := by
    rw [cached, cached, hcache]
    exact .same
  cases e with
  | writeMutations mutations localWriteTime =>
      obtain ⟨result, hwrite, -⟩ := heffect
      obtain ⟨-, result', s', -, hwrite', -, -, -, -, -, hcache, -⟩ :=
        LocalStore.writeLocally_ok h.store henabled.1 localWriteTime
      cases hwrite.symm.trans hwrite'
      exact hsame hcache
  | mutationResult commitVersion mutationResults =>
      obtain ⟨r, rest, changes, hqueue, hhead, -, rfl, hack, -⟩ := heffect
      obtain ⟨-, -, -, mutations, hhead', hanswers, hcommitted⟩ := henabled
      cases hhead.symm.trans hhead'
      obtain ⟨changes', s', hack', -, -, hother, hacked, -⟩ :=
        LocalStore.acknowledgeBatch_ok h.store hqueue hanswers
      cases hack.symm.trans hack'
      by_cases hkey : key ∈ r.batch.keys
      · exact learns_acked hcommitted (hacked key hkey)
      · rw [cached, cached, hother key hkey]
        exact .same
  | streamError isPermanent =>
      rcases heffect with ⟨hstore, -⟩ |
        ⟨-, batch, rest, changes, hqueue, hreject, -⟩
      · exact hsame (by rw [hstore])
      · obtain ⟨changes', s', hreject', -, -, hcache, -⟩ :=
          LocalStore.rejectBatch_ok h.store hqueue
        cases hreject.symm.trans hreject'
        exact hsame hcache
  | credentialChange user =>
      rcases heffect with ⟨-, hstore, -⟩ | ⟨-, ⟨changes, hchange⟩, -⟩
      · exact hsame (by rw [hstore])
      · obtain ⟨changes', s', hchange', hcache, -⟩ :=
          LocalStore.handleUserChange_ok h.store c.callbacks.currentUser user
        cases hchange.symm.trans hchange'
        exact hsame hcache
  | remoteEvent event =>
      obtain ⟨changes, happly, -⟩ := heffect
      obtain ⟨changes', s', happly', -, hcache, -⟩ :=
        LocalStore.applyRemoteEvent_ok h.store henabled.1 henabled.2.1
      cases happly.symm.trans happly'
      rw [cached, cached, hcache key]
      exact learns_watched henabled.2.2 c _
  | garbageCollection orphaned referenced =>
      rw [cached, cached, heffect.1, LocalStore.get_removeOrphaned]
      split
      next hgoes => exact .removed hgoes
      next => exact .same
  | _ => exact hsame (by rw [heffect.1])

variable {es : List Event} {user : User}

theorem cache_backed (hrun : (machine backend).Run (.empty user) es c)
    {key : DocumentKey} {doc : MaybeDocument} (hdoc : c.cached key = some doc) :
    (backend key).Backs (knowledge doc) := by
  have hall : c.Inv ∧ ∀ d ∈ c.cached key, (backend key).Backs (knowledge d) := by
    apply hrun.invariant (I := fun u =>
      u.Inv ∧ ∀ d ∈ u.cached key, (backend key).Backs (knowledge d))
    · exact ⟨Inv.empty user, nofun⟩
    · intro u e v ⟨hinv, hbacked⟩ henabled hstep
      obtain ⟨v', hv', hinv', -⟩ := step_ok hinv henabled
      cases hstep.symm.trans hv'
      refine ⟨hinv', fun d hd => ?_⟩
      have hlearns := learns_step hinv henabled hstep key
      generalize v.cached key = new at hlearns hd
      cases hlearns with
      | same => exact hbacked d hd
      | removed _ => cases hd
      | newer doc hdoc _ =>
          cases hd
          exact hdoc
  exact hall.2 doc hdoc

/-- A cached document never goes back to an older version, and stays in the
cache unless an event removes it. -/
theorem cached_version_mono {fs : List Event}
    (hrun : (machine backend).Run (.empty user) es c)
    (hrest : (machine backend).Run c fs c') {key : DocumentKey}
    (hremoves : (machine backend).Along c fs fun _ u e => ¬ u.Removes key e)
    {doc : MaybeDocument} (hdoc : c.cached key = some doc) :
    ∃ doc', c'.cached key = some doc' ∧ doc.version ≤ doc'.version := by
  have hall : c'.Inv ∧
      ∃ doc', c'.cached key = some doc' ∧ doc.version ≤ doc'.version := by
    apply hrest.induct hremoves
      (I := fun _ u => u.Inv ∧
        ∃ doc', u.cached key = some doc' ∧ doc.version ≤ doc'.version)
    · exact ⟨inv_of_run hrun, doc, hdoc, le_rfl⟩
    · intro _ u e v ⟨hinv, doc', hdoc', hle⟩ hremoves henabled hstep
      obtain ⟨v', hv', hinv', -⟩ := step_ok hinv henabled
      cases hstep.symm.trans hv'
      refine ⟨hinv', ?_⟩
      have hlearns := learns_step hinv henabled hstep key
      generalize v.cached key = new at hlearns
      cases hlearns with
      | same => exact ⟨doc', hdoc', hle⟩
      | removed hr => exact absurd hr hremoves
      | newer newDoc _ hlater =>
          refine ⟨newDoc, rfl, hle.trans ?_⟩
          rcases hlater doc' hdoc' with hlt | ⟨heq, -⟩
          · exact hlt.le
          · exact heq.ge
  exact hall.2

/-- Once the backend has settled and a watch update has told the client, the
client has the backend's document, whatever else is under way. -/
theorem converges {pre post : List Event} {event : RemoteEvent} {u : Client}
    (htold : (machine backend).Run (.empty user) (pre ++ [.remoteEvent event])
      u)
    (hrest : (machine backend).Run u post c) {key : DocumentKey}
    {s : SnapshotVersion} (hs : (backend key).SettledFrom s)
    {doc : MaybeDocument} (hfind : event.documentUpdates.find? key = some doc)
    (hreal : LocalStore.isManufactured doc = false)
    (hdoc : UpToDate (backend key) s (some doc))
    (hremoves : (machine backend).Along u post
      fun _ t e => ¬ t.Removes key e) :
    UpToDate (backend key) s (c.cached key) := by
  obtain ⟨t, hpre, henabled, hstep⟩ := htold.split_last
  have hinv := inv_of_run hpre
  have henabled' : enabled backend t (.remoteEvent event) := henabled
  obtain ⟨u', hu', hinv', heffect⟩ := step_ok hinv henabled'
  cases hstep.symm.trans hu'
  have hu : UpToDate (backend key) s (u.cached key) := by
    obtain ⟨changes, happly, -⟩ := heffect
    obtain ⟨changes', s', happly', -, hcache, -⟩ :=
      LocalStore.applyRemoteEvent_ok hinv.store henabled'.1 henabled'.2.1
    cases happly.symm.trans happly'
    rw [cached, hcache key, hfind]
    exact .watched (fun d hd => cache_backed hpre hd) hs hdoc hreal
  have hall : c.Inv ∧ UpToDate (backend key) s (c.cached key) := by
    apply hrest.induct hremoves
      (I := fun _ u => u.Inv ∧ UpToDate (backend key) s (u.cached key))
    · exact ⟨hinv', hu⟩
    · intro _ u e w ⟨hinv, hup⟩ hremoves henabled hstep
      obtain ⟨w', hw', hinv', -⟩ := step_ok hinv henabled
      cases hstep.symm.trans hw'
      exact ⟨hinv', hup.learns hs hremoves
        (learns_step hinv henabled hstep key)⟩
  exact hall.2

theorem view_of_idle (h : c.Inv) {key : DocumentKey}
    (hidle : ∀ b ∈ c.localStore.mutationQueue.queue, key ∉ b.keys) :
    c.view key = c.cached key := by
  have hnone : c.localStore.mutationQueue.queue.filter
      (fun b => decide (key ∈ b.keys)) = [] := by
    refine List.filter_eq_nil_iff.mpr fun b hb => ?_
    simpa using hidle b hb
  have hview := LocalStore.applyBatches_filter h.store.bases
    (p := fun b => decide (key ∈ b.keys)) (fun b _ hkey => by simpa using hkey)
    (c.cached key)
  rw [hnone] at hview
  exact hview.symm

/-- The client ends up with the backend's document, and a user whose writes are
through sees it. -/
theorem view_converges {pre post : List Event} {event : RemoteEvent}
    {u : Client}
    (htold : (machine backend).Run (.empty user) (pre ++ [.remoteEvent event])
      u)
    (hrest : (machine backend).Run u post c) {key : DocumentKey}
    {s : SnapshotVersion} (hs : (backend key).SettledFrom s)
    {doc : MaybeDocument} (hfind : event.documentUpdates.find? key = some doc)
    (hreal : LocalStore.isManufactured doc = false)
    (hdoc : UpToDate (backend key) s (some doc))
    (hremoves : (machine backend).Along u post
      fun _ t e => ¬ t.Removes key e) :
    UpToDate (backend key) s (c.cached key) ∧
      ((∀ b ∈ c.localStore.mutationQueue.queue, key ∉ b.keys) →
        readData (c.view key) = ((backend key).read s).map Prod.snd) := by
  have hcached := converges htold hrest hs hfind hreal hdoc hremoves
  refine ⟨hcached, fun hidle => ?_⟩
  rw [view_of_idle (inv_of_run (htold.append hrest)) hidle]
  exact hcached.readData

end

theorem cached_version_mono_apple : ∃ c c',
    (machine appleBackend).Run (.empty appleUser)
        (appleTagged ++ [appleAnswer]) c ∧
      (machine appleBackend).Run c [.garbageCollection [appleKey] []] c' ∧
      ∃ doc, c'.cached appleKey = some doc ∧ 5 ≤ doc.version := by
  obtain ⟨a, c, -, -, hrun, hanswer, hstep, -, -, -, -, -, hpending, hcache, -⟩ :=
    exists_apple_run
  have hlast := hrun.snoc (e := appleAnswer) hanswer hstep
  obtain ⟨c', hc', -⟩ := garbageCollection_ok (inv_of_run hlast) [appleKey] []
  have hrest : (machine appleBackend).Run c
      [.garbageCollection [appleKey] []] c' := .cons trivial hc' (.nil c')
  have hremoves : (machine appleBackend).Along c
      [.garbageCollection [appleKey] []]
      fun _ u e => ¬ u.Removes appleKey e :=
    .singleton fun hremoves =>
      absurd (hpending.symm.trans hremoves.2.2) (by decide)
  have hdoc : c.cached appleKey =
      some (.document 5 appleData .committedMutations) := by
    rw [cached, hcache, RemoteDocumentCache.get_insert, if_pos rfl]
  exact ⟨c, c', hlast, hrest, cached_version_mono hlast hrest hremoves hdoc⟩

theorem view_converges_apple : ∃ c,
    (machine appleBackend).Run (.empty appleUser)
        (appleTagged ++ [appleAnswer, appleUpdate, .streamError true]) c ∧
      c.cached appleKey = some (.document 5 appleData .synced) ∧
      readData (c.view appleKey) = some appleData := by
  obtain ⟨a, b, c, d, hrun, hanswer, hstep, hupdate, hstep', hrest, -, -, -, -,
    -, hqueue⟩ := exists_apple_run
  have htold : (machine appleBackend).Run (.empty appleUser)
      ((appleTagged ++ [appleAnswer]) ++ [appleUpdate]) c :=
    (hrun.snoc (e := appleAnswer) hanswer hstep).snoc hupdate hstep'
  have hsettled : (appleBackend appleKey).SettledFrom 5 := fun t ht => by
    simp only [appleBackend, History.createdAt, ht, le_refl, if_true]
  have hfind : (Table.empty.insert appleKey
      (MaybeDocument.document 5 appleData .synced)).find? appleKey =
        some (.document 5 appleData .synced) := Table.find?_insert_self _ _ _
  have hremoves : (machine appleBackend).Along c [.streamError true]
      fun _ u e => ¬ u.Removes appleKey e := .singleton id
  obtain ⟨hcached, hview⟩ :=
    view_converges htold hrest hsettled hfind rfl rfl hremoves
  refine ⟨d, ?_, hcached, hview ?_⟩
  · have hall := htold.append hrest
    rwa [List.append_assoc, List.append_assoc] at hall
  · rw [hqueue]
    exact nofun

end Grocr.Firestore.Remote.Client
