import Mathlib.Tactic.Common
import Grocr.Proofs.PendingWrites
import Grocr.Proofs.Query
/-!
# Collections of the app in the client

The requests of the app on a collection, as the client carries them out.  The
view of the collection's documents follows the collection request by request,
and a query of the whole collection lists what `getDocuments` lists.
-/

namespace Grocr.Firestore.Api

open Grocr.Support Grocr.Support.Checked Grocr.Firestore.Model
open Grocr.Firestore.Local

/-! ## The client's form of the data -/

def ofScalar : Scalar → Model.FieldValue
  | .null => .null
  | .boolean value => .boolean value
  | .integer value => .integer value
  | .string value => .string value
  | .other value => .other value

def ofValue : Firestore.FieldValue → Model.FieldValue
  | .scalar value => ofScalar value
  | .array elements => .array (elements.map ofScalar)

def ofFields (data : Fields) : ObjectValue :=
  data.entries.map fun e => (e.1, ofValue e.2)

theorem ofScalar_injective (a b : Scalar) (h : ofScalar a = ofScalar b) :
    a = b := by
  cases a <;> cases b <;> simp_all [ofScalar]

theorem ofFields_eq (data : Fields) :
    ofFields data = (data.map ofValue).entries := rfl

theorem get_ofFields (data : Fields) (field : String) :
    (ofFields data).get [field] = (data.find? field).map ofValue := by
  rw [ObjectValue.get_cons, ofFields_eq, Entries.find?_entries,
    Table.find?_map]
  cases data.find? field <;> rfl

theorem set_ofFields (data : Fields) (field : String)
    (value : Firestore.FieldValue) :
    (ofFields data).set (ofValue value) [field] =
      ofFields (data.insert field value) := by
  rw [ofFields_eq, ofFields_eq, Table.map_insert]
  rfl

theorem union_ofScalar (elements : List Scalar)
    (previous : Option Firestore.FieldValue) :
    Model.ArrayTransform.union (elements.map ofScalar)
        (previous.map ofValue) =
      ofValue (Firestore.ArrayTransform.apply elements previous) := by
  have hcoerced : Model.ArrayTransform.coercedArray (previous.map ofValue) =
      (Firestore.ArrayTransform.coercedFieldValuesArray previous).map
        ofScalar := by
    cases previous with
    | none => rfl
    | some value =>
        cases value with
        | scalar value => cases value <;> rfl
        | array elements => rfl
  rw [Model.ArrayTransform.union, hcoerced,
    ← map_foldl_addNew ofScalar_injective]
  rfl

/-! ## Requests -/

inductive Request
  | setData (id : String) (data : Fields)
  | updateData (update : Update)
  | delete (id : String)
deriving DecidableEq

/-- The collection once the request is through; an update of a document that is
not there fails. -/
def request (c : Collection) : Request → Collection
  | .setData id data => c.setData id data
  | .updateData update => (c.updateData update).getD c
  | .delete id => c.delete id

def documentKey (path : List String) (odd : path.length % 2 = 1) (id : String) :
    DocumentKey :=
  ⟨path ++ [id], by rw [List.length_append, List.length_singleton]; omega⟩

def Request.write (path : List String) (odd : path.length % 2 = 1) :
    Request → Write
  | .setData id data =>
      ⟨documentKey path odd id, .setData ⟨ofFields data, none, []⟩⟩
  | .updateData update =>
      ⟨documentKey path odd update.documentID, .updateData ⟨[], [],
        [⟨[update.field], .arrayUnion (update.elements.map ofScalar),
          List.cons_ne_nil _ _⟩]⟩⟩
  | .delete id => ⟨documentKey path odd id, .deleteDocument⟩

theorem Request.predictable (path : List String) (odd : path.length % 2 = 1)
    (r : Request) : (r.write path odd).call.Predictable := by
  cases r with
  | setData id data => rfl
  | updateData update =>
      refine ⟨fun t ht => ?_, fun t ht => ?_⟩
      · rw [List.mem_singleton.mp ht]
        trivial
      · simp
  | delete id => trivial

variable {path : List String} {odd : path.length % 2 = 1}

theorem documentKey_inj {a b : String} :
    documentKey path odd a = documentKey path odd b ↔ a = b := by
  simp [documentKey]

theorem documentKey_lt {a b : String} :
    documentKey path odd a < documentKey path odd b ↔ a < b := by
  have happend (path : List String) : path ++ [a] < path ++ [b] ↔ a < b := by
    induction path with
    | nil => simp [List.cons_lt_cons_iff]
    | cons x path ih => simpa [List.cons_lt_cons_iff] using ih
  exact happend path

theorem isImmediateParentOf_iff (odd : path.length % 2 = 1)
    {key : DocumentKey} :
    IsImmediateParentOf path key ↔ ∃ id, key = documentKey path odd id := by
  constructor
  · rintro ⟨⟨rest, hrest⟩, hlength⟩
    have hone : rest.length = 1 := by
      rw [← hrest, List.length_append] at hlength
      omega
    obtain ⟨id, rfl⟩ := List.length_eq_one_iff.mp hone
    exact ⟨id, DocumentKey.ext hrest.symm⟩
  · rintro ⟨id, rfl⟩
    exact ⟨List.prefix_append path [id], by simp [documentKey]⟩

def Shows (path : List String) (odd : path.length % 2 = 1)
    (data : DocumentKey → Option ObjectValue) (c : Collection) : Prop :=
  ∀ id, data (documentKey path odd id) = (c.find? id).map ofFields

theorem transformed_ofFields (update : Update) (data : Fields) :
    transformed [⟨[update.field],
        .arrayUnion (update.elements.map ofScalar), List.cons_ne_nil _ _⟩]
        (ofFields data) =
      ofFields (update.applyTo data) := by
  have hunion := union_ofScalar update.elements (data.find? update.field)
  rw [← get_ofFields] at hunion
  rw [Update.applyTo, ← set_ofFields, ← hunion]
  rfl

theorem Shows.request {data : DocumentKey → Option ObjectValue}
    {c : Collection} (h : Shows path odd data c) (r : Request) :
    Shows path odd (fun key => written [r.write path odd] key (data key))
      (request c r) := by
  intro id
  change written [r.write path odd] (documentKey path odd id)
    (data (documentKey path odd id)) = _
  rw [written_cons]
  cases r with
  | setData id' fields =>
      simp only [Request.write, documentKey_inj, Api.request,
        Collection.find?_setData]
      split
      next => rfl
      next => exact h id
  | updateData update =>
      simp only [Request.write, documentKey_inj, Api.request]
      by_cases hmem : update.documentID ∈ c.keys
      · rw [Collection.updateData, if_pos hmem, Option.getD_some,
          Table.find?_modify]
        split
        next =>
          rw [h id, Option.map_map, Call.apply]
          cases c.find? id with
          | none => rfl
          | some fields => exact congrArg some (transformed_ofFields update fields)
        next => exact h id
      · rw [Collection.updateData, if_neg hmem, Option.getD_none]
        split
        next heq =>
          rw [h id, heq, Table.find?_eq_none.mpr hmem]
          rfl
        next => exact h id
  | delete id' =>
      simp only [Request.write, documentKey_inj, Api.request,
        Collection.delete, Table.find?_erase]
      split
      next => rfl
      next => exact h id

theorem Shows.requests {data : DocumentKey → Option ObjectValue}
    {c : Collection} (h : Shows path odd data c) (rs : List Request) :
    Shows path odd
      (fun key => written (rs.map (Request.write path odd)) key (data key))
      (rs.foldl Api.request c) := by
  induction rs generalizing data c with
  | nil => exact h
  | cons r rs ih => exact ih (h.request r)

/-! ## The client refines the collection -/

open Grocr.Firestore.Remote Grocr.Firestore.Remote.Client

section

variable [DoubleArithmetic] {backend : Backend} {user : User} {c : Client}
  {es : List Event} {rs : List Request}

theorem madeByAll_of_requests (hrun : (machine backend).Run (.empty user) es c)
    (hkeeps : ∀ e ∈ es, e.Keeps user)
    (hrs : writesOf es = rs.map fun r => (r.write path odd).mutations) :
    MadeByAll c.localStore.mutationQueue.queue
      ((rs.drop c.callbacks.writeIds.length).map (Request.write path odd)) := by
  have hpredictable : ∀ w ∈ rs.map (Request.write path odd),
      w.call.Predictable := by
    intro w hw
    obtain ⟨r, -, rfl⟩ := List.mem_map.mp hw
    exact r.predictable path odd
  have hws : writesOf es =
      (rs.map (Request.write path odd)).map Write.mutations := by
    rw [hrs, List.map_map]
    rfl
  rw [List.map_drop]
  exact madeByAll_of_run hrun hkeeps hws hpredictable

/-- The view of the collection's documents is the collection that the cache
holds, once the requests without an answer are through. -/
theorem view_shows (hrun : (machine backend).Run (.empty user) es c)
    (hkeeps : ∀ e ∈ es, e.Keeps user)
    (hrs : writesOf es = rs.map fun r => (r.write path odd).mutations)
    {base : Collection}
    (hbase : Shows path odd (fun key => readData (c.cached key)) base) :
    Shows path odd (fun key => readData (c.view key))
      ((rs.drop c.callbacks.writeIds.length).foldl request base) := by
  have hview (key : DocumentKey) :=
    (madeByAll_of_requests hrun hkeeps hrs).readData_applyBatches key
      (c.cached key)
  change Shows path odd (fun key => readData (LocalStore.applyBatches key
    (c.cached key) c.localStore.mutationQueue.queue)) _
  simp only [hview]
  exact hbase.requests _

omit [DoubleArithmetic] in
/-- Documents that a query of the collection found are those of the collection,
in its order. -/
theorem keys_eq_of_shows {results : MaybeDocumentMap} {shown : Collection}
    (hdocuments : ∀ key doc, results.find? key = some doc →
      Query.matches ⟨path, fun _ _ => true, odd⟩ key doc = true)
    (hfind : Shows path odd (fun key => readData (results.find? key)) shown) :
    results.keys = shown.keys.map (documentKey path odd) := by
  apply eq_of_increasing (fun k => k) results.keys_increasing
  · rw [List.pairwise_map]
    exact shown.keys_increasing.imp documentKey_lt.mpr
  · intro key
    rw [Table.mem_keys_iff_find?, List.mem_map]
    constructor
    · rintro ⟨doc, hdoc⟩
      have hmatch := hdocuments key doc hdoc
      unfold Query.matches at hmatch
      cases hvalue : doc.data? with
      | none => simp [hvalue] at hmatch
      | some data =>
          rw [hvalue, Bool.and_eq_true, decide_eq_true_eq] at hmatch
          obtain ⟨id, rfl⟩ := (isImmediateParentOf_iff odd).mp hmatch.1
          have hread : readData (results.find? (documentKey path odd id)) = _ :=
            hfind id
          rw [hdoc] at hread
          refine ⟨id, ?_, rfl⟩
          by_contra hnot
          rw [Table.find?_eq_none.mpr hnot] at hread
          simp [readData, hvalue] at hread
    · rintro ⟨id, hid, rfl⟩
      obtain ⟨data, hid⟩ := Table.mem_keys_iff_find?.mp hid
      have hsome : readData (results.find? (documentKey path odd id)) = _ :=
        hfind id
      rw [hid] at hsome
      obtain ⟨doc, hdoc, -⟩ := Option.bind_eq_some_iff.mp hsome
      exact ⟨doc, hdoc⟩

/-- A full query of the collection lists the documents of the collection, in
the order of `getDocuments`. -/
theorem getDocuments_refines
    (hrun : (machine backend).Run (.empty user) es c)
    (hkeeps : ∀ e ∈ es, e.Keeps user)
    (hrs : writesOf es = rs.map fun r => (r.write path odd).mutations)
    {base : Collection}
    (hbase : Shows path odd (fun key => readData (c.cached key)) base) :
    ∃ results, c.localStore.getDocumentsMatchingCollectionQuery
        ⟨path, fun _ _ => true, odd⟩ 0 = .ok results ∧
      results.keys.map (fun key =>
          (key, readData (results.find? key))) =
        ((rs.drop c.callbacks.writeIds.length).foldl request
          base).getDocuments.map (fun d =>
            (documentKey path odd d.documentID, some (ofFields d.data))) := by
  have hshows := view_shows hrun hkeeps hrs hbase
  obtain ⟨results, hresults, hdocuments, hdata⟩ :=
    LocalStore.getDocumentsMatchingCollectionQuery_ok
      (inv_of_run hrun).store (madeByAll_of_requests hrun hkeeps hrs)
      (readLater_of_run hrun) ⟨path, fun _ _ => true, odd⟩
  refine ⟨results, hresults, ?_⟩
  generalize (rs.drop c.callbacks.writeIds.length).foldl request base =
    shown at hshows
  have hfind (id : String) :
      readData (results.find? (documentKey path odd id)) =
        (shown.find? id).map ofFields := by
    rw [hdata, if_pos ((isImmediateParentOf_iff odd).mpr ⟨id, rfl⟩), ← hshows id]
    change _ = readData (c.localStore.view (documentKey path odd id))
    cases readData (c.localStore.view (documentKey path odd id)) with
    | none => rfl
    | some data => rfl
  rw [keys_eq_of_shows hdocuments hfind, Collection.getDocuments, Table.keys,
    List.map_map, List.map_map, List.map_map]
  refine List.map_congr_left fun e he => ?_
  simp only [Function.comp_def, hfind, Table.find?_eq_some.mpr he]
  rfl

end

def appleRequests : List Request :=
  [.setData "apple"
      (Table.empty.insert "name" (.scalar (.string "apple"))),
    .updateData ⟨"apple", "tags", [.string "red"]⟩]

/-- The collection lists the tags that are on their way. -/
theorem getDocuments_refines_apple : ∃ c results,
    (machine appleBackend).Run (.empty appleUser)
        (appleTagged ++ [appleAnswer]) c ∧
      c.localStore.getDocumentsMatchingCollectionQuery
        ⟨["grocery"], fun _ _ => true, rfl⟩ 0 = .ok results ∧
      results.keys.map (fun key => (key, readData (results.find? key))) =
        [(appleKey,
          some (appleData ++ [("tags", .array [.string "red"])]))] := by
  obtain ⟨a, c, -, -, hrun, henabled, hstep, -, -, -, -, -, -, hcache,
    hcompletions, -⟩ := exists_apple_run
  have hlast := hrun.snoc (e := appleAnswer) henabled hstep
  let grocery : Collection := Table.empty.insert "apple"
    (Table.empty.insert "name" (.scalar (.string "apple")))
  have hbase : Shows ["grocery"] rfl (fun key => readData (c.cached key))
      grocery := by
    intro id
    change readData (c.cached _) = _
    rw [cached, hcache, RemoteDocumentCache.get_insert,
      Table.find?_insert]
    by_cases hid : id = "apple"
    · rw [hid]
      rfl
    · rw [if_neg hid, if_neg (by simpa [documentKey, appleKey] using hid)]
      rfl
  have hrs : writesOf (appleTagged ++ [appleAnswer]) =
      appleRequests.map fun r => (r.write ["grocery"] rfl).mutations := rfl
  have hanswered : c.callbacks.writeIds = [1] := by
    rw [Callbacks.writeIds, hcompletions]
    rfl
  obtain ⟨results, hresults, hlist⟩ :=
    getDocuments_refines hlast keeps_apple hrs hbase
  refine ⟨c, results, hlast, hresults, ?_⟩
  rw [hlist, hanswered]
  decide

end Grocr.Firestore.Api
