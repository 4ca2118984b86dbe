import Grocr.ListScreen
import Grocr.Proofs.History
/-!
# What the list screen does to its rows

Two questions about every run of the screen: does a delete completion remove
the row that was swiped, and does the list end up showing the collection?
-/

namespace Grocr

open Support Support.Swift Firestore
open GroceryListTableViewController (loadItems loadItems_eq_ok)

namespace ListScreen

def rowKeys (s : ListScreen) : List String :=
  s.screen.items.map GroceryItem.key

theorem map_key_loadItems {c : Collection} {items : List GroceryItem}
    (h : loadItems c.getDocuments = .ok items) :
    items.map GroceryItem.key = c.keys := by
  obtain ⟨-, rfl⟩ := loadItems_eq_ok.mp h
  rw [← Collection.map_documentID, List.map_map]
  rfl

/-! ## Rows and outstanding deletes -/

/-- `place` is where the product of the request stands in `keys`. -/
def At (keys : List String) (d : Swipe) : Prop :=
  ∀ i, d.place = some i ↔ keys[i]? = some d.request.key

structure Tracks (s : ListScreen) : Prop where
  nodup : s.rowKeys.Nodup
  places : ∀ d ∈ s.deletes, At s.rowKeys d

theorem getElem?_eraseIdx_iff {α : Type} {xs : List α} {row i : Nat} {x : α} :
    (xs.eraseIdx row)[i]? = some x ↔
      (i < row ∧ xs[i]? = some x) ∨ (row ≤ i ∧ xs[i + 1]? = some x) := by
  rw [List.getElem?_eraseIdx]
  split
  next h => simp [h]
  next h => simp [h, Nat.not_lt.mp h]

theorem at_removed {keys : List String} {d swipe : Swipe}
    {error : Option String} (h : At keys d) :
    At (keys.eraseIdx swipe.request.row)
      { d with
        place := follow d.request.key (.deleteCompleted swipe error) d.place } := by
  intro i
  rw [getElem?_eraseIdx_iff, ← h i, ← h (i + 1)]
  cases d.place with
  | none => simp [follow]
  | some p =>
      simp only [follow, Option.bind_some]
      split
      · simp only [Option.some.injEq]
        omega
      · split
        · simp only [Option.some.injEq, reduceCtorEq, false_iff]
          omega
        · simp only [Option.some.injEq]
          omega

theorem at_loaded {c : Collection} {issued version : Nat} (d : Swipe) :
    At c.keys
      { d with
        place := follow d.request.key
          (.queryCompleted issued (some ⟨version, c⟩)) d.place } := by
  intro i
  rw [Table.keys_getElem?_iff]
  simp only [follow]
  split
  next h => simp [h]
  next h => simp [h]

theorem at_swiped {keys : List String} {request : PendingDelete}
    (hnodup : keys.Nodup) (h : keys[request.row]? = some request.key) :
    At keys ⟨request, some request.row⟩ := by
  intro i
  constructor
  · intro hi
    cases hi
    exact h
  · intro hi
    have hlt := (List.getElem?_eq_some_iff.mp hi).1
    have heq := (List.getElem?_inj hlt hnodup).mp (hi.trans h.symm)
    rw [heq]

theorem tracks_initial (c : Collection) : (initial c).Tracks :=
  ⟨List.nodup_nil, by simp [initial]⟩

theorem Tracks.step {s t : ListScreen} {e : Event} (h : s.Tracks)
    (hstep : s.step e = .ok t) : t.Tracks := by
  cases e with
  | viewDidLoad =>
      cases hstep
      exact ⟨h.nodup, h.places⟩
  | refresh =>
      cases hstep
      refine ⟨List.nodup_nil, fun d hd => ?_⟩
      obtain ⟨d', -, rfl⟩ := List.mem_map.mp hd
      intro i
      simp [follow, issue, rowKeys, GroceryListTableViewController.refresh,
        GroceryListTableViewController.queryforServer]
  | swipeDelete row =>
      obtain ⟨item, hitem, rfl⟩ := step_swipeDelete hstep
      have hkey : s.rowKeys[row]? = some item.key := by
        rw [rowKeys, List.getElem?_map, hitem, Option.map_some]
      refine ⟨h.nodup, fun d hd => ?_⟩
      rcases List.mem_append.mp hd with hd | hd
      · exact h.places d hd
      · rw [List.mem_singleton.mp hd]
        exact at_swiped h.nodup hkey
  | deleteCompleted swipe error =>
      have ht := step_deleteCompleted hstep
      have hkeys : t.rowKeys = s.rowKeys.eraseIdx swipe.request.row := by
        rw [ht, rowKeys, rowKeys, List.eraseIdx_map]
        rfl
      refine ⟨?_, fun d hd => ?_⟩
      · rw [hkeys]
        exact h.nodup.sublist (List.eraseIdx_sublist _ _)
      · rw [hkeys]
        rw [ht] at hd
        obtain ⟨d', hd', rfl⟩ := List.mem_map.mp hd
        exact at_removed (h.places d' (List.mem_of_mem_erase hd'))
  | queryCompleted issued reply =>
      cases reply with
      | none =>
          cases hstep
          refine ⟨h.nodup, fun d hd => ?_⟩
          obtain ⟨d', hd', rfl⟩ := List.mem_map.mp hd
          exact h.places d' hd'
      | some reply =>
          obtain ⟨items, hitems, ht⟩ := step_queryCompleted hstep
          have hkeys : t.rowKeys = reply.collection.keys := by
            rw [ht]
            exact map_key_loadItems hitems
          refine ⟨?_, fun d hd => ?_⟩
          · rw [hkeys]
            exact reply.collection.nodup_keys
          · rw [hkeys]
            rw [ht] at hd
            obtain ⟨d', -, rfl⟩ := List.mem_map.mp hd
            exact at_loaded d'
  | collectionChanged c =>
      cases hstep
      exact ⟨h.nodup, h.places⟩

/-! ## The row that a delete removes -/

/-- A completed delete removes the row of the product whose key it named, and
only after the server has deleted the document. -/
def RemovesSwiped (s : ListScreen) : Event → Prop
  | .deleteCompleted swipe error =>
      error = none ∧ ∃ item, s.screen.items[swipe.request.row]? = some item ∧
        item.key = swipe.request.key
  | _ => True

/-- The delete succeeded, and the events since the swipe have left the product
in the row that was swiped. -/
def RowKept : Event → Prop
  | .deleteCompleted swipe error =>
      error = none ∧ swipe.place = some swipe.request.row
  | _ => True

theorem Tracks.removesSwiped_iff {s : ListScreen} {e : Event} (h : s.Tracks)
    (henabled : s.enabled e) : RemovesSwiped s e ↔ RowKept e := by
  cases e with
  | deleteCompleted swipe error =>
      refine and_congr_right fun _ => ?_
      rw [h.places swipe henabled, rowKeys, List.getElem?_map,
        Option.map_eq_some_iff]
  | _ => exact Iff.rfl

/-- Along any events that can occur one after the other, the deletes remove
the right rows exactly when they find their products in the rows swiped. -/
theorem removesSwiped_iff_rowKept (c : Collection) (es : List Event)
    (hplay : machine.Along (initial c) es (fun _ s e => s.enabled e)) :
    machine.Along (initial c) es (fun _ s e => RemovesSwiped s e) ↔
      machine.Along (initial c) es (fun _ _ e => RowKept e) := by
  apply hplay.congr_of_invariant (tracks_initial c)
  · intro u e v hu _ hstep
    exact hu.step hstep
  · intro pre u e hu henabled
    exact hu.removesSwiped_iff henabled

def threeApples : Collection :=
  documentsOf (((Table.empty.insert "A" apple).insert "B" apple).insert "C"
    apple)

/-- They are loaded, the first two rows are swiped, and the delete of the
first row completes. -/
def twoSwipes : List Event :=
  [.viewDidLoad, .queryCompleted 0 (some ⟨0, threeApples⟩), .swipeDelete 0,
    .swipeDelete 1, .deleteCompleted ⟨⟨0, "A"⟩, some 0⟩ none]

/-- The rows `B` and `C` are left; `B` was swiped in row 1 and stands in row
0. -/
def afterTwoSwipes : ListScreen where
  screen := ⟨[apple.item "B", apple.item "C"], ⟨true, true⟩⟩
  past := []
  current := threeApples
  queries := [0]
  lastIssued := some 0
  deletes := [⟨⟨1, "B"⟩, some 0⟩]

theorem run_twoSwipes : machine.Run (initial threeApples) twoSwipes
    afterTwoSwipes :=
  Machine.run_of_replay (by decide)

theorem removesSwiped_iff_rowKept_twoSwipes :
    machine.Along (initial threeApples) twoSwipes
        (fun _ s e => RemovesSwiped s e) ↔
      machine.Along (initial threeApples) twoSwipes (fun _ _ e => RowKept e) :=
  removesSwiped_iff_rowKept threeApples twoSwipes
    (Machine.Along.enabled_of_run run_twoSwipes)

theorem twoSwipes_removes_other :
    machine.Run (initial threeApples) twoSwipes afterTwoSwipes ∧
      afterTwoSwipes.enabled (.deleteCompleted ⟨⟨1, "B"⟩, some 0⟩ none) ∧
      afterTwoSwipes.screen.items[1]? = some (apple.item "C") ∧
      ¬ RemovesSwiped afterTwoSwipes
        (.deleteCompleted ⟨⟨1, "B"⟩, some 0⟩ none) := by
  refine ⟨run_twoSwipes, by decide, rfl, ?_⟩
  rintro ⟨-, item, hitem, hkey⟩
  cases hitem
  exact absurd hkey (by decide)

/-! ## The collection that the list shows -/

/-- With nothing outstanding and no change since the last query was issued,
the rows are the padded documents of the collection. -/
def ShowsCurrent (s : ListScreen) : Prop :=
  s.queries = [] → s.deletes = [] → s.lastIssued = some s.version →
    GroceryListTableViewController.loadItems s.current.getDocuments =
      .ok s.screen.items

/-- A reply that leaves nothing outstanding, while the collection is as it was
when the last query was issued, carries this version and not an older one. -/
def LastReplyCurrent (s : ListScreen) : Event → Prop
  | .queryCompleted issued (some reply) =>
      s.queries.erase issued = [] → s.deletes = [] →
        s.lastIssued = some s.version → reply.version = s.version
  | _ => True

instance (s : ListScreen) : (e : Event) → Decidable (s.LastReplyCurrent e)
  | .queryCompleted issued (some reply) =>
      inferInstanceAs (Decidable (s.queries.erase issued = [] →
        s.deletes = [] → s.lastIssued = some s.version →
          reply.version = s.version))
  | .queryCompleted _ none | .viewDidLoad | .refresh | .swipeDelete _
  | .deleteCompleted _ _ | .collectionChanged _ => isTrue trivial

def Succeeds : Event → Prop
  | .queryCompleted _ none => False
  | _ => True

structure Settled (s : ListScreen) : Prop where
  shows : s.ShowsCurrent
  issued_le : ∀ v, s.lastIssued = some v → v ≤ s.version

theorem settled_initial (c : Collection) : (initial c).Settled := by
  constructor
  · intro _ _ hlast
    cases hlast
  · intro v hv
    cases hv

theorem settled_issue (s : ListScreen)
    (screen : GroceryListTableViewController) : (s.issue screen).Settled := by
  constructor
  · intro hqueries
    simp [issue] at hqueries
  · intro v hv
    cases hv
    exact le_rfl

theorem Settled.step {s t : ListScreen} {e : Event} (h : s.Settled)
    (hsuccess : Succeeds e) (hcurrent : LastReplyCurrent s e)
    (henabled : s.enabled e) (hstep : s.step e = .ok t) : t.Settled := by
  cases e with
  | viewDidLoad =>
      cases hstep
      exact settled_issue _ _
  | refresh =>
      cases hstep
      exact settled_issue _ _
  | swipeDelete row =>
      obtain ⟨item, -, rfl⟩ := step_swipeDelete hstep
      refine ⟨fun _ hdeletes => ?_, h.issued_le⟩
      simp at hdeletes
  | deleteCompleted swipe error =>
      rw [step_deleteCompleted hstep]
      exact settled_issue _ _
  | queryCompleted issued reply =>
      cases reply with
      | none => exact absurd hsuccess id
      | some reply =>
          obtain ⟨items, hitems, rfl⟩ := step_queryCompleted hstep
          refine ⟨fun hqueries hdeletes hlast => ?_, h.issued_le⟩
          obtain ⟨-, -, hversion⟩ := henabled
          have hreply : reply.version = s.version :=
            hcurrent hqueries (List.map_eq_nil_iff.mp hdeletes) hlast
          have hnow : s.versions[s.version]? = some s.current := by
            simp [versions, version]
          rw [hreply, hnow, Option.some.injEq] at hversion
          rwa [← hversion] at hitems
  | collectionChanged c =>
      cases hstep
      -- no query has been issued at the new version yet
      have hnewer : ∀ v, s.lastIssued = some v →
          v < (s.past ++ [s.current]).length := by
        intro v hv
        rw [List.length_append, List.length_singleton]
        exact Nat.lt_succ_of_le (h.issued_le v hv)
      exact ⟨fun _ _ hlast => absurd (hnewer _ hlast) (lt_irrefl _),
        fun v hv => (hnewer v hv).le⟩

/-- In every run whose last replies are current, the list converges to the
collection. -/
theorem showsCurrent_of_lastReplyCurrent {c : Collection} {es : List Event}
    {s : ListScreen} (hrun : machine.Run (initial c) es s)
    (hsuccess : ∀ e ∈ es, Succeeds e)
    (hcurrent : machine.Along (initial c) es
      (fun _ t e => LastReplyCurrent t e)) :
    s.ShowsCurrent := by
  have hsucceeds : machine.Along (initial c) es (fun _ _ e => Succeeds e) := by
    rintro pre e post rfl t -
    exact hsuccess e (by simp)
  have hsettled : s.Settled :=
    hrun.induct (I := fun _ t => t.Settled) (hsucceeds.and hcurrent)
      (settled_initial c)
      fun _ u e v hu hC henabled hstep => hu.step hC.1 hC.2 henabled hstep
  exact hsettled.shows

/-- A load and a refresh around a change, with the replies in order. -/
def inOrder : List Event :=
  [.viewDidLoad, .collectionChanged (Table.empty.insert "A" apple.fields),
    .refresh, .queryCompleted 0 (some ⟨0, Table.empty⟩),
    .queryCompleted 1 (some ⟨1, Table.empty.insert "A" apple.fields⟩)]

theorem showsCurrent_of_lastReplyCurrent_inOrder :
    ListScreen.ShowsCurrent
      ⟨⟨[apple.item "A"], ⟨true, true⟩⟩, [Table.empty],
        Table.empty.insert "A" apple.fields, [], some 1, []⟩ := by
  have hrun : machine.Run (initial Table.empty) inOrder
      ⟨⟨[apple.item "A"], ⟨true, true⟩⟩, [Table.empty],
        Table.empty.insert "A" apple.fields, [], some 1, []⟩ :=
    Machine.run_of_replay (by decide)
  exact showsCurrent_of_lastReplyCurrent hrun (by simp [inOrder, Succeeds])
    (Machine.along_of_check (by decide))

/-- The same, but the reply to the load, which is older, comes last. -/
def overtaken : List Event :=
  [.viewDidLoad, .collectionChanged (Table.empty.insert "A" apple.fields),
    .refresh, .queryCompleted 1 (some ⟨1, Table.empty.insert "A" apple.fields⟩),
    .queryCompleted 0 (some ⟨0, Table.empty⟩)]

def afterOvertaken : ListScreen where
  screen := ⟨[], ⟨true, true⟩⟩
  past := [Table.empty]
  current := Table.empty.insert "A" apple.fields
  queries := []
  lastIssued := some 1
  deletes := []

theorem overtaken_not_showsCurrent :
    machine.Run (initial Table.empty) overtaken afterOvertaken ∧
      (∀ e ∈ overtaken, Succeeds e) ∧ ¬ afterOvertaken.ShowsCurrent := by
  refine ⟨Machine.run_of_replay (by decide), by simp [overtaken, Succeeds], ?_⟩
  intro h
  have hload := h rfl rfl rfl
  exact absurd hload (by decide)

end ListScreen

end Grocr
