import Grocr.GroceryListTableViewController
import Grocr.Support.Machine
/-!
# The list screen and the server

The callbacks of the list run one at a time on the main queue, in any order:
loads, refreshes, swipes, and the completions of the requests they issue.  The
collection changes in between, by this client or by others.  A query's reply
carries the collection as it was at some moment between its issue and its
completion, so the contents so far are kept as numbered versions.
-/

namespace Grocr

open Support Support.Swift Firestore

/-- An outstanding delete.  `place` follows the row of the swiped product
through the events after the swipe; no callback reads it. -/
structure Swipe where
  request : PendingDelete
  place : Option Nat
deriving DecidableEq

/-- A successful query result: the collection at one of its versions. -/
structure Reply where
  version : Nat
  collection : Collection
deriving DecidableEq

structure ListScreen where
  screen : GroceryListTableViewController
  /-- The earlier contents of the collection, oldest first. -/
  past : List Collection
  current : Collection
  /-- The outstanding queries, each as the version it was issued at. -/
  queries : List Nat
  lastIssued : Option Nat
  deletes : List Swipe
deriving DecidableEq

namespace ListScreen

def initial (c : Collection) : ListScreen :=
  ⟨.initial, [], c, [], none, []⟩

def version (s : ListScreen) : Nat := s.past.length

def versions (s : ListScreen) : List Collection := s.past ++ [s.current]

inductive Event
  | viewDidLoad
  /-- The handler of `newDataNoti`. -/
  | refresh
  | swipeDelete (row : Nat)
  | deleteCompleted (swipe : Swipe) (error : Option String)
  | queryCompleted (issued : Nat) (reply : Option Reply)
  | collectionChanged (c : Collection)

/-- Where an event moves the row of the product `key`: a removal below it
moves it up, its own removal and a refresh lose it, and a load puts it where
the snapshot lists its document. -/
def follow (key : String) : Event → Option Nat → Option Nat
  | .refresh, _ => none
  | .deleteCompleted swipe _, place =>
      place.bind fun i =>
        if swipe.request.row < i then some (i - 1)
        else if swipe.request.row = i then none
        else some i
  | .queryCompleted _ (some reply), _ =>
      if key ∈ reply.collection.keys then some (reply.collection.rank key)
      else none
  | _, place => place

def moved (e : Event) (deletes : List Swipe) : List Swipe :=
  deletes.map fun d => { d with place := follow d.request.key e d.place }

def enabled (s : ListScreen) : Event → Prop
  | .deleteCompleted swipe _ => swipe ∈ s.deletes
  | .queryCompleted issued none => issued ∈ s.queries
  | .queryCompleted issued (some reply) =>
      issued ∈ s.queries ∧ issued ≤ reply.version ∧
        s.versions[reply.version]? = some reply.collection
  | _ => True

instance (s : ListScreen) (e : Event) : Decidable (s.enabled e) := by
  unfold enabled
  split <;> infer_instance

/-- A query has gone out; `screen` is what its issuer left. -/
def issue (s : ListScreen) (screen : GroceryListTableViewController) :
    ListScreen :=
  { s with
    screen
    queries := s.queries ++ [s.version]
    lastIssued := some s.version }

def step (s : ListScreen) (e : Event) : Except Trap ListScreen :=
  match e with
  | .viewDidLoad => pure (s.issue s.screen.viewDidLoad)
  | .refresh =>
      pure ({ s with deletes := moved e s.deletes }.issue s.screen.refresh)
  | .swipeDelete row => do
      let request ← s.screen.swipeDelete row
      pure { s with deletes := s.deletes ++ [⟨request, some row⟩] }
  | .deleteCompleted swipe error => do
      let screen ← s.screen.deleteCompleted swipe.request error
      pure ({ s with deletes := moved e (s.deletes.erase swipe) }.issue screen)
  | .queryCompleted issued reply => do
      let screen ← s.screen.queryCompleted
        (reply.map fun r => r.collection.getDocuments)
      pure
        { s with
          screen
          queries := s.queries.erase issued
          deletes := moved e s.deletes }
  | .collectionChanged c =>
      pure { s with past := s.past ++ [s.current], current := c }

def machine : Machine ListScreen Event Trap := ⟨enabled, step⟩

instance (s : ListScreen) (e : Event) : Decidable (machine.enabled s e) :=
  inferInstanceAs (Decidable (s.enabled e))

/-! ## The events that may trap -/

section Steps

open GroceryListTableViewController (loadItems queryCompleted_eq_ok
  swipeDelete_eq_ok deleteCompleted_eq_ok)

variable {s t : ListScreen}

theorem step_swipeDelete {row : Nat} (h : s.step (.swipeDelete row) = .ok t) :
    ∃ item, s.screen.items[row]? = some item ∧
      t = { s with
        deletes := s.deletes ++ [⟨⟨row, item.key⟩, some row⟩] } := by
  obtain ⟨request, hrequest, h⟩ := bind_eq_ok.mp h
  obtain ⟨item, hitem, rfl⟩ := swipeDelete_eq_ok.mp hrequest
  cases h
  exact ⟨item, hitem, rfl⟩

theorem step_deleteCompleted {swipe : Swipe} {error : Option String}
    (h : s.step (.deleteCompleted swipe error) = .ok t) :
    t = { s with
      deletes := moved (.deleteCompleted swipe error)
        (s.deletes.erase swipe) }.issue
      ⟨s.screen.items.eraseIdx swipe.request.row,
        s.screen.loadScreen.setLoadingScreen⟩ := by
  obtain ⟨screen, hscreen, h⟩ := bind_eq_ok.mp h
  obtain ⟨-, rfl⟩ := deleteCompleted_eq_ok.mp hscreen
  cases h
  rfl

theorem step_queryCompleted {issued : Nat} {reply : Reply}
    (h : s.step (.queryCompleted issued (some reply)) = .ok t) :
    ∃ items, loadItems reply.collection.getDocuments = .ok items ∧
      t = { s with
        screen := ⟨items, s.screen.loadScreen.spinnerOff⟩
        queries := s.queries.erase issued
        deletes := moved (.queryCompleted issued (some reply)) s.deletes } := by
  obtain ⟨screen, hscreen, h⟩ := bind_eq_ok.mp h
  obtain ⟨items, hitems, rfl⟩ := queryCompleted_eq_ok.mp hscreen
  cases h
  exact ⟨items, hitems, rfl⟩

end Steps

end ListScreen

end Grocr
