import Grocr.DetailVC
import Grocr.UserInterface
/-!
# The product list

`GroceryListTableViewController` loads the collection into `items`, pads the
shorter of each product's two histories, draws the rows, opens the detail
screen and deletes documents.  The callbacks are modelled one by one, each as
a function of the state it runs in.
-/

namespace Grocr

open Support.Swift Firestore

/-- A value of the dictionary that `didSelectRowAt` leaves for `prepare`. -/
inductive CurrentDatum
  | string (value : String)
  | optionals (value : List (Option String))
deriving DecidableEq

namespace CurrentDatum

def asString : CurrentDatum → Option String
  | .string value => some value
  | .optionals _ => none

/-- `as? [String]` on an array of optionals: none of them may be nil. -/
def asStrings : CurrentDatum → Option (List String)
  | .string _ => none
  | .optionals value => value.mapM id

end CurrentDatum

structure Cell (UIImage : Type) where
  name : String
  price : String
  img : Option UIImage
deriving DecidableEq

/-- A swiped row and the key of the document that its delete names. -/
structure PendingDelete where
  row : Nat
  key : String
deriving DecidableEq

namespace GroceryListTableViewController

/-! ## Loading -/

/-- The two arrays that the completion of `queryforServer` works on. -/
structure LoadState where
  items : List GroceryItem
  returnItem : List GroceryItem

/-- One turn of an inner loop; the two loops differ in the history they
extend.  The last value is read from `items`, the longer history goes to
`returnItem`. -/
def appendLast (history : GroceryItem → List (Option String))
    (setHistory : List (Option String) → GroceryItem → GroceryItem)
    (items : List GroceryItem) (i : Nat)
    (s : List GroceryItem × List (Option String)) :
    Except Trap (List GroceryItem × List (Option String)) := do
  let item ← subscript items i
  let last ← unwrapTwice (history item).getLast?
  let compare := s.2 ++ [some last]
  let returnItem ← assign s.1 i (setHistory compare)
  pure (returnItem, compare)

def padHistory (history : GroceryItem → List (Option String))
    (setHistory : List (Option String) → GroceryItem → GroceryItem)
    (items : List GroceryItem) (i loopCount : Nat)
    (returnItem : List GroceryItem) (compare : List (Option String)) :
    Except Trap (List GroceryItem × List (Option String)) :=
  forRange loopCount (fun _ => appendLast history setHistory items i)
    (returnItem, compare)

def padDates (items : List GroceryItem) (i loopCount : Nat)
    (returnItem : List GroceryItem) (compareDate : List (Option String)) :
    Except Trap (List GroceryItem × List (Option String)) :=
  padHistory GroceryItem.currentDate GroceryItem.withCurrentDate
    items i loopCount returnItem compareDate

def padPrices (items : List GroceryItem) (i loopCount : Nat)
    (returnItem : List GroceryItem) (comparePrice : List (Option String)) :
    Except Trap (List GroceryItem × List (Option String)) :=
  padHistory GroceryItem.price GroceryItem.withPrice
    items i loopCount returnItem comparePrice

/-- One turn of the outer loop of `queryforServer`'s completion. -/
def padRow (i : Nat) (s : LoadState) : Except Trap LoadState := do
  let item ← subscript s.items i
  let compareDate := item.currentDate
  let comparePrice := item.price
  if item.price.length > item.currentDate.length then
    let loopCount := item.price.length - item.currentDate.length
    let padded ← padDates s.items i loopCount s.returnItem compareDate
    pure ⟨padded.1, padded.1⟩
  else if item.price.length < item.currentDate.length then
    let loopCount := item.currentDate.length - item.price.length
    let padded ← padPrices s.items i loopCount s.returnItem comparePrice
    pure ⟨padded.1, padded.1⟩
  else
    pure ⟨s.returnItem, s.returnItem⟩

/-- What the completion of `queryforServer` assigns to `items` for the
documents of its snapshot. -/
def loadItems (convertData : List Document) : Except Trap (List GroceryItem) := do
  let returnItem ← appendRange convertData.length fun i => do
    let document ← subscript convertData i
    pure (GroceryItem.initDocument document)
  let s ← forRange returnItem.length padRow ⟨returnItem, returnItem⟩
  pure s.items

/-! ## Rows -/

/-- `getDays(days:)`: characters 8 to 9 of each date. -/
def getDays {Double : Type} (F : Foundation Double)
    (days : List (Option String)) : Except Trap (List String) :=
  appendRange days.length fun i => do
    let dayStr ← subscript days i
    let day ← unwrap dayStr
    closedRange (F.characters day) 8 9

def defaultUrlStr : String :=
  "https://firebasestorage.googleapis.com/v0/b/fir-study-b239d.appspot.com/o/Market%20Price%2FMarket%20Price%2F%EB%A7%A4%EC%A7%81%20%EB%A7%88%EC%9A%B0%EC%8A%A4?alt=media&token=27241331-c409-40be-9749-66c4621d3ef9"

section Rows

variable {URL Data UIImage Double : Type}

def cellForRowAt (F : Foundation Double) (I : ImageLoading URL Data UIImage)
    (items : List GroceryItem) (row : Nat) : Except Trap (Cell UIImage) := do
  let groceryItem ← subscript items row
  let name ← unwrap groceryItem.productName
  let lastPrice ← unwrapTwice groceryItem.price.getLast?
  let lastPriceStr := F.decimalString lastPrice
  let price ← unwrap lastPriceStr
  let imgUrl ← unwrap (I.url (groceryItem.image.getD defaultUrlStr))
  -- `try!` traps on an error as `!` does on nil
  let imgData ← unwrap (I.contents imgUrl)
  pure ⟨name, price, I.image imgData⟩

/-- What a selection leaves behind for `prepare(for:sender:)`. -/
structure Selection (UIImage : Type) where
  currentData : Support.Table String CurrentDatum
  currentImg : Option UIImage
  returnDayArr : List String

/-- `tableView(_:didSelectRowAt:)`.  `cell` is the row's cell if it is
visible; without one the method returns before the segue. -/
def didSelectRowAt (F : Foundation Double) (items : List GroceryItem)
    (row : Nat) (cell : Option (Cell UIImage)) :
    Except Trap (Option (Selection UIImage)) := do
  let indexData ← subscript items row
  let name ← unwrap indexData.productName
  let lastPrice ← unwrapTwice indexData.price.getLast?
  let currentData : Support.Table String CurrentDatum :=
    (((Support.Table.empty.insert "Name" (.string name)).insert "Price"
      (.optionals indexData.price)).insert "LastPrice" (.string lastPrice)).insert
        "Current Date" (.optionals indexData.currentDate)
  match cell with
  | none => pure none
  | some cell =>
      let returnDayArr ← getDays F indexData.currentDate
      pure (some ⟨currentData, cell.img, returnDayArr⟩)

def prepare (selection : Selection UIImage)
    (indexPathForSelectedRow : Option IndexPath) :
    Except Trap (DetailViewController UIImage) := do
  let datum := fun key => selection.currentData.find? key
  -- both lists are unwrapped once to print their lengths
  let _ ← unwrap ((datum "Price").bind CurrentDatum.asStrings)
  let _ ← unwrap ((datum "Current Date").bind CurrentDatum.asStrings)
  let currentImg ← unwrap selection.currentImg
  let indexPath ← unwrap indexPathForSelectedRow
  pure
    { name := (datum "Name").bind CurrentDatum.asString
      price := (datum "LastPrice").bind CurrentDatum.asString
      priceS := (datum "Price").bind CurrentDatum.asStrings
      currentDate := (datum "Current Date").bind CurrentDatum.asStrings
      productIMG := currentImg
      dayArr := some selection.returnDayArr
      indexPathInt := some indexPath
      currentTimeTxtFd := .initial
      priceTxtFd := .initial }

/-- Draw a row, select it and open the detail screen. -/
def openRow (F : Foundation Double) (I : ImageLoading URL Data UIImage)
    (items : List GroceryItem) (row : Nat) :
    Except Trap (DetailViewController UIImage × DetailScreen UIImage Double) := do
  let cell ← cellForRowAt F I items row
  let selection ← didSelectRowAt F items row (some cell)
  let selection ← unwrap selection
  let detail ← prepare selection (some ⟨0, row⟩)
  let screen ← detail.viewDidLoad F
  pure (detail, screen)

/-- The same with the chart view of the detail screen, which gets its data at
the end of `viewDidLoad`. -/
def openDetail [Charts.FloatingPoint Double] (F : Foundation Double)
    (I : ImageLoading URL Data UIImage) (items : List GroceryItem) (row : Nat) :
    Except Trap (DetailScreen UIImage Double × Charts.BarChartView Double) := do
  let opened ← openRow F I items row
  let chart ← opened.2.chartView
  pure (opened.2, chart)

end Rows

end GroceryListTableViewController

/-! ## The state of the list screen and its callbacks -/

structure GroceryListTableViewController where
  items : List GroceryItem
  loadScreen : UIVC
deriving DecidableEq

namespace GroceryListTableViewController

def initial : GroceryListTableViewController := ⟨[], .initial⟩

/-- `queryforServer` up to its `getDocuments` request. -/
def queryforServer (self : GroceryListTableViewController) :
    GroceryListTableViewController :=
  { self with loadScreen := self.loadScreen.setLoadingScreen }

/-- The completion of `queryforServer`; `snapshot` is nil after an error. -/
def queryCompleted (self : GroceryListTableViewController)
    (snapshot : Option (List Document)) :
    Except Trap GroceryListTableViewController :=
  match snapshot with
  | none => pure self
  | some convertData => do
      let items ← loadItems convertData
      pure { items, loadScreen := self.loadScreen.spinnerOff }

def viewDidLoad (self : GroceryListTableViewController) :
    GroceryListTableViewController :=
  self.queryforServer

/-- `refresh`; the overlay it builds itself is hidden before it returns. -/
def refresh (self : GroceryListTableViewController) :
    GroceryListTableViewController :=
  { self with items := [] }.queryforServer

/-- The handler of the swipe action on `row`: the delete request it issues. -/
def swipeDelete (self : GroceryListTableViewController) (row : Nat) :
    Except Trap PendingDelete := do
  let deletItem ← subscript self.items row
  pure ⟨row, deletItem.key⟩

/-- The completion of the delete request.  An error is printed, no more. -/
def deleteCompleted (self : GroceryListTableViewController)
    (request : PendingDelete) (_error : Option String) :
    Except Trap GroceryListTableViewController := do
  let items ← removeAt self.items request.row
  pure { self with items }.queryforServer

section Callbacks

variable {self self' : GroceryListTableViewController}

theorem queryCompleted_eq_ok {documents : List Document} :
    self.queryCompleted (some documents) = .ok self' ↔
      ∃ items, loadItems documents = .ok items ∧
        self' = ⟨items, self.loadScreen.spinnerOff⟩ := by
  rw [queryCompleted, bind_eq_ok]
  simp only [pure_eq_ok, Except.ok.injEq, eq_comm (b := self')]

theorem swipeDelete_eq_ok {row : Nat} {request : PendingDelete} :
    self.swipeDelete row = .ok request ↔
      ∃ item, self.items[row]? = some item ∧ request = ⟨row, item.key⟩ := by
  rw [swipeDelete, bind_eq_ok]
  simp only [subscript_eq_ok, pure_eq_ok, Except.ok.injEq,
    eq_comm (b := request)]

theorem deleteCompleted_eq_ok {request : PendingDelete}
    {error : Option String} :
    self.deleteCompleted request error = .ok self' ↔
      request.row < self.items.length ∧
        self' = ⟨self.items.eraseIdx request.row,
          self.loadScreen.setLoadingScreen⟩ := by
  rw [deleteCompleted, bind_eq_ok]
  constructor
  · rintro ⟨items, hitems, h⟩
    obtain ⟨hlt, rfl⟩ := removeAt_eq_ok.mp hitems
    cases h
    exact ⟨hlt, rfl⟩
  · rintro ⟨hlt, rfl⟩
    exact ⟨_, removeAt_eq_ok.mpr ⟨hlt, rfl⟩, rfl⟩

end Callbacks

end GroceryListTableViewController

end Grocr
