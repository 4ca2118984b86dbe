import Grocr.Charts
import Grocr.Foundation
import Grocr.GroceryItem
import Grocr.Support.Swift
/-!
# The detail screen

`DetailViewController` shows one product and its price chart, and appends a
price and a date to the product's document.  The product reaches it as plain
values and a row number; the document is found again through that row.
-/

namespace Grocr

open Support.Swift Firestore

structure IndexPath where
  sectionIndex : Nat
  row : Nat
deriving DecidableEq

structure UITextField where
  text : Option String
  placeholder : Option String
deriving DecidableEq

def UITextField.initial : UITextField := ⟨some "", none⟩

structure DetailViewController (UIImage : Type) where
  name : Option String
  price : Option String
  priceS : Option (List String)
  currentDate : Option (List String)
  productIMG : UIImage
  dayArr : Option (List String)
  indexPathInt : Option IndexPath
  currentTimeTxtFd : UITextField
  priceTxtFd : UITextField

/-- What `viewDidLoad` leaves on the screen; `entries` and `labelCount` are
what the chart view is given. -/
structure DetailScreen (UIImage Double : Type) where
  nameLbl : String
  priceLbl : Option String
  detailIMG : UIImage
  monthLbl : String
  months : List String
  entries : List (ChartEntry Double)
  labelCount : Nat

/-- The last assignments of `setChart`: the chart view of the screen takes its
label count and its data, and lays out its axes. -/
def DetailScreen.chartView {UIImage Double : Type} [Charts.FloatingPoint Double]
    (screen : DetailScreen UIImage Double) :
    Except Trap (Charts.BarChartView Double) :=
  let chart := Charts.BarChartView.initial
  { chart with xAxis := chart.xAxis.setLabelCount screen.labelCount }.setData
    (.initDataSet (.initEntries screen.entries))

namespace DetailViewController

variable {UIImage Double : Type}

/-- `createItem(objectArr:time:)`: the days, indexed by the prices. -/
def createItem (objectArr time : List String) : Except Trap (List String) :=
  appendRange objectArr.length fun i => subscript time i

/-- `setChart(dataPoints:values:)`: the values, indexed by the data points.
The chart data made of them goes to the chart view, which lays it out at once
(`DetailScreen.chartView`). -/
def setChart (dataPoints : List String) (values : List Double) :
    Except Trap (List (ChartEntry Double)) :=
  appendRange dataPoints.length fun i => do
    let value ← subscript values i
    pure ⟨i, value⟩

def viewDidLoad (F : Foundation Double) (self : DetailViewController UIImage) :
    Except Trap (DetailScreen UIImage Double) := do
  let nameLbl ← unwrap self.name
  let price ← unwrap self.price
  let priceLbl := F.decimalString price
  -- `dayLast?` and `dayLast!` on the last date, then characters 0 to 6 of it
  let dayLast ← unwrap (self.currentDate.bind List.getLast?)
  let returnDay ← closedRange (F.characters dayLast) 0 6
  let priceS ← unwrap self.priceS
  let dayArr ← unwrap self.dayArr
  let months ← createItem priceS dayArr
  let doublePrice ← appendRange priceS.length fun i => do
    let text ← subscript priceS i
    unwrap (F.double text)
  let entries ← setChart months doublePrice
  pure
    { nameLbl, priceLbl, detailIMG := self.productIMG
      monthLbl := returnDay ++ "월", months, entries
      labelCount := priceS.length }

/-- `stringForValue(_:axis:)` at the axis position `x`. -/
def stringForValue (screen : DetailScreen UIImage Double) (x : Nat) :
    Except Trap String :=
  subscript screen.months x

/-! ## Modifying the product -/

/-- `modifyBtnPressed`: the popup proposes the formatted date of the screen. -/
def modifyBtnPressed (self : DetailViewController UIImage) (date : String) :
    DetailViewController UIImage :=
  { self with
    currentTimeTxtFd :=
      { self.currentTimeTxtFd with placeholder := some date }
    priceTxtFd := { self.priceTxtFd with placeholder := some "Price" } }

def enter (self : DetailViewController UIImage) (price date : String) :
    DetailViewController UIImage :=
  { self with
    currentTimeTxtFd := { self.currentTimeTxtFd with text := some date }
    priceTxtFd := { self.priceTxtFd with text := some price } }

/-- `updateData(["price": FieldValue.arrayUnion([price])])` -/
def priceUpdate (id price : String) : Update :=
  ⟨id, "price", [.string price]⟩

/-- `updateData(["Current Date": FieldValue.arrayUnion([date])])` -/
def dateUpdate (id date : String) : Update :=
  ⟨id, "Current Date", [.string date]⟩

/-- The two requests on the document `key`, the price first.  An empty date
field takes its placeholder. -/
def updatePriceAndDate (self : DetailViewController UIImage) (key : String) :
    Except Trap (List Update × DetailViewController UIImage) := do
  let price ← unwrap self.priceTxtFd.text
  if self.currentTimeTxtFd.text = some "" then
    let placeholder ← unwrap self.currentTimeTxtFd.placeholder
    let self := { self with
      currentTimeTxtFd :=
        { self.currentTimeTxtFd with text := some placeholder } }
    let date ← unwrap self.currentTimeTxtFd.text
    pure ([priceUpdate key price, dateUpdate key date], self)
  else
    let date ← unwrap self.currentTimeTxtFd.text
    pure ([priceUpdate key price, dateUpdate key date], self)

/-- The completion of `getDocuments` in `modifyPressed`; `snapshot` is nil
after an error. -/
def getDocumentsCompleted (self : DetailViewController UIImage)
    (snapshot : Option (List Document)) :
    Except Trap (List Update × DetailViewController UIImage) :=
  match snapshot with
  | none => pure ([], self)
  | some convertData => do
      let returnItem ← appendRange convertData.length fun i => do
        let document ← subscript convertData i
        pure (GroceryItem.initDocument document)
      let indexPath ← unwrap self.indexPathInt
      let indexRow := indexPath.row
      let item ← subscript returnItem indexRow
      updatePriceAndDate self item.key

/-- `modifyPressed`, when its `getDocuments` call completes with `snapshot`:
the requests it issues. -/
def modifyPressed (self : DetailViewController UIImage)
    (snapshot : Option (List Document)) :
    Except Trap (List Update × DetailViewController UIImage) :=
  if self.priceTxtFd.text ≠ none then self.getDocumentsCompleted snapshot
  else pure ([], self)

end DetailViewController

end Grocr
