import Grocr.Firestore.Collection
/-!
# Products as the app reads them

`GroceryItem` keeps what a document holds as optionals and decodes the two
histories with defaults, so that `init(document:)` never traps.
-/

namespace Grocr

open Firestore

structure GroceryItem where
  key : String
  image : Option String
  productName : Option String
  price : List (Option String)
  describe : Option String
  complete : Option Bool
  priceCount : Option Int
  currentDate : List (Option String)
deriving DecidableEq

namespace GroceryItem

def initDocument (document : Document) : GroceryItem :=
  let dataDic := document.data
  { key := document.documentID
    image := (dataDic.find? "Image URL").bind FieldValue.asString
    productName := (dataDic.find? "name").bind FieldValue.asString
    price := (((dataDic.find? "price").bind FieldValue.asStrings).getD
      ["Price Error"]).map some
    describe := (dataDic.find? "desc").bind FieldValue.asString
    complete := (dataDic.find? "complete").bind FieldValue.asBool
    priceCount := (dataDic.find? "PriceCount").bind FieldValue.asInt
    currentDate := (((dataDic.find? "Current Date").bind
      FieldValue.asStrings).getD [""]).map some }

/-! ## Assignments to a history -/

def withPrice (price : List (Option String)) (item : GroceryItem) :
    GroceryItem :=
  { item with price }

def withCurrentDate (currentDate : List (Option String)) (item : GroceryItem) :
    GroceryItem :=
  { item with currentDate }

theorem withPrice_withPrice (v w : List (Option String)) (item : GroceryItem) :
    withPrice v (withPrice w item) = withPrice v item := rfl

theorem withPrice_self (item : GroceryItem) :
    withPrice item.price item = item := rfl

theorem withCurrentDate_withCurrentDate (v w : List (Option String))
    (item : GroceryItem) :
    withCurrentDate v (withCurrentDate w item) = withCurrentDate v item := rfl

theorem withCurrentDate_self (item : GroceryItem) :
    withCurrentDate item.currentDate item = item := rfl

end GroceryItem

end Grocr
