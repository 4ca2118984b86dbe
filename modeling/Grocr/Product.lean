import Grocr.DetailVC
import Grocr.PopUpController
import Grocr.Proofs.Loading
/-!
# Products, and the documents that represent them

What a stored product is to the app: its fixed fields and two histories that
start with one value and only ever gain values they do not contain.  `fields`
is the document that represents a product; the requests of the app act on
represented products as the operations below.
-/

namespace Grocr

open Support Support.Swift Firestore
open DetailViewController (priceUpdate dateUpdate)

structure Product where
  name : String
  description : String
  imageURL : String
  complete : Bool
  priceCount : Int
  prices : FirstSeen String
  dates : FirstSeen String

namespace Product

def created (name price description imageURL date : String) : Product where
  name := name
  description := description
  imageURL := imageURL
  complete := false
  priceCount := 1
  prices := .singleton price
  dates := .singleton date

/-- What arrives at a product: a value for one of its histories. -/
inductive Write
  | price (value : String)
  | date (value : String)
deriving DecidableEq

namespace Write

/-- The request that carries the value to the document `id`. -/
def request (id : String) : Write → Update
  | .price value => priceUpdate id value
  | .date value => dateUpdate id value

def price? : Write → Option String
  | .price value => some value
  | .date _ => none

def date? : Write → Option String
  | .price _ => none
  | .date value => some value

@[simp] theorem documentID_request (id : String) (w : Write) :
    (w.request id).documentID = id := by
  cases w <;> rfl

theorem request_inj {id id' : String} {w w' : Write}
    (h : w.request id = w'.request id') : id = id' ∧ w = w' := by
  cases w <;> cases w' <;>
    simp_all [request, priceUpdate, dateUpdate]

end Write

def receive (p : Product) : Write → Product
  | .price value => { p with prices := p.prices.add value }
  | .date value => { p with dates := p.dates.add value }

theorem prices_foldl_receive (p : Product) (ws : List Write) :
    (ws.foldl receive p).prices.toList =
      (ws.filterMap Write.price?).foldl addNew p.prices.toList := by
  induction ws generalizing p with
  | nil => rfl
  | cons w ws ih => cases w <;> rw [List.foldl_cons, ih] <;> rfl

theorem dates_foldl_receive (p : Product) (ws : List Write) :
    (ws.foldl receive p).dates.toList =
      (ws.filterMap Write.date?).foldl addNew p.dates.toList := by
  induction ws generalizing p with
  | nil => rfl
  | cons w ws ih => cases w <;> rw [List.foldl_cons, ih] <;> rfl

def fields (p : Product) : Fields :=
  ((((((Table.empty.insert "name" (.string p.name)).insert "price"
    (.strings p.prices.toList)).insert "desc" (.string p.description)).insert
      "complete" (.boolean p.complete)).insert "PriceCount"
        (.integer p.priceCount)).insert "Image URL"
          (.string p.imageURL)).insert "Current Date" (.strings p.dates.toList)

def historyLength (p : Product) : Nat :=
  max p.prices.toList.length p.dates.toList.length

def item (key : String) (p : Product) : GroceryItem where
  key := key
  image := some p.imageURL
  productName := some p.name
  price := (padLast p.historyLength p.prices.toList).map some
  describe := some p.description
  complete := some p.complete
  priceCount := some p.priceCount
  currentDate := (padLast p.historyLength p.dates.toList).map some

theorem length_paddedPrices (p : Product) :
    (padLast p.historyLength p.prices.toList).length = p.historyLength :=
  length_padLast p.prices.ne_nil (le_max_left _ _)

theorem length_paddedDates (p : Product) :
    (padLast p.historyLength p.dates.toList).length = p.historyLength :=
  length_padLast p.dates.ne_nil (le_max_right _ _)

/-! ## The fields of the document -/

section Fields

variable (p : Product)

@[simp] theorem find?_name :
    p.fields.find? "name" = some (.string p.name) := by
  simp [fields, Table.find?_insert]

@[simp] theorem find?_price :
    p.fields.find? "price" = some (.strings p.prices.toList) := by
  simp [fields, Table.find?_insert]

@[simp] theorem find?_desc :
    p.fields.find? "desc" = some (.string p.description) := by
  simp [fields, Table.find?_insert]

@[simp] theorem find?_complete :
    p.fields.find? "complete" = some (.boolean p.complete) := by
  simp [fields, Table.find?_insert]

@[simp] theorem find?_priceCount :
    p.fields.find? "PriceCount" = some (.integer p.priceCount) := by
  simp [fields, Table.find?_insert]

@[simp] theorem find?_imageURL :
    p.fields.find? "Image URL" = some (.string p.imageURL) := by
  simp [fields, Table.find?_insert]

@[simp] theorem find?_currentDate :
    p.fields.find? "Current Date" = some (.strings p.dates.toList) := by
  simp [fields]

end Fields

/-! ## Requests on represented products -/

theorem applyTo_request (p : Product) (id : String) (w : Write) :
    (w.request id).applyTo p.fields = (p.receive w).fields := by
  apply Table.ext_find?
  intro field
  cases w with
  | price value =>
      rw [Write.request, Update.find?_applyTo, priceUpdate, find?_price,
        ArrayTransform.apply_strings]
      split
      next h =>
        subst h
        simp [receive]
      next h => simp [fields, receive, Table.find?_insert, h]
  | date value =>
      rw [Write.request, Update.find?_applyTo, dateUpdate, find?_currentDate,
        ArrayTransform.apply_strings]
      split
      next h =>
        subst h
        simp [receive]
      next h => simp [fields, receive, Table.find?_insert, h]

theorem foldl_applyTo_request (p : Product) (id : String) (ws : List Write) :
    (ws.map (Write.request id)).foldl (fun data u => u.applyTo data) p.fields =
      (ws.foldl receive p).fields := by
  induction ws generalizing p with
  | nil => rfl
  | cons w ws ih =>
      rw [List.map_cons, List.foldl_cons, applyTo_request, ih, List.foldl_cons]

theorem downloadURLCompleted_initialDoc {Data : Type}
    (upload : Upload Data) (name price description url price_Time : String)
    (h : upload.uploadDoc = PopUController.initialDoc name price description) :
    PopUController.downloadURLCompleted upload (some url) price_Time =
      .ok (created name price description url price_Time).fields := by
  rw [PopUController.downloadURLCompleted, h]
  rfl

/-- A create writes the document of a new product, or nothing when there is
no picture to upload. -/
theorem createdDoc_eq_ok {UIImage Data : Type}
    {jpegData : UIImage → Option Data} {form : PopUController UIImage}
    {url price_Time : String} {doc : Option Fields}
    (h : form.createdDoc jpegData url price_Time = .ok doc) :
    (¬ form.HasPicture jpegData ∧ doc = none) ∨
      ∃ name price description, form.HasPicture jpegData ∧
        form.productName = some name ∧ form.productPrice = some price ∧
        form.productTxtFLD = some description ∧
        doc = some (created name price description url price_Time).fields := by
  unfold PopUController.createdDoc at h
  obtain ⟨upload, hupload, h⟩ := bind_eq_ok.mp h
  obtain ⟨image, name, price, description, himage, hname, hprice, hdescription,
    rfl⟩ := PopUController.updateBtnPressed_eq_ok.mp hupload
  cases hdata : jpegData image with
  | none =>
      left
      rw [hdata] at h
      cases h
      refine ⟨?_, rfl⟩
      rintro ⟨image', data, himage', hdata'⟩
      rw [himage, Option.some.injEq] at himage'
      rw [← himage', hdata] at hdata'
      cases hdata'
  | some data =>
      right
      rw [hdata] at h
      dsimp only [Option.map_some] at h
      rw [downloadURLCompleted_initialDoc _ name price description _ _ rfl,
        ok_bind, pure_eq_ok, Except.ok.injEq] at h
      exact ⟨name, price, description, ⟨image, data, himage, hdata⟩, hname,
        hprice, hdescription, h.symm⟩

theorem createdDoc_eq_some {UIImage Data : Type}
    {jpegData : UIImage → Option Data} {form : PopUController UIImage}
    {url price_Time price : String} {doc : Fields}
    (h : form.createdDoc jpegData url price_Time = .ok (some doc))
    (hprice : form.productPrice = some price) :
    ∃ name description,
      doc = (created name price description url price_Time).fields := by
  rcases createdDoc_eq_ok h with
    ⟨-, hnone⟩ | ⟨name, price', description, -, -, hprice', -, hdoc⟩
  · cases hnone
  · rw [hprice, Option.some.injEq] at hprice'
    rw [hprice']
    exact ⟨name, description, Option.some.inj hdoc⟩

/-! ## Loading a represented product -/

theorem initDocument_fields (key : String) (p : Product) :
    GroceryItem.initDocument ⟨key, p.fields⟩ =
      { key
        image := some p.imageURL
        productName := some p.name
        price := p.prices.toList.map some
        describe := some p.description
        complete := some p.complete
        priceCount := some p.priceCount
        currentDate := p.dates.toList.map some } := by
  simp [GroceryItem.initDocument]

theorem paddable_fields (key : String) (p : Product) :
    (GroceryItem.initDocument ⟨key, p.fields⟩).Paddable := by
  intro _
  simp [initDocument_fields, p.prices.ne_nil, p.dates.ne_nil]

theorem padded_fields (key : String) (p : Product) :
    (GroceryItem.initDocument ⟨key, p.fields⟩).padded = p.item key := by
  rw [initDocument_fields, GroceryItem.padded, item, map_padLast, map_padLast]
  simp [GroceryItem.historyLength, historyLength]

end Product

/-- The products of the collection under their document IDs. -/
abbrev Catalog := Table String Product

def documentsOf (products : Catalog) : Collection :=
  products.map Product.fields

section Catalog

variable (products : Catalog) (id : String)

@[simp] theorem keys_documentsOf :
    (documentsOf products).keys = products.keys :=
  Table.keys_map _ _

theorem find?_documentsOf :
    (documentsOf products).find? id = (products.find? id).map Product.fields :=
  Table.find?_map _ _ _

theorem setData_documentsOf (p : Product) :
    (documentsOf products).setData id p.fields =
      documentsOf (products.insert id p) :=
  (Table.map_insert _ _ _ _).symm

theorem delete_documentsOf :
    (documentsOf products).delete id = documentsOf (products.erase id) :=
  (Table.map_erase _ _ _).symm

theorem modify_documentsOf (w : Product.Write) :
    (documentsOf products).modify id (w.request id).applyTo =
      documentsOf (products.modify id (fun p => p.receive w)) :=
  (Table.map_modify _ (fun p => (p.applyTo_request id w).symm) _ _).symm

theorem updateData_documentsOf (w : Product.Write) (h : id ∈ products.keys) :
    (documentsOf products).updateData (w.request id) =
      some (documentsOf (products.modify id (fun p => p.receive w))) := by
  rw [Collection.updateData_eq_some, Product.Write.documentID_request,
    keys_documentsOf, modify_documentsOf]
  exact ⟨h, rfl⟩

theorem updateData_documentsOf_getD (w : Product.Write) :
    ((documentsOf products).updateData (w.request id)).getD
        (documentsOf products) =
      documentsOf (products.modify id (fun p => p.receive w)) := by
  by_cases h : id ∈ products.keys
  · rw [updateData_documentsOf products id w h, Option.getD_some]
  · have hnone : products.find? id = none := Table.find?_eq_none.mpr h
    have hsame : products.modify id (fun p => p.receive w) = products :=
      Table.modify_of_find? fun v hv => by simp [hnone] at hv
    rw [hsame, Collection.updateData, if_neg (by simpa using h)]
    rfl

theorem getDocuments_documentsOf : (documentsOf products).getDocuments =
    products.entries.map fun e => ⟨e.1, e.2.fields⟩ := by
  simp [documentsOf, Collection.getDocuments, Table.map]

/-- Loading the documents of products never traps and yields one row a
product, in the order of the keys. -/
theorem loadItems_documentsOf :
    GroceryListTableViewController.loadItems
        (documentsOf products).getDocuments =
      .ok (products.entries.map fun e => e.2.item e.1) := by
  rw [getDocuments_documentsOf,
    GroceryListTableViewController.loadItems_eq_ok]
  constructor
  · intro d hd
    obtain ⟨e, -, rfl⟩ := List.mem_map.mp hd
    exact e.2.paddable_fields e.1
  · simp [Product.padded_fields, Function.comp_def]

end Catalog

end Grocr
