import Grocr.Product
import Grocr.Proofs.Modify
import Grocr.Store
/-!
# Every reachable collection is a catalog

Whatever order the writers' requests arrive in, and whichever of them fail,
the collection stays the image of a catalog: each document keeps its fixed
fields and two histories that are not empty.  Loading is therefore safe and
exact on every reachable store.
-/

namespace Grocr

open Support Support.Swift Firestore

namespace Store

variable {UIImage Data : Type} {jpegData : UIImage → Option Data}

/-- The documents are those of `products`, and every request under way carries
a price or a date. -/
structure Represents (s : Store) (products : Catalog) : Prop where
  documents : s.documents = documentsOf products
  pending : ∀ u ∈ s.pending, ∃ id w, u = Product.Write.request id w

inductive Effect (jpegData : UIImage → Option Data) :
    Event UIImage → Catalog → Catalog → Prop
  | create {products : Catalog} {id url price : String}
      {form : PopUController UIImage} {price_Time : CalendarDate}
      (name description : String) :
      form.HasPicture jpegData →
      form.productPrice = some price →
      Effect jpegData (.create id form url price_Time) products
        (products.insert id
          (.created name price description url price_Time.string))
  | noPicture {products : Catalog} {id url : String}
      {form : PopUController UIImage} {price_Time : CalendarDate} :
      ¬ form.HasPicture jpegData →
      Effect jpegData (.create id form url price_Time) products products
  | modify {products : Catalog} {detail : DetailViewController UIImage}
      {snapshot : Option (List Document)} :
      Effect jpegData (.modify detail snapshot) products products
  | delivered {products : Catalog} {id : String} {w : Product.Write} :
      Effect jpegData (.delivered (w.request id)) products
        (products.modify id (fun p => p.receive w))
  | failed {products : Catalog} {u : Update} :
      Effect jpegData (.failed u) products products
  | delete {products : Catalog} {id : String} :
      Effect jpegData (.delete id) products (products.erase id)

theorem represents_empty : empty.Represents Table.empty :=
  ⟨rfl, by simp [empty]⟩

/-- A step on documents is a step on the products they represent. -/
theorem step_effect {s s' : Store} {products : Catalog} {e : Event UIImage}
    (h : s.Represents products) (henabled : s.enabled e)
    (hstep : step jpegData s e = .ok s') :
    ∃ products', Effect jpegData e products products' ∧
      s'.Represents products' := by
  cases e with
  | create id form url price_Time =>
      rw [step] at hstep
      obtain ⟨uploadDoc, hdoc, hstep⟩ := bind_eq_ok.mp hstep
      rcases Product.createdDoc_eq_ok hdoc with
        ⟨hpicture, rfl⟩ |
          ⟨name, price, description, hpicture, -, hprice, -, rfl⟩
      · cases hstep
        exact ⟨products, .noPicture hpicture, h⟩
      · cases hstep
        refine ⟨_, .create name description hpicture hprice, ?_, h.pending⟩
        rw [h.documents, setData_documentsOf]
  | modify detail snapshot =>
      rw [step] at hstep
      obtain ⟨⟨requests, detail'⟩, hrequests, hstep⟩ := bind_eq_ok.mp hstep
      cases hstep
      refine ⟨products, .modify, h.documents, fun u hu => ?_⟩
      rcases List.mem_append.mp hu with hu | hu
      · exact h.pending u hu
      · exact DetailViewController.mem_modifyPressed hrequests hu
  | delivered u =>
      obtain ⟨id, w, rfl⟩ := h.pending u henabled
      cases hstep
      refine ⟨_, .delivered, ?_, fun v hv => ?_⟩
      · rw [h.documents, updateData_documentsOf_getD]
      · exact h.pending v (List.mem_of_mem_erase hv)
  | failed u =>
      cases hstep
      exact ⟨products, .failed, h.documents, fun v hv =>
        h.pending v (List.mem_of_mem_erase hv)⟩
  | delete id =>
      cases hstep
      refine ⟨_, .delete, ?_, h.pending⟩
      rw [h.documents, delete_documentsOf]

theorem represents_of_reachable {s : Store}
    (h : (machine jpegData).Reachable empty s) :
    ∃ products, s.Represents products := by
  refine h.invariant (I := fun s => ∃ products, s.Represents products)
    ⟨Table.empty, represents_empty⟩ ?_
  rintro u e v ⟨products, hproducts⟩ henabled hstep
  obtain ⟨products', -, hproducts'⟩ := step_effect hproducts henabled hstep
  exact ⟨products', hproducts'⟩

/-! ## What loading makes of a document -/

/-- `loaded` is the stored list, extended to length `n` by its last element. -/
structure Extends (stored : List String) (n : Nat)
    (loaded : List (Option String)) : Prop where
  length : loaded.length = n
  starts : stored.map some <+: loaded
  rest : ∀ i, stored.length ≤ i → i < n →
    ∃ x, stored.getLast? = some x ∧ loaded[i]? = some (some x)

structure LoadedFrom (document : Document) (item : GroceryItem) : Prop where
  key : item.key = document.documentID
  image : document.data.find? "Image URL" = item.image.map .string
  productName : document.data.find? "name" = item.productName.map .string
  describe : document.data.find? "desc" = item.describe.map .string
  complete : document.data.find? "complete" = item.complete.map .boolean
  priceCount : document.data.find? "PriceCount" = item.priceCount.map .integer
  histories : ∃ prices dates,
    document.data.find? "price" = some (.strings prices) ∧
    document.data.find? "Current Date" = some (.strings dates) ∧
    Extends prices (max prices.length dates.length) item.price ∧
    Extends dates (max prices.length dates.length) item.currentDate

theorem extends_padLast (xs : FirstSeen String) {n : Nat}
    (h : xs.toList.length ≤ n) :
    Extends xs.toList n ((padLast n xs.toList).map some) where
  length := by rw [List.length_map, length_padLast xs.ne_nil h]
  starts := (prefix_padLast n xs.toList).map some
  rest i hi hn := by
    refine ⟨xs.last, xs.getLast?_eq, ?_⟩
    rw [List.getElem?_map, getElem?_padLast hi hn, xs.getLast?_eq,
      Option.map_some]

theorem loadedFrom_item (key : String) (p : Product) :
    LoadedFrom ⟨key, p.fields⟩ (p.item key) where
  key := rfl
  image := p.find?_imageURL
  productName := p.find?_name
  describe := p.find?_desc
  complete := p.find?_complete
  priceCount := p.find?_priceCount
  histories := ⟨p.prices.toList, p.dates.toList, p.find?_price,
    p.find?_currentDate, extends_padLast p.prices (le_max_left _ _),
    extends_padLast p.dates (le_max_right _ _)⟩

/-- Loading a reachable collection does not trap, and yields for each document
its own fields and its two histories at the length of the longer one. -/
theorem queryCompleted_of_reachable {s : Store}
    (h : (machine jpegData).Reachable empty s)
    (self : GroceryListTableViewController) :
    ∃ self', self.queryCompleted (some s.documents.getDocuments) = .ok self' ∧
      List.Forall₂ LoadedFrom s.documents.getDocuments self'.items := by
  obtain ⟨products, hproducts⟩ := represents_of_reachable h
  rw [hproducts.documents]
  refine ⟨_, self.queryCompleted_of_loadItems
    (loadItems_documentsOf products), ?_⟩
  dsimp only
  rw [getDocuments_documentsOf, List.forall₂_map_left_iff,
    List.forall₂_map_right_iff, List.forall₂_same]
  exact fun e _ => loadedFrom_item e.1 e.2

def march8 : CalendarDate := ⟨2021, 3, 8, by decide, by decide⟩

/-- One product is created, its second price arrives and the date sent with
it does not. -/
def unevenRun : List (Event Unit) :=
  [.create "A" ⟨some (), some "apple", some "100", some "red"⟩ "u" march8,
    .modify
      ⟨none, none, none, none, (), none, some ⟨0, 0⟩,
        ⟨some "2021.03.09", none⟩, ⟨some "120", none⟩⟩
      (some [⟨"A", Table.empty⟩]),
    .delivered ⟨"A", "price", [.string "120"]⟩,
    .failed ⟨"A", "Current Date", [.string "2021.03.09"]⟩]

def unevenDocuments : Collection :=
  Table.empty.insert "A"
    ((Product.created "apple" "100" "red" "u" "2021.03.08").receive
      (.price "120")).fields

theorem queryCompleted_of_reachable_uneven :
    ∃ self', GroceryListTableViewController.initial.queryCompleted
        (some unevenDocuments.getDocuments) = .ok self' ∧
      List.Forall₂ LoadedFrom unevenDocuments.getDocuments self'.items := by
  have hrun : (machine (some : Unit → Option Unit)).Reachable empty
      ⟨unevenDocuments, []⟩ :=
    ⟨unevenRun, Machine.run_of_replay (by decide)⟩
  exact queryCompleted_of_reachable hrun _

end Store

end Grocr
