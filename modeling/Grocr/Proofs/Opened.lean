import Grocr.Proofs.History
import Grocr.Proofs.Readable
/-!
# The product that was opened and the document that is updated

The list hands a product to the detail screen together with its row number,
and `modifyPressed` reads that row of a later snapshot.  The two meet exactly
when the product's document still stands in the same row.
-/

namespace Grocr

open Support Support.Swift Firestore

/-- What any client may do to the documents meanwhile. -/
inductive Change
  | create (id : String) (data : Fields)
  | delete (id : String)

def Change.apply (c : Collection) : Change → Collection
  | .create id data => c.setData id data
  | .delete id => c.delete id

section Opened

variable {URL Data UIImage Double : Type} {F : Foundation Double}
  {I : ImageLoading URL Data UIImage}

structure Opened (F : Foundation Double) (I : ImageLoading URL Data UIImage)
    (loaded : Collection) where
  items : List GroceryItem
  row : Nat
  item : GroceryItem
  detail : DetailViewController UIImage
  screen : DetailScreen UIImage Double
  load : GroceryListTableViewController.loadItems loaded.getDocuments =
    .ok items
  at_row : items[row]? = some item
  opened : GroceryListTableViewController.openRow F I items row =
    .ok (detail, screen)

/-- Nothing but the document `key` is updated, nothing at all if it is gone,
and nothing traps. -/
def HitsOnly (key : String) (current : Collection)
    (result : Except Trap (List Update × DetailViewController UIImage)) :
    Prop :=
  ∃ requests self', result = .ok (requests, self') ∧
    (∀ u ∈ requests, u.documentID = key) ∧
    (key ∉ current.keys → requests = [])

theorem indexPathInt_openRow {items : List GroceryItem} {row : Nat}
    {detail : DetailViewController UIImage} {screen : DetailScreen UIImage Double}
    (h : GroceryListTableViewController.openRow F I items row =
      .ok (detail, screen)) :
    detail.indexPathInt = some ⟨0, row⟩ := by
  unfold GroceryListTableViewController.openRow at h
  obtain ⟨cell, -, h⟩ := bind_eq_ok.mp h
  obtain ⟨selected, -, h⟩ := bind_eq_ok.mp h
  obtain ⟨selection, -, h⟩ := bind_eq_ok.mp h
  obtain ⟨prepared, hprepared, h⟩ := bind_eq_ok.mp h
  obtain ⟨loaded, -, h⟩ := bind_eq_ok.mp h
  cases h
  unfold GroceryListTableViewController.prepare at hprepared
  obtain ⟨-, -, hprepared⟩ := bind_eq_ok.mp hprepared
  obtain ⟨-, -, hprepared⟩ := bind_eq_ok.mp hprepared
  obtain ⟨image, -, hprepared⟩ := bind_eq_ok.mp hprepared
  cases hprepared
  rfl

namespace Opened

variable {loaded : Collection} (o : Opened F I loaded)

theorem rank_key : loaded.rank o.item.key = o.row := by
  have hrow : (loaded.getDocuments[o.row]?).map Document.documentID =
      some o.item.key := by
    obtain ⟨-, hitems⟩ :=
      GroceryListTableViewController.loadItems_eq_ok.mp o.load
    have hat := o.at_row
    rw [hitems, List.getElem?_map, Option.map_eq_some_iff] at hat
    obtain ⟨document, hdocument, hitem⟩ := hat
    rw [hdocument, Option.map_some, ← hitem]
    rfl
  exact (Collection.documentID_getElem?_iff.mp hrow).2

/-- `modifyPressed` after the popup was opened on `date` and `price` and
`text` were typed into it; its snapshot is `current`. -/
def press (date price text : String) (current : Collection) :
    Except Trap (List Update × DetailViewController UIImage) :=
  ((o.detail.modifyBtnPressed date).enter price text).modifyPressed
    (some current.getDocuments)

theorem press_eq (date price text : String) (current : Collection) :
    (∃ id self', (current.getDocuments[o.row]?).map Document.documentID =
        some id ∧
      o.press date price text current =
        .ok ([DetailViewController.priceUpdate id price,
          DetailViewController.dateUpdate id
            (if text = "" then date else text)], self')) ∨
      (current.getDocuments[o.row]? = none ∧
        o.press date price text current = .error .indexOutOfRange) := by
  set typed := (o.detail.modifyBtnPressed date).enter price text with htyped
  have hindex : typed.indexPathInt = some ⟨0, o.row⟩ := by
    have hopened := indexPathInt_openRow o.opened
    exact hopened
  have hprice : typed.priceTxtFd.text = some price := rfl
  rw [press, ← htyped, typed.modifyPressed_some (by simp [hprice]) hindex]
  cases hdocument : current.getDocuments[o.row]? with
  | none => exact .inr ⟨rfl, rfl⟩
  | some document =>
      have hdate : typed.submittedDate =
          some (if text = "" then date else text) :=
        DetailViewController.submittedDate_enter o.detail date price text
      obtain ⟨self', hself⟩ := typed.updatePriceAndDate_of
        document.documentID hprice hdate
      exact .inl ⟨document.documentID, self', rfl, hself⟩

/-- Only the opened product is updated exactly when its document is still
there, with as many documents before it as when the list was loaded. -/
theorem hitsOnly_iff (changes : List Change) (date price text : String) :
    HitsOnly o.item.key (changes.foldl Change.apply loaded)
        (o.press date price text (changes.foldl Change.apply loaded)) ↔
      o.item.key ∈ (changes.foldl Change.apply loaded).keys ∧
        (changes.foldl Change.apply loaded).rank o.item.key =
          loaded.rank o.item.key := by
  set current := changes.foldl Change.apply loaded
  rw [o.rank_key, ← Collection.documentID_getElem?_iff]
  rcases o.press_eq date price text current with
    ⟨id, self', hid, hpress⟩ | ⟨hnone, hpress⟩
  · rw [hid, hpress, Option.some.injEq]
    constructor
    · rintro ⟨requests, self'', heq, hall, -⟩
      cases heq
      exact hall _ (List.mem_cons_self ..)
    · rintro rfl
      refine ⟨_, _, rfl, by simp [DetailViewController.priceUpdate,
        DetailViewController.dateUpdate], fun hgone => ?_⟩
      exact absurd (Collection.documentID_getElem?_iff.mp hid).1 hgone
  · rw [hnone, hpress]
    constructor
    · rintro ⟨requests, self', heq, -⟩
      cases heq
    · intro h
      cases h

end Opened

end Opened

/-! ## A document that sorts before the opened one -/

def openedApple :
    Opened Foundation.ascii Store.pictures
      (Table.empty.insert "M" apple.fields) where
  items := [apple.item "M"]
  row := 0
  item := apple.item "M"
  detail :=
    ⟨some "apple", some "100", some ["100"], some ["2021.03.08"], (),
      some ["08"], some ⟨0, 0⟩, .initial, .initial⟩
  screen :=
    ⟨"apple", some "100", (), "2021.03월", ["08"], [⟨0, 100⟩], 1⟩
  load := by decide
  at_row := rfl
  opened := rfl

/-- A pear is created under an ID that sorts first. -/
def pear : Product := .created "pear" "70" "green" "v" "2021.03.09"

theorem openedApple_hits_pear :
    (∃ self', openedApple.press "2021.03.09" "120" ""
        ([Change.create "A" pear.fields].foldl Change.apply
          (Table.empty.insert "M" apple.fields)) =
      .ok ([DetailViewController.priceUpdate "A" "120",
        DetailViewController.dateUpdate "A" "2021.03.09"], self')) ∧
      ¬ HitsOnly openedApple.item.key
        ([Change.create "A" pear.fields].foldl Change.apply
          (Table.empty.insert "M" apple.fields))
        (openedApple.press "2021.03.09" "120" ""
          ([Change.create "A" pear.fields].foldl Change.apply
            (Table.empty.insert "M" apple.fields))) := by
  refine ⟨⟨_, rfl⟩, ?_⟩
  rintro ⟨requests, self', hpress, hall, -⟩
  cases hpress
  exact absurd (hall _ (List.mem_cons_self ..)) (by decide)

end Grocr
