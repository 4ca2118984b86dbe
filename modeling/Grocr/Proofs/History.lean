import Grocr.Proofs.Store
/-!
# Which histories survive storage

A create and the modifications after it are a sequence of records, each a
price with its date.  Array union keeps the first occurrence of each price and
of each date; loading repeats the last value of the shorter history.  Here is
which sequences come back.
-/

namespace Grocr

open Support Support.Swift Firestore

/-- One of the two columns has no repeated value, and the other has none until
it stays at the value it reached. -/
def Survives (records : List (String × String)) : Prop :=
  ((records.map Prod.fst).Nodup ∧ Settles (records.map Prod.snd)) ∨
    ((records.map Prod.snd).Nodup ∧ Settles (records.map Prod.fst))

namespace Product

/-- Both requests of a modification have arrived. -/
def record (p : Product) (r : String × String) : Product :=
  (p.receive (.price r.1)).receive (.date r.2)

/-- The product keeps the first occurrences of what was recorded. -/
structure Keeps (p : Product) (records : List (String × String)) : Prop where
  prices : p.prices.toList = (records.map Prod.fst).eraseDups
  dates : p.dates.toList = (records.map Prod.snd).eraseDups

theorem keeps_created (name price description url date : String) :
    (created name price description url date).Keeps [(price, date)] := by
  have hone : ∀ s : String, [s].eraseDups = [s] := fun s =>
    eraseDups_of_nodup (List.nodup_singleton s)
  exact ⟨(hone price).symm, (hone date).symm⟩

theorem Keeps.record {p : Product} {records : List (String × String)}
    (h : p.Keeps records) (r : String × String) :
    (p.record r).Keeps (records ++ [r]) where
  prices := by
    simp only [Product.record, receive, FirstSeen.toList_add, h.prices,
      addNew_eraseDups, List.map_append, List.map_cons, List.map_nil]
  dates := by
    simp only [Product.record, receive, FirstSeen.toList_add, h.dates,
      addNew_eraseDups, List.map_append, List.map_cons, List.map_nil]

theorem Keeps.item_iff {p : Product} {records : List (String × String)}
    (h : p.Keeps records) (hne : records ≠ []) (key : String) :
    ((p.item key).price = records.map (fun r => some r.1) ∧
        (p.item key).currentDate = records.map (fun r => some r.2)) ↔
      Survives records := by
  have hprices : records.map (fun r => some r.1) =
      (records.map Prod.fst).map some := by
    simp
  have hdates : records.map (fun r => some r.2) =
      (records.map Prod.snd).map some := by
    simp
  have hinj : ∀ s t : String, some s = some t → s = t := fun _ _ =>
    Option.some.inj
  rw [hprices, hdates, item, List.map_inj_right hinj,
    List.map_inj_right hinj, historyLength, h.prices, h.dates]
  exact padLast_max_eraseDups_iff (by simp) (by simpa using hne)

end Product

def apple : Product := .created "apple" "100" "red" "u" "2021.03.08"

/-! ## One product in the store -/

variable {UIImage Data : Type} {jpegData : UIImage → Option Data}

/-- What the app does to the other documents of the collection. -/
inductive Elsewhere (jpegData : UIImage → Option Data) (id : String) :
    Collection → Collection → Prop
  | create {c : Collection} {other url price_Time : String} {doc : Fields}
      (form : PopUController UIImage) :
      other ≠ id →
      form.createdDoc jpegData url price_Time = .ok (some doc) →
      Elsewhere jpegData id c (c.setData other doc)
  | update {c c' : Collection} {other : String} (w : Product.Write) :
      other ≠ id →
      c.updateData (w.request other) = some c' →
      Elsewhere jpegData id c c'
  | delete {c : Collection} {other : String} :
      other ≠ id → Elsewhere jpegData id c (c.delete other)

/-- `Recorded jpegData id c records`: the product `id` was created in a store
that the app had written, and modified one time after another, each time from
a screen opened on its row and with both requests succeeding; `c` is the
collection now.  Other products come, change and go in between. -/
inductive Recorded (jpegData : UIImage → Option Data) (id : String) :
    Collection → List (String × String) → Prop
  | create {s : Store} {doc : Fields} {price price_Time : String}
      (form : PopUController UIImage) (url : String) :
      (Store.machine jpegData).Reachable Store.empty s →
      id ∉ s.documents.keys →
      form.createdDoc jpegData url price_Time = .ok (some doc) →
      form.productPrice = some price →
      Recorded jpegData id (s.documents.setData id doc) [(price, price_Time)]
  | modify {c c' : Collection} {records : List (String × String)}
      {detail' : DetailViewController UIImage} {indexPath : IndexPath}
      {price date : String} {requests : List Update}
      (detail : DetailViewController UIImage) :
      Recorded jpegData id c records →
      detail.indexPathInt = some indexPath →
      indexPath.row = c.rank id →
      detail.priceTxtFd.text = some price →
      detail.submittedDate = some date →
      detail.modifyPressed (some c.getDocuments) = .ok (requests, detail') →
      requests.foldlM Collection.updateData c = some c' →
      Recorded jpegData id c' (records ++ [(price, date)])
  | elsewhere {c c' : Collection} {records : List (String × String)} :
      Recorded jpegData id c records →
      Elsewhere jpegData id c c' →
      Recorded jpegData id c' records

theorem Elsewhere.exists_catalog {products : Catalog} {id : String}
    {c : Collection} (h : Elsewhere jpegData id (documentsOf products) c) :
    ∃ products', c = documentsOf products' ∧
      products'.find? id = products.find? id := by
  cases h with
  | create form hne hdoc =>
      rcases Product.createdDoc_eq_ok hdoc with
        ⟨-, hnone⟩ | ⟨name, price, description, -, -, -, -, hsome⟩
      · cases hnone
      · rw [Option.some.injEq] at hsome
        subst hsome
        exact ⟨_, setData_documentsOf products _ _,
          Table.find?_insert_of_ne products _ hne.symm⟩
  | update w hne hupdate =>
      obtain ⟨-, rfl⟩ := Collection.updateData_eq_some.mp hupdate
      rw [Product.Write.documentID_request, modify_documentsOf]
      exact ⟨_, rfl, by rw [Table.find?_modify, if_neg hne.symm]⟩
  | delete hne =>
      exact ⟨_, delete_documentsOf products _, by
        rw [Table.find?_erase, if_neg hne.symm]⟩

theorem foldlM_updateData_record {products : Catalog} {id : String}
    (hmem : id ∈ products.keys) (price date : String) :
    [DetailViewController.priceUpdate id price,
        DetailViewController.dateUpdate id date].foldlM Collection.updateData
        (documentsOf products) =
      some (documentsOf
        (products.modify id (fun p => p.record (price, date)))) := by
  have hprice := updateData_documentsOf products id (.price price) hmem
  have hdate := updateData_documentsOf
    (products.modify id (fun p => p.receive (.price price))) id (.date date)
    (by rwa [Table.keys_modify])
  rw [Table.modify_modify] at hdate
  calc
    [DetailViewController.priceUpdate id price,
        DetailViewController.dateUpdate id date].foldlM Collection.updateData
        (documentsOf products) =
        ((documentsOf products).updateData
          (Product.Write.request id (.price price))).bind fun c =>
            c.updateData (Product.Write.request id (.date date)) := by
      simp only [List.foldlM_cons, List.foldlM_nil, bind_pure]
      rfl
    _ = (documentsOf (products.modify id fun p =>
          p.receive (.price price))).updateData
            (Product.Write.request id (.date date)) := by
      rw [hprice, Option.bind_some]
    _ = some (documentsOf
        (products.modify id (fun p => p.record (price, date)))) := hdate

theorem Recorded.exists_product {id : String} {c : Collection}
    {records : List (String × String)} (h : Recorded jpegData id c records) :
    ∃ products p, c = documentsOf products ∧
      products.find? id = some p ∧ p.Keeps records ∧ records ≠ [] := by
  induction h with
  | @create s doc price price_Time form url hreachable hid hdoc hprice =>
      obtain ⟨products, hproducts⟩ := Store.represents_of_reachable hreachable
      obtain ⟨name, description, rfl⟩ :=
        Product.createdDoc_eq_some hdoc hprice
      refine ⟨_, _, ?_, Table.find?_insert_self products id _,
        Product.keeps_created name price description url price_Time, by simp⟩
      rw [hproducts.documents, setData_documentsOf]
  | @modify c c' records detail' indexPath price date requests detail _ hindex
      hrow hprice hdate hpressed hsuccess ih =>
      obtain ⟨products, p, rfl, hp, hkeeps, -⟩ := ih
      have hfind : (documentsOf products).find? id = some p.fields := by
        rw [find?_documentsOf, hp, Option.map_some]
      have hmem : id ∈ products.keys := Table.mem_keys_iff_find?.mpr ⟨p, hp⟩
      -- the row is the product's, so both requests name it
      rw [detail.modifyPressed_some (by simp [hprice]) hindex, hrow,
        Collection.getDocuments_getElem?_rank hfind] at hpressed
      obtain ⟨price', date', hprice', hdate', rfl⟩ :=
        detail.updatePriceAndDate_eq_ok hpressed
      rw [hprice, Option.some.injEq] at hprice'
      rw [hdate, Option.some.injEq] at hdate'
      subst hprice' hdate'
      rw [foldlM_updateData_record hmem, Option.some.injEq] at hsuccess
      refine ⟨_, p.record (price, date), hsuccess.symm, ?_,
        hkeeps.record (price, date), by simp⟩
      rw [Table.find?_modify, if_pos rfl, hp, Option.map_some]
  | elsewhere _ helsewhere ih =>
      obtain ⟨products, p, rfl, hp, hkeeps, hne⟩ := ih
      obtain ⟨products', rfl, hsame⟩ := helsewhere.exists_catalog
      exact ⟨products', p, rfl, hsame.trans hp, hkeeps, hne⟩

theorem Recorded.exists_item {id : String} {c : Collection}
    {records : List (String × String)} (h : Recorded jpegData id c records) :
    ∃ self', ∃ p : Product,
      GroceryListTableViewController.initial.queryCompleted
          (some c.getDocuments) = .ok self' ∧
        self'.items[c.rank id]? = some (p.item id) ∧
        p.Keeps records ∧ records ≠ [] := by
  obtain ⟨products, p, rfl, hp, hkeeps, hne⟩ := h.exists_product
  have hload := GroceryListTableViewController.initial.queryCompleted_of_loadItems
    (loadItems_documentsOf products)
  have hrank : (documentsOf products).rank id = products.rank id :=
    Table.rank_map _ _ _
  refine ⟨_, p, hload, ?_, hkeeps, hne⟩
  rw [hrank, List.getElem?_map,
    Table.getElem?_rank (Table.find?_eq_some.mp hp), Option.map_some]

/-- What the list shows for the product is what was recorded exactly when the
records survive. -/
theorem item_eq_records_iff_survives {id : String} {c : Collection}
    {records : List (String × String)} (h : Recorded jpegData id c records) :
    (∃ self' item,
        GroceryListTableViewController.initial.queryCompleted
          (some c.getDocuments) = .ok self' ∧
        self'.items[c.rank id]? = some item ∧ item.key = id ∧
        item.price = records.map (fun r => some r.1) ∧
        item.currentDate = records.map (fun r => some r.2)) ↔
      Survives records := by
  obtain ⟨loaded, p, hload, hitem, hkeeps, hne⟩ := h.exists_item
  rw [← hkeeps.item_iff hne id]
  constructor
  · rintro ⟨self', item, hself, hat, -, hprices, hdates⟩
    rw [hload] at hself
    cases hself
    rw [hitem, Option.some.injEq] at hat
    subst hat
    exact ⟨hprices, hdates⟩
  · rintro ⟨hprices, hdates⟩
    exact ⟨_, p.item id, hload, hitem, rfl, hprices, hdates⟩

/-- The apple costs 120 on the second day and 100 again on the third. -/
def appleRecords : List (String × String) :=
  [("100", "2021.03.08"), ("120", "2021.03.09"), ("100", "2021.03.10")]

def appleAgain : Product :=
  (apple.record ("120", "2021.03.09")).record ("100", "2021.03.10")

def appleDocuments (p : Product) : Collection :=
  Table.empty.insert "A" p.fields

/-- The detail screen of the first row with both fields filled in. -/
def firstRowScreen (price date : String) : DetailViewController Unit :=
  ⟨none, none, none, none, (), none, some ⟨0, 0⟩, ⟨some date, none⟩,
    ⟨some price, none⟩⟩

theorem recorded_appleAgain :
    Recorded (some : Unit → Option Unit) "A" (appleDocuments appleAgain)
      appleRecords := by
  have hcreate : Recorded (some : Unit → Option Unit) "A"
      (appleDocuments apple) [("100", "2021.03.08")] :=
    .create ⟨some (), some "apple", some "100", some "red"⟩ "u"
      ⟨[], .nil _⟩ (by decide) (by decide) rfl
  have hsecond : Recorded (some : Unit → Option Unit) "A"
      (appleDocuments (apple.record ("120", "2021.03.09")))
      ([("100", "2021.03.08")] ++ [("120", "2021.03.09")]) :=
    hcreate.modify (firstRowScreen "120" "2021.03.09") rfl (by decide) rfl
      (by decide) rfl (by decide)
  exact hsecond.modify (firstRowScreen "100" "2021.03.10") rfl (by decide) rfl
    (by decide) rfl (by decide)

theorem item_eq_records_iff_survives_appleAgain :
    (∃ self' item,
        GroceryListTableViewController.initial.queryCompleted
          (some (appleDocuments appleAgain).getDocuments) = .ok self' ∧
        self'.items[(appleDocuments appleAgain).rank "A"]? = some item ∧
        item.key = "A" ∧
        item.price = appleRecords.map (fun r => some r.1) ∧
        item.currentDate = appleRecords.map (fun r => some r.2)) ↔
      Survives appleRecords :=
  item_eq_records_iff_survives recorded_appleAgain

theorem appleAgain_not_shown :
    Recorded (some : Unit → Option Unit) "A" (appleDocuments appleAgain)
        appleRecords ∧
      ¬ ∃ self' item,
        GroceryListTableViewController.initial.queryCompleted
          (some (appleDocuments appleAgain).getDocuments) = .ok self' ∧
        self'.items[(appleDocuments appleAgain).rank "A"]? = some item ∧
        item.key = "A" ∧
        item.price = appleRecords.map (fun r => some r.1) ∧
        item.currentDate = appleRecords.map (fun r => some r.2) := by
  refine ⟨recorded_appleAgain, ?_⟩
  rintro ⟨self', item, hself, hat, -, hprices, -⟩
  have hload : GroceryListTableViewController.initial.queryCompleted
      (some (appleDocuments appleAgain).getDocuments) =
      .ok ⟨[appleAgain.item "A"], UIVC.initial.spinnerOff⟩ := by
    decide
  rw [hload] at hself
  cases hself
  have hitem : [appleAgain.item "A"][
      (appleDocuments appleAgain).rank "A"]? = some (appleAgain.item "A") := by
    decide
  rw [hitem, Option.some.injEq] at hat
  subst hat
  have hlast : (appleAgain.item "A").price =
      [some "100", some "120", some "120"] := by
    decide
  rw [hlast] at hprices
  exact absurd hprices (by decide)

theorem Recorded.nonempty_picture {id : String} {c : Collection}
    {records : List (String × String)} (h : Recorded jpegData id c records) :
    Nonempty UIImage := by
  induction h with
  | create form _ _ _ hdoc _ =>
      rcases Product.createdDoc_eq_ok hdoc with
        ⟨-, hnone⟩ | ⟨-, -, -, ⟨image, -, -, -⟩, -⟩
      · cases hnone
      · exact ⟨image⟩
  | modify _ _ _ _ _ _ _ _ ih => exact ih
  | elsewhere _ _ ih => exact ih

theorem Recorded.exists_modify {id : String} {c : Collection}
    {records : List (String × String)} (h : Recorded jpegData id c records)
    (r : String × String) :
    ∃ c', Recorded jpegData id c' (records ++ [r]) := by
  obtain ⟨image⟩ := h.nonempty_picture
  obtain ⟨products, p, rfl, hp, -, -⟩ := h.exists_product
  have hfind : (documentsOf products).find? id = some p.fields := by
    rw [find?_documentsOf, hp, Option.map_some]
  have hmem : id ∈ products.keys := Table.mem_keys_iff_find?.mpr ⟨p, hp⟩
  let opened : DetailViewController UIImage :=
    ⟨none, none, none, none, image, none,
      some ⟨0, (documentsOf products).rank id⟩, .initial, .initial⟩
  let typed := (opened.modifyBtnPressed r.2).enter r.1 r.2
  have hprice : typed.priceTxtFd.text = some r.1 := rfl
  have hdate : typed.submittedDate = some r.2 := by
    rw [opened.submittedDate_enter, ite_self]
  obtain ⟨self', hself⟩ := typed.updatePriceAndDate_of id hprice hdate
  have hpressed : typed.modifyPressed
      (some (documentsOf products).getDocuments) =
      .ok ([DetailViewController.priceUpdate id r.1,
        DetailViewController.dateUpdate id r.2], self') := by
    rw [typed.modifyPressed_some (by simp [hprice]) rfl,
      Collection.getDocuments_getElem?_rank hfind]
    exact hself
  exact ⟨_, h.modify typed rfl rfl hprice hdate hpressed
    (foldlM_updateData_record hmem r.1 r.2)⟩

/-- Whatever has been recorded, the product is loaded, with the recorded
histories exactly when the records survive; and any record may follow. -/
theorem loaded_iff_survives {id : String} {c : Collection}
    {records : List (String × String)} (h : Recorded jpegData id c records) :
    (∃ self' item,
      GroceryListTableViewController.initial.queryCompleted
          (some c.getDocuments) = .ok self' ∧
        self'.items[c.rank id]? = some item ∧ item.key = id ∧
        (item.price = records.map (fun r => some r.1) ∧
            item.currentDate = records.map (fun r => some r.2) ↔
          Survives records)) ∧
      ∀ r, ∃ c', Recorded jpegData id c' (records ++ [r]) := by
  obtain ⟨loaded, p, hload, hitem, hkeeps, hne⟩ := h.exists_item
  exact ⟨⟨loaded, p.item id, hload, hitem, rfl, hkeeps.item_iff hne id⟩,
    h.exists_modify⟩

theorem loaded_iff_survives_appleAgain :
    (∃ self' item,
      GroceryListTableViewController.initial.queryCompleted
          (some (appleDocuments appleAgain).getDocuments) = .ok self' ∧
        self'.items[(appleDocuments appleAgain).rank "A"]? = some item ∧
        item.key = "A" ∧
        (item.price = appleRecords.map (fun r => some r.1) ∧
            item.currentDate = appleRecords.map (fun r => some r.2) ↔
          Survives appleRecords)) ∧
      ∀ r, ∃ c', Recorded (some : Unit → Option Unit) "A" c'
        (appleRecords ++ [r]) :=
  loaded_iff_survives recorded_appleAgain

end Grocr
