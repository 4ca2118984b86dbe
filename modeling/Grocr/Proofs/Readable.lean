import Grocr.Proofs.Display
import Grocr.Proofs.Store
/-!
# What the app writes and can show

A row opens when its last price is an integer, all its prices are numbers and
all its dates have ten characters.  Nothing checks a text before it is
written, so a run keeps every row openable exactly when each text that reaches
a document happens to be readable.
-/

namespace Grocr

open Support Support.Swift Firestore
open GroceryListTableViewController (ListedRow openRow)

variable {URL Data UIImage Double : Type} {F : Foundation Double}
  {I : ImageLoading URL Data UIImage}

namespace Product

structure Readable (F : Foundation Double) (p : Product) : Prop where
  int : ∀ price ∈ p.prices.toList, (F.int price).isSome
  ten_le : ∀ date ∈ p.dates.toList, 10 ≤ (F.characters date).length

/-- What opening the product's row needs. -/
structure Displays (F : Foundation Double) (p : Product) : Prop where
  int_last : (F.int p.prices.last).isSome
  double : ∀ price ∈ p.prices.toList, (F.double price).isSome
  ten_le : ∀ date ∈ p.dates.toList, 10 ≤ (F.characters date).length

def Write.Readable (F : Foundation Double) : Write → Prop
  | .price value => (F.int value).isSome
  | .date value => 10 ≤ (F.characters value).length

theorem Readable.displays {p : Product} (h : p.Readable F) : p.Displays F where
  int_last := h.int _ p.prices.last_mem
  double price hprice := F.double_of_int price (h.int price hprice)
  ten_le := h.ten_le

theorem Readable.receive {p : Product} {w : Write} (h : p.Readable F)
    (hw : w.Readable F) : (p.receive w).Readable F := by
  cases w with
  | price value =>
      refine ⟨fun price hprice => ?_, h.ten_le⟩
      rcases mem_addNew.mp hprice with hprice | rfl
      · exact h.int price hprice
      · exact hw
  | date value =>
      refine ⟨h.int, fun date hdate => ?_⟩
      rcases mem_addNew.mp hdate with hdate | rfl
      · exact h.ten_le date hdate
      · exact hw

theorem Readable.of_displays {p : Product} {w : Write} (h : p.Readable F)
    (hshown : (p.receive w).Displays F) : w.Readable F := by
  cases w with
  | price value =>
      by_cases hmem : value ∈ p.prices.toList
      · exact h.int value hmem
      · have hlast := hshown.int_last
        rwa [Product.receive, FirstSeen.last_add_of_not_mem hmem] at hlast
  | date value => exact hshown.ten_le value (mem_addNew.mpr (.inr rfl))

theorem readable_of_receive {p : Product} {w : Write}
    (h : (p.receive w).Readable F) : w.Readable F := by
  cases w with
  | price value => exact h.int value (mem_addNew.mpr (.inr rfl))
  | date value => exact h.ten_le value (mem_addNew.mpr (.inr rfl))

theorem readable_created {name price description url : String}
    {price_Time : CalendarDate} :
    (created name price description url price_Time.string).Readable F ↔
      (F.int price).isSome := by
  constructor
  · exact fun h => h.int price (by simp [created])
  · intro h
    refine ⟨by simpa [created] using h, fun date hdate => ?_⟩
    rw [created, FirstSeen.toList_singleton, List.mem_singleton] at hdate
    rw [hdate]
    exact F.ten_le_characters_date price_Time

theorem exists_listedRow {products : Catalog} {row : Nat} {id : String}
    {p : Product} (hrow : products.entries[row]? = some (id, p))
    (hloads : I.Loads p.imageURL) :
    ∃ r : ListedRow I (products.entries.map fun e => e.2.item e.1) row,
      r.prices = padLast p.historyLength p.prices.toList ∧
      r.dates = padLast p.historyLength p.dates.toList ∧
      r.lastPrice = p.prices.last := by
  have hat : (products.entries.map fun e => e.2.item e.1)[row]? =
      some (p.item id) := by
    rw [List.getElem?_map, hrow, Option.map_some]
  have hlast := (getLast?_padLast p.historyLength p.prices.toList).trans
    p.prices.getLast?_eq
  have hne : padLast p.historyLength p.prices.toList ≠ [] := by
    intro hnil
    simp [hnil] at hlast
  have hlength := p.length_paddedPrices.trans p.length_paddedDates.symm
  obtain ⟨r, hr, hr'⟩ := GroceryListTableViewController.ListedRow.exists_of_item
    hat rfl hloads rfl rfl hlength hne
  refine ⟨r, hr, hr', ?_⟩
  have hread := r.getLast?_prices
  rw [hr, hlast, Option.some.injEq] at hread
  exact hread.symm

theorem exists_openRow_iff {products : Catalog} {row : Nat} {id : String}
    {p : Product} (hrow : products.entries[row]? = some (id, p))
    (hloads : I.Loads p.imageURL) :
    (∃ out, openRow F I (products.entries.map fun e => e.2.item e.1) row =
      .ok out) ↔ p.Displays F := by
  obtain ⟨r, hprices, hdates, hlast⟩ := exists_listedRow hrow hloads
  rw [r.exists_openRow_iff, hprices, hdates, hlast]
  simp only [mem_padLast]
  exact ⟨fun ⟨hint, hdouble, hten⟩ => ⟨hint, hdouble, hten⟩,
    fun h => ⟨h.int_last, h.double, h.ten_le⟩⟩

end Product

/-! ## Collections that can be shown -/

/-- After a load, every row can be drawn, selected and opened. -/
def Shows (F : Foundation Double) (I : ImageLoading URL Data UIImage)
    (documents : Collection) : Prop :=
  ∃ self', GroceryListTableViewController.initial.queryCompleted
      (some documents.getDocuments) = .ok self' ∧
    ∀ row < documents.getDocuments.length,
      ∃ out, openRow F I self'.items row = .ok out

theorem shows_documentsOf {products : Catalog}
    (hloads : products.All fun p => I.Loads p.imageURL) :
    Shows F I (documentsOf products) ↔
      products.All (Product.Displays F) := by
  have hload := GroceryListTableViewController.initial.queryCompleted_of_loadItems
    (loadItems_documentsOf products)
  have hlength : (documentsOf products).getDocuments.length =
      products.entries.length := by
    rw [getDocuments_documentsOf, List.length_map]
  constructor
  · rintro ⟨self', hself, hrows⟩ id p hp
    rw [hload] at hself
    cases hself
    have hrow := Table.getElem?_rank (Table.find?_eq_some.mp hp)
    have hlt := (List.getElem?_eq_some_iff.mp hrow).1
    exact (Product.exists_openRow_iff hrow (hloads id p hp)).mp
      (hrows _ (hlength ▸ hlt))
  · intro h
    refine ⟨_, hload, fun row hrow => ?_⟩
    rw [hlength] at hrow
    obtain ⟨⟨id, p⟩, he⟩ : ∃ e, products.entries[row]? = some e :=
      ⟨_, List.getElem?_eq_getElem hrow⟩
    have hp : products.find? id = some p :=
      Table.find?_eq_some.mpr (List.mem_of_getElem? he)
    exact (Product.exists_openRow_iff he (hloads id p hp)).mpr (h id p hp)

namespace Store

variable {jpegData : UIImage → Option Data}

/-- The texts that an event writes into a document are readable. -/
def WritesReadable (jpegData : UIImage → Option Data) (F : Foundation Double)
    (s : Store) : Event UIImage → Prop
  | .create _ form _ _ =>
      form.HasPicture jpegData →
        ∀ price, form.productPrice = some price → (F.int price).isSome
  | .delivered u =>
      ∀ id w, u = Product.Write.request id w → id ∈ s.documents.keys →
        w.Readable F
  | _ => True

variable {s : Store} {e : Event UIImage} {products products' : Catalog}

theorem Effect.readable (h : Effect jpegData e products products')
    (hs : s.Represents products) (hold : products.All (Product.Readable F))
    (he : WritesReadable jpegData F s e) :
    products'.All (Product.Readable F) := by
  cases h with
  | create name description hpicture hprice =>
      exact hold.insert (Product.readable_created.mpr (he hpicture _ hprice))
  | @delivered _ id w =>
      refine hold.modify fun p hp => (hold id p hp).receive (he _ _ rfl ?_)
      rw [hs.documents, keys_documentsOf]
      exact Table.mem_keys_iff_find?.mpr ⟨p, hp⟩
  | delete => exact hold.erase
  | noPicture | modify | failed => exact hold

theorem Effect.readable_of_displays (h : Effect jpegData e products products')
    (hold : products.All (Product.Readable F))
    (hshown : products'.All (Product.Displays F)) :
    products'.All (Product.Readable F) := by
  cases h with
  | create name description hpicture hprice =>
      have hdisplays := hshown _ _ (Table.find?_insert_self _ _ _)
      exact hold.insert (Product.readable_created.mpr hdisplays.int_last)
  | @delivered _ id w =>
      refine hold.modify fun p hp => ?_
      have hdisplays : (p.receive w).Displays F := by
        refine hshown id _ ?_
        rw [Table.find?_modify, if_pos rfl, hp, Option.map_some]
      exact (hold id p hp).receive ((hold id p hp).of_displays hdisplays)
  | delete => exact hold.erase
  | noPicture | modify | failed => exact hold

theorem Effect.writesReadable (h : Effect jpegData e products products')
    (hs : s.Represents products) (hnew : products'.All (Product.Readable F)) :
    WritesReadable jpegData F s e := by
  cases h with
  | create name description hpicture hprice =>
      intro _ price hprice'
      rw [hprice] at hprice'
      cases hprice'
      exact Product.readable_created.mp
        (hnew _ _ (Table.find?_insert_self _ _ _))
  | @delivered _ id w =>
      intro id' w' heq hmem
      obtain ⟨rfl, rfl⟩ := Product.Write.request_inj heq
      rw [hs.documents, keys_documentsOf] at hmem
      obtain ⟨p, hp⟩ := Table.mem_keys_iff_find?.mp hmem
      have hreceived : (p.receive w).Readable F := by
        refine hnew id _ ?_
        rw [Table.find?_modify, if_pos rfl, hp, Option.map_some]
      exact Product.readable_of_receive hreceived
  | noPicture hpicture => exact fun h => absurd h hpicture
  | modify | failed | delete => trivial

/-- The address that a create writes belongs to a picture that loads. -/
def PictureLoads (I : ImageLoading URL Data UIImage) : Event UIImage → Prop
  | .create _ _ url _ => I.Loads url
  | _ => True

theorem Effect.loads (h : Effect jpegData e products products')
    (hold : products.All fun p => I.Loads p.imageURL) (he : PictureLoads I e) :
    products'.All fun p => I.Loads p.imageURL := by
  cases h with
  | create name description hpicture hprice => exact hold.insert he
  | @delivered _ id w =>
      refine hold.modify fun p hp => ?_
      cases w <;> exact hold id p hp
  | delete => exact hold.erase
  | noPicture | modify | failed => exact hold

/-- The products of a store whose rows can all be opened. -/
structure Showing (F : Foundation Double) (I : ImageLoading URL Data UIImage)
    (s : Store) (products : Catalog) : Prop where
  represents : s.Represents products
  readable : products.All (Product.Readable F)
  loads : products.All fun p => I.Loads p.imageURL

theorem Showing.shows (h : Showing F I s products) : Shows F I s.documents := by
  rw [h.represents.documents, shows_documentsOf h.loads]
  exact fun id p hp => (h.readable id p hp).displays

theorem showing_empty : Showing F I empty Table.empty :=
  ⟨represents_empty, .empty, .empty⟩

/-- A step leaves every row openable exactly when what it writes is readable. -/
theorem Showing.step {t : Store} (h : Showing F I s products)
    (hpicture : PictureLoads I e) (henabled : s.enabled e)
    (hstep : step jpegData s e = .ok t) :
    (Shows F I t.documents ↔ WritesReadable jpegData F s e) ∧
      (WritesReadable jpegData F s e →
        ∃ products', Showing F I t products') := by
  obtain ⟨products', heffect, hrepresents⟩ :=
    step_effect h.represents henabled hstep
  have hloads := heffect.loads h.loads hpicture
  have hshowing : WritesReadable jpegData F s e → Showing F I t products' :=
    fun hwrites => ⟨hrepresents,
      heffect.readable h.represents h.readable hwrites, hloads⟩
  refine ⟨⟨fun hshown => ?_, fun hwrites => (hshowing hwrites).shows⟩,
    fun hwrites => ⟨products', hshowing hwrites⟩⟩
  -- the screen after the step has read what the step has written
  rw [hrepresents.documents, shows_documentsOf hloads] at hshown
  exact heffect.writesReadable h.represents
    (heffect.readable_of_displays h.readable hshown)

/-- Every row can be opened at every moment of a run exactly when every text
that the run writes into a document is readable. -/
theorem shows_iff_writesReadable {es : List (Event UIImage)} {t : Store}
    (hrun : (machine jpegData).Run empty es t)
    (hpictures : ∀ e ∈ es, PictureLoads I e) :
    (∀ pre u, pre <+: es → (machine jpegData).Run empty pre u →
        Shows F I u.documents) ↔
      (machine jpegData).Along empty es
        (fun _ u e => WritesReadable jpegData F u e) := by
  have hloads : (machine jpegData).Along empty es
      (fun _ _ e => PictureLoads I e) := by
    rintro pre e post rfl u -
    exact hpictures e (by simp)
  apply hrun.always_iff (I := fun _ u => ∃ products, Showing F I u products)
    hloads ⟨Table.empty, showing_empty⟩
  · rintro pre u ⟨products, h⟩
    exact h.shows
  · rintro pre u e v ⟨products, h⟩ hpicture henabled hstep
    exact h.step hpicture henabled hstep

def pictures : ImageLoading Unit Unit Unit :=
  ⟨fun _ => some (), fun _ => some (), fun _ => some ()⟩

theorem shows_iff_writesReadable_uneven :
    (∀ pre u, pre <+: unevenRun →
        (machine (some : Unit → Option Unit)).Run empty pre u →
        Shows Foundation.ascii pictures u.documents) ↔
      (machine (some : Unit → Option Unit)).Along empty unevenRun
        (fun _ u e => WritesReadable some Foundation.ascii u e) := by
  have hrun : (machine (some : Unit → Option Unit)).Run empty unevenRun
      ⟨unevenDocuments, []⟩ :=
    Machine.run_of_replay (by decide)
  have hloads : ∀ address, pictures.Loads address := fun _ =>
    ⟨(), (), (), rfl, rfl, rfl⟩
  refine shows_iff_writesReadable hrun fun e _ => ?_
  cases e with
  | create id form url price_Time => exact hloads url
  | modify | delivered | failed | delete => trivial

/-- A product whose price is not a number, created from an empty store. -/
def unreadableRun : List (Event Unit) :=
  [.create "A" ⟨some (), some "apple", some "cheap", some "red"⟩ "u" march8]

def unreadableDocuments : Collection :=
  Table.empty.insert "A"
    (Product.created "apple" "cheap" "red" "u" "2021.03.08").fields

theorem not_shows_unreadable :
    (machine (some : Unit → Option Unit)).Run empty unreadableRun
        ⟨unreadableDocuments, []⟩ ∧
      (∀ address, pictures.Loads address) ∧
      ¬ Shows Foundation.ascii pictures unreadableDocuments := by
  refine ⟨Machine.run_of_replay (by decide),
    fun _ => ⟨(), (), (), rfl, rfl, rfl⟩, ?_⟩
  rintro ⟨self', hself, hrows⟩
  have hload : GroceryListTableViewController.initial.queryCompleted
      (some unreadableDocuments.getDocuments) =
      .ok ⟨[(Product.created "apple" "cheap" "red" "u" "2021.03.08").item "A"],
        UIVC.initial.spinnerOff⟩ := by
    decide
  rw [hload] at hself
  cases hself
  obtain ⟨out, hout⟩ := hrows 0 (by decide)
  have hcell : GroceryListTableViewController.cellForRowAt Foundation.ascii
      pictures
      [(Product.created "apple" "cheap" "red" "u" "2021.03.08").item "A"] 0 =
      .error .unexpectedNil := by
    decide
  rw [openRow, hcell, error_bind] at hout
  cases hout

end Store

end Grocr
