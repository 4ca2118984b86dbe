import Grocr.GroceryListTableViewController
/-!
# Opening a row

From the list to the detail screen a product passes through a cell, a
dictionary of untyped values, two casts and four index loops.  For a row as
loading leaves it, all of that completes exactly when the last price is an
integer, every price is a number and every date has ten characters.
-/

namespace Grocr

open Support Support.Swift

namespace Foundation

variable {Double : Type} (F : Foundation Double)

def slice (i j : Nat) (text : String) : String :=
  String.join (((F.characters text).take (j + 1)).drop i)

theorem closedRange_characters {i j : Nat} (hij : i ≤ j) (text s : String) :
    closedRange (F.characters text) i j = .ok s ↔
      j < (F.characters text).length ∧ s = F.slice i j text :=
  closedRange_eq_ok hij

end Foundation

namespace GroceryListTableViewController

variable {URL Data UIImage Double : Type}

/-- A row whose product has a name and a picture that loads, and as many
prices as dates, at least one. -/
structure ListedRow (I : ImageLoading URL Data UIImage)
    (items : List GroceryItem) (row : Nat) where
  item : GroceryItem
  name : String
  picture : UIImage
  prices : List String
  dates : List String
  lastPrice : String
  lastDate : String
  at_row : items[row]? = some item
  productName : item.productName = some name
  loads : ∃ url data, I.url (item.image.getD defaultUrlStr) = some url ∧
    I.contents url = some data ∧ I.image data = some picture
  price : item.price = prices.map some
  currentDate : item.currentDate = dates.map some
  length_eq : prices.length = dates.length
  getLast?_prices : prices.getLast? = some lastPrice
  getLast?_dates : dates.getLast? = some lastDate

namespace ListedRow

variable {F : Foundation Double} {I : ImageLoading URL Data UIImage}
  {items : List GroceryItem} {row : Nat} (r : ListedRow I items row)

omit r in
theorem exists_of_item {item : GroceryItem} {name : String}
    {prices dates : List String} (hrow : items[row]? = some item)
    (hname : item.productName = some name)
    (hloads : I.Loads (item.image.getD defaultUrlStr))
    (hprices : item.price = prices.map some)
    (hdates : item.currentDate = dates.map some)
    (hlength : prices.length = dates.length) (hne : prices ≠ []) :
    ∃ r : ListedRow I items row, r.prices = prices ∧ r.dates = dates := by
  obtain ⟨url, data, picture, hurl, hdata, himage⟩ := hloads
  have hne' : dates ≠ [] := by
    intro hnil
    rw [hnil, List.length_nil] at hlength
    exact hne (List.length_eq_zero_iff.mp hlength)
  exact ⟨{
    item, name, picture, prices, dates
    lastPrice := prices.getLast hne
    lastDate := dates.getLast hne'
    at_row := hrow
    productName := hname
    loads := ⟨url, data, hurl, hdata, himage⟩
    price := hprices
    currentDate := hdates
    length_eq := hlength
    getLast?_prices := List.getLast?_eq_some_getLast hne
    getLast?_dates := List.getLast?_eq_some_getLast hne' }, rfl, rfl⟩

theorem getLast?_price : r.item.price.getLast? = some (some r.lastPrice) := by
  rw [r.price, List.getLast?_map, r.getLast?_prices, Option.map_some]

theorem lastDate_mem : r.lastDate ∈ r.dates :=
  List.mem_of_getLast? r.getLast?_dates

theorem cellForRowAt_eq_ok {cell : Cell UIImage} :
    cellForRowAt F I items row = .ok cell ↔
      ∃ n, F.int r.lastPrice = some n ∧
        cell = ⟨r.name, F.decimal n, some r.picture⟩ := by
  obtain ⟨url, data, hurl, hdata, himage⟩ := r.loads
  rw [cellForRowAt, subscript_of_getElem? r.at_row, ok_bind, r.productName,
    unwrap_some, ok_bind, unwrapTwice_eq_ok.mpr r.getLast?_price, ok_bind]
  dsimp only [Foundation.decimalString]
  cases hint : F.int r.lastPrice with
  | none => simp
  | some n =>
      simp [hurl, hdata, himage, pure_eq_ok, eq_comm]

def currentData : Table String CurrentDatum :=
  (((Table.empty.insert "Name" (.string r.name)).insert "Price"
    (.optionals (r.prices.map some))).insert "LastPrice"
      (.string r.lastPrice)).insert "Current Date"
        (.optionals (r.dates.map some))

theorem getDays_eq_ok {dates days : List String} :
    getDays F (dates.map some) = .ok days ↔
      (∀ date ∈ dates, 10 ≤ (F.characters date).length) ∧
        days = dates.map (F.slice 8 9) := by
  have hday : ∀ (dayStr : Option String) (day : String),
      (do let text ← unwrap dayStr; closedRange (F.characters text) 8 9) =
          .ok day ↔
        (∃ date, dayStr = some date ∧ 10 ≤ (F.characters date).length) ∧
          day = F.slice 8 9 (dayStr.getD "") := by
    intro dayStr day
    cases dayStr with
    | none => simp
    | some date =>
        rw [unwrap_some, ok_bind, F.closedRange_characters (by omega)]
        simp [Nat.succ_le_iff]
  rw [getDays, appendRange_subscript_map hday]
  simp [Function.comp_def]

theorem didSelectRowAt_eq_ok {cell : Cell UIImage}
    {selection : Option (Selection UIImage)} :
    didSelectRowAt F items row (some cell) = .ok selection ↔
      (∀ date ∈ r.dates, 10 ≤ (F.characters date).length) ∧
        selection = some
          ⟨r.currentData, cell.img, r.dates.map (F.slice 8 9)⟩ := by
  rw [didSelectRowAt, subscript_of_getElem? r.at_row, ok_bind, r.productName,
    unwrap_some, ok_bind, unwrapTwice_eq_ok.mpr r.getLast?_price, ok_bind]
  dsimp only
  rw [bind_eq_ok, r.price, r.currentDate]
  simp only [getDays_eq_ok, pure_eq_ok, Except.ok.injEq]
  constructor
  · rintro ⟨days, ⟨hdates, rfl⟩, rfl⟩
    exact ⟨hdates, rfl⟩
  · rintro ⟨hdates, rfl⟩
    exact ⟨_, ⟨hdates, rfl⟩, rfl⟩

def detail (F : Foundation Double) : DetailViewController UIImage where
  name := some r.name
  price := some r.lastPrice
  priceS := some r.prices
  currentDate := some r.dates
  productIMG := r.picture
  dayArr := some (r.dates.map (F.slice 8 9))
  indexPathInt := some ⟨0, row⟩
  currentTimeTxtFd := .initial
  priceTxtFd := .initial

theorem asStrings_optionals (values : List String) :
    (CurrentDatum.optionals (values.map some)).asStrings = some values := by
  rw [CurrentDatum.asStrings]
  induction values with
  | nil => rfl
  | cons value values ih => simp [ih]

theorem prepare_eq_ok (F : Foundation Double) :
    prepare
        ⟨r.currentData, some r.picture, r.dates.map (F.slice 8 9)⟩
        (some ⟨0, row⟩) = .ok (r.detail F) := by
  simp [prepare, currentData, Table.find?_insert, asStrings_optionals,
    CurrentDatum.asString, pure_eq_ok, detail]

def screen (F : Foundation Double) (values : List Double) :
    DetailScreen UIImage Double where
  nameLbl := r.name
  priceLbl := F.decimalString r.lastPrice
  detailIMG := r.picture
  monthLbl := F.slice 0 6 r.lastDate ++ "월"
  months := r.dates.map (F.slice 8 9)
  entries := values.mapIdx ChartEntry.mk
  labelCount := r.prices.length

theorem setChart_eq_ok {dataPoints : List String} {values : List Double}
    (h : dataPoints.length = values.length) :
    DetailViewController.setChart dataPoints values =
      .ok (values.mapIdx ChartEntry.mk) := by
  refine appendRange_eq_ok.mpr ⟨by simp [h], fun i entry hi => ?_⟩
  rw [List.getElem?_mapIdx, Option.map_eq_some_iff] at hi
  obtain ⟨value, hvalue, rfl⟩ := hi
  rw [subscript_of_getElem? hvalue, ok_bind, pure_eq_ok]

theorem viewDidLoad_eq_ok {s : DetailScreen UIImage Double} :
    (r.detail F).viewDidLoad F = .ok s ↔
      7 ≤ (F.characters r.lastDate).length ∧
        ∃ values,
          List.Forall₂ (fun p v => F.double p = some v) r.prices values ∧
          s = r.screen F values := by
  have hmonths : DetailViewController.createItem r.prices
      (r.dates.map (F.slice 8 9)) = .ok (r.dates.map (F.slice 8 9)) := by
    refine appendRange_copy.mpr ⟨by simp [r.length_eq], ?_⟩
    rw [List.take_of_length_le (by simp [r.length_eq])]
  simp only [DetailViewController.viewDidLoad, detail, unwrap_some, ok_bind,
    Option.bind_some, r.getLast?_dates]
  rw [bind_eq_ok]
  simp only [F.closedRange_characters (Nat.zero_le 6), hmonths, ok_bind,
    bind_eq_ok, appendRange_subscript, unwrap_eq_ok]
  constructor
  · rintro ⟨day, ⟨hlength, rfl⟩, values, hvalues, entries, hentries, hs⟩
    have hcount : (r.dates.map (F.slice 8 9)).length = values.length := by
      rw [List.length_map, ← r.length_eq, hvalues.length_eq]
    rw [setChart_eq_ok hcount] at hentries
    cases hentries
    cases hs
    exact ⟨hlength, values, hvalues, rfl⟩
  · rintro ⟨hlength, values, hvalues, rfl⟩
    have hcount : (r.dates.map (F.slice 8 9)).length = values.length := by
      rw [List.length_map, ← r.length_eq, hvalues.length_eq]
    exact ⟨_, ⟨hlength, rfl⟩, values, hvalues, _, setChart_eq_ok hcount, rfl⟩

/-- Opening the row completes exactly when the texts are readable, and shows
the product entry for entry. -/
theorem openRow_eq_ok {d : DetailViewController UIImage}
    {s : DetailScreen UIImage Double} :
    openRow F I items row = .ok (d, s) ↔
      (F.int r.lastPrice).isSome ∧
        (∀ date ∈ r.dates, 10 ≤ (F.characters date).length) ∧
        d = r.detail F ∧
        ∃ values,
          List.Forall₂ (fun p v => F.double p = some v) r.prices values ∧
          s = r.screen F values := by
  simp only [openRow, bind_eq_ok, r.cellForRowAt_eq_ok, r.didSelectRowAt_eq_ok,
    unwrap_eq_ok, pure_eq_ok, Except.ok.injEq, Prod.mk.injEq]
  constructor
  · rintro ⟨cell, ⟨n, hint, rfl⟩, _, ⟨hdates, rfl⟩, _, hsome, d', hd', s', hs',
      rfl, rfl⟩
    cases hsome
    rw [r.prepare_eq_ok F] at hd'
    cases hd'
    obtain ⟨-, hvalues⟩ := r.viewDidLoad_eq_ok.mp hs'
    exact ⟨by simp [hint], hdates, rfl, hvalues⟩
  · rintro ⟨hint, hdates, rfl, hvalues⟩
    obtain ⟨n, hn⟩ := Option.isSome_iff_exists.mp hint
    have hlast := hdates r.lastDate r.lastDate_mem
    exact ⟨_, ⟨n, hn, rfl⟩, _, ⟨hdates, rfl⟩, _, rfl, _, r.prepare_eq_ok F, s,
      r.viewDidLoad_eq_ok.mpr ⟨by omega, hvalues⟩, rfl, rfl⟩

theorem exists_forall₂_double {prices : List String} :
    (∃ values, List.Forall₂ (fun p v => F.double p = some v) prices values) ↔
      ∀ price ∈ prices, (F.double price).isSome := by
  induction prices with
  | nil => simp
  | cons price prices ih =>
      rw [List.forall_mem_cons, ← ih, Option.isSome_iff_exists]
      simp only [List.forall₂_cons_left_iff]
      constructor
      · rintro ⟨_, v, values, hv, hvalues, rfl⟩
        exact ⟨⟨v, hv⟩, values, hvalues⟩
      · rintro ⟨⟨v, hv⟩, values, hvalues⟩
        exact ⟨_, v, values, hv, hvalues, rfl⟩

theorem exists_openRow_iff :
    (∃ out, openRow F I items row = .ok out) ↔
      (F.int r.lastPrice).isSome ∧
        (∀ price ∈ r.prices, (F.double price).isSome) ∧
        ∀ date ∈ r.dates, 10 ≤ (F.characters date).length := by
  rw [← exists_forall₂_double]
  constructor
  · rintro ⟨⟨d, s⟩, h⟩
    obtain ⟨hint, hdates, -, values, hvalues, -⟩ := r.openRow_eq_ok.mp h
    exact ⟨hint, ⟨values, hvalues⟩, hdates⟩
  · rintro ⟨hint, ⟨values, hvalues⟩, hdates⟩
    exact ⟨_, r.openRow_eq_ok.mpr ⟨hint, hdates, rfl, values, hvalues, rfl⟩⟩

end ListedRow

end GroceryListTableViewController

end Grocr
