import Mathlib.Algebra.Order.Field.Rat
import Grocr.Proofs.History
import Grocr.Proofs.Readable
import Grocr.Support.Checked
/-!
# What the detail screen shows

The chart has one bar for each price, at the price's position and with its
value; the label below a bar comes from the date at the same position, and the
header from the last date.  For dates that the app has formatted itself, the
label is the day and the header names the year and the month.
-/

namespace Grocr

open Support Support.Swift
open GroceryListTableViewController (ListedRow openRow defaultUrlStr)

/-! ## Slices of a formatted date -/

namespace CalendarDate

def dayText (date : CalendarDate) : String :=
  String.ofList (zeroPadded 2 date.day)

def yearAndMonthText (date : CalendarDate) : String :=
  String.ofList (zeroPadded 4 date.year ++ '.' :: zeroPadded 2 date.month)

end CalendarDate

theorem join_map_singleton (cs : List Char) :
    String.join (cs.map String.singleton) = String.ofList cs := by
  apply String.toList_inj.mp
  rw [String.toList_join, String.toList_ofList]
  induction cs with
  | nil => rfl
  | cons c cs ih => simp [ih]

namespace Foundation

variable {Double : Type} (F : Foundation Double)

theorem slice_date (date : CalendarDate) (i j : Nat) :
    F.slice i j date.string =
      String.ofList ((date.string.toList.take (j + 1)).drop i) := by
  rw [slice, F.characters_date, ← List.map_take, ← List.map_drop,
    join_map_singleton]

theorem slice_eq_text {date : CalendarDate} (hyear : date.year ≤ 9999) :
    F.slice 8 9 date.string = date.dayText ∧
      F.slice 0 6 date.string = date.yearAndMonthText := by
  have hmonth_le := date.month_le
  have hday_le := date.day_le
  have hyear' : (zeroPadded 4 date.year).length = 4 :=
    length_zeroPadded (by omega) (by omega)
  have hmonth : (zeroPadded 2 date.month).length = 2 :=
    length_zeroPadded (by omega) (by omega)
  have hday : (zeroPadded 2 date.day).length = 2 :=
    length_zeroPadded (by omega) (by omega)
  have hparts : date.string.toList =
      (zeroPadded 4 date.year ++ '.' :: zeroPadded 2 date.month) ++
        (['.'] ++ zeroPadded 2 date.day) := by
    rw [CalendarDate.string, String.toList_ofList]
    simp
  rw [F.slice_date, F.slice_date, hparts]
  constructor
  · rw [List.take_of_length_le (by simp [hyear', hmonth, hday]),
      ← List.append_assoc, List.drop_append_of_le_length (by
        simp [hyear', hmonth]),
      List.drop_of_length_le (by simp [hyear', hmonth]), List.nil_append,
      CalendarDate.dayText]
  · rw [List.drop_zero, List.take_append_of_le_length (by
        simp [hyear', hmonth]),
      List.take_of_length_le (by simp [hyear', hmonth]),
      CalendarDate.yearAndMonthText]

end Foundation

/-! ## The layout of the axes -/

namespace Charts

variable {Double : Type} [FloatingPoint Double]

theorem BarChartView.data_of_setData {chart chart' : BarChartView Double}
    {data : BarChartData Double} (h : chart.setData data = .ok chart') :
    chart'.data = some data := by
  obtain ⟨digits, -, h⟩ := bind_eq_ok.mp h
  obtain ⟨leftAxis, -, h⟩ := bind_eq_ok.mp h
  obtain ⟨rightAxis, -, h⟩ := bind_eq_ok.mp h
  obtain ⟨xAxis, -, h⟩ := bind_eq_ok.mp h
  cases h
  rfl

theorem BarChartDataSet.entries_initEntries (entries : List (ChartEntry Double)) :
    (initEntries entries).entries = entries := by
  have hkeep : ∀ (es : List (ChartEntry Double)) (set : BarChartDataSet Double),
      (es.foldl calcMinMax set).entries = set.entries := by
    intro es
    induction es with
    | nil => exact fun _ => rfl
    | cons e es ih =>
        intro set
        rw [List.foldl_cons, ih, calcMinMax]
        split <;> rfl
  exact hkeep entries _

end Charts

/-- The chart view lays out its axes for a bar for each of these values. -/
def LaysOut {Double : Type} [Charts.FloatingPoint Double]
    (values : List Double) : Prop :=
  ∃ chart, ({ Charts.BarChartView.initial with
      xAxis := Charts.BarChartView.initial.xAxis.setLabelCount values.length
      }).setData (.initDataSet (.initEntries (values.mapIdx ChartEntry.mk))) =
    .ok chart

/-! ## The chart of a product -/

/-- What a chart of `prices` over `dates` has to show, entry for entry. -/
structure Charted {UIImage Double : Type} (F : Foundation Double)
    (prices dates : List String) (s : DetailScreen UIImage Double)
    (chart : Charts.BarChartView Double) : Prop where
  data : ∃ data, chart.data = some data ∧ data.dataSet.entries = s.entries
  length : s.entries.length = prices.length
  entry : ∀ i price, prices[i]? = some price →
    ∃ value, F.double price = some value ∧
      s.entries[i]? = some (ChartEntry.mk i value)
  label : ∀ i date, dates[i]? = some date →
    DetailViewController.stringForValue s i = .ok (F.slice 8 9 date)
  header : ∀ date, dates.getLast? = some date →
    s.monthLbl = F.slice 0 6 date ++ "월"

/-- Over formatted dates the labels are days, under a year and a month. -/
structure ChartedDays {UIImage Double : Type} (days : List CalendarDate)
    (s : DetailScreen UIImage Double) : Prop where
  label : ∀ i date, days[i]? = some date →
    DetailViewController.stringForValue s i = .ok date.dayText
  header : ∀ date, days.getLast? = some date →
    s.monthLbl = date.yearAndMonthText ++ "월"

theorem Charted.days {UIImage Double : Type} {F : Foundation Double}
    {prices : List String} {days : List CalendarDate}
    {s : DetailScreen UIImage Double} {chart : Charts.BarChartView Double}
    (h : Charted F prices (days.map CalendarDate.string) s chart)
    (hyear : ∀ date ∈ days, date.year ≤ 9999) : ChartedDays days s := by
  constructor
  · intro i date hdate
    obtain ⟨hday, -⟩ := F.slice_eq_text (hyear date (List.mem_of_getElem? hdate))
    have hlabel := h.label i date.string (by
      rw [List.getElem?_map, hdate, Option.map_some])
    rw [hlabel, hday]
  · intro date hdate
    obtain ⟨-, hmonth⟩ := F.slice_eq_text (hyear date (List.mem_of_getLast? hdate))
    have hheader := h.header date.string (by
      rw [List.getLast?_map, hdate, Option.map_some])
    rw [hheader, hmonth]

namespace GroceryListTableViewController

variable {URL Data UIImage Double : Type} [Charts.FloatingPoint Double]
  {F : Foundation Double} {I : ImageLoading URL Data UIImage}
  {items : List GroceryItem} {row : Nat}

theorem ListedRow.charted_screen (r : ListedRow I items row)
    {values : List Double} {chart : Charts.BarChartView Double}
    (h : List.Forall₂ (fun p v => F.double p = some v) r.prices values)
    (hchart : (r.screen F values).chartView = .ok chart) :
    Charted F r.prices r.dates (r.screen F values) chart := by
  obtain ⟨hlength, hvalues⟩ := List.forall₂_iff_get.mp h
  constructor
  · exact ⟨_, Charts.BarChartView.data_of_setData hchart,
      Charts.BarChartDataSet.entries_initEntries _⟩
  · rw [ListedRow.screen, List.length_mapIdx, hlength]
  · intro i price hprice
    obtain ⟨hi, rfl⟩ := List.getElem?_eq_some_iff.mp hprice
    have hi' : i < values.length := hlength ▸ hi
    apply Exists.intro values[i]
    apply And.intro (hvalues i hi hi')
    rw [ListedRow.screen, List.getElem?_mapIdx, List.getElem?_eq_getElem hi',
      Option.map_some]
  · intro i date hdate
    unfold DetailViewController.stringForValue
    apply subscript_of_getElem?
    rw [ListedRow.screen, List.getElem?_map, hdate, Option.map_some]
  · intro date hdate
    rw [r.getLast?_dates, Option.some.injEq] at hdate
    rw [ListedRow.screen, hdate]

omit [Charts.FloatingPoint Double] in
theorem filterMap_of_forall₂ {prices : List String} {values : List Double}
    (h : List.Forall₂ (fun p v => F.double p = some v) prices values) :
    prices.filterMap F.double = values := by
  induction h with
  | nil => rfl
  | cons hprice _ ih => rw [List.filterMap_cons_some hprice, ih]

theorem ListedRow.exists_chartView_iff (r : ListedRow I items row)
    {values : List Double}
    (h : List.Forall₂ (fun p v => F.double p = some v) r.prices values) :
    (∃ chart, (r.screen F values).chartView = .ok chart) ↔ LaysOut values := by
  unfold DetailScreen.chartView LaysOut
  rw [ListedRow.screen, h.length_eq]

theorem openDetail_eq_ok {s : DetailScreen UIImage Double}
    {chart : Charts.BarChartView Double} :
    openDetail F I items row = .ok (s, chart) ↔
      ∃ d, openRow F I items row = .ok (d, s) ∧ s.chartView = .ok chart := by
  rw [openDetail, bind_eq_ok]
  constructor
  · rintro ⟨⟨d, s'⟩, hopen, h⟩
    obtain ⟨chart', hchart, h⟩ := bind_eq_ok.mp h
    cases h
    exact ⟨d, hopen, hchart⟩
  · rintro ⟨d, hopen, hchart⟩
    exact ⟨(d, s), hopen, bind_eq_ok.mpr ⟨chart, hchart, rfl⟩⟩

/-- Opening the row with its chart completes exactly when its texts are
readable and the chart view can lay out the prices. -/
theorem ListedRow.exists_openDetail_iff (r : ListedRow I items row) :
    (∃ out, openDetail F I items row = .ok out) ↔
      (F.int r.lastPrice).isSome ∧
        (∀ price ∈ r.prices, (F.double price).isSome) ∧
        (∀ date ∈ r.dates, 10 ≤ (F.characters date).length) ∧
        LaysOut (r.prices.filterMap F.double) := by
  rw [← exists_forall₂_double]
  constructor
  · rintro ⟨⟨s, chart⟩, h⟩
    obtain ⟨d, hopen, hchart⟩ := openDetail_eq_ok.mp h
    obtain ⟨hint, hdates, -, values, hvalues, rfl⟩ := r.openRow_eq_ok.mp hopen
    refine ⟨hint, ⟨values, hvalues⟩, hdates, ?_⟩
    rw [filterMap_of_forall₂ hvalues]
    exact (r.exists_chartView_iff hvalues).mp ⟨chart, hchart⟩
  · rintro ⟨hint, ⟨values, hvalues⟩, hdates, hlaysOut⟩
    rw [filterMap_of_forall₂ hvalues] at hlaysOut
    obtain ⟨chart, hchart⟩ := (r.exists_chartView_iff hvalues).mpr hlaysOut
    have hopen : openRow F I items row =
        .ok (r.detail F, r.screen F values) :=
      r.openRow_eq_ok.mpr ⟨hint, hdates, rfl, values, hvalues, rfl⟩
    exact ⟨_, openDetail_eq_ok.mpr ⟨_, hopen, hchart⟩⟩

/-- Opening a row completes exactly when its texts are readable and the chart
view can lay out the prices, and then the chart is the product's histories
entry for entry. -/
theorem charted_of_openDetail {item : GroceryItem} {name : String}
    {prices dates : List String} (hrow : items[row]? = some item)
    (hname : item.productName = some name)
    (hloads : I.Loads (item.image.getD defaultUrlStr))
    (hprices : item.price = prices.map some)
    (hdates : item.currentDate = dates.map some)
    (hlength : prices.length = dates.length) (hne : prices ≠ []) :
    ((∃ out, openDetail F I items row = .ok out) ↔
        (prices.getLast?.bind F.int).isSome ∧
          (∀ price ∈ prices, (F.double price).isSome) ∧
          (∀ date ∈ dates, 10 ≤ (F.characters date).length) ∧
          LaysOut (prices.filterMap F.double)) ∧
      ∀ s chart, openDetail F I items row = .ok (s, chart) →
        Charted F prices dates s chart ∧
          ∀ days : List CalendarDate, dates = days.map CalendarDate.string →
            (∀ date ∈ days, date.year ≤ 9999) → ChartedDays days s := by
  obtain ⟨r, rfl, rfl⟩ :=
    ListedRow.exists_of_item hrow hname hloads hprices hdates hlength hne
  constructor
  · rw [r.getLast?_prices, Option.bind_some]
    exact r.exists_openDetail_iff
  · intro s chart h
    obtain ⟨d, hopen, hchart⟩ := openDetail_eq_ok.mp h
    obtain ⟨-, -, -, values, hvalues, rfl⟩ := r.openRow_eq_ok.mp hopen
    have hcharted : Charted F r.prices r.dates (r.screen F values) chart :=
      r.charted_screen hvalues hchart
    apply And.intro hcharted
    intro days hdays hyear
    rw [hdays] at hcharted
    exact hcharted.days hyear

end GroceryListTableViewController

/-! ## Two bars -/

namespace Charts

/-- Rational numbers, on which the platform behaves as written here at the
numbers of the chart below; logarithms are right up to their whole part. -/
instance rationalArithmetic : FloatingPoint Rat where
  ofInt n := n
  greatestFiniteMagnitude := 10 ^ 308
  lt x y := decide (x < y)
  le x y := decide (x ≤ y)
  eq x y := decide (x = y)
  isNaN _ := false
  isInfinite _ := false
  abs x := if x < 0 then -x else x
  ceil x := x.ceil
  floor x := x.floor
  rounded x := if x < 0 then ((x - 1 / 2).ceil : Rat) else ((x + 1 / 2).floor : Rat)
  nextUp x := x
  log10 x :=
    let k := (Nat.toDigits 10 x.floor.toNat).length - 1
    k + (x / 10 ^ k - 1) / 9
  pow x y := if 0 ≤ y then x ^ y.floor.toNat else 1 / x ^ (-y).floor.toNat
  int x := some (if x < 0 then x.ceil else x.floor)
  strideCount first last stride := ((last - first) / stride).floor.toNat + 1

end Charts

/-- The texts of `Foundation.ascii` with rational numbers. -/
def Foundation.rational : Foundation Rat where
  characters := Foundation.ascii.characters
  int := parseInt
  double text := Option.map (Int.cast : Int → Rat) (parseInt text)
  decimal := toString
  characters_ascii _ _ := rfl
  double_of_int _ h := by rwa [Option.isSome_map]

def appleTwice : GroceryItem :=
  (apple.record ("120", "2021.03.09")).item "A"

namespace GroceryListTableViewController

theorem charted_of_openDetail_appleTwice :
    ((∃ out, openDetail Foundation.rational Store.pictures [appleTwice] 0 =
          .ok out) ↔
        (["100", "120"].getLast?.bind Foundation.rational.int).isSome ∧
          (∀ price ∈ ["100", "120"],
            (Foundation.rational.double price).isSome) ∧
          (∀ date ∈ ["2021.03.08", "2021.03.09"],
            10 ≤ (Foundation.rational.characters date).length) ∧
          LaysOut (["100", "120"].filterMap Foundation.rational.double)) ∧
      ∀ s chart, openDetail Foundation.rational Store.pictures [appleTwice] 0 =
          .ok (s, chart) →
        Charted Foundation.rational ["100", "120"]
            ["2021.03.08", "2021.03.09"] s chart ∧
          ∀ days : List CalendarDate,
            ["2021.03.08", "2021.03.09"] = days.map CalendarDate.string →
              (∀ date ∈ days, date.year ≤ 9999) → ChartedDays days s := by
  have hprices : appleTwice.price = ["100", "120"].map some := by decide
  have hdates : appleTwice.currentDate =
      ["2021.03.08", "2021.03.09"].map some := by
    decide
  exact charted_of_openDetail rfl (show _ = some "apple" by decide)
    ⟨(), (), (), rfl, rfl, rfl⟩ hprices hdates rfl (by decide)

theorem appleTwice_header :
    appleTwice.price = ["100", "120"].map some ∧
      appleTwice.currentDate = ["2021.03.08", "2021.03.09"].map some ∧
      ∃ s chart, openDetail Foundation.rational Store.pictures [appleTwice] 0 =
          .ok (s, chart) ∧
        s.monthLbl = "2021.03월" ∧
        s.monthLbl ≠ Foundation.rational.slice 0 6 "2021.03.09" := by
  refine ⟨by decide, by decide, ?_⟩
  have hopens : (openDetail Foundation.rational Store.pictures [appleTwice]
      0).map (fun out => out.1.monthLbl) = .ok "2021.03월" := by
    decide +kernel
  obtain ⟨⟨s, chart⟩, hopen, hheader⟩ := Support.Checked.map_eq_ok.mp hopens
  exact ⟨s, chart, hopen, hheader, by rw [hheader]; decide⟩

end GroceryListTableViewController

end Grocr
