import Grocr.GroceryListTableViewController
/-!
# What loading computes

The completion of `queryforServer` decodes every document and extends the
shorter of its two histories by its last value.  The nested loops, with their
two copies of the array, come down to one function of the document, and they
trap exactly when a history that has to be extended is empty.
-/

namespace Grocr

open Support Support.Swift Firestore

namespace GroceryItem

/-- The length that both histories of a product get. -/
def historyLength (item : GroceryItem) : Nat :=
  max item.price.length item.currentDate.length

def padded (item : GroceryItem) : GroceryItem :=
  { item with
    price := padLast item.historyLength item.price
    currentDate := padLast item.historyLength item.currentDate }

/-- A history that has to be extended has a last value. -/
def Paddable (item : GroceryItem) : Prop :=
  item.price.length ≠ item.currentDate.length →
    item.price ≠ [] ∧ item.currentDate ≠ []

theorem padded_of_more_prices {item : GroceryItem}
    (h : item.currentDate.length < item.price.length) :
    item.padded =
      withCurrentDate (padLast item.price.length item.currentDate) item := by
  have hmax : item.historyLength = item.price.length := max_eq_left h.le
  rw [padded, hmax, padLast_of_length_le le_rfl]
  rfl

theorem padded_of_more_dates {item : GroceryItem}
    (h : item.price.length < item.currentDate.length) :
    item.padded =
      withPrice (padLast item.currentDate.length item.price) item := by
  have hmax : item.historyLength = item.currentDate.length := max_eq_right h.le
  rw [padded, hmax, padLast_of_length_le (le_refl item.currentDate.length)]
  rfl

theorem padded_of_equal {item : GroceryItem}
    (h : item.price.length = item.currentDate.length) : item.padded = item := by
  have hmax : item.historyLength = item.price.length := by
    rw [historyLength, h, max_self]
  rw [padded, hmax, padLast_of_length_le h.le, padLast_of_length_le le_rfl]

end GroceryItem

namespace GroceryListTableViewController

open GroceryItem

theorem modify_of_getElem? {α : Type} {xs : List α} {i : Nat} {x : α}
    {f : α → α} (h : xs[i]? = some x) (hf : f x = x) : xs.modify i f = xs := by
  apply List.ext_getElem?
  intro j
  rw [List.getElem?_modify]
  by_cases hij : i = j
  · subst hij
    simp [h, hf]
  · simp [hij]

theorem modify_congr_getElem? {α : Type} {xs : List α} {i : Nat} {x : α}
    {f g : α → α} (h : xs[i]? = some x) (hfg : f x = g x) :
    xs.modify i f = xs.modify i g := by
  apply List.ext_getElem?
  intro j
  rw [List.getElem?_modify, List.getElem?_modify]
  by_cases hij : i = j
  · subst hij
    simp [h, hfg]
  · simp [hij]

theorem modify_append_cons {α : Type} (ys zs : List α) (x : α) (f : α → α) :
    (ys ++ x :: zs).modify ys.length f = ys ++ f x :: zs := by
  induction ys with
  | nil => rfl
  | cons y ys ih => simp [ih]

theorem append_replicate_eq_padLast {α : Type} {xs : List α} {x : α} {n : Nat}
    (h : xs.getLast? = some x) :
    xs ++ List.replicate (n - xs.length) x = padLast n xs := by
  simp only [padLast, h]

theorem getLast?_map_some {xs : List String} (h : xs.map some ≠ []) :
    ∃ x, (xs.map some).getLast? = some (some x) := by
  have hxs : xs ≠ [] := fun hnil => h (by simp [hnil])
  exact ⟨xs.getLast hxs, by simp [List.getLast?_eq_some_getLast hxs]⟩

/-! ## The inner loops -/

section PadHistory

variable {history : GroceryItem → List (Option String)}
  {setHistory : List (Option String) → GroceryItem → GroceryItem}
  {items returnItem : List GroceryItem} {i : Nat} {item : GroceryItem}

theorem padHistory_eq_ok {x : String} (n : Nat)
    (hset : ∀ v w d, setHistory v (setHistory w d) = setHistory v d)
    (hget : setHistory (history item) item = item)
    (hitem : items[i]? = some item) (hreturn : returnItem[i]? = some item)
    (hlast : (history item).getLast? = some (some x)) :
    padHistory history setHistory items i n returnItem (history item) =
      .ok (returnItem.modify i
          (setHistory (history item ++ List.replicate n (some x))),
        history item ++ List.replicate n (some x)) := by
  have hi : i < returnItem.length := (List.getElem?_eq_some_iff.mp hreturn).1
  let I : Nat → List GroceryItem × List (Option String) → Prop := fun k s =>
    s = (returnItem.modify i
        (setHistory (history item ++ List.replicate k (some x))),
      history item ++ List.replicate k (some x))
  have hinit : I 0 (returnItem, history item) := by
    have hsame : setHistory (history item ++ List.replicate 0 (some x)) item =
        item := by
      simpa using hget
    simp only [I]
    rw [modify_of_getElem? hreturn hsame]
    simp
  have hstep : ∀ k s, k < n → I k s →
      ∃ s', appendLast history setHistory items i s = .ok s' ∧ I (k + 1) s' := by
    rintro k s - rfl
    refine ⟨_, ?_, rfl⟩
    have hlen : i < (returnItem.modify i
        (setHistory (history item ++ List.replicate k (some x)))).length := by
      simpa using hi
    have hcompose : setHistory (history item ++ List.replicate (k + 1) (some x)) ∘
        setHistory (history item ++ List.replicate k (some x)) =
        setHistory (history item ++ List.replicate (k + 1) (some x)) :=
      funext fun d => hset _ _ d
    simp only [appendLast, subscript_of_getElem? hitem, ok_bind,
      unwrapTwice_eq_ok.mpr hlast, List.append_assoc, ← List.replicate_succ',
      assign_of_lt _ hlen, pure_eq_ok, List.modify_modify_eq, hcompose]
  obtain ⟨s, hs, hI⟩ := forRange_spec I hinit hstep
  rw [padHistory, hs, hI]

theorem padHistory_last {n : Nat} {compare : List (Option String)}
    {r : List GroceryItem × List (Option String)} (hn : 0 < n)
    (hitem : items[i]? = some item)
    (h : padHistory history setHistory items i n returnItem compare = .ok r) :
    ∃ x, (history item).getLast? = some (some x) := by
  obtain ⟨t, ht⟩ := forRange_first hn h
  rw [appendLast, subscript_of_getElem? hitem, ok_bind] at ht
  obtain ⟨x, hx, -⟩ := bind_eq_ok.mp ht
  exact ⟨x, unwrapTwice_eq_ok.mp hx⟩

theorem padHistory_to {m : Nat} {xs : List String} {s : LoadState}
    (hset : ∀ v w d, setHistory v (setHistory w d) = setHistory v d)
    (hget : setHistory (history item) item = item)
    (hitem : items[i]? = some item) (hxs : history item = xs.map some)
    (hm : (history item).length < m) :
    (padHistory history setHistory items i (m - (history item).length) items
        (history item) >>= fun r => pure ⟨r.1, r.1⟩) = .ok s ↔
      history item ≠ [] ∧
        s = ⟨items.modify i (setHistory (padLast m (history item))),
          items.modify i (setHistory (padLast m (history item)))⟩ := by
  have hrun : ∀ x, (history item).getLast? = some (some x) →
      padHistory history setHistory items i (m - (history item).length) items
        (history item) =
        .ok (items.modify i (setHistory (padLast m (history item))),
          padLast m (history item)) := by
    intro x hx
    rw [padHistory_eq_ok _ hset hget hitem hitem hx,
      append_replicate_eq_padLast hx]
  constructor
  · intro h
    obtain ⟨r, hr, hs⟩ := bind_eq_ok.mp h
    obtain ⟨x, hx⟩ := padHistory_last (by omega) hitem hr
    rw [hrun x hx] at hr
    cases hr
    cases hs
    refine ⟨?_, rfl⟩
    intro hnil
    simp [hnil] at hx
  · rintro ⟨hne, rfl⟩
    obtain ⟨x, hx⟩ := getLast?_map_some (hxs ▸ hne)
    rw [hrun x (by rw [hxs, hx]), ok_bind, pure_eq_ok]

end PadHistory

/-! ## The outer loop -/

def Decoded (item : GroceryItem) : Prop :=
  ∃ prices dates : List String,
    item.price = prices.map some ∧ item.currentDate = dates.map some

theorem decoded_initDocument (document : Document) :
    Decoded (initDocument document) :=
  ⟨_, _, rfl, rfl⟩

theorem padRow_eq_ok {items : List GroceryItem} {i : Nat} {item : GroceryItem}
    (hitem : items[i]? = some item) (hdecoded : Decoded item) {s : LoadState} :
    padRow i ⟨items, items⟩ = .ok s ↔
      item.Paddable ∧ s = ⟨items.modify i padded, items.modify i padded⟩ := by
  obtain ⟨prices, dates, hprices, hdates⟩ := hdecoded
  rw [padRow, subscript_of_getElem? hitem, ok_bind]
  dsimp only [padDates, padPrices]
  rcases Nat.lt_trichotomy item.price.length item.currentDate.length with
    hlt | heq | hgt
  · have hprice : item.currentDate ≠ [] :=
      List.ne_nil_of_length_pos (by omega)
    rw [if_neg (by omega), if_pos hlt,
      padHistory_to withPrice_withPrice (withPrice_self item) hitem hprices hlt,
      modify_congr_getElem? hitem (padded_of_more_dates hlt).symm]
    simp [Paddable, hlt.ne, hprice]
  · rw [if_neg (by omega), if_neg (by omega),
      modify_of_getElem? hitem (padded_of_equal heq)]
    simp [Paddable, heq, pure_eq_ok, eq_comm]
  · have hdate : item.price ≠ [] :=
      List.ne_nil_of_length_pos (by omega)
    rw [if_pos hgt,
      padHistory_to withCurrentDate_withCurrentDate (withCurrentDate_self item)
        hitem hdates hgt,
      modify_congr_getElem? hitem (padded_of_more_prices hgt).symm]
    simp [Paddable, hgt.ne', hdate]

def paddedTo (n : Nat) (items : List GroceryItem) : List GroceryItem :=
  (items.take n).map padded ++ items.drop n

theorem paddedTo_getElem? {n : Nat} {items : List GroceryItem} {i : Nat}
    (hi : n ≤ i) : (paddedTo n items)[i]? = items[i]? := by
  rcases Nat.lt_or_ge i items.length with hlt | hge
  · have hlen : ((items.take n).map padded).length = n := by
      simp
      omega
    rw [paddedTo, List.getElem?_append_right (by omega), hlen,
      List.getElem?_drop, Nat.add_sub_cancel' hi]
  · rw [List.getElem?_eq_none hge, List.getElem?_eq_none]
    simp [paddedTo]
    omega

theorem paddedTo_succ {n : Nat} {items : List GroceryItem}
    (hn : n < items.length) :
    (paddedTo n items).modify n padded = paddedTo (n + 1) items := by
  have hlen : ((items.take n).map padded).length = n := by
    simp
    omega
  have hmodify := modify_append_cons ((items.take n).map padded)
    (items.drop (n + 1)) items[n] padded
  rw [hlen] at hmodify
  rw [paddedTo, paddedTo, List.drop_eq_getElem_cons hn, hmodify,
    List.take_succ_eq_append_getElem hn, List.map_append, List.append_assoc]
  rfl

theorem appendRange_decode (documents : List Document) :
    (appendRange documents.length fun i => do
      let document ← subscript documents i
      pure (initDocument document)) = .ok (documents.map initDocument) := by
  have hdecode : ∀ (document : Document) (item : GroceryItem),
      (pure (initDocument document) : Except Trap GroceryItem) = .ok item ↔
        True ∧ item = initDocument document := by
    simp [pure_eq_ok, eq_comm]
  exact (appendRange_subscript_map hdecode).mpr ⟨fun _ _ => trivial, rfl⟩

/-- Loading traps exactly when a history to be extended is empty; otherwise it
decodes and pads each document by itself, in the order of the snapshot. -/
theorem loadItems_eq_ok {documents : List Document} {items : List GroceryItem} :
    loadItems documents = .ok items ↔
      (∀ d ∈ documents, (initDocument d).Paddable) ∧
        items = documents.map fun d => (initDocument d).padded := by
  set base := documents.map initDocument with hbase
  have hdecoded : ∀ item ∈ base, Decoded item := by
    intro item hitem
    obtain ⟨d, -, rfl⟩ := List.mem_map.mp hitem
    exact decoded_initDocument d
  -- after `n` turns both copies hold `paddedTo n base`
  have hturn : ∀ (n : Nat) (item : GroceryItem) (s : LoadState),
      base[n]? = some item →
      (padRow n ⟨paddedTo n base, paddedTo n base⟩ = .ok s ↔
        item.Paddable ∧ s = ⟨paddedTo (n + 1) base, paddedTo (n + 1) base⟩) := by
    intro n item s hitem
    have hn : n < base.length := (List.getElem?_eq_some_iff.mp hitem).1
    rw [padRow_eq_ok ((paddedTo_getElem? le_rfl).trans hitem)
      (hdecoded item (List.mem_of_getElem? hitem)), paddedTo_succ hn]
  have hzero : paddedTo 0 base = base := by simp [paddedTo]
  have hall : paddedTo base.length base = base.map padded := by
    simp [paddedTo]
  have hpaddable : (∀ d ∈ documents, (initDocument d).Paddable) ↔
      ∀ item ∈ base, item.Paddable := by
    simp [hbase]
  have hmap : (documents.map fun d => (initDocument d).padded) =
      base.map padded := by
    simp [hbase, Function.comp_def]
  rw [loadItems, appendRange_decode, ok_bind, hpaddable, hmap, bind_eq_ok]
  constructor
  · rintro ⟨s, hs, hitems⟩
    obtain ⟨rfl, hp⟩ := forRange_of_ok
      (fun n s => s = LoadState.mk (paddedTo n base) (paddedTo n base) ∧
        ∀ (i : Nat) (item : GroceryItem), i < n → base[i]? = some item →
          item.Paddable)
      hs ⟨by rw [hzero], by simp⟩ (by
        rintro n s s' hn ⟨rfl, hp⟩ hstep
        obtain ⟨item, hitem⟩ : ∃ item, base[n]? = some item :=
          ⟨base[n], List.getElem?_eq_getElem hn⟩
        obtain ⟨hnow, rfl⟩ := (hturn n item s' hitem).mp hstep
        refine ⟨rfl, fun i item' hi hitem' => ?_⟩
        rcases Nat.lt_succ_iff_lt_or_eq.mp hi with hlt | rfl
        · exact hp i item' hlt hitem'
        · rw [hitem] at hitem'
          cases hitem'
          exact hnow)
    cases hitems
    refine ⟨fun item hitem => ?_, hall⟩
    obtain ⟨i, hi⟩ := List.mem_iff_getElem?.mp hitem
    exact hp i item (List.getElem?_eq_some_iff.mp hi).1 hi
  · rintro ⟨hp, rfl⟩
    obtain ⟨s, hs, rfl⟩ := forRange_spec
      (fun n s => s = LoadState.mk (paddedTo n base) (paddedTo n base))
      (by rw [hzero]) (by
        rintro n s hn rfl
        have hitem : base[n]? = some base[n] := List.getElem?_eq_getElem hn
        have hnow := hp _ (List.mem_of_getElem? hitem)
        exact ⟨_, (hturn n _ _ hitem).mpr ⟨hnow, rfl⟩, rfl⟩)
    exact ⟨_, hs, by rw [hall, pure_eq_ok]⟩

theorem queryCompleted_of_loadItems (self : GroceryListTableViewController)
    {documents : List Document} {items : List GroceryItem}
    (h : loadItems documents = .ok items) :
    self.queryCompleted (some documents) =
      .ok { items, loadScreen := self.loadScreen.spinnerOff } :=
  queryCompleted_eq_ok.mpr ⟨items, h, rfl⟩

end GroceryListTableViewController

end Grocr
