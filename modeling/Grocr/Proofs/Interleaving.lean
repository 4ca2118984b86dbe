import Grocr.Proofs.History
import Grocr.Proofs.Modify
import Grocr.Support.Parallel
/-!
# Concurrent modifications of one product

A modification sends its price and its date as two requests.  Each client's
requests arrive in the order it sent them, but the requests of different
clients mix.  A price stays with its date exactly when the mixing keeps the
dates in the order of the prices.
-/

namespace Grocr

open Support Support.Swift Firestore
open DetailViewController (priceUpdate dateUpdate)

/-- A press of `modifyPressed` that sends its two requests to the document
`id`. -/
structure Modification (UIImage : Type) (id : String) where
  detail : DetailViewController UIImage
  detail' : DetailViewController UIImage
  snapshot : List Document
  price : String
  date : String
  pressed : detail.modifyPressed (some snapshot) =
    .ok ([priceUpdate id price, dateUpdate id date], detail')

/-- A request on its way: who sent it, for which of its modifications, and
whether it carries the date or the price. -/
structure Sent (κ : Type) where
  client : κ
  number : Nat
  dated : Bool
deriving DecidableEq

/-- What a client sends in `n` modifications, the price first each time. -/
def sentBy {κ : Type} (client : κ) (n : Nat) : List (Sent κ) :=
  (List.range n).flatMap fun i => [⟨client, i, false⟩, ⟨client, i, true⟩]

theorem mem_sentBy {κ : Type} {client : κ} {n i : Nat} {dated : Bool} :
    ⟨client, i, dated⟩ ∈ sentBy client n ↔ i < n := by
  cases dated <;> simp [sentBy]

section Interleaving

variable {κ UIImage : Type} {id : String}
  (sessions : κ → List (Modification UIImage id))

def Sent.write (r : Sent κ) : Option Product.Write :=
  (sessions r.client)[r.number]?.map fun m =>
    if r.dated then .date m.date else .price m.price

def Sent.update (r : Sent κ) : Option Update :=
  (r.write sessions).map (Product.Write.request id)

def arrivals (dated : Bool) (deliveries : List (Sent κ)) : List (κ × Nat) :=
  (deliveries.filter fun r => r.dated = dated).map
    fun r => (r.client, r.number)

def priceOf (t : κ × Nat) : Option String :=
  (sessions t.1)[t.2]?.map Modification.price

def dateOf (t : κ × Nat) : Option String :=
  (sessions t.1)[t.2]?.map Modification.date

/-- Every submitted price stands at the position of the date submitted with
it. -/
def Aligned (data : Fields) : Prop :=
  ∃ prices dates, data.find? "price" = some (.strings prices) ∧
    data.find? "Current Date" = some (.strings dates) ∧
    ∀ client, ∀ m ∈ sessions client,
      ∃ i : Nat, prices[i]? = some m.price ∧ dates[i]? = some m.date

variable {sessions} {deliveries : List (Sent κ)}

theorem mem_arrivals [DecidableEq κ] {dated : Bool} {client : κ} {i : Nat}
    (horder : ∀ k, (deliveries.filter fun r => r.client = k) =
      sentBy k (sessions k).length) :
    (client, i) ∈ arrivals dated deliveries ↔ i < (sessions client).length := by
  have hsent : ⟨client, i, dated⟩ ∈ deliveries ↔
      ⟨client, i, dated⟩ ∈ deliveries.filter fun r => r.client = client := by
    simp
  rw [← mem_sentBy, ← horder client, ← hsent, arrivals, List.mem_map]
  constructor
  · rintro ⟨⟨k, j, b⟩, hr, heq⟩
    obtain ⟨hmem, hb⟩ := List.mem_filter.mp hr
    cases heq
    rwa [← of_decide_eq_true hb]
  · exact fun h => ⟨_, List.mem_filter.mpr ⟨h, by simp⟩, rfl⟩

theorem filterMap_eq_map_getD {ι : Type} {P : List ι} {f : ι → Option String}
    (h : ∀ i ∈ P, (f i).isSome) : P.filterMap f = P.map fun i => (f i).getD "" := by
  induction P with
  | nil => rfl
  | cons i P ih =>
      obtain ⟨hi, hP⟩ := List.forall_mem_cons.mp h
      obtain ⟨s, hs⟩ := Option.isSome_iff_exists.mp hi
      rw [List.filterMap_cons_some hs, List.map_cons, ih hP, hs,
        Option.getD_some]

theorem filterMap_write {sessions : κ → List (Modification UIImage id)}
    {dated : Bool} {value : Product.Write → Option String}
    {submitted : κ × Nat → Option String}
    (h : ∀ r : Sent κ, (r.write sessions).bind value =
      if r.dated = dated then submitted (r.client, r.number) else none)
    (deliveries : List (Sent κ)) :
    (deliveries.filterMap fun r => r.write sessions).filterMap value =
      (arrivals dated deliveries).filterMap submitted := by
  rw [List.filterMap_filterMap, arrivals, List.filterMap_map,
    List.filterMap_filter]
  refine List.filterMap_congr fun r _ => ?_
  rw [h r]
  by_cases hr : r.dated = dated <;> simp [hr]

theorem filterMap_price? (sessions : κ → List (Modification UIImage id))
    (deliveries : List (Sent κ)) :
    (deliveries.filterMap fun r => r.write sessions).filterMap
        Product.Write.price? =
      (arrivals false deliveries).filterMap (priceOf sessions) := by
  refine filterMap_write (fun r => ?_) deliveries
  cases hm : (sessions r.client)[r.number]? with
  | none => simp [Sent.write, priceOf, hm]
  | some m =>
      cases hr : r.dated <;>
        simp [Sent.write, priceOf, hm, hr, Product.Write.price?]

theorem filterMap_date? (sessions : κ → List (Modification UIImage id))
    (deliveries : List (Sent κ)) :
    (deliveries.filterMap fun r => r.write sessions).filterMap
        Product.Write.date? =
      (arrivals true deliveries).filterMap (dateOf sessions) := by
  refine filterMap_write (fun r => ?_) deliveries
  cases hm : (sessions r.client)[r.number]? with
  | none => simp [Sent.write, dateOf, hm]
  | some m =>
      cases hr : r.dated <;>
        simp [Sent.write, dateOf, hm, hr, Product.Write.date?]

theorem aligned_fields {q : Product} :
    Aligned sessions q.fields ↔
      ∀ client, ∀ m ∈ sessions client, ∃ i : Nat,
        q.prices.toList[i]? = some m.price ∧ q.dates.toList[i]? = some m.date := by
  constructor
  · rintro ⟨prices, dates, hprices, hdates, h⟩
    rw [q.find?_price, Option.some.injEq] at hprices
    rw [q.find?_currentDate, Option.some.injEq] at hdates
    rw [FieldValue.strings_inj hprices, FieldValue.strings_inj hdates]
    exact h
  · exact fun h => ⟨_, _, q.find?_price, q.find?_currentDate, h⟩

section Arrived

variable [DecidableEq κ]
  (horder : ∀ k, (deliveries.filter fun r => r.client = k) =
    sentBy k (sessions k).length)

include horder

theorem isSome_priceOf {dated : Bool} :
    ∀ t ∈ arrivals dated deliveries, (priceOf sessions t).isSome := by
  rintro ⟨k, i⟩ ht
  have hi := (mem_arrivals horder).mp ht
  simp [priceOf, hi]

theorem isSome_dateOf {dated : Bool} :
    ∀ t ∈ arrivals dated deliveries, (dateOf sessions t).isSome := by
  rintro ⟨k, i⟩ ht
  have hi := (mem_arrivals horder).mp ht
  simp [dateOf, hi]

theorem prices_arrived {p : Product} (hprices : (p.prices.toList ++
    (arrivals false deliveries).filterMap (priceOf sessions)).Nodup) :
    ((deliveries.filterMap fun r => r.write sessions).foldl Product.receive
        p).prices.toList =
      p.prices.toList ++ (arrivals false deliveries).map
        fun t => (priceOf sessions t).getD "" := by
  rw [Product.prices_foldl_receive, filterMap_price?,
    foldl_addNew_of_nodup _ _ hprices,
    filterMap_eq_map_getD (isSome_priceOf horder)]

theorem dates_arrived {p : Product} (hdates : (p.dates.toList ++
    (arrivals true deliveries).filterMap (dateOf sessions)).Nodup) :
    ((deliveries.filterMap fun r => r.write sessions).foldl Product.receive
        p).dates.toList =
      p.dates.toList ++ (arrivals true deliveries).map
        fun t => (dateOf sessions t).getD "" := by
  rw [Product.dates_foldl_receive, filterMap_date?,
    foldl_addNew_of_nodup _ _ hdates,
    filterMap_eq_map_getD (isSome_dateOf horder)]

end Arrived

/-- All requests succeed, and the prices stay with their dates exactly when
the dates arrive in the order of the prices. -/
theorem aligned_iff_same_order [DecidableEq κ] {c : Collection} {p : Product}
    (hproduct : c.find? id = some p.fields)
    (hlength : p.prices.toList.length = p.dates.toList.length)
    (horder : ∀ k, (deliveries.filter fun r => r.client = k) =
      sentBy k (sessions k).length)
    (hprices : (p.prices.toList ++
      (arrivals false deliveries).filterMap (priceOf sessions)).Nodup)
    (hdates : (p.dates.toList ++
      (arrivals true deliveries).filterMap (dateOf sessions)).Nodup) :
    ∃ c' data,
      (deliveries.filterMap fun r => r.update sessions).foldlM
        Collection.updateData c = some c' ∧
      c'.find? id = some data ∧
      (Aligned sessions data ↔
        arrivals false deliveries = arrivals true deliveries) := by
  set ws := deliveries.filterMap fun r => r.write sessions with hws
  have hupdates : (deliveries.filterMap fun r => r.update sessions) =
      ws.map (Product.Write.request id) := by
    rw [hws, List.map_filterMap]
    rfl
  have hids : ∀ u ∈ ws.map (Product.Write.request id), u.documentID = id := by
    intro u hu
    obtain ⟨w, -, rfl⟩ := List.mem_map.mp hu
    exact w.documentID_request id
  obtain ⟨c', hc', hdata⟩ := Collection.foldlM_updateData hids hproduct
  rw [Product.foldl_applyTo_request] at hdata
  refine ⟨c', _, hupdates ▸ hc', hdata, ?_⟩
  have hfinalP := prices_arrived horder hprices
  have hfinalD := dates_arrived horder hdates
  rw [filterMap_eq_map_getD (isSome_priceOf horder)] at hprices
  rw [filterMap_eq_map_getD (isSome_dateOf horder)] at hdates
  rw [← intact_iff_eq hlength hprices hdates fun ⟨k, i⟩ =>
    (mem_arrivals horder).trans (mem_arrivals horder).symm]
  rw [← hfinalP, ← hfinalD, aligned_fields]
  constructor
  · rintro h ⟨k, i⟩ ht
    have hi := (mem_arrivals horder).mp ht
    obtain ⟨n, hn⟩ := h k _ (List.getElem_mem hi)
    exact ⟨n, by simpa [priceOf, dateOf, hi] using hn⟩
  · intro h k m hm
    obtain ⟨i, hi⟩ := List.mem_iff_getElem?.mp hm
    have hlt := (List.getElem?_eq_some_iff.mp hi).1
    obtain ⟨n, hn⟩ := h (k, i) ((mem_arrivals horder).mpr hlt)
    exact ⟨n, by simpa [priceOf, dateOf, hi] using hn⟩

end Interleaving

/-! ## Two clients at once -/

/-- Each of two clients records one price for the apple. -/
def twoSessions : Bool → List (Modification Unit "A")
  | false =>
      [⟨firstRowScreen "120" "2021.03.09", firstRowScreen "120" "2021.03.09",
        [⟨"A", apple.fields⟩], "120", "2021.03.09", rfl⟩]
  | true =>
      [⟨firstRowScreen "130" "2021.03.10", firstRowScreen "130" "2021.03.10",
        [⟨"A", apple.fields⟩], "130", "2021.03.10", rfl⟩]

/-- The second client's requests both arrive between those of the first. -/
def nestedDeliveries : List (Sent Bool) :=
  [⟨false, 0, false⟩, ⟨true, 0, false⟩, ⟨true, 0, true⟩, ⟨false, 0, true⟩]

theorem nestedDeliveries_order (k : Bool) :
    (nestedDeliveries.filter fun r => r.client = k) =
      sentBy k (twoSessions k).length := by
  cases k <;> rfl

theorem aligned_iff_same_order_nested :
    ∃ c' data,
      (nestedDeliveries.filterMap fun r => r.update twoSessions).foldlM
        Collection.updateData (appleDocuments apple) = some c' ∧
      c'.find? "A" = some data ∧
      (Aligned twoSessions data ↔
        arrivals false nestedDeliveries = arrivals true nestedDeliveries) :=
  aligned_iff_same_order (p := apple) (by decide) (by decide)
    nestedDeliveries_order (by decide) (by decide)

theorem nestedDeliveries_not_aligned :
    (∀ k, (nestedDeliveries.filter fun r => r.client = k) =
      sentBy k (twoSessions k).length) ∧
    (apple.prices.toList ++ (arrivals false nestedDeliveries).filterMap
      (priceOf twoSessions)) = ["100", "120", "130"] ∧
    (apple.dates.toList ++ (arrivals true nestedDeliveries).filterMap
      (dateOf twoSessions)) = ["2021.03.08", "2021.03.10", "2021.03.09"] ∧
    ∃ c' data,
      (nestedDeliveries.filterMap fun r => r.update twoSessions).foldlM
        Collection.updateData (appleDocuments apple) = some c' ∧
      c'.find? "A" = some data ∧ ¬ Aligned twoSessions data := by
  refine ⟨nestedDeliveries_order, by decide, by decide, _,
    (((((apple.receive (.price "120")).receive (.price "130")).receive
      (.date "2021.03.10")).receive (.date "2021.03.09"))).fields, rfl,
    by decide, ?_⟩
  rw [aligned_fields]
  intro h
  obtain ⟨i, hprice, hdate⟩ := h false _ (List.mem_singleton.mpr rfl)
  have hfirst : ["100", "120", "130"][1]? = some "120" := rfl
  have hlt := (List.getElem?_eq_some_iff.mp hprice).1
  have hi : i = 1 :=
    (List.getElem?_inj hlt (by decide)).mp (hprice.trans hfirst.symm)
  subst hi
  exact absurd hdate (by decide)

end Grocr
