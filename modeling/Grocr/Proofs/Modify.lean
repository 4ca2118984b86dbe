import Grocr.Product
import Grocr.Proofs.Loading
/-!
# The document that a modification reaches

`modifyPressed` looks its product up by row number in a second snapshot.  It
issues its two requests on whatever document stands in that row by then, and
traps when the row is gone.
-/

namespace Grocr

open Support Support.Swift Firestore

namespace DetailViewController

variable {UIImage : Type}

/-- The date that `modifyPressed` sends: the text of the date field, or its
placeholder if the text is empty. -/
def submittedDate (self : DetailViewController UIImage) : Option String :=
  if self.currentTimeTxtFd.text = some "" then
    self.currentTimeTxtFd.placeholder
  else self.currentTimeTxtFd.text

theorem submittedDate_enter (self : DetailViewController UIImage)
    (date price text : String) :
    ((self.modifyBtnPressed date).enter price text).submittedDate =
      some (if text = "" then date else text) := by
  by_cases h : text = "" <;> simp [submittedDate, enter, modifyBtnPressed, h]

theorem updatePriceAndDate_eq_ok {self self' : DetailViewController UIImage}
    {key : String} {us : List Update}
    (h : self.updatePriceAndDate key = .ok (us, self')) :
    ∃ price date, self.priceTxtFd.text = some price ∧
      self.submittedDate = some date ∧
      us = [priceUpdate key price, dateUpdate key date] := by
  unfold updatePriceAndDate at h
  obtain ⟨price, hprice, h⟩ := bind_eq_ok.mp h
  rw [unwrap_eq_ok] at hprice
  split at h
  next hempty =>
    obtain ⟨placeholder, hplaceholder, h⟩ := bind_eq_ok.mp h
    rw [unwrap_eq_ok] at hplaceholder
    cases h
    exact ⟨price, placeholder, hprice, by
      rw [submittedDate, if_pos hempty, hplaceholder], rfl⟩
  next hnonempty =>
    obtain ⟨date, hdate, h⟩ := bind_eq_ok.mp h
    rw [unwrap_eq_ok] at hdate
    cases h
    exact ⟨price, date, hprice, by
      rw [submittedDate, if_neg hnonempty, hdate], rfl⟩

theorem updatePriceAndDate_of {self : DetailViewController UIImage}
    {price date : String} (key : String)
    (hprice : self.priceTxtFd.text = some price)
    (hdate : self.submittedDate = some date) :
    ∃ self', self.updatePriceAndDate key =
      .ok ([priceUpdate key price, dateUpdate key date], self') := by
  unfold submittedDate at hdate
  rw [updatePriceAndDate, hprice, unwrap_some, ok_bind]
  split at hdate
  next hempty =>
    rw [if_pos hempty, hdate]
    exact ⟨_, rfl⟩
  next hnonempty =>
    rw [if_neg hnonempty, hdate]
    exact ⟨_, rfl⟩

theorem modifyPressed_some {self : DetailViewController UIImage}
    {documents : List Document} {indexPath : IndexPath}
    (hprice : self.priceTxtFd.text ≠ none)
    (hindex : self.indexPathInt = some indexPath) :
    self.modifyPressed (some documents) =
      match documents[indexPath.row]? with
      | some document => self.updatePriceAndDate document.documentID
      | none => .error .indexOutOfRange := by
  rw [modifyPressed, if_pos hprice, getDocumentsCompleted,
    GroceryListTableViewController.appendRange_decode, ok_bind, hindex,
    unwrap_some, ok_bind]
  dsimp only
  rw [subscript, List.getElem?_map]
  cases documents[indexPath.row]? with
  | none => rfl
  | some document => rfl

/-- Whatever it does, `modifyPressed` asks for nothing but a price and a date
of one document. -/
theorem modifyPressed_eq_ok {self self' : DetailViewController UIImage}
    {snapshot : Option (List Document)} {us : List Update}
    (h : self.modifyPressed snapshot = .ok (us, self')) :
    us = [] ∨ ∃ key price date, self.priceTxtFd.text = some price ∧
      self.submittedDate = some date ∧
      us = [priceUpdate key price, dateUpdate key date] := by
  unfold modifyPressed at h
  split at h
  next hprice =>
    cases snapshot with
    | none =>
        cases h
        exact .inl rfl
    | some documents =>
        unfold getDocumentsCompleted at h
        obtain ⟨returnItem, -, h⟩ := bind_eq_ok.mp h
        obtain ⟨indexPath, -, h⟩ := bind_eq_ok.mp h
        obtain ⟨item, -, h⟩ := bind_eq_ok.mp h
        obtain ⟨price, date, hus⟩ := updatePriceAndDate_eq_ok h
        exact .inr ⟨item.key, price, date, hus⟩
  next =>
    cases h
    exact .inl rfl

theorem mem_modifyPressed {self self' : DetailViewController UIImage}
    {snapshot : Option (List Document)} {us : List Update} {u : Update}
    (h : self.modifyPressed snapshot = .ok (us, self')) (hu : u ∈ us) :
    ∃ id w, u = Product.Write.request id w := by
  rcases modifyPressed_eq_ok h with rfl | ⟨key, price, date, -, -, rfl⟩
  · simp at hu
  · simp only [List.mem_cons, List.not_mem_nil, or_false] at hu
    rcases hu with rfl | rfl
    · exact ⟨key, .price price, rfl⟩
    · exact ⟨key, .date date, rfl⟩

end DetailViewController

end Grocr
