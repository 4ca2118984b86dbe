import Grocr.Proofs.History
import Grocr.Requests
/-!
# When an operation is all or nothing

The requests of an operation are not tied together.  With the branches that
trap left aside, an operation leaves half a record behind exactly when a later
request fails and the earlier one has changed something.
-/

namespace Grocr

open Support Support.Swift Firestore Storage

/-! ## What one update changes -/

def Contains (field value : String) (data : Fields) : Prop :=
  Scalar.string value ∈
    ArrayTransform.coercedFieldValuesArray (data.find? field)

instance (field value : String) (data : Fields) :
    Decidable (Contains field value data) :=
  inferInstanceAs (Decidable (_ ∈ _))

namespace Firestore.Update

variable {id field value : String} {data : Fields}

theorem contains_applyTo (id field value : String) (data : Fields) :
    Contains field value
      ((⟨id, field, [.string value]⟩ : Update).applyTo data) := by
  rw [Contains, find?_applyTo, if_pos rfl]
  exact mem_addNew.mpr (.inr rfl)

theorem contains_applyTo_of_ne {field' value' : String} (h : field' ≠ field) :
    Contains field' value'
        ((⟨id, field, [.string value]⟩ : Update).applyTo data) ↔
      Contains field' value' data := by
  rw [Contains, find?_applyTo, if_neg h, Contains]

theorem applyTo_eq_self_iff :
    (⟨id, field, [.string value]⟩ : Update).applyTo data = data ↔
      Contains field value data := by
  constructor
  · intro h
    have hcontains := contains_applyTo id field value data
    rwa [h] at hcontains
  · intro h
    cases hfield : data.find? field with
    | none => simp [Contains, hfield, ArrayTransform.coercedFieldValuesArray] at h
    | some v =>
        cases v with
        | scalar v =>
            simp [Contains, hfield, ArrayTransform.coercedFieldValuesArray] at h
        | array elements =>
            rw [Contains, hfield] at h
            have happly : ArrayTransform.apply [.string value]
                (some (.array elements)) = .array elements := by
              rw [ArrayTransform.apply]
              exact congrArg FieldValue.array (addNew_of_mem h)
            refine Table.insert_of_find? ?_
            rw [hfield]
            exact congrArg some happly.symm

end Firestore.Update

namespace Stores

variable {UIImage Data : Type} {s : Stores Data}

theorem update_true {u : Update} {data : Fields}
    (h : s.documents.find? u.documentID = some data) :
    s.update u true =
      { s with documents := s.documents.modify u.documentID u.applyTo } := by
  have hmem : u.documentID ∈ s.documents.keys :=
    Table.mem_keys_iff_find?.mpr ⟨data, h⟩
  rw [update, if_pos rfl, Collection.updateData, if_pos hmem, Option.getD_some]

theorem update_false (u : Update) : s.update u false = s := rfl

theorem find?_update_true {u : Update} {data : Fields}
    (h : s.documents.find? u.documentID = some data) :
    (s.update u true).documents.find? u.documentID = some (u.applyTo data) := by
  rw [update_true h]
  dsimp only
  rw [Table.find?_modify, if_pos rfl, h, Option.map_some]

theorem update_eq_self_iff {id field value : String} {data : Fields}
    (h : s.documents.find? id = some data) :
    s.update ⟨id, field, [.string value]⟩ true = s ↔
      Contains field value data := by
  have hself : (⟨id, field, [.string value]⟩ : Update).applyTo data = data ↔
      Contains field value data :=
    Update.applyTo_eq_self_iff
  rw [← hself]
  constructor
  · intro heq
    have hfind := find?_update_true (u := ⟨id, field, [.string value]⟩) h
    rw [heq, h, Option.some.injEq] at hfind
    exact hfind.symm
  · intro heq
    rw [update_true (u := ⟨id, field, [.string value]⟩) h]
    have hsame : s.documents.modify id
        (⟨id, field, [.string value]⟩ : Update).applyTo = s.documents := by
      refine Table.modify_of_find? fun v hv => ?_
      rw [h, Option.some.injEq] at hv
      rwa [← hv]
    rw [hsame]

/-! ## All or nothing -/

/-- The operation has not trapped, and its record is whole or the stores are
as they were. -/
def AllOrNothing (whole : Stores Data → Prop) (s : Stores Data)
    (result : Stores Data × Option Trap) : Prop :=
  result.2 = none ∧ (whole result.1 ∨ result.1 = s)

def CreateWhole (id name price description url price_Time : String)
    (image_Data : Option Data) (s : Stores Data) : Prop :=
  s.bucket.find? (PopUController.pictureReference name).fullPath = image_Data ∧
    s.documents.find? id =
      some (Product.created name price description url price_Time).fields

def ModifyWhole (id price date : String) (s : Stores Data) : Prop :=
  ∃ data, s.documents.find? id = some data ∧ Contains "price" price data ∧
    Contains "Current Date" date data

section Create

variable {jpegData : UIImage → Option Data} {image : UIImage}
  {id name price description url price_Time : String}

theorem create_eq (putData setData : Bool) :
    create jpegData ⟨some image, some name, some price, some description⟩ id
        price_Time ⟨putData, some url, setData⟩ s =
      match jpegData image with
      | none => (s, none)
      | some image_Data =>
          if putData then
            ({ documents :=
                if setData then
                  s.documents.setData id (Product.created name price
                    description url price_Time).fields
                else s.documents
               bucket := s.bucket.putData
                (PopUController.pictureReference name) image_Data }, none)
          else (s, none) := by
  cases hdata : jpegData image with
  | none =>
      have hpress : PopUController.updateBtnPressed jpegData
          ⟨some image, some name, some price, some description⟩ = .ok none :=
        PopUController.updateBtnPressed_eq_ok.mpr
          ⟨image, name, price, description, rfl, rfl, rfl, rfl, by
            rw [hdata, Option.map_none]⟩
      rw [create, hpress]
  | some image_Data =>
      have hpress : PopUController.updateBtnPressed jpegData
          ⟨some image, some name, some price, some description⟩ =
          .ok (some ⟨PopUController.pictureReference name, image_Data,
            PopUController.initialDoc name price description⟩) :=
        PopUController.updateBtnPressed_eq_ok.mpr
          ⟨image, name, price, description, rfl, rfl, rfl, rfl, by
            rw [hdata, Option.map_some]⟩
      have hdoc := Product.downloadURLCompleted_initialDoc
        ⟨PopUController.pictureReference name, image_Data,
          PopUController.initialDoc name price description⟩
        name price description url price_Time rfl
      simp only [create, hpress, hdoc]
      cases putData <;> cases setData <;> rfl

theorem create_noTrap (putData setData : Bool) :
    (create jpegData ⟨some image, some name, some price, some description⟩ id
      price_Time ⟨putData, some url, setData⟩ s).2 = none := by
  rw [create_eq]
  cases jpegData image with
  | none => rfl
  | some image_Data => cases putData <;> rfl

theorem create_allOrNothing_iff (putData setData : Bool)
    (hid : id ∉ s.documents.keys) :
    AllOrNothing
        (CreateWhole id name price description url price_Time (jpegData image))
        s
        (create jpegData ⟨some image, some name, some price, some description⟩
          id price_Time ⟨putData, some url, setData⟩ s) ↔
      jpegData image = none ∨ putData = false ∨ setData = true ∨
        s.bucket.find? (PopUController.pictureReference name).fullPath =
          jpegData image := by
  rw [create_eq]
  cases hdata : jpegData image with
  | none => simp [AllOrNothing]
  | some image_Data =>
      cases putData with
      | false => simp [AllOrNothing]
      | true =>
          cases setData with
          | true =>
              simp [AllOrNothing, CreateWhole, Bucket.putData,
                Collection.find?_setData]
          | false =>
              -- the picture is stored and its document is not
              obtain ⟨documents, bucket⟩ := s
              have hnone : documents.find? id = none :=
                Table.find?_eq_none.mpr hid
              simp [AllOrNothing, CreateWhole, hnone, Bucket.putData,
                Table.insert_eq_self_iff]

end Create

section Modify

variable {detail : DetailViewController UIImage} {indexPath : IndexPath}
  {document : Document}

theorem modify_eq (hindex : detail.indexPathInt = some indexPath)
    (hrow : s.documents.getDocuments[indexPath.row]? = some document)
    (date price text : String) (answers : ModifyAnswers) :
    modify ((detail.modifyBtnPressed date).enter price text) answers s =
      (if answers.getDocuments then
        (s.update (DetailViewController.priceUpdate document.documentID price)
          answers.price).update
            (DetailViewController.dateUpdate document.documentID
              (if text = "" then date else text)) answers.date
      else s, none) := by
  set typed := (detail.modifyBtnPressed date).enter price text with htyped
  have hprice : typed.priceTxtFd.text = some price := rfl
  have hindex' : typed.indexPathInt = some indexPath := hindex
  have hdate : typed.submittedDate = some (if text = "" then date else text) :=
    detail.submittedDate_enter date price text
  obtain ⟨self', hself⟩ :=
    typed.updatePriceAndDate_of document.documentID hprice hdate
  rw [modify]
  cases answers.getDocuments with
  | false =>
      have hnone : typed.modifyPressed none = .ok ([], typed) := by
        rw [DetailViewController.modifyPressed, if_pos (by simp [hprice])]
        rfl
      simp [hnone]
  | true =>
      have hsome : typed.modifyPressed (some s.documents.getDocuments) =
          .ok ([DetailViewController.priceUpdate document.documentID price,
            DetailViewController.dateUpdate document.documentID
              (if text = "" then date else text)], self') := by
        rw [typed.modifyPressed_some (by simp [hprice]) hindex', hrow]
        exact hself
      simp [hsome]

theorem modify_noTrap (hindex : detail.indexPathInt = some indexPath)
    (hrow : s.documents.getDocuments[indexPath.row]? = some document)
    (date price text : String) (answers : ModifyAnswers) :
    (modify ((detail.modifyBtnPressed date).enter price text) answers s).2 =
      none := by
  rw [modify_eq hindex hrow]

theorem modifyWhole_iff {id date : String} {price : String} {data : Fields}
    (h : s.documents.find? id = some data) :
    ModifyWhole id price date s ↔
      Contains "price" price data ∧ Contains "Current Date" date data := by
  constructor
  · rintro ⟨data', hdata', hwhole⟩
    rw [h, Option.some.injEq] at hdata'
    rwa [hdata']
  · exact fun hwhole => ⟨data, h, hwhole⟩

section Updates

variable {id price date : String} {data : Fields}
  (h : s.documents.find? id = some data)

include h

theorem modifyWhole_price : ModifyWhole id price date
    (s.update (DetailViewController.priceUpdate id price) true) ↔
      Contains "Current Date" date data := by
  have hfind : (s.update (DetailViewController.priceUpdate id price)
      true).documents.find? id = some
        ((DetailViewController.priceUpdate id price).applyTo data) :=
    find?_update_true h
  have hprice := Update.contains_applyTo id "price" price data
  have hdate : Contains "Current Date" date
      ((DetailViewController.priceUpdate id price).applyTo data) ↔
      Contains "Current Date" date data :=
    Update.contains_applyTo_of_ne (by decide)
  rw [modifyWhole_iff hfind, hdate]
  exact and_iff_right hprice

theorem modifyWhole_date : ModifyWhole id price date
    (s.update (DetailViewController.dateUpdate id date) true) ↔
      Contains "price" price data := by
  have hfind : (s.update (DetailViewController.dateUpdate id date)
      true).documents.find? id = some
        ((DetailViewController.dateUpdate id date).applyTo data) :=
    find?_update_true h
  have hdate := Update.contains_applyTo id "Current Date" date data
  have hprice : Contains "price" price
      ((DetailViewController.dateUpdate id date).applyTo data) ↔
      Contains "price" price data :=
    Update.contains_applyTo_of_ne (by decide)
  rw [modifyWhole_iff hfind, hprice]
  exact and_iff_left hdate

theorem modifyWhole_both : ModifyWhole id price date
    ((s.update (DetailViewController.priceUpdate id price) true).update
      (DetailViewController.dateUpdate id date) true) := by
  have hfind : (s.update (DetailViewController.priceUpdate id price)
      true).documents.find? id = some
        ((DetailViewController.priceUpdate id price).applyTo data) :=
    find?_update_true h
  rw [modifyWhole_date hfind]
  exact Update.contains_applyTo id "price" price data

end Updates

theorem modify_allOrNothing_iff (hindex : detail.indexPathInt = some indexPath)
    (hrow : s.documents.getDocuments[indexPath.row]? = some document)
    (date price text : String) (answers : ModifyAnswers) :
    AllOrNothing
        (ModifyWhole document.documentID price
          (if text = "" then date else text)) s
        (modify ((detail.modifyBtnPressed date).enter price text) answers s) ↔
      answers.getDocuments = false ∨ answers.price = answers.date ∨
        Contains "price" price document.data ∨
        Contains "Current Date" (if text = "" then date else text)
          document.data := by
  rw [modify_eq hindex hrow]
  set submitted := if text = "" then date else text
  have hfind : s.documents.find? document.documentID = some document.data :=
    Collection.mem_getDocuments.mp (List.mem_of_getElem? hrow)
  have hprice : s.update
      (DetailViewController.priceUpdate document.documentID price) true = s ↔
      Contains "price" price document.data := update_eq_self_iff hfind
  have hdate : s.update
      (DetailViewController.dateUpdate document.documentID submitted) true =
        s ↔ Contains "Current Date" submitted document.data :=
    update_eq_self_iff hfind
  obtain ⟨getDocuments, priceOk, dateOk⟩ := answers
  cases getDocuments with
  | false => simp [AllOrNothing]
  | true =>
      cases priceOk with
      | false =>
          cases dateOk with
          | false => simp [AllOrNothing, update_false]
          | true =>
              simp [AllOrNothing, update_false, modifyWhole_date hfind, hdate]
      | true =>
          cases dateOk with
          | false =>
              simp [AllOrNothing, update_false, modifyWhole_price hfind, hprice,
                or_comm]
          | true => simp [AllOrNothing, modifyWhole_both hfind]

end Modify

/-- A create whose picture got an address does not trap, and is all or nothing
unless its document failed after its picture had changed the bucket.  A
modification of a row in the snapshot does not trap, and is all or nothing
unless one request failed and the record of the other was new. -/
theorem operation_allOrNothing_iff (s : Stores Data) :
    (∀ (jpegData : UIImage → Option Data) (image : UIImage)
        (id name price description url price_Time : String)
        (putData setData : Bool), id ∉ s.documents.keys →
      (create jpegData
          ⟨some image, some name, some price, some description⟩ id price_Time
          ⟨putData, some url, setData⟩ s).2 = none ∧
        (AllOrNothing
            (CreateWhole id name price description url price_Time
              (jpegData image)) s
            (create jpegData
              ⟨some image, some name, some price, some description⟩ id
              price_Time ⟨putData, some url, setData⟩ s) ↔
          jpegData image = none ∨ putData = false ∨ setData = true ∨
            s.bucket.find? (PopUController.pictureReference name).fullPath =
              jpegData image)) ∧
    (∀ (detail : DetailViewController UIImage) (indexPath : IndexPath)
        (document : Document) (date price text : String)
        (answers : ModifyAnswers), detail.indexPathInt = some indexPath →
      s.documents.getDocuments[indexPath.row]? = some document →
      (modify ((detail.modifyBtnPressed date).enter price text) answers
          s).2 = none ∧
        (AllOrNothing
            (ModifyWhole document.documentID price
              (if text = "" then date else text)) s
            (modify ((detail.modifyBtnPressed date).enter price text) answers
              s) ↔
          answers.getDocuments = false ∨ answers.price = answers.date ∨
            Contains "price" price document.data ∨
            Contains "Current Date" (if text = "" then date else text)
              document.data)) := by
  constructor
  · intro jpegData image id name price description url price_Time putData
      setData hid
    exact ⟨create_noTrap putData setData,
      create_allOrNothing_iff putData setData hid⟩
  · intro detail indexPath document date price text answers hindex hrow
    exact ⟨modify_noTrap hindex hrow date price text answers,
      modify_allOrNothing_iff hindex hrow date price text answers⟩

def oneApple : Stores Nat := ⟨appleDocuments apple, Table.empty⟩

theorem operation_allOrNothing_iff_oneApple :
    ((create (some : Nat → Option Nat)
          ⟨some 1, some "pear", some "70", some "green"⟩ "B" "2021.03.09"
          ⟨true, some "v", false⟩ oneApple).2 = none ∧
      (AllOrNothing
          (CreateWhole "B" "pear" "70" "green" "v" "2021.03.09" (some 1))
          oneApple
          (create (some : Nat → Option Nat)
            ⟨some 1, some "pear", some "70", some "green"⟩ "B" "2021.03.09"
            ⟨true, some "v", false⟩ oneApple) ↔
        some 1 = none ∨ true = false ∨ false = true ∨
          oneApple.bucket.find?
            (PopUController.pictureReference "pear").fullPath = some 1)) ∧
    (modify
          (((firstRowScreen "" "").modifyBtnPressed "2021.03.09").enter "120"
            "") ⟨true, true, false⟩ oneApple).2 = none ∧
      (AllOrNothing (ModifyWhole "A" "120" "2021.03.09") oneApple
          (modify
            (((firstRowScreen "" "").modifyBtnPressed "2021.03.09").enter
              "120" "") ⟨true, true, false⟩ oneApple) ↔
        true = false ∨ true = false ∨ Contains "price" "120" apple.fields ∨
          Contains "Current Date" "2021.03.09" apple.fields) :=
  ⟨(operation_allOrNothing_iff oneApple).1 (some : Nat → Option Nat) 1 "B"
      "pear" "70" "green" "v" "2021.03.09" true false (by decide),
    (operation_allOrNothing_iff oneApple).2 (firstRowScreen "" "") ⟨0, 0⟩
      ⟨"A", apple.fields⟩ "2021.03.09" "120" "" ⟨true, true, false⟩ rfl
      (by decide)⟩

theorem oneApple_half_done :
    create (some : Nat → Option Nat)
        ⟨some 1, some "pear", some "70", some "green"⟩ "B" "2021.03.09"
        ⟨true, some "v", false⟩ oneApple =
      (⟨appleDocuments apple,
        Table.empty.insert "Market Price/Market Price/pear" 1⟩, none) ∧
    (modify
        (((firstRowScreen "" "").modifyBtnPressed "2021.03.09").enter "120" "")
        ⟨true, true, false⟩ oneApple) =
      (⟨appleDocuments (apple.receive (.price "120")), Table.empty⟩, none) ∧
    ¬ AllOrNothing
        (CreateWhole "B" "pear" "70" "green" "v" "2021.03.09" (some 1)) oneApple
        (create (some : Nat → Option Nat)
          ⟨some 1, some "pear", some "70", some "green"⟩ "B" "2021.03.09"
          ⟨true, some "v", false⟩ oneApple) ∧
    ¬ AllOrNothing (ModifyWhole "A" "120" "2021.03.09") oneApple
        (modify
          (((firstRowScreen "" "").modifyBtnPressed "2021.03.09").enter "120"
            "") ⟨true, true, false⟩ oneApple) := by
  refine ⟨by decide, by decide, ?_, ?_⟩
  · intro h
    have hcondition := (create_allOrNothing_iff true false (by decide)).mp h
    exact absurd hcondition (by decide)
  · intro h
    have hindex : (firstRowScreen "" "").indexPathInt = some ⟨0, 0⟩ := rfl
    have hrow : oneApple.documents.getDocuments[(⟨0, 0⟩ : IndexPath).row]? =
        some ⟨"A", apple.fields⟩ := by
      decide
    have hcondition := (modify_allOrNothing_iff hindex hrow "2021.03.09" "120" ""
      ⟨true, true, false⟩).mp h
    exact absurd hcondition (by decide)

end Stores

end Grocr
