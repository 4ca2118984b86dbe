import Grocr.Firestore.Collection
import Grocr.Storage.Reference
import Grocr.Support.Swift
/-!
# Creating a product

`PopUController.updateBtnPressed` uploads the picture, asks for its download
URL and writes the document, each step in the completion of the one before.
-/

namespace Grocr

open Support.Swift Firestore Storage

structure PopUController (UIImage : Type) where
  productIMG : Option UIImage
  productName : Option String
  productPrice : Option String
  productTxtFLD : Option String

/-- What `updateBtnPressed` hands to its completions: where the picture goes,
its data, and the document so far. -/
structure Upload (Data : Type) where
  uploadProductData : Reference
  image_Data : Data
  uploadDoc : Fields
deriving DecidableEq

namespace PopUController

variable {UIImage Data : Type}

def storageRef : Reference := .withPath "Market Price"

/-- Where the picture of a product with this name is stored. -/
def pictureReference (name : String) : Reference :=
  storageRef.child ("Market Price/" ++ name)

def initialDoc (name price description : String) : Fields :=
  ((((Support.Table.empty.insert "name" (.string name)).insert "price"
    (.strings [price])).insert "desc" (.string description)).insert "complete"
      (.boolean false)).insert "PriceCount" (.integer 1)

/-- `updateBtnPressed` up to the upload; a picture without JPEG data stops it
silently. -/
def updateBtnPressed (jpegData : UIImage → Option Data)
    (self : PopUController UIImage) : Except Trap (Option (Upload Data)) := do
  let local_IMG ← unwrap self.productIMG
  let image_Data := jpegData local_IMG
  let name ← unwrap self.productName
  let price ← unwrap self.productPrice
  let description ← unwrap self.productTxtFLD
  let uploadProductData := pictureReference name
  let uploadDoc := initialDoc name price description
  match image_Data with
  | none => pure none
  | some image_Data => pure (some ⟨uploadProductData, image_Data, uploadDoc⟩)

/-- A press needs a picture and the three texts, and hands on what it took
from them if the picture has JPEG data. -/
theorem updateBtnPressed_eq_ok {jpegData : UIImage → Option Data}
    {self : PopUController UIImage} {upload : Option (Upload Data)} :
    self.updateBtnPressed jpegData = .ok upload ↔
      ∃ image name price description, self.productIMG = some image ∧
        self.productName = some name ∧ self.productPrice = some price ∧
        self.productTxtFLD = some description ∧
        upload = (jpegData image).map fun image_Data =>
          ⟨pictureReference name, image_Data,
            initialDoc name price description⟩ := by
  simp only [updateBtnPressed, bind_eq_ok, unwrap_eq_ok]
  constructor
  · rintro ⟨image, himage, name, hname, price, hprice, description,
      hdescription, h⟩
    refine ⟨image, name, price, description, himage, hname, hprice,
      hdescription, ?_⟩
    cases hdata : jpegData image <;> simp_all [pure_eq_ok]
  · rintro ⟨image, name, price, description, himage, hname, hprice,
      hdescription, rfl⟩
    refine ⟨image, himage, name, hname, price, hprice, description,
      hdescription, ?_⟩
    cases jpegData image <;> rfl

/-- The completion of `downloadURL`: the document that `setData` is asked to
write.  `url` is nil after an error, which is printed, no more; `price_Time`
is the formatted time of the completion. -/
def downloadURLCompleted (upload : Upload Data) (url : Option String)
    (price_Time : String) : Except Trap Fields := do
  let downUrlStr ← unwrap url
  let uploadDoc := upload.uploadDoc.insert "Image URL" (.string downUrlStr)
  let result : List String := [price_Time]
  pure (uploadDoc.insert "Current Date" (.strings result))

/-- The picture has JPEG data, without which nothing is uploaded. -/
def HasPicture (jpegData : UIImage → Option Data)
    (self : PopUController UIImage) : Prop :=
  ∃ image data, self.productIMG = some image ∧ jpegData image = some data

/-- The document that a press leads to when the upload succeeds and the
picture gets the address `url`. -/
def createdDoc (jpegData : UIImage → Option Data) (self : PopUController UIImage)
    (url price_Time : String) : Except Trap (Option Fields) := do
  let upload ← self.updateBtnPressed jpegData
  match upload with
  | none => pure none
  | some upload =>
      let uploadDoc ← downloadURLCompleted upload (some url) price_Time
      pure (some uploadDoc)

end PopUController

end Grocr
