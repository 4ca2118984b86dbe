import Grocr.Pictures
import Grocr.Product
/-!
# Whose picture a document shows

Two products share a storage object exactly when their names have the same
path components.  A document keeps the picture it was created with as long as
no product with such a name brings another one.
-/

namespace Grocr

open Support Support.Swift Firestore Storage

namespace PopUController

variable {UIImage Data : Type}

/-- Names give one object exactly when their components agree. -/
theorem fullPath_pictureReference_inj {s t : String} :
    (pictureReference s).fullPath = (pictureReference t).fullPath ↔
      pathComponents s = pathComponents t := by
  have hobject : storageRef.object = some "Market Price" := by decide
  have hne : ∀ name, "Market Price/" ++ name ≠ "" := by
    intro name h
    have hlength := congrArg String.length h
    simp at hlength
  have hpath : ∀ name, pathComponents ("Market Price" ++ "/" ++
      ("Market Price/" ++ name)) =
      pathComponents "Market Price" ++
        (pathComponents "Market Price" ++ pathComponents name) := by
    intro name
    have hname : "Market Price/" ++ name = "Market Price" ++ "/" ++ name := by
      rw [String.append_assoc]
      rfl
    calc
      pathComponents ("Market Price" ++ "/" ++ ("Market Price/" ++ name)) =
          pathComponents "Market Price" ++
            pathComponents ("Market Price/" ++ name) :=
        pathComponents_append ..
      _ = pathComponents "Market Price" ++
            pathComponents ("Market Price" ++ "/" ++ name) := by rw [hname]
      _ = pathComponents "Market Price" ++
            (pathComponents "Market Price" ++ pathComponents name) := by
        rw [pathComponents_append]
  rw [pictureReference, pictureReference,
    Reference.fullPath_child hobject (hne s),
    Reference.fullPath_child hobject (hne t),
    standardizedPathForString_inj, hpath, hpath]
  simp

theorem updateBtnPressed_eq_ok_some {jpegData : UIImage → Option Data}
    {form : PopUController UIImage} {upload : Upload Data}
    (h : form.updateBtnPressed jpegData = .ok (some upload)) :
    ∃ image name, form.productIMG = some image ∧
      form.productName = some name ∧
      jpegData image = some upload.image_Data ∧
      upload.uploadProductData = pictureReference name := by
  obtain ⟨image, name, price, description, himage, hname, -, -, hupload⟩ :=
    updateBtnPressed_eq_ok.mp h
  obtain ⟨data, hdata, rfl⟩ := Option.map_eq_some_iff.mp hupload.symm
  exact ⟨image, name, himage, hname, hdata, rfl⟩

end PopUController

namespace Pictures

variable {UIImage Data : Type} {jpegData : UIImage → Option Data}
  {refersTo : String → Option String}

/-- The object behind the document's address holds the picture that was chosen
for it. -/
def Holds (refersTo : String → Option String) (s : Pictures Data)
    (d : Created Data) : Prop :=
  ∃ doc url path, s.documents.find? d.id = some doc ∧
    doc.find? "Image URL" = some (.string url) ∧ refersTo url = some path ∧
    s.bucket.find? path = some d.upload.image_Data

def Intact (refersTo : String → Option String) (s : Pictures Data) : Prop :=
  ∀ d ∈ s.created, Holds refersTo s d

/-- Any two presses whose names have the same path components choose pictures
with the same data. -/
def SamePictures (jpegData : UIImage → Option Data)
    (es : List (Event UIImage Data)) : Prop :=
  ∀ f g : PopUController UIImage, .updateBtnPressed f ∈ es →
    .updateBtnPressed g ∈ es →
    ∀ n m a b x y, f.productName = some n → g.productName = some m →
      f.productIMG = some a → g.productIMG = some b →
      jpegData a = some x → jpegData b = some y →
      pathComponents n = pathComponents m → x = y

def Pressed (jpegData : UIImage → Option Data)
    (es : List (Event UIImage Data)) (upload : Upload Data) : Prop :=
  ∃ form, .updateBtnPressed form ∈ es ∧
    form.updateBtnPressed jpegData = .ok (some upload)

theorem pressed_append {es : List (Event UIImage Data)}
    {e : Event UIImage Data} {u : Upload Data} :
    Pressed jpegData (es ++ [e]) u ↔ Pressed jpegData es u ∨
      ∃ form, e = .updateBtnPressed form ∧
        form.updateBtnPressed jpegData = .ok (some u) := by
  constructor
  · rintro ⟨form, hform, hu⟩
    rcases List.mem_append.mp hform with hform | hform
    · exact .inl ⟨form, hform, hu⟩
    · exact .inr ⟨form, (List.mem_singleton.mp hform).symm, hu⟩
  · rintro (⟨form, hform, hu⟩ | ⟨form, rfl, hu⟩)
    · exact ⟨form, List.mem_append_left _ hform, hu⟩
    · exact ⟨form, by simp, hu⟩

theorem SamePictures.image_Data_eq {es : List (Event UIImage Data)}
    (h : SamePictures jpegData es) {u v : Upload Data}
    (hu : Pressed jpegData es u) (hv : Pressed jpegData es v)
    (hpath : u.uploadProductData.fullPath = v.uploadProductData.fullPath) :
    u.image_Data = v.image_Data := by
  obtain ⟨f, hf, hfu⟩ := hu
  obtain ⟨g, hg, hgv⟩ := hv
  obtain ⟨a, n, ha, hn, hx, hun⟩ :=
    PopUController.updateBtnPressed_eq_ok_some hfu
  obtain ⟨b, m, hb, hm, hy, hvm⟩ :=
    PopUController.updateBtnPressed_eq_ok_some hgv
  rw [hun, hvm, PopUController.fullPath_pictureReference_inj] at hpath
  exact h f g hf hg n m a b _ _ hn hm ha hb hx hy hpath

/-! ## Where the addresses of the documents lead -/

def PointsTo (refersTo : String → Option String) (doc : Fields)
    (upload : Upload Data) : Prop :=
  ∃ url, doc.find? "Image URL" = some (.string url) ∧
    refersTo url = some upload.uploadProductData.fullPath

structure Addressed (refersTo : String → Option String) (s : Pictures Data) :
    Prop where
  running : ∀ c ∈ s.running, ∀ doc, c.phase = .setData doc →
    PointsTo refersTo doc c.upload
  created : ∀ d ∈ s.created, ∃ doc, s.documents.find? d.id = some doc ∧
    PointsTo refersTo doc d.upload

theorem addressed_initial (bucket : Bucket Data) (documents : Collection) :
    Addressed refersTo (initial bucket documents) :=
  ⟨by simp [initial], by simp [initial]⟩

theorem find?_imageURL_downloadURLCompleted {upload : Upload Data}
    {url price_Time : String} {doc : Fields}
    (h : PopUController.downloadURLCompleted upload (some url) price_Time =
      .ok doc) :
    doc.find? "Image URL" = some (.string url) := by
  rw [PopUController.downloadURLCompleted, unwrap_some, ok_bind] at h
  cases h
  simp [Table.find?_insert]

variable [DecidableEq Data]

theorem mem_running_advance {s : Pictures Data} {c c' : Creation Data}
    {phase : Phase} (h : c' ∈ (s.advance c phase).running) :
    c' ∈ s.running ∨ c' = ⟨c.upload, phase⟩ := by
  rcases List.mem_append.mp h with h | h
  · exact .inl (List.mem_of_mem_erase h)
  · exact .inr (List.mem_singleton.mp h)

theorem Addressed.step {s t : Pictures Data} {e : Event UIImage Data}
    (h : Addressed refersTo s) (henabled : enabled refersTo s e)
    (hstep : step jpegData s e = .ok t) : Addressed refersTo t := by
  cases e with
  | updateBtnPressed form =>
      obtain ⟨upload, -, hstep⟩ := bind_eq_ok.mp hstep
      cases upload with
      | none =>
          cases hstep
          exact h
      | some upload =>
          cases hstep
          refine ⟨fun c hc doc hdoc => ?_, h.created⟩
          rcases List.mem_append.mp hc with hc | hc
          · exact h.running c hc doc hdoc
          · rw [List.mem_singleton.mp hc] at hdoc
            cases hdoc
  | putDataCompleted c =>
      cases hstep
      refine ⟨fun c' hc' doc hdoc => ?_, h.created⟩
      rcases mem_running_advance hc' with hc' | rfl
      · exact h.running c' hc' doc hdoc
      · cases hdoc
  | downloadURLCompleted c url price_Time =>
      obtain ⟨uploadDoc, hdoc, hstep⟩ := bind_eq_ok.mp hstep
      cases hstep
      refine ⟨fun c' hc' doc hphase => ?_, h.created⟩
      rcases mem_running_advance hc' with hc' | rfl
      · exact h.running c' hc' doc hphase
      · cases hphase
        exact ⟨url, find?_imageURL_downloadURLCompleted hdoc, henabled.2.2⟩
  | setDataCompleted c uploadDoc id =>
      obtain ⟨hc, hphase, hid⟩ := henabled
      cases hstep
      refine ⟨fun c' hc' => h.running c' (List.mem_of_mem_erase hc'),
        fun d hd => ?_⟩
      rcases List.mem_append.mp hd with hd | hd
      · -- the new ID is not that of an earlier document
        obtain ⟨doc, hdoc, hpoints⟩ := h.created d hd
        have hne : d.id ≠ id := by
          rintro rfl
          exact hid (Table.mem_keys_iff_find?.mpr ⟨doc, hdoc⟩)
        exact ⟨doc, by rw [Collection.find?_setData, if_neg hne, hdoc], hpoints⟩
      · rw [List.mem_singleton.mp hd]
        exact ⟨uploadDoc, by rw [Collection.find?_setData, if_pos rfl],
          h.running c hc uploadDoc hphase⟩

/-! ## Which uploads are under way or done -/

def uploads (s : Pictures Data) : List (Upload Data) :=
  s.running.map Creation.upload ++ s.created.map Created.upload

theorem mem_uploads_advance {s : Pictures Data} {c : Creation Data}
    {phase : Phase} (hc : c ∈ s.running) (u : Upload Data) :
    u ∈ (s.advance c phase).uploads ↔ u ∈ s.uploads := by
  have hperm := (List.perm_cons_erase hc).map Creation.upload
  simp only [uploads, advance, List.mem_append, List.map_append,
    hperm.mem_iff, List.map_cons, List.map_nil, List.mem_cons,
    List.not_mem_nil, or_false]
  tauto

theorem mem_uploads_step {s t : Pictures Data} {e : Event UIImage Data}
    (henabled : enabled refersTo s e) (hstep : step jpegData s e = .ok t)
    (u : Upload Data) :
    u ∈ t.uploads ↔ u ∈ s.uploads ∨
      ∃ form, e = .updateBtnPressed form ∧
        form.updateBtnPressed jpegData = .ok (some u) := by
  cases e with
  | updateBtnPressed form =>
      obtain ⟨upload, hupload, hstep⟩ := bind_eq_ok.mp hstep
      cases upload with
      | none =>
          cases hstep
          simp [hupload]
      | some upload =>
          cases hstep
          simp only [uploads, List.map_append, List.mem_append, List.map_cons,
            List.map_nil, List.mem_singleton, Event.updateBtnPressed.injEq,
            exists_eq_left', hupload, Except.ok.injEq, Option.some.injEq]
          tauto
  | putDataCompleted c =>
      cases hstep
      refine Iff.trans (mem_uploads_advance ?_ u) ?_
      · exact henabled.1
      · simp [uploads]
  | downloadURLCompleted c url price_Time =>
      obtain ⟨uploadDoc, -, hstep⟩ := bind_eq_ok.mp hstep
      cases hstep
      rw [mem_uploads_advance henabled.1]
      simp
  | setDataCompleted c uploadDoc id =>
      cases hstep
      have hperm := (List.perm_cons_erase henabled.1).map Creation.upload
      simp only [uploads, List.mem_append, hperm.mem_iff, List.map_append,
        List.map_cons, List.map_nil, List.mem_cons, List.not_mem_nil, or_false,
        reduceCtorEq, false_and, exists_false]
      tauto

theorem mem_uploads_iff {bucket : Bucket Data} {documents : Collection}
    {es : List (Event UIImage Data)} {s : Pictures Data}
    (hrun : (machine jpegData refersTo).Run (initial bucket documents) es s)
    (u : Upload Data) : u ∈ s.uploads ↔ Pressed jpegData es u := by
  refine hrun.induct (C := fun _ _ _ => True)
    (I := fun es s => u ∈ s.uploads ↔ Pressed jpegData es u)
    (fun _ _ _ _ _ _ => trivial) ?_ ?_
  · simp [uploads, initial, Pressed]
  · intro pre s e t h _ henabled hstep
    rw [mem_uploads_step henabled hstep, pressed_append, h]

/-! ## What the bucket holds -/

def InBucket (s : Pictures Data) (upload : Upload Data) : Prop :=
  s.bucket.find? upload.uploadProductData.fullPath = some upload.image_Data

structure Stored (jpegData : UIImage → Option Data)
    (es : List (Event UIImage Data)) (s : Pictures Data) : Prop where
  pressed : ∀ u ∈ s.uploads, Pressed jpegData es u
  running : ∀ c ∈ s.running, c.phase ≠ .putData → s.InBucket c.upload
  created : ∀ d ∈ s.created, s.InBucket d.upload

omit [DecidableEq Data] in
theorem inBucket_putData {es : List (Event UIImage Data)} {s t : Pictures Data}
    {u v : Upload Data} (hsame : SamePictures jpegData es)
    (hu : Pressed jpegData es u) (hv : Pressed jpegData es v)
    (hbucket : t.bucket = s.bucket.putData v.uploadProductData v.image_Data)
    (h : s.InBucket u) : t.InBucket u := by
  rw [InBucket, hbucket, Bucket.putData, Table.find?_insert]
  split
  next hpath => rw [hsame.image_Data_eq hu hv hpath]
  next => exact h

theorem Stored.step {es : List (Event UIImage Data)} {s t : Pictures Data}
    {e : Event UIImage Data} (h : Stored jpegData es s)
    (hsame : SamePictures jpegData es) (he : e ∈ es)
    (henabled : enabled refersTo s e) (hstep : step jpegData s e = .ok t) :
    Stored jpegData es t := by
  have hpressed : ∀ u ∈ t.uploads, Pressed jpegData es u := by
    intro u hu
    rcases (mem_uploads_step henabled hstep u).mp hu with hu | ⟨form, rfl, hu⟩
    · exact h.pressed u hu
    · exact ⟨form, he, hu⟩
  have hcreation : ∀ c ∈ s.running, Pressed jpegData es c.upload :=
    fun c hc => h.pressed _
      (List.mem_append_left _ (List.mem_map_of_mem hc))
  cases e with
  | updateBtnPressed form =>
      obtain ⟨upload, -, hstep⟩ := bind_eq_ok.mp hstep
      cases upload with
      | none =>
          cases hstep
          exact h
      | some upload =>
          cases hstep
          refine ⟨hpressed, fun c hc hphase => ?_, h.created⟩
          rcases List.mem_append.mp hc with hc | hc
          · exact h.running c hc hphase
          · rw [List.mem_singleton.mp hc] at hphase
            exact absurd rfl hphase
  | putDataCompleted c =>
      cases hstep
      have hc := hcreation c henabled.1
      refine ⟨hpressed, fun c' hc' hphase => ?_, fun d hd => ?_⟩
      · rcases mem_running_advance hc' with hc' | rfl
        · exact inBucket_putData hsame (hcreation c' hc') hc rfl
            (h.running c' hc' hphase)
        · exact Table.find?_insert_self _ _ _
      · have hd' : d.upload ∈ s.uploads :=
          List.mem_append_right _ (List.mem_map_of_mem hd)
        exact inBucket_putData hsame (h.pressed _ hd') hc rfl (h.created d hd)
  | downloadURLCompleted c url price_Time =>
      obtain ⟨uploadDoc, -, hstep⟩ := bind_eq_ok.mp hstep
      cases hstep
      refine ⟨hpressed, fun c' hc' hphase => ?_, h.created⟩
      rcases mem_running_advance hc' with hc' | rfl
      · exact h.running c' hc' hphase
      · exact h.running c henabled.1 (by simp [henabled.2.1])
  | setDataCompleted c uploadDoc id =>
      cases hstep
      refine ⟨hpressed,
        fun c' hc' => h.running c' (List.mem_of_mem_erase hc'),
        fun d hd => ?_⟩
      rcases List.mem_append.mp hd with hd | hd
      · exact h.created d hd
      · rw [List.mem_singleton.mp hd]
        exact h.running c henabled.1 (by simp [henabled.2.1])

section Runs

variable {bucket : Bucket Data} {documents : Collection}
  {es : List (Event UIImage Data)} {s : Pictures Data}

theorem addressed_of_run
    (hrun : (machine jpegData refersTo).Run (initial bucket documents) es s) :
    Addressed refersTo s :=
  hrun.invariant (I := Addressed refersTo) (addressed_initial bucket documents)
    fun _ _ _ h henabled hstep => h.step henabled hstep

theorem stored_of_run
    (hrun : (machine jpegData refersTo).Run (initial bucket documents) es s)
    (hsame : SamePictures jpegData es) : Stored jpegData es s := by
  refine hrun.induct (C := fun _ _ e => e ∈ es)
    (I := fun _ s => Stored jpegData es s) ?_ ?_ ?_
  · rintro pre e post rfl t -
    simp
  · exact ⟨by simp [uploads, initial], by simp [initial], by simp [initial]⟩
  · intro pre u e v h he henabled hstep
    exact h.step hsame he henabled hstep

theorem exists_upload_of_press {form : PopUController UIImage} {name : String}
    {image : UIImage} {data : Data}
    (hrun : (machine jpegData refersTo).Run (initial bucket documents) es s)
    (hform : .updateBtnPressed form ∈ es) (hname : form.productName = some name)
    (himage : form.productIMG = some image)
    (hdata : jpegData image = some data) :
    ∃ u ∈ s.uploads, u.image_Data = data ∧
      u.uploadProductData = PopUController.pictureReference name := by
  obtain ⟨pre, post, rfl⟩ := List.append_of_mem hform
  obtain ⟨t, hpre, -⟩ := hrun.split
  obtain ⟨-, v, hstep⟩ := hrun.next hpre
  obtain ⟨upload, hupload, -⟩ := bind_eq_ok.mp hstep
  obtain ⟨image', name', price, description, himage', hname', -, -, htaken⟩ :=
    PopUController.updateBtnPressed_eq_ok.mp hupload
  rw [himage, Option.some.injEq] at himage'
  rw [hname, Option.some.injEq] at hname'
  rw [← himage', ← hname', hdata, Option.map_some] at htaken
  rw [htaken] at hupload
  exact ⟨_, (mem_uploads_iff hrun _).mpr ⟨form, by simp, hupload⟩, rfl, rfl⟩

/-- Every document keeps its picture in every run in which names that share an
object share their pictures; and when nothing is under way, all pictures being
intact means that they did. -/
theorem intact_samePictures
    (hrun : (machine jpegData refersTo).Run (initial bucket documents) es s) :
    (SamePictures jpegData es → s.Intact refersTo) ∧
      (s.running = [] → s.Intact refersTo → SamePictures jpegData es) := by
  have haddressed := addressed_of_run hrun
  constructor
  · intro hsame d hd
    have hstored := stored_of_run hrun hsame
    obtain ⟨doc, hdoc, url, hurl, hpath⟩ := haddressed.created d hd
    exact ⟨doc, url, _, hdoc, hurl, hpath, hstored.created d hd⟩
  · intro hidle hintact f g hf hg n m a b x y hn hm ha hb hx hy hcomponents
    have hbucket : ∀ u ∈ s.uploads, s.InBucket u := by
      intro u hu
      rw [uploads, hidle, List.map_nil, List.nil_append] at hu
      obtain ⟨d, hd, rfl⟩ := List.mem_map.mp hu
      obtain ⟨doc, url, path, hdoc, hurl, hpath, hfind⟩ := hintact d hd
      obtain ⟨doc', hdoc', url', hurl', hpath'⟩ := haddressed.created d hd
      rw [hdoc, Option.some.injEq] at hdoc'
      rw [← hdoc', hurl, Option.some.injEq] at hurl'
      cases hurl'
      rw [hpath, Option.some.injEq] at hpath'
      rwa [InBucket, ← hpath']
    obtain ⟨u, hu, rfl, huref⟩ := exists_upload_of_press hrun hf hn ha hx
    obtain ⟨v, hv, rfl, hvref⟩ := exists_upload_of_press hrun hg hm hb hy
    have hsame : u.uploadProductData.fullPath = v.uploadProductData.fullPath := by
      rw [huref, hvref, PopUController.fullPath_pictureReference_inj]
      exact hcomponents
    have hu' := hbucket u hu
    have hv' := hbucket v hv
    rw [InBucket, hsame, hv', Option.some.injEq] at hu'
    exact hu'.symm

end Runs

/-! ## Two names for one object -/

def pictured (name : String) (image : Nat) : PopUController Nat :=
  ⟨some image, some name, some "100", some "red"⟩

def pictureUpload (name : String) (image : Nat) : Upload Nat :=
  ⟨PopUController.pictureReference name, image,
    PopUController.initialDoc name "100" "red"⟩

/-- The address of an object is its path here. -/
def picturePath : String := "Market Price/Market Price/apple"

def pictureDoc (name : String) : Fields :=
  (Product.created name "100" "red" picturePath "2021.03.08").fields

/-- A create with no other create in between. -/
def createAlone (name : String) (image : Nat) (id : String) :
    List (Event Nat Nat) :=
  [.updateBtnPressed (pictured name image),
    .putDataCompleted ⟨pictureUpload name image, .putData⟩,
    .downloadURLCompleted ⟨pictureUpload name image, .downloadURL⟩ picturePath
      "2021.03.08",
    .setDataCompleted ⟨pictureUpload name image, .setData (pictureDoc name)⟩
      (pictureDoc name) id]

def afterBoth : Pictures Nat where
  bucket := Table.empty.insert picturePath 2
  documents := (Table.empty.insert "A" (pictureDoc "apple")).insert "B"
    (pictureDoc "/apple")
  running := []
  created := [⟨"A", pictureUpload "apple" 1⟩, ⟨"B", pictureUpload "/apple" 2⟩]

theorem run_createBoth :
    (machine (some : Nat → Option Nat) some).Run
      (initial Table.empty Table.empty)
      (createAlone "apple" 1 "A" ++ createAlone "/apple" 2 "B") afterBoth :=
  Machine.run_of_replay (by decide)

theorem intact_samePictures_both :
    (SamePictures (some : Nat → Option Nat)
        (createAlone "apple" 1 "A" ++ createAlone "/apple" 2 "B") →
      afterBoth.Intact some) ∧
    (afterBoth.running = [] → afterBoth.Intact some →
      SamePictures (some : Nat → Option Nat)
        (createAlone "apple" 1 "A" ++ createAlone "/apple" 2 "B")) :=
  intact_samePictures run_createBoth

theorem createBoth_not_intact :
    (machine (some : Nat → Option Nat) some).Run
        (initial Table.empty Table.empty)
        (createAlone "apple" 1 "A" ++ createAlone "/apple" 2 "B") afterBoth ∧
      ¬ afterBoth.Intact some := by
  refine ⟨run_createBoth, fun h => ?_⟩
  obtain ⟨doc, url, path, hdoc, hurl, hpath, hfind⟩ :=
    h ⟨"A", pictureUpload "apple" 1⟩ (by simp [afterBoth])
  have hdoc' : afterBoth.documents.find? "A" = some (pictureDoc "apple") := by
    decide
  rw [hdoc', Option.some.injEq] at hdoc
  subst hdoc
  rw [pictureDoc, Product.find?_imageURL, Option.some.injEq] at hurl
  cases hurl
  cases hpath
  exact absurd hfind (by decide)

end Pictures

end Grocr
