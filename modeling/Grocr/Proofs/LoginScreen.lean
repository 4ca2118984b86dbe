import Grocr.LoginScreen
/-!
# Signing up on the login screen

Of the alert only two texts and the flag of its Save action ever change, so
every run of the screen is followed on a form of these three.  On the form two
questions are settled: whether Save is enabled exactly while both fields are
filled, and whether only users who have signed in reach the list.
-/

namespace Grocr

open Support Support.Swift

/-! ## The alert as a form -/

structure SignUpForm where
  email : String
  password : String
  isEnabled : Bool

namespace SignUpForm

def empty : SignUpForm := ⟨"", "", false⟩

def alert (form : SignUpForm) : UIAlertController where
  title := "Register"
  message := "Please Input the ID/PW"
  textFields := [⟨⟨some form.email, some "Enter your email"⟩, 0⟩,
    ⟨⟨some form.password, some "Enter your password"⟩, 1⟩]
  actions := [⟨"Save", form.isEnabled⟩, ⟨"Cancel", true⟩]

/-- Only an edit of the password can enable Save. -/
def edit (form : SignUpForm) : AlertField → String → SignUpForm
  | .email, text => { form with email := text }
  | .password, text =>
      { form with password := text, isEnabled := form.isEnabled || text != "" }

/-- Save is enabled exactly when both fields are filled. -/
def Exact (form : SignUpForm) : Prop :=
  form.isEnabled = true ↔ form.email ≠ "" ∧ form.password ≠ ""

theorem exact_empty : empty.Exact := by
  constructor
  · intro h
    cases h
  · intro h
    exact absurd rfl h.1

theorem Exact.edit_email_iff {form : SignUpForm} (h : form.Exact)
    (text : String) :
    (form.edit .email text).Exact ↔
      (form.password ≠ "" → (text ≠ "" ↔ form.email ≠ "")) := by
  unfold Exact at h
  show (form.isEnabled = true ↔ text ≠ "" ∧ form.password ≠ "") ↔ _
  rw [h, and_congr_left_iff]
  exact imp_congr_right fun _ => Iff.comm

theorem Exact.edit_password_iff {form : SignUpForm} (h : form.Exact)
    (text : String) :
    (form.edit .password text).Exact ↔
      (text ≠ "" → form.email ≠ "") ∧
        (text = "" → form.email ≠ "" → ¬ form.password ≠ "") := by
  unfold Exact at h
  show ((form.isEnabled || text != "") = true ↔
    form.email ≠ "" ∧ text ≠ "") ↔ _
  rw [Bool.or_eq_true, h, bne_iff_ne]
  by_cases htext : text = ""
  · -- the flag keeps what it was, and now has to be false
    simp [htext]
  · -- the flag is set, and only the email can be missing
    simp [htext]

end SignUpForm

namespace LoginViewController

theorem signUpDidTouch_eq (self : LoginViewController) :
    self.signUpDidTouch = .ok ⟨some SignUpForm.empty.alert⟩ := rfl

theorem setSaveEnabled_alert (form : Option SignUpForm) (isEnabled : Bool) :
    setSaveEnabled ⟨form.map SignUpForm.alert⟩ isEnabled =
      .ok ⟨(form.map fun f => { f with isEnabled }).map SignUpForm.alert⟩ := by
  cases form with
  | none => rfl
  | some form => rfl

theorem edit_alert (form : SignUpForm) (field : AlertField) (text : String) :
    LoginScreen.edit ⟨some form.alert⟩ field text =
      .ok ⟨some (form.edit field text).alert⟩ := by
  cases field with
  | email => rfl
  | password =>
      set typed : SignUpForm := { form with password := text }
      -- the tag of the password field is 1, which is `0 | 1`
      show textFieldChanged ⟨some typed.alert⟩
        ⟨⟨some text, some "Enter your password"⟩, 1⟩ = _
      unfold textFieldChanged
      by_cases htext : text = ""
      · have hedit : form.edit .password text = typed := by
          simp [SignUpForm.edit, typed, htext]
        rw [if_neg (by simp [htext]), hedit]
        rfl
      · have hedit : form.edit .password text =
            { typed with isEnabled := true } := by
          simp [SignUpForm.edit, typed, htext]
        rw [if_pos (by simp [htext]), hedit]
        exact setSaveEnabled_alert (some typed) true

theorem textFieldDidEndEditing_alert (form : Option SignUpForm)
    (textField : UITextField) :
    textFieldDidEndEditing ⟨form.map SignUpForm.alert⟩ textField =
      .ok ⟨(form.map fun f =>
        { f with isEnabled := decide (textField.text ≠ some "") }).map
          SignUpForm.alert⟩ := by
  unfold textFieldDidEndEditing
  split
  next h =>
    rw [setSaveEnabled_alert, h]
    rfl
  next h => rw [setSaveEnabled_alert, decide_eq_true h]

theorem saveTouched_alert (form : SignUpForm) :
    saveTouched ⟨some form.alert⟩ =
      .ok (if form.email ≠ "" ∧ form.password ≠ "" then
        [.createUser ⟨form.email, form.password⟩] else []) := by
  show (if some form.email ≠ some "" ∧ some form.password ≠ some "" then _
    else _) = _
  simp only [ne_eq, Option.some.injEq]
  split
  next => rfl
  next => rfl

end LoginViewController

/-! ## Following a run on the form -/

namespace LoginScreen

namespace Event

def after : Event → Option SignUpForm → Option SignUpForm
  | .signUpDidTouch, _ => some .empty
  | .editingChanged field text, form => form.map fun f => f.edit field text
  | .didEndEditing textField, form => form.map fun f =>
      { f with isEnabled := decide (textField.text ≠ some "") }
  | .saveTouched, form | .cancelTouched, form
  | .createUserCompleted _ _, form | .signInCompleted _ _, form => form

def shows : Event → Bool → Bool
  | .signUpDidTouch, _ => true
  | .saveTouched, _ | .cancelTouched, _ => false
  | .editingChanged _ _, shown | .didEndEditing _, shown
  | .createUserCompleted _ _, shown | .signInCompleted _ _, shown => shown

end Event

/-- The alert is the one of the form, and there is one if it is shown. -/
structure Represents (s : LoginScreen) (form : Option SignUpForm) : Prop where
  alert : s.controller.alert = form.map SignUpForm.alert
  isSome : s.alertShown = true → form.isSome

theorem represents_initial : initial.Represents none := by
  constructor
  · rfl
  · intro h
    cases h

theorem foldl_perform (commands : List Command) (s : LoginScreen) :
    (commands.foldl perform s).controller = s.controller ∧
      (commands.foldl perform s).alertShown = s.alertShown := by
  induction commands generalizing s with
  | nil => exact ⟨rfl, rfl⟩
  | cons command commands ih =>
      rw [List.foldl_cons, (ih _).1, (ih _).2]
      cases command with
      | createUser | signIn | performSegue => exact ⟨rfl, rfl⟩

namespace Represents

variable {s t : LoginScreen} {form : Option SignUpForm} {e : Event}

theorem controller_eq (h : s.Represents form) :
    s.controller = ⟨form.map SignUpForm.alert⟩ := by
  rw [← h.alert]

theorem exists_form (h : s.Represents form) (hshown : s.alertShown = true) :
    ∃ f, form = some f ∧ s.controller = ⟨some f.alert⟩ := by
  obtain ⟨f, rfl⟩ := Option.isSome_iff_exists.mp (h.isSome hshown)
  exact ⟨f, rfl, h.controller_eq⟩

theorem update_eq (h : s.Represents form) (henabled : s.enabled e) :
    ∃ u, s.update e = .ok u ∧
      u.controller = ⟨(e.after form).map SignUpForm.alert⟩ ∧
      u.alertShown = e.shows s.alertShown := by
  cases e with
  | signUpDidTouch =>
      rw [update, LoginViewController.signUpDidTouch_eq]
      exact ⟨_, rfl, rfl, rfl⟩
  | editingChanged field text =>
      obtain ⟨f, rfl, hcontroller⟩ := h.exists_form henabled
      rw [update, hcontroller, LoginViewController.edit_alert]
      exact ⟨_, rfl, rfl, rfl⟩
  | didEndEditing textField =>
      have hended := LoginViewController.textFieldDidEndEditing_alert form
        textField
      rw [← h.controller_eq] at hended
      rw [update, hended]
      exact ⟨_, rfl, rfl, rfl⟩
  | saveTouched | cancelTouched | createUserCompleted | signInCompleted =>
      exact ⟨_, rfl, h.controller_eq, rfl⟩

theorem step (h : s.Represents form) (henabled : s.enabled e)
    (hstep : s.step e = .ok t) :
    t.Represents (e.after form) ∧ t.alertShown = e.shows s.alertShown := by
  obtain ⟨commands, -, hstep⟩ := bind_eq_ok.mp hstep
  obtain ⟨u, hu, hcontroller, hshown⟩ := h.update_eq henabled
  rw [hu, ok_bind] at hstep
  cases hstep
  obtain ⟨hcontroller', hshown'⟩ := foldl_perform commands u
  rw [hcontroller] at hcontroller'
  rw [hshown] at hshown'
  refine ⟨⟨by rw [hcontroller'], ?_⟩, hshown'⟩
  rw [hshown']
  cases e with
  | signUpDidTouch => exact fun _ => rfl
  | editingChanged | didEndEditing =>
      intro hs
      have hsome := h.isSome hs
      rwa [Event.after, Option.isSome_map]
  | saveTouched | cancelTouched =>
      intro hs
      cases hs
  | createUserCompleted | signInCompleted => exact h.isSome

end Represents

/-! ## When Save is enabled -/

def filled (s : LoginScreen) (field : AlertField) : Bool :=
  (s.textField field).any fun textField => textField.text.getD "" != ""

/-- While the alert is shown, Save is enabled exactly when both fields are
filled. -/
def SaveExact (s : LoginScreen) : Prop :=
  s.alertShown = true →
    (s.saveEnabled = true ↔
      s.filled .email = true ∧ s.filled .password = true)

/-- Under a filled password, an edit of the email does not change whether it
is filled.  A password is typed only under a filled email and not emptied
again under one.  Editing behind the alert ends with a text exactly when both
fields are filled. -/
def KeepsSaveExact (s : LoginScreen) : Event → Prop
  | .editingChanged .email text =>
      s.filled .password = true → (text ≠ "" ↔ s.filled .email = true)
  | .editingChanged .password text =>
      (text ≠ "" → s.filled .email = true) ∧
        (text = "" → s.filled .email = true → ¬ s.filled .password = true)
  | .didEndEditing textField =>
      s.alertShown = true →
        (textField.text ≠ some "" ↔
          s.filled .email = true ∧ s.filled .password = true)
  | .signUpDidTouch | .saveTouched | .cancelTouched
  | .createUserCompleted _ _ | .signInCompleted _ _ => True

namespace Represents

variable {s t : LoginScreen} {form : SignUpForm} {e : Event}

theorem filled_email_iff (h : s.Represents (some form)) :
    s.filled .email = true ↔ form.email ≠ "" := by
  rw [filled, textField, h.alert]
  exact bne_iff_ne

theorem filled_password_iff (h : s.Represents (some form)) :
    s.filled .password = true ↔ form.password ≠ "" := by
  rw [filled, textField, h.alert]
  exact bne_iff_ne

theorem saveEnabled_eq (h : s.Represents (some form)) :
    s.saveEnabled = form.isEnabled := by
  rw [saveEnabled, h.alert]
  rfl

theorem saveExact_iff (h : s.Represents (some form)) :
    s.SaveExact ↔ (s.alertShown = true → form.Exact) := by
  rw [SaveExact, h.saveEnabled_eq, h.filled_email_iff, h.filled_password_iff]
  rfl

theorem saveExact_step_iff {form : Option SignUpForm}
    (h : s.Represents form) (hexact : s.SaveExact) (henabled : s.enabled e)
    (hstep : s.step e = .ok t) : t.SaveExact ↔ KeepsSaveExact s e := by
  obtain ⟨hafter, hshown⟩ := h.step henabled hstep
  cases e with
  | signUpDidTouch =>
      have ht : t.SaveExact :=
        hafter.saveExact_iff.mpr fun _ => SignUpForm.exact_empty
      exact iff_of_true ht trivial
  | editingChanged field text =>
      have hs : s.alertShown = true := henabled
      have ht : t.alertShown = true := hshown.trans hs
      obtain ⟨f, rfl, -⟩ := h.exists_form hs
      have hf : f.Exact := h.saveExact_iff.mp hexact hs
      rw [hafter.saveExact_iff, imp_iff_right ht]
      cases field with
      | email =>
          rw [hf.edit_email_iff, KeepsSaveExact, h.filled_email_iff,
            h.filled_password_iff]
      | password =>
          rw [hf.edit_password_iff, KeepsSaveExact, h.filled_email_iff,
            h.filled_password_iff]
  | didEndEditing textField =>
      cases form with
      | none =>
          have hs : ¬ s.alertShown = true := by
            intro hs
            cases h.isSome hs
          apply iff_of_true
          · intro ht
            exact absurd (hshown.symm.trans ht) hs
          · intro hs'
            exact absurd hs' hs
      | some f =>
          rw [hafter.saveExact_iff, hshown, KeepsSaveExact, h.filled_email_iff,
            h.filled_password_iff, SignUpForm.Exact, decide_eq_true_iff]
          rfl
  | saveTouched | cancelTouched =>
      have ht : t.SaveExact := by
        intro ht
        cases hshown.symm.trans ht
      exact iff_of_true ht trivial
  | createUserCompleted | signInCompleted =>
      have ht : t.SaveExact := by
        intro ht
        have hs : s.alertShown = true := hshown.symm.trans ht
        obtain ⟨f, rfl, -⟩ := h.exists_form hs
        have hf : f.Exact := h.saveExact_iff.mp hexact hs
        exact hafter.saveExact_iff.mpr (fun _ => hf) ht
      exact iff_of_true ht trivial

end Represents

/-- In a run, Save is enabled exactly while both fields are filled if and only
if every event meets the condition. -/
theorem saveExact_iff_keepsSaveExact {es : List Event} {s : LoginScreen}
    (hrun : machine.Run initial es s) :
    (∀ pre u, pre <+: es → machine.Run initial pre u → u.SaveExact) ↔
      machine.Along initial es (fun _ u e => KeepsSaveExact u e) := by
  have hany : machine.Along initial es (fun _ _ _ => True) :=
    fun _ _ _ _ _ _ => trivial
  have hinit : (∃ form, initial.Represents form) ∧ initial.SaveExact :=
    ⟨⟨none, represents_initial⟩, nofun⟩
  apply hrun.always_iff (I := fun _ u => (∃ form, u.Represents form) ∧
    u.SaveExact) hany hinit fun pre u hI => hI.2
  rintro pre u e v ⟨⟨form, hform⟩, hu⟩ - henabled hstep
  have hexact := hform.saveExact_step_iff hu henabled hstep
  have hafter : v.Represents (e.after form) := (hform.step henabled hstep).1
  exact ⟨hexact, fun hC => ⟨⟨_, hafter⟩, hexact.mpr hC⟩⟩

def passwordOnly : List Event :=
  [.signUpDidTouch, .editingChanged .password "secret"]

def afterPasswordOnly : LoginScreen where
  controller := ⟨some (SignUpForm.alert ⟨"", "secret", true⟩)⟩
  alertShown := true
  creating := []
  signingIn := []
  segues := []

theorem run_passwordOnly :
    machine.Run initial passwordOnly afterPasswordOnly :=
  Machine.run_of_replay (by decide)

theorem saveExact_iff_keepsSaveExact_passwordOnly :
    (∀ pre u, pre <+: passwordOnly → machine.Run initial pre u →
        u.SaveExact) ↔
      machine.Along initial passwordOnly (fun _ u e => KeepsSaveExact u e) :=
  saveExact_iff_keepsSaveExact run_passwordOnly

theorem passwordOnly_not_saveExact :
    machine.Run initial passwordOnly afterPasswordOnly ∧
      ¬ afterPasswordOnly.SaveExact := by
  apply And.intro run_passwordOnly
  intro h
  have hfilled := (h rfl).mp (by decide)
  exact absurd hfilled.1 (by decide)

/-! ## Who reaches the list -/

/-- The event does not trap; it requests a sign-in only as a user has been
created with the same credentials, and it performs a segue only as a sign-in
has brought a user. -/
def LetsOnlySignedIn (s : LoginScreen) (e : Event) : Prop :=
  ∃ commands t, s.respond e = .ok commands ∧ s.step e = .ok t ∧
    (∀ credentials, .signIn credentials ∈ commands →
      ∃ uid, e = .createUserCompleted credentials (.user uid)) ∧
    ∀ identifier, .performSegue identifier ∈ commands →
      ∃ credentials uid, e = .signInCompleted credentials (.user uid)

/-- A reply of Firebase Auth carries a user. -/
def BringsUser : Event → Prop
  | .createUserCompleted _ reply | .signInCompleted _ reply =>
      ∃ uid, reply = .user uid
  | .signUpDidTouch | .editingChanged _ _ | .didEndEditing _ | .saveTouched
  | .cancelTouched => True

theorem Represents.respond_saveTouched {s : LoginScreen}
    {form : Option SignUpForm} (h : s.Represents form)
    (henabled : s.enabled .saveTouched) :
    ∃ commands, s.respond .saveTouched = .ok commands ∧
      ∀ command ∈ commands, ∃ credentials,
        command = .createUser credentials := by
  obtain ⟨f, rfl, hcontroller⟩ := h.exists_form henabled.1
  rw [respond, hcontroller, LoginViewController.saveTouched_alert]
  refine ⟨_, rfl, ?_⟩
  intro command hcommand
  split at hcommand
  next => exact ⟨_, List.mem_singleton.mp hcommand⟩
  next => cases hcommand

theorem Represents.letsOnlySignedIn_iff_commands {s : LoginScreen}
    {form : Option SignUpForm} {e : Event} {commands : List Command}
    (h : s.Represents form) (henabled : s.enabled e)
    (hcommands : s.respond e = .ok commands) :
    LetsOnlySignedIn s e ↔
      (∀ credentials, .signIn credentials ∈ commands →
        ∃ uid, e = .createUserCompleted credentials (.user uid)) ∧
      ∀ identifier, .performSegue identifier ∈ commands →
        ∃ credentials uid, e = .signInCompleted credentials (.user uid) := by
  obtain ⟨u, hu, -, -⟩ := h.update_eq henabled
  have hstep : s.step e = .ok (commands.foldl perform u) := by
    rw [LoginScreen.step, hcommands, ok_bind, hu, ok_bind, pure_eq_ok]
  constructor
  · rintro ⟨commands', t, hcommands', -, hlets⟩
    rw [hcommands, Except.ok.injEq] at hcommands'
    rwa [hcommands']
  · intro hlets
    exact ⟨commands, _, hcommands, hstep, hlets⟩

/-- An event lets only signed-in users through exactly when the reply it may
bring is a user. -/
theorem Represents.letsOnlySignedIn_iff {s : LoginScreen}
    {form : Option SignUpForm} {e : Event} (h : s.Represents form)
    (henabled : s.enabled e) : LetsOnlySignedIn s e ↔ BringsUser e := by
  cases e with
  | signUpDidTouch | editingChanged | didEndEditing | cancelTouched =>
      rw [h.letsOnlySignedIn_iff_commands henabled rfl]
      exact iff_of_true ⟨nofun, nofun⟩ trivial
  | saveTouched =>
      obtain ⟨commands, hcommands, hall⟩ := h.respond_saveTouched henabled
      rw [h.letsOnlySignedIn_iff_commands henabled hcommands]
      refine iff_of_true ⟨?_, ?_⟩ trivial
      · intro credentials hmem
        obtain ⟨_, hcommand⟩ := hall _ hmem
        cases hcommand
      · intro identifier hmem
        obtain ⟨_, hcommand⟩ := hall _ hmem
        cases hcommand
  | createUserCompleted credentials reply =>
      cases reply with
      | user uid =>
          rw [h.letsOnlySignedIn_iff_commands henabled rfl]
          refine iff_of_true ⟨?_, by simp⟩ ⟨uid, rfl⟩
          intro credentials' hmem
          cases List.mem_singleton.mp hmem
          exact ⟨uid, rfl⟩
      | error localizedDescription =>
          -- the user is unwrapped before anything else
          apply iff_of_false
          · rintro ⟨commands, -, hcommands, -⟩
            cases hcommands
          · rintro ⟨uid, hreply⟩
            cases hreply
  | signInCompleted credentials reply =>
      -- the segue follows an error as it follows a user
      rw [h.letsOnlySignedIn_iff_commands henabled rfl]
      constructor
      · intro hlets
        obtain ⟨_, uid, he⟩ := hlets.2 _ (List.mem_singleton_self _)
        cases he
        exact ⟨uid, rfl⟩
      · rintro ⟨uid, rfl⟩
        exact ⟨by simp, fun _ _ => ⟨credentials, uid, rfl⟩⟩

/-- Along any events that can occur one after the other, only signed-in users
get through exactly when every reply brings a user. -/
theorem letsOnlySignedIn_iff_bringsUser (es : List Event)
    (hplay : machine.Along initial es (fun _ s e => s.enabled e)) :
    machine.Along initial es (fun _ s e => LetsOnlySignedIn s e) ↔
      machine.Along initial es (fun _ _ e => BringsUser e) := by
  apply hplay.congr_of_invariant (I := fun s => ∃ form, s.Represents form)
    ⟨none, represents_initial⟩
  · rintro u e v ⟨form, hform⟩ henabled hstep
    exact ⟨e.after form, (hform.step henabled hstep).1⟩
  · rintro pre u e ⟨form, hform⟩ henabled
    exact hform.letsOnlySignedIn_iff henabled

def newUser : Credentials := ⟨"a@b.c", "secret"⟩

def attempt : List Event :=
  [.signUpDidTouch, .editingChanged .email newUser.email,
    .editingChanged .password newUser.password, .saveTouched]

def afterAttempt : LoginScreen where
  controller := ⟨some (SignUpForm.alert ⟨"a@b.c", "secret", true⟩)⟩
  alertShown := false
  creating := [newUser]
  signingIn := []
  segues := []

theorem run_attempt : machine.Run initial attempt afterAttempt :=
  Machine.run_of_replay (by decide)

def refused : List Event :=
  attempt ++ [.createUserCompleted newUser (.user "u"),
    .signInCompleted newUser (.error "refused")]

theorem run_refused :
    machine.Run initial refused
      { afterAttempt with creating := [], segues := ["LoginToList"] } :=
  Machine.run_of_replay (by decide)

theorem letsOnlySignedIn_iff_bringsUser_refused :
    machine.Along initial refused (fun _ s e => LetsOnlySignedIn s e) ↔
      machine.Along initial refused (fun _ _ e => BringsUser e) :=
  letsOnlySignedIn_iff_bringsUser refused
    (Machine.Along.enabled_of_run run_refused)

theorem refused_reaches_list :
    (machine.Run initial refused
        { afterAttempt with creating := [], segues := ["LoginToList"] } ∧
      ¬ machine.Along initial refused (fun _ s e => LetsOnlySignedIn s e)) ∧
    machine.Run initial attempt afterAttempt ∧
      afterAttempt.enabled (.createUserCompleted newUser (.error "in use")) ∧
      afterAttempt.step (.createUserCompleted newUser (.error "in use")) =
        .error .unexpectedNil := by
  refine ⟨⟨run_refused, ?_⟩, run_attempt, by decide, rfl⟩
  intro h
  have hcreated : machine.Run initial
      (attempt ++ [.createUserCompleted newUser (.user "u")])
      { afterAttempt with creating := [], signingIn := [newUser] } :=
    Machine.run_of_replay (by decide)
  obtain ⟨commands, t, hcommands, -, -, hsegue⟩ := h _ _ [] rfl _ hcreated
  cases hcommands
  obtain ⟨_, _, he⟩ := hsegue "LoginToList" (List.mem_singleton_self _)
  cases he

end LoginScreen

end Grocr
