import Grocr.ListScreen
/-!
# When the loading overlay tells the truth

A load adds the overlay and a snapshot hides it; nothing shows it again, and a
failed query leaves it as it is.  So the overlay stands for the outstanding
queries only up to the first snapshot, which has to be the last reply.
-/

namespace Grocr

open Support Firestore

namespace UIVC

/-- The overlay is on the table and not hidden. -/
def Visible (u : UIVC) : Prop :=
  u.loadViewAdded = true ∧ u.loadViewHidden = false

theorem not_visible_initial : ¬ initial.Visible := by
  intro h
  cases h.1

theorem visible_setLoadingScreen (u : UIVC) :
    u.setLoadingScreen.Visible ↔ ¬ u.loadViewHidden = true := by
  rw [Visible, Bool.not_eq_true]
  exact and_iff_right rfl

theorem not_visible_spinnerOff (u : UIVC) : ¬ u.spinnerOff.Visible := by
  intro h
  cases h.2

end UIVC

namespace ListScreen

/-- The overlay is visible exactly while a query is outstanding. -/
def OverlayTruthful (s : ListScreen) : Prop :=
  s.screen.loadScreen.Visible ↔ s.queries ≠ []

/-! ## What an event does to the overlay and to the queries -/

namespace Event

def overlay : Event → UIVC → UIVC
  | .viewDidLoad, u | .refresh, u | .deleteCompleted _ _, u =>
      u.setLoadingScreen
  | .queryCompleted _ (some _), u => u.spinnerOff
  | .queryCompleted _ none, u | .swipeDelete _, u | .collectionChanged _, u =>
      u

def outstanding (s : ListScreen) : Event → List Nat
  | .viewDidLoad | .refresh | .deleteCompleted _ _ =>
      s.queries ++ [s.version]
  | .queryCompleted issued _ => s.queries.erase issued
  | .swipeDelete _ | .collectionChanged _ => s.queries

def BringsSnapshot : Event → Prop
  | .queryCompleted _ (some _) => True
  | _ => False

end Event

theorem overlay_step {s t : ListScreen} {e : Event} (h : s.step e = .ok t) :
    t.screen.loadScreen = e.overlay s.screen.loadScreen ∧
      t.queries = e.outstanding s := by
  cases e with
  | viewDidLoad | refresh | collectionChanged c =>
      cases h
      exact ⟨rfl, rfl⟩
  | swipeDelete row =>
      obtain ⟨item, -, rfl⟩ := step_swipeDelete h
      exact ⟨rfl, rfl⟩
  | deleteCompleted swipe error =>
      rw [step_deleteCompleted h]
      exact ⟨rfl, rfl⟩
  | queryCompleted issued reply =>
      cases reply with
      | none =>
          cases h
          exact ⟨rfl, rfl⟩
      | some reply =>
          obtain ⟨items, -, rfl⟩ := step_queryCompleted h
          exact ⟨rfl, rfl⟩

theorem Event.loadViewHidden_overlay (e : Event) (u : UIVC) :
    (e.overlay u).loadViewHidden = true ↔
      u.loadViewHidden = true ∨ e.BringsSnapshot := by
  cases e with
  | queryCompleted issued reply =>
      cases reply with
      | none => exact (or_iff_left id).symm
      | some reply => exact ⟨fun _ => .inr trivial, fun _ => rfl⟩
  | viewDidLoad | refresh | swipeDelete row | deleteCompleted swipe error
  | collectionChanged c => exact (or_iff_left id).symm

/-! ## The exact condition -/

/-- A load comes before every snapshot; a snapshot answers the only query that
is outstanding, and a failure does not. -/
def KeepsOverlay (pre : List Event) (s : ListScreen) : Event → Prop
  | .viewDidLoad | .refresh | .deleteCompleted _ _ =>
      ∀ f ∈ pre, ¬ f.BringsSnapshot
  | .queryCompleted issued (some _) => s.queries = [issued]
  | .queryCompleted issued none => s.queries ≠ [issued]
  | .swipeDelete _ | .collectionChanged _ => True

/-- The overlay is truthful, and hidden once a snapshot has come. -/
structure OverlayInvariant (pre : List Event) (s : ListScreen) : Prop where
  truthful : s.OverlayTruthful
  hidden : s.screen.loadScreen.loadViewHidden = true ↔
    ∃ f ∈ pre, f.BringsSnapshot

theorem overlayInvariant_initial (c : Collection) :
    OverlayInvariant [] (initial c) := by
  constructor
  · exact ⟨fun h => absurd h UIVC.not_visible_initial, fun h => absurd rfl h⟩
  · constructor
    · intro h
      cases h
    · rintro ⟨f, hf, -⟩
      cases hf

theorem erase_eq_nil_iff {queries : List Nat} {issued : Nat}
    (h : issued ∈ queries) : queries.erase issued = [] ↔ queries = [issued] := by
  rw [List.erase_eq_nil_iff]
  constructor
  · rintro (rfl | h')
    · cases h
    · exact h'
  · exact .inr

theorem OverlayInvariant.hidden_step {pre : List Event} {s t : ListScreen}
    {e : Event} (h : OverlayInvariant pre s) (hstep : s.step e = .ok t) :
    t.screen.loadScreen.loadViewHidden = true ↔
      ∃ f ∈ pre ++ [e], f.BringsSnapshot := by
  rw [(overlay_step hstep).1, e.loadViewHidden_overlay, h.hidden]
  simp [or_and_right, exists_or]

theorem OverlayInvariant.truthful_iff {pre : List Event} {s t : ListScreen}
    {e : Event} (h : OverlayInvariant pre s) (henabled : s.enabled e)
    (hstep : s.step e = .ok t) : t.OverlayTruthful ↔ KeepsOverlay pre s e := by
  obtain ⟨hoverlay, hqueries⟩ := overlay_step hstep
  have hload : ((s.screen.loadScreen.setLoadingScreen.Visible ↔
      s.queries ++ [s.version] ≠ [])) ↔ ∀ f ∈ pre, ¬ f.BringsSnapshot := by
    rw [UIVC.visible_setLoadingScreen, h.hidden]
    simp
  rw [OverlayTruthful, hoverlay, hqueries]
  cases e with
  | viewDidLoad => exact hload
  | refresh => exact hload
  | deleteCompleted swipe error => exact hload
  | queryCompleted issued reply =>
      cases reply with
      | none =>
          have hmem : issued ∈ s.queries := henabled
          have hvisible : s.screen.loadScreen.Visible :=
            h.truthful.mpr (List.ne_nil_of_mem hmem)
          show (s.screen.loadScreen.Visible ↔ s.queries.erase issued ≠ []) ↔
            s.queries ≠ [issued]
          rw [ne_eq, erase_eq_nil_iff hmem, iff_true_left hvisible]
      | some reply =>
          have hmem : issued ∈ s.queries := henabled.1
          show (s.screen.loadScreen.spinnerOff.Visible ↔
            s.queries.erase issued ≠ []) ↔ s.queries = [issued]
          rw [ne_eq, erase_eq_nil_iff hmem,
            iff_false_left (UIVC.not_visible_spinnerOff _), not_not]
  | swipeDelete row => exact iff_of_true h.truthful trivial
  | collectionChanged c => exact iff_of_true h.truthful trivial

/-- In a run, the overlay is truthful after every step exactly when every step
meets the condition. -/
theorem overlayTruthful_iff_keepsOverlay {c : Collection} {es : List Event}
    {s : ListScreen} (hrun : machine.Run (initial c) es s) :
    (∀ pre u, pre <+: es → machine.Run (initial c) pre u →
        u.OverlayTruthful) ↔
      machine.Along (initial c) es KeepsOverlay := by
  have hany : machine.Along (initial c) es (fun _ _ _ => True) :=
    fun _ _ _ _ _ _ => trivial
  apply hrun.always_iff hany (overlayInvariant_initial c)
    fun pre u hI => hI.truthful
  intro pre u e v hI _ henabled hstep
  have hexact := hI.truthful_iff henabled hstep
  exact ⟨hexact, fun hC => ⟨hexact.mpr hC, hI.hidden_step hstep⟩⟩

/-- A load, its snapshot, and a second load that is still outstanding. -/
def loadedAgain : List Event :=
  [.viewDidLoad, .queryCompleted 0 (some ⟨0, Table.empty⟩), .refresh]

def afterLoadedAgain : ListScreen where
  screen := ⟨[], ⟨true, true⟩⟩
  past := []
  current := Table.empty
  queries := [0]
  lastIssued := some 0
  deletes := []

theorem run_loadedAgain :
    machine.Run (initial Table.empty) loadedAgain afterLoadedAgain :=
  Machine.run_of_replay (by decide)

theorem overlayTruthful_iff_keepsOverlay_loadedAgain :
    (∀ pre u, pre <+: loadedAgain → machine.Run (initial Table.empty) pre u →
        u.OverlayTruthful) ↔
      machine.Along (initial Table.empty) loadedAgain KeepsOverlay :=
  overlayTruthful_iff_keepsOverlay run_loadedAgain

theorem loadedAgain_not_truthful :
    machine.Run (initial Table.empty) loadedAgain afterLoadedAgain ∧
      ¬ afterLoadedAgain.OverlayTruthful := by
  apply And.intro run_loadedAgain
  intro h
  have hvisible : afterLoadedAgain.screen.loadScreen.Visible :=
    h.mpr (by decide)
  cases hvisible.2

end ListScreen

end Grocr
