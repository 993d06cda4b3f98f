import TypegoSdk.Lib.Exec
import TypegoSdk.Remote.Joystick

/-!
# The edges of an axis

An axis is pressed above its threshold. `on_pressed` asks whether the value was
below the threshold before, not whether it was not above, as `on_released` and
both tests of a button do: a value that was equal to the threshold is missed.
-/

namespace TypegoSdk.Remote.Axis
open TypegoSdk.Lib

def start (smooth deadzone threshold : ℚ) : Axis :=
  {init with smooth := smooth, deadzone := deadzone, threshold := threshold}

/- Every update can be made. -/
def step (a : Axis) (data : ℚ) : Option Axis := some (a.update data)

/-- The two flags of an update are the changes of `pressed`. -/
def Edges (a : Axis) (data : ℚ) : Prop :=
  ((a.update data).onPressed = true ↔ a.pressed = false ∧ (a.update data).pressed = true) ∧
  ((a.update data).onReleased = true ↔ a.pressed = true ∧ (a.update data).pressed = false)

/-- An input above the threshold while the value is equal to it. -/
def Missed (a : Axis) (data : ℚ) : Prop :=
  a.data = a.threshold ∧ a.threshold < if |data| < a.deadzone then 0 else data

instance (a : Axis) (data : ℚ) : Decidable (Missed a data) := inferInstanceAs (Decidable (_ ∧ _))

/- What the updates of an axis keep. -/
structure Good (a : Axis) : Prop where
  smooth : 0 < a.smooth
  pressed : a.pressed = decide (a.data > a.threshold)

theorem Good.update {a : Axis} (h : Good a) (data : ℚ) : Good (a.update data) :=
  ⟨h.smooth, rfl⟩

theorem start_good {smooth deadzone threshold : ℚ} (hs : 0 < smooth) (ht : 0 < threshold) :
    Good (start smooth deadzone threshold) := by
  refine ⟨hs, ?_⟩
  have hbelow : ¬(0 : ℚ) > threshold := not_lt.mpr ht.le
  exact (decide_eq_false hbelow).symm

/- From the threshold, the value rises exactly with an input above it. -/
theorem rises_iff {a : Axis} (hs : 0 < a.smooth) (hd : a.data = a.threshold) (u : ℚ) :
    a.threshold < a.data * (1 - a.smooth) + u * a.smooth ↔ a.threshold < u := by
  rw [hd]
  have hdiff : a.threshold * (1 - a.smooth) + u * a.smooth - a.threshold =
      (u - a.threshold) * a.smooth := by ring
  rw [← sub_pos, hdiff, mul_pos_iff_of_pos_right hs, sub_pos]

theorem edges_iff {a : Axis} (h : Good a) (data : ℚ) : Edges a data ↔ ¬Missed a data := by
  simp only [Edges, Missed, update, h.pressed, decide_eq_true_eq, decide_eq_false_iff_not]
  generalize (if |data| < a.deadzone then 0 else data) = u
  rcases lt_trichotomy a.data a.threshold with hlt | heq | hgt
  · have hnot : ¬a.data > a.threshold := not_lt.mpr hlt.le
    simp [hlt, hlt.ne, hnot]
  · have hrise := rises_iff h.smooth heq u
    rw [heq] at hrise ⊢
    simp [hrise]
  · have hnot : ¬a.data < a.threshold := not_lt.mpr hgt.le
    simp [hgt, hgt.ne', hnot]

/-! ### Along a run -/

/- The edges in their order, a press as true. -/
def events : Axis → List ℚ → List Bool
  | _, [] => []
  | a, data :: us =>
    let a := a.update data
    (if a.onPressed then [true] else if a.onReleased then [false] else []) ++ events a us

/- One update with exact flags: an edge, or none and the same state. -/
theorem edge_cases {a : Axis} {data : ℚ} (h : Edges a data) (us : List ℚ) :
    (events a (data :: us) = (a.update data).pressed :: events (a.update data) us ∧
      a.pressed ≠ (a.update data).pressed) ∨
    (events a (data :: us) = events (a.update data) us ∧
      a.pressed = (a.update data).pressed) := by
  obtain ⟨hpress, hrelease⟩ := h
  rw [events]
  cases hold : a.pressed with
  | false =>
    cases hnew : (a.update data).pressed with
    | false =>
      right
      simp [hpress, hrelease, hold, hnew]
    | true =>
      left
      simp [hpress, hold, hnew]
  | true =>
    cases hnew : (a.update data).pressed with
    | false =>
      left
      simp [hpress, hrelease, hold, hnew]
    | true =>
      right
      simp [hpress, hrelease, hold, hnew]

theorem events_alternate {a : Axis} {us : List ℚ} (h : Along step Edges a us) :
    (a.pressed :: events a us).IsChain (· ≠ ·) := by
  induction us generalizing a with
  | nil => exact List.IsChain.singleton _
  | cons data us ih =>
    have hrest := ih h.2
    rcases edge_cases (h.1 rfl) us with ⟨hevents, hne⟩ | ⟨hevents, heq⟩
    · rw [hevents, List.isChain_cons_cons]
      exact ⟨hne, hrest⟩
    · rw [hevents, heq]
      exact hrest

theorem events_count {a : Axis} {us : List ℚ} (h : Along step Edges a us) :
    (events a us).count true + a.pressed.toNat =
      (events a us).count false + (exec step a us).pressed.toNat := by
  induction us generalizing a with
  | nil => rfl
  | cons data us ih =>
    have hrest := ih h.2
    have hnext : advance step a data = a.update data := rfl
    rw [exec_cons, hnext]
    rw [hnext] at hrest
    rcases edge_cases (h.1 rfl) us with ⟨hevents, hne⟩ | ⟨hevents, heq⟩
    · rw [hevents]
      cases hold : a.pressed with
      | false =>
        have hnew : (a.update data).pressed = true := by simpa [hold] using hne.symm
        rw [hnew] at hrest ⊢
        simp at hrest ⊢
        omega
      | true =>
        have hnew : (a.update data).pressed = false := by simpa [hold] using hne.symm
        rw [hnew] at hrest ⊢
        simp at hrest ⊢
        omega
    · rw [hevents, heq]
      exact hrest

/-- The flags are the changes of `pressed` along a run exactly when no input goes
above the threshold while the value is equal to it. Presses and releases then
alternate, beginning with a press, and their numbers differ by `pressed`. -/
theorem edges_exact_iff (smooth deadzone threshold : ℚ) (hs : 0 < smooth) (ht : 0 < threshold)
    (us : List ℚ) :
    (Along step Edges (start smooth deadzone threshold) us ↔
      Along step (fun a data => ¬Missed a data) (start smooth deadzone threshold) us) ∧
    (Along step (fun a data => ¬Missed a data) (start smooth deadzone threshold) us →
      (false :: events (start smooth deadzone threshold) us).IsChain (· ≠ ·) ∧
      (events (start smooth deadzone threshold) us).count true =
        (events (start smooth deadzone threshold) us).count false +
          (exec step (start smooth deadzone threshold) us).pressed.toNat) := by
  have hiff : Along step Edges (start smooth deadzone threshold) us ↔
      Along step (fun a data => ¬Missed a data) (start smooth deadzone threshold) us := by
    refine along_congr step Good (fun a data _ h _ => edges_iff h data) ?_ _ (start_good hs ht) us
    intro a data b h _ hb
    cases hb
    exact h.update data
  refine ⟨hiff, fun h => ⟨events_alternate (hiff.mpr h), ?_⟩⟩
  exact events_count (hiff.mpr h)

/- Pressed, released and pressed again, with the default parameters but the smoothing. -/
theorem edges_exact_jump :
    Along step Edges (start 1 (1 / 100) (1 / 2)) [1, 0, 0, 1] ∧
    events (start 1 (1 / 100) (1 / 2)) [1, 0, 0, 1] = [true, false, true] ∧
    (false :: events (start 1 (1 / 100) (1 / 2)) [1, 0, 0, 1]).IsChain (· ≠ ·) := by
  have hexact := edges_exact_iff 1 (1 / 100) (1 / 2) (by norm_num) (by norm_num) [1, 0, 0, 1]
  have hnever : Along step (fun a data => ¬Missed a data) (start 1 (1 / 100) (1 / 2)) [1, 0, 0, 1] := by
    decide +kernel
  exact ⟨hexact.1.mpr hnever, by decide +kernel, (hexact.2 hnever).1⟩

/- To the threshold, then above it: the axis is pressed and no press is reported. -/
theorem threshold_press_missed :
    ((start 1 (1 / 100) (1 / 2)).update (1 / 2)).pressed = false ∧
    (((start 1 (1 / 100) (1 / 2)).update (1 / 2)).update 1).pressed = true ∧
    (((start 1 (1 / 100) (1 / 2)).update (1 / 2)).update 1).onPressed = false := by
  decide +kernel

end TypegoSdk.Remote.Axis
