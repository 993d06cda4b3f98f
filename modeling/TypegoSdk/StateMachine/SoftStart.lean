import TypegoSdk.StateMachine.Controller
import Mathlib.Tactic.Linarith
import Mathlib.Tactic.NormNum

/-!
# Emergency stop and soft start

`Stop` puts the ratio to zero, `Ctrl` wants more than 0.95 of it, and only a
STAND step with R2 pressed raises it, by 0.005.
-/

namespace TypegoSdk.StateMachine
open TypegoSdk.Lib TypegoSdk.Remote

/-! ### The ratio -/

structure SimpleStateMachine.Sound (m : SimpleStateMachine) : Prop where
  delta : m.deltaPd = 5 / 1000
  nonneg : 0 ≤ m.pdRatio
  le_one : m.pdRatio ≤ 1
  damping : m.state = .damping → m.pdRatio = 0
  ctrl : m.state = .ctrl → 95 / 100 < m.pdRatio

namespace SimpleStateMachine
variable {m : SimpleStateMachine}

theorem init_sound : init.Sound :=
  ⟨rfl, by norm_num [init], by norm_num [init], by simp [init], by simp [init]⟩

theorem Sound.stop (h : m.Sound) : m.stop.Sound :=
  ⟨h.delta, le_refl 0, zero_le_one, fun _ => rfl, by simp [SimpleStateMachine.stop]⟩

theorem Sound.ite {m' : SimpleStateMachine} (b : Bool) (h : m.Sound) (h' : m'.Sound) :
    (if b then m else m').Sound := by
  split
  · exact h
  · exact h'

theorem stand_pdRatio (m : SimpleStateMachine) : m.stand.1.pdRatio = m.pdRatio := by
  unfold SimpleStateMachine.stand
  split <;> rfl

theorem ctrl_pdRatio (m : SimpleStateMachine) : m.ctrl.1.pdRatio = m.pdRatio := by
  unfold SimpleStateMachine.ctrl
  split <;> rfl

theorem Sound.stand (h : m.Sound) : m.stand.1.Sound := by
  unfold SimpleStateMachine.stand
  split
  · exact ⟨h.delta, h.nonneg, h.le_one, by simp, by simp⟩
  · exact h

theorem Sound.enter (h : m.Sound) : m.ctrl.1.Sound := by
  unfold SimpleStateMachine.ctrl
  split
  · rename_i hc
    exact ⟨h.delta, h.nonneg, h.le_one, by simp, fun _ => hc.2⟩
  · exact h

theorem Sound.standing (h : m.Sound) (up : Bool) : (m.standing up).Sound := by
  unfold SimpleStateMachine.standing
  split
  · rename_i hs
    exact ⟨h.delta, le_max_left _ _, max_le zero_le_one (min_le_left _ _), by simp [hs], by simp [hs]⟩
  · exact h

theorem standing_up_le (h : m.Sound) : (m.standing true).pdRatio ≤ m.pdRatio + 5 / 1000 := by
  have h0 := h.nonneg
  unfold SimpleStateMachine.standing
  split
  · rw [← h.delta]
    refine max_le ?_ (min_le_right _ _)
    rw [h.delta]
    linarith
  · linarith

theorem standing_down_le (h : m.Sound) : (m.standing false).pdRatio ≤ m.pdRatio := by
  unfold SimpleStateMachine.standing
  split
  · refine max_le h.nonneg ((min_le_right _ _).trans ?_)
    have hd := h.delta
    simp only [Bool.false_eq_true, if_false]
    linarith
  · exact le_refl _

end SimpleStateMachine

namespace Controller
variable {σ : Type} {ctrl : UserCtrl σ} {image : LowCmd → List UInt32} {c c' : Controller σ}
  {g : Gamepad} {m : SimpleStateMachine}

theorem stood_sound (h : m.Sound) : (stood g m).Sound := .ite _ h.stand h

theorem stood_pdRatio (g : Gamepad) (m : SimpleStateMachine) :
    (stood g m).pdRatio = m.pdRatio := by
  unfold stood
  split
  · exact m.stand_pdRatio
  · rfl

theorem pressed_sound (h : m.Sound) : (pressed g m).Sound := by
  have hs := stood_sound (g := g) h
  have hc := SimpleStateMachine.Sound.ite (g.button .A).onPress hs.enter hs
  exact .ite _ hc.stop hc

/- The buttons do not raise the ratio. -/
theorem pressed_le (h : m.Sound) : (pressed g m).pdRatio ≤ m.pdRatio := by
  have hc : (if (g.button .A).onPress then (stood g m).ctrl.1 else stood g m).pdRatio =
      m.pdRatio := by
    split
    · rw [SimpleStateMachine.ctrl_pdRatio, stood_pdRatio]
    · exact stood_pdRatio g m
  unfold pressed
  dsimp only
  split
  · exact h.nonneg
  · exact hc.le

theorem raised_sound (h : m.Sound) :
    (if (g.button .R2).pressed then m.standing true else m).Sound :=
  .ite _ (h.standing true) h

theorem moveRatio_sound (h : m.Sound) : (moveRatio g m).Sound :=
  .ite _ ((raised_sound h).standing false) (raised_sound h)

theorem moveRatio_le (h : m.Sound) :
    (moveRatio g m).pdRatio ≤ m.pdRatio + if (g.button .R2).pressed then 5 / 1000 else 0 := by
  unfold moveRatio
  have hle : (if (g.button .R2).pressed then m.standing true else m).pdRatio ≤
      m.pdRatio + if (g.button .R2).pressed then 5 / 1000 else 0 := by
    split
    · exact SimpleStateMachine.standing_up_le h
    · simp
  dsimp only
  split
  · exact (SimpleStateMachine.standing_down_le (raised_sound h)).trans hle
  · exact hle

/-! ### Steps -/

/- A STAND step with R2 pressed. -/
def standsUp (c : Controller σ) : Act → Bool
  | .poll _ => false
  | .control x =>
    decide ((pressed (c.pad x) c.machine).state = .stand) && ((c.pad x).button .R2).pressed

/- `Ctrl()` succeeds in the step. -/
def Enters (x : Arrivals) (c : Controller σ) : Prop :=
  ((c.pad x).button .A).onPress ∧ (stood (c.pad x) c.machine).ctrl.2

theorem controlStep_sound (x : Arrivals) (h : c.machine.Sound) :
    (c.controlStep ctrl image x).machine.Sound := by
  have hp := pressed_sound (g := c.pad x) h
  rw [controlStep_machine]
  dsimp only
  split
  · exact hp
  · exact moveRatio_sound hp
  · split
    · exact hp.stop
    · exact hp

theorem controlStep_le (x : Arrivals) (h : c.machine.Sound) :
    (c.controlStep ctrl image x).machine.pdRatio ≤
      c.machine.pdRatio + if c.standsUp (.control x) then 5 / 1000 else 0 := by
  have hp := pressed_sound (g := c.pad x) h
  have hle := pressed_le (g := c.pad x) h
  rw [controlStep_machine]
  dsimp only
  split
  · rename_i hs
    simpa [standsUp, hs] using hle
  · rename_i hs
    have hm := moveRatio_le (g := c.pad x) hp
    simp only [standsUp, hs, decide_true, Bool.true_and]
    linarith
  · rename_i hs
    simp only [standsUp, hs, reduceCtorEq, decide_false, Bool.false_and, Bool.false_eq_true, if_false,
      add_zero]
    split
    · exact h.nonneg
    · exact hle

theorem poll_machine {ms : List LowState} (h : c.step ctrl image (.poll ms) = some c') :
    c'.machine = c.machine := by
  simp only [step] at h
  split at h
  · cases h
  · cases h
    split <;> simp [damping, setTargets, inteprateGamePad]

theorem step_sound (a : Act) (h : c.machine.Sound) (hs : c.step ctrl image a = some c') :
    c'.machine.Sound := by
  cases a with
  | poll ms => exact (poll_machine hs).symm ▸ h
  | control x =>
    rw [(control_inv hs).2]
    exact controlStep_sound x h

theorem step_le (a : Act) (h : c.machine.Sound) (hs : c.step ctrl image a = some c') :
    c'.machine.pdRatio ≤ c.machine.pdRatio + if c.standsUp a then 5 / 1000 else 0 := by
  cases a with
  | poll ms => simp [poll_machine hs, standsUp]
  | control x =>
    rw [(control_inv hs).2]
    exact controlStep_le x h

theorem enters_ratio {x : Arrivals} (h : c.Enters x) : 95 / 100 < c.machine.pdRatio := by
  have hc := h.2
  rw [← stood_pdRatio (c.pad x)]
  unfold SimpleStateMachine.ctrl at hc
  split at hc
  · rename_i hr
    exact hr.2
  · cases hc

/- A step that ends in CTRL and did not begin there is one in which `Ctrl()` succeeds. -/
theorem enters_of_state {x : Arrivals} (h : c.machine.state ≠ .ctrl)
    (h' : (c.controlStep ctrl image x).machine.state = .ctrl) : c.Enters x := by
  have hstood : (stood (c.pad x) c.machine).state ≠ .ctrl := by
    unfold stood SimpleStateMachine.stand
    split
    · split <;> simp [h]
    · exact h
  have hp : (pressed (c.pad x) c.machine).state = .ctrl := by
    rw [controlStep_machine] at h'
    dsimp only at h'
    split at h'
    · exact h'
    · rename_i hs
      rw [moveRatio_state, hs] at h'
      cases h'
    · assumption
  unfold pressed at hp
  dsimp only at hp
  split at hp
  · cases hp
  · split at hp
    · rename_i hA
      refine ⟨hA, ?_⟩
      unfold SimpleStateMachine.ctrl at hp ⊢
      split at hp
      · rename_i hr
        rw [if_pos hr]
      · exact absurd hp hstood
    · exact absurd hp hstood

/-! ### All runs -/

theorem after_sound (ctrl : UserCtrl σ) (image : LowCmd → List UInt32) (b : Boot σ)
    (acts : List Act) : (after ctrl image b acts).machine.Sound :=
  exec_invariant (step ctrl image) (·.machine.Sound) (fun _ a _ h hs => step_sound a h hs) (init b)
    SimpleStateMachine.init_sound acts

/- With L2 and B pressed the step is a damping one. -/
theorem updateState_stopped (ctrl : UserCtrl σ) (x : Arrivals) (hL2 : ((c.pad x).button .L2).pressed)
    (hB : ((c.pad x).button .B).pressed) : (c.updateState ctrl x).machine.state = .damping := by
  rw [updateState_machine, pressed, hL2, hB]
  rfl

/- From the ratio 0 to more than 0.95 in steps of 0.005. -/
theorem ramp_length (before between : List Act) (b : Boot σ)
    (hd : (after ctrl image b before).machine.state = .damping)
    (hr : 95 / 100 < (after ctrl image b (before ++ between)).machine.pdRatio) :
    191 ≤ tally (step ctrl image) standsUp (after ctrl image b before) between := by
  have hsound := after_sound ctrl image b before
  have hgrow := exec_grows (step ctrl image) standsUp (·.machine.Sound)
    (fun _ a _ h hs => step_sound a h hs) (·.machine.pdRatio) (5 / 1000)
    (fun _ a _ h hs => step_le a h hs) (after ctrl image b before) hsound between
  rw [after, exec_append] at hr
  rw [hsound.damping hd, zero_add, nsmul_eq_mul] at hgrow
  by_contra hlt
  have hn : tally (step ctrl image) standsUp (after ctrl image b before) between ≤ 190 := by omega
  have hq : (tally (step ctrl image) standsUp (after ctrl image b before) between : ℚ) ≤ 190 := by
    exact_mod_cast hn
  have hlast := lt_of_lt_of_le hr hgrow
  linarith

/-- Pressing L2 and B together ends the step in DAMPING with no stiffness and no
torque on the joints; DAMPING has the ratio 0 and CTRL one over 0.95; and at
least 191 STAND steps with R2 pressed lie between a DAMPING and a `Ctrl()` that
succeeds, or a step that comes to CTRL. -/
theorem emergency_stop_soft_start (ctrl : UserCtrl σ) (image : LowCmd → List UInt32) (b : Boot σ)
    (acts : List Act) :
    (∀ x c', (after ctrl image b acts).step ctrl image (.control x) = some c' →
      (c'.gamepad.button .L2).pressed → (c'.gamepad.button .B).pressed →
      c'.machine.state = .damping ∧
        ∀ i : Fin 12, (c'.cmd.motorCmd (i.castAdd 8)).kp = 0 ∧
          (c'.cmd.motorCmd (i.castAdd 8)).tau = 0) ∧
    (((after ctrl image b acts).machine.state = .damping →
        (after ctrl image b acts).machine.pdRatio = 0) ∧
      ((after ctrl image b acts).machine.state = .ctrl →
        95 / 100 < (after ctrl image b acts).machine.pdRatio) ∧
      0 ≤ (after ctrl image b acts).machine.pdRatio ∧
      (after ctrl image b acts).machine.pdRatio ≤ 1) ∧
    ∀ before between, acts = before ++ between →
      (after ctrl image b before).machine.state = .damping →
      ∀ x c', (after ctrl image b acts).step ctrl image (.control x) = some c' →
        ((after ctrl image b acts).Enters x ∨
          ((after ctrl image b acts).machine.state ≠ .ctrl ∧ c'.machine.state = .ctrl)) →
        191 ≤ tally (step ctrl image) standsUp (after ctrl image b before) between := by
  have hsound := after_sound ctrl image b acts
  refine ⟨fun x c' hs hL2 hB => ?_, ⟨hsound.damping, hsound.ctrl, hsound.nonneg, hsound.le_one⟩,
    fun before between hacts hd x c' hs he => ?_⟩
  · rw [(control_inv hs).2, controlStep_gamepad] at hL2 hB
    have hstop := updateState_stopped ctrl x hL2 hB
    rw [(control_inv hs).2, controlStep_damping hstop]
    refine ⟨hstop, fun i => ?_⟩
    obtain ⟨m, hm⟩ := updateCommand_motor image
      (((after ctrl image b acts).updateState ctrl x).damping ctrl 2) i
    rw [hm]
    exact ⟨rfl, rfl⟩
  · subst hacts
    have henters : (after ctrl image b (before ++ between)).Enters x := by
      rcases he with he | ⟨hbefore, hafter⟩
      · exact he
      · rw [(control_inv hs).2] at hafter
        exact enters_of_state hbefore hafter
    exact ramp_length before between b hd (enters_ratio henters)

/-! ### Holding R2 -/

/- An upright robot at rest, with some buttons held. -/
def held (keys : List Key) : LowState where
  imuState := ⟨⟨1, 0, 0, 0⟩, ⟨0, 0, 0⟩, ⟨0, 0, 0⟩⟩
  motorState _ := ⟨0, 0, 0⟩
  wirelessRemote := ⟨.ofComponents fun k => decide (k ∈ keys), ⟨0, 0, 0, 0, 0⟩⟩

def holding (keys : List Key) : Arrivals := ⟨[held keys], [], [], []⟩

@[simp] theorem holding_button (keys : List Key) (c : Controller σ) (k : Key) :
    (c.pad (holding keys)).button k = (c.gamepad.button k).update (decide (k ∈ keys)) := by
  simp [pad, holding, hear, lowStateMessageHandler, inteprateGamePad, Gamepad.update, held]

@[simp] theorem holding_overturned (keys : List Key) (c : Controller σ) :
    c.overturned (holding keys) = false := by
  norm_num [overturned, holding, hear, lowStateMessageHandler, checkTermination, getState,
    updateProjectedGravity, held]

/-- R2 and nothing else is held in STAND, at the ratio `r`. -/
structure Rising (r : ℚ) (c : Controller σ) : Prop where
  started : c.started
  machine : c.machine = ⟨.stand, r, 5 / 1000⟩
  button : ∀ k, (c.gamepad.button k).pressed = decide (k = .R2)

theorem rising_step {r : ℚ} (h : c.Rising r) (h0 : 0 ≤ r) (h1 : r + 5 / 1000 ≤ 1) :
    (c.controlStep ctrl image (holding [.R2])).Rising (r + 5 / 1000) := by
  have hp : pressed (c.pad (holding [.R2])) c.machine = c.machine := by
    simp [pressed, stood, Button.update, h.button]
  refine ⟨(controlStep_started _ c).trans h.started, ?_, fun k => ?_⟩
  · rw [controlStep_machine, hp, h.machine]
    have hup : max 0 (min 1 (r + 5 / 1000)) = r + 5 / 1000 := by
      rw [min_eq_right h1]
      exact max_eq_right (by linarith)
    simp [moveRatio, Button.update, SimpleStateMachine.standing, hup]
  · rw [controlStep_gamepad, holding_button]
    simp [Button.update]

theorem rising_run (ctrl : UserCtrl σ) (image : LowCmd → List UInt32) (n : ℕ) {r : ℚ} (h : c.Rising r)
    (h0 : 0 ≤ r) (h1 : r + n * (5 / 1000) ≤ 1) :
    (exec (step ctrl image) c (List.replicate n (.control (holding [.R2])))).Rising
      (r + n * (5 / 1000)) := by
  induction n generalizing c r with
  | zero => simpa using h
  | succ n ih =>
    push_cast at h1 ⊢
    have hn : (0 : ℚ) ≤ n * (5 / 1000) := by positivity
    rw [List.replicate_succ, exec_cons, advance_some (step ctrl image) (step_control h.started _)]
    have hrun := ih (c := c.controlStep ctrl image (holding [.R2]))
      (rising_step h h0 (by linarith)) (by linarith) (by linarith)
    have hr : r + 5 / 1000 + n * (5 / 1000) = r + (n + 1) * (5 / 1000) := by ring
    rwa [hr] at hrun

def exampleBoot : Boot ExampleUserController where
  wirelessRemote := ⟨0, ⟨0, 0, 0, 0, 0⟩⟩
  sensors := getState (held [])
  user := ⟨⟨0, 0, 0⟩, fill 0, fill 0, fill 0⟩
  cmd := initLowCmd

/- R2 starts the control thread, and L2 with B stops the robot. -/
def startedStopped : List Act := [.poll [held [.R2]], .control (holding [.L2, .B])]

/- The press of R2 and 190 more steps with it held. -/
def ramp : List Act :=
  .control (holding [.R2]) :: List.replicate 190 (.control (holding [.R2]))

theorem ramp_rising : (after exampleParams (fun _ => []) exampleBoot (startedStopped ++ ramp)).Rising
    (5 / 1000 + (190 : ℕ) * (5 / 1000)) := by
  have hpress : (after exampleParams (fun _ => []) exampleBoot
      (startedStopped ++ [.control (holding [.R2])])).Rising (5 / 1000) := by
    refine ⟨by decide +kernel, by decide +kernel, fun k => ?_⟩
    cases k <;> decide +kernel
  have hrun := rising_run exampleParams (fun _ => []) 190 hpress (by norm_num) (by norm_num)
  rwa [after, ← exec_append, List.append_assoc] at hrun

/- The bound is met: 191 steps with R2 pressed, and A is accepted. -/
theorem soft_start_shortest :
    (after exampleParams (fun _ => []) exampleBoot startedStopped).machine.state = .damping ∧
    ((after exampleParams (fun _ => []) exampleBoot (startedStopped ++ ramp)).controlStep exampleParams
      (fun _ => []) (holding [.A])).machine.state = .ctrl ∧
    191 ≤ tally (step exampleParams fun _ => []) standsUp
      (after exampleParams (fun _ => []) exampleBoot startedStopped) ramp := by
  have hd : (after exampleParams (fun _ => []) exampleBoot startedStopped).machine.state = .damping := by
    decide +kernel
  have hrise := ramp_rising
  have hfull : (95 / 100 : ℚ) < 5 / 1000 + 190 * (5 / 1000) := by norm_num
  have hstand : (after exampleParams (fun _ => []) exampleBoot (startedStopped ++ ramp)).machine.state ≠
      .ctrl := by
    rw [hrise.machine]
    simp
  have hctrl : ((after exampleParams (fun _ => []) exampleBoot (startedStopped ++ ramp)).controlStep
      exampleParams (fun _ => []) (holding [.A])).machine.state = .ctrl := by
    simp [controlStep_machine, pressed, stood, Button.update, hrise.machine, hrise.button,
      SimpleStateMachine.ctrl, hfull]
  exact ⟨hd, hctrl, (emergency_stop_soft_start exampleParams (fun _ => []) exampleBoot
    (startedStopped ++ ramp)).2.2 startedStopped ramp rfl hd (holding [.A]) _
    (step_control hrise.started _) (.inr ⟨hstand, hctrl⟩)⟩

end Controller

end TypegoSdk.StateMachine
