import TypegoSdk.StateMachine.SoftStart

/-!
# The command and the state

`SetCommand` sends the targets, which the callbacks and the modes set. All but
one way through a step leave the targets of the state it ends in: when
`CheckTermination` fires, `Stop` changes the state after the targets of CTRL
are set, and nothing sets those of DAMPING.
-/

namespace TypegoSdk.StateMachine
open TypegoSdk.Lib TypegoSdk.Remote
variable {σ : Type}

/-- What the targets keep from one step to the next in each state. -/
structure Targets.Ready (ctrl : UserCtrl σ) (state : States) (t : Targets) : Prop where
  jvelDes : t.jvelDes = fill 0
  tauFf : t.tauFf = fill 0
  stand : state = .stand → t.jposDes = ctrl.initPos
  ctrl : state = .ctrl → t.kp = fill ctrl.kp ∧ t.kd = fill ctrl.kd

namespace Controller
variable {ctrl : UserCtrl σ} {image : LowCmd → List UInt32} {c c' : Controller σ}

/- The command on the 12 joints is that of the state. -/
def Agrees (ctrl : UserCtrl σ) (c : Controller σ) : Prop :=
  ∀ i : Fin 12,
    let m := c.cmd.motorCmd (i.castAdd 8)
    match c.machine.state with
    | .damping => m.kp = 0 ∧ m.kd = 2 ∧ m.dq = 0 ∧ m.tau = 0
    | .stand => m.q = ctrl.initPos i ∧ m.kp = 40 * c.machine.pdRatio ∧ m.kd = c.machine.pdRatio
    | .ctrl => m.q = ctrl.jposDes c.user i ∧ m.kp = ctrl.kp ∧ m.kd = ctrl.kd

/- In CTRL after the buttons, and turned over at the check. -/
def Trips (x : Arrivals) (c : Controller σ) : Prop :=
  (pressed (c.pad x) c.machine).state = .ctrl ∧ c.overturned x

/-! ### The targets -/

def Ready (ctrl : UserCtrl σ) (c : Controller σ) : Prop :=
  c.robot.toTargets.Ready ctrl c.machine.state

theorem Ready.hear (h : c.Ready ctrl) (messages : List LowState) : (c.hear messages).Ready ctrl := by
  rw [Ready, hear_targets, hear_machine]
  exact h

theorem Ready.onStand (h : c.Ready ctrl) : (c.onStand ctrl).Ready ctrl := by
  unfold Controller.onStand onPress SimpleStateMachine.stand
  split
  · split
    · exact ⟨rfl, rfl, fun _ => rfl, by simp [standCallback, setTargets]⟩
    · exact h
  · exact h

theorem Ready.onCtrl (h : c.Ready ctrl) : (c.onCtrl ctrl).Ready ctrl := by
  unfold Controller.onCtrl onPress SimpleStateMachine.ctrl
  split
  · split
    · exact ⟨rfl, rfl, fun _ => rfl, fun _ => ⟨rfl, rfl⟩⟩
    · exact h
  · exact h

theorem Ready.stopped (h : c.Ready ctrl) : c.stopped.Ready ctrl :=
  ⟨h.jvelDes, h.tauFf, by simp [Controller.stopped, SimpleStateMachine.stop],
    by simp [Controller.stopped, SimpleStateMachine.stop]⟩

theorem Ready.updateState (h : c.Ready ctrl) (x : Arrivals) : (c.updateState ctrl x).Ready ctrl := by
  have hpad : (c.hear x.beforePad).inteprateGamePad.Ready ctrl := h.hear x.beforePad
  have hctrl := (hpad.onStand.hear x.beforeReset).onCtrl
  refine Ready.hear ?_ x.beforeInput
  unfold Controller.updateStateMachine onStop
  split
  · exact hctrl.stopped
  · exact hctrl

theorem controlStep_ready (x : Arrivals) (h : c.Ready ctrl) :
    (c.controlStep ctrl image x).Ready ctrl := by
  have hu := h.updateState x
  cases hs : (c.updateState ctrl x).machine.state with
  | damping =>
    rw [controlStep_damping hs]
    exact ⟨rfl, rfl, fun _ => rfl, fun hc => absurd (hs.symm.trans hc) (by simp)⟩
  | stand =>
    rw [controlStep_stand hs]
    have hstate : (moveRatio (c.updateState ctrl x).gamepad (c.updateState ctrl x).machine).state =
        .stand := (moveRatio_state _ _).trans hs
    exact ⟨hu.jvelDes, hu.tauFf, fun _ => hu.stand hs,
      fun hc => absurd (hstate.symm.trans hc) (by simp)⟩
  | ctrl =>
    have hsent : ((c.updateState ctrl x).userControlStep ctrl true).Ready ctrl :=
      ⟨hu.jvelDes, hu.tauFf, fun hst => absurd (hs.symm.trans hst) (by simp), fun _ => hu.ctrl hs⟩
    have hcheck := hsent.hear x.beforeCheck
    cases ho : c.overturned x with
    | false =>
      rw [controlStep_ctrl hs ho]
      exact hcheck
    | true =>
      rw [controlStep_overturned hs ho]
      exact hcheck.stopped

/- The same said of the targets. -/
theorem updateCommand_agrees (c : Controller σ) : (c.updateCommand image).Agrees ctrl ↔
    ∀ i : Fin 12,
      match c.machine.state with
      | .damping => c.robot.kp i = 0 ∧ c.robot.kd i = 2 ∧ c.robot.jvelDes i = 0 ∧ c.robot.tauFf i = 0
      | .stand => c.robot.jposDes i = ctrl.initPos i ∧ c.robot.kp i = 40 * c.machine.pdRatio ∧
          c.robot.kd i = c.machine.pdRatio
      | .ctrl => c.robot.jposDes i = ctrl.jposDes c.user i ∧ c.robot.kp i = ctrl.kp ∧
          c.robot.kd i = ctrl.kd := by
  refine forall_congr' fun i => ?_
  obtain ⟨m, hm⟩ := updateCommand_motor image c i
  rw [hm]
  rfl

/- When the check fires, the state is DAMPING and the command that of CTRL. -/
theorem controlStep_trips (image : LowCmd → List UInt32) (x : Arrivals) (h : c.Ready ctrl) (ht : c.Trips x) :
    (c.controlStep ctrl image x).machine.state = .damping ∧
      ∀ i : Fin 12,
        let m := (c.controlStep ctrl image x).cmd.motorCmd (i.castAdd 8)
        m.kp = ctrl.kp ∧ m.kd = ctrl.kd ∧ m.dq = 0 ∧ m.tau = 0 := by
  obtain ⟨hstate, ho⟩ := ht
  have hs : (c.updateState ctrl x).machine.state = .ctrl := by rw [updateState_machine, hstate]
  have hu := h.updateState x
  have hg := hu.ctrl hs
  rw [controlStep_overturned hs ho]
  refine ⟨rfl, fun i => ?_⟩
  obtain ⟨m, hm⟩ := updateCommand_motor image
    (((c.updateState ctrl x).userControlStep ctrl true).hear x.beforeCheck).stopped i
  rw [hm]
  simp [Targets.motor, stopped, userControlStep, setTargets, hg.1, hg.2, hu.jvelDes, hu.tauFf, fill]

theorem controlStep_agrees (x : Arrivals) (h : c.Ready ctrl) :
    (c.controlStep ctrl image x).Agrees ctrl ↔ ¬c.Trips x ∨ (ctrl.kp = 0 ∧ ctrl.kd = 2) := by
  have hu := h.updateState x
  have hm := updateState_machine ctrl x c
  unfold Trips
  rw [← hm]
  cases hs : (c.updateState ctrl x).machine.state with
  | damping =>
    rw [controlStep_damping hs, updateCommand_agrees]
    refine iff_of_true (fun i => ?_) (.inl (by simp))
    have hd : ((c.updateState ctrl x).damping ctrl 2).machine.state = .damping := hs
    rw [hd]
    exact ⟨rfl, rfl, rfl, rfl⟩
  | stand =>
    rw [controlStep_stand hs, updateCommand_agrees]
    refine iff_of_true (fun i => ?_) (.inl (by simp))
    have hd : ((c.updateState ctrl x).standing ctrl 40 1).machine.state = .stand :=
      (moveRatio_state _ _).trans hs
    rw [hd]
    exact ⟨congrFun (hu.stand hs) i, rfl, one_mul _⟩
  | ctrl =>
    have hg := hu.ctrl hs
    cases ho : c.overturned x with
    | false =>
      rw [controlStep_ctrl hs ho, updateCommand_agrees]
      refine iff_of_true (fun i => ?_) (.inl (by simp))
      simp [userControlStep, setTargets, hs, hg.1, hg.2, fill]
    | true =>
      obtain ⟨hd, hmot⟩ := controlStep_trips image x h ⟨hm ▸ hs, ho⟩
      simp [Agrees, hd, hmot]

/-! ### All runs -/

/- Before the control thread starts the state machine is as it was made. -/
def Prepared (ctrl : UserCtrl σ) (c : Controller σ) : Prop :=
  if c.started then c.Ready ctrl else c.machine = .init

theorem step_prepared (a : Act) (h : c.Prepared ctrl) (hs : c.step ctrl image a = some c') :
    c'.Prepared ctrl := by
  cases a with
  | poll ms =>
    simp only [step] at hs
    split at hs
    · cases hs
    · rename_i hstart
      rw [Prepared, if_neg hstart] at h
      cases hs
      split
      · refine ⟨rfl, rfl, fun _ => rfl, fun hc => ?_⟩
        simp [damping, setTargets, inteprateGamePad, h, SimpleStateMachine.init] at hc
      · simp [Prepared, inteprateGamePad, hstart, h]
  | control x =>
    obtain ⟨hstart, rfl⟩ := control_inv hs
    rw [Prepared, if_pos hstart] at h
    rw [Prepared, controlStep_started, if_pos hstart]
    exact controlStep_ready x h

theorem after_ready (b : Boot σ) (acts : List Act) (hstart : (after ctrl image b acts).started) :
    (after ctrl image b acts).Ready ctrl := by
  have hprep : (after ctrl image b acts).Prepared ctrl :=
    exec_invariant (step ctrl image) (·.Prepared ctrl) (fun _ a _ h hs => step_prepared a h hs)
      (init b) rfl acts
  rwa [Prepared, if_pos hstart] at hprep

/-- A step sends the command of the state it ends in exactly when it is not one
that `CheckTermination` ends, in CTRL with the robot turned over, unless the
controller's gains are those of damping. -/
theorem command_agrees (ctrl : UserCtrl σ) (image : LowCmd → List UInt32) (b : Boot σ)
    (acts : List Act) (x : Arrivals) (c' : Controller σ)
    (hs : (after ctrl image b acts).step ctrl image (.control x) = some c') :
    c'.Agrees ctrl ↔ ¬(after ctrl image b acts).Trips x ∨ (ctrl.kp = 0 ∧ ctrl.kd = 2) := by
  obtain ⟨hstart, rfl⟩ := control_inv hs
  exact controlStep_agrees x (after_ready b acts hstart)

theorem holding_upright (keys : List Key) (c : Controller σ) : ¬c.Trips (holding keys) := by
  simp [Trips]

/- With the robot upright the step ends in CTRL. -/
theorem command_agrees_upright :
    ∃ c', (after exampleParams (fun _ => []) exampleBoot (startedStopped ++ ramp)).step exampleParams
        (fun _ => []) (.control (holding [.A])) = some c' ∧ c'.Agrees exampleParams := by
  obtain ⟨c', hs⟩ : ∃ c', (after exampleParams (fun _ => []) exampleBoot
      (startedStopped ++ ramp)).step exampleParams (fun _ => []) (.control (holding [.A])) = some c' :=
    ⟨_, step_control ramp_rising.started _⟩
  have hup := holding_upright [.A] (after exampleParams (fun _ => []) exampleBoot
    (startedStopped ++ ramp))
  exact ⟨c', hs, (command_agrees exampleParams (fun _ => []) exampleBoot (startedStopped ++ ramp)
    (holding [.A]) c' hs).2 (.inl hup)⟩

/- A is pressed, and the robot lies on its back when the check looks. -/
def onItsBack : LowState := {held [.A] with imuState := ⟨⟨0, 1, 0, 0⟩, ⟨0, 0, 0⟩, ⟨0, 0, 0⟩⟩}

def turningOver : Arrivals := ⟨[held [.A]], [], [], [onItsBack]⟩

theorem turningOver_trips {r : ℚ} (h : c.Rising r) (hr : 95 / 100 < r) : c.Trips turningOver := by
  have hpad : c.pad turningOver = c.pad (holding [.A]) := rfl
  refine ⟨?_, ?_⟩
  · simp [pressed, stood, hpad, Button.update, h.button, h.machine, SimpleStateMachine.ctrl, hr]
  · norm_num [overturned, turningOver, onItsBack, hear, lowStateMessageHandler, checkTermination,
      getState, updateProjectedGravity]

theorem rising_overturned {c : Controller ExampleUserController} {r : ℚ} (h : c.Rising r)
    (hr : 95 / 100 < r) (hready : c.Ready exampleParams) :
    ∃ c', c.step exampleParams image (.control turningOver) = some c' ∧
      c'.machine.state = .damping ∧ (∀ i : Fin 12, (c'.cmd.motorCmd (i.castAdd 8)).kp = 40) ∧
      ¬c'.Agrees exampleParams := by
  have ht := turningOver_trips h hr
  obtain ⟨hd, hmot⟩ := controlStep_trips image turningOver hready ht
  refine ⟨_, step_control h.started _, hd, fun i => (hmot i).1, fun hagrees => ?_⟩
  rcases (controlStep_agrees turningOver hready).1 hagrees with hn | ⟨hk, _⟩
  · exact hn ht
  · norm_num [exampleParams, exampleUserCtrl] at hk

theorem command_keeps_gains :
    ∃ c', (after exampleParams (fun _ => []) exampleBoot (startedStopped ++ ramp)).step exampleParams
        (fun _ => []) (.control turningOver) = some c' ∧
      c'.machine.state = .damping ∧ (∀ i : Fin 12, (c'.cmd.motorCmd (i.castAdd 8)).kp = 40) ∧
      ¬c'.Agrees exampleParams :=
  rising_overturned ramp_rising (by norm_num) (after_ready exampleBoot _ ramp_rising.started)

end Controller

end TypegoSdk.StateMachine
