import TypegoSdk.Dds.Crc32
import TypegoSdk.Lib.Exec
import TypegoSdk.Remote.Keys
import Mathlib.Algebra.Order.Ring.Rat
import Mathlib.Algebra.Order.Group.Unbundled.Abs

/-!
# The state-machine controller (example/state_machine/)

`ControlStep` reads the remote, moves the state machine, runs the mode that it
selects and writes the command. LowState messages come in on another thread, so
they may arrive before each point at which a step reads the robot. The
arithmetic is exact.
-/

namespace TypegoSdk.StateMachine
open TypegoSdk.Lib TypegoSdk.Remote

/-! ### Gamepad (gamepad.hpp) -/

structure Button where
  pressed : Bool
  onPress : Bool
  onRelease : Bool
  deriving DecidableEq

def Button.init : Button := ⟨false, false, false⟩

def Button.update (b : Button) (state : Bool) : Button where
  onPress := if state then state != b.pressed else false
  onRelease := if state then false else state != b.pressed
  pressed := state

structure Gamepad where
  rockers : Rockers
  button : Key → Button

namespace Gamepad

def init : Gamepad := ⟨⟨0, 0, 0, 0, 0⟩, fun _ => .init⟩

def smooth : ℚ := 3 / 100
def deadZone : ℚ := 1 / 100

def smoothed (old data : ℚ) : ℚ :=
  old * (1 - smooth) + (if |data| < deadZone then 0 else data) * smooth

def update (g : Gamepad) (keyData : RockerBtnData) : Gamepad where
  rockers :=
    { lx := smoothed g.rockers.lx keyData.rockers.lx
      rx := smoothed g.rockers.rx keyData.rockers.rx
      ry := smoothed g.rockers.ry keyData.rockers.ry
      L2 := smoothed g.rockers.L2 keyData.rockers.L2
      ly := smoothed g.rockers.ly keyData.rockers.ly }
  button k := (g.button k).update (keyData.btn.component k)

end Gamepad

/-! ### SimpleStateMachine (state_machine.hpp) -/

inductive States where
  | damping
  | stand
  | ctrl
  deriving DecidableEq

structure SimpleStateMachine where
  state : States
  pdRatio : ℚ
  deltaPd : ℚ
  deriving DecidableEq

namespace SimpleStateMachine

def init : SimpleStateMachine := ⟨.stand, 1 / 10, 5 / 1000⟩

def stop (m : SimpleStateMachine) : SimpleStateMachine := {m with state := .damping, pdRatio := 0}

def stand (m : SimpleStateMachine) : SimpleStateMachine × Bool :=
  if m.state = .damping ∨ m.state = .ctrl then ({m with state := .stand}, true) else (m, false)

def ctrl (m : SimpleStateMachine) : SimpleStateMachine × Bool :=
  if m.state = .stand ∧ 95 / 100 < m.pdRatio then ({m with state := .ctrl}, true) else (m, false)

def standing (up : Bool) (m : SimpleStateMachine) : SimpleStateMachine :=
  if m.state = .stand then
    let moved := if up then m.pdRatio + m.deltaPd else m.pdRatio - m.deltaPd
    {m with pdRatio := max 0 (min 1 moved)}
  else m

end SimpleStateMachine

/-! ### RobotInterface (robot_interface.hpp) -/

abbrev Joints := Fin 12 → ℚ

def fill (x : ℚ) : Joints := fun _ => x

structure Vec3 where
  x : ℚ
  y : ℚ
  z : ℚ
  deriving DecidableEq

structure Quat where
  w : ℚ
  x : ℚ
  y : ℚ
  z : ℚ
  deriving DecidableEq

structure ImuState where
  quaternion : Quat
  rpy : Vec3
  gyroscope : Vec3

structure MotorState where
  q : ℚ
  dq : ℚ
  tauEst : ℚ

/-- The fields of a LowState that are read. -/
structure LowState where
  imuState : ImuState
  motorState : Fin 20 → MotorState
  wirelessRemote : RockerBtnData

structure Sensors where
  jpos : Joints
  jvel : Joints
  tau : Joints
  quat : Quat
  rpy : Vec3
  gyro : Vec3
  projectedGravity : Vec3

structure Targets where
  jposDes : Joints
  jvelDes : Joints
  kp : Joints
  kd : Joints
  tauFf : Joints

structure MotorCmd where
  mode : UInt8
  q : ℚ
  dq : ℚ
  kp : ℚ
  kd : ℚ
  tau : ℚ
  deriving DecidableEq

/-- The fields of a LowCmd that are written. -/
structure LowCmd where
  head : UInt8 × UInt8
  levelFlag : UInt8
  gpio : UInt8
  motorCmd : Fin 20 → MotorCmd
  crc : UInt32

structure RobotInterface extends Sensors, Targets where
  lowCmd : LowCmd

def updateProjectedGravity (quat : Quat) : Vec3 :=
  let w := quat.w
  let x := -quat.x
  let y := -quat.y
  let z := -quat.z
  { x := -2 * (x * z + w * y)
    y := -2 * (y * z - w * x)
    z := -(w * w - x * x - y * y + z * z) }

def getState (state : LowState) : Sensors where
  quat := state.imuState.quaternion
  rpy := state.imuState.rpy
  gyro := state.imuState.gyroscope
  projectedGravity := updateProjectedGravity state.imuState.quaternion
  jpos i := (state.motorState (i.castAdd 8)).q
  jvel i := (state.motorState (i.castAdd 8)).dq
  tau i := (state.motorState (i.castAdd 8)).tauEst

def posStopF : ℚ := 2146000000
def velStopF : ℚ := 16000

def initLowCmd : LowCmd where
  head := (0xFE, 0xEF)
  levelFlag := 0xFF
  gpio := 0
  motorCmd _ := ⟨0x01, posStopF, velStopF, 0, 0, 0⟩
  crc := 0

/- The five values of joint `i` in the command. -/
def Targets.motor (t : Targets) (i : Fin 12) (m : MotorCmd) : MotorCmd :=
  {m with q := t.jposDes i, dq := t.jvelDes i, kp := t.kp i, kd := t.kd i, tau := t.tauFf i}

/- `image` gives the words of memory that the checksum of a LowCmd covers. -/
def RobotInterface.setCommand (image : LowCmd → List UInt32) (r : RobotInterface) :
    RobotInterface × LowCmd :=
  let filled := {r.lowCmd with
    motorCmd := fun i =>
      if h : i.val < 12 then r.toTargets.motor ⟨i.val, h⟩ (r.lowCmd.motorCmd i)
      else r.lowCmd.motorCmd i}
  let lowCmd := {filled with crc := Dds.crc32Core (image filled)}
  ({r with lowCmd := lowCmd}, lowCmd)

/-! ### RobotController (robot_controller.hpp) -/

/-- USER_CTRL with the values that LoadParam gives it. `σ` is what it keeps from
one call to the next. -/
structure UserCtrl (σ : Type) where
  kp : ℚ
  kd : ℚ
  initPos : Joints
  reset : σ → RobotInterface → Gamepad → σ
  getInput : σ → RobotInterface → Gamepad → σ
  calculate : σ → σ
  jposDes : σ → Joints

/- `wirelessRemote` is the part of `state` that `InteprateGamePad` reads;
`started` tells whether StartControl has created the control thread. -/
structure Controller (σ : Type) where
  started : Bool
  wirelessRemote : RockerBtnData
  gamepad : Gamepad
  machine : SimpleStateMachine
  user : σ
  robot : RobotInterface
  cmd : LowCmd

/-- What the constructors leave open. -/
structure Boot (σ : Type) where
  wirelessRemote : RockerBtnData
  sensors : Sensors
  user : σ
  cmd : LowCmd

/-- The LowStates that come in during one step, by the point at which it sees them. -/
structure Arrivals where
  beforePad : List LowState
  beforeReset : List LowState
  beforeInput : List LowState
  beforeCheck : List LowState

inductive Act where
  | poll (messages : List LowState)
  | control (arrivals : Arrivals)

namespace Controller
variable {σ : Type} (ctrl : UserCtrl σ) (image : LowCmd → List UInt32)

def init (b : Boot σ) : Controller σ where
  started := false
  wirelessRemote := b.wirelessRemote
  gamepad := .init
  machine := .init
  user := b.user
  robot :=
    { toSensors := {b.sensors with projectedGravity := ⟨0, 0, -1⟩}
      toTargets := ⟨fill 0, fill 0, fill 0, fill 0, fill 0⟩
      lowCmd := initLowCmd }
  cmd := b.cmd

def lowStateMessageHandler (c : Controller σ) (state : LowState) : Controller σ :=
  {c with
    wirelessRemote := state.wirelessRemote
    robot := {c.robot with toSensors := getState state}}

def hear (messages : List LowState) (c : Controller σ) : Controller σ :=
  messages.foldl lowStateMessageHandler c

def inteprateGamePad (c : Controller σ) : Controller σ :=
  {c with gamepad := c.gamepad.update c.wirelessRemote}

def setTargets (t : Targets) (c : Controller σ) : Controller σ :=
  {c with robot := {c.robot with toTargets := t}}

def standCallback (c : Controller σ) : Controller σ :=
  c.setTargets ⟨ctrl.initPos, fill 0, fill (ctrl.kp * c.machine.pdRatio),
    fill (ctrl.kd * c.machine.pdRatio), fill 0⟩

def ctrlCallback (c : Controller σ) : Controller σ :=
  let c := {c with user := ctrl.reset c.user c.robot c.gamepad}
  c.setTargets ⟨ctrl.initPos, fill 0, fill ctrl.kp, fill ctrl.kd, fill 0⟩

def damping (kd : ℚ) (c : Controller σ) : Controller σ :=
  c.setTargets ⟨ctrl.initPos, fill 0, fill 0, fill kd, fill 0⟩

/- The three handlers of `UpdateStateMachine`, in its order. The first two call
back when the state machine takes the transition. -/
def onPress (k : Key) (transition : SimpleStateMachine → SimpleStateMachine × Bool)
    (callback : Controller σ → Controller σ) (c : Controller σ) : Controller σ :=
  if (c.gamepad.button k).onPress then
    let r := transition c.machine
    let c := {c with machine := r.1}
    if r.2 then callback c else c
  else c

def onStand (c : Controller σ) : Controller σ :=
  c.onPress .R2 SimpleStateMachine.stand (standCallback ctrl)

def onCtrl (c : Controller σ) : Controller σ :=
  c.onPress .A SimpleStateMachine.ctrl (ctrlCallback ctrl)

def onStop (c : Controller σ) : Controller σ :=
  if (c.gamepad.button .L2).pressed && (c.gamepad.button .B).pressed then
    {c with machine := c.machine.stop}
  else c

def updateStateMachine (beforeReset : List LowState) (c : Controller σ) : Controller σ :=
  (((c.onStand ctrl).hear beforeReset).onCtrl ctrl).onStop

def userControlStep (send : Bool) (c : Controller σ) : Controller σ :=
  let c := {c with user := ctrl.calculate (ctrl.getInput c.user c.robot c.gamepad)}
  if send then c.setTargets {c.robot.toTargets with jposDes := ctrl.jposDes c.user} else c

/- The two buttons that move the ratio. -/
def moveRatio (g : Gamepad) (m : SimpleStateMachine) : SimpleStateMachine :=
  let m := if (g.button .R2).pressed then m.standing true else m
  if (g.button .R1).pressed then m.standing false else m

def standing (kp kd : ℚ) (c : Controller σ) : Controller σ :=
  let c := {c with machine := moveRatio c.gamepad c.machine}
  let c := c.userControlStep ctrl false
  c.setTargets {c.robot.toTargets with
    kp := fill (kp * c.machine.pdRatio)
    kd := fill (kd * c.machine.pdRatio)}

def checkTermination (c : Controller σ) : Bool := decide (0 < c.robot.projectedGravity.z)

def updateState (x : Arrivals) (c : Controller σ) : Controller σ :=
  ((c.hear x.beforePad).inteprateGamePad.updateStateMachine ctrl x.beforeReset).hear x.beforeInput

def updateCommand (c : Controller σ) : Controller σ :=
  let r := c.robot.setCommand image
  {c with robot := r.1, cmd := r.2}

def controlStep (x : Arrivals) (c : Controller σ) : Controller σ :=
  let c := c.updateState ctrl x
  let c := if c.machine.state = .stand then c.standing ctrl 40 1 else c
  let c := if c.machine.state = .damping then c.damping ctrl 2 else c
  let c :=
    if c.machine.state = .ctrl then
      let c := (c.userControlStep ctrl true).hear x.beforeCheck
      if c.checkTermination then {c with machine := c.machine.stop} else c
    else c
  c.updateCommand image

/- StartControl polls the remote until R2 is pressed, goes to damping and starts
the control thread. -/
def step (c : Controller σ) : Act → Option (Controller σ)
  | .poll messages =>
    if c.started then none
    else
      let c := (c.hear messages).inteprateGamePad
      some (if (c.gamepad.button .R2).onPress then {c.damping ctrl 2 with started := true} else c)
  | .control x => if c.started then some (c.controlStep ctrl image x) else none

def after (b : Boot σ) (acts : List Act) : Controller σ := exec (step ctrl image) (init b) acts

/-! ### What a step does -/

section Step
variable {ctrl image}

theorem step_control {c : Controller σ} (h : c.started) (x : Arrivals) :
    c.step ctrl image (.control x) = some (c.controlStep ctrl image x) := if_pos h

theorem control_inv {x : Arrivals} {c c' : Controller σ}
    (h : c.step ctrl image (.control x) = some c') :
    c.started ∧ c' = c.controlStep ctrl image x := by
  simp only [step] at h
  split at h
  · rename_i hs
    exact ⟨hs, (Option.some.inj h).symm⟩
  · cases h

/- A LowState changes the sensors and the remote's packet. -/
theorem hear_eq (messages : List LowState) (c : Controller σ) :
    ∃ w s, c.hear messages = {c with wirelessRemote := w, robot := {c.robot with toSensors := s}} := by
  induction messages generalizing c with
  | nil => exact ⟨c.wirelessRemote, c.robot.toSensors, rfl⟩
  | cons state messages ih => exact ih (c.lowStateMessageHandler state)

@[simp] theorem hear_machine (messages : List LowState) (c : Controller σ) :
    (c.hear messages).machine = c.machine := by
  obtain ⟨w, s, h⟩ := hear_eq messages c
  rw [h]

@[simp] theorem hear_gamepad (messages : List LowState) (c : Controller σ) :
    (c.hear messages).gamepad = c.gamepad := by
  obtain ⟨w, s, h⟩ := hear_eq messages c
  rw [h]

@[simp] theorem hear_started (messages : List LowState) (c : Controller σ) :
    (c.hear messages).started = c.started := by
  obtain ⟨w, s, h⟩ := hear_eq messages c
  rw [h]

@[simp] theorem hear_user (messages : List LowState) (c : Controller σ) :
    (c.hear messages).user = c.user := by
  obtain ⟨w, s, h⟩ := hear_eq messages c
  rw [h]

@[simp] theorem hear_targets (messages : List LowState) (c : Controller σ) :
    (c.hear messages).robot.toTargets = c.robot.toTargets := by
  obtain ⟨w, s, h⟩ := hear_eq messages c
  rw [h]

/- The gamepad of the step. -/
def pad (x : Arrivals) (c : Controller σ) : Gamepad := (c.hear x.beforePad).inteprateGamePad.gamepad

/- `UpdateStateMachine` as the state machine sees it, and its first handler. -/
def stood (g : Gamepad) (m : SimpleStateMachine) : SimpleStateMachine :=
  if (g.button .R2).onPress then m.stand.1 else m

def pressed (g : Gamepad) (m : SimpleStateMachine) : SimpleStateMachine :=
  let m := stood g m
  let m := if (g.button .A).onPress then m.ctrl.1 else m
  if (g.button .L2).pressed && (g.button .B).pressed then m.stop else m

/- What the callback does not touch, its handler does not touch. -/
theorem onPress_keeps {α : Type} (f : Controller σ → α) {k : Key}
    {transition : SimpleStateMachine → SimpleStateMachine × Bool}
    {callback : Controller σ → Controller σ} (hm : ∀ c m, f {c with machine := m} = f c)
    (hc : ∀ c, f (callback c) = f c) (c : Controller σ) :
    f (onPress k transition callback c) = f c := by
  unfold onPress
  dsimp only
  split
  · split
    · rw [hc, hm]
    · rw [hm]
  · rfl

theorem onPress_machine {k : Key} {transition : SimpleStateMachine → SimpleStateMachine × Bool}
    {callback : Controller σ → Controller σ} (hc : ∀ c, (callback c).machine = c.machine)
    (c : Controller σ) : (onPress k transition callback c).machine =
      if (c.gamepad.button k).onPress then (transition c.machine).1 else c.machine := by
  unfold onPress
  dsimp only
  split
  · split
    · rw [hc]
    · rfl
  · rfl

theorem onStop_machine (c : Controller σ) : c.onStop.machine =
    if (c.gamepad.button .L2).pressed && (c.gamepad.button .B).pressed then c.machine.stop
    else c.machine := by
  unfold onStop
  split <;> rfl

theorem onStop_keeps {α : Type} (f : Controller σ → α) (hm : ∀ c m, f {c with machine := m} = f c)
    (c : Controller σ) : f c.onStop = f c := by
  unfold onStop
  split
  · exact hm c _
  · rfl

@[simp] theorem onStand_gamepad (c : Controller σ) : (c.onStand ctrl).gamepad = c.gamepad := by
  unfold onStand
  exact onPress_keeps (·.gamepad) (fun _ _ => rfl) (by intro d; rfl) c

@[simp] theorem onCtrl_gamepad (c : Controller σ) : (c.onCtrl ctrl).gamepad = c.gamepad := by
  unfold onCtrl
  exact onPress_keeps (·.gamepad) (fun _ _ => rfl) (by intro d; rfl) c

@[simp] theorem onStop_gamepad (c : Controller σ) : c.onStop.gamepad = c.gamepad :=
  onStop_keeps (·.gamepad) (fun _ _ => rfl) c

@[simp] theorem updateState_gamepad (ctrl : UserCtrl σ) (x : Arrivals) (c : Controller σ) :
    (c.updateState ctrl x).gamepad = c.pad x := by
  simp [updateState, updateStateMachine, pad]

theorem updateState_machine (ctrl : UserCtrl σ) (x : Arrivals) (c : Controller σ) :
    (c.updateState ctrl x).machine = pressed (c.pad x) c.machine := by
  have hstand : ∀ d : Controller σ, (d.standCallback ctrl).machine = d.machine := fun _ => rfl
  have hctrl : ∀ d : Controller σ, (d.ctrlCallback ctrl).machine = d.machine := fun _ => rfl
  rw [updateState, hear_machine, updateStateMachine, onStop_machine, onCtrl_gamepad, onCtrl,
    onPress_machine hctrl, hear_machine, hear_gamepad, onStand_gamepad, onStand,
    onPress_machine hstand]
  simp only [pressed, stood, pad, inteprateGamePad, hear_machine]

theorem moveRatio_state (g : Gamepad) (m : SimpleStateMachine) :
    (moveRatio g m).state = m.state := by
  have h : ∀ up (m : SimpleStateMachine), (m.standing up).state = m.state := by
    intro up m
    unfold SimpleStateMachine.standing
    split <;> rfl
  unfold moveRatio
  dsimp only
  split <;> split <;> simp only [h]

/- The three modes of a step. -/
theorem controlStep_stand {x : Arrivals} {c : Controller σ}
    (h : (c.updateState ctrl x).machine.state = .stand) :
    c.controlStep ctrl image x = ((c.updateState ctrl x).standing ctrl 40 1).updateCommand image := by
  have hs : ((c.updateState ctrl x).standing ctrl 40 1).machine.state = .stand :=
    (moveRatio_state _ _).trans h
  simp [controlStep, h, hs]

theorem controlStep_damping {x : Arrivals} {c : Controller σ}
    (h : (c.updateState ctrl x).machine.state = .damping) :
    c.controlStep ctrl image x = ((c.updateState ctrl x).damping ctrl 2).updateCommand image := by
  have hs : ((c.updateState ctrl x).damping ctrl 2).machine.state = .damping := h
  simp [controlStep, h, hs]

/- The robot has turned over in the last LowState before `CheckTermination`. -/
def overturned (x : Arrivals) (c : Controller σ) : Bool :=
  (c.hear (x.beforePad ++ x.beforeReset ++ x.beforeInput ++ x.beforeCheck)).checkTermination

/- What is heard replaces the sensors, whatever else has changed. -/
theorem hear_sensors (messages : List LowState) {c d : Controller σ}
    (h : c.robot.toSensors = d.robot.toSensors) :
    (c.hear messages).robot.toSensors = (d.hear messages).robot.toSensors := by
  induction messages generalizing c d with
  | nil => exact h
  | cons state messages ih =>
    have hone : (c.lowStateMessageHandler state).robot.toSensors =
        (d.lowStateMessageHandler state).robot.toSensors := rfl
    exact ih hone

theorem hear_append (ms ms' : List LowState) (c : Controller σ) :
    c.hear (ms ++ ms') = (c.hear ms).hear ms' := List.foldl_append ..

theorem updateState_overturned (x : Arrivals) (c : Controller σ) :
    (((c.updateState ctrl x).userControlStep ctrl true).hear x.beforeCheck).checkTermination =
      c.overturned x := by
  have h : (((c.updateState ctrl x).userControlStep ctrl true).hear x.beforeCheck).robot.toSensors =
      (c.hear (x.beforePad ++ x.beforeReset ++ x.beforeInput ++ x.beforeCheck)).robot.toSensors := by
    simp only [hear_append]
    refine hear_sensors _ ?_
    show (c.updateState ctrl x).robot.toSensors = _
    refine hear_sensors _ ?_
    have hctrl : ∀ d : Controller σ, (d.ctrlCallback ctrl).robot.toSensors = d.robot.toSensors :=
      fun _ => rfl
    have hstand : ∀ d : Controller σ, (d.standCallback ctrl).robot.toSensors = d.robot.toSensors :=
      fun _ => rfl
    rw [updateStateMachine, onStop_keeps (·.robot.toSensors) (fun _ _ => rfl), onCtrl,
      onPress_keeps (·.robot.toSensors) (fun _ _ => rfl) hctrl]
    refine hear_sensors _ ?_
    rw [onStand, onPress_keeps (·.robot.toSensors) (fun _ _ => rfl) hstand]
    rfl
  rw [overturned, checkTermination, checkTermination, h]

theorem controlStep_ctrl {x : Arrivals} {c : Controller σ}
    (h : (c.updateState ctrl x).machine.state = .ctrl) (ho : c.overturned x = false) :
    c.controlStep ctrl image x =
      (((c.updateState ctrl x).userControlStep ctrl true).hear x.beforeCheck).updateCommand image := by
  simp [controlStep, h, updateState_overturned, ho]

/- The mode has run when the check ends it. -/
def stopped (c : Controller σ) : Controller σ := {c with machine := c.machine.stop}

theorem controlStep_overturned {x : Arrivals} {c : Controller σ}
    (h : (c.updateState ctrl x).machine.state = .ctrl) (ho : c.overturned x) :
    c.controlStep ctrl image x =
      (((c.updateState ctrl x).userControlStep ctrl true).hear x.beforeCheck).stopped.updateCommand
        image := by
  simp [controlStep, h, updateState_overturned, ho, stopped]

/- The state machine after the step. -/
theorem controlStep_machine (x : Arrivals) (c : Controller σ) :
    (c.controlStep ctrl image x).machine =
      let m := pressed (c.pad x) c.machine
      match m.state with
      | .damping => m
      | .stand => moveRatio (c.pad x) m
      | .ctrl => if c.overturned x then m.stop else m := by
  have hm := updateState_machine ctrl x c
  have hg := updateState_gamepad ctrl x c
  cases hs : (c.updateState ctrl x).machine.state with
  | damping =>
    rw [controlStep_damping hs, ← hm]
    simp only [hs]
    rfl
  | stand =>
    rw [controlStep_stand hs, ← hm, ← hg]
    simp only [hs]
    rfl
  | ctrl =>
    rw [← hm]
    simp only [hs]
    cases ho : c.overturned x with
    | false =>
      rw [controlStep_ctrl hs ho]
      simp [updateCommand, userControlStep, setTargets]
    | true =>
      rw [controlStep_overturned hs ho]
      simp [updateCommand, userControlStep, setTargets, stopped]

/- What the modes and the LowStates do not touch is as the buttons left it. -/
theorem controlStep_keeps {α : Type} (f : Controller σ → α)
    (hhear : ∀ messages c, f (hear messages c) = f c)
    (hmode : ∀ c m u r k, f {c with machine := m, user := u, robot := r, cmd := k} = f c)
    (x : Arrivals) (c : Controller σ) :
    f (c.controlStep ctrl image x) = f (c.updateState ctrl x) := by
  cases hs : (c.updateState ctrl x).machine.state with
  | damping =>
    rw [controlStep_damping hs]
    exact hmode (c.updateState ctrl x) _ _ _ _
  | stand =>
    rw [controlStep_stand hs]
    exact hmode (c.updateState ctrl x) _ _ _ _
  | ctrl =>
    have hrun : f (((c.updateState ctrl x).userControlStep ctrl true).hear x.beforeCheck) =
        f (c.updateState ctrl x) := (hhear ..).trans (hmode (c.updateState ctrl x) _ _ _ _)
    cases ho : c.overturned x with
    | false =>
      rw [controlStep_ctrl hs ho, ← hrun]
      exact hmode (((c.updateState ctrl x).userControlStep ctrl true).hear x.beforeCheck) _ _ _ _
    | true =>
      rw [controlStep_overturned hs ho, ← hrun]
      exact hmode (((c.updateState ctrl x).userControlStep ctrl true).hear x.beforeCheck) _ _ _ _

theorem controlStep_gamepad (x : Arrivals) (c : Controller σ) :
    (c.controlStep ctrl image x).gamepad = c.pad x := by
  rw [← updateState_gamepad ctrl x c]
  exact controlStep_keeps (·.gamepad) hear_gamepad (fun _ _ _ _ _ => rfl) x c

theorem controlStep_started (x : Arrivals) (c : Controller σ) :
    (c.controlStep ctrl image x).started = c.started := by
  rw [controlStep_keeps (·.started) hear_started (fun _ _ _ _ _ => rfl), updateState, hear_started,
    updateStateMachine, onStop_keeps (·.started) (fun _ _ => rfl), onCtrl,
    onPress_keeps (·.started) (fun _ _ => rfl) (by intro d; rfl), hear_started, onStand,
    onPress_keeps (·.started) (fun _ _ => rfl) (by intro d; rfl)]
  exact hear_started x.beforePad c

/- On the joints the command is what the targets say. -/
theorem updateCommand_motor (image : LowCmd → List UInt32) (c : Controller σ) (i : Fin 12) :
    ∃ m, (c.updateCommand image).cmd.motorCmd (i.castAdd 8) = c.robot.toTargets.motor i m := by
  have h : (i.castAdd 8).val < 12 := i.isLt
  exact ⟨c.robot.lowCmd.motorCmd (i.castAdd 8), dif_pos h⟩

end Step

end Controller

/-! ### ExampleUserController (user_controller.hpp) -/

structure ExampleUserController where
  cmd : Vec3
  jposProcessed : Joints
  jvelProcessed : Joints
  jposDes : Joints

def ExampleUserController.getInput (initPos : Joints) (s : ExampleUserController)
    (r : RobotInterface) (g : Gamepad) : ExampleUserController :=
  {s with
    cmd := ⟨g.rockers.ly, -g.rockers.lx, -g.rockers.rx⟩
    jposProcessed := fun i => r.jpos i - initPos i
    jvelProcessed := fun i => r.jvel i / 2}

def ExampleUserController.calculate (initPos : Joints) (s : ExampleUserController) :
    ExampleUserController :=
  {s with jposDes := initPos}

def exampleUserCtrl (kp kd : ℚ) (initPos : Joints) : UserCtrl ExampleUserController where
  kp := kp
  kd := kd
  initPos := initPos
  getInput := .getInput initPos
  reset s r g := (s.getInput initPos r g).calculate initPos
  calculate := .calculate initPos
  jposDes := (·.jposDes)

/- With the values of params/params.json. -/
def exampleParams : UserCtrl ExampleUserController :=
  exampleUserCtrl 40 1 fun i => if i.val % 3 = 0 then 0 else if i.val % 3 = 1 then 9 / 10 else -18 / 10

end TypegoSdk.StateMachine
