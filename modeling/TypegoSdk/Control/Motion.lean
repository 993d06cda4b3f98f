import TypegoSdk.Control.Pid
import TypegoSdk.Lib.Exec
import Mathlib.Logic.Function.Basic
import Mathlib.Tactic.Ring
import Mathlib.Algebra.Order.Group.Unbundled.Abs

/-!
# Motions of the remote control (example/go2/typego_control_interface.cpp)

`rotate` and `move` are loops that sample the state, send a velocity and
sleep. The HTTP server runs its handlers on several threads, so any number of
them may be under way; they share `cancel_flag`, the three controllers and the
sport client. The clock and the sampled pose come from outside with each step.
-/

namespace TypegoSdk.Control
open TypegoSdk.Lib
variable {ι K : Type} [Field K] [LinearOrder K]

/-! ### One call -/

inductive ExecutionStatus where
  | success
  | timeout
  | error
  deriving DecidableEq

abbrev ExecutionResult := ExecutionStatus × String

/-- The fields of `high_state` that are read. They are read one by one, so the
three values may come from different samples. -/
structure Pose (K : Type) where
  x : K
  y : K
  yaw : K
  deriving DecidableEq

structure Velocity (K : Type) where
  vx : K
  vy : K
  vyaw : K
  deriving DecidableEq

def Velocity.zero : Velocity K := ⟨0, 0, 0⟩

inductive Request (K : Type) where
  | rotate (deltaRad timeout : K)
  | move (dx dy : K) (bodyFrame : Bool) (timeout : K)
  deriving DecidableEq

/-- The local variables that the loop carries from one round to the next. -/
inductive Task (K : Type) where
  | rotate (deltaRad accumulatedAngle prevYaw : K)
  | move (targetX targetY yawTarget : K)
  deriving DecidableEq

namespace Request

def timeout : Request K → K
  | .rotate _ timeout => timeout
  | .move _ _ _ timeout => timeout

def cancelled : Request K → ExecutionResult
  | .rotate _ _ => (.error, "Rotate cancelled")
  | .move _ _ _ _ => (.error, "Move cancelled")

def timedOut : Request K → ExecutionResult
  | .rotate _ _ => (.timeout, "Rotation timed out before reaching the target angle.")
  | .move _ _ _ _ => (.timeout, "Movement timed out before reaching the target position.")

/- From the initial pose to the first round. -/
def start (trig : Trig K) (initial : Pose K) : Request K → Task K
  | .rotate deltaRad _ => .rotate deltaRad 0 initial.yaw
  | .move dx dy bodyFrame _ =>
    let bodyDx := dx * trig.cos initial.yaw - dy * trig.sin initial.yaw
    let bodyDy := dx * trig.sin initial.yaw + dy * trig.cos initial.yaw
    if bodyFrame then .move (initial.x + bodyDx) (initial.y + bodyDy) initial.yaw
    else .move (initial.x + dx) (initial.y + dy) initial.yaw

end Request

/- World-frame to body-frame velocities. -/
def toBody (trig : Trig K) (yaw vx vy vyaw : K) : Velocity K :=
  ⟨vx * trig.cos yaw + vy * trig.sin yaw, -vx * trig.sin yaw + vy * trig.cos yaw, vyaw⟩

/- One round from the sampled pose on: the velocity to send, or none when the
target is reached. -/
def Task.sample (trig : Trig K) (pids : Controllers K) (pose : Pose K) :
    Task K → Task K × Controllers K × Option (Velocity K)
  | .rotate deltaRad accumulatedAngle prevYaw =>
    let accumulated := accumulatedAngle + wrap trig.pi (pose.yaw - prevYaw)
    let remaining := deltaRad - accumulated
    let task := .rotate deltaRad accumulated pose.yaw
    if |remaining| < controlErrorYaw then (task, pids, none)
    else
      let r := pids.yaw.update remaining
      (task, {pids with yaw := r.1}, some ⟨0, 0, r.2⟩)
  | .move targetX targetY yawTarget =>
    let remainingX := targetX - pose.x
    let remainingY := targetY - pose.y
    let task := .move targetX targetY yawTarget
    if |remainingX| < controlError ∧ |remainingY| < controlError then (task, pids, none)
    else
      let rx := pids.x.update remainingX
      let ry := pids.y.update remainingY
      let ryaw := pids.yaw.update (yawTarget - pose.yaw)
      (task, ⟨ryaw.1, rx.1, ry.1⟩, some (toBody trig pose.yaw rx.2 ry.2 ryaw.2))

/-- Where a call stands, named after what comes next. -/
inductive Pc (K : Type) where
  | reset
  | readStart
  | guard
  | poll
  | cancelMove
  | readClock
  | sample
  | command (v : Velocity K)
  | sleep
  | returning (r : ExecutionResult)
  | done
  deriving DecidableEq

/- `task`, `now` and `endTime` have no value before `readStart` is passed. -/
structure Motion (K : Type) where
  request : Request K
  task : Task K
  now : K
  endTime : K
  pc : Pc K
  deriving DecidableEq

/-- What others can see of a call. -/
inductive MotionEvent (K : Type) where
  | reset
  | polled (flag : Bool)
  | move (v : Velocity K)
  | returned (r : ExecutionResult)
  deriving DecidableEq

structure Outcome (K : Type) where
  motion : Motion K
  cancelFlag : Bool
  pids : Controllers K
  event : Option (MotionEvent K)

def Motion.enter (request : Request K) : Motion K := ⟨request, .rotate 0 0 0, 0, 0, .reset⟩

/- One step of a call, from the shared flag and controllers. -/
def Motion.next (trig : Trig K) (m : Motion K) (flag : Bool) (pids : Controllers K) (clock : K)
    (pose : Pose K) : Option (Outcome K) :=
  match m.pc with
  | .reset => some ⟨{m with pc := .readStart}, false, pids, some .reset⟩
  | .readStart => some ⟨{m with
      task := m.request.start trig pose
      now := clock
      endTime := clock + m.request.timeout
      pc := .guard}, flag, pids, none⟩
  | .guard => some ⟨{m with
      pc := if m.now < m.endTime then .poll else .returning m.request.timedOut}, flag, pids, none⟩
  | .poll => some ⟨{m with pc := if flag then .cancelMove else .readClock}, flag, pids,
      some (.polled flag)⟩
  | .cancelMove => some ⟨{m with pc := .returning m.request.cancelled}, flag, pids,
      some (.move .zero)⟩
  | .readClock => some ⟨{m with now := clock, pc := .sample}, flag, pids, none⟩
  | .sample =>
    let r := m.task.sample trig pids pose
    some ⟨{m with
      task := r.1
      pc := match r.2.2 with
        | none => .returning (.success, "")
        | some v => .command v}, flag, r.2.1, none⟩
  | .command v => some ⟨{m with pc := .sleep}, flag, pids, some (.move v)⟩
  | .sleep => some ⟨{m with pc := .guard}, flag, pids, none⟩
  | .returning r => some ⟨{m with pc := .done}, flag, pids, some (.returned r)⟩
  | .done => none

/-! ### The server -/

inductive Event (ι K : Type) where
  | call (i : ι)
  | motion (i : ι) (e : MotionEvent K)
  | cancel
  | stopMove
  | stopped (r : ExecutionResult)
  deriving DecidableEq

/- `motion i` is the call `i`, once it is made; `stopping` is a `stop()` that has
the return code of StopMove and has not returned yet. -/
structure Server (ι K : Type) where
  cancelFlag : Bool
  pids : Controllers K
  motion : ι → Option (Motion K)
  stopping : Option ℤ
  log : List (Event ι K)

inductive Act (ι K : Type) where
  | call (i : ι) (request : Request K)
  | run (i : ι) (clock : K) (pose : Pose K)
  | cancel
  | stopMove (code : ℤ)
  | stopReturn

/- What `stop()` returns for a return code of StopMove. -/
def stopResult (code : ℤ) : ExecutionResult :=
  if code ≠ 0 then (.error, "Failed to send stop command.") else (.success, "")

namespace Server

def init (trig : Trig K) : Server ι K := ⟨false, .init trig, fun _ => none, none, []⟩

variable [DecidableEq ι]

def absorb (s : Server ι K) (i : ι) (o : Outcome K) : Server ι K :=
  {s with
    cancelFlag := o.cancelFlag
    pids := o.pids
    motion := Function.update s.motion i (some o.motion)
    log := s.log ++ (o.event.map (.motion i)).toList}

def step (trig : Trig K) (s : Server ι K) : Act ι K → Option (Server ι K)
  | .call i request =>
    match s.motion i with
    | some _ => none
    | none => some {s with
        motion := Function.update s.motion i (some (.enter request))
        log := s.log ++ [.call i]}
  | .run i clock pose =>
    match s.motion i with
    | none => none
    | some m => (m.next trig s.cancelFlag s.pids clock pose).map (s.absorb i)
  | .cancel => some {s with cancelFlag := true, log := s.log ++ [.cancel]}
  | .stopMove code =>
    match s.stopping with
    | some _ => none
    | none => some {s with stopping := some code, log := s.log ++ [.stopMove]}
  | .stopReturn =>
    match s.stopping with
    | none => none
    | some code => some {s with stopping := none, log := s.log ++ [.stopped (stopResult code)]}

def after (trig : Trig K) (acts : List (Act ι K)) : Server ι K := exec (step trig) (init trig) acts

/- What each step that is taken has found and done. -/
section Inversion
variable {trig : Trig K} {s s' : Server ι K} {i : ι}

theorem call_inv {request : Request K} (h : s.step trig (.call i request) = some s') :
    s.motion i = none ∧ s' = {s with
      motion := Function.update s.motion i (some (.enter request))
      log := s.log ++ [.call i]} := by
  simp only [step] at h
  split at h
  · cases h
  · rename_i hnone
    cases h
    exact ⟨hnone, rfl⟩

theorem run_inv {clock : K} {pose : Pose K} (h : s.step trig (.run i clock pose) = some s') :
    ∃ m o, s.motion i = some m ∧ m.next trig s.cancelFlag s.pids clock pose = some o ∧
      s' = s.absorb i o := by
  simp only [step] at h
  split at h
  · cases h
  · rename_i m hm
    obtain ⟨o, ho, hs⟩ := Option.map_eq_some_iff.mp h
    exact ⟨m, o, hm, ho, hs.symm⟩

theorem stopMove_inv {code : ℤ} (h : s.step trig (.stopMove code) = some s') :
    s' = {s with stopping := some code, log := s.log ++ [.stopMove]} := by
  simp only [step] at h
  split at h
  · cases h
  · cases h
    rfl

theorem stopReturn_inv (h : s.step trig .stopReturn = some s') :
    ∃ code, s.stopping = some code ∧
      s' = {s with stopping := none, log := s.log ++ [.stopped (stopResult code)]} := by
  simp only [step] at h
  split at h
  · cases h
  · rename_i code hcode
    cases h
    exact ⟨code, hcode, rfl⟩

end Inversion

end Server

/-! ### Velocities are not zero on the way -/

section NonZero
variable [IsStrictOrderedRing K]

omit [IsStrictOrderedRing K] in
theorem sample_tuned (trig : Trig K) (pids : Controllers K) (pose : Pose K) (t : Task K)
    (h : pids.Tuned) : (t.sample trig pids pose).2.1.Tuned := by
  cases t with
  | rotate deltaRad accumulatedAngle prevYaw =>
    simp only [Task.sample]
    split
    · exact h
    · exact ⟨h.yaw.update _, h.x, h.y⟩
  | move targetX targetY yawTarget =>
    simp only [Task.sample]
    split
    · exact h
    · exact ⟨h.yaw.update _, h.x.update _, h.y.update _⟩

theorem abs_pos_of_not_lt {r e : K} (he : 0 < e) (h : ¬|r| < e) : r ≠ 0 :=
  abs_pos.mp (he.trans_le (not_lt.mp h))

omit [IsStrictOrderedRing K] in
/- A rotation keeps a velocity other than zero. -/
theorem toBody_zero {trig : Trig K} {yaw vx vy vyaw : K}
    (h : toBody trig yaw vx vy vyaw = .zero) : vx = 0 ∧ vy = 0 := by
  simp only [toBody, Velocity.zero, Velocity.mk.injEq] at h
  obtain ⟨hx, hy, _⟩ := h
  have hs := trig.sq_add_sq yaw
  constructor
  · calc vx = vx * (trig.cos yaw ^ 2 + trig.sin yaw ^ 2) := by rw [hs, mul_one]
      _ = trig.cos yaw * (vx * trig.cos yaw + vy * trig.sin yaw) -
          trig.sin yaw * (-vx * trig.sin yaw + vy * trig.cos yaw) := by ring
      _ = 0 := by rw [hx, hy]; ring
  · calc vy = vy * (trig.cos yaw ^ 2 + trig.sin yaw ^ 2) := by rw [hs, mul_one]
      _ = trig.sin yaw * (vx * trig.cos yaw + vy * trig.sin yaw) +
          trig.cos yaw * (-vx * trig.sin yaw + vy * trig.cos yaw) := by ring
      _ = 0 := by rw [hx, hy]; ring

/- A round that does not end the motion sends a velocity other than zero. -/
theorem sample_ne_zero (trig : Trig K) (pids : Controllers K) (pose : Pose K) (t : Task K)
    (v : Velocity K) (h : pids.Tuned) (hv : (t.sample trig pids pose).2.2 = some v) :
    v ≠ .zero := by
  cases t with
  | rotate deltaRad accumulatedAngle prevYaw =>
    simp only [Task.sample] at hv
    split at hv
    · cases hv
    · rename_i hr
      cases hv
      have hne := abs_pos_of_not_lt (by unfold controlErrorYaw; positivity) hr
      have ho := h.yaw.output_ne_zero (by positivity) (by positivity) hne
      simp [Velocity.zero, ho]
  | move targetX targetY yawTarget =>
    simp only [Task.sample] at hv
    split at hv
    · cases hv
    · rename_i hr
      cases hv
      intro hz
      obtain ⟨hx, hy⟩ := toBody_zero hz
      apply hr
      have he : (0 : K) < controlError := by unfold controlError; positivity
      constructor
      · by_contra hn
        exact h.x.output_ne_zero (by positivity) (by positivity) (abs_pos_of_not_lt he hn) hx
      · by_contra hn
        exact h.y.output_ne_zero (by positivity) (by positivity) (abs_pos_of_not_lt he hn) hy

end NonZero

end TypegoSdk.Control
