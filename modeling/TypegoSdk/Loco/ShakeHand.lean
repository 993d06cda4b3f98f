import Mathlib.Data.List.Induction

/-!
# ShakeHand (robot/h1/loco/h1_loco_client.hpp, robot/g1/loco/g1_loco_client.hpp)

Both clients keep the stage of the handshake in `first_shake_hand_stage_` and set it
before they hand the task to `SetTaskId`, whose return code goes to the caller.
So the flag says which task was sent last, and a call without a stage
alternates with that.
-/

namespace TypegoSdk.Loco

/- The flag and the task id behind the switch over `stage`, for the task ids of a
client. -/
def shakeStage (startTask endTask : Int32) (stage : Int32) (firstShakeHandStage : Bool) :
    Bool × Int32 :=
  if stage = 0 then (false, startTask)
  else if stage = 1 then (true, endTask)
  else
    let first := !firstShakeHandStage
    (first, if first then endTask else startTask)

def H1.shakeHand : Int32 → Bool → Bool × Int32 := shakeStage 1 2
def G1.shakeHand : Int32 → Bool → Bool × Int32 := shakeStage 2 3

inductive Robot where
  | h1
  | g1
  deriving DecidableEq

namespace Robot

def shakeHand : Robot → Int32 → Bool → Bool × Int32
  | h1 => H1.shakeHand
  | g1 => G1.shakeHand

def startTask : Robot → Int32
  | h1 => 1
  | g1 => 2

def endTask : Robot → Int32
  | h1 => 2
  | g1 => 3

theorem shakeHand_eq (robot : Robot) : robot.shakeHand = shakeStage robot.startTask robot.endTask := by
  cases robot with
  | h1 => rfl
  | g1 => rfl

theorem start_ne_end (robot : Robot) : robot.endTask ≠ robot.startTask := by
  cases robot with
  | h1 => decide
  | g1 => decide

end Robot

/-- A call of ShakeHand: its argument and what SetTaskId returns. -/
structure Shake where
  stage : Int32
  ret : Int32

/-- The client, and the tasks that its calls have sent with their return codes. -/
structure LocoClient where
  firstShakeHandStage : Bool
  sent : List (Int32 × Int32)

namespace LocoClient

def init : LocoClient := ⟨true, []⟩

def call (robot : Robot) (s : LocoClient) (c : Shake) : LocoClient :=
  let r := robot.shakeHand c.stage s.firstShakeHandStage
  ⟨r.1, s.sent ++ [(r.2, c.ret)]⟩

def after (robot : Robot) (calls : List Shake) : LocoClient := calls.foldl (call robot) init

def lastSent (s : LocoClient) : Option Int32 := s.sent.getLast?.map (·.1)

/- A task is accepted when SetTaskId returns zero. -/
def lastAccepted (s : LocoClient) : Option Int32 := (s.sent.filter (·.2 = 0)).getLast?.map (·.1)

/- The task of a further call. -/
def next (robot : Robot) (s : LocoClient) (stage : Int32) : Int32 :=
  (robot.shakeHand stage s.firstShakeHandStage).2

theorem after_append (robot : Robot) (calls : List Shake) (c : Shake) :
    after robot (calls ++ [c]) = call robot (after robot calls) c := by
  simp [after]

/- The flag is lowered by the start task and raised by the end task. -/
theorem call_flag (robot : Robot) (s : LocoClient) (c : Shake) :
    (call robot s c).firstShakeHandStage = false ↔ (call robot s c).lastSent = some robot.startTask := by
  simp only [call, lastSent, List.getLast?_concat, Option.map_some, Option.some.injEq,
    robot.shakeHand_eq, shakeStage]
  split
  · simp
  · split
    · simp [robot.start_ne_end]
    · cases s.firstShakeHandStage with
      | true => simp
      | false => simp [robot.start_ne_end]

theorem after_flag (robot : Robot) (calls : List Shake) :
    (after robot calls).firstShakeHandStage = false ↔
      (after robot calls).lastSent = some robot.startTask := by
  cases calls using List.reverseRecOn with
  | nil => simp [after, init, lastSent]
  | append_singleton calls c =>
    rw [after_append]
    exact call_flag robot (after robot calls) c

/- Behind a call that succeeds, the task sent last is the one accepted last. -/
theorem lastAccepted_eq (robot : Robot) (calls : List Shake)
    (h : ∀ c ∈ calls.getLast?, c.ret = 0) :
    (after robot calls).lastAccepted = (after robot calls).lastSent := by
  cases calls using List.reverseRecOn with
  | nil => rfl
  | append_singleton calls c =>
    have hret : c.ret = 0 := h c (by simp)
    rw [after_append]
    simp [call, lastAccepted, lastSent, hret]

theorem next_default (robot : Robot) (calls : List Shake) {stage : Int32} (h0 : stage ≠ 0)
    (h1 : stage ≠ 1) : (after robot calls).next robot stage =
      if (after robot calls).lastSent = some robot.startTask then robot.endTask
      else robot.startTask := by
  have hflag := after_flag robot calls
  simp only [next, robot.shakeHand_eq, shakeStage, if_neg h0, if_neg h1]
  cases hfirst : (after robot calls).firstShakeHandStage with
  | false => simp [hflag.mp hfirst]
  | true =>
    have hlast : (after robot calls).lastSent ≠ some robot.startTask := by
      intro hlast
      rw [hflag.mpr hlast] at hfirst
      cases hfirst
    simp [hlast]

end LocoClient

open LocoClient

/-- A call without a stage alternates with the task that was sent last, accepted or
not; that is the one the robot accepted last whenever the last call succeeded. -/
theorem shakeHand_alternates (robot : Robot) (calls : List Shake) (stage : Int32) (h0 : stage ≠ 0)
    (h1 : stage ≠ 1) :
    (after robot calls).next robot stage =
      (if (after robot calls).lastSent = some robot.startTask then robot.endTask
        else robot.startTask) ∧
    ((∀ c ∈ calls.getLast?, c.ret = 0) → (after robot calls).next robot stage =
      if (after robot calls).lastAccepted = some robot.startTask then robot.endTask
      else robot.startTask) := by
  refine ⟨next_default robot calls h0 h1, fun hret => ?_⟩
  rw [lastAccepted_eq robot calls hret]
  exact next_default robot calls h0 h1

/- A start and an end that the robot accepts, and the next start. -/
theorem shakeHand_alternates_again :
    (after .g1 [⟨-1, 0⟩, ⟨-1, 0⟩]).next .g1 (-1) = Robot.g1.startTask := by
  have hlast : (after .g1 [⟨-1, 0⟩, ⟨-1, 0⟩]).lastSent ≠ some Robot.g1.startTask := by decide
  rw [(shakeHand_alternates .g1 [⟨-1, 0⟩, ⟨-1, 0⟩] (-1) (by decide) (by decide)).1, if_neg hlast]

/- The start task fails, and the next call sends the end of a handshake that the
robot has not begun. -/
theorem shakeHand_end_without_start :
    (after .h1 [⟨-1, 3104⟩]).lastAccepted = none ∧
    (after .h1 [⟨-1, 3104⟩]).next .h1 (-1) = Robot.h1.endTask ∧
    (after .g1 [⟨-1, 3104⟩]).lastAccepted = none ∧
    (after .g1 [⟨-1, 3104⟩]).next .g1 (-1) = Robot.g1.endTask := by
  decide

end TypegoSdk.Loco
