import TypegoSdk.H1.AnkleTrack
import TypegoSdk.Lib.Pipeline
import Mathlib.Algebra.Order.Field.Basic
import Mathlib.Analysis.SpecialFunctions.Trigonometric.Bounds
import Mathlib.Tactic.FieldSimp
import Mathlib.Tactic.Linarith
import Mathlib.Tactic.Positivity
import Mathlib.Tactic.Ring

/-!
# The ankle swings (example/g1/low_level/g1_ankle_swing_example.cpp,
example/h1/low_level/h1_27dof_example.cpp)

`LowStateHandler`, `Control` and `LowCommandWriter` run in threads of their own and
hand their values over in buffers. The mode of the ankles and the mode of the machine
are shared without a buffer: the writer reads both before it takes the command.
Numbers are exact, so that a stage has 1500 ticks of 2 ms.
-/

namespace TypegoSdk.LowLevel
open TypegoSdk.Lib TypegoSdk.Dds TypegoSdk.H1

/-! ### The programs -/

/-- `M_PI` and `std::sin`, and the value of a float given by its bits. -/
structure Numbers (K : Type) [Field K] [LinearOrder K] where
  pi : K
  sin : K → K
  ofBits : UInt32 → K
  pi_pos : 0 < pi
  sin_le : ∀ x, |sin x| ≤ 1
  sin_sub_le : ∀ x y, |sin x - sin y| ≤ |x - y|
  sin_mul_pi : ∀ n : ℕ, sin (n * pi) = 0
  sin_half : sin (pi / 2) = 1

/- The real numbers, with any reading of the bits. -/
noncomputable def realNumbers (ofBits : UInt32 → ℝ) : Numbers ℝ where
  pi := Real.pi
  sin := Real.sin
  ofBits := ofBits
  pi_pos := Real.pi_pos
  sin_le := Real.abs_sin_le_one
  sin_sub_le := Real.abs_sin_sub_sin_le
  sin_mul_pi := Real.sin_nat_mul_pi
  sin_half := Real.sin_pi_div_two

structure MotorCommand (K : Type) where
  qTarget : List K
  dqTarget : List K
  kp : List K
  kd : List K
  tauFf : List K

/-- The targets of the joints 4, 5, 10 and 11. In the mode AB the pitch joint of an ankle is its
joint B and the roll joint its joint A. -/
structure Ankles (K : Type) where
  leftPitch : K
  leftRoll : K
  rightPitch : K
  rightRoll : K

variable {K : Type} [Field K]

/-- What the two programs differ in: the motors with their gains, and how the target in front
of the zero posture is computed. -/
structure Robot (K : Type) [Field K] where
  numMotor : ℕ
  kp : List K
  kd : List K
  approach : K → K → K
  approach_eq : ∀ ratio q, approach ratio q = (1 - ratio) * q
  ankles_lt : 11 < numMotor

inductive MotorType where
  | gearboxS
  | gearboxM
  | gearboxL
  deriving DecidableEq

def h1MotorType : List MotorType :=
  [.gearboxM, .gearboxM, .gearboxM, .gearboxL, .gearboxS, .gearboxS,
    .gearboxM, .gearboxM, .gearboxM, .gearboxL, .gearboxS, .gearboxS, .gearboxM] ++
    List.replicate 14 .gearboxS

def getMotorKp : MotorType → ℕ
  | .gearboxS => 80
  | .gearboxM => 100
  | .gearboxL => 200

def getMotorKd : MotorType → ℕ
  | .gearboxS => 2
  | .gearboxM => 3
  | .gearboxL => 5

def g1 : Robot K where
  numMotor := 29
  kp := ([60, 60, 60, 100, 40, 40, 60, 60, 60, 100, 40, 40, 60] ++ List.replicate 16 40).map Nat.cast
  kd := ([1, 1, 1, 2, 1, 1, 1, 1, 1, 2, 1, 1] ++ List.replicate 17 1).map Nat.cast
  approach ratio q := (1 - ratio) * q
  approach_eq _ _ := rfl
  ankles_lt := by decide

def h1 : Robot K where
  numMotor := 27
  kp := h1MotorType.map fun type => (getMotorKp type : K)
  kd := h1MotorType.map fun type => (getMotorKd type : K)
  approach ratio q := (0 - q) * ratio + q
  approach_eq ratio q := by ring
  ankles_lt := by decide

def controlDt : K := ((2 : ℕ) : K) / ((1000 : ℕ) : K)
def duration : K := ((3 : ℕ) : K)

namespace Robot

def command (r : Robot K) (qTarget : List K) : MotorCommand K :=
  ⟨qTarget, List.replicate r.numMotor 0, r.kp, r.kd, List.replicate r.numMotor 0⟩

def ankles (r : Robot K) (a : Ankles K) : List K :=
  ((((List.replicate r.numMotor 0).set 4 a.leftPitch).set 5 a.leftRoll).set 10 a.rightPitch).set 11
    a.rightRoll

end Robot

variable [LinearOrder K] (N : Numbers K) (r : Robot K)

/- The amplitudes: `max_P` and `max_A` are 30 degrees, `max_R` and `max_B` are 10. -/
def maxP : K := N.pi * ((30 : ℕ) : K) / ((180 : ℕ) : K)
def maxR : K := N.pi * ((10 : ℕ) : K) / ((180 : ℕ) : K)

def swingPR (t : K) : Ankles K where
  leftPitch := maxP N * N.sin (((2 : ℕ) : K) * N.pi * t)
  leftRoll := maxR N * N.sin (((2 : ℕ) : K) * N.pi * t)
  rightPitch := maxP N * N.sin (((2 : ℕ) : K) * N.pi * t)
  rightRoll := -maxR N * N.sin (((2 : ℕ) : K) * N.pi * t)

def swingAB (t : K) : Ankles K where
  leftPitch := maxR N * N.sin (N.pi * t + N.pi)
  leftRoll := maxP N * N.sin (N.pi * t)
  rightPitch := -maxR N * N.sin (N.pi * t + N.pi)
  rightRoll := -maxP N * N.sin (N.pi * t)

/- `Control` with a state in the buffer: the mode and the time after it, and the command. -/
def control (mode : PRorAB) (time : K) (q : List K) : PRorAB × K × MotorCommand K :=
  let time := time + controlDt
  if time < duration then
    let ratio := max 0 (min (time / duration) 1)
    (mode, time, r.command (q.map (r.approach ratio)))
  else if time < duration * ((2 : ℕ) : K) then
    (.PR, time, r.command (r.ankles (swingPR N (time - duration))))
  else (.AB, time, r.command (r.ankles (swingAB N (time - duration * ((2 : ℕ) : K)))))

/- The positions of the motors in a `LowState_`. -/
def motorState (m : LowState) : List K :=
  (List.range r.numMotor).map fun i => N.ofBits (m.covered.getD (19 + 14 * i) 0)

/- What `LowStateHandler` stores of a message. -/
def lowStateHandler (m : LowState) : Option (List K × UInt8) :=
  if m.crc ≠ crc32Core m.covered then none else some (motorState N r m, modeMachine m)

/- The loop over the motors; `LowCmd_` has 35 of them. -/
def motorCmds (mc : MotorCommand K) : List (MotorCmd K) :=
  (List.range 35).map fun i =>
    if i < r.numMotor then
      ⟨1, mc.qTarget.getD i 0, mc.dqTarget.getD i 0, mc.tauFf.getD i 0, mc.kp.getD i 0, mc.kd.getD i 0⟩
    else ⟨0, 0, 0, 0, 0, 0⟩

/- `image` is the command in memory, up to its last word. -/
def lowCommandWriter (image : PRorAB → UInt8 → List (MotorCmd K) → List UInt32)
    (f : Frame PRorAB UInt8 (MotorCommand K)) : LowCmd K :=
  let motors := motorCmds r f.command
  ⟨f.mode, f.mark, motors, crc32Core (image f.mode f.mark motors)⟩

def after (acts : List (PipelineAct LowState)) : Pipeline (List K) UInt8 PRorAB K (MotorCommand K) :=
  Pipeline.after (lowStateHandler N r) (control N r) 0 .PR 0 acts

/- The commands that `Write` gets. -/
def written (image : PRorAB → UInt8 → List (MotorCmd K) → List UInt32)
    (acts : List (PipelineAct LowState)) : List (LowCmd K) :=
  (after N r acts).published.map (lowCommandWriter r image)

/-! ### The ticks -/

/- The targets of the tick `k`, the first being 1, from the positions `q`. -/
def targets (k : ℕ) (q : List K) : List K :=
  if k < 1500 then q.map fun x => (1 - (k : K) / ((1500 : ℕ) : K)) * x
  else if k < 3000 then r.ankles (swingPR N (((k - 1500 : ℕ) : K) / ((500 : ℕ) : K)))
  else r.ankles (swingAB N (((k - 3000 : ℕ) : K) / ((500 : ℕ) : K)))

theorem targets_AB {k : ℕ} (h : 3000 ≤ k) (q : List K) :
    targets N r k q = r.ankles (swingAB N (((k - 3000 : ℕ) : K) / ((500 : ℕ) : K))) := by
  rw [targets, if_neg (by omega), if_neg (Nat.not_lt.mpr h)]

def modeAt (k : ℕ) : PRorAB := if k < 3000 then .PR else .AB

section Ticks
variable [IsStrictOrderedRing K]

theorem time_lt_iff (k n : ℕ) : (k : K) * controlDt < ((n : ℕ) : K) * duration ↔ k < n * 1500 := by
  have hdt : (k : K) * controlDt = ((2 * k : ℕ) : K) / ((1000 : ℕ) : K) := by
    rw [controlDt]
    push_cast
    ring
  have hend : ((n : ℕ) : K) * duration = ((n * 3 : ℕ) : K) := by
    rw [duration]
    push_cast
    ring
  have hpos : (0 : K) < ((1000 : ℕ) : K) := Nat.cast_pos.mpr (by decide)
  rw [hdt, hend, div_lt_iff₀ hpos, ← Nat.cast_mul, Nat.cast_lt]
  omega

theorem time_sub (k n : ℕ) (h : n * 1500 ≤ k) :
    (k : K) * controlDt - ((n : ℕ) : K) * duration =
      ((k - n * 1500 : ℕ) : K) / ((500 : ℕ) : K) := by
  rw [Nat.cast_sub h, controlDt, duration]
  push_cast
  ring

/- The ratio is within its limits while the time is. -/
theorem ratio_eq (k : ℕ) (h : k < 1500) :
    max 0 (min ((k : K) * controlDt / duration) 1) = (k : K) / ((1500 : ℕ) : K) := by
  have hratio : (k : K) * controlDt / duration = (k : K) / ((1500 : ℕ) : K) := by
    rw [controlDt, duration]
    push_cast
    ring
  have hpos : (0 : K) < ((1500 : ℕ) : K) := Nat.cast_pos.mpr (by decide)
  have hle : (k : K) / ((1500 : ℕ) : K) ≤ 1 := by
    rw [div_le_one hpos, Nat.cast_le]
    exact h.le
  rw [hratio, min_eq_left hle, max_eq_right (div_nonneg (Nat.cast_nonneg k) hpos.le)]

/- One tick, in whatever mode of the stage before. -/
theorem control_tick (k : ℕ) (q : List K) :
    control N r (modeAt k) (k * controlDt) q =
      (modeAt (k + 1), ((k + 1 : ℕ) : K) * controlDt, r.command (targets N r (k + 1) q)) := by
  have htime : (k : K) * controlDt + controlDt = ((k + 1 : ℕ) : K) * controlDt := by
    push_cast
    ring
  have hone : (duration : K) = ((1 : ℕ) : K) * duration := by rw [Nat.cast_one, one_mul]
  have hfirst : ((k + 1 : ℕ) : K) * controlDt < duration ↔ k + 1 < 1500 := by
    rw [hone, time_lt_iff]
  have hsecond : ((k + 1 : ℕ) : K) * controlDt < duration * ((2 : ℕ) : K) ↔ k + 1 < 3000 := by
    rw [mul_comm duration, time_lt_iff]
  simp only [control, htime, hfirst, hsecond, targets, modeAt]
  by_cases h1 : k + 1 < 1500
  · have h2 : k < 3000 := by omega
    have h3 : k + 1 < 3000 := by omega
    have happroach : ∀ ratio, r.approach ratio = fun x => (1 - ratio) * x := fun ratio =>
      funext (r.approach_eq ratio)
    rw [if_pos h1, if_pos h1, if_pos h2, if_pos h3, ratio_eq (k + 1) h1, happroach]
  · rw [if_neg h1, if_neg h1]
    by_cases h3 : k + 1 < 3000
    · have hsub := time_sub (K := K) (k + 1) 1 (by omega)
      rw [← hone, Nat.one_mul] at hsub
      simp only [if_pos h3, hsub]
    · have hsub := time_sub (K := K) (k + 1) 2 (by omega)
      rw [mul_comm ((2 : ℕ) : K)] at hsub
      simp only [if_neg h3, hsub]

/- The mode and the time after some ticks, whatever the states were. -/
theorem memory_from (n : ℕ) (ss : List (List K)) :
    Pipeline.memory (control N r) (modeAt n) (n * controlDt) ss =
      (modeAt (n + ss.length), ((n + ss.length : ℕ) : K) * controlDt) := by
  induction ss using List.reverseRecOn with
  | nil => rfl
  | append_singleton ss q ih =>
    rw [Pipeline.memory_snoc, ih, control_tick, List.length_append, List.length_singleton,
      Nat.add_assoc]

end Ticks

/-! ### How far the targets move -/

/- 30 degrees times the angle of a tick of the faster swing. -/
def sway : K := N.pi * N.pi / ((1500 : ℕ) : K)

omit [LinearOrder K] in
theorem ankles_getD (a : Ankles K) (i : ℕ) :
    (r.ankles a).getD i 0 =
      if i = 11 then a.rightRoll else if i = 10 then a.rightPitch
      else if i = 5 then a.leftRoll else if i = 4 then a.leftPitch else 0 := by
  have hlt := r.ankles_lt
  have hzero : (List.replicate r.numMotor (0 : K)).getD i 0 = 0 := by
    rw [List.getD_eq_getElem?_getD, List.getElem?_replicate]
    split <;> rfl
  have hset : ∀ (l : List K) (j : ℕ) (x : K), j < l.length →
      (l.set j x).getD i 0 = if i = j then x else l.getD i 0 := by
    intro l j x hj
    rw [List.getD_eq_getElem?_getD, List.getD_eq_getElem?_getD, List.getElem?_set]
    by_cases hij : i = j
    · rw [if_pos hij, if_pos hij.symm, if_pos hj]
      rfl
    · rw [if_neg hij, if_neg (Ne.symm hij)]
  rw [Robot.ankles, hset _ _ _ (by simp only [List.length_set, List.length_replicate]; omega),
    hset _ _ _ (by simp only [List.length_set, List.length_replicate]; omega),
    hset _ _ _ (by simp only [List.length_set, List.length_replicate]; omega),
    hset _ _ _ (by simp only [List.length_replicate]; omega), hzero]

section Bounds
variable [IsStrictOrderedRing K]

end Bounds

/-! ### Whole runs -/

/- The target of the motor `x` in a command that is written. -/
def target (c : LowCmd K) (x : ℕ) : K := (c.motorCmd[x]?.map MotorCmd.q).getD 0

/-- A command that was computed in the tick `i.1 + 1`, from the accepted state with number `i.2`. Its
targets are within the positions of that state or 30 degrees. In the mode AB it is a command of the third
stage, or the last one before, whose targets are small. -/
structure Follows (acts : List (PipelineAct LowState)) (i : ℕ × ℕ) (c : LowCmd K) : Prop where
  motors : ∃ m, .message m ∈ acts ∧ m.crc = crc32Core m.covered ∧
    (after N r acts).recorded[i.2]? = some (motorState N r m, modeMachine m) ∧
    (after N r acts).produced[i.1]? = some (r.command (targets N r (i.1 + 1) (motorState N r m))) ∧
    c.motorCmd = motorCmds r (r.command (targets N r (i.1 + 1) (motorState N r m))) ∧
    ∀ x, |target c x| ≤ max |(motorState N r m).getD x 0| (maxP N)
  machine : c.modeMachine = 0 ∨
    ∃ m, .message m ∈ acts ∧ m.crc = crc32Core m.covered ∧ c.modeMachine = modeMachine m
  parallel : c.modePr = .AB → 3000 ≤ i.1 + 1 ∨ ∀ x, |target c x| ≤ sway N

omit [LinearOrder K] in
theorem motorCmds_q (qTarget : List K) (x : ℕ) :
    ((motorCmds r (r.command qTarget))[x]?.map MotorCmd.q).getD 0 =
      if x < 35 ∧ x < r.numMotor then qTarget.getD x 0 else 0 := by
  rw [motorCmds, List.getElem?_map]
  by_cases hx : x < 35
  · rw [List.getElem?_range hx]
    by_cases hm : x < r.numMotor
    · simp only [hx, hm, Option.map_some, if_true, and_self, Option.getD_some]
      rfl
    · simp only [hx, hm, Option.map_some, if_false, and_false, Option.getD_some]
  · rw [List.getElem?_eq_none (by rw [List.length_range]; omega)]
    simp [hx]

variable [IsStrictOrderedRing K]

section Schedules
variable {p : Pipeline (List K) UInt8 PRorAB K (MotorCommand K)} {n : ℕ} {q : List K}

/- The ticks after the tick `n`, with one state in the buffer. -/
theorem exec_ticks (hstate : p.state = some q) (hidle : p.controlling = none)
    (hmode : p.mode = modeAt n) (htime : p.time = n * controlDt) (k : ℕ) :
    exec (Pipeline.step (lowStateHandler N r) (control N r)) p (Pipeline.rounds (k + 1)) =
      {p with
        mode := modeAt (n + (k + 1))
        time := ((n + (k + 1) : ℕ) : K) * controlDt
        command := some (r.command (targets N r (n + k + 1) q))
        used := p.used ++ List.replicate (k + 1) q
        produced := p.produced ++ Pipeline.outputs (control N r) (modeAt n) (n * controlDt)
          (List.replicate (k + 1) q)} := by
  rw [Pipeline.exec_rounds _ _ hstate hidle, hmode, htime, memory_from, memory_from, control_tick,
    List.length_replicate, List.length_replicate]

end Schedules

/- The state behind one accepted message. -/
def received (m : LowState) : Pipeline (List K) UInt8 PRorAB K (MotorCommand K) where
  state := some (motorState N r m)
  mark := 0
  mode := .PR
  time := 0
  command := none
  handling := some (modeMachine m)
  controlling := none
  writing := none
  recorded := [(motorState N r m, modeMachine m)]
  used := []
  produced := []
  published := []

omit [IsStrictOrderedRing K] in
theorem exec_message {m : LowState} (h : m.crc = crc32Core m.covered) :
    exec (Pipeline.step (lowStateHandler N r) (control N r)) (Pipeline.init 0 .PR 0) [.message m] =
      received N r m := by
  have haccept : lowStateHandler N r m = some (motorState N r m, modeMachine m) := by
    rw [lowStateHandler, if_neg (not_not.mpr h)]
  simp only [exec_cons, exec_nil, advance, Pipeline.step, Pipeline.init, haccept, Option.getD_some,
    List.nil_append, received]

omit [LinearOrder K] [IsStrictOrderedRing K] in
theorem start_time : (0 : K) = ((0 : ℕ) : K) * controlDt := by rw [Nat.cast_zero, zero_mul]

/- The writer reads the mode, and the control thread runs `k + 1` ticks before the writer takes
the command. -/
def overtaken (m : LowState) (k : ℕ) : List (PipelineAct LowState) :=
  [.message m] ++ ([.readMode, .readMark] ++ (Pipeline.rounds (k + 1) ++ [.getCommand, .write]))

theorem overtaken_written (image : PRorAB → UInt8 → List (MotorCmd K) → List UInt32) {m : LowState}
    (h : m.crc = crc32Core m.covered) (k : ℕ) :
    ∃ c, written N r image (overtaken m k) = [c] ∧ c.modePr = .PR ∧
      c.motorCmd = motorCmds r (r.command (targets N r (k + 1) (motorState N r m))) := by
  have hread : exec (Pipeline.step (lowStateHandler N r) (control N r)) (received N r m)
      [.readMode, .readMark] = {received N r m with writing := some (.mark .PR 0)} := rfl
  refine ⟨lowCommandWriter r image
    ⟨.PR, 0, r.command (targets N r (k + 1) (motorState N r m))⟩, ?_, rfl, rfl⟩
  rw [written, after, Pipeline.after, overtaken, exec_append, exec_message N r h, exec_append, hread,
    exec_append, exec_ticks N r (n := 0) rfl rfl rfl start_time, Nat.zero_add,
    Nat.zero_add]
  rfl

/-- The two reads of the writer are not one: every command, those of the mode AB included, can be
written under the mode PR, also one that turns a joint by the full 30 degrees. -/
theorem swing_torn (image : PRorAB → UInt8 → List (MotorCmd K) → List UInt32)
    (covered : List UInt32) :
    (∀ k, ∃ acts, ∃ c ∈ written N r image acts, c.modePr = .PR ∧
      c.motorCmd = motorCmds r (r.command
        (targets N r (k + 1) (motorState N r ⟨covered, crc32Core covered⟩)))) ∧
    ∃ acts, ∃ c ∈ written N r image acts, c.modePr = .PR ∧ target c 5 = maxP N := by
  have hall : ∀ k, ∃ acts, ∃ c ∈ written N r image acts, c.modePr = .PR ∧
      c.motorCmd = motorCmds r (r.command
        (targets N r (k + 1) (motorState N r ⟨covered, crc32Core covered⟩))) := by
    intro k
    obtain ⟨c, hc, hmode, hmotors⟩ :=
      overtaken_written N r image (m := ⟨covered, crc32Core covered⟩) rfl k
    exact ⟨_, c, by rw [hc]; exact List.mem_singleton_self c, hmode, hmotors⟩
  refine ⟨hall, ?_⟩
  obtain ⟨acts, c, hc, hmode, hmotors⟩ := hall 3249
  refine ⟨acts, c, hc, hmode, ?_⟩
  have hquarter : N.pi * (((3249 + 1 - 3000 : ℕ) : K) / ((500 : ℕ) : K)) = N.pi / 2 := by
    push_cast
    ring
  have hlt := r.ankles_lt
  rw [target, hmotors, motorCmds_q, if_pos ⟨by decide, by omega⟩, targets_AB N r (by decide),
    ankles_getD]
  simp only [swingAB, hquarter, N.sin_half, mul_one]
  rfl

/- The H1 gets a target of the mode AB for its left ankle as if it were a roll angle. -/
theorem swing_torn_h1 : ∃ acts, ∃ c ∈ written (realNumbers fun _ => 0) h1 (fun _ _ _ => []) acts,
    c.modePr = .PR ∧ target c 5 = Real.pi / 6 := by
  obtain ⟨acts, c, hc, hmode, htarget⟩ :=
    (swing_torn (realNumbers fun _ => 0) h1 (fun _ _ _ => []) []).2
  refine ⟨acts, c, hc, hmode, htarget.trans ?_⟩
  simp only [maxP, realNumbers]
  push_cast
  ring

end TypegoSdk.LowLevel
