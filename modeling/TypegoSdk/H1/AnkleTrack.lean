import TypegoSdk.Dds.Crc32
import TypegoSdk.Lib.Exec
import Mathlib.Algebra.Order.Field.Rat
import Mathlib.Tactic.Linarith

/-!
# The ankle example (example/h1/low_level/h1_2_ankle_track.cpp)

`LowStateHandler` stores a message in `low_state_` and checks it there: a
message that fails the check is reported and stays. `Control` reads the mode
of the machine from `low_state_` in every command, and the joint positions
while it leads the robot to its zero posture.
-/

namespace TypegoSdk.H1
open TypegoSdk.Dds TypegoSdk.Lib

/-- `double` and `float`, whatever their rounding. -/
structure Arith (D F : Type) where
  add : D → D → D
  sub : D → D → D
  mul : D → D → D
  div : D → D → D
  neg : D → D
  lt : D → D → Bool
  cos : D → D
  sin : D → D
  pi : D
  /- The literal `m * 10 ^ (-e)`. -/
  dec : ℕ → ℕ → D
  whole : ℕ → F
  widen : F → D
  narrow : D → F
  ofBits : UInt32 → F

inductive PRorAB where
  | PR
  | AB
  deriving DecidableEq

/- One `MotorCmd_` and the `LowCmd_` that is written. -/
structure MotorCmd (F : Type) where
  mode : UInt8
  q : F
  dq : F
  tau : F
  kp : F
  kd : F

structure LowCmd (F : Type) where
  modePr : PRorAB
  modeMachine : UInt8
  motorCmd : List (MotorCmd F)
  crc : UInt32

structure H1Example (D : Type) where
  time : D
  mode : PRorAB
  lowState : LowState

def h1NumMotor : ℕ := 27

/- The fields of a `LowState_` by their words: `mode_machine` is byte 9, and `q` of
motor `i` is the word behind `mode` in the `i`-th `MotorState_` of 14 words. -/
def modeMachine (m : LowState) : UInt8 := (m.covered.getD 2 0 >>> 8).toUInt8

variable {D F : Type} (N : Arith D F)

def motorQ (m : LowState) (i : ℕ) : F := N.ofBits (m.covered.getD (19 + 14 * i) 0)

def controlDt : D := N.dec 2 3
def duration : D := N.dec 30 1

/- `std::clamp`. -/
def clamp (v lo hi : D) : D := if N.lt v lo then lo else if N.lt hi v then hi else v

/- The position in front of the zero posture. -/
def scaled (time : D) (q : F) : F :=
  let ratio := clamp N (N.div time (duration N)) (N.dec 0 1) (N.dec 10 1)
  N.narrow (N.mul (N.sub (N.dec 1 0) ratio) (N.widen q))

def idle : MotorCmd F := ⟨0, N.whole 0, N.whole 0, N.whole 0, N.whole 0, N.whole 0⟩

def enabled (i : ℕ) : MotorCmd F where
  mode := 1
  q := N.narrow (N.dec 0 1)
  dq := N.narrow (N.dec 0 1)
  tau := N.narrow (N.dec 0 1)
  kp := N.narrow (if i < 13 then N.dec 1000 1 else N.dec 500 1)
  kd := N.narrow (N.dec 10 1)

def zeroPosture (time : D) (m : LowState) : List (MotorCmd F) :=
  (List.range 35).map fun i =>
    if i < h1NumMotor then {enabled N i with q := scaled N time (motorQ N m i)} else idle N

def ankle (des : D) (c : MotorCmd F) : MotorCmd F :=
  {c with q := N.narrow des, dq := N.whole 0, kp := N.whole 80, kd := N.whole 1, tau := N.whole 0}

def swing (time : D) : List (MotorCmd F) :=
  let t := N.sub time (duration N)
  let angle := N.mul (N.mul (N.dec 20 1) N.pi) t
  let pitch := N.mul (N.dec 25 2) (N.cos angle)
  let roll := N.mul (N.dec 25 2) (N.sin angle)
  let rightRoll := N.mul (N.neg (N.dec 25 2)) (N.sin angle)
  let all := (List.range 35).map fun i => if i < h1NumMotor then enabled N i else idle N
  (((all.modify 4 (ankle N pitch)).modify 5 (ankle N roll)).modify 10 (ankle N pitch)).modify 11
    (ankle N rightRoll)

/- The message is there before it is checked; what is printed comes second. -/
def lowStateHandler (h : H1Example D) (m : LowState) : H1Example D × Option String :=
  let h := {h with lowState := m}
  if h.lowState.crc ≠ crc32Core h.lowState.covered then (h, some "low_state CRC Error")
  else (h, none)

/- `image` is the command in memory, up to its last word. -/
def control (image : PRorAB → UInt8 → List (MotorCmd F) → List UInt32) (h : H1Example D) :
    H1Example D × LowCmd F :=
  let time := N.add h.time (controlDt N)
  let first := N.lt time (duration N)
  let motors := if first then zeroPosture N time h.lowState else swing N time
  let machine := modeMachine h.lowState
  (⟨time, if first then h.mode else .PR, h.lowState⟩,
    ⟨h.mode, machine, motors, crc32Core (image h.mode machine motors)⟩)

inductive Event where
  | lowState (m : LowState)
  | control

variable (image : PRorAB → UInt8 → List (MotorCmd F) → List UInt32)

/- The commands that are written. -/
def commands : H1Example D → List Event → List (LowCmd F)
  | _, [] => []
  | h, .lowState m :: es => commands (lowStateHandler h m).1 es
  | h, .control :: es => (control N image h).2 :: commands (control N image h).1 es

def start (initial : LowState) : H1Example D := ⟨N.dec 0 1, .PR, initial⟩

/-! ### What a command depends on -/

def accepted : Event → Bool
  | .lowState m => m.crc = crc32Core m.covered
  | .control => true

def latest (m : LowState) (es : List Event) : LowState :=
  es.foldl (fun m e => match e with | .lowState m' => m' | .control => m) m

def ticks (es : List Event) : ℕ := es.countP fun e => match e with | .control => true | _ => false

def clock : ℕ → D
  | 0 => N.dec 0 1
  | k + 1 => N.add (clock k) (controlDt N)

/-- The two messages give the same command at a tick that sets the clock to `time`. -/
def Alike (time : D) (m m' : LowState) : Prop :=
  modeMachine m = modeMachine m' ∧
    (N.lt time (duration N) = true → ∀ i < h1NumMotor, motorQ N m i = motorQ N m' i)

/-- At every tick the last message is like the last one that was accepted. -/
def Harmless (k : ℕ) (last good : LowState) (es : List Event) : Prop :=
  ∀ pre post, es = pre ++ .control :: post →
    Alike N (clock N (k + ticks pre + 1)) (latest last pre) (latest good (pre.filter accepted))

/- Where the scaling loses nothing. -/
def Exact : Prop := ∀ t, N.lt t (duration N) = true → Function.Injective (scaled N t)

theorem lowStateHandler_stores (h : H1Example D) (m : LowState) :
    (lowStateHandler h m).1 = {h with lowState := m} := by
  unfold lowStateHandler
  dsimp only
  split <;> rfl

variable {N}

theorem zeroPosture_congr {time : D} {m m' : LowState}
    (h : ∀ i < h1NumMotor, motorQ N m i = motorQ N m' i) :
    zeroPosture N time m = zeroPosture N time m' := by
  apply List.map_congr_left
  intro i _
  split
  · rename_i hi
    rw [h i hi]
  · rfl

theorem zeroPosture_injective {time : D} (hinj : Function.Injective (scaled N time))
    {m m' : LowState} (h : zeroPosture N time m = zeroPosture N time m') :
    ∀ i < h1NumMotor, motorQ N m i = motorQ N m' i := by
  intro i hi
  have hmem : i ∈ List.range 35 := List.mem_range.mpr (Nat.lt_trans hi (by decide))
  have hentry := List.map_inj_left.mp h i hmem
  rw [if_pos hi, if_pos hi] at hentry
  exact hinj (congrArg MotorCmd.q hentry)

theorem control_state (time : D) (m : LowState) :
    (control N image ⟨time, .PR, m⟩).1 = ⟨N.add time (controlDt N), .PR, m⟩ := by
  simp only [control, ite_self]

theorem control_congr {time : D} {m m' : LowState}
    (h : Alike N (N.add time (controlDt N)) m m') :
    (control N image ⟨time, .PR, m⟩).2 = (control N image ⟨time, .PR, m'⟩).2 := by
  simp only [control, h.1]
  cases hfirst : N.lt (N.add time (controlDt N)) (duration N) with
  | false => simp
  | true => simp [zeroPosture_congr (h.2 hfirst)]

theorem alike_of_control (hexact : Exact N) {time : D} {m m' : LowState}
    (h : (control N image ⟨time, .PR, m⟩).2 = (control N image ⟨time, .PR, m'⟩).2) :
    Alike N (N.add time (controlDt N)) m m' := by
  refine ⟨congrArg LowCmd.modeMachine h, fun hfirst => ?_⟩
  have hmotors := congrArg LowCmd.motorCmd h
  simp only [control, hfirst, if_true] at hmotors
  exact zeroPosture_injective (hexact _ hfirst) hmotors

/-! ### Runs -/

@[simp] theorem latest_lowState (m m' : LowState) (es : List Event) :
    latest m (.lowState m' :: es) = latest m' es := rfl

@[simp] theorem latest_control (m : LowState) (es : List Event) :
    latest m (.control :: es) = latest m es := rfl

@[simp] theorem ticks_lowState (m : LowState) (es : List Event) :
    ticks (.lowState m :: es) = ticks es := List.countP_cons_of_neg (by simp)

@[simp] theorem ticks_control (es : List Event) : ticks (.control :: es) = ticks es + 1 :=
  List.countP_cons_of_pos rfl

theorem filter_good {m : LowState} (hm : m.crc = crc32Core m.covered) (es : List Event) :
    (Event.lowState m :: es).filter accepted = .lowState m :: es.filter accepted :=
  List.filter_cons_of_pos (by simp [accepted, hm])

theorem filter_bad {m : LowState} (hm : ¬m.crc = crc32Core m.covered) (es : List Event) :
    (Event.lowState m :: es).filter accepted = es.filter accepted :=
  List.filter_cons_of_neg (by simp [accepted, hm])

theorem filter_control (es : List Event) :
    (Event.control :: es).filter accepted = .control :: es.filter accepted := rfl

/- A relation between the last message and the last accepted one, at every tick. -/
def AtTicks (R : ℕ → LowState → LowState → Prop) (k : ℕ) (last good : LowState)
    (es : List Event) : Prop :=
  ∀ pre post, es = pre ++ .control :: post →
    R (k + ticks pre) (latest last pre) (latest good (pre.filter accepted))

section AtTicks
variable {R R' : ℕ → LowState → LowState → Prop} {k : ℕ} {last good m : LowState}
  {es : List Event}

theorem AtTicks.mono (h : AtTicks R k last good es) (hR : ∀ n m m', R n m m' → R' n m m') :
    AtTicks R' k last good es :=
  fun pre post hsplit => hR _ _ _ (h pre post hsplit)

theorem atTicks_nil : AtTicks R k last good [] := by
  intro pre post hsplit
  simp at hsplit

theorem atTicks_good (hm : m.crc = crc32Core m.covered) :
    AtTicks R k last good (.lowState m :: es) ↔ AtTicks R k m m es := by
  rw [AtTicks, split_cons]
  simp [AtTicks, filter_good hm]

theorem atTicks_bad (hm : ¬m.crc = crc32Core m.covered) :
    AtTicks R k last good (.lowState m :: es) ↔ AtTicks R k m good es := by
  rw [AtTicks, split_cons]
  simp [AtTicks, filter_bad hm]

theorem atTicks_control :
    AtTicks R k last good (.control :: es) ↔ R k last good ∧ AtTicks R (k + 1) last good es := by
  rw [AtTicks, split_cons]
  have hcount : ∀ pre : List Event, k + (ticks pre + 1) = k + 1 + ticks pre := by
    intro pre
    omega
  simp only [ticks_control, latest_control, filter_control, hcount, forall_const]
  rfl

end AtTicks

theorem harmless_iff {k : ℕ} {last good : LowState} {es : List Event} :
    Harmless N k last good es ↔ AtTicks (fun n => Alike N (clock N (n + 1))) k last good es :=
  Iff.rfl

/- The two runs send the same exactly when they do at each tick. -/
theorem commands_eq_iff {k : ℕ} {last good : LowState} {es : List Event} :
    commands N image ⟨clock N k, .PR, last⟩ es =
        commands N image ⟨clock N k, .PR, good⟩ (es.filter accepted) ↔
      AtTicks (fun n m m' => (control N image ⟨clock N n, .PR, m⟩).2 =
        (control N image ⟨clock N n, .PR, m'⟩).2) k last good es := by
  induction es generalizing k last good with
  | nil => exact iff_of_true rfl atTicks_nil
  | cons e es ih =>
    cases e with
    | lowState m =>
      by_cases hm : m.crc = crc32Core m.covered
      · rw [atTicks_good hm, filter_good hm, commands, commands, lowStateHandler_stores,
          lowStateHandler_stores]
        exact ih
      · rw [atTicks_bad hm, filter_bad hm, commands, lowStateHandler_stores]
        exact ih
    | control =>
      rw [atTicks_control, filter_control, commands, commands, control_state, control_state,
        List.cons.injEq]
      exact and_congr_right fun _ => ih (k := k + 1)

variable (N)

/-- Messages that fail the check are without influence as long as the last message
is like the last accepted one at every tick; with exact arithmetic, only then. -/
theorem rejected_without_influence (initial : LowState) (es : List Event) :
    (Harmless N 0 initial initial es →
      commands N image (start N initial) es =
        commands N image (start N initial) (es.filter accepted)) ∧
    (Exact N →
      commands N image (start N initial) es =
        commands N image (start N initial) (es.filter accepted) →
      Harmless N 0 initial initial es) := by
  have hstart : start N initial = ⟨clock N 0, .PR, initial⟩ := rfl
  rw [harmless_iff, hstart, commands_eq_iff]
  refine ⟨fun h => ?_, fun hexact h => ?_⟩
  · exact h.mono fun _ _ _ => control_congr image
  · exact h.mono fun _ _ _ => alike_of_control image hexact

/-! ### Exact numbers -/

def exactArith (cos sin : ℚ → ℚ) (pi : ℚ) (ofBits : UInt32 → ℚ) : Arith ℚ ℚ where
  add := Rat.add
  sub := Rat.sub
  mul := Rat.mul
  div := Rat.div
  neg := Rat.neg
  lt := Rat.blt
  cos := cos
  sin := sin
  pi := pi
  dec m e := mkRat m (10 ^ e)
  whole n := mkRat n 1
  widen := id
  narrow := id
  ofBits := ofBits

theorem exactArith_exact (cos sin : ℚ → ℚ) (pi : ℚ) (ofBits : UInt32 → ℚ) :
    Exact (exactArith cos sin pi ofBits) := by
  intro t ht x y hxy
  have hthree : mkRat 30 (10 ^ 1) = 3 := by decide +kernel
  have hduration : duration (exactArith cos sin pi ofBits) = 3 := hthree
  have hzero : mkRat 0 (10 ^ 1) = 0 := by decide +kernel
  have hone : mkRat 10 (10 ^ 1) = 1 := by decide +kernel
  have hunit : mkRat 1 (10 ^ 0) = 1 := by decide +kernel
  rw [hduration] at ht
  have hlt : t < 3 := ht
  have hdiv : t / 3 < 1 := by linarith
  -- the ratio stays below 1
  have hratio : clamp (exactArith cos sin pi ofBits) (t / 3) 0 1 < 1 := by
    unfold clamp
    split
    · exact zero_lt_one
    · split
      · rename_i habove
        have habove : 1 < t / 3 := habove
        linarith
      · exact hdiv
  have hscaled : ∀ q, scaled (exactArith cos sin pi ofBits) t q =
      (1 - clamp (exactArith cos sin pi ofBits) (t / 3) 0 1) * q := by
    intro q
    have hunfold : scaled (exactArith cos sin pi ofBits) t q = (mkRat 1 (10 ^ 0) -
        clamp (exactArith cos sin pi ofBits) (t / duration (exactArith cos sin pi ofBits))
          (mkRat 0 (10 ^ 1)) (mkRat 10 (10 ^ 1))) * q := rfl
    rw [hunfold, hduration, hzero, hone, hunit]
  rw [hscaled, hscaled] at hxy
  exact mul_left_cancel₀ (by linarith) hxy

/- Exact but for the ankles, which the runs below do not come to. -/
def roughArith : Arith ℚ ℚ := exactArith id id (mkRat 3 1) fun bits => mkRat bits.toNat 1

/- Memory images of a message: all zero, and with machine mode 5. -/
def zeroWords : List UInt32 := [0, 0, 0] ++ List.replicate 519 0
def modeWords : List UInt32 := [0, 0, 0x0500] ++ List.replicate 519 0

def rejectedState : LowState := ⟨modeWords, crc32Core modeWords ^^^ 1⟩
def acceptedState : LowState := ⟨modeWords, crc32Core modeWords⟩

theorem rejectedState_rejected : ¬rejectedState.crc = crc32Core rejectedState.covered := by
  intro h
  have hx : crc32Core modeWords ^^^ (crc32Core modeWords ^^^ 1) =
      crc32Core modeWords ^^^ crc32Core modeWords := congrArg (crc32Core modeWords ^^^ ·) h
  rw [← UInt32.xor_assoc, UInt32.xor_self, UInt32.zero_xor] at hx
  exact absurd hx (by decide)

/- A rejected message that an accepted one follows before the tick. -/
theorem overwritten_without_influence :
    Exact roughArith ∧
    commands roughArith (fun _ _ _ => []) (start roughArith ⟨zeroWords, 0⟩)
        [.lowState rejectedState, .lowState acceptedState, .control] =
      commands roughArith (fun _ _ _ => []) (start roughArith ⟨zeroWords, 0⟩)
        ([Event.lowState rejectedState, .lowState acceptedState, .control].filter accepted) := by
  have haccepted : acceptedState.crc = crc32Core acceptedState.covered := by
    simp only [acceptedState]
  refine ⟨exactArith_exact _ _ _ _, (rejected_without_influence _ _ _ _).1 ?_⟩
  rw [harmless_iff, atTicks_bad rejectedState_rejected, atTicks_good haccepted, atTicks_control]
  exact ⟨⟨rfl, fun _ i _ => rfl⟩, atTicks_nil⟩

/- The mode of a rejected message is sent. -/
theorem rejectedState_sent :
    (commands roughArith (fun _ _ _ => []) (start roughArith ⟨zeroWords, 0⟩)
      [.lowState rejectedState, .control]).map LowCmd.modeMachine = [5] ∧
    (commands roughArith (fun _ _ _ => []) (start roughArith ⟨zeroWords, 0⟩)
      ([Event.lowState rejectedState, .control].filter accepted)).map LowCmd.modeMachine = [0] := by
  have hmode : modeMachine rejectedState = 5 := by decide
  have hzero : modeMachine ⟨zeroWords, 0⟩ = 0 := by decide
  rw [filter_bad rejectedState_rejected, filter_control]
  constructor
  · rw [commands, lowStateHandler_stores]
    exact congrArg (fun mode => [mode]) hmode
  · exact congrArg (fun mode => [mode]) hzero

end TypegoSdk.H1
