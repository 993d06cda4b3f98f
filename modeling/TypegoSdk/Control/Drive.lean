import TypegoSdk.Control.Turn

/-!
# Where `move` drives and how it holds its heading

`move` takes its target from the first pose it reads, steers towards it in the
world frame and sends the velocity in the frame of the current yaw. For the
heading it feeds the plain difference of two yaw readings to its controller,
without the wrap-around that `rotate` has.
-/

namespace TypegoSdk.Control
open TypegoSdk.Lib
variable {ι K : Type} [Field K] [LinearOrder K]

/-- The target of a move from `initial`: the displacement has the body-frame
coordinates `(dx, dy)` at the initial yaw, or these are its own. -/
structure IsTarget (trig : Trig K) (initial : Pose K) (dx dy : K) (bodyFrame : Bool)
    (targetX targetY : K) : Prop where
  body : bodyFrame = true →
    (targetX - initial.x) * trig.cos initial.yaw + (targetY - initial.y) * trig.sin initial.yaw =
      dx ∧
    -(targetX - initial.x) * trig.sin initial.yaw + (targetY - initial.y) * trig.cos initial.yaw =
      dy
  world : bodyFrame = false → targetX - initial.x = dx ∧ targetY - initial.y = dy

/-- A world-frame velocity that has the sign of what remains and is limited to 1. -/
structure Approaches (remaining v : K) : Prop where
  value : v = clamp (2 * remaining) (-1) 1
  ahead : 0 < remaining ↔ 0 < v
  back : remaining < 0 ↔ v < 0

/-- The velocity sent at `pose`, rotated into the world frame by its yaw. -/
structure Drives (trig : Trig K) (targetX targetY : K) (pose : Pose K) (v : Velocity K) : Prop where
  x : Approaches (targetX - pose.x) (v.vx * trig.cos pose.yaw - v.vy * trig.sin pose.yaw)
  y : Approaches (targetY - pose.y) (v.vx * trig.sin pose.yaw + v.vy * trig.cos pose.yaw)

/-! ### One round -/

section Round
variable [IsStrictOrderedRing K]

theorem clamp_approaches {r : K} : Approaches r (clamp (2 * r) (-1) 1) := by
  obtain ⟨hpos, hneg⟩ := clamp_sign (two_pos (α := K)) one_pos r
  exact ⟨rfl, hpos, hneg⟩

omit [IsStrictOrderedRing K] in
theorem start_target (trig : Trig K) (initial : Pose K) (dx dy : K) (bodyFrame : Bool)
    (timeout : K) : ∃ targetX targetY,
      (Request.move dx dy bodyFrame timeout).start trig initial =
        .move targetX targetY initial.yaw ∧
      IsTarget trig initial dx dy bodyFrame targetX targetY := by
  have hs := trig.sq_add_sq initial.yaw
  cases bodyFrame with
  | false =>
    exact ⟨_, _, rfl, by simp, fun _ => ⟨by ring, by ring⟩⟩
  | true =>
    refine ⟨_, _, rfl, fun _ => ⟨?_, ?_⟩, by simp⟩
    · calc _ = dx * (trig.cos initial.yaw ^ 2 + trig.sin initial.yaw ^ 2) := by ring
        _ = dx := by rw [hs, mul_one]
    · calc _ = dy * (trig.cos initial.yaw ^ 2 + trig.sin initial.yaw ^ 2) := by ring
        _ = dy := by rw [hs, mul_one]

omit [IsStrictOrderedRing K] in
/- The target of a call that has read at most its first pose. -/
theorem first_target (trig : Trig K) (dx dy : K) (bodyFrame : Bool) (timeout : K)
    (read : Option (Pose K)) : ∃ targetX targetY, ∀ first, read = some first →
      (Request.move dx dy bodyFrame timeout).start trig first = .move targetX targetY first.yaw ∧
      IsTarget trig first dx dy bodyFrame targetX targetY := by
  cases read with
  | none => exact ⟨0, 0, by simp⟩
  | some first =>
    obtain ⟨targetX, targetY, h⟩ := start_target trig first dx dy bodyFrame timeout
    refine ⟨targetX, targetY, ?_⟩
    intro first' hfirst
    cases hfirst
    exact h

/- Rotating by the yaw undoes `toBody`. -/
theorem toBody_drives (trig : Trig K) (targetX targetY vyaw : K) (pose : Pose K) :
    Drives trig targetX targetY pose (toBody trig pose.yaw
      (clamp (2 * (targetX - pose.x)) (-1) 1) (clamp (2 * (targetY - pose.y)) (-1) 1) vyaw) := by
  have hs := trig.sq_add_sq pose.yaw
  have hx : ∀ vx vy : K, (vx * trig.cos pose.yaw + vy * trig.sin pose.yaw) * trig.cos pose.yaw -
      (-vx * trig.sin pose.yaw + vy * trig.cos pose.yaw) * trig.sin pose.yaw = vx := by
    intro vx vy
    calc _ = vx * (trig.cos pose.yaw ^ 2 + trig.sin pose.yaw ^ 2) := by ring
      _ = vx := by rw [hs, mul_one]
  have hy : ∀ vx vy : K, (vx * trig.cos pose.yaw + vy * trig.sin pose.yaw) * trig.sin pose.yaw +
      (-vx * trig.sin pose.yaw + vy * trig.cos pose.yaw) * trig.cos pose.yaw = vy := by
    intro vx vy
    calc _ = vy * (trig.cos pose.yaw ^ 2 + trig.sin pose.yaw ^ 2) := by ring
      _ = vy := by rw [hs, mul_one]
  constructor
  · simp only [toBody, hx]
    exact clamp_approaches
  · simp only [toBody, hy]
    exact clamp_approaches

theorem move_sample (trig : Trig K) (pids : Controllers K) (ht : pids.Tuned)
    (targetX targetY yawTarget : K) (pose : Pose K) :
    (Task.move targetX targetY yawTarget).sample trig pids pose =
      if |targetX - pose.x| < controlError ∧ |targetY - pose.y| < controlError then
        (.move targetX targetY yawTarget, pids, none)
      else (.move targetX targetY yawTarget,
        ⟨(pids.yaw.update (yawTarget - pose.yaw)).1, (pids.x.update (targetX - pose.x)).1,
          (pids.y.update (targetY - pose.y)).1⟩,
        some (toBody trig pose.yaw (clamp (2 * (targetX - pose.x)) (-1) 1)
          (clamp (2 * (targetY - pose.y)) (-1) 1)
          (clamp (10 * (yawTarget - pose.yaw)) (-2) 2))) := by
  simp only [Task.sample, ht.x.output (show (0 : K) < 1 from one_pos),
    ht.y.output (show (0 : K) < 1 from one_pos), ht.yaw.output (show (0 : K) < 2 from two_pos)]

end Round

/-! ### Along a call -/

/- The task stays the one that the first pose gives. -/
def driveAccount (trig : Trig K) (request : Request K) : Account K where
  task poses task := ∃ first, poses.head? = some first ∧ task = request.start trig first
  velocity poses v := ∃ first pose targetX targetY yawTarget, poses.head? = some first ∧
    poses.getLast? = some pose ∧ request.start trig first = .move targetX targetY yawTarget ∧
    Drives trig targetX targetY pose v
  success poses := ∃ first pose targetX targetY yawTarget, poses.head? = some first ∧
    poses.getLast? = some pose ∧ request.start trig first = .move targetX targetY yawTarget ∧
    |targetX - pose.x| < controlError ∧ |targetY - pose.y| < controlError

theorem drive_kept [IsStrictOrderedRing K] (trig : Trig K) (dx dy : K) (bodyFrame : Bool)
    (timeout : K) : (driveAccount trig (.move dx dy bodyFrame timeout)).Kept trig
      (.move dx dy bodyFrame timeout) (fun _ => True) where
  earlier _ _ _ := trivial
  start pose _ := ⟨pose, rfl, rfl⟩
  round poses task pids pose ht hne htask _ := by
    obtain ⟨first, hfirst, htask⟩ := htask
    have hhead : (poses ++ [pose]).head? = some first := by
      rw [List.head?_append, hfirst]
      rfl
    have hlast : (poses ++ [pose]).getLast? = some pose := by simp
    obtain ⟨targetX, targetY, hstart, _⟩ := start_target trig first dx dy bodyFrame timeout
    rw [htask, hstart, move_sample trig pids ht]
    by_cases hin : |targetX - pose.x| < controlError ∧ |targetY - pose.y| < controlError
    · rw [if_pos hin]
      constructor
      · exact ⟨first, hhead, hstart.symm⟩
      · constructor
        · simp
        · intro _
          exact ⟨first, pose, targetX, targetY, _, hhead, hlast, hstart, hin⟩
    · rw [if_neg hin]
      constructor
      · exact ⟨first, hhead, hstart.symm⟩
      · constructor
        · intro v hv
          cases hv
          exact ⟨first, pose, targetX, targetY, _, hhead, hlast, hstart, toBody_drives ..⟩
        · simp

omit [Field K] [LinearOrder K] in
/- The first pose of a part of what is seen is the first of the whole. -/
theorem samples_head {tr before rest : List (Seen K)} {e : Seen K} {first : Pose K}
    (h : tr = before ++ e :: rest) (hf : (samples before).head? = some first) :
    (samples tr).head? = some first := by
  rw [h, samples_append, List.head?_append, hf]
  rfl

namespace Server
variable [DecidableEq ι] [IsStrictOrderedRing K]

/-- `move` drives to its target, in every schedule: one target serves the whole
call, the one that the first pose gives; every velocity it sends (the zero of a
cancellation apart), rotated by the yaw it was computed from, leads there in
both axes; and SUCCESS is returned only within the tolerance of it. -/
theorem move_reaches (trig : Trig K) (acts : List (Act ι K)) (i : ι) (m : Motion K) (dx dy : K)
    (bodyFrame : Bool) (timeout : K) (hm : (after trig acts).motion i = some m)
    (hreq : m.request = .move dx dy bodyFrame timeout) : ∃ targetX targetY,
    (∀ first, (samples (watch trig i (init trig) acts)).head? = some first →
      m.task = .move targetX targetY first.yaw ∧
        IsTarget trig first dx dy bodyFrame targetX targetY) ∧
    ∀ before e rest, watch trig i (init trig) acts = before ++ .did e :: rest →
      (∀ v, e = .move v → (v = .zero ∧ before.getLast? = some (.did (.polled true))) ∨
        ∃ pose, (samples before).getLast? = some pose ∧ Drives trig targetX targetY pose v) ∧
      ∀ text, e = .returned (.success, text) → ∃ pose, (samples before).getLast? = some pose ∧
        |targetX - pose.x| < controlError ∧ |targetY - pose.y| < controlError := by
  have hall := account_holds (drive_kept trig dx dy bodyFrame timeout) acts i m hm hreq trivial
  obtain ⟨targetX, targetY, htarget⟩ := first_target trig dx dy bodyFrame timeout
    (samples (watch trig i (init trig) acts)).head?
  refine ⟨targetX, targetY, ?_, ?_⟩
  · intro first hfirst
    have hread : samples (watch trig i (init trig) acts) ≠ [] := by
      intro hnil
      rw [hnil] at hfirst
      cases hfirst
    obtain ⟨_, first', hfirst', htask⟩ := hall.task (fun hpc => hread (hall.unread (.inl hpc)))
      (fun hpc => hread (hall.unread (.inr hpc)))
    rw [hfirst, Option.some.injEq] at hfirst'
    subst hfirst'
    obtain ⟨hstart, his⟩ := htarget first hfirst
    exact ⟨htask.trans hstart, his⟩
  · intro before e rest hsplit
    have he := hall.past before e rest hsplit
    -- the first pose before the event is the first of all, so the targets agree
    have hsame : ∀ first x y yaw, (samples before).head? = some first →
        (Request.move dx dy bodyFrame timeout).start trig first = .move x y yaw →
        x = targetX ∧ y = targetY := by
      intro first x y yaw hfirst hs
      rw [(htarget first (samples_head hsplit hfirst)).1] at hs
      cases hs
      exact ⟨rfl, rfl⟩
    constructor
    · intro v hv
      rcases he.move v hv with hcancel | ⟨first, pose, x, y, yaw, hfirst, hpose, hs, hd⟩
      · exact .inl hcancel
      · obtain ⟨rfl, rfl⟩ := hsame first x y yaw hfirst hs
        exact .inr ⟨pose, hpose, hd⟩
    · intro text hr
      obtain ⟨first, pose, x, y, yaw, hfirst, hpose, hs, hd⟩ := he.success text hr
      obtain ⟨rfl, rfl⟩ := hsame first x y yaw hfirst hs
      exact ⟨pose, hpose, hd⟩

/- As `rationalTrig`, and right to three digits at yaw 0.927. -/
def slantedTrig : Trig ℚ :=
  ⟨rationalTrig.pi, fun a => if a = 0 then 1 else 3 / 5, fun a => if a = 0 then 0 else 4 / 5,
    rationalTrig.pi_pos, by intro a; split <;> norm_num⟩

/- Five metres ahead at yaw 0.927: the target is (3, 4), both world velocities
are limited to 1, and in the body frame that is not straight ahead. -/
def ahead : List (Act Unit ℚ) :=
  [.call () (.move 5 0 true 8), .run () 0 ⟨0, 0, 0⟩, .run () 0 ⟨0, 0, 927 / 1000⟩,
    .run () 0 ⟨0, 0, 0⟩, .run () 0 ⟨0, 0, 0⟩, .run () 0 ⟨0, 0, 0⟩,
    .run () 0 ⟨0, 0, 927 / 1000⟩, .run () 0 ⟨0, 0, 0⟩]

theorem move_reaches_ahead :
    (after slantedTrig ahead).log = [.call (), .motion () .reset, .motion () (.polled false),
      .motion () (.move ⟨7 / 5, -1 / 5, 0⟩)] ∧
    ∃ targetX targetY, IsTarget slantedTrig ⟨0, 0, 927 / 1000⟩ 5 0 true targetX targetY ∧
      Drives slantedTrig targetX targetY ⟨0, 0, 927 / 1000⟩ ⟨7 / 5, -1 / 5, 0⟩ := by
  refine ⟨by decide +kernel, ?_⟩
  have hwatch : watch slantedTrig () (init slantedTrig) ahead =
      [.did .reset, .sampled ⟨0, 0, 927 / 1000⟩, .did (.polled false),
        .sampled ⟨0, 0, 927 / 1000⟩] ++ .did (.move ⟨7 / 5, -1 / 5, 0⟩) :: [] := by
    decide +kernel
  have hreq : ((after slantedTrig ahead).motion ()).map Motion.request =
      some (.move 5 0 true 8) := by decide +kernel
  obtain ⟨m, hm, hreq⟩ := Option.map_eq_some_iff.mp hreq
  obtain ⟨targetX, targetY, htarget, hevents⟩ :=
    move_reaches slantedTrig ahead () m 5 0 true 8 hm hreq
  refine ⟨targetX, targetY, (htarget _ (by rw [hwatch]; rfl)).2, ?_⟩
  rcases (hevents _ _ _ hwatch).1 _ rfl with ⟨_, hcancel⟩ | ⟨pose, hpose, hd⟩
  · cases hcancel
  · cases hpose
    exact hd

/-! ### The heading -/

end Server

/-- `r` is `d` reduced to a half-open turn around 0. -/
structure Reduced (pi d r : K) : Prop where
  above : -pi < r
  below : r ≤ pi
  turns : ∃ n : ℤ, d = r + 2 * pi * n

/-- The heading is held the short way: `error` is the reduced difference of the
readings, `vyaw` turns by it, and the wrap-around of `rotate` measures it from
`initial` to `current` with the other sign. -/
structure ShortWay (pi initial current error vyaw : K) : Prop where
  reduced : Reduced pi (initial - current) error
  steers : ∀ r, Reduced pi (initial - current) r → Steers r vyaw
  measured : error = -wrap pi (current - initial)

section Heading
variable [IsStrictOrderedRing K] {pi d r r' : K}

theorem reduced_unique (hpi : 0 < pi) (h : Reduced pi d r) (h' : Reduced pi d r') : r = r' := by
  obtain ⟨n, hn⟩ := h.turns
  obtain ⟨n', hn'⟩ := h'.turns
  have hlow := h.above
  have hhigh := h.below
  have hlow' := h'.above
  have hhigh' := h'.below
  have hdiff : r - r' = 2 * pi * ((n' - n : ℤ) : K) := by
    push_cast
    linarith
  have hzero : n' - n = 0 := by
    by_contra hne
    rcases lt_or_gt_of_ne hne with hneg | hpos
    · have hle : ((n' - n : ℤ) : K) ≤ -1 := by exact_mod_cast Int.le_sub_one_of_lt hneg
      have hm : pi * ((n' - n : ℤ) : K) ≤ pi * -1 := mul_le_mul_of_nonneg_left hle hpi.le
      linarith
    · have hge : (1 : K) ≤ ((n' - n : ℤ) : K) := by exact_mod_cast hpos
      have hm : pi * 1 ≤ pi * ((n' - n : ℤ) : K) := mul_le_mul_of_nonneg_left hge hpi.le
      linarith
  rw [hzero] at hdiff
  push_cast at hdiff
  linarith

theorem shortWay_iff (hpi : 0 < pi) (initial current : K) :
    ShortWay pi initial current (initial - current) (clamp (10 * (initial - current)) (-2) 2) ↔
      -pi < initial - current ∧ initial - current ≤ pi := by
  constructor
  · intro h
    exact ⟨h.reduced.above, h.reduced.below⟩
  · rintro ⟨habove, hbelow⟩
    have hreduced : Reduced pi (initial - current) (initial - current) :=
      ⟨habove, hbelow, 0, by simp⟩
    constructor
    · exact hreduced
    · intro r hr
      rw [← reduced_unique hpi hreduced hr]
      exact clamp_steers
    · unfold wrap
      rw [if_neg (by linarith), if_neg (by linarith)]
      ring

end Heading

namespace Server
variable [DecidableEq ι] [IsStrictOrderedRing K]

/-- A round of `move` that sends a velocity feeds `pid_yaw` the plain difference
of the first and the current yaw reading, so it holds the heading the short way
exactly when that difference is within half a turn. -/
theorem move_heading (trig : Trig K) (acts : List (Act ι K)) (i : ι) (m m' : Motion K)
    (dx dy : K) (bodyFrame : Bool) (timeout clock : K) (pose : Pose K) (s' : Server ι K)
    (v : Velocity K) (hm : (after trig acts).motion i = some m)
    (hreq : m.request = .move dx dy bodyFrame timeout) (hpc : m.pc = .sample)
    (hs : (after trig acts).step trig (.run i clock pose) = some s')
    (hm' : s'.motion i = some m') (hv : m'.pc = .command v) :
    ∃ first, (samples (watch trig i (init trig) acts)).head? = some first ∧
      (ShortWay trig.pi first.yaw pose.yaw s'.pids.yaw.lastError v.vyaw ↔
        -trig.pi < first.yaw - pose.yaw ∧ first.yaw - pose.yaw ≤ trig.pi) := by
  have hall := account_holds (drive_kept trig dx dy bodyFrame timeout) acts i m hm hreq trivial
  have ht : (after trig acts).pids.Tuned :=
    exec_invariant (step trig) (fun s => s.pids.Tuned) (fun _ _ _ h hs => step_tuned h hs) _
      (init_tuned trig) acts
  obtain ⟨_, first, hfirst, htask⟩ := hall.task (by simp [hpc]) (by simp [hpc])
  obtain ⟨targetX, targetY, hstart, _⟩ := start_target trig first dx dy bodyFrame timeout
  refine ⟨first, hfirst, ?_⟩
  obtain ⟨m0, o, hm0, ho, rfl⟩ := run_inv hs
  rw [hm, Option.some.injEq] at hm0
  subst hm0
  have ho' : o.motion = m' := by simpa [absorb] using hm'
  simp only [Motion.next, hpc, Option.some.injEq, htask, hstart, move_sample trig _ ht] at ho
  subst ho
  rw [← ho'] at hv
  by_cases hin : |targetX - pose.x| < controlError ∧ |targetY - pose.y| < controlError
  · simp only [if_pos hin] at hv
    cases hv
  · simp only [if_neg hin, Pc.command.injEq] at hv
    subst hv
    simp only [absorb, if_neg hin]
    exact shortWay_iff trig.pi_pos first.yaw pose.yaw

/- Up to the sample of the first round, from yaw `initial`. -/
def facing (initial : ℚ) : List (Act Unit ℚ) :=
  [.call () (.move 1 0 false 8), .run () 0 ⟨0, 0, 0⟩, .run () 0 ⟨0, 0, initial⟩,
    .run () 0 ⟨0, 0, 0⟩, .run () 0 ⟨0, 0, 0⟩, .run () 0 ⟨0, 0, 0⟩]

theorem move_heading_near : ∃ s' m', (after rationalTrig (facing 0)).step rationalTrig
      (.run () 0 ⟨0, 0, 1 / 10⟩) = some s' ∧ s'.motion () = some m' ∧
      m'.pc = .command ⟨1, 0, -1⟩ ∧
      ShortWay rationalTrig.pi 0 (1 / 10) s'.pids.yaw.lastError (-1) := by
  have hcommand : (((after rationalTrig (facing 0)).step rationalTrig
      (.run () 0 ⟨0, 0, 1 / 10⟩)).bind fun s' => s'.motion ()).map Motion.pc =
      some (.command ⟨1, 0, -1⟩) := by decide +kernel
  obtain ⟨m', hm', hv⟩ := Option.map_eq_some_iff.mp hcommand
  obtain ⟨s', hs, hm'⟩ := Option.bind_eq_some_iff.mp hm'
  have hbefore : ((after rationalTrig (facing 0)).motion ()).map (fun m => (m.request, m.pc)) =
      some (.move 1 0 false 8, .sample) := by decide +kernel
  obtain ⟨m, hm, hat⟩ := Option.map_eq_some_iff.mp hbefore
  obtain ⟨hreq, hpc⟩ := Prod.mk.inj hat
  have hsamples : samples (watch rationalTrig () (init rationalTrig) (facing 0)) = [⟨0, 0, 0⟩] := by
    decide +kernel
  obtain ⟨first, hfirst, hiff⟩ := move_heading rationalTrig (facing 0) () m m' 1 0 false 8 0
    ⟨0, 0, 1 / 10⟩ s' ⟨1, 0, -1⟩ hm hreq hpc hs hm' hv
  rw [hsamples] at hfirst
  cases hfirst
  have hpi : rationalTrig.pi = 884279719003555 / 281474976710656 := rfl
  exact ⟨s', m', hs, hm', hv, hiff.mpr (by norm_num [hpi])⟩

/- Across the half turn, from yaw 3 to yaw -3: the short way is 0.28 to the
right, the error is 6 and the robot turns left. -/
theorem move_heading_across_pi : ∃ s' m', (after rationalTrig (facing 3)).step rationalTrig
      (.run () 0 ⟨0, 0, -3⟩) = some s' ∧ s'.motion () = some m' ∧ m'.pc = .command ⟨1, 0, 2⟩ ∧
      s'.pids.yaw.lastError = 6 ∧ Reduced rationalTrig.pi (3 - -3) (6 - 2 * rationalTrig.pi) ∧
      6 - 2 * rationalTrig.pi < 0 ∧
      ¬ShortWay rationalTrig.pi 3 (-3) s'.pids.yaw.lastError 2 := by
  have hcommand : (((after rationalTrig (facing 3)).step rationalTrig
      (.run () 0 ⟨0, 0, -3⟩)).bind fun s' => s'.motion ()).map Motion.pc =
      some (.command ⟨1, 0, 2⟩) := by decide +kernel
  have herror : ((after rationalTrig (facing 3)).step rationalTrig
      (.run () 0 ⟨0, 0, -3⟩)).map (fun s' => s'.pids.yaw.lastError) = some 6 := by decide +kernel
  obtain ⟨m', hm', hv⟩ := Option.map_eq_some_iff.mp hcommand
  obtain ⟨s', hs, hm'⟩ := Option.bind_eq_some_iff.mp hm'
  rw [hs, Option.map_some, Option.some.injEq] at herror
  have hpi : rationalTrig.pi = 884279719003555 / 281474976710656 := rfl
  refine ⟨s', m', hs, hm', hv, herror, ⟨?_, ?_, 1, ?_⟩, ?_, ?_⟩
  · norm_num [hpi]
  · norm_num [hpi]
  · push_cast
    ring
  · norm_num [hpi]
  · intro h
    have hbelow := h.reduced.below
    rw [herror, hpi] at hbelow
    norm_num at hbelow

end Server

end TypegoSdk.Control
