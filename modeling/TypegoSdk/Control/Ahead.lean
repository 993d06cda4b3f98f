import TypegoSdk.Control.Motion

/-!
# What lies ahead of a motion

`CanPoll` and `CanMove` say, from the local state of a call, whether it may
still look at `cancel_flag` and whether it may still send a velocity other than
zero. They are exact as long as the flag is not set: the world can be such that
it does.
-/

namespace TypegoSdk.Control
open TypegoSdk.Lib
variable {ι K : Type} [Field K] [LinearOrder K]

namespace Motion

/- The guard of the loop is tested again with the `now` of the last round. -/
def CanPoll (m : Motion K) : Prop :=
  match m.pc with
  | .reset | .readStart => 0 < m.request.timeout
  | .guard | .sleep | .sample | .command _ => m.now < m.endTime
  | .poll | .readClock => True
  | .cancelMove | .returning _ | .done => False

def CanMove (m : Motion K) : Prop :=
  match m.pc with
  | .sample | .command _ => True
  | _ => m.CanPoll

variable {trig : Trig K} {m : Motion K} {flag : Bool} {pids : Controllers K} {clock : K}
  {pose : Pose K} {o : Outcome K}

/- The flag changes only at the reset of a motion. -/
theorem next_flag (h : m.next trig flag pids clock pose = some o) :
    o.motion.pc ≠ .reset ∧
      ((m.pc = .reset ∧ o.cancelFlag = false ∧ o.event = some .reset) ∨
        (m.pc ≠ .reset ∧ o.cancelFlag = flag)) := by
  cases hpc : m.pc <;> simp only [next, hpc, Option.some.injEq, reduceCtorEq] at h <;>
    subst h
  case guard =>
    refine ⟨?_, .inr ⟨by simp, rfl⟩⟩
    dsimp only
    split <;> simp
  case poll =>
    refine ⟨?_, .inr ⟨by simp, rfl⟩⟩
    cases flag <;> simp
  case sample =>
    refine ⟨?_, .inr ⟨by simp, rfl⟩⟩
    dsimp only
    split <;> simp
  all_goals simp

variable [IsStrictOrderedRing K]

/- The controllers keep their gains, and a pending velocity is not zero. -/
theorem next_tuned (h : m.next trig flag pids clock pose = some o) (ht : pids.Tuned) :
    o.pids.Tuned ∧ ∀ v, o.motion.pc = .command v → v ≠ .zero := by
  cases hpc : m.pc <;> simp only [next, hpc, Option.some.injEq, reduceCtorEq] at h <;> subst h
  case guard =>
    refine ⟨ht, fun v hv => ?_⟩
    dsimp only at hv
    split at hv <;> cases hv
  case poll =>
    refine ⟨ht, fun v hv => ?_⟩
    cases flag <;> cases hv
  case sample =>
    refine ⟨sample_tuned trig pids pose m.task ht, fun v hv => ?_⟩
    dsimp only at hv
    split at hv
    · cases hv
    · rename_i hw
      cases hv
      exact sample_ne_zero trig pids pose m.task v ht hw
  all_goals exact ⟨ht, by simp⟩

/- A motion with no move ahead stays so, and sends only the zero velocity. -/
theorem next_over (h : m.next trig flag pids clock pose = some o) (hm : ¬m.CanMove) :
    ¬o.motion.CanMove ∧ ∀ v, o.event = some (.move v) → v = .zero := by
  unfold CanMove CanPoll at hm
  cases hpc : m.pc with
  | reset =>
    simp only [hpc] at hm
    simp only [next, hpc, Option.some.injEq] at h
    subst h
    exact ⟨hm, by simp⟩
  | readStart =>
    simp only [hpc] at hm
    simp only [next, hpc, Option.some.injEq] at h
    subst h
    refine ⟨?_, by simp⟩
    show ¬clock < clock + m.request.timeout
    linarith
  | guard =>
    simp only [hpc] at hm
    simp only [next, hpc, Option.some.injEq] at h
    subst h
    refine ⟨?_, by simp⟩
    simp only [if_neg hm]
    exact id
  | poll => simp [hpc] at hm
  | cancelMove =>
    simp only [next, hpc, Option.some.injEq] at h
    subst h
    refine ⟨id, ?_⟩
    intro v hv
    cases hv
    rfl
  | readClock => simp [hpc] at hm
  | sample => simp [hpc] at hm
  | command v => simp [hpc] at hm
  | sleep =>
    simp only [hpc] at hm
    simp only [next, hpc, Option.some.injEq] at h
    subst h
    exact ⟨hm, by simp⟩
  | returning r =>
    simp only [next, hpc, Option.some.injEq] at h
    subst h
    exact ⟨id, by simp⟩
  | done => simp [next, hpc] at h

end Motion

namespace Server
variable [DecidableEq ι] {trig : Trig K} {s : Server ι K} {i : ι} {m : Motion K}

/-- The call `i` stands at `m`, with the flag clear. -/
structure At (i : ι) (m : Motion K) (s : Server ι K) : Prop where
  motion : s.motion i = some m
  flag : s.cancelFlag = false
  tuned : s.pids.Tuned

/- Some schedule leads from `s` to a state with `Q`; the log only grows. -/
def Leads (trig : Trig K) (s : Server ι K) (Q : Server ι K → Prop) : Prop :=
  ∃ rest, Q (exec (step trig) s rest) ∧ s.log <+: (exec (step trig) s rest).log

theorem leads_refl {Q : Server ι K → Prop} (h : Q s) : Leads trig s Q :=
  ⟨[], h, List.prefix_refl _⟩

theorem leads_trans {Q R : Server ι K → Prop} (h : Leads trig s Q)
    (hr : ∀ s', s.log <+: s'.log → Q s' → Leads trig s' R) : Leads trig s R := by
  obtain ⟨rest, hq, hl⟩ := h
  obtain ⟨rest', hr', hl'⟩ := hr _ hl hq
  refine ⟨rest ++ rest', ?_, ?_⟩
  · rw [exec_append]
    exact hr'
  · rw [exec_append]
    exact hl.trans hl'

theorem leads_next {m' : Motion K} {pids : Controllers K} {e : Option (MotionEvent K)}
    (clock : K) (pose : Pose K) (h : At i m s)
    (hn : m.next trig false s.pids clock pose = some ⟨m', false, pids, e⟩) (ht : pids.Tuned) :
    Leads trig s fun s' => At i m' s' ∧ s'.log = s.log ++ (e.map (.motion i)).toList := by
  have hs : s.step trig (.run i clock pose) = some (s.absorb i ⟨m', false, pids, e⟩) := by
    simp only [step, h.motion, h.flag, hn, Option.map_some]
  refine ⟨[.run i clock pose], ?_, ?_⟩
  · rw [exec_cons, advance_some (step trig) hs]
    exact ⟨⟨Function.update_self .., rfl, ht⟩, rfl⟩
  · rw [exec_cons, advance_some (step trig) hs]
    exact List.prefix_append ..

theorem guard_ahead (h : At i m s) (hpc : m.pc = .guard) (ht : m.now < m.endTime) :
    Leads trig s fun s' => ∃ m', At i m' s' ∧ m'.pc = .poll := by
  have hn : m.next trig false s.pids 0 ⟨0, 0, 0⟩ = some ⟨{m with pc := .poll}, false, s.pids,
      none⟩ := by
    simp only [Motion.next, hpc, if_pos ht]
  exact leads_trans (leads_next 0 _ h hn h.tuned) fun s' _ hs' => leads_refl ⟨_, hs'.1, rfl⟩

theorem sleep_ahead (h : At i m s) (hpc : m.pc = .sleep) (ht : m.now < m.endTime) :
    Leads trig s fun s' => ∃ m', At i m' s' ∧ m'.pc = .poll := by
  have hn : m.next trig false s.pids 0 ⟨0, 0, 0⟩ = some ⟨{m with pc := .guard}, false, s.pids,
      none⟩ := by
    simp only [Motion.next, hpc]
  exact leads_trans (leads_next 0 _ h hn h.tuned) fun s' _ hs' => guard_ahead hs'.1 rfl ht

theorem command_ahead {v : Velocity K} (h : At i m s) (hpc : m.pc = .command v)
    (ht : m.now < m.endTime) : Leads trig s fun s' => ∃ m', At i m' s' ∧ m'.pc = .poll := by
  have hn : m.next trig false s.pids 0 ⟨0, 0, 0⟩ = some ⟨{m with pc := .sleep}, false, s.pids,
      some (.move v)⟩ := by
    simp only [Motion.next, hpc]
  exact leads_trans (leads_next 0 _ h hn h.tuned) fun s' _ hs' => sleep_ahead hs'.1 rfl ht

variable [IsStrictOrderedRing K]

/- Somewhere the target is not reached. -/
theorem exists_far (trig : Trig K) (pids : Controllers K) (t : Task K) :
    ∃ pose, (t.sample trig pids pose).2.2.isSome = true := by
  cases t with
  | rotate deltaRad accumulatedAngle prevYaw =>
    have hpi := trig.pi_pos
    by_cases hr : |deltaRad - accumulatedAngle| < controlErrorYaw
    · -- a turn by one radian moves the remaining angle out of the tolerance
      have hw : wrap trig.pi (prevYaw + (2 * trig.pi + 1) - prevYaw) = 1 := by
        rw [add_sub_cancel_left, wrap, if_pos (by linarith), add_sub_cancel_left]
      have hf : ¬|deltaRad - (accumulatedAngle + 1)| < controlErrorYaw := by
        unfold controlErrorYaw at hr ⊢
        rw [abs_lt] at hr ⊢
        intro hn
        linarith [hr.2, hn.1]
      refine ⟨⟨0, 0, prevYaw + (2 * trig.pi + 1)⟩, ?_⟩
      simp only [Task.sample, hw, if_neg hf, Option.isSome_some]
    · have hw : wrap trig.pi (prevYaw - prevYaw) = 0 := by
        rw [sub_self, wrap, if_neg (by linarith), if_neg (by linarith)]
      refine ⟨⟨0, 0, prevYaw⟩, ?_⟩
      simp only [Task.sample, hw, add_zero, if_neg hr, Option.isSome_some]
  | move targetX targetY yawTarget =>
    have hf : ¬(|targetX - (targetX - 1)| < controlError ∧ |targetY - 0| < controlError) := by
      rintro ⟨hx, _⟩
      rw [sub_sub_cancel, abs_one, controlError] at hx
      linarith
    exact ⟨⟨targetX - 1, 0, 0⟩, by simp only [Task.sample, if_neg hf, Option.isSome_some]⟩

theorem sample_ahead (h : At i m s) (hpc : m.pc = .sample) :
    Leads trig s fun s' => ∃ m' v, At i m' s' ∧ m'.pc = .command v ∧ v ≠ .zero ∧
      m'.now = m.now ∧ m'.endTime = m.endTime := by
  obtain ⟨pose, hsome⟩ := exists_far trig s.pids m.task
  obtain ⟨v, hv⟩ := Option.isSome_iff_exists.mp hsome
  have ht := sample_tuned trig s.pids pose m.task h.tuned
  have hz := sample_ne_zero trig s.pids pose m.task v h.tuned hv
  have hn : m.next trig false s.pids 0 pose =
      some ⟨{m with task := (m.task.sample trig s.pids pose).1, pc := .command v}, false,
        (m.task.sample trig s.pids pose).2.1, none⟩ := by
    simp only [Motion.next, hpc, hv]
  refine leads_trans (leads_next 0 pose h hn ht) fun s' _ hs' => ?_
  exact leads_refl ⟨_, v, hs'.1, rfl, hz, rfl, rfl⟩

/- The flag is looked at again. -/
theorem poll_ahead (h : At i m s) (hm : m.CanPoll) :
    Leads trig s fun s' => ∃ m', At i m' s' ∧ m'.pc = .poll := by
  have hstart : ∀ s', ∀ m' : Motion K, At i m' s' → m'.pc = .readStart → 0 < m'.request.timeout →
      Leads trig s' fun s' => ∃ m', At i m' s' ∧ m'.pc = .poll := by
    intro s' m' h' hpc ht
    have hn : m'.next trig false s'.pids 0 ⟨0, 0, 0⟩ = some ⟨{m' with
        task := m'.request.start trig ⟨0, 0, 0⟩
        now := 0
        endTime := 0 + m'.request.timeout
        pc := .guard}, false, s'.pids, none⟩ := by
      simp only [Motion.next, hpc]
    refine leads_trans (leads_next 0 _ h' hn h'.tuned) fun s'' _ hs'' => ?_
    exact guard_ahead hs''.1 rfl (by show (0 : K) < 0 + _; rwa [zero_add])
  have hround : ∀ s', ∀ m' : Motion K, At i m' s' → m'.pc = .sample → m'.now < m'.endTime →
      Leads trig s' fun s' => ∃ m', At i m' s' ∧ m'.pc = .poll := by
    intro s' m' h' hpc ht
    refine leads_trans (sample_ahead h' hpc) fun s'' _ hs'' => ?_
    obtain ⟨m'', v, hat, hv, _, hnow, hend⟩ := hs''
    exact command_ahead hat hv (by rwa [hnow, hend])
  unfold Motion.CanPoll at hm
  cases hpc : m.pc with
  | reset =>
    simp only [hpc] at hm
    have hn : m.next trig false s.pids 0 ⟨0, 0, 0⟩ = some ⟨{m with pc := .readStart}, false, s.pids,
        some .reset⟩ := by
      simp only [Motion.next, hpc]
    exact leads_trans (leads_next 0 _ h hn h.tuned) fun s' _ hs' => hstart s' _ hs'.1 rfl hm
  | readStart =>
    simp only [hpc] at hm
    exact hstart s m h hpc hm
  | guard =>
    simp only [hpc] at hm
    exact guard_ahead h hpc hm
  | poll => exact leads_refl ⟨m, h, hpc⟩
  | cancelMove => simp [hpc] at hm
  | readClock =>
    have hn : m.next trig false s.pids (m.endTime - 1) ⟨0, 0, 0⟩ =
        some ⟨{m with now := m.endTime - 1, pc := .sample}, false, s.pids, none⟩ := by
      simp only [Motion.next, hpc]
    refine leads_trans (leads_next _ _ h hn h.tuned) fun s' _ hs' => ?_
    exact hround s' _ hs'.1 rfl (sub_one_lt m.endTime)
  | sample =>
    simp only [hpc] at hm
    exact hround s m h hpc hm
  | command v =>
    simp only [hpc] at hm
    exact command_ahead h hpc hm
  | sleep =>
    simp only [hpc] at hm
    exact sleep_ahead h hpc hm
  | returning r => simp [hpc] at hm
  | done => simp [hpc] at hm

/- A velocity other than zero is sent. -/
def Sends (i : ι) (base : List (Event ι K)) (s : Server ι K) : Prop :=
  ∃ log v, s.log = log ++ [.motion i (.move v)] ∧ v ≠ .zero ∧ base <+: log

theorem move_ahead (h : At i m s) (hm : m.CanMove) (hv : ∀ v, m.pc = .command v → v ≠ .zero) :
    Leads trig s (Sends i s.log) := by
  have hcommand : ∀ s', ∀ m' : Motion K, s.log <+: s'.log → At i m' s' → ∀ v, m'.pc = .command v →
      v ≠ .zero → Leads trig s' (Sends i s.log) := by
    intro s' m' hl h' v hpc hz
    have hn : m'.next trig false s'.pids 0 ⟨0, 0, 0⟩ = some ⟨{m' with pc := .sleep}, false, s'.pids,
        some (.move v)⟩ := by
      simp only [Motion.next, hpc]
    refine leads_trans (leads_next 0 _ h' hn h'.tuned) fun s'' _ hs'' => ?_
    exact leads_refl ⟨s'.log, v, hs''.2, hz, hl⟩
  have hsample : ∀ s', ∀ m' : Motion K, s.log <+: s'.log → At i m' s' → m'.pc = .sample →
      Leads trig s' (Sends i s.log) := by
    intro s' m' hl h' hpc
    refine leads_trans (sample_ahead h' hpc) fun s'' hl' hs'' => ?_
    obtain ⟨m'', v, hat, hpc', hz, _⟩ := hs''
    exact hcommand s'' m'' (hl.trans hl') hat v hpc' hz
  have hpoll : m.CanPoll → Leads trig s (Sends i s.log) := by
    intro hp
    refine leads_trans (poll_ahead h hp) fun s1 hl1 hs1 => ?_
    obtain ⟨m1, hat1, hpc1⟩ := hs1
    have hn1 : m1.next trig false s1.pids 0 ⟨0, 0, 0⟩ = some ⟨{m1 with pc := .readClock}, false,
        s1.pids, some (.polled false)⟩ := by
      simp only [Motion.next, hpc1, Bool.false_eq_true, if_false]
    refine leads_trans (leads_next 0 _ hat1 hn1 hat1.tuned) fun s2 hl2 hs2 => ?_
    have hn2 : ({m1 with pc := .readClock} : Motion K).next trig false s2.pids 0 ⟨0, 0, 0⟩ =
        some ⟨{m1 with now := 0, pc := .sample}, false, s2.pids, none⟩ := by
      simp only [Motion.next]
    refine leads_trans (leads_next 0 _ hs2.1 hn2 hs2.1.tuned) fun s3 hl3 hs3 => ?_
    exact hsample s3 _ (hl1.trans (hl2.trans hl3)) hs3.1 rfl
  unfold Motion.CanMove at hm
  cases hpc : m.pc with
  | sample => exact hsample s m (List.prefix_refl _) h hpc
  | command v => exact hcommand s m (List.prefix_refl _) h v hpc (hv v hpc)
  | reset | readStart | guard | poll | cancelMove | readClock | sleep | returning r | done =>
    simp only [hpc] at hm
    exact hpoll hm

end Server

end TypegoSdk.Control
