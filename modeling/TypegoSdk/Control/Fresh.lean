import TypegoSdk.Control.Watch
import TypegoSdk.Control.Stop

/-!
# A motion does not depend on earlier requests

The controllers keep their last error, their integral and their filtered
derivative from one call to the next and are never reset, and `pid_yaw` serves
both commands. With the configured gains none of the three reaches the output.
So a call behind any history goes, step by step, with the same call on a new
`Go2RemoteControl`: what it finds in the controllers makes no difference, and
`cancel_flag` is stored before it is loaded.
-/

namespace TypegoSdk.Control
open TypegoSdk.Lib
variable {ι K : Type} [Field K] [LinearOrder K]

/-! ### One step of two calls -/

section Alike
variable [IsStrictOrderedRing K]

omit [IsStrictOrderedRing K] in
theorem output_alike {kp oLimit : K} {p p' : Pid K} (h : p.Proportional kp oLimit)
    (h' : p'.Proportional kp oLimit) (ho : oLimit > 0) (error : K) :
    (p'.update error).2 = (p.update error).2 := by
  rw [h.output ho, h'.output ho]

theorem sample_alike (trig : Trig K) {pids pids' : Controllers K} (ht : pids.Tuned)
    (ht' : pids'.Tuned) (pose : Pose K) (t : Task K) :
    (t.sample trig pids' pose).1 = (t.sample trig pids pose).1 ∧
      (t.sample trig pids' pose).2.2 = (t.sample trig pids pose).2.2 := by
  have hyaw := output_alike ht.yaw ht'.yaw (by positivity)
  have hx := output_alike ht.x ht'.x (by positivity)
  have hy := output_alike ht.y ht'.y (by positivity)
  cases t with
  | rotate deltaRad accumulatedAngle prevYaw =>
    simp only [Task.sample]
    split
    · exact ⟨rfl, rfl⟩
    · exact ⟨rfl, by rw [hyaw]⟩
  | move targetX targetY yawTarget =>
    simp only [Task.sample]
    split
    · exact ⟨rfl, rfl⟩
    · exact ⟨rfl, by rw [hx, hy, hyaw]⟩

/-- Two calls have made the same step. -/
structure Alike (o o' : Outcome K) : Prop where
  motion : o'.motion = o.motion
  flag : o'.cancelFlag = o.cancelFlag
  event : o'.event = o.event
  tuned : o.pids.Tuned
  tuned' : o'.pids.Tuned

variable {m : Motion K} {flag flag' : Bool} {pids pids' : Controllers K}

theorem next_alike (trig : Trig K) (clock : K) (pose : Pose K) (ht : pids.Tuned) (ht' : pids'.Tuned)
    (hflag : flag' = flag ∨ m.pc = .reset) :
    (m.next trig flag pids clock pose = none ∧ m.next trig flag' pids' clock pose = none) ∨
    ∃ o o', m.next trig flag pids clock pose = some o ∧
      m.next trig flag' pids' clock pose = some o' ∧ Alike o o' := by
  cases hpc : m.pc with
  | reset =>
    right
    simp only [Motion.next, hpc]
    exact ⟨_, _, rfl, rfl, rfl, rfl, rfl, ht, ht'⟩
  | sample =>
    right
    obtain rfl : flag' = flag := hflag.resolve_right (by simp [hpc])
    obtain ⟨htask, hv⟩ := sample_alike trig ht ht' pose m.task
    simp only [Motion.next, hpc]
    refine ⟨_, _, rfl, rfl, ?_, rfl, rfl, sample_tuned trig pids pose m.task ht,
      sample_tuned trig pids' pose m.task ht'⟩
    simp only [htask, hv]
  | done =>
    left
    simp only [Motion.next, hpc, and_self]
  | readStart | guard | poll | cancelMove | readClock | command v | sleep | returning r =>
    right
    obtain rfl : flag' = flag := hflag.resolve_right (by simp [hpc])
    simp only [Motion.next, hpc]
    exact ⟨_, _, rfl, rfl, rfl, rfl, rfl, ht, ht'⟩

end Alike

/-! ### Two servers -/

/-- What happens while the call `i` is the only one under way. -/
def Act.Of (i : ι) : Act ι K → Prop
  | .run j _ _ => j = i
  | .cancel => True
  | _ => False

/-- The call `i` stands alike on two servers, the second of which has a history. -/
structure Together (i : ι) (history : List (Event ι K)) (s s' : Server ι K) : Prop where
  motion : s'.motion i = s.motion i
  flag : s'.cancelFlag = s.cancelFlag ∨ ∃ m, s.motion i = some m ∧ m.pc = .reset
  tuned : s.pids.Tuned
  tuned' : s'.pids.Tuned
  log : s'.log = history ++ s.log

section Together
variable [DecidableEq ι] [IsStrictOrderedRing K] {trig : Trig K} {i : ι}
  {history : List (Event ι K)} {s s' : Server ι K}

omit [IsStrictOrderedRing K] in
theorem step_run (trig : Trig K) {m : Motion K} (hm : s.motion i = some m) (clock : K) (pose : Pose K) :
    s.step trig (.run i clock pose) =
      (m.next trig s.cancelFlag s.pids clock pose).map (s.absorb i) := by
  simp only [Server.step, hm]

theorem Together.run (h : Together i history s s') (clock : K) (pose : Pose K) :
    Together i history (advance (Server.step trig) s (.run i clock pose))
      (advance (Server.step trig) s' (.run i clock pose)) := by
  cases hm : s.motion i with
  | none =>
    have hm' : s'.motion i = none := h.motion.trans hm
    have hs : s.step trig (.run i clock pose) = none := by simp only [Server.step, hm]
    have hs' : s'.step trig (.run i clock pose) = none := by simp only [Server.step, hm']
    rw [advance_none _ hs, advance_none _ hs']
    exact h
  | some m =>
    have hs := step_run trig hm clock pose
    have hs' := step_run trig (h.motion.trans hm) clock pose
    have hflag : s'.cancelFlag = s.cancelFlag ∨ m.pc = .reset := by
      rcases h.flag with hflag | ⟨m', hm', hpc⟩
      · exact .inl hflag
      · rw [hm] at hm'
        cases hm'
        exact .inr hpc
    rcases next_alike trig clock pose h.tuned h.tuned' hflag with
      ⟨hn, hn'⟩ | ⟨o, o', ho, ho', halike⟩
    · rw [hn, Option.map_none] at hs
      rw [hn', Option.map_none] at hs'
      rw [advance_none _ hs, advance_none _ hs']
      exact h
    · rw [ho, Option.map_some] at hs
      rw [ho', Option.map_some] at hs'
      rw [advance_some _ hs, advance_some _ hs']
      refine ⟨?_, .inl halike.flag, halike.tuned, halike.tuned', ?_⟩
      · simp only [Server.absorb, Function.update_self, halike.motion]
      · simp only [Server.absorb, h.log, halike.event, List.append_assoc]

theorem Together.act (h : Together i history s s') {a : Act ι K} (ha : a.Of i) :
    Together i history (advance (Server.step trig) s a) (advance (Server.step trig) s' a) := by
  cases a with
  | run j clock pose =>
    obtain rfl : j = i := ha
    exact h.run clock pose
  | cancel =>
    refine ⟨h.motion, .inl rfl, h.tuned, h.tuned', ?_⟩
    show s'.log ++ [.cancel] = history ++ (s.log ++ [.cancel])
    rw [h.log, List.append_assoc]
  | call j request => exact ha.elim
  | stopMove code => exact ha.elim
  | stopReturn => exact ha.elim

theorem Together.exec (trig : Trig K) (h : Together i history s s') {acts : List (Act ι K)}
    (hacts : ∀ a ∈ acts, a.Of i) :
    Together i history (Lib.exec (Server.step trig) s acts) (Lib.exec (Server.step trig) s' acts) := by
  induction acts generalizing s s' with
  | nil => exact h
  | cons a acts ih =>
    rw [exec_cons, exec_cons]
    exact ih (h.act (hacts a (List.mem_cons_self ..))) fun b hb => hacts b (List.mem_cons_of_mem _ hb)

/- The call is entered on both. -/
theorem together_call (trig : Trig K) (before : List (Act ι K)) (request : Request K)
    (hnew : (Server.after trig before).motion i = none) :
    Together i (Server.after trig before).log
      (advance (Server.step trig) (Server.init trig) (.call i request))
      (advance (Server.step trig) (Server.after trig before) (.call i request)) := by
  have ht : (Server.after trig before).pids.Tuned :=
    exec_invariant (Server.step trig) (fun s => s.pids.Tuned) (fun _ _ _ h hs => Server.step_tuned h hs)
      _ (init_tuned trig) before
  have hs' : (Server.after trig before).step trig (.call i request) = some {Server.after trig before with
      motion := Function.update (Server.after trig before).motion i (some (.enter request))
      log := (Server.after trig before).log ++ [.call i]} := by
    simp only [Server.step, hnew]
  have hentered : (advance (Server.step trig) (Server.init trig) (.call i request)).motion i =
      some (.enter request) := Function.update_self ..
  rw [advance_some _ hs']
  refine ⟨?_, .inr ⟨.enter request, hentered, rfl⟩, init_tuned trig, ht, rfl⟩
  rw [hentered]
  exact Function.update_self ..

end Together

/-- Behind any history of requests, finished or not, a further call with the same
arguments, samples, clock readings and cancellations is seen to do what it does
on a new `Go2RemoteControl`: the same commands and the same result. -/
theorem motion_fresh [DecidableEq ι] [IsStrictOrderedRing K] (trig : Trig K)
    (before : List (Act ι K)) (i : ι) (request : Request K)
    (hnew : (Server.after trig before).motion i = none) (acts : List (Act ι K))
    (hacts : ∀ a ∈ acts, a.Of i) :
    (Server.after trig (before ++ .call i request :: acts)).log =
      (Server.after trig before).log ++ (Server.after trig (.call i request :: acts)).log := by
  have h := (together_call trig before request hnew).exec trig hacts
  rw [Server.after, exec_append, exec_cons]
  exact h.log

/- A turn by one radian that is cancelled behind its first command. -/
def cancelledTurn : List (Act ℕ ℚ) :=
  .call 0 (.rotate 1 8) :: List.replicate 8 (.run 0 0 ⟨0, 0, 0⟩) ++
    .cancel :: List.replicate 4 (.run 0 1 ⟨0, 0, 1 / 2⟩)

/- The first round of another. -/
def nextTurn : List (Act ℕ ℚ) := List.replicate 7 (.run 1 2 ⟨0, 0, 1 / 2⟩)

theorem motion_fresh_after_cancel :
    (Server.after Server.rationalTrig (cancelledTurn ++ .call 1 (.rotate (-1) 8) :: nextTurn)).log =
      (Server.after Server.rationalTrig cancelledTurn).log ++
        [.call 1, .motion 1 .reset, .motion 1 (.polled false), .motion 1 (.move ⟨0, 0, -2⟩)] := by
  have hlog : (Server.after Server.rationalTrig (.call 1 (.rotate (-1) 8) :: nextTurn)).log =
      [.call 1, .motion 1 .reset, .motion 1 (.polled false), .motion 1 (.move ⟨0, 0, -2⟩)] := by
    decide +kernel
  have hacts : ∀ a ∈ nextTurn, a.Of 1 := by
    intro a ha
    rw [List.eq_of_mem_replicate ha]
    rfl
  rw [← hlog]
  exact motion_fresh Server.rationalTrig cancelledTurn 1 _ (by decide +kernel) nextTurn hacts

end TypegoSdk.Control
