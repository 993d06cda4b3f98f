import TypegoSdk.Control.Watch
import TypegoSdk.Control.Stop

/-!
# The last velocity of a motion

Only the cancelled exit of `rotate` and `move` sends Move(0, 0, 0). The other
two exits leave the robot with the velocity of the last round.
-/

namespace TypegoSdk.Control
open TypegoSdk.Lib
variable {ι K : Type}

/- The velocities passed to Move. -/
def sent (es : List (MotionEvent K)) : List (Velocity K) :=
  es.filterMap fun
    | .move v => some v
    | _ => none

@[simp] theorem sent_append (es es' : List (MotionEvent K)) :
    sent (es ++ es') = sent es ++ sent es' := List.filterMap_append ..

@[simp] theorem sent_move (v : Velocity K) : sent [.move v] = [v] := rfl

theorem eventsOf_returned [DecidableEq ι] {log before after : List (Event ι K)} {i : ι}
    {r : ExecutionResult} (h : log = before ++ .motion i (.returned r) :: after) :
    eventsOf i log = eventsOf i before ++ .returned r :: eventsOf i after := by
  rw [h, eventsOf_append]
  simp [eventsOf]

variable [Field K]

/- The last velocity, if there is one, is zero. -/
def Stopped (es : List (MotionEvent K)) : Prop := ∀ v, (sent es).getLast? = some v → v = .zero

theorem stopped_of_nil {es : List (MotionEvent K)} (h : sent es = []) : Stopped es := by
  intro v hv
  rw [h] at hv
  cases hv

theorem stopped_zero (es : List (MotionEvent K)) : Stopped (es ++ [.move .zero]) := by
  intro v hv
  rw [sent_append, sent_move, List.getLast?_concat, Option.some.injEq] at hv
  exact hv.symm

theorem not_stopped {es : List (MotionEvent K)} (hs : sent es ≠ [])
    (hv : ∀ v ∈ sent es, v ≠ .zero) : ¬Stopped es := by
  intro h
  have hlast := List.getLast?_eq_some_getLast hs
  exact hv _ (List.getLast_mem hs) (h _ hlast)

/- Every call that has returned had stopped the robot before. -/
def EndsStopped [DecidableEq ι] (log : List (Event ι K)) : Prop :=
  ∀ (before after : List (Event ι K)) (i : ι) (r : ExecutionResult),
    log = before ++ .motion i (.returned r) :: after → Stopped (eventsOf i before)

/-- At the return the robot is stopped, and so it was at a return that is past. -/
structure Winding (m : Motion K) (es : List (MotionEvent K)) : Prop where
  unreturned : m.pc ≠ .done → ∀ r, .returned r ∉ es
  leaving : ∀ r, m.pc = .returning r → Stopped es
  past : ∀ before r after, es = before ++ .returned r :: after → Stopped before

/-- In the loop the velocities are those of the controllers. -/
structure Rolling (m : Motion K) (es : List (MotionEvent K)) : Prop where
  command : ∀ v, m.pc = .command v → v ≠ .zero
  sent : (∀ r, m.pc ≠ .returning r) → m.pc ≠ .done → ∀ v ∈ sent es, v ≠ .zero

variable [LinearOrder K]

/-! ### The exits of the loop -/

/- The target is within the tolerance at this pose. -/
def Task.Reached (trig : Trig K) (pose : Pose K) : Task K → Prop
  | .rotate deltaRad accumulatedAngle prevYaw =>
    |deltaRad - (accumulatedAngle + wrap trig.pi (pose.yaw - prevYaw))| < controlErrorYaw
  | .move targetX targetY _ =>
    |targetX - pose.x| < controlError ∧ |targetY - pose.y| < controlError

instance (trig : Trig K) (pose : Pose K) (t : Task K) : Decidable (t.Reached trig pose) :=
  match t with
  | .rotate .. => inferInstanceAs (Decidable (_ < _))
  | .move .. => inferInstanceAs (Decidable (_ ∧ _))

theorem sample_reached (trig : Trig K) (pids : Controllers K) (pose : Pose K) (t : Task K) :
    (t.sample trig pids pose).2.2 = none ↔ t.Reached trig pose := by
  cases t with
  | rotate deltaRad accumulatedAngle prevYaw =>
    simp only [Task.sample, Task.Reached]
    split <;> simp_all
  | move targetX targetY yawTarget =>
    simp only [Task.sample, Task.Reached]
    split <;> simp_all

/- Neither the loop condition nor the tolerance ends the loop here. -/
def Motion.StaysIn (trig : Trig K) (pose : Pose K) (m : Motion K) : Prop :=
  (m.pc = .guard → m.now < m.endTime) ∧ (m.pc = .sample → ¬m.task.Reached trig pose)

instance (trig : Trig K) (pose : Pose K) (m : Motion K) : Decidable (m.StaysIn trig pose) :=
  inferInstanceAs (Decidable (_ ∧ _))

section Next
variable {trig : Trig K} {m : Motion K} {flag : Bool} {pids : Controllers K} {clock : K}
  {pose : Pose K} {o : Outcome K} {es : List (MotionEvent K)}

/- A step returns, or it goes towards the return by the cancelled exit or
against `StaysIn`, or it stays before the return. -/
theorem next_exit (h : m.next trig flag pids clock pose = some o) :
    (∃ r, m.pc = .returning r ∧ o.motion.pc = .done ∧ o.event = some (.returned r)) ∨
    (m.pc ≠ .done ∧ o.motion.pc ≠ .done ∧ (∀ r, m.pc ≠ .returning r) ∧
      (∀ r, o.event ≠ some (.returned r)) ∧
      ((∀ r, o.motion.pc ≠ .returning r) ∨ o.event = some (.move .zero) ∨
        (o.event = none ∧ ¬m.StaysIn trig pose))) := by
  cases hpc : m.pc with
  | guard =>
    simp only [Motion.next, hpc, Option.some.injEq] at h
    subst h
    by_cases ht : m.now < m.endTime
    · simp [ht]
    · simp [ht, Motion.StaysIn, hpc]
  | poll =>
    simp only [Motion.next, hpc, Option.some.injEq] at h
    subst h
    cases flag <;> simp
  | sample =>
    simp only [Motion.next, hpc, Option.some.injEq] at h
    subst h
    cases hv : (m.task.sample trig pids pose).2.2 with
    | none => simp [Motion.StaysIn, hpc, (sample_reached trig pids pose m.task).1 hv]
    | some v => simp
  | done =>
    simp only [Motion.next, hpc] at h
    cases h
  | reset | readStart | cancelMove | readClock | command | sleep | returning =>
    simp only [Motion.next, hpc, Option.some.injEq] at h
    subst h
    simp

theorem next_winding (h : m.next trig flag pids clock pose = some o) (hw : Winding m es)
    (hok : sent es ≠ [] → m.StaysIn trig pose) : Winding o.motion (es ++ o.event.toList) := by
  rcases next_exit h with ⟨r, hr, hd, he⟩ | ⟨hd, hd', hr, he, hexit⟩
  · rw [he]
    refine ⟨fun h => absurd hd h, fun r' hr' => ?_, fun before r' after heq => ?_⟩
    · rw [hd] at hr'
      cases hr'
    · rcases snoc_split heq with ⟨_, hb, _⟩ | ⟨rest, _, hes⟩
      · exact hb ▸ hw.leaving r hr
      · exact hw.past before r' rest hes
  · have hun : ∀ r, .returned r ∉ es ++ o.event.toList := by
      intro r hmem
      rcases List.mem_append.1 hmem with hmem | hmem
      · exact hw.unreturned hd r hmem
      · exact he r (Option.mem_toList.1 hmem)
    refine ⟨fun _ => hun, fun r' hr' => ?_, fun before r' after heq => ?_⟩
    · rcases hexit with hno | hzero | ⟨hnone, hout⟩
      · exact absurd hr' (hno r')
      · rw [hzero]
        exact stopped_zero es
      · -- Only a call that has sent nothing may leave this way.
        rw [hnone, Option.toList_none, List.append_nil]
        exact stopped_of_nil (not_not.1 fun hs => hout (hok hs))
    · exact absurd (heq ▸ List.mem_append_right _ (List.mem_cons_self ..)) (hun r')

theorem next_rolling [IsStrictOrderedRing K] (h : m.next trig flag pids clock pose = some o)
    (ht : pids.Tuned) (hw : Rolling m es) : Rolling o.motion (es ++ o.event.toList) := by
  refine ⟨(Motion.next_tuned h ht).2, fun hr hd v hv => ?_⟩
  rcases next_exit h with ⟨_, _, hdone, _⟩ | ⟨hd0, _, hr0, _, _⟩
  · exact absurd hdone hd
  · rw [sent_append, List.mem_append] at hv
    rcases hv with hv | hv
    · exact hw.sent hr0 hd0 v hv
    · cases hpc : m.pc <;> simp only [Motion.next, hpc, Option.some.injEq, reduceCtorEq] at h <;>
        subst h
      case cancelMove => exact absurd rfl (hr m.request.cancelled)
      case command =>
        rw [Option.toList_some, sent_move, List.mem_singleton] at hv
        exact hv ▸ hw.command _ hpc
      all_goals cases hv

/- Against `StaysIn` the call returns with its next step. -/
theorem next_leaves (h : m.next trig flag pids clock pose = some o)
    (hout : ¬m.StaysIn trig pose) :
    (∀ r, m.pc ≠ .returning r) ∧ m.pc ≠ .done ∧ (∃ r, o.motion.pc = .returning r) ∧
      o.event = none := by
  cases hpc : m.pc with
  | guard =>
    simp only [Motion.next, hpc, Option.some.injEq] at h
    subst h
    have ht : ¬m.now < m.endTime := by simpa [Motion.StaysIn, hpc] using hout
    simp [ht]
  | sample =>
    simp only [Motion.next, hpc, Option.some.injEq] at h
    subst h
    have hr : m.task.Reached trig pose := by simpa [Motion.StaysIn, hpc] using hout
    simp [(sample_reached trig pids pose m.task).2 hr]
  | reset | readStart | poll | cancelMove | readClock | command | sleep | returning | done =>
    exact absurd ⟨by simp [hpc], by simp [hpc]⟩ hout

end Next

/-! ### All runs -/

namespace Server
variable [DecidableEq ι] {trig : Trig K} {s s' : Server ι K} {i : ι}

/- A call that has sent a velocity does not leave its loop by itself. -/
def KeepsMoving (trig : Trig K) (s : Server ι K) : Act ι K → Prop
  | .run i _ pose => ∀ m ∈ s.motion i, sent (eventsOf i s.log) ≠ [] → m.StaysIn trig pose
  | _ => True

instance (s : Server ι K) (a : Act ι K) : Decidable (s.KeepsMoving trig a) :=
  match a with
  | .run i _ pose =>
    inferInstanceAs (Decidable (∀ m ∈ s.motion i, sent (eventsOf i s.log) ≠ [] → m.StaysIn trig pose))
  | .call .. | .cancel | .stopMove _ | .stopReturn => .isTrue trivial

variable [IsStrictOrderedRing K]

theorem after_winding (acts : List (Act ι K))
    (h : Along (step trig) (KeepsMoving trig) (init trig) acts) (m : Motion K)
    (hm : (after trig acts).motion i = some m) : Winding m (eventsOf i (after trig acts).log) := by
  rw [after_events]
  refine watch_invariant (KeepsMoving trig) (fun m tr => Winding m (events tr)) ?_ ?_ acts h m hm
  · intro request
    exact ⟨by simp [events], by simp [Motion.enter], by simp [events]⟩
  · intro s m o clock pose tr _ hm hlog hok ho hw
    rw [events_append, seen_events]
    exact next_winding ho hw fun hs => hok m hm (hlog ▸ hs)

theorem after_rolling (acts : List (Act ι K)) (m : Motion K)
    (hm : (after trig acts).motion i = some m) : Rolling m (eventsOf i (after trig acts).log) := by
  rw [after_events]
  refine watch_invariant (fun _ _ => True) (fun m tr => Rolling m (events tr)) ?_ ?_ acts
    (along_of_forall _ _ _ acts fun _ _ => trivial) m hm
  · intro request
    exact ⟨by simp [Motion.enter], by simp [events, sent]⟩
  · intro s m o clock pose tr ht _ _ _ ho hw
    rw [events_append, seen_events]
    exact next_rolling ho ht hw

/-- In every run in which no `rotate` or `move` that has sent a velocity ends by
its loop condition or by reaching its target, the last velocity of every call
that has returned is zero. Any step that ends a loop in one of these ways leads
to a return after a velocity other than zero. -/
theorem ends_stopped (trig : Trig K) (acts : List (Act ι K)) :
    (Along (step trig) (KeepsMoving trig) (init trig) acts → EndsStopped (after trig acts).log) ∧
    ∀ a s', (after trig acts).step trig a = some s' → ¬(after trig acts).KeepsMoving trig a →
      ∃ rest, ¬EndsStopped (exec (step trig) s' rest).log := by
  refine ⟨fun h before rest i r hsplit => ?_, fun a s' hs hout => ?_⟩
  · have hev := eventsOf_returned hsplit
    cases hm : (after trig acts).motion i with
    | none =>
      rw [after_uncalled acts hm] at hev
      simp at hev
    | some m => exact (after_winding acts h m hm).past _ _ _ hev
  · cases a with
    | run i clock pose =>
      simp only [KeepsMoving, not_forall] at hout
      obtain ⟨m, hm, hsent, hstay⟩ := hout
      obtain ⟨m0, o, hm0, ho, rfl⟩ := run_inv hs
      obtain rfl : m0 = m := Option.some.inj (hm0.symm.trans hm)
      obtain ⟨hr0, hd0, ⟨r, hr⟩, he⟩ := next_leaves ho hstay
      have hroll := (after_rolling acts m0 hm0).sent hr0 hd0
      refine ⟨[.run i clock pose], fun hends => ?_⟩
      refine not_stopped hsent hroll (hends (after trig acts).log [] i r ?_)
      simp [exec, advance, step, absorb, Motion.next, hr, he]
    | call | cancel | stopMove | stopReturn => exact absurd trivial hout

/- A turn by one radian that is cancelled after its first velocity. -/
def turnCancelled : List (Act Unit ℚ) :=
  .call () (.rotate 1 8) :: List.replicate 8 (.run () 0 ⟨0, 0, 0⟩) ++
    .cancel :: List.replicate 4 (.run () 0 ⟨0, 0, 0⟩)

theorem ends_stopped_cancelled :
    (after rationalTrig turnCancelled).log = [.call (), .motion () .reset,
      .motion () (.polled false), .motion () (.move ⟨0, 0, 2⟩), .cancel,
      .motion () (.polled true), .motion () (.move .zero),
      .motion () (.returned (.error, "Rotate cancelled"))] ∧
    EndsStopped (after rationalTrig turnCancelled).log :=
  ⟨by decide +kernel, (ends_stopped rationalTrig turnCancelled).1 (by decide +kernel)⟩

/- The same turn with the heading reached in the second round. -/
def turnFinished : List (Act Unit ℚ) :=
  .call () (.rotate 1 8) :: List.replicate 8 (.run () 0 ⟨0, 0, 0⟩) ++
    List.replicate 5 (.run () 0 ⟨0, 0, 1⟩)

theorem ends_moving :
    (after rationalTrig turnFinished).log = [.call (), .motion () .reset,
      .motion () (.polled false), .motion () (.move ⟨0, 0, 2⟩), .motion () (.polled false),
      .motion () (.returned (.success, ""))] ∧
    ¬EndsStopped (after rationalTrig turnFinished).log := by
  have hlog : (after rationalTrig turnFinished).log = [.call (), .motion () .reset,
      .motion () (.polled false), .motion () (.move ⟨0, 0, 2⟩), .motion () (.polled false),
      .motion () (.returned (.success, ""))] := by decide +kernel
  refine ⟨hlog, fun h => ?_⟩
  have hz := h [.call (), .motion () .reset, .motion () (.polled false),
    .motion () (.move ⟨0, 0, 2⟩), .motion () (.polled false)] [] () (.success, "") hlog
    ⟨0, 0, 2⟩ (by decide)
  simp [Velocity.zero] at hz

end Server

end TypegoSdk.Control
