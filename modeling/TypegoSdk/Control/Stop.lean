import TypegoSdk.Control.Ahead
import Mathlib.Algebra.Order.Field.Rat
import Mathlib.Tactic.NormNum

/-!
# stop() and a running motion

`stop()` sends StopMove and returns; it does not touch `cancel_flag`, so the
loop of a motion that is under way goes on and sends the next velocity.
-/

namespace TypegoSdk.Control
open TypegoSdk.Lib
variable {ι K : Type}

/-! ### The property -/

/- A StopMove was sent after the call `i` was made. -/
def Issued (log : List (Event ι K)) (i : ι) : Prop :=
  ∃ before after, log = before ++ .stopMove :: after ∧ .call i ∈ before

/- A `stop()` whose StopMove was sent after the call `i` has returned SUCCESS. -/
def Halted (log : List (Event ι K)) (i : ι) : Prop :=
  ∃ before after, log = before ++ .stopped (.success, "") :: after ∧ Issued before i

/- From then on the call `i` sends no velocity other than zero. -/
def StopStops [Field K] (log : List (Event ι K)) : Prop :=
  ∀ before after i v, log = before ++ .motion i (.move v) :: after → Halted before i → v = .zero

theorem issued_call {log : List (Event ι K)} {i : ι} (h : Issued log i) : .call i ∈ log := by
  obtain ⟨before, after, rfl, hc⟩ := h
  exact List.mem_append_left _ hc

theorem halted_call {log : List (Event ι K)} {i : ι} (h : Halted log i) : .call i ∈ log := by
  obtain ⟨before, after, rfl, hi⟩ := h
  exact List.mem_append_left _ (issued_call hi)

theorem Halted.mono {log log' : List (Event ι K)} {i : ι} (h : Halted log i) (hp : log <+: log') :
    Halted log' i := by
  obtain ⟨before, after, rfl, hi⟩ := h
  obtain ⟨more, rfl⟩ := hp
  exact ⟨before, after ++ more, by simp, hi⟩

theorem halted_snoc {log : List (Event ι K)} {e : Event ι K} {i : ι}
    (h : Halted (log ++ [e]) i) :
    Halted log i ∨ (e = .stopped (.success, "") ∧ Issued log i) := by
  obtain ⟨before, after, he, hi⟩ := h
  rcases snoc_split he with ⟨_, rfl, hx⟩ | ⟨rest, _, hlog⟩
  · exact .inr ⟨hx, hi⟩
  · exact .inl ⟨before, rest, hlog, hi⟩

theorem stopStops_snoc [Field K] {log : List (Event ι K)} {e : Event ι K} (h : StopStops log)
    (he : ∀ i v, e = .motion i (.move v) → Halted log i → v = .zero) : StopStops (log ++ [e]) := by
  intro before after i v hlog hh
  rcases snoc_split hlog with ⟨_, rfl, hx⟩ | ⟨rest, _, hr⟩
  · exact he i v hx hh
  · exact h before rest i v hr hh

theorem stopResult_success (code : ℤ) : stopResult code = (.success, "") ↔ code = 0 := by
  unfold stopResult
  by_cases h : code = 0 <;> simp [h]

namespace Server
variable [Field K] [LinearOrder K]

/- A `stop()` returns SUCCESS only when the motions that were under way when it
sent StopMove have no move ahead of them. -/
def StopsLate (s : Server ι K) : Act ι K → Prop
  | .stopReturn => s.stopping = some 0 → ∀ i m, Issued s.log i → s.motion i = some m → ¬m.CanMove
  | _ => True

/-! ### Steps -/

variable [DecidableEq ι] {trig : Trig K} {s s' : Server ι K}

/-- A call is in the log, and a halted one has no move ahead. -/
structure Halting (s : Server ι K) : Prop where
  called : ∀ i, .call i ∈ s.log → (s.motion i).isSome = true
  spent : ∀ i m, Halted s.log i → s.motion i = some m → ¬m.CanMove
  stops : StopStops s.log

omit [DecidableEq ι] in
theorem Halting.other {e : Event ι K} (h : s.Halting) (hm : s'.motion = s.motion)
    (hl : s'.log = s.log ++ [e]) (hcall : ∀ i, e ≠ .call i) (hmove : ∀ i v, e ≠ .motion i (.move v))
    (hstop : e = .stopped (.success, "") → ∀ i m, Issued s.log i → s.motion i = some m →
      ¬m.CanMove) : s'.Halting := by
  refine ⟨?_, ?_, ?_⟩
  · intro i hc
    rw [hl, List.mem_append, List.mem_singleton] at hc
    rw [hm]
    exact h.called i (hc.resolve_right fun he => hcall i he.symm)
  · intro i m hh hi
    rw [hl] at hh
    rw [hm] at hi
    rcases halted_snoc hh with hh | ⟨he, hissued⟩
    · exact h.spent i m hh hi
    · exact hstop he i m hissued hi
  · rw [hl]
    exact stopStops_snoc h.stops fun i v he => absurd he (hmove i v)

theorem call_halting {i : ι} {request : Request K} (h : s.Halting)
    (hs : s.step trig (.call i request) = some s') : s'.Halting := by
  obtain ⟨hnone, rfl⟩ := call_inv hs
  refine ⟨?_, ?_, stopStops_snoc h.stops (by simp)⟩
  · intro j hj
    by_cases hji : j = i
    · subst hji
      simp
    · have hj' : .call j ∈ s.log := by simpa [hji] using hj
      simpa [Function.update_of_ne hji] using h.called j hj'
  · intro j m hh hj
    have hh' : Halted s.log j := (halted_snoc hh).resolve_right (by simp)
    rcases update_inv hj with ⟨rfl, _⟩ | ⟨_, hj⟩
    · -- a call that is new cannot have been halted before
      have hc := h.called j (halted_call hh')
      simp [hnone] at hc
    · exact h.spent j m hh' hj

omit [Field K] [LinearOrder K] in
theorem mem_absorb {i j : ι} {o : Outcome K} :
    .call j ∈ (s.absorb i o).log ↔ .call j ∈ s.log := by
  simp only [absorb, List.mem_append]
  cases o.event <;> simp

variable [IsStrictOrderedRing K]

theorem run_halting {i : ι} {clock : K} {pose : Pose K} (h : s.Halting)
    (hs : s.step trig (.run i clock pose) = some s') : s'.Halting := by
  obtain ⟨m, o, hm, ho, rfl⟩ := run_inv hs
  have hhalted : ∀ j, Halted (s.absorb i o).log j → Halted s.log j := by
    intro j hh
    cases he : o.event with
    | none => simpa [absorb, he] using hh
    | some e =>
      simp only [absorb, he, Option.map_some, Option.toList_some] at hh
      exact (halted_snoc hh).resolve_right (by simp)
  refine ⟨?_, ?_, ?_⟩
  · intro j hj
    have hj' := h.called j (mem_absorb.mp hj)
    by_cases hji : j = i
    · subst hji
      simp [absorb]
    · simpa [absorb, Function.update_of_ne hji] using hj'
  · intro j m' hh hj
    rcases update_inv hj with ⟨rfl, rfl⟩ | ⟨_, hj⟩
    · exact (Motion.next_over ho (h.spent j m (hhalted j hh) hm)).1
    · exact h.spent j m' (hhalted j hh) hj
  · cases he : o.event with
    | none => simpa [absorb, he] using h.stops
    | some e =>
      simp only [absorb, he, Option.map_some, Option.toList_some]
      refine stopStops_snoc h.stops ?_
      intro j v hv hh
      cases hv
      exact (Motion.next_over ho (h.spent i m hh hm)).2 v he

theorem step_halting (a : Act ι K) (h : s.Halting) (hok : s.StopsLate a)
    (hs : s.step trig a = some s') : s'.Halting := by
  cases a with
  | call i request => exact call_halting h hs
  | run i clock pose => exact run_halting h hs
  | cancel =>
    cases hs
    exact h.other rfl rfl (by simp) (by simp) (by simp)
  | stopMove code =>
    obtain rfl := stopMove_inv hs
    exact h.other rfl rfl (by simp) (by simp) (by simp)
  | stopReturn =>
    obtain ⟨code, hcode, rfl⟩ := stopReturn_inv hs
    refine h.other rfl rfl (by simp) (by simp) fun he => hok ?_
    rw [hcode, (stopResult_success code).mp (Event.stopped.inj he)]

/-! ### The condition is needed -/

/-- The velocity of a pending Move is not zero, and nobody has set the flag. -/
structure Busy (s : Server ι K) : Prop where
  flag : s.cancelFlag = false
  tuned : s.pids.Tuned
  command : ∀ i m v, s.motion i = some m → m.pc = .command v → v ≠ .zero

theorem step_busy (a : Act ι K) (h : s.Busy) (ha : a ≠ .cancel) (hs : s.step trig a = some s') :
    s'.Busy := by
  cases a with
  | call i request =>
    obtain ⟨_, rfl⟩ := call_inv hs
    refine ⟨h.flag, h.tuned, ?_⟩
    intro j m v hj hv
    rcases update_inv hj with ⟨_, rfl⟩ | ⟨_, hj⟩
    · cases hv
    · exact h.command j m v hj hv
  | run i clock pose =>
    obtain ⟨m, o, hm, ho, rfl⟩ := run_inv hs
    obtain ⟨ht, hc⟩ := Motion.next_tuned ho h.tuned
    have hf : o.cancelFlag = false := by
      rcases (Motion.next_flag ho).2 with ⟨_, hclear, _⟩ | ⟨_, hkeep⟩
      · exact hclear
      · exact hkeep.trans h.flag
    refine ⟨hf, ht, ?_⟩
    intro j m' v hj hv
    rcases update_inv hj with ⟨_, rfl⟩ | ⟨_, hj⟩
    · exact hc v hv
    · exact h.command j m' v hj hv
  | cancel => exact absurd rfl ha
  | stopMove code =>
    obtain rfl := stopMove_inv hs
    exact ⟨h.flag, h.tuned, h.command⟩
  | stopReturn =>
    obtain ⟨_, _, rfl⟩ := stopReturn_inv hs
    exact ⟨h.flag, h.tuned, h.command⟩

/- A stop that returns SUCCESS to a motion with a move ahead is not heeded. -/
theorem early_unheeded (a : Act ι K) (h : s.Busy) (hok : ¬s.StopsLate a)
    (hs : s.step trig a = some s') : ∃ rest, ¬StopStops (exec (step trig) s' rest).log := by
  cases a with
  | call i request => exact absurd trivial hok
  | run i clock pose => exact absurd trivial hok
  | cancel => exact absurd trivial hok
  | stopMove code => exact absurd trivial hok
  | stopReturn =>
    simp only [StopsLate, not_forall, not_not] at hok
    obtain ⟨hcode, i, m, hissued, hm, hmove⟩ := hok
    simp only [step, hcode, Option.some.injEq] at hs
    subst hs
    have hat : At i m {s with stopping := none, log := s.log ++ [.stopped (stopResult 0)]} :=
      ⟨hm, h.flag, h.tuned⟩
    have hlead : Leads trig _ (Sends i _) := move_ahead hat hmove (h.command i m · hm)
    obtain ⟨rest, ⟨log, v, hlog, hz, hp⟩, _⟩ := hlead
    refine ⟨rest, fun hstops => hz (hstops log [] i v hlog ?_)⟩
    exact Halted.mono ⟨s.log, [], rfl, hissued⟩ hp

/-- In every run in which a `stop()` returns SUCCESS only to motions that have
no move ahead of them, no motion that was under way when it sent StopMove sends
a velocity other than zero afterwards. Any other SUCCESS leaves a state from
which the motion does. -/
theorem stop_stops (trig : Trig K) (acts : List (Act ι K)) :
    (Along (step trig) StopsLate (init trig) acts → StopStops (after trig acts).log) ∧
    ((∀ a ∈ acts, a ≠ .cancel) → ∀ a s', (after trig acts).step trig a = some s' →
      ¬(after trig acts).StopsLate a → ∃ rest, ¬StopStops (exec (step trig) s' rest).log) := by
  refine ⟨fun h => ?_, fun hc a s' hs hok => early_unheeded a ?_ hok hs⟩
  · have hi : (init trig : Server ι K).Halting :=
      ⟨by simp [init], by simp [init], by simp [init, StopStops]⟩
    exact (exec_invariant_along (step trig) StopsLate Halting
      (fun _ a _ h hok hs => step_halting a h hok hs) _ hi acts h).stops
  · exact exec_invariant_along (step trig) (fun _ a => a ≠ .cancel) Busy
      (fun _ a _ h ha hs => step_busy a h ha hs) (init trig)
      ⟨rfl, init_tuned trig, by simp [init]⟩ acts (along_of_forall _ _ _ acts hc)

/- Constants for a run over the rationals: `pi` is the double M_PI, and the
functions are right at yaw 0 (`rotate` does not use them). -/
def rationalTrig : Trig ℚ :=
  ⟨884279719003555 / 281474976710656, fun _ => 1, fun _ => 0, by norm_num, by norm_num⟩

/- A turn that has sent a velocity and is over when `stop()` sends StopMove, and one that is
called behind the `stop()`. -/
def turned : List (Act Bool ℚ) :=
  .call false (.rotate 1 8) :: List.replicate 8 (.run false 0 ⟨0, 0, 0⟩) ++
    List.replicate 5 (.run false 0 ⟨0, 0, 1⟩) ++ [.stopMove 0]

def turnedAgain : List (Act Bool ℚ) :=
  .call true (.rotate 1 8) :: List.replicate 7 (.run true 0 ⟨0, 0, 0⟩)

omit [IsStrictOrderedRing K] in
theorem along_stopsLate {acts : List (Act ι K)} (h : .stopReturn ∉ acts) (s : Server ι K) :
    Along (step trig) StopsLate s acts := by
  refine along_mono (step trig) ?_ s acts
    (along_of_forall (step trig) (· ≠ .stopReturn) s acts fun a ha hstop => h (hstop ▸ ha))
  intro s a ha
  cases a with
  | stopReturn => exact absurd rfl ha
  | call i request | run i clock pose | cancel | stopMove code => trivial

theorem stop_after_turn :
    (after rationalTrig (turned ++ .stopReturn :: turnedAgain)).log = [.call false,
      .motion false .reset, .motion false (.polled false), .motion false (.move ⟨0, 0, 2⟩),
      .motion false (.polled false), .motion false (.returned (.success, "")), .stopMove,
      .stopped (.success, ""), .call true, .motion true .reset, .motion true (.polled false),
      .motion true (.move ⟨0, 0, 2⟩)] ∧
    StopStops (after rationalTrig (turned ++ .stopReturn :: turnedAgain)).log := by
  refine ⟨by decide +kernel, (stop_stops rationalTrig (turned ++ .stopReturn :: turnedAgain)).1 ?_⟩
  rw [along_append]
  refine ⟨along_stopsLate (by simp [turned]) _, ?_, along_stopsLate (by simp [turnedAgain]) _⟩
  intro _ _ i m _ hm
  -- the first turn is done, and the second is not called yet
  have hpc : ∀ j, ((exec (step rationalTrig) (init rationalTrig) turned).motion j).all
      fun m => m.pc = .done := by decide +kernel
  have hdone : m.pc = .done := by simpa [hm] using hpc i
  simp [Motion.CanMove, Motion.CanPoll, hdone]

/- A turn by one radian is under way, `stop()` sends StopMove and returns
SUCCESS, and the turn goes on. -/
def stopUnderWay : List (Act Unit ℚ) :=
  [.call () (.rotate 1 8), .run () 0 ⟨0, 0, 0⟩, .run () 0 ⟨0, 0, 0⟩, .stopMove 0, .stopReturn,
    .run () 0 ⟨0, 0, 0⟩, .run () 0 ⟨0, 0, 0⟩, .run () 0 ⟨0, 0, 0⟩, .run () 0 ⟨0, 0, 0⟩,
    .run () 0 ⟨0, 0, 0⟩]

theorem stop_unheeded :
    (after rationalTrig stopUnderWay).log = [.call (), .motion () .reset, .stopMove,
      .stopped (.success, ""), .motion () (.polled false), .motion () (.move ⟨0, 0, 2⟩)] ∧
    ¬StopStops (after rationalTrig stopUnderWay).log := by
  have hlog : (after rationalTrig stopUnderWay).log = [.call (), .motion () .reset, .stopMove,
      .stopped (.success, ""), .motion () (.polled false), .motion () (.move ⟨0, 0, 2⟩)] := by
    decide +kernel
  refine ⟨hlog, fun h => ?_⟩
  have hz := h [.call (), .motion () .reset, .stopMove, .stopped (.success, ""),
    .motion () (.polled false)] [] () ⟨0, 0, 2⟩ hlog
    ⟨[.call (), .motion () .reset, .stopMove], [.motion () (.polled false)], rfl,
      [.call (), .motion () .reset], [], rfl, by simp⟩
  simp [Velocity.zero] at hz

end Server

end TypegoSdk.Control
