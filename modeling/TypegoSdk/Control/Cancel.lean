import TypegoSdk.Control.Stop
import TypegoSdk.Control.Watch

/-!
# cancel() and the motions under way

All motions share one `cancel_flag`: `cancel()` sets it, each motion looks at it
once a round, and each motion clears it when it starts. A motion that starts
between a `cancel()` and the next look of another one takes the cancellation
away from it.
-/

namespace TypegoSdk.Control
open TypegoSdk.Lib
variable {ι K : Type} [DecidableEq ι]

/-! ### The property -/

variable [Field K]

/- A velocity other than zero is sent. -/
def MotionEvent.moves [DecidableEq K] : MotionEvent K → Bool
  | .move v => decide (v ≠ .zero)
  | _ => false

variable [LinearOrder K]

/-- What a motion may do after a `cancel()`: every look at the flag finds it set,
at most one more velocity other than zero is sent, and the look is followed by
the zero velocity and the error. -/
structure Heard (request : Request K) (es : List (MotionEvent K)) : Prop where
  polls : .polled false ∉ es
  moves : es.countP MotionEvent.moves ≤ 1
  ends : ∀ before after, es = before ++ .polled true :: after →
    after <+: [.move .zero, .returned request.cancelled]

namespace Server

/- Every `cancel()` is heard by every motion that had passed its reset. -/
def CancelsHeard (s : Server ι K) : Prop :=
  ∀ before after i m, s.log = before ++ .cancel :: after → .motion i .reset ∈ before →
    s.motion i = some m → Heard m.request (eventsOf i after)

omit [DecidableEq ι] in
/- No motion clears a set flag while another one, past its own reset, still has
a look at the flag ahead of it. -/
def KeepsCancel (s : Server ι K) : Act ι K → Prop
  | .run j _ _ => ∀ m, s.motion j = some m → m.pc = .reset → s.cancelFlag = true →
      ∀ i m', i ≠ j → s.motion i = some m' → m'.pc ≠ .reset → ¬m'.CanPoll
  | _ => True

end Server

/-! ### One motion -/

/- How many velocities other than zero a motion sends before its next look. -/
def Motion.budget (m : Motion K) : ℕ :=
  match m.pc with
  | .readClock | .sample | .command _ => 1
  | _ => 0

/- The motion has found the flag set, or returns. -/
def Pc.Ending : Pc K → Prop
  | .cancelMove | .returning _ | .done => True
  | _ => False

/-- What the log says of the motion `m` with the index `i`. -/
structure Track (flag : Bool) (m : Motion K) (i : ι) (log : List (Event ι K)) : Prop where
  resets : .reset ∈ eventsOf i log → m.pc ≠ .reset
  ends : ∀ before after, eventsOf i log = before ++ .polled true :: after →
    (after = [] ∧ m.pc = .cancelMove) ∨
    (after = [.move .zero] ∧ m.pc = .returning m.request.cancelled) ∨
    (after = [.move .zero, .returned m.request.cancelled] ∧ m.pc = .done)
  cancels : ∀ before after, log = before ++ .cancel :: after → .motion i .reset ∈ before →
    (flag = true ∨ ¬m.CanPoll) ∧ .polled false ∉ eventsOf i after ∧
      (eventsOf i after).countP MotionEvent.moves + m.budget ≤ 1

theorem Track.heard {flag : Bool} {m : Motion K} {i : ι} {log before after : List (Event ι K)}
    (h : Track flag m i log) (hl : log = before ++ .cancel :: after)
    (hr : .motion i .reset ∈ before) : Heard m.request (eventsOf i after) := by
  obtain ⟨_, hp, hm⟩ := h.cancels before after hl hr
  refine ⟨hp, by omega, ?_⟩
  intro b c he
  have hlog : eventsOf i log = (eventsOf i (before ++ [.cancel]) ++ b) ++ .polled true :: c := by
    have hsplit : log = (before ++ [.cancel]) ++ after := by simp [hl]
    rw [hsplit, eventsOf_append, he, List.append_assoc]
  rcases h.ends _ _ hlog with ⟨rfl, _⟩ | ⟨rfl, _⟩ | ⟨rfl, _⟩
  · exact ⟨_, rfl⟩
  · exact ⟨_, rfl⟩
  · exact ⟨[], rfl⟩

section Own
variable {flag flag' : Bool} {m m' : Motion K} {i : ι} {log : List (Event ι K)}

/- A motion that is not at its end has not found the flag set. -/
theorem Track.unpolled (h : Track flag m i log) (hmid : ¬m.pc.Ending) :
    .polled true ∉ eventsOf i log := by
  intro hmem
  obtain ⟨before, after, he⟩ := List.append_of_mem hmem
  apply hmid
  rcases h.ends before after he with ⟨_, hp⟩ | ⟨_, hp⟩ | ⟨_, hp⟩
  · rw [hp]
    trivial
  · rw [hp]
    trivial
  · rw [hp]
    trivial

theorem Track.unended {e : MotionEvent K} (h : Track flag m i log) (hmid : ¬m.pc.Ending)
    (he : e ≠ .polled true) (before after : List (MotionEvent K)) :
    eventsOf i log ++ [e] ≠ before ++ .polled true :: after := by
  intro hs
  have hmem : .polled true ∈ eventsOf i log ++ [e] := by
    rw [hs]
    exact List.mem_append_right _ (List.mem_cons_self ..)
  rcases List.mem_append.mp hmem with hmem | hmem
  · exact h.unpolled hmid hmem
  · exact he (List.mem_singleton.mp hmem).symm

/- A step of the motion that nobody sees. -/
theorem Track.silent (h : Track flag m i log) (hmid : ¬m.pc.Ending) (hpc : m'.pc ≠ .reset)
    (hpoll : ¬m.CanPoll → ¬m'.CanPoll) (hb : m'.budget ≤ m.budget) :
    Track flag m' i (log ++ []) := by
  rw [List.append_nil]
  refine ⟨fun _ => hpc, ?_, ?_⟩
  · intro before after he
    refine absurd ?_ (h.unpolled hmid)
    rw [he]
    exact List.mem_append_right _ (List.mem_cons_self ..)
  · intro before after hl hr
    obtain ⟨hf, hp, hm⟩ := h.cancels before after hl hr
    exact ⟨hf.imp_right hpoll, hp, by omega⟩

/- A step with an event: what it adds must fit in what was allowed before. -/
theorem Track.event {e : MotionEvent K} (h : Track flag m i log) (hpc : m'.pc ≠ .reset)
    (hends : ∀ before after, eventsOf i log ++ [e] = before ++ .polled true :: after →
      (after = [] ∧ m'.pc = .cancelMove) ∨
      (after = [.move .zero] ∧ m'.pc = .returning m'.request.cancelled) ∨
      (after = [.move .zero, .returned m'.request.cancelled] ∧ m'.pc = .done))
    (hnew : m.pc ≠ .reset → flag = true ∨ ¬m.CanPoll →
      (flag' = true ∨ ¬m'.CanPoll) ∧ e ≠ .polled false ∧
        [e].countP MotionEvent.moves + m'.budget ≤ m.budget) :
    Track flag' m' i (log ++ [.motion i e]) := by
  have hself : eventsOf i [(.motion i e : Event ι K)] = [e] := eventsOf_self i (some e)
  refine ⟨fun _ => hpc, ?_, ?_⟩
  · intro before after he
    rw [eventsOf_append, hself] at he
    exact hends before after he
  · intro before after hl hr
    rcases snoc_split hl with ⟨_, _, hx⟩ | ⟨rest, rfl, hlog⟩
    · cases hx
    · obtain ⟨hf, hp, hm⟩ := h.cancels before rest hlog hr
      have hreset : m.pc ≠ .reset := by
        apply h.resets
        rw [mem_eventsOf, hlog]
        exact List.mem_append_left _ hr
      obtain ⟨hf', he, hc⟩ := hnew hreset hf
      refine ⟨hf', ?_, ?_⟩
      · rw [eventsOf_append, hself, List.mem_append, List.mem_singleton]
        exact fun hmem => hmem.elim hp he.symm
      · rw [eventsOf_append, hself, List.countP_append]
        omega

/- The end of a cancelled motion is in sight only from the look on. -/
theorem Track.ends_snoc {e : MotionEvent K} (h : Track flag m i log) (he : e ≠ .polled true)
    {before after : List (MotionEvent K)}
    (hs : eventsOf i log ++ [e] = before ++ .polled true :: after) :
    (after = [e] ∧ m.pc = .cancelMove) ∨
    (after = [.move .zero, e] ∧ m.pc = .returning m.request.cancelled) ∨ m.pc = .done := by
  rcases snoc_split hs with ⟨_, _, hx⟩ | ⟨rest, rfl, hlog⟩
  · exact absurd hx he
  · rcases h.ends before rest hlog with ⟨rfl, hp⟩ | ⟨rfl, hp⟩ | ⟨_, hp⟩
    · exact .inl ⟨rfl, hp⟩
    · exact .inr (.inl ⟨rfl, hp⟩)
    · exact .inr (.inr hp)

variable [IsStrictOrderedRing K]

theorem Track.next {trig : Trig K} {pids : Controllers K} {clock : K} {pose : Pose K}
    {o : Outcome K} (h : Track flag m i log) (hn : m.next trig flag pids clock pose = some o) :
    Track o.cancelFlag o.motion i (log ++ (o.event.map (.motion i)).toList) := by
  cases hpc : m.pc with
  | reset =>
    simp only [Motion.next, hpc, Option.some.injEq] at hn
    subst hn
    refine h.event (by simp) ?_ fun hr => absurd hpc hr
    exact fun before after he => absurd he (h.unended (by simp [hpc, Pc.Ending]) (by simp) before after)
  | readStart =>
    simp only [Motion.next, hpc, Option.some.injEq] at hn
    subst hn
    refine h.silent (by simp [hpc, Pc.Ending]) (by simp) ?_ (Nat.zero_le _)
    simp only [Motion.CanPoll, hpc]
    intro hm
    linarith
  | guard =>
    simp only [Motion.next, hpc, Option.some.injEq] at hn
    subst hn
    by_cases hg : m.now < m.endTime
    · simp only [if_pos hg]
      refine h.silent (by simp [hpc, Pc.Ending]) (by simp) ?_ (Nat.zero_le _)
      simp [Motion.CanPoll, hpc, hg]
    · simp only [if_neg hg]
      exact h.silent (by simp [hpc, Pc.Ending]) (by simp) (fun _ => id)
        (Nat.zero_le _)
  | poll =>
    simp only [Motion.next, hpc, Option.some.injEq] at hn
    subst hn
    -- a motion that a cancel has reached finds the flag set
    have hset : flag = true ∨ ¬m.CanPoll → flag = true := by
      simp [Motion.CanPoll, hpc]
    have hmid : ¬m.pc.Ending := by simp [hpc, Pc.Ending]
    cases flag with
    | true =>
      refine h.event (by simp) ?_ fun _ _ => ⟨.inl rfl, by simp, Nat.zero_le _⟩
      intro before after he
      rcases snoc_split he with ⟨hnil, _, _⟩ | ⟨rest, _, hlog⟩
      · exact .inl ⟨hnil, rfl⟩
      · refine absurd ?_ (h.unpolled hmid)
        rw [hlog]
        exact List.mem_append_right _ (List.mem_cons_self ..)
    | false =>
      refine h.event (by simp) ?_ fun _ hf => absurd (hset hf) (by simp)
      exact fun before after he => absurd he (h.unended hmid (by simp) before after)
  | cancelMove =>
    simp only [Motion.next, hpc, Option.some.injEq] at hn
    subst hn
    refine h.event (by simp) ?_ fun _ _ => ⟨.inr id, by simp, ?_⟩
    · intro before after he
      rcases h.ends_snoc (by simp) he with ⟨hafter, _⟩ | ⟨_, hp⟩ | hp
      · exact .inr (.inl ⟨hafter, rfl⟩)
      · simp [hpc] at hp
      · simp [hpc] at hp
    · simp [MotionEvent.moves, Motion.budget]
  | readClock =>
    simp only [Motion.next, hpc, Option.some.injEq] at hn
    subst hn
    refine h.silent (by simp [hpc, Pc.Ending]) (by simp) ?_ ?_
    · simp [Motion.CanPoll, hpc]
    · simp [Motion.budget, hpc]
  | sample =>
    simp only [Motion.next, hpc, Option.some.injEq] at hn
    subst hn
    cases (m.task.sample trig pids pose).2.2 with
    | none =>
      exact h.silent (by simp [hpc, Pc.Ending]) (by simp) (fun _ => id)
        (Nat.zero_le _)
    | some v =>
      refine h.silent (by simp [hpc, Pc.Ending]) (by simp) ?_ ?_
      · simp [Motion.CanPoll, hpc]
      · simp [Motion.budget, hpc]
  | command v =>
    simp only [Motion.next, hpc, Option.some.injEq] at hn
    subst hn
    refine h.event (by simp) ?_ fun _ hf => ⟨?_, by simp, ?_⟩
    · exact fun before after he =>
        absurd he (h.unended (by simp [hpc, Pc.Ending]) (by simp) before after)
    · simpa [Motion.CanPoll, hpc] using hf
    · have hc : [(.move v : MotionEvent K)].countP MotionEvent.moves ≤ 1 := List.countP_le_length
      simpa [Motion.budget, hpc] using hc
  | sleep =>
    simp only [Motion.next, hpc, Option.some.injEq] at hn
    subst hn
    refine h.silent (by simp [hpc, Pc.Ending]) (by simp) ?_ (Nat.zero_le _)
    simp [Motion.CanPoll, hpc]
  | returning r =>
    simp only [Motion.next, hpc, Option.some.injEq] at hn
    subst hn
    refine h.event (by simp) ?_ fun _ _ => ⟨.inr id, by simp, Nat.zero_le _⟩
    intro before after he
    rcases h.ends_snoc (by simp) he with ⟨_, hp⟩ | ⟨hafter, hp⟩ | hp
    · simp [hpc] at hp
    · rw [hpc, Pc.returning.injEq] at hp
      rw [hp] at hafter
      exact .inr (.inr ⟨hafter, rfl⟩)
    · simp [hpc] at hp
  | done => simp [Motion.next, hpc] at hn

omit [IsStrictOrderedRing K] in
/- What others do to the log and to the flag. -/
theorem Track.other {es : List (Event ι K)} (h : Track flag m i log) (hes : eventsOf i es = [])
    (hcancel : .cancel ∉ es)
    (hflag : m.pc ≠ .reset → flag = true ∨ ¬m.CanPoll → flag' = true ∨ ¬m.CanPoll)
    (hlen : es.length ≤ 1) : Track flag' m i (log ++ es) := by
  have hev : eventsOf i (log ++ es) = eventsOf i log := by
    rw [eventsOf_append, hes, List.append_nil]
  refine ⟨fun hr => h.resets (hev ▸ hr), fun before after he => h.ends before after (hev ▸ he), ?_⟩
  have hold : ∀ before rest, log = before ++ .cancel :: rest → .motion i .reset ∈ before →
      (flag' = true ∨ ¬m.CanPoll) ∧ .polled false ∉ eventsOf i rest ∧
        (eventsOf i rest).countP MotionEvent.moves + m.budget ≤ 1 := by
    intro before rest hlog hr
    obtain ⟨hf, hp, hm⟩ := h.cancels before rest hlog hr
    have hreset : m.pc ≠ .reset := by
      apply h.resets
      rw [mem_eventsOf, hlog]
      exact List.mem_append_left _ hr
    exact ⟨hflag hreset hf, hp, hm⟩
  intro before after hl hr
  cases es with
  | nil => exact hold before after (by simpa using hl) hr
  | cons e es =>
    have hnil : es = [] := by simpa using hlen
    subst hnil
    rcases snoc_split hl with ⟨_, _, hx⟩ | ⟨rest, rfl, hlog⟩
    · exact absurd hx fun hx => hcancel (by simp [hx])
    · rw [eventsOf_append, hes, List.append_nil]
      exact hold before rest hlog hr

omit [IsStrictOrderedRing K] in
theorem Track.cancel (h : Track flag m i log) : Track true m i (log ++ [.cancel]) := by
  have hev : eventsOf i (log ++ [.cancel]) = eventsOf i log := by
    rw [eventsOf_append]
    exact List.append_nil _
  refine ⟨fun hr => h.resets (hev ▸ hr), fun before after he => h.ends before after (hev ▸ he), ?_⟩
  intro before after hl hr
  rcases snoc_split hl with ⟨rfl, _, _⟩ | ⟨rest, rfl, hlog⟩
  · refine ⟨.inl rfl, by simp [eventsOf], ?_⟩
    simp only [eventsOf, List.filterMap_nil, List.countP_nil, Motion.budget]
    split <;> simp
  · obtain ⟨_, hp, hm⟩ := h.cancels before rest hlog hr
    have he : eventsOf i (rest ++ [.cancel]) = eventsOf i rest := by
      rw [eventsOf_append]
      exact List.append_nil _
    rw [he]
    exact ⟨.inl rfl, hp, hm⟩

end Own

/-! ### All motions -/

namespace Server
variable {trig : Trig K} {s s' : Server ι K}

structure Tracked (s : Server ι K) : Prop where
  track : ∀ i m, s.motion i = some m → Track s.cancelFlag m i s.log
  fresh : ∀ i, s.motion i = none → eventsOf i s.log = []

theorem Tracked.heard (h : s.Tracked) : s.CancelsHeard :=
  fun _ _ i m hl hr hm => (h.track i m hm).heard hl hr

/- A step that changes no motion and does not clear the flag. -/
theorem Tracked.other {es : List (Event ι K)} (h : s.Tracked) (hm : s'.motion = s.motion)
    (hf : s'.cancelFlag = s.cancelFlag) (hl : s'.log = s.log ++ es)
    (hes : ∀ i, eventsOf i es = []) (hcancel : .cancel ∉ es) (hlen : es.length ≤ 1) :
    s'.Tracked := by
  refine ⟨?_, ?_⟩
  · intro i m hi
    rw [hm] at hi
    rw [hf, hl]
    exact (h.track i m hi).other (hes i) hcancel (fun _ => id) hlen
  · intro i hi
    rw [hm] at hi
    rw [hl, eventsOf_append, hes, List.append_nil]
    exact h.fresh i hi

theorem call_tracked {i : ι} {request : Request K} (h : s.Tracked)
    (hs : s.step trig (.call i request) = some s') : s'.Tracked := by
  obtain ⟨hnone, rfl⟩ := call_inv hs
  have hev : ∀ j, eventsOf j (s.log ++ [.call i]) = eventsOf j s.log := by
    intro j
    rw [eventsOf_append]
    exact List.append_nil _
  refine ⟨?_, ?_⟩
  · intro j m hj
    rcases update_inv hj with ⟨rfl, rfl⟩ | ⟨_, hj⟩
    · -- a new motion has left nothing in the log
      have hempty : eventsOf j (s.log ++ [.call j]) = [] := (hev j).trans (h.fresh j hnone)
      refine ⟨by simp [hempty], by simp [hempty], ?_⟩
      intro before after hl hr
      have hmem : .reset ∈ eventsOf j (before ++ .cancel :: after) :=
        mem_eventsOf.mpr (List.mem_append_left _ hr)
      rw [← hl, hempty] at hmem
      cases hmem
    · exact (h.track j m hj).other rfl (by simp) (fun _ => id) (by simp)
  · intro j hj
    by_cases hji : j = i
    · subst hji
      simp at hj
    · simp only [Function.update_of_ne hji] at hj
      exact (hev j).trans (h.fresh j hj)

variable [IsStrictOrderedRing K]

theorem run_tracked {i : ι} {clock : K} {pose : Pose K} (h : s.Tracked)
    (hok : s.KeepsCancel (.run i clock pose)) (hs : s.step trig (.run i clock pose) = some s') :
    s'.Tracked := by
  obtain ⟨m, o, hm, ho, rfl⟩ := run_inv hs
  refine ⟨?_, ?_⟩
  · intro j m' hj
    rcases update_inv hj with ⟨rfl, rfl⟩ | ⟨hji, hj⟩
    · exact (h.track j m hm).next ho
    · refine (h.track j m' hj).other (eventsOf_other (Ne.symm hji) _) ?_ ?_ ?_
      · cases o.event <;> simp
      · intro hreset hf
        rcases (Motion.next_flag ho).2 with ⟨hpc, _, _⟩ | ⟨_, hkeep⟩
        · -- the reset of `i`: nobody else may be waiting for the flag
          rcases hf with hf | hf
          · exact .inr (hok m hm hpc hf j m' hji hj hreset)
          · exact .inr hf
        · show o.cancelFlag = true ∨ _
          rw [hkeep]
          exact hf
      · cases o.event <;> simp
  · intro j hj
    by_cases hji : j = i
    · subst hji
      simp [absorb] at hj
    · simp only [absorb, Function.update_of_ne hji] at hj
      simp only [absorb]
      rw [eventsOf_append, eventsOf_other (Ne.symm hji), List.append_nil]
      exact h.fresh j hj

theorem step_tracked (a : Act ι K) (h : s.Tracked) (hok : s.KeepsCancel a)
    (hs : s.step trig a = some s') : s'.Tracked := by
  cases a with
  | call i request => exact call_tracked h hs
  | run i clock pose => exact run_tracked h hok hs
  | cancel =>
    cases hs
    refine ⟨fun i m hi => (h.track i m hi).cancel, ?_⟩
    intro i hi
    rw [eventsOf_append, h.fresh i hi]
    rfl
  | stopMove code =>
    obtain rfl := stopMove_inv hs
    exact h.other rfl rfl rfl (fun _ => rfl) (by simp) (by simp)
  | stopReturn =>
    obtain ⟨_, _, rfl⟩ := stopReturn_inv hs
    exact h.other rfl rfl rfl (fun _ => rfl) (by simp) (by simp)

/-! ### The condition is needed -/

/-- A set flag was set after the reset of every motion that has passed it. -/
structure Marked (s : Server ι K) : Prop where
  tuned : s.pids.Tuned
  resets : ∀ i m, s.motion i = some m → m.pc ≠ .reset → .motion i .reset ∈ s.log
  cancelled : s.cancelFlag = true → ∃ before after, s.log = before ++ .cancel :: after ∧
    ∀ i m, s.motion i = some m → m.pc ≠ .reset → .motion i .reset ∈ before

omit [DecidableEq ι] [LinearOrder K] [IsStrictOrderedRing K] in
theorem Marked.grow {es : List (Event ι K)} (h : s.Marked) (ht : s'.pids.Tuned)
    (hl : s'.log = s.log ++ es) (hf : s'.cancelFlag = true → s.cancelFlag = true)
    (hm : ∀ i m, s'.motion i = some m → m.pc ≠ .reset →
      (∃ m', s.motion i = some m' ∧ m'.pc ≠ .reset) ∨
        (s'.cancelFlag = false ∧ .motion i .reset ∈ es)) : s'.Marked := by
  refine ⟨ht, ?_, ?_⟩
  · intro i m hi hpc
    rw [hl, List.mem_append]
    rcases hm i m hi hpc with ⟨m', hi', hpc'⟩ | ⟨_, he⟩
    · exact .inl (h.resets i m' hi' hpc')
    · exact .inr he
  · intro hflag
    obtain ⟨before, after, hlog, hb⟩ := h.cancelled (hf hflag)
    refine ⟨before, after ++ es, by rw [hl, hlog]; simp, ?_⟩
    intro i m hi hpc
    rcases hm i m hi hpc with ⟨m', hi', hpc'⟩ | ⟨hno, _⟩
    · exact hb i m' hi' hpc'
    · simp [hflag] at hno

theorem step_marked (a : Act ι K) (h : s.Marked) (hs : s.step trig a = some s') : s'.Marked := by
  cases a with
  | call i request =>
    obtain ⟨_, rfl⟩ := call_inv hs
    refine h.grow h.tuned rfl id ?_
    intro j m hj hpc
    rcases update_inv hj with ⟨_, rfl⟩ | ⟨_, hj⟩
    · exact absurd rfl hpc
    · exact .inl ⟨m, hj, hpc⟩
  | run i clock pose =>
    obtain ⟨m, o, hm, ho, rfl⟩ := run_inv hs
    have hflag := (Motion.next_flag ho).2
    refine h.grow (Motion.next_tuned ho h.tuned).1 rfl ?_ ?_
    · intro hf
      rcases hflag with ⟨_, hclear, _⟩ | ⟨_, hkeep⟩
      · have hf' : o.cancelFlag = true := hf
        simp [hclear] at hf'
      · exact hkeep.symm.trans hf
    · intro j m' hj hpc
      rcases update_inv hj with ⟨rfl, _⟩ | ⟨_, hj⟩
      · rcases hflag with ⟨_, hclear, he⟩ | ⟨hpc', _⟩
        · exact .inr ⟨hclear, by simp [he]⟩
        · exact .inl ⟨m, hm, hpc'⟩
      · exact .inl ⟨m', hj, hpc⟩
  | cancel =>
    cases hs
    refine ⟨h.tuned, ?_, fun _ => ⟨s.log, [], rfl, h.resets⟩⟩
    intro i m hi hpc
    exact List.mem_append_left _ (h.resets i m hi hpc)
  | stopMove code =>
    obtain rfl := stopMove_inv hs
    exact h.grow h.tuned rfl id fun i m hi hpc => .inl ⟨m, hi, hpc⟩
  | stopReturn =>
    obtain ⟨_, _, rfl⟩ := stopReturn_inv hs
    exact h.grow h.tuned rfl id fun i m hi hpc => .inl ⟨m, hi, hpc⟩

/- The reset of one motion takes a cancellation away from another. -/
theorem reset_unheard (a : Act ι K) (h : s.Marked) (hok : ¬s.KeepsCancel a)
    (hs : s.step trig a = some s') : ∃ rest, ¬(exec (step trig) s' rest).CancelsHeard := by
  cases a with
  | call i request => exact absurd trivial hok
  | cancel => exact absurd trivial hok
  | stopMove code => exact absurd trivial hok
  | stopReturn => exact absurd trivial hok
  | run j clock pose =>
    simp only [KeepsCancel, not_forall, not_not] at hok
    obtain ⟨m, hm, hpc, hflag, i, mi, hij, hmi, hpast, hpoll⟩ := hok
    obtain ⟨before, after, hlog, hb⟩ := h.cancelled hflag
    obtain ⟨m0, o, hm0, ho, rfl⟩ := run_inv hs
    rw [hm] at hm0
    cases hm0
    have hclear : o.cancelFlag = false := by
      rcases (Motion.next_flag ho).2 with ⟨_, hc, _⟩ | ⟨hne, _⟩
      · exact hc
      · exact absurd hpc hne
    have hat : At i mi (s.absorb j o) :=
      ⟨by simp [absorb, Function.update_of_ne hij, hmi], hclear, (Motion.next_tuned ho h.tuned).1⟩
    -- the other motion comes to its look and finds the flag cleared
    have hlead : Leads trig (s.absorb j o) fun t => (∃ m', t.motion i = some m') ∧
        ∃ log, t.log = log ++ [.motion i (.polled false)] ∧ (s.absorb j o).log <+: log := by
      refine leads_trans (poll_ahead hat hpoll) fun s1 hl1 hs1 => ?_
      obtain ⟨m1, hat1, hpc1⟩ := hs1
      have hn : m1.next trig false s1.pids 0 ⟨0, 0, 0⟩ = some ⟨{m1 with pc := .readClock}, false,
          s1.pids, some (.polled false)⟩ := by
        simp only [Motion.next, hpc1, Bool.false_eq_true, if_false]
      refine leads_trans (leads_next 0 _ hat1 hn hat1.tuned) fun s2 _ hs2 => ?_
      exact leads_refl ⟨⟨_, hs2.1.motion⟩, s1.log, hs2.2, hl1⟩
    obtain ⟨rest, ⟨⟨m', hm'⟩, log, hend, more, hmore⟩, _⟩ := hlead
    refine ⟨rest, fun hheard => ?_⟩
    have hsplit : (exec (step trig) (s.absorb j o) rest).log = before ++ .cancel ::
        (after ++ (o.event.map (.motion j)).toList ++ more ++ [.motion i (.polled false)]) := by
      rw [hend, ← hmore]
      simp [absorb, hlog]
    refine (hheard before _ i m' hsplit (hb i mi hmi hpast) hm').polls ?_
    rw [mem_eventsOf]
    exact List.mem_append_right _ (List.mem_singleton.mpr rfl)

/-- In every run in which no motion clears a set flag while another one still
has a look at it ahead, every `cancel()` is heard by every motion that had
passed its reset. Any other reset of a set flag leaves a state from which the
other motion misses it. -/
theorem cancel_heard (trig : Trig K) (acts : List (Act ι K)) :
    (Along (step trig) KeepsCancel (init trig) acts → (after trig acts).CancelsHeard) ∧
    ∀ a s', (after trig acts).step trig a = some s' → ¬(after trig acts).KeepsCancel a →
      ∃ rest, ¬(exec (step trig) s' rest).CancelsHeard := by
  refine ⟨fun h => ?_, fun a s' hs hok => reset_unheard a ?_ hok hs⟩
  · have hi : (init trig : Server ι K).Tracked := ⟨by simp [init], fun _ _ => rfl⟩
    exact (exec_invariant_along (step trig) KeepsCancel Tracked
      (fun _ a _ h hok hs => step_tracked a h hok hs) _ hi acts h).heard
  · exact exec_invariant (step trig) Marked (fun _ a _ h hs => step_marked a h hs) (init trig)
      ⟨init_tuned trig, by simp [init], by simp [init]⟩ acts

/- A turn that has sent a velocity is cancelled and returns; then a second one starts, which
clears the flag, and sends a velocity of its own. -/
def cancelledTurn : List (Act Bool ℚ) :=
  .call false (.rotate 1 8) :: List.replicate 8 (.run false 0 ⟨0, 0, 0⟩) ++ .cancel ::
    List.replicate 4 (.run false 0 ⟨0, 0, 0⟩) ++ .call true (.rotate 1 8) ::
    List.replicate 7 (.run true 0 ⟨0, 0, 0⟩)

instance (m : Motion ℚ) : Decidable m.CanPoll :=
  decidable_of_iff ((match m.pc with
    | .reset | .readStart => decide (0 < m.request.timeout)
    | .guard | .sleep | .sample | .command _ => decide (m.now < m.endTime)
    | .poll | .readClock => true
    | .cancelMove | .returning _ | .done => false) = true) <| by
    unfold Motion.CanPoll
    cases m.pc <;> simp

/- For a run of two motions. -/
instance (s : Server Bool ℚ) (a : Act Bool ℚ) : Decidable (s.KeepsCancel a) :=
  match a with
  | .run j _ _ => decidable_of_iff (∀ m ∈ s.motion j, m.pc = .reset → s.cancelFlag = true →
      ∀ i, i ≠ j → ∀ m' ∈ s.motion i, m'.pc ≠ .reset → ¬m'.CanPoll)
    ⟨fun h m hm hr hf i m' hij hm' => h m hm hr hf i hij m' hm',
      fun h m hm hr hf i hij m' hm' => h m hm hr hf i m' hij hm'⟩
  | .call .. | .cancel | .stopMove _ | .stopReturn => .isTrue trivial

theorem cancel_heard_turn :
    (after rationalTrig cancelledTurn).log = [.call false, .motion false .reset,
      .motion false (.polled false), .motion false (.move ⟨0, 0, 2⟩), .cancel,
      .motion false (.polled true), .motion false (.move .zero),
      .motion false (.returned (.error, "Rotate cancelled")), .call true, .motion true .reset,
      .motion true (.polled false), .motion true (.move ⟨0, 0, 2⟩)] ∧
    (after rationalTrig cancelledTurn).CancelsHeard := by
  refine ⟨by decide +kernel, (cancel_heard rationalTrig cancelledTurn).1 ?_⟩
  decide +kernel

/- A turn is under way and `cancel()` is called; a second motion starts, and the
first one sends two more velocities. -/
def cancelTakenAway : List (Act ℕ ℚ) :=
  [.call 0 (.rotate 1 8), .run 0 0 ⟨0, 0, 0⟩, .run 0 0 ⟨0, 0, 0⟩, .cancel, .call 1 (.rotate 1 8),
    .run 1 0 ⟨0, 0, 0⟩] ++ List.replicate 11 (.run 0 0 ⟨0, 0, 0⟩)

theorem cancel_lost :
    (after rationalTrig cancelTakenAway).log = [.call 0, .motion 0 .reset, .cancel, .call 1,
      .motion 1 .reset, .motion 0 (.polled false), .motion 0 (.move ⟨0, 0, 2⟩),
      .motion 0 (.polled false), .motion 0 (.move ⟨0, 0, 2⟩)] ∧
    ¬(after rationalTrig cancelTakenAway).CancelsHeard := by
  have hlog : (after rationalTrig cancelTakenAway).log = [.call 0, .motion 0 .reset, .cancel,
      .call 1, .motion 1 .reset, .motion 0 (.polled false), .motion 0 (.move ⟨0, 0, 2⟩),
      .motion 0 (.polled false), .motion 0 (.move ⟨0, 0, 2⟩)] := by
    decide +kernel
  have hsome : ((after rationalTrig cancelTakenAway).motion 0).isSome = true := by decide +kernel
  obtain ⟨m, hm⟩ := Option.isSome_iff_exists.mp hsome
  refine ⟨hlog, fun h => ?_⟩
  have hh := h [.call 0, .motion 0 .reset] _ 0 m hlog (by simp) hm
  exact hh.polls (by simp [eventsOf])

end Server

end TypegoSdk.Control
