import TypegoSdk.Dds.BlockQueue

/-!
# Shutdown of a DDS reader listener (common/dds/dds_entity.hpp)

`DdsReaderListener` with a queue runs a thread that waits for a message
handler and then takes samples off the queue until `mQuit` is set. The
destructor sets `mQuit`, interrupts the queue once and waits for the thread.
`mQuit` is tested outside the mutex of the queue, and the notify of the
Interrupt is not remembered when no thread waits.
-/

namespace TypegoSdk.Dds
open TypegoSdk.Lib
variable {α : Type}

/-- Where the queue thread stands: `await` is its first loop, `test` reads
`mQuit`, `get` is before and `inGet` inside the Wait of `Get`. -/
inductive ThreadPc (α : Type) where
  | absent
  | await
  | test
  | get
  | inGet
  | callback (t : α)
  | finished
  deriving DecidableEq

inductive DestructorPc where
  | alive
  | quitSet
  | waiting
  | done
  deriving DecidableEq

/- `sys` is the queue with the one thread `()` that may wait in it; `handled`
are the samples passed to OnDataAvailable. -/
structure Listener (α : Type) where
  hasQueue : Bool
  quit : Bool
  hasHandler : Bool
  sys : Sys Unit α
  thread : ThreadPc α
  destructor : DestructorPc
  handled : List α
  deriving DecidableEq

/- `sample` is `on_data_available` for one valid sample. -/
inductive ListenerAct (α : Type) where
  | setCallback
  | sample (t : α)
  | thread
  | destructor

namespace Listener

/- A new listener after `SetQueue(len)`. -/
def setQueue (len : Int32) : Listener α :=
  if len ≤ 0 then ⟨false, false, false, .init 0, .absent, .alive, []⟩
  else ⟨true, false, false, .init len.toInt64.toUInt64, .await, .alive, []⟩

/- What the thread does after Get: the callback on an element, or the next
test of `mQuit`. -/
def fetched (queue : List α) (none : ThreadPc α) : ThreadPc α :=
  match queue with
  | [] => none
  | t :: _ => .callback t

def threadStep (s : Listener α) : Option (Listener α) :=
  match s.thread with
  | .absent => none
  | .await => some {s with thread := if s.hasHandler then .test else .await}
  | .test => some {s with thread := if s.quit then .finished else .get}
  | .get => (s.sys.step (.get () 0)).map fun sys =>
      {s with sys := sys, thread := fetched s.sys.q.queue .inGet}
  | .inGet => (s.sys.step (.resume ())).map fun sys =>
      {s with sys := sys, thread := fetched s.sys.q.queue .test}
  | .callback t => some {s with thread := .test, handled := s.handled ++ [t]}
  | .finished => none

def destructorStep (s : Listener α) : Option (Listener α) :=
  match s.destructor with
  | .alive =>
    if s.hasQueue then some {s with quit := true, destructor := .quitSet}
    else some {s with destructor := .done}
  | .quitSet => some {s with sys := s.sys.interrupt false 0, destructor := .waiting}
  | .waiting =>
    match s.thread with
    | .finished => some {s with destructor := .done}
    | _ => none
  | .done => none

/- The status mask asks for samples only once there is a handler, and none
arrive once the destructor runs. -/
def sample (s : Listener α) (t : α) : Option (Listener α) :=
  if s.destructor = .alive ∧ s.hasHandler then
    if s.hasQueue then some {s with sys := s.sys.put t true false 0}
    else some {s with handled := s.handled ++ [t]}
  else none

def step (s : Listener α) : ListenerAct α → Option (Listener α)
  | .setCallback => some {s with hasHandler := true}
  | .sample t => s.sample t
  | .thread => s.threadStep
  | .destructor => s.destructorStep

/- The destructor waits for a thread that nothing will wake. -/
def Stuck (s : Listener α) : Prop :=
  s.destructor = .waiting ∧ s.thread = .inGet ∧ s.sys.woken = []

/- When the destructor interrupts the queue, the thread is not between its
test of `mQuit` and its Wait on the empty queue. -/
def HeardInterrupt (s : Listener α) : ListenerAct α → Prop
  | .destructor => s.destructor = .quitSet → s.thread = .get → s.sys.q.queue ≠ []
  | _ => True

instance [DecidableEq α] (s : Listener α) (a : ListenerAct α) : Decidable (s.HeardInterrupt a) :=
  match a with
  | .destructor => inferInstanceAs (Decidable (_ → _ → ¬_))
  | .setCallback | .sample _ | .thread => .isTrue trivial

/-! ### The one thread of the queue -/

/-- The thread is in the queue's waiting lists exactly while it is in Wait. -/
inductive Seat (sys : Sys Unit α) : ThreadPc α → Prop
  | outside (pc : ThreadPc α) (h : pc ≠ .inGet) (hb : sys.blocked = []) (hw : sys.woken = []) :
      Seat sys pc
  | blocked (w : Waiter Unit) (hb : sys.blocked = [w]) (hw : sys.woken = []) : Seat sys .inGet
  | woken (w : Waiter Unit) (hb : sys.blocked = []) (hw : sys.woken = [w]) : Seat sys .inGet

theorem notify_none (sys : Sys Unit α) (pick : ℕ) (hb : sys.blocked = []) :
    sys.notify pick = sys := by
  simp [Sys.notify, hb]

theorem notify_one (sys : Sys Unit α) (pick : ℕ) (w : Waiter Unit) (hb : sys.blocked = [w]) :
    sys.notify pick = {sys with blocked := [], woken := sys.woken ++ [w]} := by
  simp [Sys.notify, hb, Nat.mod_one]

theorem seat_notify (pc : ThreadPc α) (sys : Sys Unit α) (pick : ℕ) (h : Seat sys pc) :
    Seat (sys.notify pick) pc := by
  cases h with
  | outside _ hpc hb hw =>
    rw [notify_none sys pick hb]
    exact .outside _ hpc hb hw
  | blocked w hb hw =>
    rw [notify_one sys pick w hb]
    exact .woken w rfl (by simp [hw])
  | woken w hb hw =>
    rw [notify_none sys pick hb]
    exact .woken w hb hw

theorem seat_put (pc : ThreadPc α) (sys : Sys Unit α) (t : α) (pick : ℕ) (h : Seat sys pc) :
    Seat (sys.put t true false pick) pc := by
  have hs : ∀ q e, Seat ({sys with q := q}.record e) pc := by
    intro q e
    cases h with
    | outside _ hpc hb hw => exact .outside _ hpc hb hw
    | blocked w hb hw => exact .blocked w hb hw
    | woken w hb hw => exact .woken w hb hw
  unfold Sys.put
  simp only [Bool.not_true, Bool.and_false, Bool.false_eq_true, if_false]
  exact seat_notify pc _ pick (hs _ _)

/- An Interrupt leaves no thread blocked. -/
theorem seat_interrupt (pc : ThreadPc α) (sys : Sys Unit α) (pick : ℕ) (h : Seat sys pc) :
    Seat (sys.interrupt false pick) pc ∧ (pc = .inGet → (sys.interrupt false pick).woken ≠ []) := by
  cases h with
  | outside _ hpc hb hw =>
    have hi : sys.interrupt false pick = sys.record .interrupt := by
      simp [Sys.interrupt, Sys.markInterrupted, Sys.record, Sys.notify, hb, hw]
    rw [hi]
    exact ⟨.outside _ hpc hb hw, fun h => absurd h hpc⟩
  | blocked w hb hw =>
    refine ⟨.woken {w with interrupted := true} ?_ ?_, fun _ => ?_⟩ <;>
      simp [Sys.interrupt, Sys.markInterrupted, Sys.record, Sys.notify, hb, hw, Nat.mod_one]
  | woken w hb hw =>
    refine ⟨.woken {w with interrupted := true} ?_ ?_, fun _ => ?_⟩ <;>
      simp [Sys.interrupt, Sys.markInterrupted, Sys.record, Sys.notify, hb, hw]

/-! ### Steps -/

structure Orderly (s : Listener α) : Prop where
  quits : s.destructor = .quitSet ∨ s.destructor = .waiting → s.quit = true
  seat : Seat s.sys s.thread

/- With the Interrupt behind it, the destructor waits for a thread that will
come back from Get, or not enter it. -/
def Leaving (s : Listener α) : Prop :=
  s.destructor = .waiting → (s.thread = .get → s.sys.q.queue ≠ []) ∧
    (s.thread = .inGet → s.sys.woken ≠ [])

theorem setQueue_orderly (len : Int32) :
    (setQueue len : Listener α).Orderly ∧ (setQueue len : Listener α).Leaving := by
  unfold setQueue
  split
  · exact ⟨⟨by simp, .outside _ (by simp) rfl rfl⟩, by simp [Leaving]⟩
  · exact ⟨⟨by simp, .outside _ (by simp) rfl rfl⟩, by simp [Leaving]⟩

theorem get_step (sys : Sys Unit α) (hb : sys.blocked = []) (hw : sys.woken = []) :
    sys.step (.get () 0) =
      some (if sys.q.queue.isEmpty then {sys with blocked := [⟨(), 0, false⟩]}
        else sys.take ⟨(), 0, false⟩) := by
  simp only [Sys.step, hb, hw, List.append_nil, List.any_nil, Bool.false_eq_true, if_false,
    List.nil_append]
  split <;> rfl

theorem fetched_cases (queue : List α) (pc : ThreadPc α) :
    (queue = [] ∧ fetched queue pc = pc) ∨ ∃ t, fetched queue pc = .callback t := by
  cases queue with
  | nil => exact .inl ⟨rfl, rfl⟩
  | cons t rest => exact .inr ⟨t, rfl⟩

/- A step of the thread to a place outside Get. -/
theorem moved {s s' : Listener α} (h : s.Orderly) (hd : s'.destructor = s.destructor)
    (hq : s'.quit = s.quit) (hsys : s'.sys.blocked = [] ∧ s'.sys.woken = [])
    (hpc : s'.thread ≠ .inGet) (hget : s'.thread = .get → s.quit = false) :
    s'.Orderly ∧ s'.Leaving := by
  refine ⟨⟨?_, .outside _ hpc hsys.1 hsys.2⟩, ?_⟩
  · rw [hd, hq]
    exact h.quits
  · intro hw
    have hquit := h.quits (.inr (hd ▸ hw))
    refine ⟨fun hg => ?_, fun hi => absurd hi hpc⟩
    simp [hget hg] at hquit

theorem seat_outside {pc : ThreadPc α} {sys : Sys Unit α} (h : Seat sys pc) (hpc : pc ≠ .inGet) :
    sys.blocked = [] ∧ sys.woken = [] := by
  cases h with
  | outside _ _ hb hw => exact ⟨hb, hw⟩
  | blocked w hb hw => exact absurd rfl hpc
  | woken w hb hw => exact absurd rfl hpc

theorem take_lists (sys : Sys Unit α) (w : Waiter Unit) :
    (sys.take w).blocked = sys.blocked ∧ (sys.take w).woken = sys.woken := by
  unfold Sys.take
  split <;> exact ⟨rfl, rfl⟩

theorem get_orderly (s s' : Listener α) (h : s.Orderly) (hl : s.Leaving) (hpc : s.thread = .get)
    (hs : s.threadStep = some s') : s'.Orderly ∧ s'.Leaving := by
  obtain ⟨hb, hw⟩ := seat_outside h.seat (by simp [hpc])
  simp only [threadStep, hpc, get_step s.sys hb hw, Option.map_some, Option.some.injEq] at hs
  subst hs
  rcases fetched_cases s.sys.q.queue .inGet with ⟨hq, hf⟩ | ⟨t, hf⟩
  · rw [hf]
    have he : s.sys.q.queue.isEmpty = true := by rw [hq]; rfl
    rw [if_pos he]
    refine ⟨⟨h.quits, .blocked _ rfl hw⟩, ?_⟩
    intro hd
    exact absurd hq ((hl hd).1 hpc)
  · have hne : ¬s.sys.q.queue.isEmpty = true := by
      intro he
      rw [List.isEmpty_iff.mp he] at hf
      simp [fetched] at hf
    rw [hf, if_neg hne]
    have ht := take_lists s.sys ⟨(), 0, false⟩
    exact moved h rfl rfl ⟨ht.1.trans hb, ht.2.trans hw⟩ (by simp) (by simp)

theorem inGet_orderly (s s' : Listener α) (h : s.Orderly) (hpc : s.thread = .inGet)
    (hs : s.threadStep = some s') : s'.Orderly ∧ s'.Leaving := by
  simp only [threadStep, hpc, Sys.step] at hs
  have hseat := h.seat
  rw [hpc] at hseat
  cases hseat with
  | outside _ hne _ _ => exact absurd rfl hne
  | blocked w hb hw => simp [hw] at hs
  | woken w hb hw =>
    simp only [hw, List.find?_cons_of_pos, decide_true, Option.map_some, Option.some.injEq] at hs
    subst hs
    have ht := take_lists {s.sys with woken := [w].eraseP fun w => w.tid = ()} w
    have hf : fetched s.sys.q.queue .test ≠ .inGet ∧ fetched s.sys.q.queue .test ≠ .get := by
      rcases fetched_cases s.sys.q.queue .test with ⟨_, hf⟩ | ⟨t, hf⟩ <;> rw [hf] <;> simp
    exact moved h rfl rfl ⟨ht.1.trans hb, ht.2.trans (by simp)⟩ hf.1 fun hg => absurd hg hf.2

theorem threadStep_orderly (s s' : Listener α) (h : s.Orderly) (hl : s.Leaving)
    (hs : s.threadStep = some s') : s'.Orderly ∧ s'.Leaving := by
  cases hpc : s.thread with
  | absent => simp [threadStep, hpc] at hs
  | await =>
    simp only [threadStep, hpc, Option.some.injEq] at hs
    subst hs
    have ho := seat_outside h.seat (by simp [hpc])
    refine moved h rfl rfl ho ?_ ?_ <;> cases s.hasHandler <;> simp
  | test =>
    simp only [threadStep, hpc, Option.some.injEq] at hs
    subst hs
    have ho := seat_outside h.seat (by simp [hpc])
    refine moved h rfl rfl ho ?_ ?_ <;> cases s.quit <;> simp
  | get => exact get_orderly s s' h hl hpc hs
  | inGet => exact inGet_orderly s s' h hpc hs
  | callback t =>
    simp only [threadStep, hpc, Option.some.injEq] at hs
    subst hs
    exact moved h rfl rfl (seat_outside h.seat (by simp [hpc])) (by simp) (by simp)
  | finished => simp [threadStep, hpc] at hs

theorem destructorStep_orderly (s s' : Listener α) (h : s.Orderly)
    (hok : s.destructor = .quitSet → s.thread = .get → s.sys.q.queue ≠ [])
    (hs : s.destructorStep = some s') : s'.Orderly ∧ s'.Leaving := by
  cases hd : s.destructor with
  | alive =>
    simp only [destructorStep, hd] at hs
    split at hs
    · cases hs
      exact ⟨⟨fun _ => rfl, h.seat⟩, by simp [Leaving]⟩
    · cases hs
      exact ⟨⟨by simp, h.seat⟩, by simp [Leaving]⟩
  | quitSet =>
    simp only [destructorStep, hd, Option.some.injEq] at hs
    subst hs
    obtain ⟨hseat, hwake⟩ := seat_interrupt s.thread s.sys 0 h.seat
    have hq : (s.sys.interrupt false 0).q = s.sys.q := by
      simp only [Sys.interrupt, Bool.false_eq_true, if_false]
      unfold Sys.notify
      split <;> rfl
    refine ⟨⟨fun _ => h.quits (.inl hd), hseat⟩, fun _ => ⟨fun hg => ?_, hwake⟩⟩
    show (s.sys.interrupt false 0).q.queue ≠ []
    rw [hq]
    exact hok hd hg
  | waiting =>
    simp only [destructorStep, hd] at hs
    split at hs
    · cases hs
      exact ⟨⟨by simp, h.seat⟩, by simp [Leaving]⟩
    · cases hs
  | done => simp [destructorStep, hd] at hs

theorem sample_orderly (s s' : Listener α) (t : α) (h : s.Orderly) (hs : s.sample t = some s') :
    s'.Orderly ∧ s'.Leaving := by
  unfold sample at hs
  split at hs
  · rename_i hc
    split at hs
    · cases hs
      exact ⟨⟨h.quits, seat_put _ _ t 0 h.seat⟩, by simp [Leaving, hc.1]⟩
    · cases hs
      exact ⟨⟨h.quits, h.seat⟩, by simp [Leaving, hc.1]⟩
  · cases hs

theorem step_orderly (s s' : Listener α) (a : ListenerAct α) (h : s.Orderly ∧ s.Leaving)
    (hok : s.HeardInterrupt a) (hs : s.step a = some s') : s'.Orderly ∧ s'.Leaving := by
  cases a with
  | setCallback =>
    cases hs
    exact ⟨⟨h.1.quits, h.1.seat⟩, h.2⟩
  | sample t => exact sample_orderly s s' t h.1 hs
  | thread => exact threadStep_orderly s s' h.1 h.2 hs
  | destructor => exact destructorStep_orderly s s' h.1 hok hs

theorem exec_orderly (len : Int32) (acts : List (ListenerAct α))
    (h : Along step HeardInterrupt (setQueue len) acts) :
    (exec step (setQueue len) acts).Orderly ∧ (exec step (setQueue len) acts).Leaving :=
  exec_invariant_along step HeardInterrupt (fun s => s.Orderly ∧ s.Leaving)
    (fun s a s' => step_orderly s s' a) _ (setQueue_orderly len) acts h

/- The Interrupt that nobody hears: the thread enters Wait after it. -/
theorem unheard_stuck (s s' : Listener α) (a : ListenerAct α) (h : s.Orderly)
    (hok : ¬s.HeardInterrupt a) (hs : s.step a = some s') :
    (exec step s' [.thread]).Stuck := by
  cases a with
  | setCallback => exact absurd trivial hok
  | sample t => exact absurd trivial hok
  | thread => exact absurd trivial hok
  | destructor =>
    simp only [HeardInterrupt, not_forall, not_not] at hok
    obtain ⟨hd, hpc, hq⟩ := hok
    simp only [step, destructorStep, hd, Option.some.injEq] at hs
    obtain ⟨hb, hw⟩ := seat_outside h.seat (by simp [hpc])
    have hi : s.sys.interrupt false 0 = s.sys.record .interrupt := by
      simp [Sys.interrupt, Sys.markInterrupted, Sys.record, Sys.notify, hb, hw]
    rw [hi] at hs
    subst hs
    have hq' : (s.sys.record .interrupt).q.queue = [] := hq
    have ht := get_step (s.sys.record .interrupt) hb hw
    rw [if_pos (by rw [hq']; rfl)] at ht
    have hstep : step {s with sys := s.sys.record .interrupt, destructor := .waiting} .thread =
        some {s with
          sys := {s.sys.record .interrupt with blocked := [⟨(), 0, false⟩]}
          thread := .inGet
          destructor := .waiting} := by
      simp only [step, threadStep, hpc, ht, hq', fetched, Option.map_some]
    rw [exec_cons, advance_some step hstep]
    exact ⟨rfl, rfl, hw⟩

/-- Over every run in which the Interrupt does not fall between the thread's
test of `mQuit` and its Wait on an empty queue, the destructor never waits for
a thread that nothing will wake; where it does fall there, the thread's next
step is that state. -/
theorem shutdown_not_stuck (len : Int32) (acts : List (ListenerAct α))
    (h : Along step HeardInterrupt (setQueue len) acts) :
    ¬(exec step (setQueue len) acts).Stuck ∧
    ∀ a s', (exec step (setQueue len) acts).step a = some s' →
      ¬(exec step (setQueue len) acts).HeardInterrupt a → (exec step s' [.thread]).Stuck := by
  obtain ⟨ho, hl⟩ := exec_orderly len acts h
  refine ⟨?_, fun a s' hs hok => unheard_stuck _ s' a ho hok hs⟩
  rintro ⟨hd, hpc, hw⟩
  exact (hl hd).2 hpc hw

/- The thread waits, the destructor interrupts it and waits, the thread ends. -/
theorem shutdown_heard :
    Along step HeardInterrupt (setQueue 1 : Listener Char)
      [.setCallback, .thread, .thread, .thread, .destructor, .destructor] ∧
    ¬(exec step (setQueue 1 : Listener Char)
      [.setCallback, .thread, .thread, .thread, .destructor, .destructor]).Stuck :=
  ⟨by decide, (shutdown_not_stuck 1 _ (by decide)).1⟩

/- The thread has tested `mQuit` and not yet called Get when the destructor sets
it and interrupts the queue; then it waits for ever, and so does the destructor. -/
theorem shutdown_stuck :
    (exec step (setQueue 1 : Listener Char)
      [.setCallback, .thread, .thread, .destructor, .destructor, .thread]).Stuck := by
  refine ⟨?_, ?_, ?_⟩ <;> decide

end Listener

end TypegoSdk.Dds
