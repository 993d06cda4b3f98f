import TypegoSdk.Control.Ahead

/-!
# One call among the others

A schedule mixes the steps of all calls. `watch` is what one of them samples
and does, in order, and `watch_invariant` proves a property of one call along
every schedule from its own steps: the other calls only choose what the step
finds in the shared flag and controllers.
-/

namespace TypegoSdk.Control
open TypegoSdk.Lib
variable {ι K : Type} [DecidableEq ι]

def eventsOf (i : ι) (log : List (Event ι K)) : List (MotionEvent K) := log.filterMap fun
  | .motion j e => if j = i then some e else none
  | _ => none

theorem eventsOf_append (i : ι) (a b : List (Event ι K)) :
    eventsOf i (a ++ b) = eventsOf i a ++ eventsOf i b := List.filterMap_append

theorem eventsOf_self (i : ι) (e : Option (MotionEvent K)) :
    eventsOf i (e.map (.motion i)).toList = e.toList := by
  cases e <;> simp [eventsOf]

theorem eventsOf_other {i j : ι} (h : j ≠ i) (e : Option (MotionEvent K)) :
    eventsOf i (e.map (.motion j)).toList = [] := by
  cases e <;> simp [eventsOf, h]

theorem mem_eventsOf {i : ι} {e : MotionEvent K} {log : List (Event ι K)} :
    e ∈ eventsOf i log ↔ .motion i e ∈ log := by
  simp only [eventsOf, List.mem_filterMap]
  constructor
  · rintro ⟨x, hx, he⟩
    cases x <;> simp only [reduceCtorEq, Option.ite_none_right_eq_some, Option.some.injEq] at he
    obtain ⟨rfl, rfl⟩ := he
    exact hx
  · intro h
    exact ⟨_, h, by simp⟩

inductive Seen (K : Type) where
  | sampled (pose : Pose K)
  | did (e : MotionEvent K)
  deriving DecidableEq

def events (tr : List (Seen K)) : List (MotionEvent K) := tr.filterMap fun
  | .did e => some e
  | .sampled _ => none

def samples (tr : List (Seen K)) : List (Pose K) := tr.filterMap fun
  | .sampled pose => some pose
  | .did _ => none

theorem events_append (a b : List (Seen K)) : events (a ++ b) = events a ++ events b :=
  List.filterMap_append

theorem samples_append (a b : List (Seen K)) : samples (a ++ b) = samples a ++ samples b :=
  List.filterMap_append

/- What one step of a call adds: `high_state` is read before and in the loop. -/
def Motion.seen (m : Motion K) (pose : Pose K) (o : Outcome K) : List (Seen K) :=
  (match m.pc with
    | .readStart | .sample => [.sampled pose]
    | _ => []) ++ (o.event.map .did).toList

theorem events_did (e : Option (MotionEvent K)) : events (e.map .did).toList = e.toList := by
  cases e <;> simp [events]

theorem seen_events (m : Motion K) (pose : Pose K) (o : Outcome K) :
    events (m.seen pose o) = o.event.toList := by
  rw [Motion.seen, events_append, events_did]
  split <;> rfl

namespace Server
variable [Field K] [LinearOrder K]

def seenBy (trig : Trig K) (i : ι) (s : Server ι K) : Act ι K → List (Seen K)
  | .run j clock pose =>
    if j = i then
      match s.motion j with
      | none => []
      | some m =>
        match m.next trig s.cancelFlag s.pids clock pose with
        | none => []
        | some o => m.seen pose o
    else []
  | _ => []

def watch (trig : Trig K) (i : ι) : Server ι K → List (Act ι K) → List (Seen K)
  | _, [] => []
  | s, a :: acts => s.seenBy trig i a ++ watch trig i (advance (step trig) s a) acts

variable {trig : Trig K} {s s' : Server ι K} {i : ι}

theorem seenBy_run {clock : K} {pose : Pose K} {m : Motion K} {o : Outcome K}
    (hm : s.motion i = some m) (ho : m.next trig s.cancelFlag s.pids clock pose = some o) :
    s.seenBy trig i (.run i clock pose) = m.seen pose o := by
  simp only [seenBy, if_true, hm, ho]

/- A step leaves the call `i` and what is seen of it alone, or it makes the
call, or it is the call's own. -/
theorem step_call {a : Act ι K} (h : s.step trig a = some s') :
    (s'.motion i = s.motion i ∧ s.seenBy trig i a = []) ∨
    (s.motion i = none ∧ (∃ request, s'.motion i = some (.enter request)) ∧
      s.seenBy trig i a = []) ∨
    (∃ m o clock pose, a = .run i clock pose ∧ s.motion i = some m ∧
      m.next trig s.cancelFlag s.pids clock pose = some o ∧ s'.motion i = some o.motion ∧
      s.seenBy trig i a = m.seen pose o) := by
  cases a with
  | call j request =>
    obtain ⟨hnone, rfl⟩ := call_inv h
    by_cases hij : i = j
    · subst hij
      exact .inr (.inl ⟨hnone, ⟨request, Function.update_self ..⟩, rfl⟩)
    · exact .inl ⟨Function.update_of_ne hij .., rfl⟩
  | run j clock pose =>
    obtain ⟨m, o, hm, ho, rfl⟩ := run_inv h
    by_cases hij : i = j
    · subst hij
      exact .inr (.inr ⟨m, o, clock, pose, rfl, hm, ho, Function.update_self .., seenBy_run hm ho⟩)
    · refine .inl ⟨Function.update_of_ne hij .., ?_⟩
      simp only [seenBy, if_neg (Ne.symm hij)]
  | cancel =>
    cases h
    exact .inl ⟨rfl, rfl⟩
  | stopMove code =>
    rw [stopMove_inv h]
    exact .inl ⟨rfl, rfl⟩
  | stopReturn =>
    obtain ⟨code, _, rfl⟩ := stopReturn_inv h
    exact .inl ⟨rfl, rfl⟩

theorem seenBy_none {a : Act ι K} (h : s.step trig a = none) : s.seenBy trig i a = [] := by
  cases a with
  | run j clock pose =>
    simp only [seenBy]
    split
    · cases hm : s.motion j with
      | none => rfl
      | some m =>
        simp only [step, hm, Option.map_eq_none_iff] at h
        simp only [h]
    · rfl
  | call j request | cancel | stopMove code | stopReturn => rfl

/- What the log holds of the call is what is seen of it. -/
theorem step_events {a : Act ι K} (h : s.step trig a = some s') :
    eventsOf i s'.log = eventsOf i s.log ++ events (s.seenBy trig i a) := by
  cases a with
  | call j request =>
    obtain ⟨_, rfl⟩ := call_inv h
    simp [eventsOf, seenBy, events]
  | run j clock pose =>
    obtain ⟨m, o, hm, ho, rfl⟩ := run_inv h
    show eventsOf i (s.log ++ (o.event.map (.motion j)).toList) = _
    rw [eventsOf_append]
    by_cases hij : j = i
    · subst hij
      rw [seenBy_run hm ho, eventsOf_self, seen_events]
    · simp only [eventsOf_other hij, seenBy, if_neg hij, events, List.filterMap_nil]
  | cancel =>
    cases h
    simp [eventsOf, seenBy, events]
  | stopMove code =>
    rw [stopMove_inv h]
    simp [eventsOf, seenBy, events]
  | stopReturn =>
    obtain ⟨code, _, rfl⟩ := stopReturn_inv h
    simp [eventsOf, seenBy, events]

theorem watch_events (s : Server ι K) (acts : List (Act ι K)) :
    eventsOf i (exec (step trig) s acts).log =
      eventsOf i s.log ++ events (watch trig i s acts) := by
  induction acts generalizing s with
  | nil => simp [watch, events]
  | cons a acts ih =>
    rw [exec_cons, ih, watch, events_append, ← List.append_assoc]
    congr 1
    cases ha : s.step trig a with
    | none =>
      rw [advance_none (step trig) ha, seenBy_none ha]
      simp [events]
    | some s' =>
      rw [advance_some (step trig) ha]
      exact step_events ha

theorem after_events (trig : Trig K) (i : ι) (acts : List (Act ι K)) :
    eventsOf i (after trig acts).log = events (watch trig i (init trig) acts) := by
  rw [after, watch_events]
  rfl

/- A call that is not made shows nothing. -/
theorem after_uncalled (acts : List (Act ι K)) (hm : (after trig acts).motion i = none) :
    eventsOf i (after trig acts).log = [] := by
  refine exec_invariant (step trig) (fun s => s.motion i = none → eventsOf i s.log = []) ?_
    (init trig) (fun _ => rfl) acts hm
  intro s a s' h hs hn
  rw [step_events hs]
  rcases step_call (i := i) hs with ⟨he, hseen⟩ | ⟨_, ⟨request, he⟩, _⟩ | ⟨_, o, _, _, _, _, _, he, _⟩
  · rw [hseen, h (he ▸ hn)]
    rfl
  · rw [he] at hn
    cases hn
  · rw [he] at hn
    cases hn

variable [IsStrictOrderedRing K]

theorem step_tuned {a : Act ι K} (h : s.pids.Tuned) (hs : s.step trig a = some s') :
    s'.pids.Tuned := by
  cases a with
  | call j request =>
    obtain ⟨_, rfl⟩ := call_inv hs
    exact h
  | run j clock pose =>
    obtain ⟨m, o, _, ho, rfl⟩ := run_inv hs
    exact (Motion.next_tuned ho h).1
  | cancel =>
    cases hs
    exact h
  | stopMove code =>
    rw [stopMove_inv hs]
    exact h
  | stopReturn =>
    obtain ⟨code, _, rfl⟩ := stopReturn_inv hs
    exact h

section Invariant
variable (ok : Server ι K → Act ι K → Prop) (P : Motion K → List (Seen K) → Prop)
  (henter : ∀ request, P (.enter request) [])
  (hnext : ∀ (s : Server ι K) (m : Motion K) (o : Outcome K) (clock : K) (pose : Pose K)
    (tr : List (Seen K)), s.pids.Tuned → s.motion i = some m → eventsOf i s.log = events tr →
    ok s (.run i clock pose) → m.next trig s.cancelFlag s.pids clock pose = some o → P m tr →
    P o.motion (tr ++ m.seen pose o))
include henter hnext

theorem exec_watch (s : Server ι K) (tr : List (Seen K)) (acts : List (Act ι K))
    (ht : s.pids.Tuned) (hlog : eventsOf i s.log = events tr) (hnone : s.motion i = none → tr = [])
    (hsome : ∀ m, s.motion i = some m → P m tr) (h : Along (step trig) ok s acts) (m : Motion K)
    (hm : (exec (step trig) s acts).motion i = some m) : P m (tr ++ watch trig i s acts) := by
  induction acts generalizing s tr with
  | nil =>
    rw [watch, List.append_nil]
    exact hsome m hm
  | cons a acts ih =>
    rw [watch, ← List.append_assoc]
    obtain ⟨hok, hrest⟩ := h
    rw [exec_cons] at hm
    cases ha : s.step trig a with
    | none =>
      rw [advance_none (step trig) ha] at hrest hm ⊢
      rw [seenBy_none ha, List.append_nil]
      exact ih s tr ht hlog hnone hsome hrest hm
    | some s' =>
      rw [advance_some (step trig) ha] at hrest hm ⊢
      refine ih s' _ (step_tuned ht ha) ?_ ?_ ?_ hrest hm
      · rw [step_events ha, hlog, events_append]
      · intro hn
        rcases step_call (i := i) ha with ⟨he, hs⟩ | ⟨_, ⟨request, he⟩, _⟩ | ⟨_, o, _, _, _, _, _, he, _⟩
        · rw [hs, List.append_nil]
          exact hnone (he ▸ hn)
        · rw [he] at hn
          cases hn
        · rw [he] at hn
          cases hn
      · intro m' hm'
        rcases step_call (i := i) ha with
          ⟨he, hs⟩ | ⟨hn, ⟨request, he⟩, hs⟩ | ⟨m0, o, clock, pose, rfl, hm0, ho, he, hs⟩
        · rw [hs, List.append_nil]
          exact hsome m' (he ▸ hm')
        · rw [he, Option.some.injEq] at hm'
          rw [hs, hnone hn, ← hm']
          exact henter request
        · rw [he, Option.some.injEq] at hm'
          rw [hs, ← hm']
          exact hnext s m0 o clock pose tr ht hm0 hlog (hok (by simp [ha])) ho (hsome m0 hm0)

/- What holds of a call when it is made and is kept by its own steps holds of
it along every schedule. -/
theorem watch_invariant (acts : List (Act ι K)) (h : Along (step trig) ok (init trig) acts)
    (m : Motion K) (hm : (after trig acts).motion i = some m) :
    P m (watch trig i (init trig) acts) :=
  exec_watch ok P henter hnext (init trig) [] acts (init_tuned trig) rfl (fun _ => rfl)
    (fun m hm => by simp [init] at hm) h m hm

end Invariant

end Server

end TypegoSdk.Control
