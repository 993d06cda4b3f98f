import TypegoSdk.Control.Watch

/-!
# What the rounds of a motion keep

A motion reads a pose before its loop and one in every round, and computes its
task, its velocities and its success from them. An account says of each what
the poses make of it; `account_holds` gives it for every schedule from the
first reading and from one round.
-/

namespace TypegoSdk.Control
open TypegoSdk.Lib
variable {ι K : Type} [Field K]

/-- What the poses read so far say of the task, of a velocity that is computed
from the last of them, and of success. -/
structure Account (K : Type) where
  task : List (Pose K) → Task K → Prop
  velocity : List (Pose K) → Velocity K → Prop
  success : List (Pose K) → Prop

namespace Account

/-- What is said of an event, after what was seen before it. The zero velocity of
a cancellation follows the look at the flag. -/
structure Explains (A : Account K) (before : List (Seen K)) (e : MotionEvent K) : Prop where
  move : ∀ v, e = .move v → (v = .zero ∧ before.getLast? = some (.did (.polled true))) ∨
    A.velocity (samples before) v
  success : ∀ text, e = .returned (.success, text) → A.success (samples before)

structure Holds (A : Account K) (m : Motion K) (tr : List (Seen K)) : Prop where
  unread : m.pc = .reset ∨ m.pc = .readStart → samples tr = []
  task : m.pc ≠ .reset → m.pc ≠ .readStart → samples tr ≠ [] ∧ A.task (samples tr) m.task
  command : ∀ v, m.pc = .command v → A.velocity (samples tr) v
  success : ∀ text, m.pc = .returning (.success, text) → A.success (samples tr)
  cancel : m.pc = .cancelMove → tr.getLast? = some (.did (.polled true))
  past : ∀ before e rest, tr = before ++ .did e :: rest → A.Explains before e

section Steps
variable {A : Account K} {m m' : Motion K} {tr : List (Seen K)}

/- A step that neither samples nor shows. -/
theorem Holds.silent (h : A.Holds m tr) (htask : m'.task = m.task)
    (hfrom : m.pc ≠ .reset ∧ m.pc ≠ .readStart) (hto : m'.pc ≠ .reset ∧ m'.pc ≠ .readStart)
    (hcmd : ∀ v, m'.pc ≠ .command v) (hret : ∀ text, m'.pc ≠ .returning (.success, text))
    (hcancel : m'.pc ≠ .cancelMove) : A.Holds m' tr where
  unread hpc := absurd hpc (by simp [hto.1, hto.2])
  task _ _ := by
    rw [htask]
    exact h.task hfrom.1 hfrom.2
  command v hpc := absurd hpc (hcmd v)
  success text hpc := absurd hpc (hret text)
  cancel hpc := absurd hpc hcancel
  past := h.past

omit [Field K] in
theorem samples_did (tr : List (Seen K)) (e : MotionEvent K) :
    samples (tr ++ [.did e]) = samples tr := by
  rw [samples_append]
  exact List.append_nil _

/- A step that shows the event `e`. -/
theorem Holds.event {e : MotionEvent K} (h : A.Holds m tr) (htask : m'.task = m.task)
    (he : A.Explains tr e) (hread : m'.pc ≠ .reset ∧ (m'.pc = .readStart → m.pc = .reset))
    (hfrom : m'.pc ≠ .readStart → m.pc ≠ .reset ∧ m.pc ≠ .readStart)
    (hcmd : ∀ v, m'.pc ≠ .command v) (hret : ∀ text, m'.pc ≠ .returning (.success, text))
    (hcancel : m'.pc = .cancelMove → e = .polled true) : A.Holds m' (tr ++ [.did e]) where
  unread hpc := by
    rw [samples_did]
    rcases hpc with hpc | hpc
    · exact absurd hpc hread.1
    · exact h.unread (.inl (hread.2 hpc))
  task _ hpc := by
    rw [samples_did, htask]
    exact h.task (hfrom hpc).1 (hfrom hpc).2
  command v hpc := absurd hpc (hcmd v)
  success text hpc := absurd hpc (hret text)
  cancel hpc := by
    rw [hcancel hpc, List.getLast?_append]
    rfl
  past before e' rest hsplit := by
    rcases snoc_split hsplit with ⟨_, rfl, hx⟩ | ⟨rest', _, hsplit'⟩
    · cases hx
      exact he
    · exact h.past before e' rest' hsplit'

/- A step that takes a sample. -/
theorem Holds.sampled {pose : Pose K} (h : A.Holds m tr)
    (hto : m'.pc ≠ .reset ∧ m'.pc ≠ .readStart) (htask : A.task (samples tr ++ [pose]) m'.task)
    (hcmd : ∀ v, m'.pc = .command v → A.velocity (samples tr ++ [pose]) v)
    (hret : ∀ text, m'.pc = .returning (.success, text) → A.success (samples tr ++ [pose]))
    (hcancel : m'.pc ≠ .cancelMove) : A.Holds m' (tr ++ [.sampled pose]) := by
  have hs : samples (tr ++ [.sampled pose]) = samples tr ++ [pose] := samples_append ..
  constructor
  · intro hpc
    exact absurd hpc (by simp [hto.1, hto.2])
  · intro _ _
    rw [hs]
    exact ⟨by simp, htask⟩
  · intro v hpc
    rw [hs]
    exact hcmd v hpc
  · intro text hpc
    rw [hs]
    exact hret text hpc
  · intro hpc
    exact absurd hpc hcancel
  · intro before e rest hsplit
    rcases snoc_split hsplit with ⟨_, _, hx⟩ | ⟨rest', _, hsplit'⟩
    · cases hx
    · exact h.past before e rest' hsplit'

theorem explains_other {before : List (Seen K)} {e : MotionEvent K} (hmove : ∀ v, e ≠ .move v)
    (hret : ∀ r, e ≠ .returned r) : A.Explains before e :=
  ⟨fun v he => absurd he (hmove v), fun _ he => absurd he (hret _)⟩

end Steps

variable [LinearOrder K]

/-- What the first reading and each round have to give, for readings that meet `ok`. -/
structure Kept (A : Account K) (trig : Trig K) (request : Request K)
    (ok : List (Pose K) → Prop) : Prop where
  earlier : ∀ poses pose, ok (poses ++ [pose]) → ok poses
  start : ∀ pose, ok [pose] → A.task [pose] (request.start trig pose)
  round : ∀ poses task pids pose, pids.Tuned → poses ≠ [] → A.task poses task →
    ok (poses ++ [pose]) →
    A.task (poses ++ [pose]) (task.sample trig pids pose).1 ∧
    (∀ v, (task.sample trig pids pose).2.2 = some v → A.velocity (poses ++ [pose]) v) ∧
    ((task.sample trig pids pose).2.2 = none → A.success (poses ++ [pose]))

theorem next_holds {A : Account K} {trig : Trig K} {m : Motion K} {flag : Bool}
    {pids : Controllers K} {clock : K} {pose : Pose K} {o : Outcome K} {tr : List (Seen K)}
    {request : Request K} {ok : List (Pose K) → Prop} (hk : A.Kept trig request ok)
    (ho : m.next trig flag pids clock pose = some o) (ht : pids.Tuned)
    (hreq : m.request = request) (hok : ok (samples (tr ++ m.seen pose o))) (h : A.Holds m tr) :
    A.Holds o.motion (tr ++ m.seen pose o) := by
  have hcancelled : ∀ text, request.cancelled ≠ (.success, text) := by
    intro text
    cases request <;> simp [Request.cancelled]
  have htimed : ∀ text, request.timedOut ≠ (.success, text) := by
    intro text
    cases request <;> simp [Request.timedOut]
  cases hpc : m.pc with
  | reset =>
    simp only [Motion.next, hpc, Option.some.injEq] at ho
    subst ho
    simp only [Motion.seen, hpc, List.nil_append, Option.map_some, Option.toList_some]
    exact h.event rfl (explains_other (by simp) (by simp)) (by simp [hpc]) (by simp) (by simp)
      (by simp) (by simp)
  | readStart =>
    simp only [Motion.next, hpc, Option.some.injEq] at ho
    subst ho
    have hs := h.unread (.inr hpc)
    simp only [Motion.seen, hpc, Option.map_none, Option.toList_none, List.append_nil] at hok ⊢
    rw [samples_append, hs] at hok
    apply h.sampled (by simp) _ (by simp) (by simp) (by simp)
    rw [hs, hreq]
    exact hk.start pose hok
  | guard =>
    simp only [Motion.next, hpc, Option.some.injEq] at ho
    subst ho
    simp only [Motion.seen, hpc, Option.map_none, Option.toList_none, List.append_nil]
    by_cases hnow : m.now < m.endTime
    · simp only [if_pos hnow]
      exact h.silent rfl (by simp [hpc]) (by simp) (by simp) (by simp) (by simp)
    · simp only [if_neg hnow, hreq]
      exact h.silent rfl (by simp [hpc]) (by simp) (by simp) (by simpa using htimed) (by simp)
  | poll =>
    simp only [Motion.next, hpc, Option.some.injEq] at ho
    subst ho
    simp only [Motion.seen, hpc, List.nil_append, Option.map_some, Option.toList_some]
    cases flag with
    | false =>
      exact h.event rfl (explains_other (by simp) (by simp)) (by simp) (by simp [hpc]) (by simp)
        (by simp) (by simp)
    | true =>
      exact h.event rfl (explains_other (by simp) (by simp)) (by simp) (by simp [hpc]) (by simp)
        (by simp) (by simp)
  | cancelMove =>
    simp only [Motion.next, hpc, Option.some.injEq] at ho
    subst ho
    simp only [Motion.seen, hpc, List.nil_append, Option.map_some, Option.toList_some, hreq]
    have he : A.Explains tr (.move .zero) := by
      constructor
      · intro v hv
        cases hv
        exact .inl ⟨rfl, h.cancel hpc⟩
      · simp
    exact h.event rfl he (by simp) (by simp [hpc]) (by simp) (by simpa using hcancelled) (by simp)
  | readClock =>
    simp only [Motion.next, hpc, Option.some.injEq] at ho
    subst ho
    simp only [Motion.seen, hpc, Option.map_none, Option.toList_none, List.append_nil]
    exact h.silent rfl (by simp [hpc]) (by simp) (by simp) (by simp) (by simp)
  | sample =>
    simp only [Motion.next, hpc, Option.some.injEq] at ho
    subst ho
    obtain ⟨hne, htask⟩ := h.task (by simp [hpc]) (by simp [hpc])
    simp only [Motion.seen, hpc, Option.map_none, Option.toList_none, List.append_nil] at hok ⊢
    rw [samples_append] at hok
    obtain ⟨htask', hv, hend⟩ := hk.round _ _ pids pose ht hne htask hok
    cases hr : (m.task.sample trig pids pose).2.2 with
    | none => exact h.sampled (by simp) htask' (by simp) (fun _ _ => hend hr) (by simp)
    | some v =>
      apply h.sampled (by simp) htask' _ (by simp) (by simp)
      intro v' hv'
      cases hv'
      exact hv v hr
  | command v =>
    simp only [Motion.next, hpc, Option.some.injEq] at ho
    subst ho
    simp only [Motion.seen, hpc, List.nil_append, Option.map_some, Option.toList_some]
    have he : A.Explains tr (.move v) := by
      constructor
      · intro v' hv
        cases hv
        exact .inr (h.command v hpc)
      · simp
    exact h.event rfl he (by simp) (by simp [hpc]) (by simp) (by simp) (by simp)
  | sleep =>
    simp only [Motion.next, hpc, Option.some.injEq] at ho
    subst ho
    simp only [Motion.seen, hpc, Option.map_none, Option.toList_none, List.append_nil]
    exact h.silent rfl (by simp [hpc]) (by simp) (by simp) (by simp) (by simp)
  | returning r =>
    simp only [Motion.next, hpc, Option.some.injEq] at ho
    subst ho
    simp only [Motion.seen, hpc, List.nil_append, Option.map_some, Option.toList_some]
    have he : A.Explains tr (.returned r) := by
      constructor
      · simp
      · intro text hr
        cases hr
        exact h.success text hpc
    exact h.event rfl he (by simp) (by simp [hpc]) (by simp) (by simp) (by simp)
  | done => simp [Motion.next, hpc] at ho

end Account

variable [LinearOrder K]

theorem next_request {trig : Trig K} {m : Motion K} {flag : Bool} {pids : Controllers K}
    {clock : K} {pose : Pose K} {o : Outcome K} (h : m.next trig flag pids clock pose = some o) :
    o.motion.request = m.request := by
  cases hpc : m.pc <;> simp only [Motion.next, hpc, Option.some.injEq, reduceCtorEq] at h <;>
    subst h <;> rfl

namespace Server
variable [DecidableEq ι] [IsStrictOrderedRing K]

/- An account that its rounds keep holds along every schedule. -/
theorem account_holds {A : Account K} {trig : Trig K} {request : Request K}
    {ok : List (Pose K) → Prop} (hk : A.Kept trig request ok) (acts : List (Act ι K)) (i : ι)
    (m : Motion K) (hm : (after trig acts).motion i = some m) (hreq : m.request = request)
    (hok : ok (samples (watch trig i (init trig) acts))) :
    A.Holds m (watch trig i (init trig) acts) := by
  have hinv := watch_invariant (i := i) (fun _ _ => True)
    (fun m tr => m.request = request → ok (samples tr) → A.Holds m tr) ?_ ?_ acts
    (along_of_forall _ (fun _ => True) _ _ (by simp)) m hm
  · exact hinv hreq hok
  · intro request _ _
    exact ⟨fun _ => rfl, by simp [Motion.enter], by simp [Motion.enter], by simp [Motion.enter],
      by simp [Motion.enter], by simp⟩
  · intro s m o clock pose tr ht _ _ _ ho hp hreq' hok'
    have hreq0 : m.request = request := by rw [← next_request ho, hreq']
    have hok0 : ok (samples tr) := by
      have hsplit := hok'
      rw [samples_append] at hsplit
      have hnew : samples (m.seen pose o) = [pose] ∨ samples (m.seen pose o) = [] := by
        have hdid : samples (o.event.map .did).toList = [] := by
          cases o.event <;> rfl
        rw [Motion.seen, samples_append, hdid, List.append_nil]
        split
        · exact .inl rfl
        · exact .inl rfl
        · exact .inr rfl
      rcases hnew with hnew | hnew
      · rw [hnew] at hsplit
        exact hk.earlier _ _ hsplit
      · rw [hnew, List.append_nil] at hsplit
        exact hsplit
    exact Account.next_holds hk ho ht hreq0 hok' (hp hreq0 hok0)

end Server

end TypegoSdk.Control
