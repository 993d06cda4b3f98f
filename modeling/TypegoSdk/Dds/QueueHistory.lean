import TypegoSdk.Dds.BlockQueue
import Mathlib.Data.List.Perm.Basic
import Mathlib.Data.List.Infix

/-!
# What happens to the elements of a BlockQueue

Conservation and order over whole histories. `Effect` says once what a step
can do to the queue and to the log; the invariants are read off from it.
-/

namespace TypegoSdk.Dds
open TypegoSdk.Lib
variable {ι α : Type}

/-! ### The history -/

def puts (log : List (Event ι α)) : List α := log.filterMap fun
  | .put t _ _ _ => some t
  | _ => none

def delivered (log : List (Event ι α)) : List α := log.filterMap fun
  | .got _ t => some t
  | _ => none

/- Puts that returned false and stored nothing. -/
def rejected (log : List (Event ι α)) : List α := log.filterMap fun
  | .put t false false _ => some t
  | _ => none

/- Elements dropped by a Put that returned false and stored its own. -/
def evicted (log : List (Event ι α)) : List α := log.filterMap fun
  | .put _ _ _ e => e
  | _ => none

theorem puts_append (a b : List (Event ι α)) : puts (a ++ b) = puts a ++ puts b :=
  List.filterMap_append
theorem delivered_append (a b : List (Event ι α)) :
    delivered (a ++ b) = delivered a ++ delivered b := List.filterMap_append
theorem rejected_append (a b : List (Event ι α)) :
    rejected (a ++ b) = rejected a ++ rejected b := List.filterMap_append
theorem evicted_append (a b : List (Event ι α)) :
    evicted (a ++ b) = evicted a ++ evicted b := List.filterMap_append

/- The element, the `replace` flag and the result of each Put. -/
def putEvents (log : List (Event ι α)) : List (α × Bool × Bool) := log.filterMap fun
  | .put t replace result _ => some (t, replace, result)
  | _ => none

theorem putEvents_append (a b : List (Event ι α)) : putEvents (a ++ b) = putEvents a ++ putEvents b :=
  List.filterMap_append

/-! ### What a step does -/

/- `flags` are the flag combinations that Put is called with. -/
inductive Effect (flags : Bool → Bool → Prop) (q : BlockQueue α) :
    BlockQueue α → List (Event ι α) → Prop
  | stay : Effect flags q q []
  | fail (w : Waiter ι) : Effect flags q q [.failed w]
  | interrupt : Effect flags q q [.interrupt]
  | got (tid : ι) (t : α) (rest : List α) (h : q.queue = t :: rest) :
      Effect flags q q.popFront [.got tid t]
  | accept (t : α) (replace putfront : Bool) (h : flags replace putfront)
      (hf : ¬q.curSize ≥ q.maxSize) :
      Effect flags q (q.emplace t putfront) [.put t replace true none]
  | reject (t : α) (putfront : Bool) (h : flags false putfront) (hf : q.curSize ≥ q.maxSize) :
      Effect flags q q [.put t false false none]
  | evict (t : α) (putfront : Bool) (h : flags true putfront) (hf : q.curSize ≥ q.maxSize) :
      Effect flags q (q.popFront.emplace t putfront) [.put t true false q.queue.head?]

namespace Sys

@[simp] theorem notify_q (s : Sys ι α) (pick : ℕ) : (s.notify pick).q = s.q := by
  unfold notify
  split <;> rfl

@[simp] theorem notify_log (s : Sys ι α) (pick : ℕ) : (s.notify pick).log = s.log := by
  unfold notify
  split <;> rfl

theorem put_q (s : Sys ι α) (t : α) (replace putfront : Bool) (pick : ℕ) :
    (s.put t replace putfront pick).q = (s.q.put t replace putfront).1 := by
  simp only [put]
  split
  · rfl
  · exact notify_q _ pick

theorem put_log (s : Sys ι α) (t : α) (replace putfront : Bool) (pick : ℕ) :
    (s.put t replace putfront pick).log =
      s.log ++ [.put t replace (s.q.put t replace putfront).2
        (if (s.q.put t replace putfront).2 || !replace then none else s.q.queue.head?)] := by
  simp only [put]
  split
  · rfl
  · exact notify_log _ pick

theorem put_effect (flags : Bool → Bool → Prop) (s : Sys ι α) (t : α) (replace putfront : Bool)
    (pick : ℕ) (h : flags replace putfront) :
    ∃ es, Effect flags s.q (s.put t replace putfront pick).q es ∧
      (s.put t replace putfront pick).log = s.log ++ es := by
  rw [put_q, put_log]
  by_cases hf : s.q.curSize ≥ s.q.maxSize
  · cases replace with
    | false =>
      have hput : s.q.put t false putfront = (s.q, false) := if_pos hf
      rw [hput]
      exact ⟨_, .reject t putfront h hf, rfl⟩
    | true =>
      have hput : s.q.put t true putfront = (s.q.popFront.emplace t putfront, false) := if_pos hf
      rw [hput]
      exact ⟨_, .evict t putfront h hf, rfl⟩
  · have hput : s.q.put t replace putfront = (s.q.emplace t putfront, true) := if_neg hf
    rw [hput]
    exact ⟨_, .accept t replace putfront h hf, rfl⟩

theorem take_effect (flags : Bool → Bool → Prop) (s : Sys ι α) (w : Waiter ι) :
    ∃ es, Effect flags s.q (s.take w).q es ∧ (s.take w).log = s.log ++ es := by
  unfold take
  split
  · exact ⟨_, .fail w, rfl⟩
  · rename_i t rest hq
    exact ⟨_, .got w.tid t rest hq, rfl⟩

theorem interrupt_effect (flags : Bool → Bool → Prop) (s : Sys ι α) (all : Bool) (pick : ℕ) :
    ∃ es, Effect flags s.q (s.interrupt all pick).q es ∧
      (s.interrupt all pick).log = s.log ++ es := by
  have hq : (s.interrupt all pick).q = s.q := by
    cases all <;> simp [interrupt, notifyAll, record]
  rw [hq]
  refine ⟨_, .interrupt, ?_⟩
  cases all <;> simp [interrupt, notifyAll, record]

variable [DecidableEq ι]

theorem step_effect (flags : Bool → Bool → Prop) (s s' : Sys ι α) (a : Act ι α)
    (hf : ∀ t r f p, a = .put t r f p → flags r f) (h : s.step a = some s') :
    ∃ es, Effect flags s.q s'.q es ∧ s'.log = s.log ++ es := by
  cases a with
  | put t replace putfront pick =>
    cases h
    exact put_effect flags s t replace putfront pick (hf t replace putfront pick rfl)
  | get tid microsec =>
    obtain ⟨_, ⟨_, rfl⟩ | ⟨_, rfl⟩⟩ := get_inv h
    · exact ⟨[], .stay, (List.append_nil _).symm⟩
    · exact take_effect flags s _
  | resume tid =>
    obtain ⟨w, _, rfl⟩ := resume_inv h
    exact take_effect flags {s with woken := s.woken.eraseP (fun w => w.tid = tid)} w
  | timeout tid =>
    obtain ⟨w, _, rfl⟩ := timeout_inv h
    exact ⟨_, .fail w, rfl⟩
  | interrupt all pick =>
    cases h
    exact interrupt_effect flags s all pick

end Sys

/-! ### Conservation -/

theorem Effect.valid {flags : Bool → Bool → Prop} {q q' : BlockQueue α} {es : List (Event ι α)}
    (h : Effect flags q q' es) (hv : q.Valid) : q'.Valid := by
  cases h with
  | stay | fail | interrupt | reject => exact hv
  | got tid t rest hq => exact (q.popFront_valid hv (by rw [hq]; simp)).1
  | accept t replace putfront _ hf =>
    have hb := hv.bound
    have hne := mt (q.full_iff hv).mpr hf
    exact q.emplace_valid t putfront hv (by omega)
  | evict t putfront _ hf =>
    obtain ⟨hp, hl⟩ := q.popFront_valid hv (q.ne_nil_of_full hv hf)
    have hb := hv.bound
    have hm : q.popFront.maxSize = q.maxSize := rfl
    exact q.popFront.emplace_valid t putfront hp (by rw [hm]; omega)

theorem count_emplace [DecidableEq α] (q : BlockQueue α) (t : α) (putfront : Bool) (x : α) :
    (q.emplace t putfront).queue.count x = q.queue.count x + [t].count x := by
  cases putfront
  · simp [BlockQueue.emplace, List.count_append]
  · simp [BlockQueue.emplace, List.count_cons]

/- Where the copies of `x` that were put are now. -/
def Accounts [DecidableEq α] (x : α) (q : BlockQueue α) (log : List (Event ι α)) : Prop :=
  (delivered log).count x + q.queue.count x + (rejected log).count x + (evicted log).count x =
    (puts log).count x

theorem Effect.accounts [DecidableEq α] {flags : Bool → Bool → Prop} {q q' : BlockQueue α}
    {es log : List (Event ι α)} (h : Effect flags q q' es) (hv : q.Valid) (x : α)
    (ha : Accounts x q log) : Accounts x q' (log ++ es) := by
  unfold Accounts at ha ⊢
  rw [delivered_append, rejected_append, evicted_append, puts_append]
  simp only [List.count_append]
  cases h with
  | stay | fail | interrupt => exact ha
  | got tid t rest hq =>
    simp only [BlockQueue.popFront, hq, List.tail_cons, delivered, rejected, evicted, puts,
      List.filterMap_cons, List.filterMap_nil, List.count_nil, List.count_cons] at ha ⊢
    omega
  | accept t replace putfront _ hf =>
    rw [count_emplace]
    cases replace <;>
      simp only [delivered, rejected, evicted, puts, List.filterMap_cons, List.filterMap_nil,
        List.count_nil] at ha ⊢ <;> omega
  | reject t putfront _ hf =>
    simp only [delivered, rejected, evicted, puts, List.filterMap_cons, List.filterMap_nil,
      List.count_nil] at ha ⊢
    omega
  | evict t putfront _ hf =>
    obtain ⟨old, rest, hq⟩ := List.exists_cons_of_ne_nil (q.ne_nil_of_full hv hf)
    rw [count_emplace]
    simp only [BlockQueue.popFront, hq, List.tail_cons, List.head?_cons, delivered, rejected,
      evicted, puts, List.filterMap_cons, List.filterMap_nil, List.count_nil,
      List.count_cons] at ha ⊢
    omega

/- An eviction is the work of a Put that returned false, and hits an element
that an earlier Put stored. -/
def EvictsEarlier (log : List (Event ι α)) : Prop :=
  ∀ pre t replace result old, (pre ++ [.put t replace result (some old)]) <+: log →
    replace = true ∧ result = false ∧ old ∈ puts pre

theorem Accounts.mem_puts [DecidableEq α] {x : α} {q : BlockQueue α} {log : List (Event ι α)}
    (h : Accounts x q log) (hx : x ∈ q.queue) : x ∈ puts log := by
  have hc := List.count_pos_iff.mpr hx
  unfold Accounts at h
  exact List.count_pos_iff.mp (by omega)

theorem evictsEarlier_snoc {log : List (Event ι α)} {e : Event ι α} (hl : EvictsEarlier log)
    (he : ∀ t replace result old, e = .put t replace result (some old) →
      replace = true ∧ result = false ∧ old ∈ puts log) : EvictsEarlier (log ++ [e]) := by
  intro pre t replace result old hp
  rcases List.prefix_concat_iff.mp hp with hp | hp
  · obtain ⟨rfl, hs⟩ := List.append_inj' hp rfl
    exact he t replace result old (List.singleton_inj.mp hs).symm
  · exact hl pre t replace result old hp

theorem Effect.evictsEarlier [DecidableEq α] {flags : Bool → Bool → Prop} {q q' : BlockQueue α}
    {es log : List (Event ι α)} (h : Effect flags q q' es) (ha : ∀ x, Accounts x q log)
    (hl : EvictsEarlier log) : EvictsEarlier (log ++ es) := by
  cases h with
  | stay => simpa using hl
  | fail w => exact evictsEarlier_snoc hl (by simp)
  | interrupt => exact evictsEarlier_snoc hl (by simp)
  | got tid t rest hq => exact evictsEarlier_snoc hl (by simp)
  | accept t replace putfront _ hf => exact evictsEarlier_snoc hl (by simp)
  | reject t putfront _ hf => exact evictsEarlier_snoc hl (by simp)
  | evict t putfront _ hf =>
    apply evictsEarlier_snoc hl
    intro t' replace result old he
    simp only [Event.put.injEq] at he
    exact ⟨he.2.1.symm, he.2.2.1.symm, (ha old).mem_puts (List.mem_of_mem_head? he.2.2.2)⟩

/-! ### Order, for the flags of the DDS listener -/

def ListenerFlags (replace putfront : Bool) : Prop := replace = true ∧ putfront = false

/- The queue is the end of the put sequence, and what was delivered comes
before it in the same order. -/
def Fifo (q : BlockQueue α) (log : List (Event ι α)) : Prop :=
  q.queue <:+ puts log ∧ (delivered log ++ q.queue).Sublist (puts log)

theorem fifo_emplace {q : BlockQueue α} {log : List (Event ι α)} (h : Fifo q log) (t : α)
    (replace result : Bool) (e : Option α) :
    Fifo (q.emplace t false) (log ++ [.put t replace result e]) := by
  have hp : puts [(.put t replace result e : Event ι α)] = [t] := rfl
  have hd : delivered [(.put t replace result e : Event ι α)] = [] := rfl
  have hq : (q.emplace t false).queue = q.queue ++ [t] := rfl
  refine ⟨?_, ?_⟩
  · obtain ⟨before, hb⟩ := h.1
    rw [puts_append, hp, hq, ← hb]
    exact ⟨before, by simp⟩
  · rw [puts_append, delivered_append, hp, hd, hq, List.append_nil, ← List.append_assoc]
    exact h.2.append (List.Sublist.refl _)

theorem fifo_other {q : BlockQueue α} {log : List (Event ι α)} (h : Fifo q log) (e : Event ι α)
    (hp : puts [e] = []) (hd : delivered [e] = []) : Fifo q (log ++ [e]) := by
  unfold Fifo
  rw [puts_append, delivered_append, hp, hd, List.append_nil, List.append_nil]
  exact h

theorem Effect.fifo {q q' : BlockQueue α} {es log : List (Event ι α)}
    (h : Effect ListenerFlags q q' es) (hv : q.Valid) (hf : Fifo q log) : Fifo q' (log ++ es) := by
  cases h with
  | stay => simpa using hf
  | fail w => exact fifo_other hf _ rfl rfl
  | interrupt => exact fifo_other hf _ rfl rfl
  | got tid t rest hq =>
    have hp : puts [(.got tid t : Event ι α)] = [] := rfl
    have hd : delivered [(.got tid t : Event ι α)] = [t] := rfl
    have hpop : q.popFront.queue = rest := by simp only [BlockQueue.popFront, hq, List.tail_cons]
    unfold Fifo at hf ⊢
    rw [hq] at hf
    rw [puts_append, delivered_append, hp, hd, hpop, List.append_nil]
    refine ⟨(List.suffix_cons t rest).trans hf.1, ?_⟩
    simpa using hf.2
  | accept t replace putfront hflag _ =>
    rw [hflag.2]
    exact fifo_emplace hf t _ _ _
  | reject t putfront hflag _ => exact absurd hflag.1 (by decide)
  | evict t putfront hflag hfull =>
    obtain ⟨old, rest, hq⟩ := List.exists_cons_of_ne_nil (q.ne_nil_of_full hv hfull)
    have hpop : q.popFront.queue = rest := by simp only [BlockQueue.popFront, hq, List.tail_cons]
    have hs : Fifo q.popFront log := by
      unfold Fifo at hf ⊢
      rw [hq] at hf
      rw [hpop]
      exact ⟨(List.suffix_cons old rest).trans hf.1,
        ((List.sublist_cons_self old rest).append_left (delivered log)).trans hf.2⟩
    rw [hflag.2]
    exact fifo_emplace hs t _ _ _

theorem put_getLast (q : BlockQueue α) (t : α) :
    (q.put t true false).1.queue.getLast? = some t := by
  unfold BlockQueue.put
  split <;> simp [BlockQueue.emplace]

/-! ### Whole runs -/

section Runs
variable [DecidableEq ι]

/-- The invariant of every history. -/
structure History [DecidableEq α] (s : Sys ι α) : Prop where
  valid : s.q.Valid
  accounts : ∀ x, Accounts x s.q s.log
  evicts : EvictsEarlier s.log

theorem exec_history [DecidableEq α] (maxSize : UInt64) (acts : List (Act ι α)) :
    History (Sys.after maxSize acts) := by
  apply exec_invariant Sys.step History
  · intro s a s' h hs
    obtain ⟨es, he, hlog⟩ := Sys.step_effect (fun _ _ => True) s s' a (fun _ _ _ _ _ => trivial) hs
    refine ⟨he.valid h.valid, ?_, ?_⟩
    · intro x
      rw [hlog]
      exact he.accounts h.valid x (h.accounts x)
    · rw [hlog]
      exact he.evictsEarlier h.accounts h.evicts
  · refine ⟨BlockQueue.create_valid maxSize, fun x => rfl, ?_⟩
    intro pre t replace result old hp
    have hn := List.prefix_nil.mp hp
    simp at hn

/- The Puts of a schedule, each with what `BlockQueue::Put` returns in its state. -/
def putsMade : Sys ι α → List (Act ι α) → List (α × Bool × Bool)
  | _, [] => []
  | s, .put t replace putfront pick :: acts =>
    (t, replace, (s.q.put t replace putfront).2) ::
      putsMade (advance Sys.step s (.put t replace putfront pick)) acts
  | s, a :: acts => putsMade (advance Sys.step s a) acts

theorem putsMade_other {s : Sys ι α} {a : Act ι α} (hput : ∀ t r f p, a ≠ .put t r f p)
    (acts : List (Act ι α)) : putsMade s (a :: acts) = putsMade (advance Sys.step s a) acts := by
  rw [putsMade]
  exact hput

omit [DecidableEq ι] in
theorem take_putEvents (s : Sys ι α) (w : Waiter ι) : putEvents (s.take w).log = putEvents s.log := by
  unfold Sys.take
  split
  · exact (putEvents_append s.log _).trans (List.append_nil _)
  · exact (putEvents_append s.log _).trans (List.append_nil _)

omit [DecidableEq ι] in
theorem interrupt_putEvents (s : Sys ι α) (all : Bool) (pick : ℕ) :
    putEvents (s.interrupt all pick).log = putEvents s.log := by
  have hlog : (s.interrupt all pick).log = s.log ++ [.interrupt] := by
    cases all <;> simp [Sys.interrupt, Sys.notifyAll, Sys.record]
  rw [hlog]
  exact (putEvents_append s.log _).trans (List.append_nil _)

/- Only a Put records a Put. -/
theorem step_putEvents {s s' : Sys ι α} {a : Act ι α} (hput : ∀ t r f p, a ≠ .put t r f p)
    (h : s.step a = some s') : putEvents s'.log = putEvents s.log := by
  cases a with
  | put t replace putfront pick => exact absurd rfl (hput t replace putfront pick)
  | get tid microsec =>
    obtain ⟨-, ⟨-, rfl⟩ | ⟨-, rfl⟩⟩ := Sys.get_inv h
    · rfl
    · exact take_putEvents s _
  | resume tid =>
    obtain ⟨w, -, rfl⟩ := Sys.resume_inv h
    exact take_putEvents {s with woken := s.woken.eraseP (fun w => w.tid = tid)} w
  | timeout tid =>
    obtain ⟨w, -, rfl⟩ := Sys.timeout_inv h
    exact (putEvents_append s.log _).trans (List.append_nil _)
  | interrupt all pick =>
    cases h
    exact interrupt_putEvents s all pick

theorem advance_putEvents {s : Sys ι α} {a : Act ι α} (hput : ∀ t r f p, a ≠ .put t r f p) :
    putEvents (advance Sys.step s a).log = putEvents s.log := by
  cases h : s.step a with
  | none => rw [advance_none Sys.step h]
  | some s' =>
    rw [advance_some Sys.step h]
    exact step_putEvents hput h

theorem exec_putEvents (s : Sys ι α) (acts : List (Act ι α)) :
    putEvents (exec Sys.step s acts).log = putEvents s.log ++ putsMade s acts := by
  induction acts generalizing s with
  | nil => simp [putsMade]
  | cons a acts ih =>
    rw [exec_cons, ih]
    cases a with
    | put t replace putfront pick =>
      have hlog : (advance Sys.step s (.put t replace putfront pick)).log =
          s.log ++ [.put t replace (s.q.put t replace putfront).2
            (if (s.q.put t replace putfront).2 || !replace then none else s.q.queue.head?)] :=
        s.put_log t replace putfront pick
      rw [hlog, putEvents_append, putsMade, List.append_assoc]
      rfl
    | get tid microsec => rw [advance_putEvents (by simp), putsMade_other (by simp)]
    | resume tid => rw [advance_putEvents (by simp), putsMade_other (by simp)]
    | timeout tid => rw [advance_putEvents (by simp), putsMade_other (by simp)]
    | interrupt all pick => rw [advance_putEvents (by simp), putsMade_other (by simp)]

theorem exec_fifo (maxSize : UInt64) (acts : List (Act ι α))
    (hf : ∀ a ∈ acts, ∀ t r f p, a = .put t r f p → ListenerFlags r f) :
    Fifo (Sys.after maxSize acts).q (Sys.after maxSize acts).log := by
  have hi := exec_invariant_along Sys.step
    (fun _ (a : Act ι α) => ∀ t r f p, a = .put t r f p → ListenerFlags r f)
    (fun s => s.q.Valid ∧ Fifo s.q s.log)
    (by
      intro s a s' h hok hs
      obtain ⟨es, he, hlog⟩ := Sys.step_effect ListenerFlags s s' a hok hs
      rw [hlog]
      exact ⟨he.valid h.1, he.fifo h.1 h.2⟩)
    (Sys.init maxSize) ⟨BlockQueue.create_valid maxSize, by simp [Fifo, Sys.init, BlockQueue.create,
      puts, delivered]⟩ acts (along_of_forall Sys.step _ _ acts hf)
  exact hi.2

/-- Over every run: the counter is the length and within the bound, Put
returns false exactly on a full queue, the Puts of the log are those of the run with
their results, every put element is delivered, queued,
rejected or evicted exactly once, evictions are made by later Puts that return
false; and with the flags of the DDS listener the queue is first in, first
out, a suffix of the put sequence, and a Put never evicts its own element. -/
theorem blockQueue_history (maxSize : UInt64) (acts : List (Act ι α)) :
    ((Sys.after maxSize acts).q.curSize.toNat = (Sys.after maxSize acts).q.queue.length ∧
      (Sys.after maxSize acts).q.queue.length ≤ (Sys.after maxSize acts).q.maxSize.toNat) ∧
    (∀ t replace putfront, ((Sys.after maxSize acts).q.put t replace putfront).2 = false ↔
      (Sys.after maxSize acts).q.queue.length = (Sys.after maxSize acts).q.maxSize.toNat) ∧
    putEvents (Sys.after maxSize acts).log = putsMade (Sys.init maxSize) acts ∧
    (delivered (Sys.after maxSize acts).log ++ (Sys.after maxSize acts).q.queue ++
        rejected (Sys.after maxSize acts).log ++ evicted (Sys.after maxSize acts).log).Perm
      (puts (Sys.after maxSize acts).log) ∧
    EvictsEarlier (Sys.after maxSize acts).log ∧
    ((∀ t replace putfront pick, .put t replace putfront pick ∈ acts →
        replace = true ∧ putfront = false) →
      (delivered (Sys.after maxSize acts).log).Sublist (puts (Sys.after maxSize acts).log) ∧
        (Sys.after maxSize acts).q.queue <:+ puts (Sys.after maxSize acts).log ∧
        ∀ t, ((Sys.after maxSize acts).q.put t true false).1.queue.getLast? = some t) := by
  classical
  have h := exec_history maxSize acts
  refine ⟨⟨h.valid.count, h.valid.bound⟩, ?_, exec_putEvents (Sys.init maxSize) acts, ?_, h.evicts, ?_⟩
  · intro t replace putfront
    exact BlockQueue.put_result _ t replace putfront h.valid
  · rw [List.perm_iff_count]
    intro x
    have hx := h.accounts x
    unfold Accounts at hx
    simpa only [List.count_append] using hx
  · intro hflags
    have hf := exec_fifo maxSize acts (by
      intro a ha t r f p he
      subst he
      exact hflags t r f p ha)
    exact ⟨(List.sublist_append_left _ _).trans hf.2, hf.1, fun t => put_getLast _ t⟩

/- A queue of one element: the first is delivered, the second evicted by the third, and
the fourth rejected. -/
def smallRun : List (Act ℕ Char) :=
  [.put 'a' true false 0, .get 0 0, .put 'b' true false 0, .put 'c' true false 0,
    .put 'd' false false 0]

theorem blockQueue_history_small :
    putEvents (Sys.after 1 smallRun).log =
      [('a', true, true), ('b', true, true), ('c', true, false), ('d', false, false)] ∧
    (['a'] ++ ['c'] ++ ['d'] ++ ['b']).Perm (puts (Sys.after 1 smallRun).log) ∧
    (Sys.after 1 smallRun).q.queue = ['c'] := by
  obtain ⟨-, -, hputs, hperm, -⟩ := blockQueue_history 1 smallRun
  refine ⟨hputs.trans (by decide), hperm, by decide⟩

end Runs

end TypegoSdk.Dds
