import TypegoSdk.Dds.QueueHistory
import Mathlib.Data.List.Nodup

/-!
# Blocking Gets of a BlockQueue

`GetTimeout` waits once and tests the queue once more. A Get with `microsec`
zero that a Put has woken finds the queue empty when another consumer has
taken the element before it runs again, and then returns false although no
Interrupt was called. `owed` counts the woken Gets that rely on an element;
the queue must keep one for each of them.
-/

namespace TypegoSdk.Dds
open TypegoSdk.Lib
variable {ι α : Type}

/- A Get without timeout that no Interrupt has met: it may not fail. -/
def Waiter.Blocking (w : Waiter ι) : Prop := w.microsec = 0 ∧ w.interrupted = false

instance (w : Waiter ι) : Decidable w.Blocking := inferInstanceAs (Decidable (_ ∧ _))

namespace Sys

/- No Get with `microsec` zero has returned false (or thrown) without an
Interrupt since it began. -/
def Sound (s : Sys ι α) : Prop := ∀ w, .failed w ∈ s.log → w.microsec = 0 → w.interrupted = true

def owed (s : Sys ι α) : ℕ := s.woken.countP fun w => w.Blocking

/- The waiter the next notify wakes. -/
def chosen (s : Sys ι α) (pick : ℕ) : Option (Waiter ι) := s.blocked[pick % s.blocked.length]?

theorem notify_woken (s : Sys ι α) (pick : ℕ) :
    (s.notify pick).woken = s.woken ++ (s.chosen pick).toList := by
  unfold notify chosen
  split <;> rename_i h <;> simp [h]

theorem notify_perm (s : Sys ι α) (pick : ℕ) :
    ((s.notify pick).blocked ++ (s.notify pick).woken).Perm (s.blocked ++ s.woken) := by
  unfold notify
  split
  · exact List.Perm.refl _
  · rename_i w hw
    obtain ⟨hlt, hget⟩ := List.getElem?_eq_some_iff.mp hw
    have hp := List.getElem_cons_eraseIdx_perm hlt
    rw [hget] at hp
    have hm : (s.blocked.eraseIdx (pick % s.blocked.length) ++ (s.woken ++ [w])).Perm
        (w :: s.blocked.eraseIdx (pick % s.blocked.length) ++ s.woken) := by
      rw [← List.append_assoc]
      exact List.perm_append_singleton w _
    exact hm.trans (hp.append_right s.woken)

theorem owed_notify (s : Sys ι α) (pick : ℕ) :
    (s.notify pick).owed = s.owed + (s.chosen pick).toList.countP fun w => w.Blocking := by
  rw [owed, notify_woken, List.countP_append, owed]

theorem owed_marked (ws : List (Waiter ι)) : (markInterrupted ws).countP (fun w => w.Blocking) = 0 := by
  rw [List.countP_eq_zero]
  intro w hw
  obtain ⟨v, _, rfl⟩ := List.mem_map.mp hw
  simp [Waiter.Blocking]

theorem owed_interrupt (s : Sys ι α) (all : Bool) (pick : ℕ) : (s.interrupt all pick).owed = 0 := by
  have hmem : ∀ w ∈ (s.interrupt all pick).woken,
      w ∈ markInterrupted s.blocked ∨ w ∈ markInterrupted s.woken := by
    intro w hw
    cases all with
    | true =>
      simp only [interrupt, if_true, notifyAll, record, List.mem_append] at hw
      exact hw.symm
    | false =>
      simp only [interrupt, Bool.false_eq_true, if_false, notify_woken, record,
        List.mem_append, Option.mem_toList] at hw
      rcases hw with hw | hw
      · exact .inr hw
      · exact .inl (List.mem_of_getElem? hw)
  unfold owed
  rw [List.countP_eq_zero]
  intro w hw
  rcases hmem w hw with h | h
  · exact List.countP_eq_zero.mp (owed_marked s.blocked) w h
  · exact List.countP_eq_zero.mp (owed_marked s.woken) w h

/- Removing the waiter that `find?` gives. -/
theorem find_eraseP {p : Waiter ι → Bool} {ws : List (Waiter ι)} {w : Waiter ι}
    (h : ws.find? p = some w) : ws.Perm (w :: ws.eraseP p) := by
  obtain ⟨hp, as, bs, rfl, hn⟩ := List.find?_eq_some_iff_append.mp h
  have hn' : ∀ a ∈ as, ¬p a = true := by
    intro a ha hpa
    simpa [hpa] using hn a ha
  rw [List.eraseP_append_right _ hn', List.eraseP_cons_of_pos hp]
  exact List.perm_middle

theorem erased_owed {p : Waiter ι → Bool} {ws : List (Waiter ι)} {w : Waiter ι}
    (h : ws.find? p = some w) :
    ws.countP (fun w => w.Blocking) =
      (ws.eraseP p).countP (fun w => w.Blocking) + if w.Blocking then 1 else 0 := by
  rw [(find_eraseP h).countP_eq, List.countP_cons]
  simp only [decide_eq_true_eq]

/-! ### Taking and putting -/

theorem take_owed (s : Sys ι α) (w : Waiter ι) : (s.take w).owed = s.owed := by
  unfold take
  split <;> rfl

theorem take_length (s : Sys ι α) (w : Waiter ι) :
    (s.take w).q.queue.length = s.q.queue.length - 1 := by
  unfold take
  split
  · rename_i hq
    show s.q.queue.length = s.q.queue.length - 1
    rw [hq]
    rfl
  · exact List.length_tail

theorem Sound.snoc {s s' : Sys ι α} (h : s.Sound) (e : Event ι α) (hl : s'.log = s.log ++ [e])
    (he : ∀ w, e = .failed w → ¬w.Blocking) : s'.Sound := by
  intro w hw h0
  rw [hl, List.mem_append, List.mem_singleton] at hw
  rcases hw with hw | hw
  · exact h w hw h0
  · have hb := he w hw.symm
    simpa [Waiter.Blocking, h0] using hb

theorem take_sound (s : Sys ι α) (w : Waiter ι) (h : s.Sound)
    (hw : s.q.queue = [] → ¬w.Blocking) : (s.take w).Sound := by
  unfold take
  split
  · rename_i hq
    refine h.snoc (.failed w) rfl ?_
    intro v hv
    cases hv
    exact hw hq
  · exact h.snoc (.got w.tid _) rfl (by simp)

/- A rejected Put changes neither side; the others wake at most one Get, and
only an accepted one adds an element. -/
theorem put_rejected (s : Sys ι α) (t : α) (putfront : Bool) (pick : ℕ)
    (hf : s.q.curSize ≥ s.q.maxSize) :
    (s.put t false putfront pick).owed = s.owed ∧
      (s.put t false putfront pick).q.queue = s.q.queue := by
  simp [put, BlockQueue.put, hf, record, owed]

theorem put_evicting (s : Sys ι α) (t : α) (putfront : Bool) (pick : ℕ) (hv : s.q.Valid)
    (hf : s.q.curSize ≥ s.q.maxSize) :
    (s.put t true putfront pick).owed =
        s.owed + (s.chosen pick).toList.countP (fun w => w.Blocking) ∧
      (s.put t true putfront pick).q.queue.length = s.q.queue.length := by
  have hp : s.put t true putfront pick =
      ({s with q := s.q.popFront.emplace t putfront}.record
        (.put t true false s.q.queue.head?)).notify pick := by
    simp [put, BlockQueue.put, hf]
  rw [hp, owed_notify, notify_q]
  refine ⟨rfl, ?_⟩
  have hl := (s.q.popFront_valid hv (s.q.ne_nil_of_full hv hf)).2
  exact (BlockQueue.emplace_length _ t putfront).trans hl

theorem put_accepted (s : Sys ι α) (t : α) (replace putfront : Bool) (pick : ℕ)
    (hf : ¬s.q.curSize ≥ s.q.maxSize) :
    (s.put t replace putfront pick).owed =
        s.owed + (s.chosen pick).toList.countP (fun w => w.Blocking) ∧
      (s.put t replace putfront pick).q.queue.length = s.q.queue.length + 1 := by
  have hp : s.put t replace putfront pick =
      ({s with q := s.q.emplace t putfront}.record (.put t replace true none)).notify pick := by
    simp [put, BlockQueue.put, hf]
  rw [hp, owed_notify, notify_q]
  exact ⟨rfl, BlockQueue.emplace_length _ t putfront⟩

theorem chosen_count (s : Sys ι α) (pick : ℕ) :
    (s.chosen pick).toList.countP (fun w => w.Blocking) ≤ 1 := by
  refine List.countP_le_length.trans ?_
  cases s.chosen pick <;> simp

variable [DecidableEq ι]

/-! ### The condition on a step -/

/- The elements of the queue are not all spoken for. -/
def Spare (s : Sys ι α) : Prop := s.owed < s.q.queue.length

/- A step that takes an element, or wakes a blocking Get without adding one,
needs a spare element; a woken blocking Get takes its own. -/
def KeepsOwed (s : Sys ι α) : Act ι α → Prop
  | .get _ _ => s.q.queue ≠ [] → s.Spare
  | .resume tid => ∀ w, s.woken.find? (fun w => w.tid = tid) = some w → ¬w.Blocking →
      s.q.queue ≠ [] → s.Spare
  | .put _ replace _ pick => s.q.curSize ≥ s.q.maxSize → replace = true →
      ∀ w, s.chosen pick = some w → w.Blocking → s.Spare
  | .timeout _ => True
  | .interrupt _ _ => True

/-- The invariant: the queue holds an element for every woken blocking Get. -/
structure Provided (s : Sys ι α) : Prop where
  valid : s.q.Valid
  enough : s.owed ≤ s.q.queue.length
  sound : s.Sound

theorem put_provided (s : Sys ι α) (t : α) (replace putfront : Bool) (pick : ℕ)
    (h : s.Provided) (hok : s.KeepsOwed (.put t replace putfront pick)) :
    (s.put t replace putfront pick).owed ≤ (s.put t replace putfront pick).q.queue.length := by
  have hn := h.enough
  have hc := s.chosen_count pick
  by_cases hf : s.q.curSize ≥ s.q.maxSize
  · cases replace with
    | false =>
      obtain ⟨ho, hq⟩ := s.put_rejected t putfront pick hf
      rw [ho, hq]
      exact hn
    | true =>
      obtain ⟨ho, hq⟩ := s.put_evicting t putfront pick h.valid hf
      rw [ho, hq]
      -- only a woken blocking Get needs one of the elements that stay
      cases hw : s.chosen pick with
      | none => simpa using hn
      | some w =>
        by_cases hb : w.Blocking
        · have hs := hok hf rfl w hw hb
          unfold Spare at hs
          rw [hw] at hc
          omega
        · simpa [hb] using hn
  · obtain ⟨ho, hq⟩ := s.put_accepted t replace putfront pick hf
    omega

theorem resume_provided (s : Sys ι α) (tid : ι) (w : Waiter ι) (h : s.Provided)
    (hw : s.woken.find? (fun w => w.tid = tid) = some w) (hok : s.KeepsOwed (.resume tid)) :
    let s' := {s with woken := s.woken.eraseP (fun w => w.tid = tid)}.take w
    s'.owed ≤ s'.q.queue.length ∧ s'.Sound := by
  have hn := h.enough
  have he : s.owed = (s.woken.eraseP (fun w => w.tid = tid)).countP (fun w => w.Blocking) +
      if w.Blocking then 1 else 0 := erased_owed hw
  refine ⟨?_, ?_⟩
  · rw [take_owed, take_length]
    show (s.woken.eraseP _).countP (fun w => w.Blocking) ≤ s.q.queue.length - 1
    by_cases hb : w.Blocking
    · rw [if_pos hb] at he
      omega
    · rw [if_neg hb] at he
      by_cases hq : s.q.queue = []
      · rw [hq, List.length_nil] at hn ⊢
        omega
      · have hs := hok w hw hb hq
        unfold Spare at hs
        omega
  · refine take_sound _ w h.sound ?_
    -- an empty queue owes nothing, so the woken Get is not a blocking one
    intro hq hb
    rw [if_pos hb] at he
    have hz : s.q.queue.length = 0 := List.length_eq_zero_iff.mpr hq
    omega

theorem step_provided (s s' : Sys ι α) (a : Act ι α) (h : s.Provided) (hok : s.KeepsOwed a)
    (hs : s.step a = some s') : s'.Provided := by
  obtain ⟨es, he, _⟩ := step_effect (fun _ _ => True) s s' a (fun _ _ _ _ _ => trivial) hs
  have hv := he.valid h.valid
  cases a with
  | put t replace putfront pick =>
    cases hs
    have hl := s.put_log t replace putfront pick
    exact ⟨hv, put_provided s t replace putfront pick h hok, h.sound.snoc _ hl (by simp)⟩
  | get tid microsec =>
    obtain ⟨_, ⟨_, rfl⟩ | ⟨hne, rfl⟩⟩ := get_inv hs
    · exact ⟨hv, h.enough, h.sound⟩
    · have hsp := hok hne
      refine ⟨hv, ?_, take_sound s _ h.sound fun hnil => absurd hnil hne⟩
      rw [take_owed, take_length]
      unfold Spare at hsp
      omega
  | resume tid =>
    obtain ⟨w, hw, rfl⟩ := resume_inv hs
    obtain ⟨hn, hsd⟩ := resume_provided s tid w h hw hok
    exact ⟨hv, hn, hsd⟩
  | timeout tid =>
    obtain ⟨w, h0, rfl⟩ := timeout_inv hs
    refine ⟨hv, h.enough, h.sound.snoc (.failed w) rfl ?_⟩
    intro v hv' hb
    cases hv'
    exact h0 hb.1
  | interrupt all pick =>
    cases hs
    refine ⟨hv, ?_, ?_⟩
    · rw [owed_interrupt]
      exact Nat.zero_le _
    · refine h.sound.snoc .interrupt ?_ (by simp)
      cases all <;> simp [interrupt, notifyAll, record]

/-! ### The condition is needed -/

def tids (s : Sys ι α) : List ι := (s.blocked ++ s.woken).map Waiter.tid

omit [DecidableEq ι] in
theorem notify_tids (s : Sys ι α) (pick : ℕ) : (s.notify pick).tids.Perm s.tids :=
  (s.notify_perm pick).map Waiter.tid

omit [DecidableEq ι] in
theorem take_tids (s : Sys ι α) (w : Waiter ι) : (s.take w).tids = s.tids := by
  unfold take
  split <;> rfl

omit [DecidableEq ι] in
theorem put_tids (s : Sys ι α) (t : α) (replace putfront : Bool) (pick : ℕ) :
    (s.put t replace putfront pick).tids.Perm s.tids := by
  unfold put
  simp only
  split
  · exact List.Perm.refl _
  · exact notify_tids _ pick

omit [DecidableEq ι] in
theorem interrupt_tids (s : Sys ι α) (all : Bool) (pick : ℕ) :
    (s.interrupt all pick).tids.Perm s.tids := by
  have hm : (markInterrupted s.blocked ++ markInterrupted s.woken).map Waiter.tid = s.tids := by
    simp [tids, markInterrupted, Function.comp_def]
  unfold interrupt
  cases all with
  | true =>
    rw [if_pos rfl, ← hm]
    show ((markInterrupted s.woken ++ markInterrupted s.blocked).map Waiter.tid).Perm _
    exact List.perm_append_comm.map Waiter.tid
  | false =>
    rw [if_neg (by decide), ← hm]
    exact notify_tids _ pick

/- A thread is in at most one Get. -/
theorem step_nodup (s s' : Sys ι α) (a : Act ι α) (h : s.tids.Nodup) (hs : s.step a = some s') :
    s'.tids.Nodup := by
  cases a with
  | put t replace putfront pick =>
    cases hs
    exact (s.put_tids t replace putfront pick).nodup_iff.mpr h
  | get tid microsec =>
    obtain ⟨hfree, ⟨_, rfl⟩ | ⟨_, rfl⟩⟩ := get_inv hs
    · have hp : ((s.blocked ++ [(⟨tid, microsec, false⟩ : Waiter ι)] ++ s.woken).map Waiter.tid).Perm
          (tid :: s.tids) := by
        simp only [tids, List.map_append, List.map_cons, List.append_assoc, List.singleton_append]
        exact List.perm_middle
      have hn : tid ∉ s.tids := by
        intro hm
        obtain ⟨w, hw, ht⟩ := List.mem_map.mp hm
        exact hfree w hw ht
      exact hp.nodup_iff.mpr (List.nodup_cons.mpr ⟨hn, h⟩)
    · rw [take_tids]
      exact h
  | resume tid =>
    obtain ⟨w, _, rfl⟩ := resume_inv hs
    rw [take_tids]
    exact h.sublist (((List.Sublist.refl _).append List.eraseP_sublist).map _)
  | timeout tid =>
    obtain ⟨w, _, rfl⟩ := timeout_inv hs
    exact h.sublist ((List.eraseP_sublist.append (List.Sublist.refl _)).map _)
  | interrupt all pick =>
    cases hs
    exact (s.interrupt_tids all pick).nodup_iff.mpr h

theorem find_woken (s : Sys ι α) (h : s.tids.Nodup) (w : Waiter ι) (hw : w ∈ s.woken) :
    s.woken.find? (fun v => v.tid = w.tid) = some w := by
  cases hf : s.woken.find? (fun v => v.tid = w.tid) with
  | none =>
    have hn := List.find?_eq_none.mp hf w hw
    simp at hn
  | some v =>
    have ht : v.tid = w.tid := by simpa using List.find?_some hf
    have hd : (s.woken.map Waiter.tid).Nodup :=
      h.sublist ((List.sublist_append_right s.blocked s.woken).map _)
    rw [List.inj_on_of_nodup_map hd (List.mem_of_find?_eq_some hf) hw ht]

/- With more woken blocking Gets than elements, letting them run one after the
other ends in one that finds the queue empty. Each run takes one from both
sides, so the induction is on the length of the queue. -/
theorem short_unsound (n : ℕ) (s : Sys ι α) (h : s.tids.Nodup) (hn : s.q.queue.length = n)
    (ho : n < s.owed) : ∃ rest, ¬(exec step s rest).Sound := by
  induction n generalizing s with
  | zero =>
    obtain ⟨w, hw, hb⟩ := List.countP_pos_iff.mp ho
    have hb' : w.Blocking := by simpa using hb
    have hstep : s.step (.resume w.tid) =
        some ({s with woken := s.woken.eraseP (fun v => v.tid = w.tid)}.record (.failed w)) := by
      simp only [step, find_woken s h w hw, take, List.length_eq_zero_iff.mp hn]
    refine ⟨[.resume w.tid], fun hsd => ?_⟩
    rw [exec_cons, advance_some step hstep] at hsd
    have hi := hsd w (by simp [record]) hb'.1
    simp [hb'.2] at hi
  | succ n ih =>
    obtain ⟨w, hw, hb⟩ := List.countP_pos_iff.mp (Nat.zero_lt_of_lt ho)
    have hb' : w.Blocking := by simpa using hb
    have hf := find_woken s h w hw
    have hstep : s.step (.resume w.tid) =
        some ({s with woken := s.woken.eraseP (fun v => v.tid = w.tid)}.take w) := by
      simp only [step, hf]
    have he := erased_owed hf
    rw [if_pos hb'] at he
    obtain ⟨rest, hr⟩ := ih _ (step_nodup s _ _ h hstep)
      (by rw [take_length]; show s.q.queue.length - 1 = n; omega)
      (by
        rw [take_owed]
        show n < (s.woken.eraseP _).countP (fun w => w.Blocking)
        unfold owed at ho
        omega)
    refine ⟨.resume w.tid :: rest, ?_⟩
    rw [exec_cons, advance_some step hstep]
    exact hr

/- A step against the condition leaves fewer elements than woken blocking Gets. -/
theorem step_short (s s' : Sys ι α) (a : Act ι α) (hv : s.q.Valid) (hok : ¬s.KeepsOwed a)
    (hs : s.step a = some s') : s'.q.queue.length < s'.owed := by
  cases a with
  | put t replace putfront pick =>
    cases hs
    simp only [KeepsOwed, Spare, not_forall] at hok
    obtain ⟨hf, rfl, w, hw, hb, hsp⟩ := hok
    obtain ⟨ho, hq⟩ := s.put_evicting t putfront pick hv hf
    have h1 : (s.chosen pick).toList.countP (fun w => w.Blocking) = 1 := by simp [hw, hb]
    omega
  | get tid microsec =>
    simp only [KeepsOwed, Spare, not_forall] at hok
    obtain ⟨hq, hsp⟩ := hok
    have hl := List.length_pos_of_ne_nil hq
    obtain ⟨_, ⟨hnil, _⟩ | ⟨_, rfl⟩⟩ := get_inv hs
    · exact absurd hnil hq
    · rw [take_owed, take_length]
      omega
  | resume tid =>
    simp only [KeepsOwed, Spare, not_forall] at hok
    obtain ⟨w, hw, hb, hq, hsp⟩ := hok
    have hl := List.length_pos_of_ne_nil hq
    simp only [step, hw] at hs
    cases hs
    have he := erased_owed hw
    rw [if_neg hb] at he
    rw [take_owed, take_length]
    show s.q.queue.length - 1 < (s.woken.eraseP _).countP (fun w => w.Blocking)
    unfold owed at hsp
    omega
  | timeout tid => exact absurd trivial hok
  | interrupt all pick => exact absurd trivial hok

end Sys

variable [DecidableEq ι]

/-- In every run whose steps keep an element for each woken blocking Get, no
Get with `microsec` zero fails without an Interrupt since it began. A step
against the condition leaves a state that has an unsound continuation. -/
theorem blockingGet_sound (maxSize : UInt64) (acts : List (Act ι α)) :
    (Along Sys.step Sys.KeepsOwed (Sys.init maxSize) acts → (Sys.after maxSize acts).Sound) ∧
    ∀ a s', (Sys.after maxSize acts).step a = some s' → ¬(Sys.after maxSize acts).KeepsOwed a →
      ∃ rest, ¬(exec Sys.step s' rest).Sound := by
  refine ⟨?_, ?_⟩
  · intro ha
    have hi : (Sys.init maxSize : Sys ι α).Provided :=
      ⟨BlockQueue.create_valid maxSize, Nat.le_refl 0, fun w hw => by simp [Sys.init] at hw⟩
    exact (exec_invariant_along Sys.step Sys.KeepsOwed Sys.Provided
      (fun s a s' => Sys.step_provided s s' a) _ hi acts ha).sound
  · intro a s' hs hok
    have hv : (Sys.after maxSize acts).q.Valid ∧ (Sys.after maxSize acts).tids.Nodup := by
      apply exec_invariant Sys.step fun s => s.q.Valid ∧ s.tids.Nodup
      · intro s b t h hst
        obtain ⟨es, he, _⟩ := Sys.step_effect (fun _ _ => True) s t b (fun _ _ _ _ _ => trivial) hst
        exact ⟨he.valid h.1, Sys.step_nodup s t b h.2 hst⟩
      · exact ⟨BlockQueue.create_valid maxSize, List.nodup_nil⟩
    exact Sys.short_unsound _ s' (Sys.step_nodup _ _ a hv.2 hs) rfl
      (Sys.step_short _ s' a hv.1 hok hs)

/- Consumer 0 waits and is woken; with two elements in the queue consumer 1 may take one
before consumer 0 runs again. -/
def servedRun : List (Act ℕ Char) :=
  [.get 0 0, .put 'a' true false 0, .put 'b' true false 0, .get 1 0, .resume 0]

theorem blockingGet_served :
    (Sys.after 10 servedRun).log =
      [.put 'a' true true none, .put 'b' true true none, .got 1 'a', .got 0 'b'] ∧
    (Sys.after 10 servedRun).Sound := by
  refine ⟨by decide, (blockingGet_sound 10 servedRun).1 ⟨?_, ?_, ?_, ?_, ?_, trivial⟩⟩
  · intro _ hne
    exact absurd rfl hne
  · intro _ hfull
    exact absurd hfull (by decide)
  · intro _ hfull
    exact absurd hfull (by decide)
  · intro _ _
    show Sys.owed _ < _
    decide
  · intro _ w hw hnot
    obtain rfl : ⟨0, 0, false⟩ = w := Option.some.inj hw
    exact absurd ⟨rfl, rfl⟩ hnot

/- Consumer 0 waits, a Put wakes it, consumer 1 takes the element before
consumer 0 runs again: its Get with `microsec` zero fails, without Interrupt. -/
theorem blockingGet_stolen :
    .failed ⟨0, 0, false⟩ ∈ (Sys.after 10 [.get 0 0, .put 'a' true false 0, .get 1 0,
      .resume 0] : Sys (Fin 2) Char).log ∧
    ¬(Sys.after 10 [.get 0 0, .put 'a' true false 0, .get 1 0, .resume 0] :
      Sys (Fin 2) Char).Sound := by
  have hm : .failed ⟨0, 0, false⟩ ∈ (Sys.after 10 [.get 0 0, .put 'a' true false 0, .get 1 0,
      .resume 0] : Sys (Fin 2) Char).log := by decide
  exact ⟨hm, fun h => absurd (h _ hm rfl) (by decide)⟩

end TypegoSdk.Dds
