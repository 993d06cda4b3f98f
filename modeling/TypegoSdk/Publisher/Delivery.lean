import TypegoSdk.Publisher.Contents

/-!
# What the publisher sends

Realtime clients (`trylock`) wait for their turn: every commit is copied, and
what is written is a beginning of what was committed. Clients of `lock()` may
come in while a commit is pending and replace it: the loop then sends only the
latest.
-/

namespace TypegoSdk.Publisher
open TypegoSdk.Lib
variable {ι Msg : Type}

namespace State

/-! ### Realtime clients -/

/- The message that the loop has copied and not yet written. -/
def inflight (s : State ι Msg) : List Msg :=
  match s.loop with
  | .handBack | .release | .writeTest | .write => [s.outgoing]
  | _ => []

/-- Between the copy and the write nothing is lost or added; after `stop` the
loop may drop what it copied, but it never writes anything else. -/
structure Sent (s : State ι Msg) : Prop where
  sent : s.keepRunning = true → s.written ++ s.inflight = s.copied
  done : s.written <+: s.committed
  next : s.loop = .write → s.written ++ [s.outgoing] <+: s.committed

theorem Sent.move {s s' : State ι Msg} (h : s.Sent) (hk : s'.keepRunning = true → s.keepRunning = true)
    (hw : s'.written = s.written) (hcopied : s'.copied = s.copied)
    (hcommitted : s.committed <+: s'.committed) (hi : s'.inflight = s.inflight)
    (hn : s'.loop = .write → s.loop = .write ∧ s'.outgoing = s.outgoing) : s'.Sent := by
  refine ⟨?_, ?_, ?_⟩
  · intro h'
    rw [hw, hi, hcopied]
    exact h.sent (hk h')
  · rw [hw]
    exact h.done.trans hcommitted
  · intro hl
    obtain ⟨hl', ho⟩ := hn hl
    rw [hw, ho]
    exact (h.next hl').trans hcommitted

structure Disciplined (pre : Msg → Msg) (s : State ι Msg) : Prop where
  locked : s.Locked
  held : s.Held
  contents : s.keepRunning = true → ∃ c, Contents false pre s c
  sent : s.Sent

theorem init_disciplined (pre : Msg → Msg) (msg : Msg) :
    (init msg : State ι Msg).Disciplined pre := by
  refine ⟨init_locked msg, by simp [Held, init], fun _ => ⟨none, init_contents _ _ _⟩, ?_⟩
  exact ⟨fun _ => rfl, List.prefix_refl _, by simp [init]⟩

variable [DecidableEq ι] {pre : Msg → Msg} {s s' : State ι Msg}

theorem loop_sent (h : s.Disciplined pre) (hs : s.publishingLoop pre = some s') : s'.Sent := by
  have hsent := h.sent
  cases hpc : s.loop <;> simp only [publishingLoop, hpc] at hs
  case acquire =>
    split at hs
    · cases hs
      exact hsent.move id rfl rfl (List.prefix_refl _) (by simp [inflight, hpc]) (by simp)
    · cases hs
  case copy =>
    cases hs
    refine ⟨?_, ?_, by simp⟩
    · intro hk
      have he := hsent.sent hk
      simp only [inflight, hpc, List.append_nil, copied] at he
      simp [inflight, copied, he]
    · simpa [committed] using hsent.done
  case writeTest =>
    cases hs
    cases hk : s.keepRunning with
    | true =>
      -- the message in flight is the next one that was committed
      obtain ⟨c, hc⟩ := h.contents hk
      have he := hsent.sent hk
      simp only [inflight, hpc] at he
      have hp : s.copied <+: s.committed := ⟨_, hc.box.exact⟩
      refine ⟨fun _ => he, hsent.done, fun _ => ?_⟩
      show s.written ++ [s.outgoing] <+: s.committed
      rw [he]
      exact hp
    | false => exact ⟨by simp, hsent.done, by simp⟩
  case write =>
    cases hs
    refine ⟨?_, hsent.next hpc, by simp⟩
    intro hk
    have he := hsent.sent hk
    simp only [inflight, hpc] at he
    exact (List.append_nil _).trans he
  case finished => cases hs
  case outer | keepTest =>
    cases hs
    refine hsent.move id rfl rfl (List.prefix_refl _) ?_ ?_ <;>
      cases s.keepRunning <;> simp [inflight, hpc]
  case turnTest =>
    cases hs
    refine hsent.move id rfl rfl (List.prefix_refl _) ?_ ?_ <;>
      by_cases ht : s.turn = .nonRealtime <;> simp [inflight, hpc, ht]
  all_goals
    cases hs
    exact hsent.move id rfl rfl (List.prefix_refl _) (by simp [inflight, hpc]) (by simp)

theorem step_sent (a : Act ι Msg) (h : s.Disciplined pre) (hs : s.step pre a = some s') :
    s'.Sent := by
  have hsent := h.sent
  cases a with
  | loop => exact loop_sent h hs
  | stop =>
    cases hs
    exact hsent.move (by simp) rfl rfl (List.prefix_refl _) rfl fun hl => ⟨hl, rfl⟩
  | trylock i | lock i | checkTurn i | write i m | unlock i | release i =>
    simp only [step] at hs
    split at hs
    · cases hs
      exact hsent.move id rfl rfl (List.prefix_refl _) rfl fun hl => ⟨hl, rfl⟩
    · cases hs
  | publish i =>
    simp only [step] at hs
    split at hs
    · cases hs
      exact hsent.move id rfl (by simp [copied, publish]) (by simp [committed, publish]) rfl
        fun hl => ⟨hl, rfl⟩
    · cases hs

theorem step_disciplined (a : Act ι Msg) (h : s.Disciplined pre) (hok : s.WaitsTurn a)
    (hs : s.step pre a = some s') : s'.Disciplined pre := by
  refine ⟨step_locked a h.locked hs, step_held a h.held hok hs, ?_, step_sent a h hs⟩
  intro hk'
  rcases step_keep a hs with hk | ⟨_, hk⟩
  · have hkeep := hk.symm.trans hk'
    have hne : a ≠ .stop := by
      rintro rfl
      cases hs
      cases hk'
    obtain ⟨c, hc⟩ := h.contents hkeep
    exact step_contents a h.locked hkeep ⟨c, hc⟩ (h.held.proper hc.early a hs) hne hs
  · simp [hk'] at hk

theorem exec_disciplined (msg : Msg) (acts : List (Act ι Msg))
    (h : Along (step pre) WaitsTurn (init msg) acts) : (after pre msg acts).Disciplined pre :=
  exec_invariant_along (step pre) WaitsTurn (Disciplined pre)
    (fun _ a _ hs hok hstep => step_disciplined a hs hok hstep) _ (init_disciplined pre msg) acts h

theorem exec_keep (pre : Msg → Msg) (msg : Msg) (acts : List (Act ι Msg)) (h : .stop ∉ acts) :
    (after pre msg acts).keepRunning = true := by
  refine exec_invariant_along (step pre) (fun _ a => a ≠ .stop) (fun s => s.keepRunning = true)
    ?_ (init msg) rfl acts (along_of_forall _ _ _ acts fun a ha he => h (he ▸ ha))
  intro s a s' hk hne hs
  rcases step_keep a hs with he | ⟨he, _⟩
  · exact he.trans hk
  · exact absurd he hne

/-- Exactly once, for clients of `trylock`: in every run what is written is a
prefix of what was committed; before `stop` the rest is at most one message
copied by the loop and one pending in `msg_`. -/
theorem realtime_exactly_once (msg : Msg) (acts : List (Act ι Msg)) (hrt : ∀ i, .lock i ∉ acts) :
    (after pre msg acts).written <+: (after pre msg acts).committed ∧
    (.stop ∉ acts →
      (after pre msg acts).committed.length ≤ (after pre msg acts).written.length + 2 ∧
      ∃ pending : Option Msg,
        (after pre msg acts).committed =
          (after pre msg acts).written ++ (after pre msg acts).inflight ++ pending.toList ∧
        (pending.isSome = true → (after pre msg acts).turn = .nonRealtime)) := by
  have hw : Along (step pre) WaitsTurn (init msg) acts := by
    refine along_mono _ ?_ _ _ (along_of_forall (step pre) (fun a => ∀ i, a ≠ .lock i) _ acts
      fun a ha i he => hrt i (he ▸ ha))
    intro s a hne
    cases a with
    | lock i => exact absurd rfl (hne i)
    | loop | stop | trylock i | checkTurn i | write i m | publish i | unlock i | release i => trivial
  have h := exec_disciplined msg acts hw
  refine ⟨h.sent.done, fun hstop => ?_⟩
  have hk := exec_keep pre msg acts hstop
  obtain ⟨c, hc⟩ := h.contents hk
  have he : (after pre msg acts).committed =
      (after pre msg acts).written ++ (after pre msg acts).inflight ++ c.toList := by
    rw [h.sent.sent hk]
    exact hc.box.exact.symm
  refine ⟨?_, c, he, fun hsome => (hc.full.mp hsome).1⟩
  have hi : (after pre msg acts).inflight.length ≤ 1 := by
    unfold inflight
    split <;> simp
  have hp : c.toList.length ≤ 1 := by cases c <;> simp
  rw [he, List.length_append, List.length_append]
  omega

/- The loop starts, client 0 commits 5, the loop copies and writes it, client 1
commits 6. -/
def twoCommits : List (Act ℕ ℕ) :=
  [.loop, .loop, .trylock 0, .checkTurn 0, .write 0 5, .publish 0, .release 0] ++
    List.replicate 9 .loop ++ [.trylock 1, .checkTurn 1, .write 1 6, .publish 1]

theorem realtime_two_commits :
    (after id 0 twoCommits).committed = [5, 6] ∧ (after id 0 twoCommits).written = [5] ∧
      (after id 0 twoCommits).written <+: (after id 0 twoCommits).committed :=
  ⟨by decide, by decide, (realtime_exactly_once 0 twoCommits (by simp [twoCommits])).1⟩

/-! ### Clients of `lock()` -/

/- Steps of clients that only use `lock()`, write `msg_` and `unlockAndPublish`,
with no commit before the loop's own first assignment to `turn_`. -/
def LockOnly (s : State ι Msg) : Act ι Msg → Prop
  | .loop | .lock _ | .write _ _ | .release _ => True
  | .publish _ => s.loop.started = true
  | .stop | .trylock _ | .checkTurn _ | .unlock _ => False

instance (s : State ι Msg) (a : Act ι Msg) : Decidable (s.LockOnly a) :=
  match a with
  | .loop | .lock _ | .write _ _ | .release _ => .isTrue trivial
  | .publish _ => inferInstanceAs (Decidable (_ = true))
  | .stop | .trylock _ | .checkTurn _ | .unlock _ => .isFalse id

omit [DecidableEq ι] in
theorem LockOnly.proper {a : Act ι Msg} (h : s.LockOnly a) : s.Proper true a ∧ a ≠ .stop := by
  cases a with
  | publish i => exact ⟨⟨h, by simp⟩, by simp⟩
  | stop | trylock i | checkTurn i | unlock i => exact h.elim
  | loop | lock i | write i m | release i => exact ⟨trivial, by simp⟩

theorem exec_overwriting (pre : Msg → Msg) (msg : Msg) (acts : List (Act ι Msg))
    (h : Along (step pre) LockOnly (init msg) acts) :
    (after pre msg acts).keepRunning = true ∧ ∃ c, Contents true pre (after pre msg acts) c := by
  have hi := exec_invariant_along (step pre) LockOnly
    (fun s => s.Locked ∧ s.keepRunning = true ∧ ∃ c, Contents true pre s c)
    (by
      rintro s a s' ⟨hl, hk, hc⟩ hok hs
      obtain ⟨hp, hne⟩ := LockOnly.proper hok
      refine ⟨step_locked a hl hs, ?_, step_contents a hl hk hc hp hne hs⟩
      rcases step_keep a hs with he | ⟨he, _⟩
      · exact he.trans hk
      · exact absurd he hne)
    (init msg) ⟨init_locked msg, rfl, none, init_contents _ _ _⟩ acts h
  exact hi.2

/-- Latest value, for clients of `lock()`: in the order of commits and copies
every copy comes right after the commit of that message, and after a commit
comes its copy, or a commit that replaces it, or nothing while it is pending.
So the copies are a part of the commits, in order, up to the last one or to
the one still pending; and they are all of them, but for the pending one, if
`lock()` is only obtained when the turn is REALTIME. -/
theorem nonRealtime_latest (msg : Msg) (acts : List (Act ι Msg))
    (h : Along (step pre) LockOnly (init msg) acts) :
    (∀ before m rest, (after pre msg acts).mail = before ++ .take m :: rest →
      ∃ first, before = first ++ [.post m]) ∧
    (∀ before m rest, (after pre msg acts).mail = before ++ .post m :: rest →
      (rest = [] ∧ (after pre msg acts).turn = .nonRealtime) ∨ (∃ r, rest = .take m :: r) ∨
        ∃ m' r, rest = .post m' :: r) ∧
    (after pre msg acts).copied.Sublist (after pre msg acts).committed ∧
    ((after pre msg acts).copied.getLast? = (after pre msg acts).committed.getLast? ∨
      (after pre msg acts).turn = .nonRealtime) ∧
    (Along (step pre) WaitsTurn (init msg) acts → ∃ pending : Option Msg,
      (after pre msg acts).copied ++ pending.toList = (after pre msg acts).committed) := by
  obtain ⟨hk, c, hc⟩ := exec_overwriting pre msg acts h
  refine ⟨fun before m rest => hc.box.latest before rest m, ?_,
    (List.sublist_append_left _ _).trans hc.box.sublist, ?_, ?_⟩
  · intro before m rest he
    rcases hc.box.next before rest m he with ⟨hr, hm⟩ | hr
    · exact .inl ⟨hr, (hc.full.mp (by rw [hm]; rfl)).1⟩
    · exact .inr hr
  · cases c with
    | none => exact .inl (hc.box.last.1 rfl)
    | some m => exact .inr (hc.full.mp rfl).1
  · intro hw
    obtain ⟨c', hc'⟩ := (exec_disciplined msg acts hw).contents hk
    exact ⟨c', hc'.box.exact⟩

/- Client 1 obtains `lock()` while the commit of client 0 is pending, and
commits before the loop copies. -/
def overtaken : List (Act ℕ ℕ) :=
  [.loop, .loop, .lock 0, .write 0 5, .publish 0, .release 0, .lock 1, .write 1 6, .publish 1,
    .release 1] ++ List.replicate 5 .loop

theorem nonRealtime_latest_overtaken :
    (after id 0 overtaken).committed = [5, 6] ∧ (after id 0 overtaken).copied = [6] ∧
      (after id 0 overtaken).copied.Sublist (after id 0 overtaken).committed :=
  ⟨by decide, by decide, (nonRealtime_latest 0 overtaken (by decide)).2.2.1⟩

/- When client 1 has the lock, 5 is committed and not copied; it is never
copied, and it is not the last commit. -/
theorem nonRealtime_commit_lost :
    ((after id 0 (overtaken.take 7)).mutex = .client 1 .holding ∧
      (after id 0 (overtaken.take 7)).committed = [5] ∧
      (after id 0 (overtaken.take 7)).copied = []) ∧
    ¬∃ pending : Option ℕ,
      (after id 0 overtaken).copied ++ pending.toList = (after id 0 overtaken).committed := by
  refine ⟨by decide, ?_⟩
  have hcopied : (after id 0 overtaken).copied = [6] := by decide
  have hcommitted : (after id 0 overtaken).committed = [5, 6] := by decide
  rintro ⟨pending, he⟩
  rw [hcopied, hcommitted] at he
  simp at he

/- A commit made before the loop's first assignment is forgotten by it. -/
example : (after id 0 [.lock 0, .write 0 5, .publish 0, .release 0, .loop, .loop] :
    State ℕ ℕ).turn = .realtime := by decide

end State

end TypegoSdk.Publisher
