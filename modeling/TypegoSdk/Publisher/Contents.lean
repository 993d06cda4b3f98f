import TypegoSdk.Publisher.RealTime

/-!
# The publisher is a mailbox

`msg_` together with `turn_` is a mailbox with one place: `unlockAndPublish`
posts into it and the copy of the loop takes from it. What a step must respect
for this is `Proper`; the two kinds of clients meet it for different reasons.
-/

namespace TypegoSdk.Publisher
open TypegoSdk.Lib
variable {ι Msg : Type}

namespace State

/- The loop's place and the mutex agree. -/
def Locked (s : State ι Msg) : Prop := s.mutex = .loop ↔ s.loop.holds = true

/-- The mailbox `c` that a state stands for: it is full from the commit to the
copy, and while no client may write `msg_` its content is what the loop is
going to send. -/
structure Contents (overwrite : Bool) (pre : Msg → Msg) (s : State ι Msg) (c : Option Msg) :
    Prop where
  box : Mailbox overwrite s.mail c
  full : c.isSome = true ↔ s.turn = .nonRealtime ∧ s.loop ≠ .handBack
  value : (∀ i, s.mutex ≠ .client i .holding) → ∀ m, c = some m →
    m = if s.loop = .copy then s.msg else pre s.msg
  early : s.loop.started = false → s.turn = .loopNotStarted
  due : s.loop = .prepare ∨ s.loop = .copy → s.turn = .nonRealtime

/- No commit before the loop has started, and where nothing may be overwritten
none before the copy of the previous one; no lock given back in between. -/
def Proper (overwrite : Bool) (s : State ι Msg) : Act ι Msg → Prop
  | .publish _ => s.loop.started = true ∧ (overwrite = false → s.turn ≠ .nonRealtime)
  | .unlock _ => s.turn ≠ .nonRealtime
  | _ => True

theorem init_locked (msg : Msg) : (init msg : State ι Msg).Locked := by simp [Locked, init, LoopPc.holds]

theorem init_contents (overwrite : Bool) (pre : Msg → Msg) (msg : Msg) :
    Contents overwrite pre (init msg : State ι Msg) none :=
  ⟨.empty, by simp [init], by simp, by simp [init], by simp [init]⟩

variable [DecidableEq ι] {pre : Msg → Msg} {s s' : State ι Msg}

theorem loop_locked (h : s.Locked) (hs : s.publishingLoop pre = some s') : s'.Locked := by
  unfold Locked at h ⊢
  cases hpc : s.loop <;> simp only [publishingLoop, hpc] at hs <;> rw [hpc] at h
  case acquire =>
    split at hs
    · cases hs
      simp [LoopPc.holds]
    · cases hs
  case finished => cases hs
  case giveBack | release =>
    cases hs
    simp [LoopPc.holds]
  case outer | turnTest | keepTest | writeTest =>
    cases hs
    rw [h]
    dsimp only
    split <;> simp [LoopPc.holds]
  all_goals
    cases hs
    simpa [LoopPc.holds] using h

theorem step_locked (a : Act ι Msg) (h : s.Locked) (hs : s.step pre a = some s') : s'.Locked := by
  have hfree : ∀ mutex : Holder ι, s.mutex ≠ .loop → mutex ≠ .loop →
      {s with mutex := mutex}.Locked := by
    intro mutex hm hn
    exact iff_of_false hn fun hl => hm (h.mpr hl)
  cases a with
  | loop => exact loop_locked h hs
  | stop => cases hs; exact h
  | trylock i | lock i | checkTurn i | unlock i | release i =>
    simp only [step, Option.ite_none_right_eq_some, Option.some.injEq] at hs
    obtain ⟨hm, rfl⟩ := hs
    exact hfree _ (by simp [hm]) (by simp)
  | write i m =>
    simp only [step, Option.ite_none_right_eq_some, Option.some.injEq] at hs
    obtain ⟨_, rfl⟩ := hs
    exact h
  | publish i =>
    simp only [step, Option.ite_none_right_eq_some, Option.some.injEq] at hs
    obtain ⟨hm, rfl⟩ := hs
    exact hfree (.client i .releasing) (by simp [hm]) (by simp)

/-! ### The steps that leave the mailbox alone -/

variable {overwrite : Bool} {c : Option Msg}

omit [DecidableEq ι] in
theorem Contents.move (h : Contents overwrite pre s c) (hmail : s'.mail = s.mail)
    (hturn : s'.turn = s.turn) (hmsg : s'.msg = s.msg)
    (hmutex : (∀ i, s'.mutex ≠ .client i .holding) → ∀ i, s.mutex ≠ .client i .holding)
    (hhand : s'.loop = .handBack ↔ s.loop = .handBack) (hcopy : s'.loop = .copy ↔ s.loop = .copy)
    (hstart : s'.loop.started = false → s.loop.started = false)
    (hdue : s'.loop = .prepare → s.turn = .nonRealtime) : Contents overwrite pre s' c := by
  refine ⟨hmail ▸ h.box, ?_, ?_, ?_, ?_⟩
  · rw [hturn, Ne, hhand]
    exact h.full
  · intro hno m hm
    simp only [hmsg, hcopy]
    exact h.value (hmutex hno) m hm
  · intro hs
    rw [hturn]
    exact h.early (hstart hs)
  · intro hp
    rw [hturn]
    exact hp.elim hdue fun hc => h.due (.inr (hcopy.mp hc))

/- While the loop has the mutex no client may write `msg_`. -/
omit [DecidableEq ι] in
theorem Locked.no_client (h : s.Locked) (hp : s.loop.holds = true) (i : ι) (pc : ClientPc) :
    s.mutex ≠ .client i pc := by
  rw [h.mpr hp]
  simp

theorem loop_contents (hl : s.Locked) (hk : s.keepRunning = true)
    (h : Contents overwrite pre s c) (hs : s.publishingLoop pre = some s') :
    ∃ c', Contents overwrite pre s' c' := by
  cases hpc : s.loop <;> simp only [publishingLoop, hpc] at hs
  case setRealtime =>
    cases hs
    have ht := h.early (by rw [hpc]; rfl)
    have hc : c = none := by
      have hf := h.full
      rw [ht] at hf
      simpa using hf
    subst hc
    exact ⟨none, h.box, by simp, by simp, by simp [LoopPc.started], by simp⟩
  case acquire =>
    split at hs
    · rename_i hm
      cases hs
      exact ⟨c, h.move rfl rfl rfl (fun _ i => by simp [hm]) (by simp [hpc]) (by simp [hpc])
        (by simp [LoopPc.started]) (by simp)⟩
    · cases hs
  case turnTest =>
    cases hs
    refine ⟨c, h.move rfl rfl rfl id ?_ ?_ ?_ ?_⟩ <;> dsimp only <;> split <;>
      simp_all [LoopPc.started]
  case prepare =>
    cases hs
    have hno := hl.no_client (by rw [hpc]; rfl)
    have ht := h.due (.inl hpc)
    refine ⟨c, h.box, ?_, ?_, by simp [LoopPc.started], fun _ => ht⟩
    · have hf := h.full
      rw [hpc] at hf
      simpa using hf
    · intro _ m hm
      have hv := h.value (fun i => hno i _) m hm
      simpa [hpc] using hv
  case copy =>
    cases hs
    have hno := hl.no_client (by rw [hpc]; rfl)
    have ht := h.due (.inr hpc)
    have hsome : c.isSome = true := h.full.mpr ⟨ht, by rw [hpc]; simp⟩
    obtain ⟨m, rfl⟩ := Option.isSome_iff_exists.mp hsome
    have hv := h.value (fun i => hno i _) m rfl
    rw [if_pos hpc] at hv
    subst hv
    exact ⟨none, .take _ h.box, by simp, by simp, by simp [LoopPc.started], by simp⟩
  case handBack =>
    cases hs
    have hc : c = none := by
      have hf := h.full
      rw [hpc] at hf
      simpa using hf
    subst hc
    exact ⟨none, h.box, by simp, by simp, by simp [LoopPc.started], by simp⟩
  case giveBack | release =>
    cases hs
    have hno := hl.no_client (by rw [hpc]; rfl)
    exact ⟨c, h.move rfl rfl rfl (fun _ i => hno i _) (by simp [hpc]) (by simp [hpc])
      (by simp [LoopPc.started]) (by simp)⟩
  case finished => cases hs
  case outer | keepTest | writeTest =>
    cases hs
    rw [hk]
    exact ⟨c, h.move rfl rfl rfl id (by simp [hpc]) (by simp [hpc]) (by simp [LoopPc.started])
      (by simp)⟩
  all_goals
    cases hs
    exact ⟨c, h.move rfl rfl rfl id (by simp [hpc]) (by simp [hpc])
      (by simp [LoopPc.started, hpc]) (by simp)⟩

/-! ### Clients -/

/- A change of hands between clients that leaves nobody with a half-written
message. -/
omit [DecidableEq ι] in
theorem Contents.hand (h : Contents overwrite pre s c) (mutex : Holder ι)
    (hm : ∀ i, s.mutex ≠ .client i .holding) : Contents overwrite pre {s with mutex := mutex} c :=
  h.move rfl rfl rfl (fun _ => hm) Iff.rfl Iff.rfl id fun hp => h.due (.inl hp)

omit [DecidableEq ι] in
theorem Contents.none_of_turn (h : Contents overwrite pre s c) (ht : s.turn ≠ .nonRealtime) :
    c = none := by
  cases c with
  | none => rfl
  | some m => exact absurd (h.full.mp rfl).1 ht

omit [DecidableEq ι] in
theorem publish_contents (i : ι) (hl : s.Locked) (hm : s.mutex = .client i .holding)
    (h : Contents overwrite pre s c) (hok : s.Proper overwrite (.publish i)) :
    Contents overwrite pre (s.publish pre i) (some (pre s.msg)) := by
  have hout : s.loop.holds = false := by
    cases hh : s.loop.holds with
    | false => rfl
    | true =>
      have hlm := hl.mpr hh
      simp [hm] at hlm
  have hpc : s.loop ≠ .handBack ∧ s.loop ≠ .copy := by
    constructor <;> intro he <;> simp [he, LoopPc.holds] at hout
  refine ⟨h.box.post (pre s.msg) fun ho => h.none_of_turn (hok.2 ho), ?_, ?_, ?_, fun _ => rfl⟩
  · exact iff_of_true rfl ⟨rfl, hpc.1⟩
  · intro _ m hm'
    cases hm'
    exact (if_neg hpc.2).symm
  · intro hst
    exact absurd hok.1 (by simp [show s.loop.started = false from hst])

theorem loop_keep (hs : s.publishingLoop pre = some s') : s'.keepRunning = s.keepRunning := by
  cases hpc : s.loop <;> simp only [publishingLoop, hpc] at hs
  case acquire =>
    split at hs
    · cases hs; rfl
    · cases hs
  case finished => cases hs
  all_goals cases hs; rfl

/- Only `stop` clears `keep_running_`, and nothing sets it. -/
theorem step_keep (a : Act ι Msg) (hs : s.step pre a = some s') :
    s'.keepRunning = s.keepRunning ∨ a = .stop ∧ s'.keepRunning = false := by
  cases a with
  | loop => exact .inl (loop_keep hs)
  | stop =>
    cases hs
    exact .inr ⟨rfl, rfl⟩
  | trylock i | lock i | checkTurn i | write i m | publish i | unlock i | release i =>
    simp only [step] at hs
    split at hs
    · cases hs
      exact .inl rfl
    · cases hs

theorem step_contents (a : Act ι Msg) (hl : s.Locked) (hk : s.keepRunning = true)
    (h : ∃ c, Contents overwrite pre s c) (hok : s.Proper overwrite a) (ha : a ≠ .stop)
    (hs : s.step pre a = some s') : ∃ c, Contents overwrite pre s' c := by
  obtain ⟨c, hc⟩ := h
  cases a with
  | loop => exact loop_contents hl hk hc hs
  | stop => exact absurd rfl ha
  | trylock i | lock i | checkTurn i | release i =>
    simp only [step, Option.ite_none_right_eq_some, Option.some.injEq] at hs
    obtain ⟨hm, rfl⟩ := hs
    exact ⟨c, hc.hand _ fun j => by simp [hm]⟩
  | write i m =>
    simp only [step, Option.ite_none_right_eq_some, Option.some.injEq] at hs
    obtain ⟨hm, rfl⟩ := hs
    exact ⟨c, hc.box, hc.full, fun hno => absurd hm (hno i), hc.early, hc.due⟩
  | publish i =>
    simp only [step, Option.ite_none_right_eq_some, Option.some.injEq] at hs
    obtain ⟨hm, rfl⟩ := hs
    exact ⟨_, publish_contents i hl hm hc hok⟩
  | unlock i =>
    simp only [step] at hs
    split at hs
    · cases hs
      have hn := hc.none_of_turn hok
      subst hn
      exact ⟨none, hc.box, hc.full, by simp, hc.early, hc.due⟩
    · cases hs

/-! ### Clients that wait for their turn -/

/- A client that may write `msg_` has seen the turn REALTIME. -/
def Held (s : State ι Msg) : Prop := ∀ i, s.mutex = .client i .holding → s.turn = .realtime

/- `lock()` is obtained only with the turn REALTIME, as `trylock` ensures. -/
def WaitsTurn (s : State ι Msg) : Act ι Msg → Prop
  | .lock _ => s.turn = .realtime
  | _ => True

theorem loop_held (h : s.Held) (hs : s.publishingLoop pre = some s') : s'.Held := by
  intro i hm
  have hh := h i
  cases hpc : s.loop <;> simp only [publishingLoop, hpc] at hs
  case acquire =>
    split at hs
    · cases hs
      cases hm
    · cases hs
  case finished => cases hs
  case giveBack | release =>
    cases hs
    cases hm
  all_goals
    cases hs
    first | rfl | exact hh hm

theorem step_held (a : Act ι Msg) (h : s.Held) (hok : s.WaitsTurn a)
    (hs : s.step pre a = some s') : s'.Held := by
  cases a with
  | loop => exact loop_held h hs
  | stop =>
    cases hs
    exact h
  | trylock i | publish i | unlock i | release i =>
    simp only [step] at hs
    split at hs
    · cases hs
      intro j hj
      cases hj
    · cases hs
  | lock i =>
    simp only [step] at hs
    split at hs
    · cases hs
      exact fun _ _ => hok
    · cases hs
  | checkTurn i =>
    simp only [step] at hs
    split at hs
    · cases hs
      intro j hj
      by_cases ht : s.turn = .realtime
      · exact ht
      · simp [checkTurn, ht] at hj
    · cases hs
  | write i m =>
    simp only [step] at hs
    split at hs
    · cases hs
      exact h
    · cases hs

/- Such clients commit only into an empty mailbox. -/
theorem Held.proper (h : s.Held) (hc : s.loop.started = false → s.turn = .loopNotStarted)
    (a : Act ι Msg) (hs : s.step pre a = some s') : s.Proper false a := by
  cases a with
  | publish i =>
    simp only [step, Option.ite_none_right_eq_some, Option.some.injEq] at hs
    obtain ⟨hm, _⟩ := hs
    have ht := h i hm
    refine ⟨?_, fun _ => by simp [ht]⟩
    cases hst : s.loop.started with
    | true => rfl
    | false => simp [hc hst] at ht
  | unlock i =>
    simp only [step, Option.ite_none_right_eq_some, Option.some.injEq] at hs
    obtain ⟨hm, _⟩ := hs
    show s.turn ≠ .nonRealtime
    simp [h i hm]
  | loop | stop | trylock i | lock i | checkTurn i | write i m | release i => trivial

end State

end TypegoSdk.Publisher
