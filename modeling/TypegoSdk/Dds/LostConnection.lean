import TypegoSdk.Lib.Exec
import Mathlib.Algebra.Order.Field.Rat
import Mathlib.Tactic.Positivity

/-!
# The age of the last sample (robot/g1/common/terminations.hpp)

`lost_connection` reads the monotonic clock and then the time that the DDS
listener stored for the last sample. The two threads share no lock: a sample
may be stored between the two reads, and its time is then later than `now`.
The difference is taken in uint64.
-/

namespace TypegoSdk.Dds
open TypegoSdk.Lib

/- `ChannelSubscriber::GetLastDataAvailableTime`; the argument is
`mLastDataAvailableTime` of the channel's listener, if there is a channel. -/
def getLastDataAvailableTime (channel : Option Int64) : Int64 :=
  match channel with
  | some last => last
  | none => -1

/- `(now - last) / 1e6`: the int64 operand is converted to uint64. -/
def elapsedMs (now : UInt64) (last : Int64) : ℚ := ((now - last.toUInt64).toNat : ℚ) / 1000000

def lostConnection (now : UInt64) (last timeoutMs : Int64) : Bool :=
  decide (elapsedMs now last > (timeoutMs.toInt : ℚ))

/-! ### The two threads -/

/-- One finished call of `lost_connection`. -/
structure Check where
  timeoutMs : Int64
  now : UInt64
  last : Int64
  result : Bool
  deriving DecidableEq

/- `arrival` is the clock value that the listener has read and not yet stored,
`now` the one that a running `lost_connection` has read. -/
structure Link where
  clock : UInt64
  lastDataAvailableTime : Int64
  arrival : Option UInt64
  now : Option UInt64
  checks : List Check
  deriving DecidableEq

inductive LinkAct where
  | tick (nanoseconds : UInt64)
  | arrive
  | store
  | readNow
  | readLast (timeoutMs : Int64)

namespace Link

def init (clock : UInt64) : Link := ⟨clock, 0, none, none, []⟩

def step (s : Link) : LinkAct → Option Link
  | .tick d => if s.clock.toNat + d.toNat < 2 ^ 64 then some {s with clock := s.clock + d} else none
  | .arrive =>
    match s.arrival with
    | none => some {s with arrival := some s.clock}
    | some _ => none
  | .store =>
    match s.arrival with
    | none => none
    | some t => some {s with lastDataAvailableTime := t.toInt64, arrival := none}
  | .readNow =>
    match s.now with
    | none => some {s with now := some s.clock}
    | some _ => none
  | .readLast timeoutMs =>
    match s.now with
    | none => none
    | some now =>
      let last := getLastDataAvailableTime (some s.lastDataAvailableTime)
      some {s with
        now := none
        checks := s.checks ++ [⟨timeoutMs, now, last, lostConnection now last timeoutMs⟩]}

/- The stored arrival as a value of the clock. -/
def lastArrival (s : Link) : ℕ := s.lastDataAvailableTime.toUInt64.toNat

end Link

/- An alarm is raised only when more than `timeout_ms` lie between the last
stored arrival and the time at which `now` was read. -/
def Check.Genuine (c : Check) : Prop :=
  0 ≤ c.timeoutMs.toInt → c.result = true →
    (c.last.toUInt64.toNat : ℤ) + c.timeoutMs.toInt * 1000000 < c.now.toNat

instance (c : Check) : Decidable c.Genuine := inferInstanceAs (Decidable (_ → _ → _))

/- At the second read the stored arrival is not later than `now`, or so much
later and the timeout so long that the wrapped difference does not exceed it. -/
def Link.Ordered (s : Link) : LinkAct → Prop
  | .readLast timeoutMs => ∀ now, s.now = some now → 0 ≤ timeoutMs.toInt →
      s.lastArrival ≤ now.toNat ∨
        (2 ^ 64 : ℤ) ≤ timeoutMs.toInt * 1000000 + (s.lastArrival - now.toNat : ℤ)
  | _ => True

/-! ### One check -/

theorem lostConnection_iff (now : UInt64) (last timeoutMs : Int64) :
    lostConnection now last timeoutMs = true ↔
      timeoutMs.toInt * 1000000 < ((now - last.toUInt64).toNat : ℤ) := by
  unfold lostConnection elapsedMs
  rw [decide_eq_true_iff, gt_iff_lt, lt_div_iff₀ (by positivity)]
  exact_mod_cast Iff.rfl

/- The alarm is genuine exactly when the reads are in order. -/
theorem genuine_iff (now : UInt64) (last timeoutMs : Int64) (h0 : 0 ≤ timeoutMs.toInt) :
    (⟨timeoutMs, now, last, lostConnection now last timeoutMs⟩ : Check).Genuine ↔
      last.toUInt64.toNat ≤ now.toNat ∨
        (2 ^ 64 : ℤ) ≤ timeoutMs.toInt * 1000000 + (last.toUInt64.toNat - now.toNat : ℤ) := by
  have hn := now.toNat_lt
  have hl := last.toUInt64.toNat_lt
  have hd := UInt64.toNat_sub now last.toUInt64
  unfold Check.Genuine
  rw [lostConnection_iff]
  by_cases hle : last.toUInt64.toNat ≤ now.toNat
  · have he : (now - last.toUInt64).toNat = now.toNat - last.toUInt64.toNat := by omega
    refine iff_of_true ?_ (.inl hle)
    intro _ hr
    dsimp only at hr ⊢
    omega
  · have he : (now - last.toUInt64).toNat =
        2 ^ 64 - (last.toUInt64.toNat - now.toNat) := by omega
    constructor
    · intro hg
      refine .inr ?_
      by_contra hc
      have hr := hg h0 (by omega)
      dsimp only at hr
      omega
    · rintro (h | h)
      · exact absurd h hle
      · intro _ hr
        dsimp only at hr ⊢
        omega

/-! ### Whole runs -/

namespace Link

def AllGenuine (s : Link) : Prop := ∀ c ∈ s.checks, c.Genuine

theorem allGenuine_snoc {s s' : Link} {c : Check} (h : s.AllGenuine)
    (hc : s'.checks = s.checks ++ [c]) (hg : c.Genuine) : s'.AllGenuine := by
  intro d hd
  rw [hc, List.mem_append, List.mem_singleton] at hd
  rcases hd with hd | rfl
  · exact h d hd
  · exact hg

/- Only the second read ends a check. -/
theorem step_checks {s s' : Link} {a : LinkAct} (hs : s.step a = some s') :
    s'.checks = s.checks ∨ ∃ timeoutMs now, a = .readLast timeoutMs ∧ s.now = some now ∧
      s'.checks = s.checks ++ [⟨timeoutMs, now, s.lastDataAvailableTime,
        lostConnection now s.lastDataAvailableTime timeoutMs⟩] := by
  cases a with
  | tick d =>
    simp only [step, Option.ite_none_right_eq_some, Option.some.injEq] at hs
    obtain ⟨_, rfl⟩ := hs
    exact .inl rfl
  | arrive | store | readNow =>
    simp only [step] at hs
    split at hs <;> cases hs
    exact .inl rfl
  | readLast timeoutMs =>
    simp only [step] at hs
    split at hs
    · cases hs
    · rename_i now hnow
      cases hs
      exact .inr ⟨timeoutMs, now, rfl, hnow, rfl⟩

theorem step_genuine (s s' : Link) (a : LinkAct) (h : s.AllGenuine) (hok : s.Ordered a)
    (hs : s.step a = some s') : s'.AllGenuine := by
  rcases step_checks hs with he | ⟨timeoutMs, now, rfl, hnow, he⟩
  · unfold AllGenuine
    rw [he]
    exact h
  · refine allGenuine_snoc h he ?_
    by_cases h0 : 0 ≤ timeoutMs.toInt
    · exact (genuine_iff now _ timeoutMs h0).mpr (hok now hnow h0)
    · exact fun hc => absurd hc h0

theorem step_false_alarm (s s' : Link) (a : LinkAct) (hok : ¬s.Ordered a)
    (hs : s.step a = some s') : ¬s'.AllGenuine := by
  cases a with
  | tick d => exact absurd trivial hok
  | arrive => exact absurd trivial hok
  | store => exact absurd trivial hok
  | readNow => exact absurd trivial hok
  | readLast timeoutMs =>
    simp only [Ordered, not_forall] at hok
    obtain ⟨now, hnow, h0, hno⟩ := hok
    simp only [step, hnow, Option.some.injEq] at hs
    subst hs
    intro hall
    exact hno ((genuine_iff now _ timeoutMs h0).mp (hall _ (List.mem_append_right _
      (List.mem_singleton.mpr rfl))))

/- No arrival later than `now` is stored between the two reads. -/
def Undisturbed (s : Link) : LinkAct → Prop
  | .store => ∀ now t, s.now = some now → s.arrival = some t → t ≤ now
  | _ => True

/-- The listener never runs ahead of the clock. -/
structure InTime (s : Link) : Prop where
  last : s.lastArrival ≤ s.clock.toNat
  arrival : ∀ t, s.arrival = some t → t.toNat ≤ s.clock.toNat
  now : ∀ now, s.now = some now → s.lastArrival ≤ now.toNat

theorem InTime.ordered {s : Link} (h : s.InTime) (a : LinkAct) : s.Ordered a := by
  cases a with
  | tick d => trivial
  | arrive => trivial
  | store => trivial
  | readNow => trivial
  | readLast timeoutMs => exact fun now hnow _ => .inl (h.now now hnow)

theorem step_inTime (s s' : Link) (a : LinkAct) (h : s.InTime) (hok : s.Undisturbed a)
    (hs : s.step a = some s') : s'.InTime := by
  cases a with
  | tick d =>
    simp only [step] at hs
    split at hs
    · rename_i hd
      cases hs
      have hc : (s.clock + d).toNat = s.clock.toNat + d.toNat := by
        rw [UInt64.toNat_add]
        exact Nat.mod_eq_of_lt hd
      refine ⟨?_, ?_, h.now⟩
      · show s.lastArrival ≤ (s.clock + d).toNat
        have := h.last
        omega
      · intro t ht
        show t.toNat ≤ (s.clock + d).toNat
        have := h.arrival t ht
        omega
    · cases hs
  | arrive =>
    simp only [step] at hs
    split at hs
    · cases hs
      refine ⟨h.last, ?_, h.now⟩
      intro t ht
      cases ht
      exact Nat.le_refl _
    · cases hs
  | store =>
    simp only [step] at hs
    split at hs
    · cases hs
    · rename_i t ht
      cases hs
      exact ⟨h.arrival t ht, by simp, fun now hnow =>
        UInt64.le_iff_toNat_le.mp (hok now t hnow ht)⟩
  | readNow =>
    simp only [step] at hs
    split at hs
    · cases hs
      refine ⟨h.last, h.arrival, ?_⟩
      intro now hnow
      cases hnow
      exact h.last
    · cases hs
  | readLast timeoutMs =>
    simp only [step] at hs
    split at hs
    · cases hs
    · cases hs
      exact ⟨h.last, h.arrival, by simp⟩

/- Without such a store every alarm is genuine. -/
theorem undisturbed_genuine (clock : UInt64) (acts : List LinkAct)
    (h : Along step Undisturbed (init clock) acts) : (exec step (init clock) acts).AllGenuine := by
  have hi := exec_invariant_along step Undisturbed (fun s => s.InTime ∧ s.AllGenuine)
    (by
      intro s a s' hs hok hstep
      exact ⟨step_inTime s s' a hs.1 hok hstep,
        step_genuine s s' a hs.2 (hs.1.ordered a) hstep⟩)
    (init clock) ⟨⟨Nat.zero_le _, by simp [init], by simp [init]⟩, by simp [init, AllGenuine]⟩ acts h
  exact hi.2

/-- In every run whose second reads find a stored arrival that is not later
than `now` (or a timeout that outlasts the wrapped difference), every alarm is
genuine; a second read against the condition is a false alarm. -/
theorem lostConnection_genuine (clock : UInt64) (acts : List LinkAct) :
    (Along step Ordered (init clock) acts → (exec step (init clock) acts).AllGenuine) ∧
    ∀ a s', (exec step (init clock) acts).step a = some s' →
      ¬(exec step (init clock) acts).Ordered a → ¬s'.AllGenuine := by
  refine ⟨fun h => ?_, fun a s' hs hok => step_false_alarm _ s' a hok hs⟩
  exact exec_invariant_along step Ordered AllGenuine (fun s a s' => step_genuine s s' a)
    (init clock) (by simp [init, AllGenuine]) acts h

/- A sample at 5000 ns, a question at that time and one more than a millisecond later: the
first gives no alarm and the second a genuine one. -/
def silentRun : List LinkAct :=
  [.arrive, .store, .readNow, .readLast 1, .tick 2000000, .readNow, .readLast 1]

theorem lostConnection_genuine_silent :
    (exec step (init 5000) silentRun).checks = [⟨1, 5000, 5000, false⟩, ⟨1, 2005000, 5000, true⟩] ∧
    (exec step (init 5000) silentRun).AllGenuine := by
  refine ⟨by decide +kernel, (lostConnection_genuine 5000 silentRun).1 ?_⟩
  refine ⟨fun _ => trivial, fun _ => trivial, fun _ => trivial, ?_, fun _ => trivial, fun _ => trivial,
    ?_, trivial⟩
  · intro _ now hnow _
    obtain rfl : 5000 = now := Option.some.inj hnow
    left
    decide
  · intro _ now hnow _
    obtain rfl : 2005000 = now := Option.some.inj hnow
    left
    decide

/- The clock is read at 5000 ns, a sample is stamped 1 ns later and stored, and
the alarm goes off although the sample is newer than `now`. -/
theorem lostConnection_false_alarm :
    (exec step (init 5000) [.readNow, .tick 1, .arrive, .store, .readLast 1000]).checks =
      [⟨1000, 5000, 5001, true⟩] ∧
    ¬(exec step (init 5000) [.readNow, .tick 1, .arrive, .store, .readLast 1000]).AllGenuine := by
  have hc : (exec step (init 5000) [.readNow, .tick 1, .arrive, .store, .readLast 1000]).checks =
      [⟨1000, 5000, 5001, true⟩] := by decide +kernel
  refine ⟨hc, fun h => ?_⟩
  have hg := h ⟨1000, 5000, 5001, true⟩ (by rw [hc]; exact List.mem_singleton.mpr rfl)
  exact absurd hg (by decide)

end Link

end TypegoSdk.Dds
