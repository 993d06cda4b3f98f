import TypegoSdk.Lib.While
import TypegoSdk.Lib.Exec
import Mathlib.Algebra.Ring.Int.Defs

/-!
# Waiting for a reader (include/unitree/common/dds/dds_entity.hpp)

`DdsWriter::WaitReader` sleeps in slices for half of the time it is given, and
for one second at most, until a reader is matched. The last slice may go beyond
the half; the whole time is never exceeded, because a time below one slice is
not waited at all. Times are microseconds. They stay between minus one slice
and one second, so `int64_t` is modelled by `ℤ`.
-/

namespace TypegoSdk.Dds
open TypegoSdk.Lib

def waitMatchedTimeSlice : ℤ := 10000
def waitMatchedTimeMax : ℤ := 1000000

inductive WriterEvent where
  | polled (currentCount : ℤ)
  | slept (microsec : ℤ)
  | wrote
  deriving DecidableEq

/-- The local variable of the loop, the number of polls made, and what was done. -/
structure WaitState where
  waitTime : ℤ
  polls : ℕ
  log : List WriterEvent

namespace WaitState

def start (waitTime : ℤ) : WaitState := ⟨waitTime, 0, []⟩

/- `currentCount k` is what the poll `k` of the matched status finds. -/
def waiting (currentCount : ℕ → ℤ) (s : WaitState) : Bool :=
  0 < s.waitTime && currentCount s.polls == 0

def slice (currentCount : ℕ → ℤ) (s : WaitState) : WaitState where
  waitTime := s.waitTime - waitMatchedTimeSlice
  polls := s.polls + 1
  log := s.log ++ [.polled (currentCount s.polls), .slept waitMatchedTimeSlice]

end WaitState

open WaitState

/- The time that is waited at most: half of what is given, and no more than a second. -/
def waitTimeOf (waitMicrosec : ℤ) : ℤ :=
  let waitTime := waitMicrosec / 2
  if waitTime > waitMatchedTimeMax then waitMatchedTimeMax else waitTime

/- What WaitReader does; `none` while the bound on its rounds is too small. -/
def waitReader (currentCount : ℕ → ℤ) (waitMicrosec : ℤ) (fuel : ℕ) : Option (List WriterEvent) :=
  if waitMicrosec < waitMatchedTimeSlice then some []
  else
    (whileLoop (waiting currentCount) (slice currentCount) fuel
      (start (waitTimeOf waitMicrosec))).map fun r => r.2.log

/- `Write`, whose native write succeeds or throws. -/
def write (currentCount : ℕ → ℤ) (written : Bool) (waitMicrosec : ℤ) (fuel : ℕ) :
    Option (List WriterEvent × Bool) :=
  let wait := if waitMicrosec > 0 then waitReader currentCount waitMicrosec fuel else some []
  wait.map fun log => if written then (log ++ [.wrote], true) else (log, false)

/-! ### What the log says -/

def WriterEvent.sleep : WriterEvent → ℤ
  | .slept microsec => microsec
  | _ => 0

def totalSleep (log : List WriterEvent) : ℤ := (log.map WriterEvent.sleep).sum

/-- Every sleep is one slice and follows a poll that has found no reader. -/
def Sliced (log : List WriterEvent) : Prop :=
  ∀ before microsec rest, log = before ++ .slept microsec :: rest →
    microsec = waitMatchedTimeSlice ∧ before.getLast? = some (.polled 0)

/-- The waiting up to the round `n`, from the time `initial`. -/
structure Waited (initial : ℤ) (n : ℕ) (s : WaitState) : Prop where
  time : s.waitTime = initial - waitMatchedTimeSlice * n
  above : -waitMatchedTimeSlice < s.waitTime
  total : totalSleep s.log = waitMatchedTimeSlice * n
  sliced : Sliced s.log

theorem sliced_append {log : List WriterEvent} (h : Sliced log) :
    Sliced (log ++ [.polled 0, .slept waitMatchedTimeSlice]) := by
  intro before microsec rest hlog
  have hlast : log ++ [.polled 0] ++ [.slept waitMatchedTimeSlice] =
      before ++ .slept microsec :: rest := by
    rw [List.append_assoc]
    exact hlog
  rcases snoc_split hlast with ⟨-, rfl, hslept⟩ | ⟨rest', -, hpoll⟩
  · cases hslept
    exact ⟨rfl, List.getLast?_concat⟩
  · rcases snoc_split hpoll with ⟨-, -, hslept⟩ | ⟨rest'', -, hlog⟩
    · cases hslept
    · exact h before microsec rest'' hlog

theorem start_waited {initial : ℤ} (h : 0 ≤ initial) : Waited initial 0 (start initial) where
  time := by simp [start]
  above := by
    show -waitMatchedTimeSlice < initial
    rw [waitMatchedTimeSlice]
    omega
  total := by simp [start, totalSleep]
  sliced before microsec rest hlog := by simp [start] at hlog

theorem slice_waited {currentCount : ℕ → ℤ} {initial : ℤ} {n : ℕ} {s : WaitState}
    (h : Waited initial n s) (hs : waiting currentCount s = true) :
    Waited initial (n + 1) (slice currentCount s) := by
  simp only [waiting, Bool.and_eq_true, decide_eq_true_eq, beq_iff_eq] at hs
  obtain ⟨hpos, hnone⟩ := hs
  have htime := h.time
  have htotal := h.total
  refine ⟨?_, ?_, ?_, ?_⟩
  · show s.waitTime - waitMatchedTimeSlice = initial - waitMatchedTimeSlice * (n + 1 : ℕ)
    rw [waitMatchedTimeSlice] at htime ⊢
    push_cast
    omega
  · show -waitMatchedTimeSlice < s.waitTime - waitMatchedTimeSlice
    omega
  · simp only [slice, totalSleep, List.map_append, List.sum_append] at htotal ⊢
    rw [htotal]
    simp only [WriterEvent.sleep, List.map_cons, List.map_nil, List.sum_cons, List.sum_nil,
      waitMatchedTimeSlice]
    push_cast
    omega
  · simp only [slice, hnone]
    exact sliced_append h.sliced

/-! ### The loop -/

theorem iterate_waitTime (currentCount : ℕ → ℤ) (s : WaitState) (k : ℕ) :
    ((slice currentCount)^[k] s).waitTime = s.waitTime - waitMatchedTimeSlice * k := by
  induction k with
  | zero => simp
  | succ k ih =>
    rw [Function.iterate_succ_apply']
    show ((slice currentCount)^[k] s).waitTime - waitMatchedTimeSlice = _
    rw [ih, waitMatchedTimeSlice]
    push_cast
    omega

theorem loop_ends (currentCount : ℕ → ℤ) (s : WaitState) :
    ∃ fuel r, whileLoop (waiting currentCount) (slice currentCount) fuel s = some r := by
  have hover : waiting currentCount ((slice currentCount)^[s.waitTime.toNat] s) = false := by
    have htime := iterate_waitTime currentCount s s.waitTime.toNat
    have hneg : ¬0 < ((slice currentCount)^[s.waitTime.toNat] s).waitTime := by
      rw [htime, waitMatchedTimeSlice]
      omega
    simp [waiting, hneg]
  obtain ⟨r, hr⟩ := whileLoop_ends hover
  exact ⟨_, r, hr⟩

theorem loop_waited {currentCount : ℕ → ℤ} {initial : ℤ} (hinitial : 0 ≤ initial) {fuel n : ℕ}
    {s : WaitState}
    (h : whileLoop (waiting currentCount) (slice currentCount) fuel (start initial) = some (n, s)) :
    ∃ n, Waited initial n s :=
  (whileLoop_exit (fun s => ∃ n, Waited initial n s)
    (fun _ ⟨n, hw⟩ hs => ⟨n + 1, slice_waited hw hs⟩) ⟨0, start_waited hinitial⟩ h).1

/-- Within the budget: slices behind polls that found no reader, for no longer
than the given time and one second. -/
structure WithinBudget (waitMicrosec : ℤ) (log : List WriterEvent) : Prop where
  sliced : Sliced log
  budget : totalSleep log ≤ waitMicrosec
  second : totalSleep log ≤ waitMatchedTimeMax

theorem withinBudget_nil {waitMicrosec : ℤ} (h : 0 ≤ waitMicrosec) : WithinBudget waitMicrosec [] where
  sliced before microsec rest hlog := by simp at hlog
  budget := h
  second := by decide

theorem waitTimeOf_bounds {waitMicrosec : ℤ} (h : 0 ≤ waitMicrosec) :
    0 ≤ waitTimeOf waitMicrosec ∧ waitTimeOf waitMicrosec ≤ waitMicrosec / 2 ∧
      waitTimeOf waitMicrosec ≤ 1000000 := by
  rw [waitTimeOf, waitMatchedTimeMax]
  split
  · omega
  · omega

/- The last slice goes beyond the half, not beyond the whole. -/
theorem waited_within {waitMicrosec : ℤ} (h : waitMatchedTimeSlice ≤ waitMicrosec) {n : ℕ}
    {s : WaitState} (hs : Waited (waitTimeOf waitMicrosec) n s) : WithinBudget waitMicrosec s.log := by
  have htime := hs.time
  have habove := hs.above
  have htotal := hs.total
  rw [waitMatchedTimeSlice] at h htime habove htotal
  obtain ⟨-, hhalf, hmax⟩ := waitTimeOf_bounds (show 0 ≤ waitMicrosec by omega)
  refine ⟨hs.sliced, ?_, ?_⟩
  · omega
  · rw [waitMatchedTimeMax]
    omega

/-- WaitReader ends, whatever the polls find, and everything that it does is within
the budget. `Write` makes its attempt behind it. -/
theorem waitReader_within (currentCount : ℕ → ℤ) (waitMicrosec : ℤ) (h : 0 < waitMicrosec) :
    ∃ fuel log, waitReader currentCount waitMicrosec fuel = some log ∧
      WithinBudget waitMicrosec log ∧
      ∀ written, write currentCount written waitMicrosec fuel =
        some (if written then (log ++ [.wrote], true) else (log, false)) := by
  have hwrite : ∀ {fuel log}, waitReader currentCount waitMicrosec fuel = some log →
      ∀ written, write currentCount written waitMicrosec fuel =
        some (if written then (log ++ [.wrote], true) else (log, false)) := by
    intro fuel log hlog written
    rw [write, if_pos h, hlog, Option.map_some]
  by_cases hslice : waitMicrosec < waitMatchedTimeSlice
  · have hlog : waitReader currentCount waitMicrosec 0 = some [] := by rw [waitReader, if_pos hslice]
    exact ⟨0, [], hlog, withinBudget_nil h.le, hwrite hlog⟩
  · obtain ⟨fuel, ⟨n, s⟩, hloop⟩ := loop_ends currentCount (start (waitTimeOf waitMicrosec))
    obtain ⟨k, hwaited⟩ := loop_waited (waitTimeOf_bounds h.le).1 hloop
    have hlog : waitReader currentCount waitMicrosec fuel = some s.log := by
      rw [waitReader, if_neg hslice, hloop, Option.map_some]
    exact ⟨fuel, s.log, hlog, waited_within (by omega) hwaited, hwrite hlog⟩

/- A wait of less than two slices with no reader is one slice. -/
theorem waitReader_one_slice :
    waitReader (fun _ => 0) 19999 1 = some [.polled 0, .slept 10000] ∧
    ∃ fuel log, waitReader (fun _ => 0) 19999 fuel = some log ∧ WithinBudget 19999 log ∧
      ∀ written, write (fun _ => 0) written 19999 fuel =
        some (if written then (log ++ [.wrote], true) else (log, false)) :=
  ⟨by decide, waitReader_within (fun _ => 0) 19999 (by decide)⟩

end TypegoSdk.Dds
