import TypegoSdk.Lib.While
import Mathlib.Data.List.Induction

/-!
# SubscriptionBase (dds_wrapper/common/Subscription.h)

The time of the last message starts 1000 ms before the construction, the
timeout of that moment, and only the callback of the form without a handler
sets it later. `isTimeout` compares it with the timeout of the moment of the
question. Times are nanoseconds of the steady clock.
-/

namespace TypegoSdk.Dds
open TypegoSdk.Lib

/- `std::chrono::milliseconds(n)`. -/
def milliseconds (n : ℕ) : ℤ := n * 1000000

structure SubscriptionBase (M : Type) where
  timeoutMs : UInt32
  lastUpdateTime : ℤ
  msg : M

/- What happens to a subscription. -/
inductive Use (M : Type) where
  | deliver (msg : M)
  | setTimeoutMs (timeoutMs : UInt32)

variable {M : Type}

namespace SubscriptionBase

/- The constructor at the time `t`; `msg_` is left as its type makes it. -/
def create (t : ℤ) (msg : M) : SubscriptionBase M :=
  ⟨1000, t - milliseconds 1000, msg⟩

/- With a handler, a message goes to the handler alone. -/
def use (handler : Bool) (s : SubscriptionBase M) : ℤ × Use M → SubscriptionBase M
  | (now, .deliver msg) => if handler then s else {s with lastUpdateTime := now, msg := msg}
  | (_, .setTimeoutMs timeoutMs) => {s with timeoutMs := timeoutMs}

def isTimeout (s : SubscriptionBase M) (now : ℤ) : Bool :=
  now - s.lastUpdateTime > milliseconds s.timeoutMs.toNat

/- The subscription after a history. -/
def after (handler : Bool) (t : ℤ) (msg : M) (history : List (ℤ × Use M)) : SubscriptionBase M :=
  history.foldl (use handler) (create t msg)

end SubscriptionBase

open SubscriptionBase

/-! ### Deliveries -/

/- The clock does not go back. -/
def Clocked (history : List (ℤ × Use M)) : Prop := history.Pairwise fun a b => a.1 ≤ b.1

/- The timeout that is set at the end of a history. -/
def timeoutOf (history : List (ℤ × Use M)) : UInt32 :=
  history.foldl (fun timeout u => match u.2 with | .setTimeoutMs ms => ms | .deliver _ => timeout)
    1000

def Delivered (history : List (ℤ × Use M)) : Prop := ∃ t msg, (t, Use.deliver msg) ∈ history

/-- Some message was delivered at most the timeout ago. -/
def Recent (history : List (ℤ × Use M)) (now : ℤ) : Prop :=
  ∃ t msg, (t, Use.deliver msg) ∈ history ∧ now - t ≤ milliseconds (timeoutOf history).toNat

/- The timeout reaches back to the 1000 ms before the construction. -/
def Reaches (created : ℤ) (history : List (ℤ × Use M)) (now : ℤ) : Prop :=
  now - created + milliseconds 1000 ≤ milliseconds (timeoutOf history).toNat

/-- When `isTimeout` tells the truth: without a handler, behind the first message or
as long as the timeout does not reach back to the construction; with one, if
it reaches back just when there is a recent message. -/
def Truthful (handler : Bool) (created : ℤ) (history : List (ℤ × Use M)) (now : ℤ) : Prop :=
  if handler then Recent history now ↔ Reaches created history now
  else Delivered history ∨ ¬Reaches created history now

section History
variable {created : ℤ} {msg : M} {history : List (ℤ × Use M)}

theorem after_append (handler : Bool) (u : ℤ × Use M) :
    after handler created msg (history ++ [u]) = use handler (after handler created msg history) u := by
  simp [after]

theorem after_timeoutMs (handler : Bool) :
    (after handler created msg history).timeoutMs = timeoutOf history := by
  induction history using List.reverseRecOn with
  | nil => rfl
  | append_singleton history u ih =>
    rw [after_append, timeoutOf, List.foldl_append]
    obtain ⟨t, u⟩ := u
    cases u with
    | deliver m =>
      cases handler with
      | false => exact ih
      | true => exact ih
    | setTimeoutMs ms => rfl

/- A handler hides every message. -/
theorem after_handler :
    (after true created msg history).lastUpdateTime = created - milliseconds 1000 := by
  induction history using List.reverseRecOn with
  | nil => rfl
  | append_singleton history u ih =>
    rw [after_append]
    obtain ⟨t, u⟩ := u
    cases u with
    | deliver m => exact ih
    | setTimeoutMs ms => exact ih

/- Without one, the time is that of the last message. -/
variable (created msg) in
theorem after_plain (h : Clocked history) :
    (¬Delivered history ∧
      (after false created msg history).lastUpdateTime = created - milliseconds 1000) ∨
    (∃ m, ((after false created msg history).lastUpdateTime, Use.deliver m) ∈ history) ∧
      ∀ t m, (t, Use.deliver m) ∈ history →
        t ≤ (after false created msg history).lastUpdateTime := by
  induction history using List.reverseRecOn with
  | nil =>
    left
    exact ⟨by simp [Delivered], rfl⟩
  | append_singleton history u ih =>
    obtain ⟨hbefore, -, hlast⟩ := List.pairwise_append.mp h
    rw [after_append]
    obtain ⟨now, u⟩ := u
    cases u with
    | deliver m =>
      right
      have hnow : (use false (after false created msg history) (now, .deliver m)).lastUpdateTime =
          now := rfl
      rw [hnow]
      refine ⟨⟨m, by simp⟩, fun t m' hmem => ?_⟩
      rcases List.mem_append.mp hmem with hmem | hmem
      · exact hlast _ hmem _ List.mem_cons_self
      · cases List.mem_singleton.mp hmem
        exact Int.le_refl now
    | setTimeoutMs ms =>
      have hsame : (use false (after false created msg history) (now, .setTimeoutMs ms)).lastUpdateTime =
          (after false created msg history).lastUpdateTime := rfl
      have hmem : ∀ t m, (t, Use.deliver m) ∈ history ++ [(now, .setTimeoutMs ms)] ↔
          (t, Use.deliver m) ∈ history := by simp
      simp only [hsame, Delivered, hmem]
      exact ih hbefore

end History

theorem isTimeout_false_iff (handler : Bool) (created : ℤ) (msg : M) (history : List (ℤ × Use M))
    (now : ℤ) : isTimeout (after handler created msg history) now = false ↔
      now - (after handler created msg history).lastUpdateTime ≤
        milliseconds (timeoutOf history).toNat := by
  rw [isTimeout, after_timeoutMs, decide_eq_false_iff_not, gt_iff_lt, Int.not_lt]

/-- One question: the answer is right exactly under the condition. -/
theorem isTimeout_truthful_iff (handler : Bool) (created : ℤ) (msg : M)
    {history : List (ℤ × Use M)} (h : Clocked history) (now : ℤ) :
    (isTimeout (after handler created msg history) now = false ↔ Recent history now) ↔
      Truthful handler created history now := by
  rw [isTimeout_false_iff]
  cases handler with
  | true =>
    have hreach : now - (created - milliseconds 1000) ≤ milliseconds (timeoutOf history).toNat ↔
        Reaches created history now := by
      rw [Reaches]
      omega
    rw [after_handler, hreach, Truthful, if_pos rfl]
    exact iff_comm
  | false =>
    rw [Truthful, if_neg (by simp)]
    rcases after_plain created msg h with ⟨hnone, hlast⟩ | ⟨⟨m, hmem⟩, hmax⟩
    · have hold : ¬Recent history now := fun ⟨t, m, hmem, _⟩ => hnone ⟨t, m, hmem⟩
      have hreach : now - (created - milliseconds 1000) ≤ milliseconds (timeoutOf history).toNat ↔
          Reaches created history now := by
        rw [Reaches]
        omega
      rw [hlast, hreach]
      simp [hold, hnone]
    · have hdelivered : Delivered history := ⟨_, m, hmem⟩
      have hrecent : now - (after false created msg history).lastUpdateTime ≤
          milliseconds (timeoutOf history).toNat ↔ Recent history now := by
        constructor
        · intro hle
          exact ⟨_, m, hmem, hle⟩
        · rintro ⟨t, m', hmem', hle⟩
          have hlate := hmax t m' hmem'
          omega
      simp [hrecent, hdelivered]

/-! ### wait_for_connection -/

/-- The times at which `wait_for_connection` asks, and what has happened until then;
it sleeps 100 ms or more between the questions. -/
structure Waiting (M : Type) where
  polls : ℕ → ℤ
  history : ℕ → List (ℤ × Use M)
  clocked : ∀ k, Clocked (history k)
  grows : ∀ k, history k <+: history (k + 1)
  sleeps : ∀ k, polls k + milliseconds 100 ≤ polls (k + 1)

/- The question after which it returns; `none` while the bound is too small. -/
def waitForConnection (handler : Bool) (created : ℤ) (msg : M) (w : Waiting M) (fuel : ℕ) :
    Option ℕ :=
  (whileLoop (fun k => isTimeout (after handler created msg (w.history k)) (w.polls k)) (· + 1)
    fuel 0).map (·.2)

theorem Waiting.polls_ge (w : Waiting M) (k : ℕ) : w.polls 0 + k ≤ w.polls k := by
  induction k with
  | zero => simp
  | succ k ih =>
    have hsleep := w.sleeps k
    rw [milliseconds] at hsleep
    omega

section Wait
variable {handler : Bool} {created : ℤ} {msg : M} {w : Waiting M}

/- It returns at the first question that is answered with false. -/
theorem waitForConnection_iff {k : ℕ} :
    (∃ fuel, waitForConnection handler created msg w fuel = some k) ↔
      isTimeout (after handler created msg (w.history k)) (w.polls k) = false ∧
      ∀ j < k, isTimeout (after handler created msg (w.history j)) (w.polls j) = true := by
  constructor
  · rintro ⟨fuel, hk⟩
    obtain ⟨⟨n, k'⟩, hloop, rfl⟩ := Option.map_eq_some_iff.mp hk
    have hexit := whileLoop_exit
      (fun i => ∀ j < i, isTimeout (after handler created msg (w.history j)) (w.polls j) = true)
      (fun i hi hasked j hj => by
        rcases Nat.lt_succ_iff_lt_or_eq.mp hj with hlt | rfl
        · exact hi j hlt
        · exact hasked)
      (fun j hj => absurd hj (Nat.not_lt_zero j)) hloop
    exact ⟨hexit.2, hexit.1⟩
  · rintro ⟨hend, hbefore⟩
    have hcounts : ∃ t, whileLoop
        (fun i => isTimeout (after handler created msg (w.history i)) (w.polls i)) (· + 1) k 0 =
          some (k - 0, t) ∧ t = k := by
      refine whileLoop_counts (fun i s => s = i) k ?_ ?_ (Nat.zero_le k) rfl (Nat.sub_le k 0)
      · rintro i s hi rfl
        exact ⟨hbefore s hi, rfl⟩
      · rintro s rfl
        exact hend
    obtain ⟨t, hloop, rfl⟩ := hcounts
    exact ⟨t, by rw [waitForConnection, hloop, Option.map_some]⟩

/- A question that is answered with false ends the loop, if not an earlier one. -/
theorem waitForConnection_ends {k : ℕ}
    (h : isTimeout (after handler created msg (w.history k)) (w.polls k) = false) :
    ∃ fuel j, j ≤ k ∧ waitForConnection handler created msg w fuel = some j := by
  induction k using Nat.strong_induction_on with
  | _ k ih =>
    by_cases hbefore : ∀ j < k, isTimeout (after handler created msg (w.history j)) (w.polls j) = true
    · obtain ⟨fuel, hk⟩ := waitForConnection_iff.mpr ⟨h, hbefore⟩
      exact ⟨fuel, k, Nat.le_refl k, hk⟩
    · obtain ⟨j, hj, hfalse⟩ : ∃ j < k,
          ¬isTimeout (after handler created msg (w.history j)) (w.polls j) = true := by
        simpa only [not_forall, exists_prop] using hbefore
      obtain ⟨fuel, i, hi, hret⟩ := ih j hj (Bool.eq_false_iff.mpr hfalse)
      exact ⟨fuel, i, Nat.le_trans hi (Nat.le_of_lt hj), hret⟩

end Wait

/-- The answers of a subscription are right exactly under `Truthful`. Where it holds at the
question at which `wait_for_connection` returns, there was a message before; where it holds
at a question that finds a recent message, it has returned by then. So it returns without a
handler once messages keep arriving, and with one at the first question at which the timeout
reaches back to the construction, whatever arrives. -/
theorem connection_truthful_iff (handler : Bool) (created : ℤ) (msg : M) :
    (∀ history : List (ℤ × Use M), Clocked history → ∀ now,
      (isTimeout (after handler created msg history) now = false ↔ Recent history now) ↔
        Truthful handler created history now) ∧
    ∀ w : Waiting M,
      (∀ fuel k, waitForConnection handler created msg w fuel = some k →
        Truthful handler created (w.history k) (w.polls k) → Delivered (w.history k)) ∧
      (∀ k, Recent (w.history k) (w.polls k) → Truthful handler created (w.history k) (w.polls k) →
        ∃ fuel j, j ≤ k ∧ waitForConnection handler created msg w fuel = some j) ∧
      (handler = false → ∀ t, (∀ k, t ≤ w.polls k → Recent (w.history k) (w.polls k)) →
        ∃ fuel k, waitForConnection handler created msg w fuel = some k) ∧
      (handler = true → ∀ k, (∃ fuel, waitForConnection handler created msg w fuel = some k) ↔
        Reaches created (w.history k) (w.polls k) ∧
          ∀ j < k, ¬Reaches created (w.history j) (w.polls j)) := by
  refine ⟨fun history h now => isTimeout_truthful_iff handler created msg h now, ?_⟩
  intro w
  have hright : ∀ k, Truthful handler created (w.history k) (w.polls k) →
      (isTimeout (after handler created msg (w.history k)) (w.polls k) = false ↔
        Recent (w.history k) (w.polls k)) := fun k =>
    (isTimeout_truthful_iff handler created msg (w.clocked k) (w.polls k)).mpr
  refine ⟨?_, ?_, ?_, ?_⟩
  · intro fuel k hk htrue
    obtain ⟨hend, -⟩ := waitForConnection_iff.mp ⟨fuel, hk⟩
    obtain ⟨t, m, hmem, -⟩ := (hright k htrue).mp hend
    exact ⟨t, m, hmem⟩
  · intro k hrecent htrue
    exact waitForConnection_ends ((hright k htrue).mpr hrecent)
  · rintro rfl t harrive
    -- enough questions lie behind the time from which on messages arrive
    have hlate := w.polls_ge (t - w.polls 0).toNat
    obtain ⟨t', m, hmem, hle⟩ := harrive (t - w.polls 0).toNat (by omega)
    have htrue : Truthful false created (w.history (t - w.polls 0).toNat)
        (w.polls (t - w.polls 0).toNat) := .inl ⟨t', m, hmem⟩
    obtain ⟨fuel, j, -, hret⟩ := waitForConnection_ends ((hright _ htrue).mpr ⟨t', m, hmem, hle⟩)
    exact ⟨fuel, j, hret⟩
  · rintro rfl k
    have hreaches : ∀ j, isTimeout (after true created msg (w.history j)) (w.polls j) = false ↔
        Reaches created (w.history j) (w.polls j) := by
      intro j
      rw [isTimeout_false_iff, after_handler, Reaches]
      constructor
      · intro h
        omega
      · intro h
        omega
    rw [waitForConnection_iff, hreaches]
    refine and_congr_right fun _ => forall_congr' fun j => imp_congr_right fun _ => ?_
    rw [← hreaches j, Bool.not_eq_false]

/- A timeout of 2 s is asked for half a second after the construction, without any
message; and a message arrives in the form with a handler. -/
theorem connection_untruthful :
    isTimeout (after false 0 () [(0, .setTimeoutMs 2000)]) (milliseconds 500) = false ∧
    ¬Recent [(0, (Use.setTimeoutMs 2000 : Use Unit))] (milliseconds 500) ∧
    isTimeout (after true 0 () [(milliseconds 3000, .deliver ())]) (milliseconds 3000) = true ∧
    Recent [(milliseconds 3000, .deliver ())] (milliseconds 3000) := by
  refine ⟨by decide, ?_, by decide, ?_⟩
  · rintro ⟨t, m, hmem, -⟩
    simp at hmem
  · exact ⟨milliseconds 3000, (), List.mem_cons_self, by decide⟩

end TypegoSdk.Dds
