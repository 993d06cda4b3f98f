import TypegoSdk.Lib.Exec

/-!
# The blocking queue (common/block_queue.hpp)

`BlockQueue` is the data under the mutex, with the hand-kept counter
`mCurSize`. `Sys` adds the threads: every section that runs under the mutex is
one step, and a `Get` on an empty queue is two, because `MutexCond::Wait`
releases the mutex in between. A notify with no waiter is not remembered.
-/

namespace TypegoSdk.Dds
open TypegoSdk.Lib
variable {ι α : Type}

/-! ### The data -/

structure BlockQueue (α : Type) where
  maxSize : UInt64
  curSize : UInt64
  queue : List α
  deriving DecidableEq

def utQueueMaxLen : UInt64 := 2147483647

namespace BlockQueue

def create (maxSize : UInt64) : BlockQueue α :=
  ⟨if maxSize = 0 then utQueueMaxLen else maxSize, 0, []⟩

/- `mQueue.pop_front(); mCurSize--`. -/
def popFront (q : BlockQueue α) : BlockQueue α :=
  {q with queue := q.queue.tail, curSize := q.curSize - 1}

def emplace (q : BlockQueue α) (t : α) (putfront : Bool) : BlockQueue α :=
  {q with queue := if putfront then t :: q.queue else q.queue ++ [t], curSize := q.curSize + 1}

def put (q : BlockQueue α) (t : α) (replace putfront : Bool) : BlockQueue α × Bool :=
  if q.curSize ≥ q.maxSize then
    if !replace then (q, false) else (q.popFront.emplace t putfront, false)
  else (q.emplace t putfront, true)

/-- The counter is the length of the list and stays within a positive bound. -/
structure Valid (q : BlockQueue α) : Prop where
  count : q.curSize.toNat = q.queue.length
  bound : q.queue.length ≤ q.maxSize.toNat
  pos : 0 < q.maxSize.toNat

theorem create_valid (maxSize : UInt64) : (create maxSize : BlockQueue α).Valid := by
  refine ⟨rfl, Nat.zero_le _, ?_⟩
  show 0 < (if maxSize = 0 then utQueueMaxLen else maxSize).toNat
  split
  · decide
  · rename_i h
    exact Nat.pos_of_ne_zero fun h0 => h (UInt64.toNat_inj.mp h0)

theorem full_iff (q : BlockQueue α) (h : q.Valid) :
    q.curSize ≥ q.maxSize ↔ q.queue.length = q.maxSize.toNat := by
  have hc := h.count
  have hb := h.bound
  rw [ge_iff_le, UInt64.le_iff_toNat_le]
  omega

theorem popFront_valid (q : BlockQueue α) (h : q.Valid) (hq : q.queue ≠ []) :
    q.popFront.Valid ∧ q.popFront.queue.length + 1 = q.queue.length := by
  have hc := h.count
  have hb := h.bound
  have hl := List.length_pos_of_ne_nil hq
  have ht : q.popFront.queue.length + 1 = q.queue.length := by
    simp only [popFront, List.length_tail]
    omega
  have hone : (1 : UInt64) ≤ q.curSize := by
    rw [UInt64.le_iff_toNat_le]
    show 1 ≤ q.curSize.toNat
    omega
  have hs : q.popFront.curSize.toNat = q.curSize.toNat - 1 := UInt64.toNat_sub_of_le _ _ hone
  have hm : q.popFront.maxSize = q.maxSize := rfl
  refine ⟨⟨by omega, by rw [hm]; omega, h.pos⟩, ht⟩

theorem emplace_length (q : BlockQueue α) (t : α) (putfront : Bool) :
    (q.emplace t putfront).queue.length = q.queue.length + 1 := by
  cases putfront <;> simp [emplace]

/- There is room below the bound, so the counter does not wrap. -/
theorem emplace_valid (q : BlockQueue α) (t : α) (putfront : Bool) (h : q.Valid)
    (hr : q.queue.length < q.maxSize.toNat) : (q.emplace t putfront).Valid := by
  have hc := h.count
  have hlt := q.maxSize.toNat_lt
  have hl := emplace_length q t putfront
  have hs : (q.emplace t putfront).curSize.toNat = q.curSize.toNat + 1 := by
    show (q.curSize + 1).toNat = _
    rw [UInt64.toNat_add]
    exact Nat.mod_eq_of_lt (by show q.curSize.toNat + 1 < 2 ^ 64; omega)
  have hm : (q.emplace t putfront).maxSize = q.maxSize := rfl
  exact ⟨by omega, by rw [hm]; omega, h.pos⟩

theorem put_result (q : BlockQueue α) (t : α) (replace putfront : Bool) (h : q.Valid) :
    (q.put t replace putfront).2 = false ↔ q.queue.length = q.maxSize.toNat := by
  have hf := full_iff q h
  unfold put
  split
  · rename_i hc
    cases replace <;> simp [hf.mp hc]
  · rename_i hc
    simp [mt hf.mpr hc]

theorem ne_nil_of_full (q : BlockQueue α) (h : q.Valid) (hf : q.curSize ≥ q.maxSize) :
    q.queue ≠ [] := by
  intro hq
  have hl := (full_iff q h).mp hf
  have hp := h.pos
  rw [hq, List.length_nil] at hl
  omega

end BlockQueue

/-! ### The threads -/

/-- A thread inside `MutexCond::Wait` of a `Get(microsec)`. `interrupted` is not
in the source: it records whether an Interrupt was called since the Get began. -/
structure Waiter (ι : Type) where
  tid : ι
  microsec : UInt64
  interrupted : Bool
  deriving DecidableEq

/-- What the callers of the queue observe, in order. `evicted` is the element a
replacing Put drops. -/
inductive Event (ι α : Type) where
  | put (t : α) (replace result : Bool) (evicted : Option α)
  | got (tid : ι) (t : α)
  | failed (w : Waiter ι)
  | interrupt
  deriving DecidableEq

structure Sys (ι α : Type) where
  q : BlockQueue α
  blocked : List (Waiter ι)
  woken : List (Waiter ι)
  log : List (Event ι α)
  deriving DecidableEq

/- `pick` chooses the waiter that a notify wakes. -/
inductive Act (ι α : Type) where
  | put (t : α) (replace putfront : Bool) (pick : ℕ)
  | get (tid : ι) (microsec : UInt64)
  | resume (tid : ι)
  | timeout (tid : ι)
  | interrupt (all : Bool) (pick : ℕ)

namespace Sys

def init (maxSize : UInt64) : Sys ι α := ⟨.create maxSize, [], [], []⟩

def notify (s : Sys ι α) (pick : ℕ) : Sys ι α :=
  match s.blocked[pick % s.blocked.length]? with
  | none => s
  | some w =>
    {s with blocked := s.blocked.eraseIdx (pick % s.blocked.length), woken := s.woken ++ [w]}

def notifyAll (s : Sys ι α) : Sys ι α := {s with blocked := [], woken := s.woken ++ s.blocked}

def record (s : Sys ι α) (e : Event ι α) : Sys ι α := {s with log := s.log ++ [e]}

def put (s : Sys ι α) (t : α) (replace putfront : Bool) (pick : ℕ) : Sys ι α :=
  let r := s.q.put t replace putfront
  let evicted := if r.2 || !replace then none else s.q.queue.head?
  let s' := {s with q := r.1}.record (.put t replace r.2 evicted)
  -- the early return of a rejected Put does not notify
  if !r.2 && !replace then s' else s'.notify pick

/- The end of GetTimeout: take the front if there is one. -/
def take (s : Sys ι α) (w : Waiter ι) : Sys ι α :=
  match s.q.queue with
  | [] => s.record (.failed w)
  | t :: _ => {s with q := s.q.popFront}.record (.got w.tid t)

def markInterrupted (ws : List (Waiter ι)) : List (Waiter ι) :=
  ws.map fun w => {w with interrupted := true}

def interrupt (s : Sys ι α) (all : Bool) (pick : ℕ) : Sys ι α :=
  let s' := {s with blocked := markInterrupted s.blocked, woken := markInterrupted s.woken}.record
    .interrupt
  if all then s'.notifyAll else s'.notify pick

variable [DecidableEq ι]

def step (s : Sys ι α) : Act ι α → Option (Sys ι α)
  | .put t replace putfront pick => some (s.put t replace putfront pick)
  | .get tid microsec =>
    if (s.blocked ++ s.woken).any (fun w => w.tid = tid) then none
    else if s.q.queue.isEmpty then
      some {s with blocked := s.blocked ++ [⟨tid, microsec, false⟩]}
    else some (s.take ⟨tid, microsec, false⟩)
  | .resume tid =>
    match s.woken.find? (fun w => w.tid = tid) with
    | none => none
    | some w => some ({s with woken := s.woken.eraseP (fun w => w.tid = tid)}.take w)
  | .timeout tid =>
    match s.blocked.find? (fun w => w.tid = tid) with
    | none => none
    | some w =>
      if w.microsec = 0 then none
      else some ({s with blocked := s.blocked.eraseP (fun w => w.tid = tid)}.record (.failed w))
  | .interrupt all pick => some (s.interrupt all pick)

/- What a Get, a woken Get and a timed out one have found and done. -/
section Inversion
variable {s s' : Sys ι α} {tid : ι}

theorem get_inv {microsec : UInt64} (h : s.step (.get tid microsec) = some s') :
    (∀ w ∈ s.blocked ++ s.woken, w.tid ≠ tid) ∧
      ((s.q.queue = [] ∧ s' = {s with blocked := s.blocked ++ [⟨tid, microsec, false⟩]}) ∨
        (s.q.queue ≠ [] ∧ s' = s.take ⟨tid, microsec, false⟩)) := by
  simp only [step] at h
  split at h
  · cases h
  · rename_i hfree
    refine ⟨fun w hw ht => hfree (List.any_eq_true.mpr ⟨w, hw, by simpa using ht⟩), ?_⟩
    split at h
    · rename_i hq
      cases h
      exact .inl ⟨List.isEmpty_iff.mp hq, rfl⟩
    · rename_i hq
      cases h
      exact .inr ⟨fun he => hq (List.isEmpty_iff.mpr he), rfl⟩

theorem resume_inv (h : s.step (.resume tid) = some s') :
    ∃ w, s.woken.find? (fun w => w.tid = tid) = some w ∧
      s' = {s with woken := s.woken.eraseP (fun w => w.tid = tid)}.take w := by
  simp only [step] at h
  split at h
  · cases h
  · rename_i w hw
    cases h
    exact ⟨w, hw, rfl⟩

theorem timeout_inv (h : s.step (.timeout tid) = some s') :
    ∃ w, w.microsec ≠ 0 ∧
      s' = {s with blocked := s.blocked.eraseP (fun w => w.tid = tid)}.record (.failed w) := by
  simp only [step] at h
  split at h
  · cases h
  · split at h
    · cases h
    · rename_i w _ h0
      cases h
      exact ⟨w, h0, rfl⟩

end Inversion

/- The state after a schedule, from an empty queue of the given size. -/
def after (maxSize : UInt64) (acts : List (Act ι α)) : Sys ι α := exec step (init maxSize) acts

end Sys

end TypegoSdk.Dds
