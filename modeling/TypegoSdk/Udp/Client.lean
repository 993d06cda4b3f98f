import TypegoSdk.Lib.Bytes
import TypegoSdk.Lib.Exec

/-!
# The client of a UDP service (example/go2/typego_high_state_service.cpp,
typego_livox_service.cpp, typego_livox_full_service.cpp)

The thread of `WaitForNextClient` takes the sender of every datagram as the new
client, and any number of threads call `sendtoClient`. The address of the client is
copied in pieces of any size, by both sides. The service of the high state guards the
copies with a mutex; the two Livox services do not.
-/

namespace TypegoSdk.Udp
open TypegoSdk.Lib

/-! ### The program -/

/- `sizeof(sockaddr_in)`. -/
def addrSize : ℕ := 16

abbrev Addr := { a : Bytes // a.length = addrSize }

/-- Where the thread of `WaitForNextClient` stands, named after what comes next. -/
inductive Waiting where
  | recv
  | lock (a : Addr)
  | copy (a : Addr) (pos : ℕ)
  | unlock (a : Addr)
  | exchange (a : Addr)

/-- Where a call of `sendtoClient` stands. `got` is the part of the address that `sendto` has
read. -/
inductive Sending where
  | load (data : Bytes)
  | lock (data : Bytes)
  | read (data got : Bytes)
  | unlock

inductive Holder (ι : Type) where
  | waiting
  | sending (i : ι)
  deriving DecidableEq

inductive Event (ι : Type) where
  | registered (a : Addr)
  | sent (i : ι) (dest data : Bytes)

structure Net (ι : Type) where
  clientAddr : Bytes
  clientReady : Bool
  clientMutex : Option (Holder ι)
  waiting : Waiting
  sending : ι → Option Sending
  log : List (Event ι)

/-- `recvfrom` returns; the waiting thread takes a step; a thread calls `sendtoClient`; it takes
a step. `pieces` is the number of bytes that are copied at once. -/
inductive Act (ι : Type) where
  | recvfrom (n : ℤ) (a : Addr)
  | wait (pieces : ℕ)
  | call (i : ι) (data : Bytes)
  | send (i : ι) (pieces : ℕ)

namespace Net
variable {ι : Type} [DecidableEq ι]

def init : Net ι := ⟨List.replicate addrSize 0, false, none, .recv, fun _ => none, []⟩

/- The mutex after `lock`; `none` while another thread holds it. -/
def acquire (mutex : Bool) (s : Net ι) (h : Holder ι) : Option (Option (Holder ι)) :=
  if mutex then
    match s.clientMutex with
    | none => some (some h)
    | some _ => none
  else some s.clientMutex

def waitStep (mutex : Bool) (s : Net ι) (pieces : ℕ) : Option (Net ι) :=
  match s.waiting with
  | .recv => none
  | .lock a => (s.acquire mutex .waiting).map fun m =>
      {s with clientMutex := m, waiting := .copy a 0}
  | .copy a pos =>
    let bs := (a.1.drop pos).take pieces
    some {s with
      clientAddr := store s.clientAddr pos bs
      waiting := if pos + bs.length < addrSize then .copy a (pos + bs.length) else .unlock a}
  | .unlock a =>
    some {s with clientMutex := none, waiting := .exchange a, log := s.log ++ [.registered a]}
  | .exchange _ => some {s with clientReady := true, waiting := .recv}

/- The call of a thread stands at `p`, or has returned. -/
def put (s : Net ι) (i : ι) (p : Option Sending) : Net ι :=
  {s with sending := Function.update s.sending i p}

def sendStep (mutex : Bool) (s : Net ι) (i : ι) (pieces : ℕ) : Option (Net ι) :=
  match s.sending i with
  | none => none
  | some (.load data) => some (s.put i (if s.clientReady then some (.lock data) else none))
  | some (.lock data) => (s.acquire mutex (.sending i)).map fun m =>
      {s.put i (some (.read data [])) with clientMutex := m}
  | some (.read data got) =>
    let got := got ++ (s.clientAddr.drop got.length).take pieces
    if got.length < addrSize then some (s.put i (some (.read data got)))
    else some {s.put i (some .unlock) with log := s.log ++ [.sent i got data]}
  | some .unlock => some {s.put i none with clientMutex := none}

/- Without the mutex the steps of `lock` and `unlock` do nothing. -/
def step (mutex : Bool) (s : Net ι) : Act ι → Option (Net ι)
  | .recvfrom n a =>
    match s.waiting with
    | .recv => some {s with waiting := if 0 < n then .lock a else .recv}
    | _ => none
  | .wait pieces => s.waitStep mutex pieces
  | .call i data =>
    match s.sending i with
    | some _ => none
    | none => some (s.put i (some (.load data)))
  | .send i pieces => s.sendStep mutex i pieces

def after (mutex : Bool) (acts : List (Act ι)) : Net ι := exec (step mutex) init acts

end Net

/-! ### What a step can do -/

namespace Net
variable {ι : Type} {mutex : Bool} {s s' : Net ι}

theorem acquire_inv {h : Holder ι} {m : Option (Holder ι)} (ha : s.acquire mutex h = some m) :
    (mutex = true ∧ s.clientMutex = none ∧ m = some h) ∨ (mutex = false ∧ m = s.clientMutex) := by
  rw [acquire] at ha
  cases mutex with
  | false => exact .inr ⟨rfl, (Option.some.inj ha).symm⟩
  | true =>
    cases hm : s.clientMutex with
    | none =>
      rw [hm] at ha
      exact .inl ⟨rfl, rfl, (Option.some.inj ha).symm⟩
    | some _ =>
      rw [hm] at ha
      cases ha

variable [DecidableEq ι]

theorem recvfrom_inv {n : ℤ} {a : Addr} (h : s.step mutex (.recvfrom n a) = some s') :
    s' = {s with waiting := if 0 < n then .lock a else .recv} := by
  rw [step] at h
  split at h
  · exact (Option.some.inj h).symm
  · cases h

theorem call_inv {i : ι} {data : Bytes} (h : s.step mutex (.call i data) = some s') :
    s.sending i = none ∧ s' = s.put i (some (.load data)) := by
  rw [step] at h
  split at h
  · cases h
  · next hnone => exact ⟨hnone, (Option.some.inj h).symm⟩

/-- The steps of the waiting thread. -/
theorem wait_inv {pieces : ℕ} (h : s.step mutex (.wait pieces) = some s') :
    (∃ a m, s.waiting = .lock a ∧ s.acquire mutex .waiting = some m ∧
      s' = {s with clientMutex := m, waiting := .copy a 0}) ∨
    (∃ a pos bs, s.waiting = .copy a pos ∧ bs = (a.1.drop pos).take pieces ∧
      s' = {s with
        clientAddr := store s.clientAddr pos bs
        waiting := if pos + bs.length < addrSize then .copy a (pos + bs.length) else .unlock a}) ∨
    (∃ a, s.waiting = .unlock a ∧
      s' = {s with clientMutex := none, waiting := .exchange a, log := s.log ++ [.registered a]}) ∨
    ∃ a, s.waiting = .exchange a ∧ s' = {s with clientReady := true, waiting := .recv} := by
  rw [step, waitStep] at h
  split at h
  · cases h
  · next a ha =>
    obtain ⟨m, hm, rfl⟩ := Option.map_eq_some_iff.mp h
    exact .inl ⟨a, m, ha, hm, rfl⟩
  · next a pos ha => exact .inr (.inl ⟨a, pos, _, ha, rfl, (Option.some.inj h).symm⟩)
  · next a ha => exact .inr (.inr (.inl ⟨a, ha, (Option.some.inj h).symm⟩))
  · next a ha => exact .inr (.inr (.inr ⟨a, ha, (Option.some.inj h).symm⟩))

/-- The steps of a call. -/
theorem send_inv {i : ι} {pieces : ℕ} (h : s.step mutex (.send i pieces) = some s') :
    (∃ data, s.sending i = some (.load data) ∧
      s' = s.put i (if s.clientReady then some (.lock data) else none)) ∨
    (∃ data m, s.sending i = some (.lock data) ∧ s.acquire mutex (.sending i) = some m ∧
      s' = {s.put i (some (.read data [])) with clientMutex := m}) ∨
    (∃ data got got', s.sending i = some (.read data got) ∧
      got' = got ++ (s.clientAddr.drop got.length).take pieces ∧
      ((got'.length < addrSize ∧ s' = s.put i (some (.read data got'))) ∨
        (addrSize ≤ got'.length ∧
          s' = {s.put i (some .unlock) with log := s.log ++ [.sent i got' data]}))) ∨
    (s.sending i = some .unlock ∧ s' = {s.put i none with clientMutex := none}) := by
  rw [step, sendStep] at h
  split at h
  · cases h
  · next data hp => exact .inl ⟨data, hp, (Option.some.inj h).symm⟩
  · next data hp =>
    obtain ⟨m, hm, rfl⟩ := Option.map_eq_some_iff.mp h
    exact .inr (.inl ⟨data, m, hp, hm, rfl⟩)
  · next data got hp =>
    refine .inr (.inr (.inl ⟨data, got, _, hp, rfl, ?_⟩))
    simp only at h
    split at h
    · next hlt => exact .inl ⟨hlt, (Option.some.inj h).symm⟩
    · next hge => exact .inr ⟨Nat.not_lt.mp hge, (Option.some.inj h).symm⟩
  · next hp => exact .inr (.inr (.inr ⟨hp, (Option.some.inj h).symm⟩))

/- Where a call stands after a step of one thread. -/
theorem put_inv {i j : ι} {p : Option Sending} {x : Sending} (h : (s.put i p).sending j = some x) :
    (j = i ∧ p = some x) ∨ (j ≠ i ∧ s.sending j = some x) := by
  simp only [put] at h
  by_cases hji : j = i
  · subst hji
    rw [Function.update_self] at h
    exact .inl ⟨rfl, h⟩
  · rw [Function.update_of_ne hji] at h
    exact .inr ⟨hji, h⟩

end Net

/-! ### With the mutex -/

section
variable {ι : Type}

/-- The client that was registered last. -/
def current (log : List (Event ι)) : Option Addr :=
  log.foldl (fun c e => match e with
    | .registered a => some a
    | .sent _ _ _ => c) none

theorem current_registered (log : List (Event ι)) (a : Addr) :
    current (log ++ [.registered a]) = some a := by
  rw [current, List.foldl_append]
  rfl

theorem current_sent (log : List (Event ι)) (i : ι) (dest data : Bytes) :
    current (log ++ [.sent i dest data]) = current log := by
  rw [current, List.foldl_append]
  rfl

/-- Every datagram goes to the client that was registered last. -/
def Orderly (log : List (Event ι)) : Prop :=
  ∀ before later i dest data, log = before ++ .sent i dest data :: later →
    ∃ a, current before = some a ∧ dest = a.1

theorem orderly_nil : Orderly ([] : List (Event ι)) := by
  intro before later i dest data h
  simp at h

theorem Orderly.registered {log : List (Event ι)} (h : Orderly log) (a : Addr) :
    Orderly (log ++ [.registered a]) := by
  intro before later i dest data hlog
  rcases snoc_split hlog with ⟨-, -, hx⟩ | ⟨rest, -, hlog⟩
  · cases hx
  · exact h before rest i dest data hlog

theorem Orderly.sent {log : List (Event ι)} (h : Orderly log) {a : Addr} (ha : current log = some a)
    (i : ι) (data : Bytes) : Orderly (log ++ [.sent i a.1 data]) := by
  intro before later j dest data' hlog
  rcases snoc_split hlog with ⟨-, rfl, hx⟩ | ⟨rest, -, hlog⟩
  · cases hx
    exact ⟨a, ha, rfl⟩
  · exact h before rest j dest data' hlog

/- The waiting thread holds the mutex while it copies, and what it has copied stands in the
address. -/
def Waiting.Good (m : Option (Holder ι)) (addr : Bytes) (log : List (Event ι)) : Waiting → Prop
  | .recv | .lock _ => True
  | .copy a pos => m = some .waiting ∧ pos < addrSize ∧ a.1.take pos <+: addr
  | .unlock a => m = some .waiting ∧ addr = a.1
  | .exchange a => current log = some a

/- A call holds the mutex while `sendto` reads the address. -/
def Sending.Good (i : ι) (m : Option (Holder ι)) (addr : Bytes) (ready : Bool) : Sending → Prop
  | .load _ => True
  | .lock _ => ready = true
  | .read _ got => ready = true ∧ m = some (.sending i) ∧ got <+: addr
  | .unlock => m = some (.sending i)

theorem Waiting.Good.free {m m' : Option (Holder ι)} {addr : Bytes} {log log' : List (Event ι)}
    {w : Waiting} (h : w.Good m addr log) (hm : m ≠ some .waiting) (hlog : current log' = current log) :
    w.Good m' addr log' := by
  cases w with
  | recv | lock a => trivial
  | copy a pos => exact absurd h.1 hm
  | unlock a => exact absurd h.1 hm
  | exchange a => exact hlog.trans h

theorem Sending.Good.free {i : ι} {m m' : Option (Holder ι)} {addr addr' : Bytes} {ready : Bool}
    {p : Sending} (h : p.Good i m addr ready) (hm : m ≠ some (.sending i)) :
    p.Good i m' addr' ready := by
  cases p with
  | load data => trivial
  | lock data => exact h
  | read data got => exact absurd h.2.1 hm
  | unlock => exact absurd h hm

theorem Sending.Good.ready {i : ι} {m : Option (Holder ι)} {addr : Bytes} {ready : Bool} {p : Sending}
    (h : p.Good i m addr ready) : p.Good i m addr true := by
  cases p with
  | load data => trivial
  | lock data => rfl
  | read data got => exact ⟨rfl, h.2⟩
  | unlock => exact h

structure Net.Safe (s : Net ι) : Prop where
  size : s.clientAddr.length = addrSize
  free : s.clientMutex ≠ some .waiting → ∀ a, current s.log = some a → s.clientAddr = a.1
  ready : s.clientReady = true → ∃ a, current s.log = some a
  waiting : s.waiting.Good s.clientMutex s.clientAddr s.log
  sending : ∀ i p, s.sending i = some p → p.Good i s.clientMutex s.clientAddr s.clientReady
  orderly : Orderly s.log

end

namespace Net
variable {ι : Type} {s s' : Net ι}

theorem init_safe : (init : Net ι).Safe where
  size := List.length_replicate
  free _ _ h := by cases h
  ready h := by cases h
  waiting := trivial
  sending _ _ h := by cases h
  orderly := orderly_nil

/- A piece that is copied behind those before it. -/
theorem copy_extends {a addr : Bytes} {pos : ℕ} (h : a.take pos <+: addr) (hpos : pos ≤ a.length)
    (pieces : ℕ) :
    a.take (pos + ((a.drop pos).take pieces).length) <+: store addr pos ((a.drop pos).take pieces) := by
  have hwritten : a.take (pos + ((a.drop pos).take pieces).length) =
      a.take pos ++ (a.drop pos).take pieces := by
    rw [List.take_add, List.length_take, ← List.take_take, List.take_length]
  rw [hwritten]
  exact store_extends _ _ h (by rw [List.length_take]; omega)

theorem prefix_grow {got addr : Bytes} (h : got <+: addr) (pieces : ℕ) :
    got ++ (addr.drop got.length).take pieces <+: addr := by
  obtain ⟨rest, rfl⟩ := h
  rw [List.drop_left, List.prefix_append_right_inj]
  exact List.take_prefix _ _

theorem Safe.recvfrom (hs : s.Safe) (n : ℤ) (a : Addr) :
    Safe {s with waiting := if 0 < n then .lock a else .recv} where
  size := hs.size
  free := hs.free
  ready := hs.ready
  waiting := by
    by_cases hn : 0 < n
    · simp [hn, Waiting.Good]
    · simp [hn, Waiting.Good]
  sending := hs.sending
  orderly := hs.orderly

variable [DecidableEq ι]

theorem Safe.wait {pieces : ℕ} (hs : s.Safe) (h : s.step true (.wait pieces) = some s') :
    s'.Safe := by
  have hw := hs.waiting
  rcases wait_inv h with ⟨a, m, hpc, hm, rfl⟩ | ⟨a, pos, bs, hpc, hbs, rfl⟩ | ⟨a, hpc, rfl⟩ |
    ⟨a, hpc, rfl⟩
  · -- no call is inside when the mutex is free
    rcases acquire_inv hm with ⟨-, hnone, rfl⟩ | ⟨hfalse, -⟩
    · refine ⟨hs.size, fun hne => absurd rfl hne, hs.ready, ⟨rfl, by decide, ?_⟩, ?_, hs.orderly⟩
      · exact List.nil_prefix
      · exact fun i p hp => (hs.sending i p hp).free (by rw [hnone]; exact nofun)
    · cases hfalse
  · rw [hpc] at hw
    obtain ⟨hmutex, hpos, hcopied⟩ := hw
    have hlength := a.2
    have hle : pos + bs.length ≤ s.clientAddr.length := by
      rw [hbs, hs.size, List.length_take, List.length_drop]
      omega
    have hmore : a.1.take (pos + bs.length) <+: store s.clientAddr pos bs := by
      rw [hbs]
      exact copy_extends hcopied (by omega) pieces
    have hsize : (store s.clientAddr pos bs).length = addrSize := (store_length hle).trans hs.size
    refine ⟨hsize, fun hne => absurd hmutex hne, hs.ready, ?_, ?_, hs.orderly⟩
    · show Waiting.Good s.clientMutex (store s.clientAddr pos bs) s.log
        (if pos + bs.length < addrSize then .copy a (pos + bs.length) else .unlock a)
      split
      · next hlt => exact ⟨hmutex, hlt, hmore⟩
      · next hge =>
        rw [List.take_of_length_le (by omega)] at hmore
        exact ⟨hmutex, (hmore.eq_of_length (hlength.trans hsize.symm)).symm⟩
    · exact fun i p hp => (hs.sending i p hp).free (by rw [hmutex]; exact nofun)
  · rw [hpc] at hw
    obtain ⟨hmutex, haddr⟩ := hw
    refine ⟨hs.size, ?_, ?_, current_registered _ _, ?_, hs.orderly.registered a⟩
    · intro _ b hb
      rw [current_registered] at hb
      cases hb
      exact haddr
    · exact fun _ => ⟨a, current_registered _ _⟩
    · exact fun i p hp => (hs.sending i p hp).free (by rw [hmutex]; exact nofun)
  · rw [hpc] at hw
    refine ⟨hs.size, hs.free, fun _ => ⟨a, hw⟩, trivial, ?_, hs.orderly⟩
    exact fun i p hp => (hs.sending i p hp).ready

theorem Safe.call {i : ι} {data : Bytes} (hs : s.Safe) : (s.put i (some (.load data))).Safe := by
  refine ⟨hs.size, hs.free, hs.ready, hs.waiting, fun j p hp => ?_, hs.orderly⟩
  rcases put_inv hp with ⟨-, hp⟩ | ⟨-, hp⟩
  · cases hp
    trivial
  · exact hs.sending j p hp

theorem Safe.send {i : ι} {pieces : ℕ} (hs : s.Safe) (h : s.step true (.send i pieces) = some s') :
    s'.Safe := by
  rcases send_inv h with ⟨data, hpc, rfl⟩ | ⟨data, m, hpc, hm, rfl⟩ |
    ⟨data, got, got', hpc, hgot, ⟨hlt, rfl⟩ | ⟨hge, rfl⟩⟩ | ⟨hpc, rfl⟩
  · refine ⟨hs.size, hs.free, hs.ready, hs.waiting, fun j p hp => ?_, hs.orderly⟩
    rcases put_inv hp with ⟨-, hp⟩ | ⟨-, hp⟩
    · split at hp
      · next hready =>
        cases hp
        exact hready
      · cases hp
    · exact hs.sending j p hp
  · rcases acquire_inv hm with ⟨-, hnone, rfl⟩ | ⟨hfalse, -⟩
    · have hout : s.clientMutex ≠ some .waiting := by
        rw [hnone]
        exact nofun
      refine ⟨hs.size, fun _ => hs.free hout, hs.ready, hs.waiting.free hout rfl, fun j p hp => ?_,
        hs.orderly⟩
      rcases put_inv hp with ⟨rfl, hx⟩ | ⟨-, hp⟩
      · cases hx
        exact ⟨hs.sending j _ hpc, rfl, List.nil_prefix⟩
      · exact (hs.sending j p hp).free (by rw [hnone]; exact nofun)
    · cases hfalse
  · obtain ⟨hready, hmutex, hprefix⟩ := hs.sending i _ hpc
    refine ⟨hs.size, hs.free, hs.ready, hs.waiting, fun j p hp => ?_, hs.orderly⟩
    rcases put_inv hp with ⟨rfl, hx⟩ | ⟨-, hp⟩
    · cases hx
      exact ⟨hready, hmutex, hgot ▸ prefix_grow hprefix pieces⟩
    · exact hs.sending j p hp
  · -- the whole address has been read while the mutex was held
    obtain ⟨hready, hmutex, hprefix⟩ := hs.sending i _ hpc
    have hout : s.clientMutex ≠ some .waiting := by
      rw [hmutex]
      exact nofun
    obtain ⟨a, ha⟩ := hs.ready hready
    have hdest : got' = a.1 := by
      rw [← hs.free hout a ha]
      have hgrow : got' <+: s.clientAddr := hgot ▸ prefix_grow hprefix pieces
      exact hgrow.eq_of_length_le (hs.size.trans_le hge)
    have hcurrent := current_sent s.log i got' data
    refine ⟨hs.size, fun _ b hb => hs.free hout b (hcurrent ▸ hb), fun _ => ⟨a, hcurrent.trans ha⟩,
      hs.waiting.free hout hcurrent, fun j p hp => ?_, hdest ▸ hs.orderly.sent ha i data⟩
    rcases put_inv hp with ⟨rfl, hx⟩ | ⟨-, hp⟩
    · cases hx
      exact hmutex
    · exact hs.sending j p hp
  · have hmutex : s.clientMutex = some (.sending i) := hs.sending i _ hpc
    have hout : s.clientMutex ≠ some .waiting := by
      rw [hmutex]
      exact nofun
    refine ⟨hs.size, fun _ => hs.free hout, hs.ready, hs.waiting.free hout rfl, fun j p hp => ?_,
      hs.orderly⟩
    rcases put_inv hp with ⟨-, hp⟩ | ⟨hji, hp⟩
    · cases hp
    · refine (hs.sending j p hp).free ?_
      rw [hmutex]
      exact fun heq => hji (Holder.sending.inj (Option.some.inj heq)).symm

theorem Safe.step {a : Act ι} (hs : s.Safe) (h : s.step true a = some s') : s'.Safe := by
  cases a with
  | recvfrom n a => exact recvfrom_inv h ▸ hs.recvfrom n a
  | wait pieces => exact hs.wait h
  | call i data => exact (call_inv h).2 ▸ hs.call
  | send i pieces => exact hs.send h

end Net

/-! ### With and without the mutex -/

/-- The byte is that of one of the addresses. -/
def From (rs : List Addr) (b : Bytes) (k : ℕ) : Prop := ∃ a ∈ rs, b.getD k 0 = a.1.getD k 0

theorem piece_getD {b : Bytes} {pos pieces k : ℕ} (h : k < ((b.drop pos).take pieces).length) :
    ((b.drop pos).take pieces).getD k 0 = b.getD (pos + k) 0 := by
  rw [List.length_take] at h
  simp only [List.getD_eq_getElem?_getD]
  rw [List.getElem?_take_of_lt (by omega), List.getElem?_drop]

def Waiting.Heard (rs : List Addr) : Waiting → Prop
  | .recv => True
  | .lock a | .unlock a | .exchange a => a ∈ rs
  | .copy a pos => a ∈ rs ∧ pos < addrSize

/- The byte has been copied in this round. -/
def Waiting.Past (k : ℕ) : Waiting → Prop
  | .recv | .lock _ => False
  | .copy _ pos => k < pos
  | .unlock _ | .exchange _ => True

def Sending.Heard (rs : List Addr) (ready : Bool) : Sending → Prop
  | .load _ | .unlock => True
  | .lock _ => ready = true
  | .read _ got => ready = true ∧ got.length < addrSize ∧ ∀ k < got.length, From rs got k

/- `rs` are the senders of the datagrams that have been received. -/
structure Net.Heard {ι : Type} (rs : List Addr) (s : Net ι) : Prop where
  size : s.clientAddr.length = addrSize
  waiting : s.waiting.Heard rs
  bytes : ∀ k < addrSize, s.clientReady = true ∨ s.waiting.Past k → From rs s.clientAddr k
  sending : ∀ i p, s.sending i = some p → p.Heard rs s.clientReady
  registered : ∀ a, .registered a ∈ s.log → a ∈ rs
  sent : ∀ i dest data, .sent i dest data ∈ s.log →
    dest.length = addrSize ∧ ∀ k < addrSize, From rs dest k

namespace Net
variable {ι : Type} {mutex : Bool} {rs : List Addr} {s s' : Net ι}

theorem init_heard (rs : List Addr) : (init : Net ι).Heard rs where
  size := List.length_replicate
  waiting := trivial
  bytes _ _ h := by rcases h with h | h <;> cases h
  sending _ _ h := by cases h
  registered _ h := by cases h
  sent _ _ _ h := by cases h

theorem Heard.recvfrom (hs : s.Heard rs) {n : ℤ} {a : Addr} (ha : 0 < n → a ∈ rs) :
    Heard rs {s with waiting := if 0 < n then .lock a else .recv} := by
  refine ⟨hs.size, ?_, fun k hk h => hs.bytes k hk (.inl ?_), hs.sending, hs.registered, hs.sent⟩
  · show Waiting.Heard rs (if 0 < n then .lock a else .recv)
    split
    · next hn => exact ha hn
    · trivial
  · rcases h with h | h
    · exact h
    · simp only at h
      split at h <;> cases h

variable [DecidableEq ι]

theorem Heard.wait {pieces : ℕ} (hs : s.Heard rs) (h : s.step mutex (.wait pieces) = some s') :
    s'.Heard rs := by
  have hw := hs.waiting
  rcases wait_inv h with ⟨a, m, hpc, hm, rfl⟩ | ⟨a, pos, bs, hpc, hbs, rfl⟩ | ⟨a, hpc, rfl⟩ |
    ⟨a, hpc, rfl⟩
  · rw [hpc] at hw
    refine ⟨hs.size, ⟨hw, by decide⟩, fun k hk h => hs.bytes k hk (.inl ?_), hs.sending, hs.registered,
      hs.sent⟩
    exact h.resolve_right (Nat.not_lt_zero k)
  · rw [hpc] at hw
    obtain ⟨ha, hpos⟩ := hw
    have hlength := a.2
    have hle : pos + bs.length ≤ s.clientAddr.length := by
      rw [hbs, hs.size, List.length_take, List.length_drop]
      omega
    refine ⟨(store_length hle).trans hs.size, ?_, fun k hk h => ?_, hs.sending, hs.registered, hs.sent⟩
    · show Waiting.Heard rs
        (if pos + bs.length < addrSize then .copy a (pos + bs.length) else .unlock a)
      split
      · next hlt => exact ⟨ha, hlt⟩
      · exact ha
    · -- a byte of this piece is the new client's, the others were right before
      show From rs (store s.clientAddr pos bs) k
      rw [From, store_getD hle]
      by_cases hin : pos ≤ k ∧ k < pos + bs.length
      · rw [if_pos hin]
        refine ⟨a, ha, ?_⟩
        rw [hbs, piece_getD (by rw [← hbs]; omega), Nat.add_sub_cancel' hin.1]
      · rw [if_neg hin]
        refine hs.bytes k hk (h.imp_right fun hpast => ?_)
        rw [hpc]
        show k < pos
        simp only at hpast
        split at hpast
        · have hlt : k < pos + bs.length := hpast
          omega
        · omega
  · rw [hpc] at hw
    refine ⟨hs.size, hw, fun k hk _ => hs.bytes k hk (.inr (by rw [hpc]; trivial)), hs.sending, ?_, ?_⟩
    · intro b hb
      rcases List.mem_append.mp hb with hb | hb
      · exact hs.registered b hb
      · cases List.mem_singleton.mp hb
        exact hw
    · intro i dest data hd
      rcases List.mem_append.mp hd with hd | hd
      · exact hs.sent i dest data hd
      · cases List.mem_singleton.mp hd
  · refine ⟨hs.size, trivial, fun k hk _ => hs.bytes k hk (.inr (by rw [hpc]; trivial)), ?_,
      hs.registered, hs.sent⟩
    intro i p hp
    have hheard := hs.sending i p hp
    cases p with
    | load data | unlock => trivial
    | lock data => rfl
    | read data got => exact ⟨rfl, hheard.2⟩

theorem Heard.call {i : ι} {data : Bytes} (hs : s.Heard rs) :
    (s.put i (some (.load data))).Heard rs := by
  refine ⟨hs.size, hs.waiting, hs.bytes, fun j p hp => ?_, hs.registered, hs.sent⟩
  rcases put_inv hp with ⟨-, hp⟩ | ⟨-, hp⟩
  · cases hp
    trivial
  · exact hs.sending j p hp

/- What `sendto` has read when it has read one more piece. -/
theorem grow_from {got addr : Bytes} {pieces : ℕ} (hgot : ∀ k < got.length, From rs got k)
    (haddr : ∀ k < addrSize, From rs addr k) (hsize : addr.length = addrSize) (k : ℕ)
    (hk : k < (got ++ (addr.drop got.length).take pieces).length) :
    From rs (got ++ (addr.drop got.length).take pieces) k := by
  rw [From]
  by_cases hlt : k < got.length
  · rw [List.getD_append _ _ _ _ hlt]
    exact hgot k hlt
  · rw [List.length_append, List.length_take, List.length_drop] at hk
    have hpiece : k - got.length < ((addr.drop got.length).take pieces).length := by
      rw [List.length_take, List.length_drop]
      omega
    rw [List.getD_append_right _ _ _ _ (Nat.not_lt.mp hlt), piece_getD hpiece,
      Nat.add_sub_cancel' (Nat.not_lt.mp hlt)]
    exact haddr k (by omega)

theorem Heard.send {i : ι} {pieces : ℕ} (hs : s.Heard rs)
    (h : s.step mutex (.send i pieces) = some s') : s'.Heard rs := by
  rcases send_inv h with ⟨data, hpc, rfl⟩ | ⟨data, m, hpc, hm, rfl⟩ |
    ⟨data, got, got', hpc, hgot, hcases⟩ | ⟨hpc, rfl⟩
  · refine ⟨hs.size, hs.waiting, hs.bytes, fun j p hp => ?_, hs.registered, hs.sent⟩
    rcases put_inv hp with ⟨-, hp⟩ | ⟨-, hp⟩
    · split at hp
      · next hready =>
        cases hp
        exact hready
      · cases hp
    · exact hs.sending j p hp
  · have hready : s.clientReady = true := hs.sending i _ hpc
    refine ⟨hs.size, hs.waiting, hs.bytes, fun j p hp => ?_, hs.registered, hs.sent⟩
    rcases put_inv hp with ⟨-, hx⟩ | ⟨-, hp⟩
    · cases hx
      exact ⟨hready, by decide, fun k hk => absurd hk (Nat.not_lt_zero k)⟩
    · exact hs.sending j p hp
  · obtain ⟨hready, hshort, hbytes⟩ := hs.sending i _ hpc
    have hfrom : ∀ k < got'.length, From rs got' k := by
      rw [hgot]
      exact grow_from hbytes (fun k hk => hs.bytes k hk (.inl hready)) hs.size
    rcases hcases with ⟨hlt, rfl⟩ | ⟨hge, rfl⟩
    · refine ⟨hs.size, hs.waiting, hs.bytes, fun j p hp => ?_, hs.registered, hs.sent⟩
      rcases put_inv hp with ⟨-, hx⟩ | ⟨-, hp⟩
      · cases hx
        exact ⟨hready, hlt, hfrom⟩
      · exact hs.sending j p hp
    · have hlength : got'.length = addrSize := by
        refine Nat.le_antisymm ?_ hge
        rw [hgot, List.length_append, List.length_take, List.length_drop, hs.size]
        omega
      refine ⟨hs.size, hs.waiting, hs.bytes, fun j p hp => ?_, fun a ha => ?_, fun j dest d hd => ?_⟩
      · rcases put_inv hp with ⟨-, hx⟩ | ⟨-, hp⟩
        · cases hx
          trivial
        · exact hs.sending j p hp
      · rcases List.mem_append.mp ha with ha | ha
        · exact hs.registered a ha
        · cases List.mem_singleton.mp ha
      · rcases List.mem_append.mp hd with hd | hd
        · exact hs.sent j dest d hd
        · cases List.mem_singleton.mp hd
          exact ⟨hlength, fun k hk => hfrom k (hlength ▸ hk)⟩
  · refine ⟨hs.size, hs.waiting, hs.bytes, fun j p hp => ?_, hs.registered, hs.sent⟩
    rcases put_inv hp with ⟨-, hx⟩ | ⟨-, hp⟩
    · cases hx
    · exact hs.sending j p hp

end Net

/-- The senders of the datagrams with at least one byte. -/
def senders {ι : Type} (acts : List (Act ι)) : List Addr :=
  acts.filterMap fun
    | .recvfrom n a => if 0 < n then some a else none
    | _ => none

namespace Net
variable {ι : Type} [DecidableEq ι] {mutex : Bool}

theorem after_heard (mutex : Bool) (acts : List (Act ι)) : (after mutex acts).Heard (senders acts) := by
  refine exec_invariant_along _ (fun _ a => a ∈ acts) _ ?_ _ (init_heard _) acts
    (along_of_forall _ _ _ _ fun a ha => ha)
  intro s a s' hs ha h
  cases a with
  | recvfrom n a =>
    refine recvfrom_inv h ▸ hs.recvfrom fun hn => ?_
    exact List.mem_filterMap.mpr ⟨_, ha, if_pos hn⟩
  | wait pieces => exact hs.wait h
  | call i data => exact (call_inv h).2 ▸ hs.call
  | send i pieces => exact hs.send h

/-! ### Without the mutex -/

section
variable (s : Net ι) (a : Addr)

/- The steps of a registration up to a copy of `k` bytes. -/
theorem exec_copy (hs : s.waiting = .recv) {k : ℕ} (hk : k ≤ addrSize) :
    exec (step false) s [.recvfrom 1 a, .wait 0, .wait k] =
      {s with
        clientAddr := a.1.take k ++ s.clientAddr.drop k
        waiting := if k < addrSize then .copy a k else .unlock a} := by
  have hlength : (a.1.take k).length = k := by
    rw [List.length_take, a.2]
    omega
  simp only [exec_cons, exec_nil, advance, step, waitStep, acquire, hs, Int.one_pos, if_true,
    Bool.false_eq_true, if_false, Option.map_some, Option.getD_some, List.drop_zero, Nat.zero_add,
    hlength, store, List.take_zero, List.nil_append]

theorem exec_register (hs : s.waiting = .recv) (hsize : s.clientAddr.length = addrSize) :
    exec (step false) s [.recvfrom 1 a, .wait 0, .wait addrSize, .wait 0, .wait 0] =
      {s with
        clientAddr := a.1
        clientReady := true
        clientMutex := none
        log := s.log ++ [.registered a]} := by
  have hcopy := exec_copy s a hs (Nat.le_refl addrSize)
  have haddr : a.1.take addrSize ++ s.clientAddr.drop addrSize = a.1 := by
    rw [List.take_of_length_le a.2.le, List.drop_of_length_le hsize.le, List.append_nil]
  rw [haddr, if_neg (Nat.lt_irrefl _)] at hcopy
  rw [show [Act.recvfrom 1 a, .wait 0, .wait addrSize, .wait 0, .wait 0] =
    [Act.recvfrom 1 a, .wait 0, .wait addrSize] ++ [.wait 0, .wait 0] from rfl, exec_append, hcopy]
  simp only [exec_cons, exec_nil, advance, step, waitStep, Option.getD_some, hs]

theorem exec_send (i : ι) (data : Bytes) (hs : s.sending i = none) (hready : s.clientReady = true)
    (hsize : s.clientAddr.length = addrSize) :
    .sent i s.clientAddr data ∈
      (exec (step false) s [.call i data, .send i 0, .send i 0, .send i addrSize]).log := by
  have htake : s.clientAddr.take addrSize = s.clientAddr := List.take_of_length_le hsize.le
  simp [exec_cons, advance, step, sendStep, acquire, put, hs, hready, hsize, htake]

end

/-- In a Livox service every byte of the address a datagram goes to is that of a client, so that a
single client gets all of them. With two clients each mixture is possible that has the bytes of the
second up to a place and those of the first from there on. -/
theorem unlocked_client (i : ι) (data : Bytes) :
    (∀ (acts : List (Act ι)) dest, .sent i dest data ∈ (after false acts).log →
      dest.length = addrSize ∧ (∀ k < addrSize, From (senders acts) dest k) ∧
      ∀ a, (∀ b ∈ senders acts, b = a) → dest = a.1) ∧
    ∀ (a b : Addr) k, k ≤ addrSize → ∃ acts : List (Act ι), senders acts = [a, b] ∧
      .sent i (b.1.take k ++ a.1.drop k) data ∈ (after false acts).log := by
  refine ⟨fun acts dest hdest => ?_, fun a b k hk => ?_⟩
  · obtain ⟨hlength, hbytes⟩ := (after_heard false acts).sent i dest data hdest
    refine ⟨hlength, hbytes, fun a hsingle => ext_getD (hlength.trans a.2.symm) fun k hk => ?_⟩
    obtain ⟨b, hb, hbyte⟩ := hbytes k (hlength ▸ hk)
    rw [hbyte, hsingle b hb]
  · -- the first client is registered, and a datagram is sent while the second is copied
    let first : Net ι := ⟨a.1, true, none, .recv, fun _ => none, [.registered a]⟩
    let second : Net ι := {first with
      clientAddr := b.1.take k ++ a.1.drop k
      waiting := if k < addrSize then .copy b k else .unlock b}
    have hfirst : exec (step false) init [.recvfrom 1 a, .wait 0, .wait addrSize, .wait 0, .wait 0] =
        first := exec_register init a rfl List.length_replicate
    have hsecond : exec (step false) first [.recvfrom 1 b, .wait 0, .wait k] = second :=
      exec_copy first b rfl hk
    have hsize : second.clientAddr.length = addrSize := by
      show (b.1.take k ++ a.1.drop k).length = addrSize
      rw [List.length_append, List.length_take, List.length_drop, a.2, b.2]
      omega
    refine ⟨[.recvfrom 1 a, .wait 0, .wait addrSize, .wait 0, .wait 0] ++
      ([.recvfrom 1 b, .wait 0, .wait k] ++ [.call i data, .send i 0, .send i 0, .send i addrSize]),
      rfl, ?_⟩
    rw [after, exec_append, exec_append, hfirst, hsecond]
    exact exec_send second i data rfl rfl hsize

end Net

end TypegoSdk.Udp
