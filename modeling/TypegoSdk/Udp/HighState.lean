import TypegoSdk.Udp.Client

/-!
# The service of the high state (example/go2/typego_high_state_service.cpp)

The handler of the topic passes at most one state every 20 ms to `sendtoClient`, as 13
floats. The waiting thread registers clients at the same time.
-/

namespace TypegoSdk.Udp
open TypegoSdk.Lib

/-! ### The datagram -/

/-- The fields of `SportModeState_` that the handler reads, each float as its 32 bits. -/
structure HighState where
  position : Fin 3 → UInt32
  quaternion : Fin 4 → UInt32
  accelerometer : Fin 3 → UInt32
  gyroscope : Fin 3 → UInt32

/- The 13 floats in the order of `data[0]`, …, `data[12]`. -/
def HighState.data (h : HighState) : List UInt32 :=
  List.ofFn h.position ++ List.ofFn h.quaternion ++ List.ofFn h.accelerometer ++
    List.ofFn h.gyroscope

def HighState.datagram (h : HighState) : Bytes := h.data.flatMap fun w => leBytes 4 w.toNat

/- What a receiver reads from a datagram. -/
def floats : ℕ → Bytes → List UInt32
  | 0, _ => []
  | n + 1, bs => UInt32.ofNat (leVal (bs.take 4)) :: floats n (bs.drop 4)

theorem floats_words (ws : List UInt32) :
    floats ws.length (ws.flatMap fun w => leBytes 4 w.toNat) = ws := by
  induction ws with
  | nil => rfl
  | cons w ws ih =>
    have hlength : (leBytes 4 w.toNat).length = 4 := leBytes_length 4 w.toNat
    have hword : UInt32.ofNat (leVal (leBytes 4 w.toNat)) = w := by
      rw [leVal_leBytes 4 w.toNat w.toNat_lt, UInt32.ofNat_toNat]
    rw [List.flatMap_cons, List.length_cons, floats, List.take_left' hlength, List.drop_left' hlength,
      hword, ih]

theorem HighState.data_length (h : HighState) : h.data.length = 13 := by
  simp only [HighState.data, List.length_append, List.length_ofFn]

theorem HighState.floats_datagram (h : HighState) : floats 13 h.datagram = h.data := by
  rw [← h.data_length]
  exact floats_words h.data

/-! ### The handler -/

/- `duration_cast<milliseconds>` of a duration in nanoseconds. -/
def milliseconds (d : ℤ) : ℤ := d.tdiv 1000000

/-- `calls` are the states that were passed to `sendtoClient`, with the time of the handler. -/
structure Service where
  net : Net Unit
  lastSendTime : Option ℤ
  calls : List (ℤ × HighState)

/-- A message for the handler comes with two readings of the clock: the first sets
`last_send_time` when the handler is called for the first time. -/
inductive ServiceAct where
  | recvfrom (n : ℤ) (a : Addr)
  | wait (pieces : ℕ)
  | send (pieces : ℕ)
  | message (first now : ℤ) (h : HighState)

namespace Service

def init : Service := ⟨.init, none, []⟩

def highStateHandler (s : Service) (first now : ℤ) (h : HighState) : Option Service :=
  let last := s.lastSendTime.getD first
  if milliseconds (now - last) < 20 then some {s with lastSendTime := some last}
  else (s.net.step true (.call () h.datagram)).map fun net =>
    ⟨net, some now, s.calls ++ [(now, h)]⟩

def netStep (s : Service) (a : Act Unit) : Option Service :=
  (s.net.step true a).map fun net => {s with net := net}

/- The handler is called by one thread, which is free when `sendtoClient` has returned. -/
def step (s : Service) : ServiceAct → Option Service
  | .recvfrom n a => s.netStep (.recvfrom n a)
  | .wait pieces => s.netStep (.wait pieces)
  | .send pieces => s.netStep (.send () pieces)
  | .message first now h =>
    match s.net.sending () with
    | some _ => none
    | none => s.highStateHandler first now h

def after (acts : List ServiceAct) : Service := exec step init acts

/-! ### What a step can do -/

theorem milliseconds_ge {d : ℤ} (h : ¬ milliseconds d < 20) : 20000000 ≤ d := by
  rw [milliseconds] at h
  by_contra hlt
  refine h ?_
  have hmono : d.tdiv 1000000 ≤ (19999999 : ℤ).tdiv 1000000 :=
    Int.tdiv_le_tdiv (by decide) (by omega)
  exact lt_of_le_of_lt hmono (by decide)

theorem netStep_inv {s s' : Service} {a : Act Unit} (h : s.netStep a = some s') :
    s.net.step true a = some s'.net ∧ s'.lastSendTime = s.lastSendTime ∧ s'.calls = s.calls := by
  obtain ⟨net, hnet, rfl⟩ := Option.map_eq_some_iff.mp h
  exact ⟨hnet, rfl, rfl⟩

/-- A message is dropped within 20 ms of the last that was passed on, and passed on otherwise. -/
theorem message_inv {s s' : Service} {first now : ℤ} {h : HighState}
    (hstep : s.step (.message first now h) = some s') :
    (s' = {s with lastSendTime := some (s.lastSendTime.getD first)}) ∨
      (s.lastSendTime.getD first + 20000000 ≤ now ∧ s.net.sending () = none ∧
        s' = ⟨s.net.put () (some (.load h.datagram)), some now, s.calls ++ [(now, h)]⟩) := by
  rw [step] at hstep
  split at hstep
  · cases hstep
  · next hidle =>
    rw [highStateHandler] at hstep
    split at hstep
    · exact .inl (Option.some.inj hstep).symm
    · next hlate =>
      have hge := milliseconds_ge hlate
      obtain ⟨net, hnet, rfl⟩ := Option.map_eq_some_iff.mp hstep
      obtain ⟨-, rfl⟩ := Net.call_inv hnet
      exact .inr ⟨by omega, hidle, rfl⟩

end Service

/-! ### Runs -/

/- The datagrams that have been sent. -/
def sentData (log : List (Event Unit)) : List Bytes :=
  log.filterMap fun
    | .registered _ => none
    | .sent _ _ data => some data

theorem sentData_registered (log : List (Event Unit)) (a : Addr) :
    sentData (log ++ [.registered a]) = sentData log :=
  List.filterMap_append.trans (List.append_nil _)

theorem sentData_sent (log : List (Event Unit)) (i : Unit) (dest data : Bytes) :
    sentData (log ++ [.sent i dest data]) = sentData log ++ [data] := List.filterMap_append

/- The datagram of a call that has not been sent yet. -/
def Sending.pending : Option Sending → List Bytes
  | some (.load data) | some (.lock data) | some (.read data _) => [data]
  | some .unlock | none => []

/- What has been sent, and then what is being sent, was passed on in this order. -/
def Net.Carries (calls : List Bytes) (n : Net Unit) : Prop :=
  (sentData n.log ++ Sending.pending (n.sending ())).Sublist calls

namespace Net
variable {n n' : Net Unit} {calls : List Bytes}

theorem pending_put (n : Net Unit) (p : Option Sending) : (n.put () p).sending () = p := by
  simp only [put, Function.update_self]

theorem Carries.wait {pieces : ℕ} (hc : n.Carries calls)
    (h : n.step true (.wait pieces) = some n') : n'.Carries calls := by
  rcases wait_inv h with ⟨_, _, _, _, rfl⟩ | ⟨_, _, _, _, _, rfl⟩ | ⟨a, _, rfl⟩ | ⟨_, _, rfl⟩
  · exact hc
  · exact hc
  · rw [Carries, sentData_registered]
    exact hc
  · exact hc

theorem Carries.send {pieces : ℕ} (hc : n.Carries calls)
    (h : n.step true (.send () pieces) = some n') : n'.Carries calls := by
  rw [Carries] at hc ⊢
  rcases send_inv h with ⟨data, hpc, rfl⟩ | ⟨data, m, hpc, _, rfl⟩ |
    ⟨data, got, got', hpc, _, ⟨_, rfl⟩ | ⟨_, rfl⟩⟩ | ⟨hpc, rfl⟩
  · rw [hpc] at hc
    rw [pending_put]
    split
    · exact hc
    · -- without a client the call returns, and the datagram is lost
      exact ((List.Sublist.refl _).append (List.nil_sublist _)).trans hc
  · rw [hpc] at hc
    show (sentData n.log ++
      Sending.pending ((n.put () (some (.read data []))).sending ())).Sublist calls
    rw [pending_put]
    exact hc
  · rw [hpc] at hc
    rw [pending_put]
    exact hc
  · rw [hpc] at hc
    show (sentData (n.log ++ [.sent () got' data]) ++
      Sending.pending ((n.put () (some .unlock)).sending ())).Sublist calls
    rw [sentData_sent, pending_put, Sending.pending, List.append_nil]
    exact hc
  · rw [hpc] at hc
    show (sentData n.log ++ Sending.pending ((n.put () none).sending ())).Sublist calls
    rw [pending_put]
    exact hc

end Net

/- The senders that a run of the service hears of. -/
def serviceSenders (acts : List ServiceAct) : List Addr :=
  acts.filterMap fun
    | .recvfrom n a => if 0 < n then some a else none
    | _ => none

namespace Service

structure Good (rs : List Addr) (s : Service) : Prop where
  safe : s.net.Safe
  heard : s.net.Heard rs
  carries : s.net.Carries (s.calls.map fun c => c.2.datagram)
  spaced : s.calls.Pairwise fun c d => c.1 + 20000000 ≤ d.1
  last : ∀ c ∈ s.calls, ∃ t, s.lastSendTime = some t ∧ c.1 ≤ t

theorem init_good (rs : List Addr) : init.Good rs where
  safe := Net.init_safe
  heard := Net.init_heard rs
  carries := List.nil_sublist _
  spaced := List.Pairwise.nil
  last _ h := by cases h

theorem Good.message {rs : List Addr} {s s' : Service} {first now : ℤ} {h : HighState} (hs : s.Good rs)
    (hstep : s.step (.message first now h) = some s') : s'.Good rs := by
  rcases message_inv hstep with rfl | ⟨hlate, hidle, rfl⟩
  · refine ⟨hs.safe, hs.heard, hs.carries, hs.spaced, fun c hc => ?_⟩
    obtain ⟨t, ht, hle⟩ := hs.last c hc
    exact ⟨t, by rw [ht]; rfl, hle⟩
  · have hbefore : ∀ c ∈ s.calls, c.1 + 20000000 ≤ now := by
      intro c hc
      obtain ⟨t, ht, hle⟩ := hs.last c hc
      rw [ht, Option.getD_some] at hlate
      omega
    refine ⟨hs.safe.call, hs.heard.call, ?_, ?_, fun c hc => ⟨now, rfl, ?_⟩⟩
    · have hcarries := hs.carries
      rw [Net.Carries, hidle, Sending.pending, List.append_nil] at hcarries
      rw [Net.Carries, Net.pending_put, List.map_append]
      exact hcarries.append (List.Sublist.refl _)
    · refine List.pairwise_append.mpr ⟨hs.spaced, List.pairwise_singleton _ _, fun c hc d hd => ?_⟩
      rw [List.mem_singleton.mp hd]
      exact hbefore c hc
    · rcases List.mem_append.mp hc with hc | hc
      · have hle := hbefore c hc
        omega
      · rw [List.mem_singleton.mp hc]

theorem Good.net {rs : List Addr} {s s' : Service} (hs : s.Good rs) (hsafe : s'.net.Safe)
    (hheard : s'.net.Heard rs) (hcarries : s'.net.Carries (s.calls.map fun c => c.2.datagram))
    (hlast : s'.lastSendTime = s.lastSendTime) (hcalls : s'.calls = s.calls) : s'.Good rs :=
  ⟨hsafe, hheard, hcalls ▸ hcarries, hcalls ▸ hs.spaced, hcalls ▸ hlast ▸ hs.last⟩

theorem Good.step {rs : List Addr} {s s' : Service} {a : ServiceAct} (hs : s.Good rs)
    (ha : ∀ n c, a = .recvfrom n c → 0 < n → c ∈ rs) (h : s.step a = some s') : s'.Good rs := by
  cases a with
  | recvfrom n c =>
    obtain ⟨hnet, hlast, hcalls⟩ := netStep_inv h
    have hnext := Net.recvfrom_inv hnet
    refine hs.net (hs.safe.step hnet) ?_ ?_ hlast hcalls
    · rw [hnext]
      exact hs.heard.recvfrom (ha n c rfl)
    · rw [hnext]
      exact hs.carries
  | wait pieces =>
    obtain ⟨hnet, hlast, hcalls⟩ := netStep_inv h
    exact hs.net (hs.safe.step hnet) (hs.heard.wait hnet) (hs.carries.wait hnet) hlast hcalls
  | send pieces =>
    obtain ⟨hnet, hlast, hcalls⟩ := netStep_inv h
    exact hs.net (hs.safe.step hnet) (hs.heard.send hnet) (hs.carries.send hnet) hlast hcalls
  | message first now h' => exact hs.message h

theorem after_good (acts : List ServiceAct) : (after acts).Good (serviceSenders acts) := by
  refine exec_invariant_along _ (fun _ a => a ∈ acts) _ ?_ _ (init_good _) acts
    (along_of_forall _ _ _ _ fun a ha => ha)
  intro s a s' hs ha h
  refine hs.step (fun n c hact hn => ?_) h
  subst hact
  exact List.mem_filterMap.mpr ⟨_, ha, if_pos hn⟩

end Service

theorem current_mem {ι : Type} {log : List (Event ι)} {a : Addr} (h : current log = some a) :
    .registered a ∈ log := by
  induction log using List.reverseRecOn with
  | nil => cases h
  | append_singleton log e ih =>
    cases e with
    | registered b =>
      rw [current_registered] at h
      cases h
      simp
    | sent i dest data =>
      rw [current_sent] at h
      exact List.mem_append_left _ (ih h)

/-- In every run: the handler passes on states at least 20 ms apart; the floats that a receiver reads
from the datagrams are those of some of these states, in their order; and each datagram goes to the
client that was registered last before it, which has sent a datagram of its own. -/
theorem Service.datagrams (acts : List ServiceAct) :
    ((after acts).calls.Pairwise fun c d => c.1 + 20000000 ≤ d.1) ∧
    ((sentData (after acts).net.log).map (floats 13)).Sublist
      ((after acts).calls.map fun c => c.2.data) ∧
    ∀ before later i dest data, (after acts).net.log = before ++ .sent i dest data :: later →
      ∃ a n, current before = some a ∧ dest = a.1 ∧ 0 < n ∧ .recvfrom n a ∈ acts := by
  have hgood := after_good acts
  refine ⟨hgood.spaced, ?_, ?_⟩
  · have hsent := ((List.sublist_append_left _ _).trans hgood.carries).map (floats 13)
    have hread : floats 13 ∘ (fun c : ℤ × HighState => c.2.datagram) = fun c => c.2.data :=
      funext fun c => c.2.floats_datagram
    rw [List.map_map, hread] at hsent
    exact hsent
  · intro before later i dest data hlog
    obtain ⟨a, ha, hdest⟩ := hgood.safe.orderly before later i dest data hlog
    have hregistered : .registered a ∈ (after acts).net.log := by
      rw [hlog]
      exact List.mem_append_left _ (current_mem ha)
    obtain ⟨act, hact, hsender⟩ := List.mem_filterMap.mp (hgood.heard.registered a hregistered)
    cases act with
    | recvfrom n b =>
      simp only at hsender
      split at hsender
      · next hn =>
        cases hsender
        exact ⟨a, n, ha, hdest, hn, hact⟩
      · cases hsender
    | wait pieces | send pieces | message first now h => cases hsender

end TypegoSdk.Udp
