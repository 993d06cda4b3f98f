import TypegoSdk.Livox.FullService

/-!
# The stream of the full service, seen by a receiver

A run is a finite sequence of callbacks in any order. The receiver knows the
18-byte header and the two record layouts and dispatches on `dataType`; the
theorems say that it gets back every record of every callback.
-/

namespace TypegoSdk.Livox.FullService
open TypegoSdk.Lib

/-! ### Runs -/

/-- A call of PointCloudCallback with a High packet. `fits`: `dot_num` is a
uint16. `stack` and `tail` are memory the SDK and the stack leave behind. -/
structure PointCall where
  stack : Bytes
  handle : UInt32
  devType : UInt8
  time : UInt64
  points : List LivoxLidarCartesianHighRawPoint
  tail : Memory
  fits : points.length < 2 ^ 16

structure ImuCall where
  stack : Bytes
  handle : UInt32
  devType : UInt8
  time : UInt64
  samples : List LivoxLidarImuRawPoint
  tail : Memory
  fits : samples.length < 2 ^ 16

inductive Call where
  | points (c : PointCall)
  | imu (c : ImuCall)

def Call.invoke (svc : Service) : Call → Service × List Datagram
  | .points c => pointCloudCallback svc c.stack c.handle c.devType
      (some (packetOf highRawPoint kLivoxLidarCartesianCoordinateHighData c.time c.points c.tail))
  | .imu c => imuDataCallback svc c.stack c.handle c.devType
      (some (packetOf imuRawPoint kLivoxLidarImuData c.time c.samples c.tail))

/- The datagrams of each call, in call order. -/
def run (svc : Service) : List Call → List (List Datagram)
  | [] => []
  | c :: cs => (c.invoke svc).2 :: run (c.invoke svc).1 cs

/-! ### The receiver -/

inductive Message where
  | points (header : PointCloudPacketHeader) (ps : List OptimizedPoint)
  | imu (header : ImuPacketHeader) (ds : List ImuData)

def Message.header : Message → PacketHeader
  | .points h _ => h
  | .imu h _ => h

def Message.recordSize : Message → ℕ
  | .points _ _ => 6
  | .imu _ _ => 24

def receive (d : Datagram) : Option Message :=
  if d.length < 18 then none
  else
    let h := packetHeader.value d
    let body := d.drop 18
    if h.dataType = kLivoxLidarImuData then some (.imu h (imuData.values h.count.toNat body))
    else if h.dataType = kLivoxLidarCartesianCoordinateHighData then
      some (.points h (optimizedPoint.values h.count.toNat body))
    else none

def Message.pointId : Message → Option UInt16
  | .points h _ => some h.sequenceId
  | .imu _ _ => none

def Message.imuId : Message → Option UInt16
  | .points _ _ => none
  | .imu h _ => some h.sequenceId

def pointIds (stream : List Datagram) : List UInt16 :=
  (stream.filterMap receive).filterMap Message.pointId

def imuIds (stream : List Datagram) : List UInt16 :=
  (stream.filterMap receive).filterMap Message.imuId

/- A datagram that fits an Ethernet frame and whose length is the one its own
header announces. -/
def WellFormed (d : Datagram) : Prop :=
  d.length ≤ 1472 ∧ ∃ m, receive d = some m ∧ 1 ≤ m.header.count.toNat ∧
    d.length = 18 + m.header.count.toNat * m.recordSize

/- The header names the device of the call and, below 2^32 seconds, its time. -/
def Stamped (handle : UInt32) (devType : UInt8) (time : UInt64) (h : PacketHeader) : Prop :=
  h.handle = handle ∧ h.devType = devType ∧
    (time.toNat < 2 ^ 32 * 10 ^ 9 →
      h.timestampSec.toNat * 10 ^ 9 + h.timestampNsec.toNat = time.toNat)

/- What the receiver makes of the datagrams of one call: messages of the
call's kind whose records are together exactly the records of the call. -/
def Recovers : Call → List Datagram → Prop
  | .points c, ds => ∃ msgs : List (PacketHeader × List OptimizedPoint),
      ds.map receive = msgs.map (fun m => some (.points m.1 m.2)) ∧
      msgs.flatMap Prod.snd = c.points.map toOptimized ∧
      ∀ m ∈ msgs, Stamped c.handle c.devType c.time m.1
  | .imu c, ds => ∃ msgs : List (PacketHeader × List ImuData),
      ds.map receive = msgs.map (fun m => some (.imu m.1 m.2)) ∧
      msgs.flatMap Prod.snd = c.samples.map toImuData ∧
      ∀ m ∈ msgs, Stamped c.handle c.devType c.time m.1

/-! ### One call -/

section OneCall
variable {ρ σ : Type}

theorem records_packetOf (R : Layout ρ) (f : ρ → σ) (dataType : UInt8) (time : UInt64)
    (xs : List ρ) (tail : Memory) (h : xs.length < 2 ^ 16) :
    ((List.range (packetOf R dataType time xs tail).dotNum.toNat).map fun i =>
      f (record R (packetOf R dataType time xs tail).data (0 + i))) = xs.map f := by
  have hr := congrArg (List.map f) (records_packet R dataType time xs tail h)
  simpa only [records, List.map_map, Function.comp_def, Nat.zero_add] using hr

def callHeader (handle : UInt32) (devType dataType : UInt8) (time : UInt64) : PacketHeader :=
  ⟨0, tsSec time, tsNsec time, handle, devType, dataType, 0⟩

theorem headerOf_packetOf (R : Layout ρ) (handle : UInt32) (devType dataType : UInt8)
    (time : UInt64) (xs : List ρ) (tail : Memory) :
    headerOf handle devType (packetOf R dataType time xs tail) =
      callHeader handle devType dataType time := by
  have hv := u64le.value_bytes time []
  rw [List.append_nil] at hv
  simp only [headerOf, packetOf, callHeader, hv]

theorem stamped_frame (handle : UInt32) (devType dataType : UInt8) (time : UInt64)
    (s n : UInt16) : Stamped handle devType time
      {callHeader handle devType dataType time with sequenceId := s, count := n} := by
  refine ⟨rfl, rfl, ?_⟩
  intro ht
  have hsec : (tsSec time).toNat = time.toNat / 10 ^ 9 := by
    have hd : (time / 1000000000).toNat = time.toNat / 10 ^ 9 := UInt64.toNat_div _ _
    rw [tsSec, UInt64.toNat_toUInt32, hd]
    omega
  have hnsec : (tsNsec time).toNat = time.toNat % 10 ^ 9 := by
    have hd : (time % 1000000000).toNat = time.toNat % 10 ^ 9 := UInt64.toNat_mod _ _
    rw [tsNsec, UInt64.toNat_toUInt32, hd]
    omega
  show (tsSec time).toNat * 10 ^ 9 + (tsNsec time).toNat = time.toNat
  omega

theorem frame_length (W : Layout σ) (header : PacketHeader) (p : UInt16 × List σ) :
    (frame W header p).length = 18 + p.2.length * W.size := by
  rw [frame, List.length_append, packetHeader.bytes_length, W.array_length]
  rfl

/- What the receiver reads from a frame, before it dispatches. -/
theorem frame_read (W : Layout σ) (header : PacketHeader) (p : UInt16 × List σ)
    (hl : p.2.length < 2 ^ 16) :
    packetHeader.value (frame W header p) =
        {header with sequenceId := p.1, count := UInt16.ofNat p.2.length} ∧
      W.values (UInt16.ofNat p.2.length).toNat ((frame W header p).drop 18) = p.2 := by
  refine ⟨packetHeader.value_bytes _ _, ?_⟩
  have hd : (frame W header p).drop 18 = W.array p.2 ++ [] := by
    rw [frame, List.append_nil]
    exact List.drop_left' (packetHeader.bytes_length _)
  have hn : (UInt16.ofNat p.2.length).toNat = p.2.length := by
    rw [UInt16.toNat_ofNat']
    exact Nat.mod_eq_of_lt hl
  rw [hd, hn]
  exact W.values_array p.2 []

theorem frame_not_short (W : Layout σ) (header : PacketHeader) (p : UInt16 × List σ) :
    ¬(frame W header p).length < 18 := by
  rw [frame_length]
  omega

end OneCall

theorem receive_points (header : PacketHeader) (p : UInt16 × List OptimizedPoint)
    (ht : header.dataType = kLivoxLidarCartesianCoordinateHighData) (hl : p.2.length < 2 ^ 16) :
    receive (frame optimizedPoint header p) = some (.points
      {header with sequenceId := p.1, count := UInt16.ofNat p.2.length} p.2) := by
  obtain ⟨hh, hv⟩ := frame_read optimizedPoint header p hl
  have h0 : ¬kLivoxLidarCartesianCoordinateHighData = kLivoxLidarImuData := by decide
  simp only [receive, if_neg (frame_not_short optimizedPoint header p), hh, ht, if_neg h0, if_true,
    hv]

theorem receive_imu (header : PacketHeader) (p : UInt16 × List ImuData)
    (ht : header.dataType = kLivoxLidarImuData) (hl : p.2.length < 2 ^ 16) :
    receive (frame imuData header p) = some (.imu
      {header with sequenceId := p.1, count := UInt16.ofNat p.2.length} p.2) := by
  obtain ⟨hh, hv⟩ := frame_read imuData header p hl
  simp only [receive, if_neg (frame_not_short imuData header p), hh, ht, if_true, hv]

/- A callback's loop on a packet with records `xs`: numbered frames of the
converted records. -/
theorem transmit_packetOf {ρ σ : Type} (max : ℕ) (hmax : 0 < max) (R : Layout ρ) (W : Layout σ)
    (f : ρ → σ) (pack : Bytes → ℕ → ρ → Bytes) (hp : Packs W f pack) (header : PacketHeader)
    (dataType : UInt8) (time : UInt64) (xs : List ρ) (tail : Memory) (hx : xs.length < 2 ^ 16)
    (s : UInt16) (stack : Bytes) :
    transmit true max W.size pack (record R (packetOf R dataType time xs tail).data) header
        (packetOf R dataType time xs tail).dotNum.toNat s stack 0
        (packetOf R dataType time xs tail).dotNum.toNat =
      (s + UInt16.ofNat (fragments max (xs.map f)).length,
        (number (s + 1) (fragments max (xs.map f))).map (frame W header)) := by
  rw [transmit_spec max hmax W f pack hp _ header _ s stack 0 _ le_rfl,
    records_packetOf R f dataType time xs tail hx]

theorem invoke_points (s t : UInt16) (c : PointCall) :
    (Call.points c).invoke ⟨true, s, t⟩ =
      (⟨true, s + UInt16.ofNat (fragments 242 (c.points.map toOptimized)).length, t⟩,
        (number (s + 1) (fragments 242 (c.points.map toOptimized))).map
          (frame optimizedPoint (callHeader c.handle c.devType
            kLivoxLidarCartesianCoordinateHighData c.time))) := by
  have ht : ¬((packetOf highRawPoint kLivoxLidarCartesianCoordinateHighData c.time c.points
        c.tail).dataType ≠ kLivoxLidarCartesianCoordinateHighData ∧
      (packetOf highRawPoint kLivoxLidarCartesianCoordinateHighData c.time c.points
        c.tail).dataType ≠ kLivoxLidarCartesianCoordinateLowData) := fun h => h.1 rfl
  simp only [Call.invoke, pointCloudCallback, Bool.not_true, Bool.false_eq_true, if_false,
    if_neg ht, headerOf_packetOf, maxPointsPerPacket_eq,
    transmit_packetOf 242 (by decide) highRawPoint optimizedPoint toOptimized packPoint
      packPoint_packs _ _ c.time c.points c.tail c.fits]

theorem invoke_imu (s t : UInt16) (c : ImuCall) :
    (Call.imu c).invoke ⟨true, s, t⟩ =
      (⟨true, s, t + UInt16.ofNat (fragments 60 (c.samples.map toImuData)).length⟩,
        (number (t + 1) (fragments 60 (c.samples.map toImuData))).map
          (frame imuData (callHeader c.handle c.devType kLivoxLidarImuData c.time))) := by
  simp only [Call.invoke, imuDataCallback, Bool.not_true, Bool.false_eq_true, if_false,
    headerOf_packetOf, maxImuPerPacket_eq,
    transmit_packetOf 60 (by decide) imuRawPoint imuData toImuData packImu packImu_packs _ _
      c.time c.samples c.tail c.fits]

/-! ### Numbered frames at the receiver -/

/-- One of the two kinds of datagrams, with the proof that the receiver reads
the kind's frames back. -/
structure Kind (σ : Type) where
  wire : Layout σ
  dataType : UInt8
  max : ℕ
  message : PacketHeader → List σ → Message
  pos : 0 < max
  small : max < 2 ^ 16
  fits : 18 + max * wire.size ≤ 1472
  header_message : ∀ h g, (message h g).header = h
  recordSize_message : ∀ h g, (message h g).recordSize = wire.size
  receive_frame : ∀ (header : PacketHeader) (p : UInt16 × List σ), header.dataType = dataType →
    p.2.length < 2 ^ 16 → receive (frame wire header p) =
      some (message {header with sequenceId := p.1, count := UInt16.ofNat p.2.length} p.2)

def pointKind : Kind OptimizedPoint where
  wire := optimizedPoint
  dataType := kLivoxLidarCartesianCoordinateHighData
  max := 242
  message := Message.points
  pos := by decide
  small := by decide
  fits := by decide
  header_message _ _ := rfl
  recordSize_message _ _ := rfl
  receive_frame := receive_points

def imuKind : Kind ImuData where
  wire := imuData
  dataType := kLivoxLidarImuData
  max := 60
  message := Message.imu
  pos := by decide
  small := by decide
  fits := by decide
  header_message _ _ := rfl
  recordSize_message _ _ := rfl
  receive_frame := receive_imu

namespace Kind
variable {σ : Type} (K : Kind σ)

/- The datagrams of a call with records `xs` and first number `s`, and the
messages they are read as. -/
def datagrams (header : PacketHeader) (s : UInt16) (xs : List σ) : List Datagram :=
  (number s (fragments K.max xs)).map (frame K.wire header)

def messages (header : PacketHeader) (s : UInt16) (xs : List σ) : List (PacketHeader × List σ) :=
  (number s (fragments K.max xs)).map fun p =>
    ({header with sequenceId := p.1, count := UInt16.ofNat p.2.length}, p.2)

theorem messages_records (header : PacketHeader) (s : UInt16) (xs : List σ) :
    (K.messages header s xs).flatMap Prod.snd = xs := by
  have hm : (K.messages header s xs).map Prod.snd = fragments K.max xs := by
    rw [messages, List.map_map]
    exact number_snd s (fragments K.max xs)
  rw [List.flatMap_def, hm, fragments_flatten]

theorem fragment_bounds (s : UInt16) (xs : List σ) (p : UInt16 × List σ)
    (hp : p ∈ number s (fragments K.max xs)) : 1 ≤ p.2.length ∧ p.2.length ≤ K.max :=
  fragments_bounds K.max xs K.pos p.2 (number_mem s _ p hp)

theorem map_receive (header : PacketHeader) (ht : header.dataType = K.dataType) (s : UInt16)
    (xs : List σ) : (K.datagrams header s xs).map receive =
      (K.messages header s xs).map fun m => some (K.message m.1 m.2) := by
  rw [datagrams, messages, List.map_map, List.map_map]
  apply List.map_congr_left
  intro p hp
  have hb := K.fragment_bounds s xs p hp
  have hs := K.small
  exact K.receive_frame header p ht (by omega)

theorem filterMap_receive (header : PacketHeader) (ht : header.dataType = K.dataType) (s : UInt16)
    (xs : List σ) : (K.datagrams header s xs).filterMap receive =
      (K.messages header s xs).map fun m => K.message m.1 m.2 := by
  have hid : (K.datagrams header s xs).filterMap receive =
      ((K.datagrams header s xs).map receive).filterMap id := by
    rw [List.filterMap_map]
    rfl
  rw [hid, K.map_receive header ht, List.filterMap_map, ← List.filterMap_eq_map]
  rfl

theorem wellFormed (header : PacketHeader) (ht : header.dataType = K.dataType) (s : UInt16)
    (xs : List σ) : ∀ d ∈ K.datagrams header s xs, WellFormed d := by
  intro d hd
  obtain ⟨p, hp, rfl⟩ := List.mem_map.mp hd
  have hb := K.fragment_bounds s xs p hp
  have hs := K.small
  have hf := K.fits
  have hm := Nat.mul_le_mul_right K.wire.size hb.2
  have hn : (UInt16.ofNat p.2.length).toNat = p.2.length := by
    rw [UInt16.toNat_ofNat']
    exact Nat.mod_eq_of_lt (by omega)
  refine ⟨?_, _, K.receive_frame header p ht (by omega), ?_, ?_⟩
  · rw [frame_length]
    omega
  · rw [K.header_message]
    show 1 ≤ (UInt16.ofNat p.2.length).toNat
    omega
  · rw [K.header_message, K.recordSize_message, frame_length]
    show 18 + p.2.length * K.wire.size = 18 + (UInt16.ofNat p.2.length).toNat * K.wire.size
    rw [hn]

/- The numbers of the kind's own datagrams count up; `own` reads them. -/
theorem ids_own (own : Message → Option UInt16) (ho : ∀ h g, own (K.message h g) = some h.sequenceId)
    (header : PacketHeader) (ht : header.dataType = K.dataType) (s : UInt16) (xs : List σ) :
    ((K.datagrams header s xs).filterMap receive).filterMap own =
      counter s (fragments K.max xs).length := by
  rw [K.filterMap_receive header ht, List.filterMap_map, ← number_fst s (fragments K.max xs),
    messages, List.filterMap_map, ← List.filterMap_eq_map]
  apply List.filterMap_congr
  intro p _
  exact ho _ _

theorem ids_other (other : Message → Option UInt16) (ho : ∀ h g, other (K.message h g) = none)
    (header : PacketHeader) (ht : header.dataType = K.dataType) (s : UInt16) (xs : List σ) :
    ((K.datagrams header s xs).filterMap receive).filterMap other = [] := by
  rw [K.filterMap_receive header ht, List.filterMap_map]
  exact List.filterMap_eq_nil_iff.mpr fun m _ => ho m.1 m.2

end Kind

/-! ### One call at the receiver -/

/-- Everything a receiver sees of one call: `svc` and `after` are the service
before and after it. -/
structure Seen (svc after : Service) (c : Call) (ds : List Datagram) : Prop where
  ready : after.clientReady = true
  wellFormed : ∀ d ∈ ds, WellFormed d
  recovers : Recovers c ds
  points : ∃ n, pointIds ds = counter (svc.seqId + 1) n ∧ after.seqId = svc.seqId + UInt16.ofNat n
  imu : ∃ n, imuIds ds = counter (svc.imuSeqId + 1) n ∧
    after.imuSeqId = svc.imuSeqId + UInt16.ofNat n

theorem messages_stamped {σ : Type} (K : Kind σ) (handle : UInt32) (devType : UInt8)
    (time : UInt64) (s : UInt16) (xs : List σ) :
    ∀ m ∈ K.messages (callHeader handle devType K.dataType time) s xs,
      Stamped handle devType time m.1 := by
  intro m hm
  obtain ⟨p, _, rfl⟩ := List.mem_map.mp hm
  exact stamped_frame handle devType K.dataType time p.1 _

theorem invoke_seen (s t : UInt16) (c : Call) :
    Seen ⟨true, s, t⟩ (c.invoke ⟨true, s, t⟩).1 c (c.invoke ⟨true, s, t⟩).2 := by
  cases c with
  | points c =>
    rw [invoke_points]
    have hown := pointKind.ids_own Message.pointId (fun _ _ => rfl)
      (callHeader c.handle c.devType pointKind.dataType c.time) rfl (s + 1)
      (c.points.map toOptimized)
    have hother := pointKind.ids_other Message.imuId (fun _ _ => rfl)
      (callHeader c.handle c.devType pointKind.dataType c.time) rfl (s + 1)
      (c.points.map toOptimized)
    refine ⟨rfl, pointKind.wellFormed _ rfl _ _, ?_, ⟨_, hown, rfl⟩, ⟨0, hother, by simp⟩⟩
    exact ⟨_, pointKind.map_receive _ rfl _ _, pointKind.messages_records _ _ _,
      messages_stamped pointKind _ _ _ _ _⟩
  | imu c =>
    rw [invoke_imu]
    have hown := imuKind.ids_own Message.imuId (fun _ _ => rfl)
      (callHeader c.handle c.devType imuKind.dataType c.time) rfl (t + 1)
      (c.samples.map toImuData)
    have hother := imuKind.ids_other Message.pointId (fun _ _ => rfl)
      (callHeader c.handle c.devType imuKind.dataType c.time) rfl (t + 1)
      (c.samples.map toImuData)
    refine ⟨rfl, imuKind.wellFormed _ rfl _ _, ?_, ⟨0, hother, by simp⟩, ⟨_, hown, rfl⟩⟩
    exact ⟨_, imuKind.map_receive _ rfl _ _, imuKind.messages_records _ _ _,
      messages_stamped imuKind _ _ _ _ _⟩

/-! ### Whole runs -/

theorem pointIds_append (a b : List Datagram) : pointIds (a ++ b) = pointIds a ++ pointIds b := by
  simp only [pointIds, List.filterMap_append]

theorem imuIds_append (a b : List Datagram) : imuIds (a ++ b) = imuIds a ++ imuIds b := by
  simp only [imuIds, List.filterMap_append]

/- Two stretches of a numbered stream join when the second starts where the
first stopped. -/
theorem counter_join (s s' : UInt16) (a b : List UInt16)
    (ha : ∃ n, a = counter (s + 1) n ∧ s' = s + UInt16.ofNat n) (hb : ∃ n, b = counter (s' + 1) n) :
    ∃ n, a ++ b = counter (s + 1) n := by
  obtain ⟨m, rfl, rfl⟩ := ha
  obtain ⟨n, rfl⟩ := hb
  refine ⟨m + n, ?_⟩
  have hs : s + UInt16.ofNat m + 1 = s + 1 + UInt16.ofNat m := by
    rw [UInt16.add_assoc, UInt16.add_comm (UInt16.ofNat m), ← UInt16.add_assoc]
  rw [hs, counter_add]

theorem service_of_ready (svc : Service) (h : svc.clientReady = true) :
    svc = ⟨true, svc.seqId, svc.imuSeqId⟩ := by
  rw [← h]

/-- For every sequence of callbacks of a ready service and all starting
counters: each datagram is well formed, each call's datagrams give the
receiver exactly the records of that call, and the numbers of each kind count
up by one through the whole stream. -/
theorem stream_recovers (s t : UInt16) (calls : List Call) :
    (∀ d ∈ (run ⟨true, s, t⟩ calls).flatten, WellFormed d) ∧
      List.Forall₂ Recovers calls (run ⟨true, s, t⟩ calls) ∧
      (∃ n, pointIds (run ⟨true, s, t⟩ calls).flatten = counter (s + 1) n) ∧
      ∃ n, imuIds (run ⟨true, s, t⟩ calls).flatten = counter (t + 1) n := by
  induction calls generalizing s t with
  | nil => exact ⟨by simp [run], by simp [run], ⟨0, rfl⟩, ⟨0, rfl⟩⟩
  | cons c calls ih =>
    obtain ⟨hr, hw, hrec, hp, hi⟩ := invoke_seen s t c
    have hsvc := service_of_ready (c.invoke ⟨true, s, t⟩).1 hr
    obtain ⟨hw', hrec', hp', hi'⟩ :=
      ih (c.invoke ⟨true, s, t⟩).1.seqId (c.invoke ⟨true, s, t⟩).1.imuSeqId
    rw [← hsvc] at hw' hrec' hp' hi'
    refine ⟨?_, .cons hrec hrec', ?_, ?_⟩
    · intro d hd
      rcases List.mem_append.mp hd with hd | hd
      · exact hw d hd
      · exact hw' d hd
    · rw [run, List.flatten_cons, pointIds_append]
      exact counter_join _ _ _ _ hp hp'
    · rw [run, List.flatten_cons, imuIds_append]
      exact counter_join _ _ _ _ hi hi'

end TypegoSdk.Livox.FullService
