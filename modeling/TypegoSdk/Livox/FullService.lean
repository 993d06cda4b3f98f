import TypegoSdk.Lib.Fragment
import TypegoSdk.Livox.Packet

/-!
# The full point cloud service (typego_livox_full_service.cpp)

`pointCloudCallback` and `imuDataCallback` cut the records of one SDK packet
into datagrams of at most 1472 bytes. Both build every datagram in place in an
uninitialised stack array, header first, and send the front of the array. The
two loops are one definition, `transmit`, with the record type as parameter.
-/

namespace TypegoSdk.Livox.FullService
open TypegoSdk.Lib

def maxUdpPayload : ℕ := 1472

/-- PointCloudPacketHeader and ImuPacketHeader have the same packed layout;
`count` is `point_count` in the one and `imu_count` in the other. -/
structure PacketHeader where
  sequenceId : UInt16
  timestampSec : UInt32
  timestampNsec : UInt32
  handle : UInt32
  devType : UInt8
  dataType : UInt8
  count : UInt16
  deriving DecidableEq

abbrev PointCloudPacketHeader := PacketHeader
abbrev ImuPacketHeader := PacketHeader

/- The header as it is on the wire: network order. -/
def packetHeader : Layout PacketHeader :=
  (u16be.pair (u32be.pair (u32be.pair (u32be.pair (u8.pair (u8.pair u16be)))))).iso
    (fun h => (h.sequenceId, h.timestampSec, h.timestampNsec, h.handle, h.devType, h.dataType,
      h.count))
    (fun q => ⟨q.1, q.2.1, q.2.2.1, q.2.2.2.1, q.2.2.2.2.1, q.2.2.2.2.2.1, q.2.2.2.2.2.2⟩)
    (fun _ => rfl)

def headerSize : ℕ := packetHeader.size
def maxPointsPerPacket : ℕ := (maxUdpPayload - headerSize) / optimizedPoint.size
def maxImuPerPacket : ℕ := (maxUdpPayload - headerSize) / imuData.size

theorem maxPointsPerPacket_eq : maxPointsPerPacket = 242 := rfl
theorem maxImuPerPacket_eq : maxImuPerPacket = 60 := rfl

/-! ### Building a datagram in place -/

/- The field assignments of the header struct, at the packed offsets. -/
def buildHeader (h : PacketHeader) (packet : Bytes) : Bytes :=
  let packet := store packet 0 (u16le.bytes (htons h.sequenceId))
  let packet := store packet 2 (u32le.bytes (htonl h.timestampSec))
  let packet := store packet 6 (u32le.bytes (htonl h.timestampNsec))
  let packet := store packet 10 (u32le.bytes (htonl h.handle))
  let packet := store packet 14 (u8.bytes h.devType)
  let packet := store packet 15 (u8.bytes h.dataType)
  store packet 16 (u16le.bytes (htons h.count))

theorem buildHeader_writes (h : PacketHeader) (packet : Bytes) :
    packetHeader.bytes h <+: buildHeader h packet := by
  have h0 := store_extends (u16be.bytes h.sequenceId) 0 (w := []) ⟨packet, rfl⟩ rfl
  have h1 := store_extends (u32be.bytes h.timestampSec) 2 h0 rfl
  have h2 := store_extends (u32be.bytes h.timestampNsec) 6 h1 rfl
  have h3 := store_extends (u32be.bytes h.handle) 10 h2 rfl
  have h4 := store_extends (u8.bytes h.devType) 14 h3 rfl
  have h5 := store_extends (u8.bytes h.dataType) 15 h4 rfl
  have h6 := store_extends (u16be.bytes h.count) 16 h5 rfl
  simp only [buildHeader, u16le_htons, u32le_htonl]
  simpa only [packetHeader, Layout.iso, Layout.pair, List.nil_append, List.append_assoc] using h6

/- `opt_pts[i].x = (int16_t)(src.x)` and so on, `opt_pts[i]` being at `off`. -/
def packPoint (packet : Bytes) (off : ℕ) (src : LivoxLidarCartesianHighRawPoint) : Bytes :=
  let packet := store packet off (i16le.bytes src.x.toInt16)
  let packet := store packet (off + 2) (i16le.bytes src.y.toInt16)
  store packet (off + 4) (i16le.bytes src.z.toInt16)

def packImu (packet : Bytes) (off : ℕ) (src : LivoxLidarImuRawPoint) : Bytes :=
  let packet := store packet off (u32le.bytes src.accX)
  let packet := store packet (off + 4) (u32le.bytes src.accY)
  let packet := store packet (off + 8) (u32le.bytes src.accZ)
  let packet := store packet (off + 12) (u32le.bytes src.gyroX)
  let packet := store packet (off + 16) (u32le.bytes src.gyroY)
  store packet (off + 20) (u32le.bytes src.gyroZ)

/- What a record writer has to do: put the record's wire bytes directly behind
the bytes written so far. -/
def Packs {ρ σ : Type} (W : Layout σ) (f : ρ → σ) (pack : Bytes → ℕ → ρ → Bytes) : Prop :=
  ∀ (src : ρ) (w packet : Bytes) (off : ℕ), w <+: packet → off = w.length →
    (w ++ W.bytes (f src)) <+: pack packet off src

theorem packPoint_packs : Packs optimizedPoint toOptimized packPoint := by
  intro src w packet off hw ho
  have h0 := store_extends (i16le.bytes src.x.toInt16) off hw ho
  have hx : (i16le.bytes src.x.toInt16).length = 2 := i16le.bytes_length _
  have hy : (i16le.bytes src.y.toInt16).length = 2 := i16le.bytes_length _
  have h1 := store_extends (i16le.bytes src.y.toInt16) (off + 2) h0
    (by simp only [List.length_append, hx]; omega)
  have h2 := store_extends (i16le.bytes src.z.toInt16) (off + 4) h1
    (by simp only [List.length_append, hx, hy]; omega)
  simpa only [packPoint, optimizedPoint, toOptimized, Layout.iso, Layout.pair,
    List.append_assoc] using h2

theorem packImu_packs : Packs imuData toImuData packImu := by
  intro src w packet off hw ho
  have hl : ∀ v, (u32le.bytes v).length = 4 := u32le.bytes_length
  have h0 := store_extends (u32le.bytes src.accX) off hw ho
  have h1 := store_extends (u32le.bytes src.accY) (off + 4) h0
    (by simp only [List.length_append, hl]; omega)
  have h2 := store_extends (u32le.bytes src.accZ) (off + 8) h1
    (by simp only [List.length_append, hl]; omega)
  have h3 := store_extends (u32le.bytes src.gyroX) (off + 12) h2
    (by simp only [List.length_append, hl]; omega)
  have h4 := store_extends (u32le.bytes src.gyroY) (off + 16) h3
    (by simp only [List.length_append, hl]; omega)
  have h5 := store_extends (u32le.bytes src.gyroZ) (off + 20) h4
    (by simp only [List.length_append, hl]; omega)
  simpa only [packImu, imuData, toImuData, Layout.iso, Layout.pair, List.append_assoc] using h5

/-! ### The sending loop -/

section Loop
variable {ρ σ : Type}

/- The `for` loop over the records of one datagram. -/
def packRecords (size : ℕ) (pack : Bytes → ℕ → ρ → Bytes) (src : ℕ → ρ) (n : ℕ)
    (packet : Bytes) : Bytes :=
  (List.range n).foldl (fun packet i => pack packet (headerSize + i * size) (src i)) packet

theorem packRecords_writes (W : Layout σ) (f : ρ → σ) (pack : Bytes → ℕ → ρ → Bytes)
    (hp : Packs W f pack) (src : ℕ → ρ) (n : ℕ) (hd packet : Bytes) (hh : hd.length = headerSize)
    (hw : hd <+: packet) :
    (hd ++ W.array ((List.range n).map fun i => f (src i))) <+:
      packRecords W.size pack src n packet := by
  induction n with
  | zero => simpa [packRecords, Layout.array] using hw
  | succ n ih =>
    have hl : headerSize + n * W.size =
        (hd ++ W.array ((List.range n).map fun i => f (src i))).length := by
      rw [List.length_append, W.array_length, List.length_map, List.length_range, hh]
    have hs := hp (src n) _ _ _ ih hl
    have ha : W.array [f (src n)] = W.bytes (f (src n)) := by simp [Layout.array]
    simpa only [packRecords, List.range_succ, List.map_append, List.foldl_append, List.foldl_cons,
      List.foldl_nil, List.map_cons, List.map_nil, W.array_append, ha, List.append_assoc] using hs

def sendtoClient (clientReady : Bool) (data : Bytes) : List Datagram :=
  if clientReady then [data] else []

/- `while (remaining > 0)`. Every round sends at least one record, so `fuel`
never runs out when it starts at `remaining`. The stack array `packet` keeps
the bytes of the previous round. -/
def transmit (clientReady : Bool) (max size : ℕ) (pack : Bytes → ℕ → ρ → Bytes) (src : ℕ → ρ)
    (header : PacketHeader) :
    ℕ → UInt16 → Bytes → ℕ → ℕ → UInt16 × List Datagram
  | 0, seqId, _, _, _ => (seqId, [])
  | fuel + 1, seqId, packet, offset, remaining =>
    if remaining > 0 then
      let inPacket := if remaining > max then max else remaining
      let seqId := seqId + 1
      let packet := buildHeader {header with sequenceId := seqId, count := UInt16.ofNat inPacket} packet
      let packet := packRecords size pack (fun i => src (offset + i)) inPacket packet
      let data := packet.take (headerSize + inPacket * size)
      let rest := transmit clientReady max size pack src header fuel seqId packet
        (offset + inPacket) (remaining - inPacket)
      (rest.1, sendtoClient clientReady data ++ rest.2)
    else (seqId, [])

/- The datagram for one numbered group of wire records. -/
def frame (W : Layout σ) (header : PacketHeader) (p : UInt16 × List σ) : Datagram :=
  packetHeader.bytes {header with sequenceId := p.1, count := UInt16.ofNat p.2.length} ++
    W.array p.2

theorem map_range_drop (src : ℕ → ρ) (f : ρ → σ) (offset n m : ℕ) :
    ((List.range (n + m)).map fun i => f (src (offset + i))).drop n =
      (List.range m).map fun i => f (src (offset + n + i)) := by
  rw [List.range_add, List.map_append, List.drop_left' (by simp), List.map_map]
  simp only [Function.comp_def, Nat.add_assoc]

/-- The loop sends the records from `offset` on as numbered fragments, and
leaves the counter at the last number used. -/
theorem transmit_spec (max : ℕ) (hmax : 0 < max) (W : Layout σ) (f : ρ → σ)
    (pack : Bytes → ℕ → ρ → Bytes) (hp : Packs W f pack) (src : ℕ → ρ) (header : PacketHeader)
    (fuel : ℕ) (seqId : UInt16) (packet : Bytes) (offset remaining : ℕ) (hf : remaining ≤ fuel) :
    transmit true max W.size pack src header fuel seqId packet offset remaining =
      (seqId + UInt16.ofNat
          (fragments max ((List.range remaining).map fun i => f (src (offset + i)))).length,
        (number (seqId + 1)
          (fragments max ((List.range remaining).map fun i => f (src (offset + i))))).map
          (frame W header)) := by
  induction fuel generalizing seqId packet offset remaining with
  | zero =>
    have hr : remaining = 0 := by omega
    subst hr
    simp [transmit, number]
  | succ fuel ih =>
    by_cases hr : remaining > 0
    · obtain ⟨n, hn⟩ : ∃ n, n = if remaining > max then max else remaining := ⟨_, rfl⟩
      have hn0 : 0 < n ∧ n ≤ remaining ∧ n = min max remaining := by
        split at hn <;> omega
      obtain ⟨m, hm⟩ : ∃ m, remaining = n + m := ⟨remaining - n, by omega⟩
      -- the first group is this round's datagram, the rest the induction hypothesis
      have hne : ((List.range remaining).map fun i => f (src (offset + i))) ≠ [] := by
        intro h0
        have hl := congrArg List.length h0
        simp only [List.length_map, List.length_range, List.length_nil] at hl
        omega
      have htake : ((List.range remaining).map fun i => f (src (offset + i))).take max =
          (List.range n).map fun i => f (src (offset + i)) := by
        rw [← List.map_take, List.take_range, ← hn0.2.2]
      have hdrop : ((List.range remaining).map fun i => f (src (offset + i))).drop max =
          (List.range m).map fun i => f (src (offset + n + i)) := by
        by_cases hbig : remaining > max
        · have hnm : n = max := by rw [hn, if_pos hbig]
          rw [← hnm, hm, map_range_drop]
        · have hm0 : m = 0 := by omega
          rw [List.drop_eq_nil_of_le (by simp; omega), hm0]
          rfl
      have hfrag := fragments_take max _ hmax hne
      rw [htake, hdrop] at hfrag
      have hb := packRecords_writes W f pack hp (fun i => src (offset + i)) n _ _
        (packetHeader.bytes_length {header with sequenceId := seqId + 1, count := UInt16.ofNat n})
        (buildHeader_writes {header with sequenceId := seqId + 1, count := UInt16.ofNat n} packet)
      have hdata := take_written hb (headerSize + n * W.size) (by
        rw [List.length_append, packetHeader.bytes_length, W.array_length, List.length_map,
          List.length_range]; rfl)
      have hrest := ih (seqId + 1)
        (packRecords W.size pack (fun i => src (offset + i)) n
          (buildHeader {header with sequenceId := seqId + 1, count := UInt16.ofNat n} packet))
        (offset + n) (remaining - n) (by omega)
      have hsub : remaining - n = m := by omega
      rw [hsub] at hrest
      have hlen : seqId + 1 + UInt16.ofNat
          (fragments max ((List.range m).map fun i => f (src (offset + n + i)))).length =
          seqId + UInt16.ofNat
          ((fragments max ((List.range m).map fun i => f (src (offset + n + i)))).length + 1) := by
        rw [UInt16.ofNat_add, UInt16.add_comm (UInt16.ofNat _) (UInt16.ofNat 1), ← UInt16.add_assoc]
        rfl
      simp only [transmit, if_pos hr, ← hn, hdata, hsub, hrest, sendtoClient, if_true, hfrag,
        List.length_cons, hlen, number, List.map_cons, frame, List.length_map, List.length_range,
        List.singleton_append]
    · have hr0 : remaining = 0 := by omega
      subst hr0
      simp [transmit, number]

end Loop

/-! ### The callbacks -/

structure Service where
  clientReady : Bool
  seqId : UInt16
  imuSeqId : UInt16
  deriving DecidableEq

/- `(uint32_t)(lidar_timestamp / 1000000000ULL)` and the remainder. -/
def tsSec (lidarTimestamp : UInt64) : UInt32 := (lidarTimestamp / 1000000000).toUInt32
def tsNsec (lidarTimestamp : UInt64) : UInt32 := (lidarTimestamp % 1000000000).toUInt32

def headerOf (handle : UInt32) (devType : UInt8) (data : LivoxLidarEthernetPacket) :
    PacketHeader where
  sequenceId := 0
  timestampSec := tsSec (u64le.value data.timestamp)
  timestampNsec := tsNsec (u64le.value data.timestamp)
  handle := handle
  devType := devType
  dataType := data.dataType
  count := 0

/- `packet` is the content the uninitialised stack array happens to have. A
Low packet passes the type test and is read with the High layout. -/
def pointCloudCallback (svc : Service) (packet : Bytes) (handle : UInt32) (devType : UInt8)
    (data : Option LivoxLidarEthernetPacket) : Service × List Datagram :=
  match data with
  | none => (svc, [])
  | some data =>
    if !svc.clientReady then (svc, [])
    else if data.dataType ≠ kLivoxLidarCartesianCoordinateHighData ∧
        data.dataType ≠ kLivoxLidarCartesianCoordinateLowData then (svc, [])
    else
      let out := transmit svc.clientReady maxPointsPerPacket optimizedPoint.size packPoint
        (record highRawPoint data.data) (headerOf handle devType data) data.dotNum.toNat
        svc.seqId packet 0 data.dotNum.toNat
      ({svc with seqId := out.1}, out.2)

def imuDataCallback (svc : Service) (packet : Bytes) (handle : UInt32) (devType : UInt8)
    (data : Option LivoxLidarEthernetPacket) : Service × List Datagram :=
  match data with
  | none => (svc, [])
  | some data =>
    if !svc.clientReady then (svc, [])
    else
      let out := transmit svc.clientReady maxImuPerPacket imuData.size packImu
        (record imuRawPoint data.data) (headerOf handle devType data) data.dotNum.toNat
        svc.imuSeqId packet 0 data.dotNum.toNat
      ({svc with imuSeqId := out.1}, out.2)

end TypegoSdk.Livox.FullService
