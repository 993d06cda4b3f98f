import TypegoSdk.Lib.Bytes

/-!
# LiDAR packets (Livox SDK) and the records of the UDP stream

The Livox types are those of `livox_lidar_def.h`, packed and little endian:
a Cartesian high point is three `int32` and two `uint8`, an IMU sample six
`float` words, gyroscope first. A `float` is its 32-bit pattern, because the
services only copy it.
-/

namespace TypegoSdk.Livox
open TypegoSdk.Lib

/-! ### What the SDK delivers -/

def kLivoxLidarImuData : UInt8 := 0
def kLivoxLidarCartesianCoordinateHighData : UInt8 := 1
def kLivoxLidarCartesianCoordinateLowData : UInt8 := 2

structure LivoxLidarCartesianHighRawPoint where
  x : Int32
  y : Int32
  z : Int32
  reflectivity : UInt8
  tag : UInt8
  deriving DecidableEq

structure LivoxLidarImuRawPoint where
  gyroX : UInt32
  gyroY : UInt32
  gyroZ : UInt32
  accX : UInt32
  accY : UInt32
  accZ : UInt32
  deriving DecidableEq

def highRawPoint : Layout LivoxLidarCartesianHighRawPoint :=
  (i32le.pair (i32le.pair (i32le.pair (u8.pair u8)))).iso
    (fun p => (p.x, p.y, p.z, p.reflectivity, p.tag))
    (fun q => ⟨q.1, q.2.1, q.2.2.1, q.2.2.2.1, q.2.2.2.2⟩) (fun _ => rfl)

def imuRawPoint : Layout LivoxLidarImuRawPoint :=
  (u32le.pair (u32le.pair (u32le.pair (u32le.pair (u32le.pair u32le))))).iso
    (fun p => (p.gyroX, p.gyroY, p.gyroZ, p.accX, p.accY, p.accZ))
    (fun q => ⟨q.1, q.2.1, q.2.2.1, q.2.2.2.1, q.2.2.2.2.1, q.2.2.2.2.2⟩) (fun _ => rfl)

example : highRawPoint.size = 14 ∧ imuRawPoint.size = 24 := ⟨rfl, rfl⟩

/-- The fields of the packet that the services read. `data` is the memory
from `data->data` on; only the sender knows where its records end. -/
structure LivoxLidarEthernetPacket where
  dotNum : UInt16
  dataType : UInt8
  timestamp : Bytes
  data : Memory
  timestampSize : timestamp.length = 8

/-- `((T*)data->data)[i]`. -/
def record {ρ : Type} (R : Layout ρ) (data : Memory) (i : ℕ) : ρ :=
  R.value (load data (i * R.size) R.size)

theorem record_place {ρ : Type} (R : Layout ρ) (xs : List ρ) (tail : Memory) (i : ℕ)
    (h : i < xs.length) : record R (place (R.array xs) tail) i = xs[i] := by
  have hin : i * R.size + R.size ≤ (R.array xs).length := by
    rw [R.array_length]
    have hm := Nat.mul_le_mul_right R.size (Nat.succ_le_of_lt h)
    rwa [Nat.succ_mul] at hm
  have hsplit : (R.array xs).drop (i * R.size) =
      R.bytes xs[i] ++ R.array (xs.drop (i + 1)) := by
    have hx : xs = xs.take i ++ xs[i] :: xs.drop (i + 1) := by simp
    have hl : (R.array (xs.take i)).length = i * R.size := by
      rw [R.array_length, List.length_take, Nat.min_eq_left h.le]
    conv => lhs; rw [hx]
    rw [R.array_append, ← hl, List.drop_left]
    rfl
  have hv := R.value_bytes xs[i] []
  rw [List.append_nil] at hv
  rw [record, load_place _ _ _ _ hin, hsplit, List.take_left' (R.bytes_length xs[i]), hv]

/-- A packet that carries the records `xs`, followed by arbitrary memory. -/
def packetOf {ρ : Type} (R : Layout ρ) (dataType : UInt8) (time : UInt64) (xs : List ρ)
    (tail : Memory) : LivoxLidarEthernetPacket where
  dotNum := UInt16.ofNat xs.length
  dataType := dataType
  timestamp := u64le.bytes time
  data := place (R.array xs) tail
  timestampSize := u64le.bytes_length time

/-- The `dot_num` records of a packet, read with the layout `R`. -/
def records {ρ : Type} (R : Layout ρ) (data : LivoxLidarEthernetPacket) : List ρ :=
  (List.range data.dotNum.toNat).map (record R data.data)

theorem records_packet {ρ : Type} (R : Layout ρ) (dataType : UInt8) (time : UInt64) (xs : List ρ)
    (tail : Memory) (h : xs.length < 2 ^ 16) :
    records R (packetOf R dataType time xs tail) = xs := by
  have hn : (UInt16.ofNat xs.length).toNat = xs.length := by
    rw [UInt16.toNat_ofNat']
    exact Nat.mod_eq_of_lt h
  apply List.ext_getElem
  · simp only [records, packetOf, List.length_map, List.length_range, hn]
  · intro i h1 h2
    simp only [records, packetOf, List.getElem_map, List.getElem_range,
      record_place R xs tail i h2]

/-! ### What the services send -/

structure OptimizedPoint where
  x : Int16
  y : Int16
  z : Int16
  deriving DecidableEq

structure ImuData where
  accX : UInt32
  accY : UInt32
  accZ : UInt32
  gyroX : UInt32
  gyroY : UInt32
  gyroZ : UInt32
  deriving DecidableEq

def optimizedPoint : Layout OptimizedPoint :=
  (i16le.pair (i16le.pair i16le)).iso (fun p => (p.x, p.y, p.z)) (fun q => ⟨q.1, q.2.1, q.2.2⟩)
    (fun _ => rfl)

def imuData : Layout ImuData :=
  (u32le.pair (u32le.pair (u32le.pair (u32le.pair (u32le.pair u32le))))).iso
    (fun p => (p.accX, p.accY, p.accZ, p.gyroX, p.gyroY, p.gyroZ))
    (fun q => ⟨q.1, q.2.1, q.2.2.1, q.2.2.2.1, q.2.2.2.2.1, q.2.2.2.2.2⟩) (fun _ => rfl)

example : optimizedPoint.size = 6 ∧ imuData.size = 24 := ⟨rfl, rfl⟩

/-- The direct casts `(int16_t)(src.x)`: the low 16 bits. -/
def toOptimized (src : LivoxLidarCartesianHighRawPoint) : OptimizedPoint :=
  ⟨src.x.toInt16, src.y.toInt16, src.z.toInt16⟩

def toImuData (src : LivoxLidarImuRawPoint) : ImuData :=
  ⟨src.accX, src.accY, src.accZ, src.gyroX, src.gyroY, src.gyroZ⟩

/-- A datagram as handed to `sendto`. -/
abbrev Datagram := Bytes

end TypegoSdk.Livox
