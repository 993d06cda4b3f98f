import TypegoSdk.Livox.FilteredService
import TypegoSdk.Livox.FullService

/-!
# From the points of a packet to the points on the wire

Both services read a packet as an array of High records and narrow every
coordinate to `int16`. The full service accepts Low packets as well, and the
conversion loop does not look at the type.
-/

namespace TypegoSdk.Livox
open TypegoSdk.Lib

/-! ### Low points and coordinates -/

structure LivoxLidarCartesianLowRawPoint where
  x : Int16
  y : Int16
  z : Int16
  reflectivity : UInt8
  tag : UInt8
  deriving DecidableEq

def lowRawPoint : Layout LivoxLidarCartesianLowRawPoint :=
  (i16le.pair (i16le.pair (i16le.pair (u8.pair u8)))).iso
    (fun p => (p.x, p.y, p.z, p.reflectivity, p.tag))
    (fun q => ⟨q.1, q.2.1, q.2.2.1, q.2.2.2.1, q.2.2.2.2⟩) (fun _ => rfl)

example : lowRawPoint.size = 8 := rfl

/-- Coordinates as numbers, in the unit of the record they come from. -/
structure Coordinates where
  x : ℤ
  y : ℤ
  z : ℤ
  deriving DecidableEq

def LivoxLidarCartesianHighRawPoint.coordinates (p : LivoxLidarCartesianHighRawPoint) :
    Coordinates := ⟨p.x.toInt, p.y.toInt, p.z.toInt⟩

def LivoxLidarCartesianLowRawPoint.coordinates (p : LivoxLidarCartesianLowRawPoint) :
    Coordinates := ⟨p.x.toInt, p.y.toInt, p.z.toInt⟩

def OptimizedPoint.coordinates (p : OptimizedPoint) : Coordinates :=
  ⟨p.x.toInt, p.y.toInt, p.z.toInt⟩

def FitsInt16 (v : ℤ) : Prop := -32768 ≤ v ∧ v ≤ 32767

structure Coordinates.Fits (c : Coordinates) : Prop where
  x : FitsInt16 c.x
  y : FitsInt16 c.y
  z : FitsInt16 c.z

/-! ### The points of a datagram -/

/- All records behind a header of the given size. -/
def pointsBehind (header : ℕ) (d : Datagram) : List OptimizedPoint :=
  optimizedPoint.values ((d.length - header) / optimizedPoint.size) (d.drop header)

def sentPoints (header : ℕ) (ds : List Datagram) : List OptimizedPoint :=
  ds.flatMap (pointsBehind header)

theorem pointsBehind_array (hd : Bytes) (ps : List OptimizedPoint) :
    pointsBehind hd.length (hd ++ optimizedPoint.array ps) = ps := by
  have hn : ((hd ++ optimizedPoint.array ps).length - hd.length) / optimizedPoint.size =
      ps.length := by
    rw [List.length_append, optimizedPoint.array_length, Nat.add_sub_cancel_left]
    exact Nat.mul_div_cancel _ (by decide)
  have hv := optimizedPoint.values_array ps []
  rw [List.append_nil] at hv
  rw [pointsBehind, hn, List.drop_left, hv]

/- Numbered groups behind headers of one size are read back whole. -/
theorem sentPoints_number (header : ℕ) (frame : UInt16 × List OptimizedPoint → Datagram)
    (hf : ∀ p, ∃ hd : Bytes, hd.length = header ∧ frame p = hd ++ optimizedPoint.array p.2)
    (s : UInt16) (groups : List (List OptimizedPoint)) :
    sentPoints header ((number s groups).map frame) = groups.flatten := by
  induction groups generalizing s with
  | nil => rfl
  | cons g groups ih =>
    obtain ⟨hd, hl, hd'⟩ := hf (s, g)
    have hg : pointsBehind header (frame (s, g)) = g := by
      rw [hd', ← hl]
      exact pointsBehind_array hd g
    rw [number, List.map_cons, sentPoints, List.flatMap_cons, hg, List.flatten_cons]
    congr 1
    exact ih (s + 1)

theorem full_callback (s t : UInt16) (stack : Bytes) (handle : UInt32) (devType : UInt8)
    (data : LivoxLidarEthernetPacket)
    (hd : data.dataType = kLivoxLidarCartesianCoordinateHighData ∨
      data.dataType = kLivoxLidarCartesianCoordinateLowData) :
    FullService.pointCloudCallback ⟨true, s, t⟩ stack handle devType (some data) =
      (⟨true, s + UInt16.ofNat
          (fragments 242 ((records highRawPoint data).map toOptimized)).length, t⟩,
        (number (s + 1) (fragments 242 ((records highRawPoint data).map toOptimized))).map
          (FullService.frame optimizedPoint (FullService.headerOf handle devType data))) := by
  have ht : ¬(data.dataType ≠ kLivoxLidarCartesianCoordinateHighData ∧
      data.dataType ≠ kLivoxLidarCartesianCoordinateLowData) := by
    rintro ⟨h1, h2⟩
    exact hd.elim h1 h2
  have hr : ((List.range data.dotNum.toNat).map fun i =>
      toOptimized (record highRawPoint data.data (0 + i))) =
      (records highRawPoint data).map toOptimized := by
    simp only [records, List.map_map, Function.comp_def, Nat.zero_add]
  simp only [FullService.pointCloudCallback, Bool.not_true, Bool.false_eq_true, if_false,
    if_neg ht, FullService.maxPointsPerPacket_eq, ← hr,
    FullService.transmit_spec 242 (by decide) optimizedPoint toOptimized FullService.packPoint
      FullService.packPoint_packs _ _ _ s stack 0 _ le_rfl]

theorem full_sentPoints (s t : UInt16) (stack : Bytes) (handle : UInt32) (devType : UInt8)
    (data : LivoxLidarEthernetPacket)
    (hd : data.dataType = kLivoxLidarCartesianCoordinateHighData ∨
      data.dataType = kLivoxLidarCartesianCoordinateLowData) :
    sentPoints 18 (FullService.pointCloudCallback ⟨true, s, t⟩ stack handle devType
      (some data)).2 = (records highRawPoint data).map toOptimized := by
  rw [full_callback s t stack handle devType data hd, sentPoints_number 18, fragments_flatten]
  intro p
  exact ⟨_, FullService.packetHeader.bytes_length _, rfl⟩

theorem filtered_sentPoints (s : UInt16) (stack : Bytes) (data : LivoxLidarEthernetPacket)
    (hd : data.dataType = kLivoxLidarCartesianCoordinateHighData) :
    sentPoints 2 (FilteredService.pointCloudCallback ⟨true, s⟩ stack (some data)).2 =
      FilteredService.kept (records highRawPoint data) := by
  rw [FilteredService.pointCloudCallback_high s stack data hd, sentPoints_number 2,
    fragments_flatten]
  intro p
  exact ⟨u16le.bytes p.1, u16le.bytes_length p.1, rfl⟩

/-! ### Narrowing -/

/-- What the cast to `int16` keeps of a coordinate. -/
structure Narrowed (c : Int32) (v : Int16) : Prop where
  reduced : v.toInt = c.toInt.bmod (2 ^ 16)
  exact : FitsInt16 c.toInt → v.toInt = c.toInt

theorem toInt16_narrowed (c : Int32) : Narrowed c c.toInt16 := by
  have hr : c.toInt16.toInt = c.toInt.bmod (2 ^ 16) := Int32.toInt_toInt16 c
  constructor
  · exact hr
  · rintro ⟨hlow, hhigh⟩
    rw [hr]
    apply Int.bmod_eq_of_le <;> omega

/-- The wire point of a source point. -/
structure Truncates (p : LivoxLidarCartesianHighRawPoint) (q : OptimizedPoint) : Prop where
  x : Narrowed p.x q.x
  y : Narrowed p.y q.y
  z : Narrowed p.z q.z

theorem toOptimized_truncates (p : LivoxLidarCartesianHighRawPoint) : Truncates p (toOptimized p) :=
  ⟨toInt16_narrowed p.x, toInt16_narrowed p.y, toInt16_narrowed p.z⟩

theorem Truncates.coordinates {p : LivoxLidarCartesianHighRawPoint} {q : OptimizedPoint}
    (h : Truncates p q) (hf : p.coordinates.Fits) : q.coordinates = p.coordinates := by
  simp only [OptimizedPoint.coordinates, LivoxLidarCartesianHighRawPoint.coordinates,
    h.x.exact hf.x, h.y.exact hf.y, h.z.exact hf.z]

/- A point that the filtered service sends: the band holds for the narrowed
height, and for the height itself when it fits. -/
structure Passes (p : LivoxLidarCartesianHighRawPoint) (q : OptimizedPoint) : Prop extends
    Truncates p q where
  band : -80 < p.z.toInt.bmod (2 ^ 16) ∧ p.z.toInt.bmod (2 ^ 16) < 80
  height : FitsInt16 p.z.toInt → -80 < p.z.toInt ∧ p.z.toInt < 80

theorem inBand_passes {p : LivoxLidarCartesianHighRawPoint}
    (h : FilteredService.InBand (toOptimized p)) : Passes p (toOptimized p) := by
  obtain ⟨hlow, hhigh⟩ := h
  have ht := toOptimized_truncates p
  have hl : -80 < (toOptimized p).z.toInt := Int16.lt_iff_toInt_lt.mp hlow
  have hh : (toOptimized p).z.toInt < 80 := Int16.lt_iff_toInt_lt.mp hhigh
  constructor
  · exact ht
  · rw [← ht.z.reduced]
    exact ⟨hl, hh⟩
  · intro hf
    rw [← ht.z.exact hf]
    exact ⟨hl, hh⟩

/-- Every point that a service sends for a High packet is a source point with
its coordinates narrowed, which changes none that fits; the filtered service
tests the narrowed height. -/
theorem points_truncated (data : LivoxLidarEthernetPacket)
    (hd : data.dataType = kLivoxLidarCartesianCoordinateHighData) :
    (∀ (svc : FullService.Service) (stack : Bytes) (handle : UInt32) (devType : UInt8),
      ∀ q ∈ sentPoints 18
        (FullService.pointCloudCallback svc stack handle devType (some data)).2,
      ∃ p ∈ records highRawPoint data, Truncates p q) ∧
    ∀ (svc : FilteredService.Service) (stack : Bytes),
      ∀ q ∈ sentPoints 2 (FilteredService.pointCloudCallback svc stack (some data)).2,
      ∃ p ∈ records highRawPoint data, Passes p q := by
  constructor
  · rintro ⟨ready, s, t⟩ stack handle devType q hq
    cases ready with
    | false => simp [FullService.pointCloudCallback, sentPoints] at hq
    | true =>
      rw [full_sentPoints s t stack handle devType data (.inl hd)] at hq
      obtain ⟨p, hp, rfl⟩ := List.mem_map.mp hq
      exact ⟨p, hp, toOptimized_truncates p⟩
  · rintro ⟨ready, s⟩ stack q hq
    cases ready with
    | false =>
      rw [FilteredService.pointCloudCallback_silent] at hq
      simp [sentPoints] at hq
    | true =>
      rw [filtered_sentPoints s stack data hd] at hq
      obtain ⟨hmem, hband⟩ := List.mem_filter.mp hq
      obtain ⟨p, hp, rfl⟩ := List.mem_map.mp hmem
      exact ⟨p, hp, inBand_passes (by simpa using hband)⟩

def packetOfPoint (p : LivoxLidarCartesianHighRawPoint) : LivoxLidarEthernetPacket :=
  packetOf highRawPoint kLivoxLidarCartesianCoordinateHighData 0 [p] fun _ => 0

theorem points_truncated_near :
    sentPoints 2 (FilteredService.pointCloudCallback ⟨true, 0⟩ []
      (some (packetOfPoint ⟨1200, -350, 79, 10, 0⟩))).2 = [⟨1200, -350, 79⟩] ∧
    ∃ p ∈ records highRawPoint (packetOfPoint ⟨1200, -350, 79, 10, 0⟩),
      Passes p ⟨1200, -350, 79⟩ := by
  have hs : sentPoints 2 (FilteredService.pointCloudCallback ⟨true, 0⟩ []
      (some (packetOfPoint ⟨1200, -350, 79, 10, 0⟩))).2 = [⟨1200, -350, 79⟩] := by
    rw [filtered_sentPoints _ _ _ rfl]
    decide +kernel
  have h := (points_truncated (packetOfPoint ⟨1200, -350, 79, 10, 0⟩) rfl).2 ⟨true, 0⟩ []
    ⟨1200, -350, 79⟩
  rw [hs] at h
  exact ⟨hs, h (List.mem_singleton_self _)⟩

/- A point 65.536 m above the sensor is sent by both services as the origin. -/
theorem far_point_aliased :
    records highRawPoint (packetOfPoint ⟨0, 0, 65536, 10, 0⟩) = [⟨0, 0, 65536, 10, 0⟩] ∧
    sentPoints 18 (FullService.pointCloudCallback ⟨true, 0, 0⟩ [] 0 0
      (some (packetOfPoint ⟨0, 0, 65536, 10, 0⟩))).2 = [⟨0, 0, 0⟩] ∧
    sentPoints 2 (FilteredService.pointCloudCallback ⟨true, 0⟩ []
      (some (packetOfPoint ⟨0, 0, 65536, 10, 0⟩))).2 = [⟨0, 0, 0⟩] ∧
    (⟨0, 0, 0⟩ : OptimizedPoint).coordinates ≠
      (⟨0, 0, 65536, 10, 0⟩ : LivoxLidarCartesianHighRawPoint).coordinates := by
  rw [full_sentPoints _ _ _ _ _ _ (.inl rfl), filtered_sentPoints _ _ _ rfl]
  decide +kernel

/-! ### The layout of the packet's own type -/

def recordSize (dataType : UInt8) : ℕ :=
  if dataType = kLivoxLidarCartesianCoordinateHighData then highRawPoint.size else lowRawPoint.size

/- The points of a packet, read as its own type says. -/
def sourcePoints (data : LivoxLidarEthernetPacket) : List Coordinates :=
  if data.dataType = kLivoxLidarCartesianCoordinateHighData then
    (records highRawPoint data).map LivoxLidarCartesianHighRawPoint.coordinates
  else (records lowRawPoint data).map LivoxLidarCartesianLowRawPoint.coordinates

namespace FullService

/- `src.x`, `src.y` and `src.z` for `src_pts[i]`: the offset in `data->data` and
the length of each read. -/
def fieldReads (i : ℕ) : List (ℕ × ℕ) := [(14 * i, 4), (14 * i + 4, 4), (14 * i + 8, 4)]

def pointReads (data : LivoxLidarEthernetPacket) : List (ℕ × ℕ) :=
  (List.range data.dotNum.toNat).flatMap fieldReads

/- `m` and `m'` hold the same bytes wherever one of the reads is. -/
def SameAt (reads : List (ℕ × ℕ)) (m m' : Memory) : Prop :=
  ∀ r ∈ reads, ∀ k < r.2, m (r.1 + k) = m' (r.1 + k)

/-- The points on the wire are those of the packet, and nothing behind them is read. -/
structure Decoded (svc : Service) (stack : Bytes) (handle : UInt32) (devType : UInt8)
    (data : LivoxLidarEthernetPacket) : Prop where
  points : (sentPoints 18 (pointCloudCallback svc stack handle devType (some data)).2).map
    OptimizedPoint.coordinates = sourcePoints data
  within : ∀ r ∈ pointReads data, r.1 + r.2 ≤ data.dotNum.toNat * recordSize data.dataType

/- The fields of a record are words at fixed offsets. -/
theorem toOptimized_record (m : Memory) (i : ℕ) : toOptimized (record highRawPoint m i) =
    ⟨(i32le.value (load m (14 * i) 4)).toInt16, (i32le.value (load m (14 * i + 4) 4)).toInt16,
      (i32le.value (load m (14 * i + 8) 4)).toInt16⟩ := by
  -- a word takes the first four of the bytes it is given
  have hw : ∀ off n, 4 ≤ n → i32le.value (load m off n) = i32le.value (load m off 4) := by
    intro off n hn
    have hv : ∀ bs : Bytes, i32le.value bs = i32le.value (bs.take 4) := by
      intro bs
      simp only [i32le, u32le, Layout.iso, List.take_take, Nat.min_self]
    rw [hv, load_take m off n 4 hn]
  have hy : (load m (i * 14) 14).drop 4 = load m (i * 14 + 4) 10 := load_drop m (i * 14) 10 4
  have hz : (load m (i * 14 + 4) 10).drop 4 = load m (i * 14 + 8) 6 :=
    load_drop m (i * 14 + 4) 6 4
  show (⟨(i32le.value (load m (i * 14) 14)).toInt16,
    (i32le.value ((load m (i * 14) 14).drop 4)).toInt16,
    (i32le.value (((load m (i * 14) 14).drop 4).drop 4)).toInt16⟩ : OptimizedPoint) = _
  rw [hy, hz, hw _ 14 (by omega), hw _ 10 (by omega), hw _ 6 (by omega), Nat.mul_comm i 14]

/- `pointReads` are all the reads: the rest of the memory has no effect. -/
theorem callback_reads (svc : Service) (stack : Bytes) (handle : UInt32) (devType : UInt8)
    (data : LivoxLidarEthernetPacket) (m : Memory) (h : SameAt (pointReads data) m data.data) :
    pointCloudCallback svc stack handle devType (some {data with data := m}) =
      pointCloudCallback svc stack handle devType (some data) := by
  obtain ⟨ready, s, t⟩ := svc
  cases ready with
  | false => simp only [pointCloudCallback, Bool.not_false, if_true]
  | true =>
    have hheader : headerOf handle devType {data with data := m} =
        headerOf handle devType data := rfl
    by_cases ht : data.dataType = kLivoxLidarCartesianCoordinateHighData ∨
        data.dataType = kLivoxLidarCartesianCoordinateLowData
    · have hr : (records highRawPoint {data with data := m}).map toOptimized =
          (records highRawPoint data).map toOptimized := by
        simp only [records, List.map_map]
        apply List.map_congr_left
        intro i hi
        have hword : ∀ r ∈ fieldReads i, load m r.1 r.2 = load data.data r.1 r.2 := by
          intro r hr
          exact load_congr (h r (List.mem_flatMap.mpr ⟨i, hi, hr⟩))
        simp only [fieldReads, List.forall_mem_cons] at hword
        obtain ⟨hx, hy, hz, _⟩ := hword
        simp only [Function.comp_apply, toOptimized_record, hx, hy, hz]
      rw [full_callback s t stack handle devType data ht,
        full_callback s t stack handle devType {data with data := m} ht, hr, hheader]
    · have hno : data.dataType ≠ kLivoxLidarCartesianCoordinateHighData ∧
          data.dataType ≠ kLivoxLidarCartesianCoordinateLowData := not_or.mp ht
      simp only [pointCloudCallback, hno, ne_eq, not_false_eq_true, and_self, if_true,
        Bool.not_true, Bool.false_eq_true, if_false]

/- Three words of fourteen bytes stay inside the record. -/
theorem high_within (data : LivoxLidarEthernetPacket)
    (hd : data.dataType = kLivoxLidarCartesianCoordinateHighData) :
    ∀ r ∈ pointReads data, r.1 + r.2 ≤ data.dotNum.toNat * recordSize data.dataType := by
  intro r hr
  obtain ⟨i, hi, hri⟩ := List.mem_flatMap.mp hr
  have hlt := List.mem_range.mp hi
  have hsize : recordSize data.dataType = 14 := by
    rw [recordSize, if_pos hd]
    rfl
  rw [hsize]
  simp only [fieldReads, List.mem_cons, List.not_mem_nil, or_false] at hri
  rcases hri with rfl | rfl | rfl
  · show 14 * i + 4 ≤ _
    omega
  · show 14 * i + 4 + 4 ≤ _
    omega
  · show 14 * i + 8 + 4 ≤ _
    omega

/- The last point of a Low packet is read from behind the packet. -/
theorem low_beyond (data : LivoxLidarEthernetPacket)
    (hd : data.dataType = kLivoxLidarCartesianCoordinateLowData) (hn : data.dotNum ≠ 0) :
    ∃ r ∈ pointReads data, data.dotNum.toNat * recordSize data.dataType < r.1 + r.2 := by
  have hsize : recordSize data.dataType = 8 := by
    rw [recordSize, hd]
    rfl
  have hpos : 0 < data.dotNum.toNat := by
    apply Nat.pos_of_ne_zero
    intro h0
    exact hn (UInt16.toNat_inj.mp h0)
  refine ⟨(14 * (data.dotNum.toNat - 1) + 8, 4), ?_, ?_⟩
  · apply List.mem_flatMap.mpr
    exact ⟨data.dotNum.toNat - 1, List.mem_range.mpr (by omega), by simp [fieldReads]⟩
  · rw [hsize]
    show _ < 14 * (data.dotNum.toNat - 1) + 8 + 4
    omega

theorem high_points (data : LivoxLidarEthernetPacket)
    (hfit : ∀ c ∈ sourcePoints data, c.Fits)
    (hd : data.dataType = kLivoxLidarCartesianCoordinateHighData) :
    ((records highRawPoint data).map toOptimized).map OptimizedPoint.coordinates =
      sourcePoints data := by
  rw [sourcePoints, if_pos hd] at hfit ⊢
  rw [List.map_map]
  apply List.map_congr_left
  intro p hp
  exact (toOptimized_truncates p).coordinates (hfit _ (List.mem_map_of_mem hp))

/-- For an accepted packet whose coordinates fit: the bytes in `pointReads` are
all that the callback uses, and it decodes the packet by its own layout exactly
when the packet is a High packet or empty. -/
theorem decoded_iff_high (s t : UInt16) (stack : Bytes) (handle : UInt32) (devType : UInt8)
    (data : LivoxLidarEthernetPacket)
    (hd : data.dataType = kLivoxLidarCartesianCoordinateHighData ∨
      data.dataType = kLivoxLidarCartesianCoordinateLowData)
    (hfit : ∀ c ∈ sourcePoints data, c.Fits) :
    (∀ m, SameAt (pointReads data) m data.data →
      pointCloudCallback ⟨true, s, t⟩ stack handle devType (some {data with data := m}) =
        pointCloudCallback ⟨true, s, t⟩ stack handle devType (some data)) ∧
    (Decoded ⟨true, s, t⟩ stack handle devType data ↔
      data.dataType = kLivoxLidarCartesianCoordinateHighData ∨ data.dotNum = 0) := by
  constructor
  · exact callback_reads ⟨true, s, t⟩ stack handle devType data
  · constructor
    · intro h
      by_contra hno
      obtain ⟨hhigh, hn⟩ := not_or.mp hno
      obtain ⟨r, hr, hlt⟩ := low_beyond data (hd.resolve_left hhigh) hn
      have hle := h.within r hr
      omega
    · rintro (hhigh | hn)
      · constructor
        · rw [full_sentPoints s t stack handle devType data hd]
          exact high_points data hfit hhigh
        · exact high_within data hhigh
      · have h0 : data.dotNum.toNat = 0 := by
          rw [hn]
          rfl
        constructor
        · rw [full_sentPoints s t stack handle devType data hd]
          simp [sourcePoints, records, h0]
        · simp [pointReads, h0]

theorem high_point_decoded :
    Decoded ⟨true, 0, 0⟩ [] 0 0 (packetOfPoint ⟨1200, -350, 79, 10, 0⟩) := by
  have hs : sourcePoints (packetOfPoint ⟨1200, -350, 79, 10, 0⟩) = [⟨1200, -350, 79⟩] := by
    decide +kernel
  have hfit : ∀ c ∈ sourcePoints (packetOfPoint ⟨1200, -350, 79, 10, 0⟩), c.Fits := by
    rw [hs]
    intro c hc
    rw [List.mem_singleton.mp hc]
    exact ⟨by constructor <;> decide, by constructor <;> decide, by constructor <;> decide⟩
  exact (decoded_iff_high 0 0 [] 0 0 _ (.inl rfl) hfit).2.mpr (.inl rfl)

/- A Low packet with the points (1, 2, 3) and (4, 5, 6), followed by zeros. -/
def lowPacket : LivoxLidarEthernetPacket :=
  packetOf lowRawPoint kLivoxLidarCartesianCoordinateLowData 0 [⟨1, 2, 3, 0, 0⟩, ⟨4, 5, 6, 0, 0⟩]
    fun _ => 0

theorem low_points_misread :
    sourcePoints lowPacket = [⟨1, 2, 3⟩, ⟨4, 5, 6⟩] ∧
    (sentPoints 18 (pointCloudCallback ⟨true, 0, 0⟩ [] 0 0 (some lowPacket)).2).map
      OptimizedPoint.coordinates = [⟨1, 3, 4⟩, ⟨0, 0, 0⟩] ∧
    ¬Decoded ⟨true, 0, 0⟩ [] 0 0 lowPacket := by
  have hsource : sourcePoints lowPacket = [⟨1, 2, 3⟩, ⟨4, 5, 6⟩] := by decide +kernel
  have hsent : (sentPoints 18 (pointCloudCallback ⟨true, 0, 0⟩ [] 0 0 (some lowPacket)).2).map
      OptimizedPoint.coordinates = [⟨1, 3, 4⟩, ⟨0, 0, 0⟩] := by
    rw [full_sentPoints _ _ _ _ _ _ (.inr rfl)]
    decide +kernel
  refine ⟨hsource, hsent, ?_⟩
  intro h
  have hp := h.points
  rw [hsource, hsent] at hp
  simp at hp

end FullService

end TypegoSdk.Livox
