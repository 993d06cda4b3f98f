import TypegoSdk.Lib.Bytes
import TypegoSdk.Lib.While

/-!
# The parameters that the LiDAR reports (QueryInternalInfoCallback)

The function is the same in both services. It walks over key, length and value
entries and keeps the host configurations for points and for the IMU. Its
counter is a `uint8_t`, its bound and its offset are `uint16_t`.
-/

namespace TypegoSdk.Livox.InternalInfo
open TypegoSdk.Lib

/-! ### The callback -/

/-- `kKeyLidarPointDataHostIpCfg` and `kKeyLidarImuHostIpCfg`, two constants of one
enumeration of the SDK. -/
structure ParamKeys where
  pointDataHostIpCfg : UInt16
  imuHostIpCfg : UInt16
  distinct : pointDataHostIpCfg ≠ imuHostIpCfg

def kLivoxLidarStatusSuccess : ℤ := 0

/-- The fields that are read; `data` is the memory from `response->data` on. -/
structure LivoxLidarDiagInternalInfoResponse where
  paramNum : UInt16
  data : Memory

structure HostConfig where
  ipaddr : Bytes
  hostPort : UInt16
  lidarPort : UInt16
  deriving DecidableEq

def HostConfig.zero : HostConfig := ⟨[0, 0, 0, 0], 0, 0⟩

/- The three `memcpy` from the value of an entry. -/
def copyConfig (data : Memory) (value : ℕ) : HostConfig :=
  ⟨load data value 4, u16le.value (load data (value + 4) 2), u16le.value (load data (value + 6) 2)⟩

structure Scan where
  i : UInt8
  off : UInt16
  point : HostConfig
  imu : HostConfig
  deriving DecidableEq

def Scan.init : Scan := ⟨0, 0, .zero, .zero⟩

def more (response : LivoxLidarDiagInternalInfoResponse) (s : Scan) : Bool :=
  s.i.toNat < response.paramNum.toNat

/- The loop body; `kv` is where the entry starts. -/
def round (keys : ParamKeys) (response : LivoxLidarDiagInternalInfoResponse) (s : Scan) : Scan :=
  let kv := s.off.toNat
  let key := u16le.value (load response.data kv 2)
  let length := u16le.value (load response.data (kv + 2) 2)
  let s :=
    if key = keys.pointDataHostIpCfg then {s with point := copyConfig response.data (kv + 4)}
    else if key = keys.imuHostIpCfg then {s with imu := copyConfig response.data (kv + 4)}
    else s
  {s with i := s.i + 1, off := s.off + 4 + length}

def scan (keys : ParamKeys) (response : LivoxLidarDiagInternalInfoResponse) (fuel : ℕ) :
    Option (ℕ × Scan) :=
  whileLoop (more response) (round keys response) fuel .init

def HostConfig.dotted (c : HostConfig) : String :=
  ".".intercalate (c.ipaddr.map fun b => toString b.toNat)

def report (point imu : HostConfig) : List String :=
  ["Host point cloud ip addr:" ++ point.dotted ++ ", host point cloud port:" ++
      toString point.hostPort.toNat ++ ", lidar point cloud port:" ++
      toString point.lidarPort.toNat ++ ".\n",
    "Host imu ip addr:" ++ imu.dotted ++ ", host imu port:" ++ toString imu.hostPort.toNat ++
      ", lidar imu port:" ++ toString imu.lidarPort.toNat ++ ".\n"]

/- What is printed; none while the loop needs more rounds. -/
def queryInternalInfoCallback (keys : ParamKeys) (fuel : ℕ) (status : ℤ)
    (response : Option LivoxLidarDiagInternalInfoResponse) : Option (List String) :=
  if status ≠ kLivoxLidarStatusSuccess then some ["Query lidar internal info failed.\n"]
  else
    match response with
    | none => some []
    | some response => (scan keys response fuel).map fun r => report r.2.point r.2.imu

/-! ### The end of the loop -/

@[simp] theorem round_i (keys : ParamKeys) (response : LivoxLidarDiagInternalInfoResponse)
    (s : Scan) : (round keys response s).i = s.i + 1 := by
  simp only [round]
  split
  · rfl
  · split <;> rfl

theorem succ_toNat {i : UInt8} {n : ℕ} (h : i.toNat < n) (hn : n ≤ 255) :
    (i + 1).toNat = i.toNat + 1 := by
  rw [UInt8.toNat_add]
  have h1 : (1 : UInt8).toNat = 1 := rfl
  rw [h1]
  omega

/- A bound beyond the counter's largest value is never reached. -/
theorem scan_endless (keys : ParamKeys) (response : LivoxLidarDiagInternalInfoResponse)
    (h : 255 < response.paramNum.toNat) (fuel : ℕ) : scan keys response fuel = none := by
  apply whileLoop_endless (fun _ => True) _ trivial
  intro s _
  have hi : s.i.toNat < 256 := s.i.toNat_lt
  have hless : s.i.toNat < response.paramNum.toNat := by omega
  exact ⟨by simpa [more] using hless, trivial⟩

/-- The loop ends after `param_num` rounds exactly when the counter can hold
that number; otherwise it does not end, whatever the data. -/
theorem scan_ends_iff (keys : ParamKeys) (response : LivoxLidarDiagInternalInfoResponse) :
    ((∃ fuel s, scan keys response fuel = some (response.paramNum.toNat, s)) ↔
      response.paramNum.toNat ≤ 255) ∧
    (255 < response.paramNum.toNat → ∀ fuel, scan keys response fuel = none) := by
  constructor
  · constructor
    · rintro ⟨fuel, s, hs⟩
      by_contra hlarge
      rw [scan_endless keys response (by omega) fuel] at hs
      cases hs
    · intro hsmall
      have hround : ∀ k s, k < response.paramNum.toNat → s.i.toNat = k →
          more response s = true ∧ (round keys response s).i.toNat = k + 1 := by
        intro k s hk hs
        have hless : s.i.toNat < response.paramNum.toNat := by omega
        constructor
        · simpa [more] using hless
        · rw [round_i, succ_toNat hless hsmall, hs]
      have hend : ∀ s : Scan, s.i.toNat = response.paramNum.toNat → more response s = false := by
        intro s hs
        simp [more, hs]
      obtain ⟨s, hs, _⟩ := whileLoop_counts (fun k (s : Scan) => s.i.toNat = k) response.paramNum.toNat
        hround hend (Nat.zero_le _) (show Scan.init.i.toNat = 0 from rfl) (Nat.sub_le _ 0)
      exact ⟨_, s, hs⟩
  · exact scan_endless keys response

/- The keys of the SDK. -/
def sdkKeys : ParamKeys := ⟨6, 7, by decide⟩

theorem scan_of_256 : ¬∃ fuel result, scan sdkKeys ⟨256, fun _ => 0⟩ fuel = some result := by
  rintro ⟨fuel, result, h⟩
  rw [scan_endless sdkKeys ⟨256, fun _ => 0⟩ (by decide) fuel] at h
  cases h

/-! ### The format -/

structure Param where
  key : UInt16
  value : Bytes

def Param.bytes (p : Param) : Bytes :=
  u16le.bytes p.key ++ u16le.bytes (UInt16.ofNat p.value.length) ++ p.value

def encode (params : List Param) : Bytes := params.flatMap Param.bytes

def responseOf (params : List Param) (tail : Memory) : LivoxLidarDiagInternalInfoResponse :=
  ⟨UInt16.ofNat params.length, place (encode params) tail⟩

def Param.config (p : Param) : HostConfig :=
  ⟨p.value.take 4, u16le.value ((p.value.drop 4).take 2), u16le.value ((p.value.drop 6).take 2)⟩

/- The configuration of the last entry with the key. -/
def lastConfig (key : UInt16) (params : List Param) : HostConfig :=
  match (params.filter fun p => p.key = key).getLast? with
  | none => .zero
  | some p => p.config

theorem lastConfig_snoc (key : UInt16) (params : List Param) (p : Param) :
    lastConfig key (params ++ [p]) = if p.key = key then p.config else lastConfig key params := by
  by_cases h : p.key = key
  · simp [lastConfig, h]
  · simp [lastConfig, h]

theorem Param.bytes_length (p : Param) : p.bytes.length = 4 + p.value.length := by
  simp only [Param.bytes, List.length_append, u16le.bytes_length]
  rfl

theorem encode_snoc (params : List Param) (p : Param) :
    encode (params ++ [p]) = encode params ++ p.bytes := by
  simp [encode]

/-- Memory with the entry `p` behind `before`. -/
def entryAt (before : Bytes) (p : Param) (after : Bytes) (tail : Memory) : Memory :=
  place (before ++ (p.bytes ++ after)) tail

theorem u16le_size : u16le.size = 2 := rfl

section Entry
variable (before : Bytes) (p : Param) (after : Bytes) (tail : Memory)

theorem entry_key : u16le.value (load (entryAt before p after tail) before.length 2) = p.key := by
  have h := u16le.value_load before
    (u16le.bytes (UInt16.ofNat p.value.length) ++ p.value ++ after) p.key tail
  simpa only [entryAt, Param.bytes, List.append_assoc, u16le_size] using h

theorem entry_length : u16le.value (load (entryAt before p after tail) (before.length + 2) 2) =
    UInt16.ofNat p.value.length := by
  have h := u16le.value_load (before ++ u16le.bytes p.key) (p.value ++ after)
    (UInt16.ofNat p.value.length) tail
  rw [List.length_append, u16le.bytes_length] at h
  simpa only [entryAt, Param.bytes, List.append_assoc, u16le_size] using h

theorem entry_value (k m : ℕ) (h : k + m ≤ p.value.length) :
    load (entryAt before p after tail) (before.length + 4 + k) m = (p.value.drop k).take m := by
  have hstart : (before ++ (u16le.bytes p.key ++
      u16le.bytes (UInt16.ofNat p.value.length))).length = before.length + 4 := by
    simp only [List.length_append, u16le.bytes_length]
    rfl
  have hin : k + m ≤ (p.value ++ after).length := by
    rw [List.length_append]
    omega
  have hl := load_place_append (before ++ (u16le.bytes p.key ++
    u16le.bytes (UInt16.ofNat p.value.length))) (p.value ++ after) tail k m hin
  have htake : m ≤ (p.value.drop k).length := by
    rw [List.length_drop]
    omega
  rw [hstart, List.drop_append_of_le_length (by omega), List.take_append_of_le_length htake] at hl
  simpa only [entryAt, Param.bytes, List.append_assoc] using hl

theorem entry_config (h : 8 ≤ p.value.length) :
    copyConfig (entryAt before p after tail) (before.length + 4) = p.config := by
  have h0 := entry_value before p after tail 0 4 (by omega)
  have h4 := entry_value before p after tail 4 2 (by omega)
  have h6 := entry_value before p after tail 6 2 (by omega)
  rw [Nat.add_zero, List.drop_zero] at h0
  rw [copyConfig, h0, h4, h6, Param.config]

end Entry

/- One round on the entry behind `before`. -/
theorem round_entry (keys : ParamKeys) (n : UInt16) (before after : Bytes) (p : Param)
    (tail : Memory) (s : Scan) (ho : s.off.toNat = before.length)
    (hhost : p.key = keys.pointDataHostIpCfg ∨ p.key = keys.imuHostIpCfg → 8 ≤ p.value.length) :
    round keys ⟨n, entryAt before p after tail⟩ s =
      { i := s.i + 1
        off := s.off + 4 + UInt16.ofNat p.value.length
        point := if p.key = keys.pointDataHostIpCfg then p.config else s.point
        imu := if p.key = keys.imuHostIpCfg then p.config else s.imu } := by
  simp only [round, ho, entry_key, entry_length]
  by_cases hpoint : p.key = keys.pointDataHostIpCfg
  · have himu : p.key ≠ keys.imuHostIpCfg := by
      rw [hpoint]
      exact keys.distinct
    rw [if_pos hpoint, if_pos hpoint, if_neg himu,
      entry_config before p after tail (hhost (.inl hpoint))]
  · rw [if_neg hpoint, if_neg hpoint]
    by_cases himu : p.key = keys.imuHostIpCfg
    · rw [if_pos himu, if_pos himu, entry_config before p after tail (hhost (.inr himu))]
    · rw [if_neg himu, if_neg himu]

/-- Before round `k` of the scan of `params`. -/
structure Scanned (keys : ParamKeys) (params : List Param) (k : ℕ) (s : Scan) : Prop where
  i : s.i.toNat = k
  off : s.off.toNat = (encode (params.take k)).length
  point : s.point = lastConfig keys.pointDataHostIpCfg (params.take k)
  imu : s.imu = lastConfig keys.imuHostIpCfg (params.take k)

theorem round_scanned (keys : ParamKeys) (params : List Param) (tail : Memory)
    (hlen : params.length ≤ 255) (hsize : (encode params).length < 2 ^ 16)
    (hhost : ∀ p ∈ params, p.key = keys.pointDataHostIpCfg ∨ p.key = keys.imuHostIpCfg →
      8 ≤ p.value.length) (k : ℕ) (s : Scan) (hk : k < params.length)
    (h : Scanned keys params k s) :
    more (responseOf params tail) s = true ∧
      Scanned keys params (k + 1) (round keys (responseOf params tail) s) := by
  have hnum : (UInt16.ofNat params.length).toNat = params.length := by
    rw [UInt16.toNat_ofNat']
    omega
  have hless : s.i.toNat < params.length := by
    rw [h.i]
    exact hk
  have hnext : params.take (k + 1) = params.take k ++ [params[k]] :=
    List.take_succ_eq_append_getElem hk
  have hsplit : encode params = encode (params.take k) ++
      (params[k].bytes ++ encode (params.drop (k + 1))) := by
    have hall : params = params.take (k + 1) ++ params.drop (k + 1) :=
      (List.take_append_drop (k + 1) params).symm
    conv => lhs; rw [hall, hnext]
    simp only [encode, List.flatMap_append, List.flatMap_cons, List.flatMap_nil, List.append_nil,
      List.append_assoc]
  have hmem : params[k] ∈ params := List.getElem_mem hk
  have hround := round_entry keys (UInt16.ofNat params.length) (encode (params.take k))
    (encode (params.drop (k + 1))) params[k] tail s h.off (hhost _ hmem)
  rw [entryAt, ← hsplit] at hround
  have hbytes : (encode (params.take (k + 1))).length =
      (encode (params.take k)).length + (4 + params[k].value.length) := by
    rw [hnext, encode_snoc, List.length_append, Param.bytes_length]
  have hfits : (encode (params.take k)).length + (4 + params[k].value.length) < 2 ^ 16 := by
    have htotal := congrArg List.length hsplit
    rw [List.length_append, List.length_append, Param.bytes_length] at htotal
    omega
  constructor
  · simpa [more, responseOf, hnum] using hless
  · rw [responseOf, hround]
    constructor
    · show (s.i + 1).toNat = k + 1
      rw [succ_toNat hless hlen, h.i]
    · -- the offset does not wrap: the whole encoding is shorter than 2^16
      show (s.off + 4 + UInt16.ofNat params[k].value.length).toNat = _
      have h4 : (4 : UInt16).toNat = 4 := rfl
      rw [UInt16.toNat_add, UInt16.toNat_add, UInt16.toNat_ofNat', h.off, h4, hbytes]
      omega
    · rw [hnext, lastConfig_snoc, ← h.point]
    · rw [hnext, lastConfig_snoc, ← h.imu]

/-- The scan of an encoded list: after one round for each entry it has the
configurations of the last entries with the two keys, and that is printed. -/
theorem scan_decodes (keys : ParamKeys) (params : List Param) (tail : Memory)
    (hlen : params.length ≤ 255) (hsize : (encode params).length < 2 ^ 16)
    (hhost : ∀ p ∈ params, p.key = keys.pointDataHostIpCfg ∨ p.key = keys.imuHostIpCfg →
      8 ≤ p.value.length) (fuel : ℕ) (hf : params.length ≤ fuel) :
    (∃ s, scan keys (responseOf params tail) fuel = some (params.length, s) ∧
      s.point = lastConfig keys.pointDataHostIpCfg params ∧
      s.imu = lastConfig keys.imuHostIpCfg params) ∧
    queryInternalInfoCallback keys fuel kLivoxLidarStatusSuccess (some (responseOf params tail)) =
      some (report (lastConfig keys.pointDataHostIpCfg params)
        (lastConfig keys.imuHostIpCfg params)) := by
  have hnum : (UInt16.ofNat params.length).toNat = params.length := by
    rw [UInt16.toNat_ofNat']
    omega
  have hend : ∀ s, Scanned keys params params.length s →
      more (responseOf params tail) s = false := by
    intro s h
    simp [more, responseOf, hnum, h.i]
  have hstart : Scanned keys params 0 .init := ⟨rfl, rfl, rfl, rfl⟩
  obtain ⟨s, hs, h⟩ := whileLoop_counts (Scanned keys params) params.length
    (round_scanned keys params tail hlen hsize hhost) hend (Nat.zero_le _) hstart
    (show params.length - 0 ≤ fuel by omega)
  have hpoint := h.point
  have himu := h.imu
  rw [List.take_length] at hpoint himu
  have hscan : scan keys (responseOf params tail) fuel = some (params.length, s) := hs
  constructor
  · exact ⟨s, hscan, hpoint, himu⟩
  · simp only [queryInternalInfoCallback, ne_eq, not_true_eq_false, if_false, hscan,
      Option.map_some, hpoint, himu]

/- An unknown entry, two entries for points and none for the IMU. -/
def sampleParams : List Param :=
  [⟨0, [1]⟩, ⟨6, [192, 168, 1, 5, 0, 1, 0, 2]⟩, ⟨6, [192, 168, 1, 50, 69, 219, 252, 219]⟩]

theorem scan_decodes_sample :
    lastConfig 6 sampleParams = ⟨[192, 168, 1, 50], 56133, 56316⟩ ∧
    ∃ s, scan sdkKeys (responseOf sampleParams fun _ => 255) 3 = some (3, s) ∧
      s.point = lastConfig 6 sampleParams ∧ s.imu = .zero := by
  have hhost : ∀ p ∈ sampleParams, p.key = sdkKeys.pointDataHostIpCfg ∨
      p.key = sdkKeys.imuHostIpCfg → 8 ≤ p.value.length := by
    decide
  exact ⟨by decide, (scan_decodes sdkKeys sampleParams (fun _ => 255) (by decide) (by decide)
    hhost 3 (by decide)).1⟩

end TypegoSdk.Livox.InternalInfo
