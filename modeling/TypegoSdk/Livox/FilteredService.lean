import TypegoSdk.Lib.Fragment
import TypegoSdk.Livox.Packet
import Mathlib.Data.List.Induction

/-!
# The filtered point cloud service (typego_livox_service.cpp)

The callback keeps the points whose truncated height is strictly between -80
and 80 and packs them behind a two-byte id. The id stands in the stack array
before the first point is known; the array is flushed in the middle of the
filtering loop when the next point would not fit, and once more after it.
-/

namespace TypegoSdk.Livox.FilteredService
open TypegoSdk.Lib

def maxUdpPayload : ℕ := 512

structure Service where
  clientReady : Bool
  seqId : UInt16
  deriving DecidableEq

def sendtoClient (clientReady : Bool) (data : Bytes) : List Datagram :=
  if clientReady then [data] else []

/-- The locals of the callback and what it has sent so far. -/
structure Locals where
  packet : Bytes
  offset : ℕ
  seqId : UInt16
  sent : List Datagram

/- `memcpy(&packet[0], &seq_id, sizeof(seq_id)); offset = sizeof(seq_id)`. -/
def beginPacket (l : Locals) : Locals :=
  {l with packet := store l.packet 0 (u16le.bytes l.seqId), offset := 2}

def flush (clientReady : Bool) (l : Locals) : Locals :=
  {l with sent := l.sent ++ sendtoClient clientReady (l.packet.take l.offset), seqId := l.seqId + 1}

def append (l : Locals) (x y z : Int16) : Locals :=
  let packet := store l.packet l.offset (i16le.bytes x)
  let packet := store packet (l.offset + 2) (i16le.bytes y)
  let packet := store packet (l.offset + 4) (i16le.bytes z)
  {l with packet := packet, offset := l.offset + 6}

/- The loop body for one point. The height test is on the truncated value. -/
def visit (clientReady : Bool) (l : Locals) (p : LivoxLidarCartesianHighRawPoint) : Locals :=
  let x := p.x.toInt16
  let y := p.y.toInt16
  let z := p.z.toInt16
  if z > -80 ∧ z < 80 then
    let l := if l.offset + 6 > maxUdpPayload then beginPacket (flush clientReady l) else l
    append l x y z
  else l

def pointCloudCallback (svc : Service) (packet : Bytes) (data : Option LivoxLidarEthernetPacket) :
    Service × List Datagram :=
  match data with
  | none => (svc, [])
  | some data =>
    if data.dataType ≠ kLivoxLidarCartesianCoordinateHighData then (svc, [])
    else
      let l := beginPacket ⟨packet, 0, svc.seqId, []⟩
      let l := (List.range data.dotNum.toNat).foldl
        (fun l i => visit svc.clientReady l (record highRawPoint data.data i)) l
      let l := if l.offset > 2 then flush svc.clientReady l else l
      ({svc with seqId := l.seqId}, l.sent)

/-! ### The loop builds fragments -/

def InBand (p : OptimizedPoint) : Prop := p.z > -80 ∧ p.z < 80

instance (p : OptimizedPoint) : Decidable (InBand p) := inferInstanceAs (Decidable (_ ∧ _))

def kept (ps : List LivoxLidarCartesianHighRawPoint) : List OptimizedPoint :=
  (ps.map toOptimized).filter InBand

/- A datagram of this service: id, then points. -/
def frame (p : UInt16 × List OptimizedPoint) : Datagram :=
  u16le.bytes p.1 ++ optimizedPoint.array p.2

/-- After the points with kept part `ks`: `full` has been sent with ids from
`s` on, `cur` stands behind the current id in the array. The last clause says
that a flush is always followed by a point. -/
structure Loop (s : UInt16) (ks : List OptimizedPoint) (l : Locals) (full : List (List OptimizedPoint))
    (cur : List OptimizedPoint) : Prop where
  split : ks = full.flatten ++ cur
  full_length : ∀ g ∈ full, g.length = 85
  cur_length : cur.length ≤ 85
  offset : l.offset = 2 + cur.length * 6
  seqId : l.seqId = s + UInt16.ofNat full.length
  sent : l.sent = (number s full).map frame
  packet : frame (l.seqId, cur) <+: l.packet
  flushed : cur = [] → full = []

theorem frame_length (p : UInt16 × List OptimizedPoint) : (frame p).length = 2 + p.2.length * 6 := by
  rw [frame, List.length_append, u16le.bytes_length, optimizedPoint.array_length]
  rfl

theorem frame_append (s : UInt16) (cur : List OptimizedPoint) (q : OptimizedPoint) :
    frame (s, cur ++ [q]) = frame (s, cur) ++ optimizedPoint.bytes q := by
  simp only [frame, Layout.array, List.flatMap_append, List.flatMap_cons, List.flatMap_nil,
    List.append_nil, List.append_assoc]

theorem beginPacket_writes (l : Locals) : frame (l.seqId, []) <+: (beginPacket l).packet := by
  have h := store_extends (w := []) (u16le.bytes l.seqId) 0 ⟨l.packet, rfl⟩ rfl
  simpa [frame, Layout.array, beginPacket] using h

theorem append_writes (l : Locals) (w : Bytes) (q : OptimizedPoint) (hw : w <+: l.packet)
    (ho : l.offset = w.length) : (w ++ optimizedPoint.bytes q) <+: (append l q.x q.y q.z).packet := by
  have hl : ∀ v, (i16le.bytes v).length = 2 := i16le.bytes_length
  have h0 := store_extends (i16le.bytes q.x) l.offset hw ho
  have h1 := store_extends (i16le.bytes q.y) (l.offset + 2) h0
    (by simp only [List.length_append, hl]; omega)
  have h2 := store_extends (i16le.bytes q.z) (l.offset + 4) h1
    (by simp only [List.length_append, hl]; omega)
  simpa only [append, optimizedPoint, Layout.iso, Layout.pair, List.append_assoc] using h2

/- Adding a point to a group that has room. -/
theorem append_loop (s : UInt16) (ks : List OptimizedPoint) (l : Locals)
    (full : List (List OptimizedPoint)) (cur : List OptimizedPoint) (q : OptimizedPoint)
    (hsplit : ks = full.flatten ++ cur) (hfull : ∀ g ∈ full, g.length = 85)
    (hcur : cur.length < 85) (ho : l.offset = 2 + cur.length * 6)
    (hseq : l.seqId = s + UInt16.ofNat full.length) (hsent : l.sent = (number s full).map frame)
    (hp : frame (l.seqId, cur) <+: l.packet) :
    Loop s (ks ++ [q]) (append l q.x q.y q.z) full (cur ++ [q]) where
  split := by rw [hsplit, List.append_assoc]
  full_length := hfull
  cur_length := by simp only [List.length_append, List.length_singleton]; omega
  offset := by
    show l.offset + 6 = _
    simp only [List.length_append, List.length_singleton]
    omega
  seqId := hseq
  sent := hsent
  packet := by
    show frame (l.seqId, cur ++ [q]) <+: _
    rw [frame_append]
    exact append_writes l _ q hp (by rw [frame_length, ho])
  flushed h := by simp at h

theorem flush_sent (s : UInt16) (ks : List OptimizedPoint) (l : Locals)
    (full : List (List OptimizedPoint)) (cur : List OptimizedPoint) (h : Loop s ks l full cur) :
    (flush true l).sent = (number s (full ++ [cur])).map frame ∧
      (flush true l).seqId = s + UInt16.ofNat (full ++ [cur]).length := by
  have hd : l.packet.take l.offset = frame (l.seqId, cur) :=
    take_written h.packet _ (by rw [frame_length, h.offset])
  constructor
  · show l.sent ++ sendtoClient true (l.packet.take l.offset) = _
    rw [h.sent, hd, number_append, List.map_append, h.seqId]
    rfl
  · show l.seqId + 1 = _
    rw [h.seqId, List.length_append, List.length_singleton, UInt16.ofNat_add, ← UInt16.add_assoc]
    rfl

theorem visit_loop (s : UInt16) (ks : List OptimizedPoint) (l : Locals)
    (full : List (List OptimizedPoint)) (cur : List OptimizedPoint)
    (p : LivoxLidarCartesianHighRawPoint) (h : Loop s ks l full cur) :
    ∃ full' cur', Loop s (ks ++ kept [p]) (visit true l p) full' cur' := by
  by_cases hz : p.z.toInt16 > -80 ∧ p.z.toInt16 < 80
  · have hk : kept [p] = [toOptimized p] := by
      simp only [kept, List.map_cons, List.map_nil]
      exact List.filter_cons_of_pos (by simpa [InBand, toOptimized] using hz)
    rw [hk]
    by_cases hb : l.offset + 6 > maxUdpPayload
    · -- the array is full: the current group leaves, the point opens the next
      have hc : cur.length = 85 := by
        have h1 := h.cur_length
        have h2 := h.offset
        simp only [maxUdpPayload] at hb
        omega
      obtain ⟨hsent, hseq⟩ := flush_sent s ks l full cur h
      have hv : visit true l p = append (beginPacket (flush true l)) p.x.toInt16 p.y.toInt16
          p.z.toInt16 := by
        simp only [visit, if_pos hz, if_pos hb]
      rw [hv]
      refine ⟨full ++ [cur], [toOptimized p], ?_⟩
      have hl := append_loop s ks (beginPacket (flush true l)) (full ++ [cur]) [] (toOptimized p)
        (by simpa using h.split)
        (by
          intro g hg
          rcases List.mem_append.mp hg with hg | hg
          · exact h.full_length g hg
          · rw [List.mem_singleton.mp hg]; exact hc)
        (by decide) rfl hseq hsent (beginPacket_writes (flush true l))
      rw [List.nil_append] at hl
      exact hl
    · have hc : cur.length < 85 := by
        have h2 := h.offset
        simp only [maxUdpPayload] at hb
        omega
      have hv : visit true l p = append l p.x.toInt16 p.y.toInt16 p.z.toInt16 := by
        simp only [visit, if_pos hz, if_neg hb]
      rw [hv]
      exact ⟨full, cur ++ [toOptimized p], append_loop s ks l full cur (toOptimized p) h.split
        h.full_length hc h.offset h.seqId h.sent h.packet⟩
  · have hk : kept [p] = [] := by
      simp only [kept, List.map_cons, List.map_nil]
      exact List.filter_cons_of_neg (by simpa [InBand, toOptimized] using hz)
    have hv : visit true l p = l := by simp only [visit, if_neg hz]
    rw [hk, hv, List.append_nil]
    exact ⟨full, cur, h⟩

theorem kept_append (ps qs : List LivoxLidarCartesianHighRawPoint) :
    kept (ps ++ qs) = kept ps ++ kept qs := by
  simp only [kept, List.map_append, List.filter_append]

theorem visits_loop (s : UInt16) (packet : Bytes) (ps : List LivoxLidarCartesianHighRawPoint) :
    ∃ full cur, Loop s (kept ps) (ps.foldl (visit true) (beginPacket ⟨packet, 0, s, []⟩)) full cur := by
  induction ps using List.reverseRecOn with
  | nil =>
    refine ⟨[], [], rfl, by simp, by simp, rfl, ?_, rfl, beginPacket_writes _, fun _ => rfl⟩
    show s = s + UInt16.ofNat 0
    simp
  | append_singleton ps p ih =>
    obtain ⟨full, cur, h⟩ := ih
    rw [kept_append, List.foldl_append]
    exact visit_loop s (kept ps) _ full cur p h

/- A call with any High packet on a ready client. -/
theorem pointCloudCallback_high (s : UInt16) (packet : Bytes) (data : LivoxLidarEthernetPacket)
    (hd : data.dataType = kLivoxLidarCartesianCoordinateHighData) :
    pointCloudCallback ⟨true, s⟩ packet (some data) =
      (⟨true, s + UInt16.ofNat (fragments 85 (kept (records highRawPoint data))).length⟩,
        (number s (fragments 85 (kept (records highRawPoint data)))).map frame) := by
  obtain ⟨full, cur, h⟩ := visits_loop s packet (records highRawPoint data)
  have hfold : (List.range data.dotNum.toNat).foldl
      (fun l i => visit true l (record highRawPoint data.data i))
      (beginPacket ⟨packet, 0, s, []⟩) =
      (records highRawPoint data).foldl (visit true) (beginPacket ⟨packet, 0, s, []⟩) := by
    rw [records, List.foldl_map]
  have hfrag := fragments_flatten_append 85 full cur (by decide) h.full_length
  rw [← h.split] at hfrag
  simp only [pointCloudCallback, hd, ne_eq, not_true_eq_false, if_false, hfold]
  by_cases hc : cur = []
  · have hoff : ¬((records highRawPoint data).foldl (visit true)
        (beginPacket ⟨packet, 0, s, []⟩)).offset > 2 := by
      rw [h.offset, hc]
      decide
    have hf := h.flushed hc
    rw [if_neg hoff, h.sent, h.seqId, hfrag, hc, hf]
    simp
  · have hpos := List.length_pos_of_ne_nil hc
    have hoff : ((records highRawPoint data).foldl (visit true)
        (beginPacket ⟨packet, 0, s, []⟩)).offset > 2 := by
      rw [h.offset]
      omega
    obtain ⟨hsent, hseq⟩ := flush_sent s _ _ full cur h
    rw [if_pos hoff, hsent, hseq, hfrag, fragments_short 85 cur (by decide) hc h.cur_length]

/-- One call on a ready client: the kept points leave in numbered groups of
85, and the counter moves by the number of datagrams. -/
theorem pointCloudCallback_spec (s : UInt16) (packet : Bytes) (time : UInt64)
    (ps : List LivoxLidarCartesianHighRawPoint) (tail : Memory) (hp : ps.length < 2 ^ 16) :
    pointCloudCallback ⟨true, s⟩ packet
        (some (packetOf highRawPoint kLivoxLidarCartesianCoordinateHighData time ps tail)) =
      (⟨true, s + UInt16.ofNat (fragments 85 (kept ps)).length⟩,
        (number s (fragments 85 (kept ps))).map frame) := by
  have h := pointCloudCallback_high s packet
    (packetOf highRawPoint kLivoxLidarCartesianCoordinateHighData time ps tail) rfl
  rwa [records_packet highRawPoint _ time ps tail hp] at h

/- Without a client nothing is sent. -/
theorem visits_silent (ps : List LivoxLidarCartesianHighRawPoint) (l : Locals)
    (h : l.sent = []) : (ps.foldl (visit false) l).sent = [] := by
  induction ps generalizing l with
  | nil => exact h
  | cons p ps ih =>
    rw [List.foldl_cons]
    apply ih
    simp only [visit]
    split
    · split
      · simp only [append, beginPacket, flush, sendtoClient, h, Bool.false_eq_true, if_false,
          List.append_nil]
      · exact h
    · exact h

theorem pointCloudCallback_silent (s : UInt16) (packet : Bytes)
    (data : Option LivoxLidarEthernetPacket) :
    (pointCloudCallback ⟨false, s⟩ packet data).2 = [] := by
  cases data with
  | none => rfl
  | some data =>
    have h := visits_silent (records highRawPoint data) (beginPacket ⟨packet, 0, s, []⟩) rfl
    rw [records, List.foldl_map] at h
    simp only [pointCloudCallback]
    split
    · rfl
    · split
      · simp only [flush, sendtoClient, h, Bool.false_eq_true, if_false, List.append_nil]
      · exact h

/-! ### Whole runs -/

/-- A call with a High packet, `dot_num` being a uint16. -/
structure Call where
  stack : Bytes
  time : UInt64
  points : List LivoxLidarCartesianHighRawPoint
  tail : Memory
  fits : points.length < 2 ^ 16

def Call.invoke (svc : Service) (c : Call) : Service × List Datagram :=
  pointCloudCallback svc c.stack
    (some (packetOf highRawPoint kLivoxLidarCartesianCoordinateHighData c.time c.points c.tail))

/- The datagrams of each call, and the service after the last. -/
def run (svc : Service) : List Call → List (List Datagram) × Service
  | [] => ([], svc)
  | c :: cs => ((c.invoke svc).2 :: (run (c.invoke svc).1 cs).1, (run (c.invoke svc).1 cs).2)

/-- What one call puts on the wire. -/
structure Delivers (c : Call) (ds : List Datagram) : Prop where
  size : ∀ d ∈ ds, ∃ k, 1 ≤ k ∧ k ≤ 85 ∧ d.length = 2 + 6 * k
  full : ∀ d ∈ ds.dropLast, d.length = 2 + 6 * 85
  payload : ds.flatMap (fun d => d.drop 2) =
    optimizedPoint.array ((c.points.map toOptimized).filter fun p => -80 < p.z ∧ p.z < 80)
  silent : (∀ p ∈ c.points, ¬(-80 < p.z.toInt16 ∧ p.z.toInt16 < 80)) → ds = []

def ids (stream : List Datagram) : List UInt16 := stream.map u16le.value

theorem frames_payload (s : UInt16) (groups : List (List OptimizedPoint)) :
    ((number s groups).map frame).flatMap (fun d => d.drop 2) =
      optimizedPoint.array groups.flatten := by
  induction groups generalizing s with
  | nil => rfl
  | cons g groups ih =>
    have hd : (frame (s, g)).drop 2 = optimizedPoint.array g := List.drop_left' (u16le.bytes_length s)
    rw [number, List.map_cons, List.flatMap_cons, ih, hd, List.flatten_cons,
      optimizedPoint.array_append]

theorem frames_ids (s : UInt16) (groups : List (List OptimizedPoint)) :
    ids ((number s groups).map frame) = counter s groups.length := by
  rw [ids, List.map_map, ← number_fst]
  apply List.map_congr_left
  intro p _
  exact u16le.value_bytes p.1 _

theorem kept_eq (ps : List LivoxLidarCartesianHighRawPoint) :
    kept ps = (ps.map toOptimized).filter fun p => -80 < p.z ∧ p.z < 80 := rfl

theorem invoke_delivers (s : UInt16) (c : Call) : Delivers c (c.invoke ⟨true, s⟩).2 := by
  rw [Call.invoke, pointCloudCallback_spec s c.stack c.time c.points c.tail c.fits]
  refine ⟨?_, ?_, ?_, ?_⟩
  · intro d hd
    obtain ⟨p, hp, rfl⟩ := List.mem_map.mp hd
    have hb := fragments_bounds 85 (kept c.points) (by decide) p.2 (number_mem s _ p hp)
    exact ⟨p.2.length, hb.1, hb.2, by rw [frame_length]; omega⟩
  · intro d hd
    rw [← List.map_dropLast] at hd
    obtain ⟨p, hp, rfl⟩ := List.mem_map.mp hd
    have hq : p.2 ∈ ((number s (fragments 85 (kept c.points))).map Prod.snd).dropLast := by
      rw [← List.map_dropLast]
      exact List.mem_map_of_mem hp
    rw [number_snd] at hq
    have hl := fragments_dropLast 85 (kept c.points) (by decide) p.2 hq
    rw [frame_length, hl]
  · rw [frames_payload, fragments_flatten, kept_eq]
  · intro hnone
    have hk : kept c.points = [] := by
      apply List.filter_eq_nil_iff.mpr
      intro q hq
      obtain ⟨p, hp, rfl⟩ := List.mem_map.mp hq
      simpa [InBand, toOptimized] using hnone p hp
    rw [hk, fragments_nil]
    rfl

/-- For every sequence of calls on a ready client and every starting id: what
each call delivers, and ids that count up by one over packets and calls, from
the starting id to the one the service is left with. -/
theorem filtered_stream (s : UInt16) (calls : List Call) :
    List.Forall₂ Delivers calls (run ⟨true, s⟩ calls).1 ∧
      (∀ d ∈ (run ⟨true, s⟩ calls).1.flatten, d.length ≤ 512) ∧
      ids (run ⟨true, s⟩ calls).1.flatten =
        counter s (run ⟨true, s⟩ calls).1.flatten.length ∧
      (run ⟨true, s⟩ calls).2 =
        ⟨true, s + UInt16.ofNat (run ⟨true, s⟩ calls).1.flatten.length⟩ := by
  induction calls generalizing s with
  | nil => exact ⟨.nil, by simp [run], rfl, by simp [run]⟩
  | cons c calls ih =>
    have hd := invoke_delivers s c
    have hi : ids (c.invoke ⟨true, s⟩).2 = counter s (c.invoke ⟨true, s⟩).2.length := by
      rw [Call.invoke, pointCloudCallback_spec s c.stack c.time c.points c.tail c.fits, frames_ids,
        List.length_map, number_length]
    have ha : (c.invoke ⟨true, s⟩).1 =
        ⟨true, s + UInt16.ofNat (c.invoke ⟨true, s⟩).2.length⟩ := by
      rw [Call.invoke, pointCloudCallback_spec s c.stack c.time c.points c.tail c.fits,
        List.length_map, number_length]
    obtain ⟨hds, hle, hids, hend⟩ := ih (s + UInt16.ofNat (c.invoke ⟨true, s⟩).2.length)
    rw [← ha] at hds hle hids hend
    simp only [run, List.flatten_cons, List.length_append]
    refine ⟨.cons hd hds, ?_, ?_, ?_⟩
    · intro d hm
      rcases List.mem_append.mp hm with hm | hm
      · obtain ⟨k, _, hk, hl⟩ := hd.size d hm
        omega
      · exact hle d hm
    · rw [counter_add, ← hi, ← hids, ids, List.map_append]
      rfl
    · rw [hend, UInt16.ofNat_add, UInt16.add_assoc]

end TypegoSdk.Livox.FilteredService
