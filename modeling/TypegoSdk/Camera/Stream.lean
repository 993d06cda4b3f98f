import TypegoSdk.Lib.Raster
import Mathlib.Algebra.Order.Ring.Rat
import Mathlib.Algebra.Order.Group.Unbundled.Abs
import Mathlib.Algebra.Order.Monoid.WithTop
import Mathlib.Tactic.NormNum

/-!
# The camera stream (scripts/d435i.py)

`stream_realsense` waits for one set of frames from each camera, composes their
images and pushes two buffers. A round of its loop pushes one composite or
none. What the cameras deliver comes from outside: the timestamp of a set, and
its colour and depth image as they are behind the alignment and the filling of
holes. The waiting for the next round is left out.
-/

namespace TypegoSdk.Camera
open TypegoSdk.Lib

def cutRows : ℕ := 40
def publishRate : ℕ := 15
def maxTimeDiffMs : ℚ := 40

/-! ### Frames -/

structure Bgr where
  b : UInt8
  g : UInt8
  r : UInt8

def Bgr.bytes (p : Bgr) : List UInt8 := [p.b, p.g, p.r]

abbrev ColorImage := {image : Raster 640 Bgr // image.height = 480}
abbrev DepthImage := {image : Raster 640 UInt16 // image.height = 480}

/-- A set of frames; an image may be missing. -/
structure Frames where
  timestamp : ℚ
  color : Option ColorImage
  depth : Option DepthImage

/-- What `wait_for_frames` does. -/
inductive Wait where
  | raised
  | nothing
  | arrived (frames : Frames)

/- The loop over the pipelines: `frames_list`, or `all_ready = False`. -/
def collect : List Wait → Option (List Frames)
  | [] => some []
  | .arrived frames :: waits => (collect waits).map (frames :: ·)
  | _ :: _ => none

/- `best_match` and `best_time_diff`. -/
def bestMatch (numCameras : ℕ) (waits : Fin numCameras → Wait) : List Frames × WithTop ℚ :=
  let received := List.ofFn waits
  if numCameras > 1 then
    match collect received with
    | none => ([], ⊤)
    | some framesList =>
      if framesList.length = numCameras then
        match framesList with
        | first :: second :: _ =>
          let timeDiff := |first.timestamp - second.timestamp|
          if timeDiff < maxTimeDiffMs then (framesList, (timeDiff : WithTop ℚ)) else ([], ⊤)
        | _ => (framesList, 0)
      else ([], ⊤)
  else
    match received with
    | .arrived frames :: _ => ([frames], 0)
    | _ => ([], ⊤)

/- The images of all frames, or `all_frames_valid = False`. -/
def images : List Frames → Option (List ColorImage × List DepthImage)
  | [] => some ([], [])
  | frames :: rest =>
    match frames.color, frames.depth with
    | some color, some depth => (images rest).map fun r => (color :: r.1, depth :: r.2)
    | _, _ => none

/-! ### Composites -/

/- `np.clip(depth / 25, 0, 255).astype(np.uint8)` of one pixel, as gray. -/
def gray (d : UInt16) : Bgr :=
  let v := UInt8.ofNat (min (d.toNat / 25) 255)
  ⟨v, v, v⟩

/-- The two buffers that are pushed, and the frames they are made of. -/
structure Composite where
  frames : List Frames
  color : List UInt8
  depth : List UInt8

/- One camera without an image would be an IndexError; there is none. -/
def compose (numCameras : ℕ) (frames : List Frames) (color : List ColorImage)
    (depth : List DepthImage) : Option Composite :=
  if numCameras > 1 then
    let colorImages := (color.map (·.1)).modify 1 (Raster.cut cutRows)
    let depthImages := (depth.map (·.1)).mapIdx fun i image =>
      (if i = 1 then image.cut cutRows else image).map gray
    some {
      frames := frames
      color := (Raster.stack colorImages).bytes Bgr.bytes
      depth := (Raster.stack depthImages).bytes Bgr.bytes }
  else
    match color, depth with
    | c :: _, d :: _ => some {
        frames := frames
        color := c.1.bytes Bgr.bytes
        depth := (d.1.map gray).bytes Bgr.bytes }
    | _, _ => none

/- One round of the loop. -/
def round (numCameras : ℕ) (waits : Fin numCameras → Wait) : Option Composite :=
  let best := bestMatch numCameras waits
  if best.1.isEmpty ∨ best.2 ≥ (maxTimeDiffMs : WithTop ℚ) then none
  else
    match images best.1 with
    | none => none
    | some (color, depth) => compose numCameras best.1 color depth

/- What is pushed, round after round. -/
def streamRealsense (numCameras : ℕ) (rounds : List (Fin numCameras → Wait)) : List Composite :=
  if numCameras = 0 then [] else rounds.filterMap (round numCameras)

/-! ### Senders -/

structure Caps where
  format : String
  width : ℕ
  height : ℕ
  framerate : ℕ
  deriving DecidableEq

/-- The two caps of a pipeline and the bit rate of its encoder. -/
structure GstApp where
  appsrc : Caps
  encoder : Caps
  bps : ℕ
  deriving DecidableEq

def createGstApp (width height : ℕ) : GstApp where
  appsrc := ⟨"BGR", width, height, publishRate⟩
  encoder := ⟨"NV12", 640, height, publishRate⟩
  bps := 300000 * height / 480

def outputHeight (numCameras : ℕ) : ℕ := 480 * numCameras - cutRows

/- The colour and the depth sender have the same size. -/
def sender (numCameras : ℕ) : GstApp := createGstApp 640 (outputHeight numCameras)

/-! ### Rounds -/

/- The collected frames are those that arrived, one of every camera. -/
theorem collect_eq_some {waits : List Wait} {frames : List Frames} (h : collect waits = some frames) :
    waits = frames.map .arrived := by
  induction waits generalizing frames with
  | nil =>
    cases h
    rfl
  | cons wait waits ih =>
    cases wait with
    | raised => cases h
    | nothing => cases h
    | arrived f =>
      obtain ⟨rest, hrest, rfl⟩ := Option.map_eq_some_iff.mp h
      rw [List.map_cons, ih hrest]

theorem collect_length {n : ℕ} {waits : Fin n → Wait} {frames : List Frames}
    (h : collect (List.ofFn waits) = some frames) : frames.length = n := by
  have harrived := congrArg List.length (collect_eq_some h)
  rw [List.length_ofFn, List.length_map] at harrived
  exact harrived.symm

theorem images_eq_some {frames : List Frames} {color : List ColorImage} {depth : List DepthImage}
    (h : images frames = some (color, depth)) :
    color.length = frames.length ∧ depth.length = frames.length := by
  induction frames generalizing color depth with
  | nil =>
    cases h
    exact ⟨rfl, rfl⟩
  | cons f frames ih =>
    simp only [images] at h
    split at h
    · obtain ⟨⟨color', depth'⟩, hrest, heq⟩ := Option.map_eq_some_iff.mp h
      cases heq
      obtain ⟨hc, hd⟩ := ih hrest
      exact ⟨by rw [List.length_cons, List.length_cons, hc], by rw [List.length_cons, List.length_cons, hd]⟩
    · cases h

/- Several cameras: frames of all of them, and the first two in time. -/
theorem bestMatch_several {n : ℕ} (hn : 1 < n) {waits : Fin n → Wait}
    (h : (bestMatch n waits).1 ≠ []) :
    (bestMatch n waits).1.length = n ∧ List.ofFn waits = (bestMatch n waits).1.map .arrived ∧
      ∃ first second rest, (bestMatch n waits).1 = first :: second :: rest ∧
        |first.timestamp - second.timestamp| < maxTimeDiffMs := by
  simp only [bestMatch, gt_iff_lt, if_pos hn] at h ⊢
  cases hcollect : collect (List.ofFn waits) with
  | none => simp [hcollect] at h
  | some frames =>
    have hlength : frames.length = n := collect_length hcollect
    have harrived := collect_eq_some hcollect
    simp only [hcollect, if_pos hlength] at h ⊢
    match frames, hlength with
    | [], hlength => exact absurd hlength (by simp; omega)
    | [_], hlength => exact absurd hlength (by simp; omega)
    | first :: second :: rest, hlength =>
      by_cases htime : |first.timestamp - second.timestamp| < maxTimeDiffMs
      · simp only [if_pos htime]
        exact ⟨hlength, harrived, first, second, rest, rfl, htime⟩
      · simp [if_neg htime] at h

/- What a round has found when it pushes. -/
theorem round_inv {n : ℕ} {waits : Fin n → Wait} {c : Composite} (h : round n waits = some c) :
    (bestMatch n waits).1 ≠ [] ∧ ∃ color depth, images (bestMatch n waits).1 = some (color, depth) ∧
      compose n (bestMatch n waits).1 color depth = some c := by
  simp only [round] at h
  split at h
  · cases h
  · rename_i hgood
    refine ⟨fun hempty => hgood (.inl (by simp [hempty])), ?_⟩
    split at h
    · cases h
    · rename_i color depth himages
      exact ⟨color, depth, himages, h⟩

theorem compose_frames {n : ℕ} {frames : List Frames} {color : List ColorImage}
    {depth : List DepthImage} {c : Composite} (h : compose n frames color depth = some c) :
    c.frames = frames := by
  simp only [compose] at h
  split at h
  · cases h
    rfl
  · split at h
    · cases h
      rfl
    · cases h

theorem mem_stream {n : ℕ} {rounds : List (Fin n → Wait)} {c : Composite}
    (h : c ∈ streamRealsense n rounds) : 0 < n ∧ ∃ waits ∈ rounds, round n waits = some c := by
  simp only [streamRealsense] at h
  split at h
  · cases h
  · rename_i hn
    exact ⟨Nat.pos_of_ne_zero hn, List.mem_filterMap.mp h⟩

/- Frames of all cameras, with images and with the first two in time, are pushed. -/
theorem round_pushes {n : ℕ} (hn : 1 < n) {waits : Fin n → Wait} {first second : Frames}
    {rest : List Frames} (hcollect : collect (List.ofFn waits) = some (first :: second :: rest))
    (htime : |first.timestamp - second.timestamp| < maxTimeDiffMs) {color : List ColorImage}
    {depth : List DepthImage} (himages : images (first :: second :: rest) = some (color, depth)) :
    ∃ c, round n waits = some c ∧ c.frames = first :: second :: rest := by
  have hlength : (first :: second :: rest).length = n := collect_length hcollect
  have hbest : bestMatch n waits =
      (first :: second :: rest, ((|first.timestamp - second.timestamp| : ℚ) : WithTop ℚ)) := by
    simp only [bestMatch, gt_iff_lt, if_pos hn, hcollect, if_pos hlength, if_pos htime]
  have hclose : ¬((|first.timestamp - second.timestamp| : ℚ) : WithTop ℚ) ≥ maxTimeDiffMs := by
    rw [ge_iff_le, WithTop.coe_le_coe, not_le]
    exact htime
  have hround : round n waits = compose n (first :: second :: rest) color depth := by
    simp only [round, hbest, List.isEmpty_cons, Bool.false_eq_true, false_or, if_neg hclose, himages]
  have hcompose : ∃ c, compose n (first :: second :: rest) color depth = some c :=
    ⟨_, if_pos hn⟩
  obtain ⟨c, hcompose⟩ := hcompose
  exact ⟨c, hround.trans hcompose, compose_frames hcompose⟩

theorem round_pushes_single {waits : Fin 1 → Wait} {frames : Frames} {color : ColorImage}
    {depth : DepthImage} (h : waits 0 = .arrived frames) (hcolor : frames.color = some color)
    (hdepth : frames.depth = some depth) :
    ∃ c, round 1 waits = some c := by
  have hbest : bestMatch 1 waits = ([frames], 0) := by
    simp [bestMatch, h]
  have hclose : ¬(0 : WithTop ℚ) ≥ maxTimeDiffMs := by
    rw [ge_iff_le, ← WithTop.coe_zero, WithTop.coe_le_coe, not_le]
    norm_num [maxTimeDiffMs]
  have hround : round 1 waits = compose 1 [frames] [color] [depth] := by
    simp [round, hbest, hclose, images, hcolor, hdepth]
  exact ⟨_, hround⟩

theorem mem_stream_of_round {n : ℕ} (hn : 0 < n) {waits : Fin n → Wait} {c : Composite}
    (h : round n waits = some c) : c ∈ streamRealsense n [waits] := by
  simp [streamRealsense, hn.ne', h]

/- Frames with images of one colour. -/
def plainFrames (timestamp : ℚ) : Frames where
  timestamp := timestamp
  color := some ⟨Raster.plain 480 640 ⟨0, 0, 0⟩, Raster.height_plain ..⟩
  depth := some ⟨Raster.plain 480 640 0, Raster.height_plain ..⟩

/-! ### Synchronisation -/

/-- With several cameras, the frames of every composite that is pushed are those that
arrived from all of them in one round, and those of the first two are close in
time. Two cameras have no others. -/
theorem composite_synchronised (n : ℕ) (hn : 2 ≤ n) (rounds : List (Fin n → Wait)) (c : Composite)
    (hc : c ∈ streamRealsense n rounds) :
    c.frames.length = n ∧ (∃ waits ∈ rounds, List.ofFn waits = c.frames.map .arrived) ∧
    (∃ first second rest, c.frames = first :: second :: rest ∧
      |first.timestamp - second.timestamp| < maxTimeDiffMs) ∧
    (n = 2 → c.frames.Pairwise fun f g => |f.timestamp - g.timestamp| < maxTimeDiffMs) := by
  obtain ⟨-, waits, hwaits, hround⟩ := mem_stream hc
  obtain ⟨hbest, color, depth, -, hcompose⟩ := round_inv hround
  obtain ⟨hlength, harrived, first, second, rest, hframes, htime⟩ := bestMatch_several hn hbest
  rw [compose_frames hcompose]
  refine ⟨hlength, ⟨waits, hwaits, harrived⟩, ⟨first, second, rest, hframes, htime⟩, fun htwo => ?_⟩
  have hrest : rest = [] := by
    rw [hframes, htwo] at hlength
    simpa using hlength
  rw [hframes, hrest]
  exact List.pairwise_pair.mpr htime

/- Two cameras that are 39 ms apart. -/
theorem composite_synchronised_two :
    ∃ c ∈ streamRealsense 2 [fun i => .arrived (plainFrames (39 * i.val))],
      c.frames.Pairwise fun f g => |f.timestamp - g.timestamp| < maxTimeDiffMs := by
  have htime : |(plainFrames 0).timestamp - (plainFrames 39).timestamp| < maxTimeDiffMs := by
    norm_num [plainFrames, maxTimeDiffMs]
  have hcollect : collect (List.ofFn fun i : Fin 2 => .arrived (plainFrames (39 * i.val))) =
      some [plainFrames 0, plainFrames 39] := by
    norm_num [collect]
  obtain ⟨c, hround, -⟩ := round_pushes (by decide) hcollect htime rfl
  have hc := mem_stream_of_round (by decide) hround
  exact ⟨c, hc, (composite_synchronised 2 (by decide) _ c hc).2.2.2 rfl⟩

/- The third of three cameras is a second late. -/
theorem composite_not_synchronised :
    ∃ c ∈ streamRealsense 3 [fun i => .arrived (plainFrames (if i = 2 then 1000 else 0))],
      ¬c.frames.Pairwise fun f g => |f.timestamp - g.timestamp| < maxTimeDiffMs := by
  have htime : |(plainFrames 0).timestamp - (plainFrames 0).timestamp| < maxTimeDiffMs := by
    norm_num [maxTimeDiffMs]
  have hcollect : collect (List.ofFn fun i : Fin 3 =>
      .arrived (plainFrames (if i = 2 then 1000 else 0))) =
        some [plainFrames 0, plainFrames 0, plainFrames 1000] := by
    simp [collect, List.ofFn_succ]
  obtain ⟨c, hround, hframes⟩ := round_pushes (by decide) hcollect htime rfl
  refine ⟨c, mem_stream_of_round (by decide) hround, ?_⟩
  rw [hframes]
  norm_num [plainFrames, maxTimeDiffMs]

end TypegoSdk.Camera
