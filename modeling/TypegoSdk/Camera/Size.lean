import TypegoSdk.Camera.Stream

/-!
# The size of a composite

The height that the two senders announce counts the rows of all cameras less
`CUT_ROWS`. The rows are cut from the second image, so they are missing when
there is a second one.
-/

namespace TypegoSdk.Camera
open TypegoSdk.Lib

/-- The buffers have as many bytes as the caps of the appsrc and of the encoder announce. -/
def Fits (numCameras : ℕ) (c : Composite) : Prop :=
  ∀ caps ∈ [(sender numCameras).appsrc, (sender numCameras).encoder],
    c.color.length = 640 * caps.height * 3 ∧ c.depth.length = 640 * caps.height * 3

theorem fits_iff (n : ℕ) (c : Composite) : Fits n c ↔
    c.color.length = 640 * outputHeight n * 3 ∧ c.depth.length = 640 * outputHeight n * 3 := by
  simp only [Fits, List.forall_mem_cons, List.not_mem_nil, false_implies, implies_true, and_true]
  exact and_self_iff

theorem length_bytes (image : Raster 640 Bgr) :
    (image.bytes Bgr.bytes).length = 640 * image.height * 3 := by
  rw [Raster.length_bytes (fun p => (rfl : p.bytes.length = 3)), Nat.mul_comm 640]

/- The depth images are cut as the colour images are. -/
theorem depthImages_eq (depth : List (Raster 640 UInt16)) :
    (depth.mapIdx fun i image => (if i = 1 then image.cut cutRows else image).map gray) =
      (depth.modify 1 (Raster.cut cutRows)).map (Raster.map gray) := by
  apply List.ext_getElem?
  intro i
  rw [List.getElem?_mapIdx, List.getElem?_map, List.getElem?_modify]
  by_cases hi : i = 1
  · simp [hi, Function.comp_def]
  · simp [hi, Ne.symm hi]

theorem height_stack_map (images : List (Raster 640 UInt16)) :
    (Raster.stack (images.map (Raster.map gray))).height = (Raster.stack images).height := by
  simp [Function.comp_def]

/- Of several images the second is cut. -/
theorem height_cutSecond {α : Type} {n : ℕ} (hn : 1 < n)
    {images : List {image : Raster 640 α // image.height = 480}} (hlength : images.length = n) :
    (Raster.stack ((images.map (·.1)).modify 1 (Raster.cut cutRows))).height = outputHeight n := by
  have hall : ∀ a ∈ images.map (·.1), a.height = 480 := by
    intro a ha
    obtain ⟨image, -, rfl⟩ := List.mem_map.mp ha
    exact image.2
  have hsize := Raster.height_stack_modify (show cutRows ≤ 480 by decide) hall
    (show 1 < (images.map (·.1)).length by rw [List.length_map, hlength]; exact hn)
  rw [List.length_map, hlength] at hsize
  exact Nat.eq_sub_of_add_eq hsize

theorem compose_fits {n : ℕ} (hn : 1 < n) {frames : List Frames} {color : List ColorImage}
    {depth : List DepthImage} {c : Composite} (hcolor : color.length = n) (hdepth : depth.length = n)
    (h : compose n frames color depth = some c) : Fits n c := by
  simp only [compose, gt_iff_lt, if_pos hn, Option.some.injEq] at h
  rw [fits_iff, ← h]
  refine ⟨?_, ?_⟩
  · rw [length_bytes, height_cutSecond hn hcolor]
  · rw [length_bytes, depthImages_eq, height_stack_map, height_cutSecond hn hdepth]

/- The image of a single camera keeps its rows. -/
theorem compose_single_length {frames : List Frames} {color : List ColorImage}
    {depth : List DepthImage} {c : Composite} (h : compose 1 frames color depth = some c) :
    c.color.length = 640 * 480 * 3 ∧ c.depth.length = 640 * 480 * 3 := by
  simp only [compose, gt_iff_lt, Nat.lt_irrefl, if_false] at h
  split at h
  · rename_i image _ depthImage _
    cases h
    refine ⟨?_, ?_⟩
    · rw [length_bytes, image.2]
    · rw [length_bytes, Raster.height_map, depthImage.2]
  · cases h

theorem compose_single_not_fits {frames : List Frames} {color : List ColorImage}
    {depth : List DepthImage} {c : Composite} (h : compose 1 frames color depth = some c) :
    ¬Fits 1 c := by
  intro hfits
  have hannounced := ((fits_iff 1 c).mp hfits).1
  rw [(compose_single_length h).1] at hannounced
  exact absurd hannounced (by decide)

/-- The buffers that are pushed have the announced size exactly when there are at least
two cameras. -/
theorem composite_fits_iff (n : ℕ) (rounds : List (Fin n → Wait)) (c : Composite)
    (hc : c ∈ streamRealsense n rounds) : Fits n c ↔ 2 ≤ n := by
  obtain ⟨hpos, waits, -, hround⟩ := mem_stream hc
  obtain ⟨hbest, color, depth, himages, hcompose⟩ := round_inv hround
  obtain ⟨hcolor, hdepth⟩ := images_eq_some himages
  constructor
  · intro hfits
    by_contra hfew
    obtain rfl : n = 1 := by omega
    exact compose_single_not_fits hcompose hfits
  · intro hn
    have hlength := (bestMatch_several hn hbest).1
    exact compose_fits hn (hcolor.trans hlength) (hdepth.trans hlength) hcompose

/- Three cameras: 1400 rows. -/
theorem composite_fits_three :
    ∃ c ∈ streamRealsense 3 [fun _ => .arrived (plainFrames 0)], Fits 3 c := by
  have htime : |(plainFrames 0).timestamp - (plainFrames 0).timestamp| < maxTimeDiffMs := by
    norm_num [maxTimeDiffMs]
  have hcollect : collect (List.ofFn fun _ : Fin 3 => .arrived (plainFrames 0)) =
      some [plainFrames 0, plainFrames 0, plainFrames 0] := by
    simp [collect, List.ofFn_succ]
  obtain ⟨c, hround, -⟩ := round_pushes (by decide) hcollect htime rfl
  have hc := mem_stream_of_round (by decide) hround
  exact ⟨c, hc, (composite_fits_iff 3 _ c hc).mpr (by decide)⟩

/- One camera: 480 rows are pushed where 440 are announced. -/
theorem composite_too_long :
    ∃ c ∈ streamRealsense 1 [fun _ => .arrived (plainFrames 0)],
      (sender 1).appsrc.height = 440 ∧ c.color.length = 640 * 480 * 3 ∧
      c.depth.length = 640 * 480 * 3 ∧ ¬Fits 1 c := by
  obtain ⟨c, hround⟩ :=
    @round_pushes_single (fun _ => .arrived (plainFrames 0)) (plainFrames 0) _ _ rfl rfl rfl
  obtain ⟨-, color, depth, -, hcompose⟩ := round_inv hround
  obtain ⟨hcolor, hdepth⟩ := compose_single_length hcompose
  exact ⟨c, mem_stream_of_round (by decide) hround, rfl, hcolor, hdepth, compose_single_not_fits hcompose⟩

end TypegoSdk.Camera
