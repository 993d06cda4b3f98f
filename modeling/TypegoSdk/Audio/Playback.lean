import TypegoSdk.Audio.PlayWav
import Mathlib.Tactic.SplitIfs
import Mathlib.Tactic.Ring

/-!
# What the device gets of a file

`playWav` counts frames in each piece of 4096 bytes for itself. With a device
that takes everything, the frames of the file arrive when its pieces end with
its frames; with any device, only an answer with the full count keeps them.
-/

namespace TypegoSdk.Audio
open TypegoSdk.Lib

/-! ### One call -/

/- The bytes that a call with `n` bytes in the buffer may take. -/
def Pcm.offered (pcm : Pcm) (n : ℕ) : ℕ := n / pcm.frameSize * pcm.stride

theorem call_result (pcm : Pcm) (k : ℕ) (buffer : Memory) (chunk : Bytes) :
    (pcm.call k buffer chunk).result = pcm.writei k (chunk.length / pcm.frameSize) := rfl

theorem call_taken_length (pcm : Pcm) (k : ℕ) (buffer : Memory) (chunk : Bytes) :
    (pcm.call k buffer chunk).taken.length =
      (pcm.call k buffer chunk).result.toNat * pcm.stride := by
  simp [Pcm.call, load]

theorem call_taken (pcm : Pcm) (k : ℕ) (buffer : Memory) (chunk : Bytes)
    (h : (pcm.call k (place chunk buffer) chunk).result.toNat * pcm.stride ≤ chunk.length) :
    (pcm.call k (place chunk buffer) chunk).taken =
      chunk.take ((pcm.call k (place chunk buffer) chunk).result.toNat * pcm.stride) := by
  have hin : 0 + (pcm.call k (place chunk buffer) chunk).result.toNat * pcm.stride ≤
      chunk.length := by omega
  have hl := load_place chunk buffer 0 _ hin
  rw [List.drop_zero] at hl
  exact hl

/-! ### A device that takes everything -/

section Accepting
variable {pcm : Pcm} (hall : ∀ k n, pcm.writei k n = n)
include hall

theorem accepting_count (k : ℕ) (buffer : Memory) (chunk : Bytes) :
    (pcm.call k buffer chunk).result = (chunk.length / pcm.frameSize : ℕ) := hall _ _

theorem accepting_result (k : ℕ) (buffer : Memory) (chunk : Bytes) :
    (pcm.call k buffer chunk).result.toNat * pcm.stride = pcm.offered chunk.length := by
  rw [accepting_count hall, Int.toNat_natCast]
  rfl

theorem accepting_not_fatal (k : ℕ) (buffer : Memory) (chunk : Bytes) :
    ¬(pcm.call k buffer chunk).Fatal := by
  rintro ⟨hneg, _⟩
  rw [accepting_count hall] at hneg
  exact absurd hneg (not_lt.mpr (Int.natCast_nonneg _))

theorem accepting_cut (k : ℕ) (buffer : Memory) (rest : Bytes) (hr : rest ≠ []) :
    playFrom pcm k buffer rest =
      pcm.call k (place (rest.take bufferSize) buffer) (rest.take bufferSize) ::
        playFrom pcm (k + 1) (place (rest.take bufferSize) buffer) (rest.drop bufferSize) := by
  rw [playFrom_cut pcm k buffer rest hr, if_neg (accepting_not_fatal hall _ _ _)]

theorem accepting_within (k : ℕ) (buffer : Memory) (data : Bytes) :
    (∀ call ∈ playFrom pcm k buffer data, call.taken.length ≤ call.chunk.length) ↔
      ∀ g ∈ fragments bufferSize data, pcm.offered g.length ≤ g.length := by
  induction data using fragments_induction bufferSize bufferSize_pos generalizing k buffer with
  | nil => simp [playFrom_nil]
  | cut data hd ih =>
    rw [accepting_cut hall k buffer data hd, fragments_take bufferSize data bufferSize_pos hd,
      List.forall_mem_cons, List.forall_mem_cons, ih, call_taken_length, accepting_result hall]
    rfl

theorem accepting_taken (k : ℕ) (buffer : Memory) (data : Bytes)
    (h : ∀ g ∈ fragments bufferSize data, pcm.offered g.length ≤ g.length) :
    (playFrom pcm k buffer data).flatMap Call.taken = skim bufferSize pcm.offered data := by
  induction data using fragments_induction bufferSize bufferSize_pos generalizing k buffer with
  | nil => simp [playFrom_nil, skim]
  | cut data hd ih =>
    rw [fragments_take bufferSize data bufferSize_pos hd, List.forall_mem_cons] at h
    obtain ⟨hfirst, hrest⟩ := h
    have htaken := call_taken pcm k buffer (data.take bufferSize)
      (by rw [accepting_result hall]; exact hfirst)
    rw [accepting_result hall] at htaken
    rw [accepting_cut hall k buffer data hd, skim_cut bufferSize_pos data hd, List.flatMap_cons,
      ih _ _ hrest, htaken]

end Accepting

/-! ### Alignment -/

/-- The device takes the whole frames of the data, and no call takes more than was
read for it. -/
structure Aligned (frameSize : ℕ) (data : Bytes) (calls : List Call) : Prop where
  taken : calls.flatMap Call.taken = data.take (data.length / frameSize * frameSize)
  within : ∀ call ∈ calls, call.taken.length ≤ call.chunk.length

/-- When `size` bytes come through in frames of `frameSize` bytes, for each of which
the device takes `stride`: there is no whole frame; or all of them are in the
first piece and are taken as they are; or the full pieces are taken whole and
the last one as far as the frames go. -/
inductive Fits (frameSize stride size : ℕ) : Prop where
  | empty (h : size < frameSize)
  | first (h : stride = frameSize) (hfirst : size / frameSize * frameSize ≤ bufferSize)
  | whole (hfull : bufferSize / frameSize * stride = bufferSize)
      (hrest : size % bufferSize / frameSize * stride ≤ size % bufferSize)
      (hsum : size / bufferSize * bufferSize + size % bufferSize / frameSize * stride =
        size / frameSize * frameSize)

section Alignment
variable {pcm : Pcm}

theorem offered_zero : pcm.offered 0 = 0 := by simp [Pcm.offered]

theorem offered_short {n : ℕ} (h : n < pcm.frameSize) : pcm.offered n = 0 := by
  rw [Pcm.offered, Nat.div_eq_of_lt h, Nat.zero_mul]

theorem fits_skim (hf : 0 < pcm.frameSize) {data : Bytes} (h : Fits pcm.frameSize pcm.stride data.length) :
    (∀ g ∈ fragments bufferSize data, pcm.offered g.length ≤ g.length) ∧
      skim bufferSize pcm.offered data =
        data.take (data.length / pcm.frameSize * pcm.frameSize) := by
  rw [forall_fragments bufferSize bufferSize_pos (fun n => pcm.offered n ≤ n)]
  cases h with
  | empty h =>
    have hnone : ∀ n ≤ data.length, pcm.offered n = 0 := fun n hn => offered_short (by omega)
    have hless : data.length % bufferSize ≤ data.length := Nat.mod_le ..
    constructor
    · constructor
      · intro hle
        rw [hnone _ hle]
        exact Nat.zero_le _
      · intro _
        rw [hnone _ hless]
        exact Nat.zero_le _
    · rw [skim_none data hnone, Nat.div_eq_of_lt h, Nat.zero_mul, List.take_zero]
  | first h hfirst =>
    have hle : ∀ n, pcm.offered n ≤ n := by
      intro n
      rw [Pcm.offered, h]
      exact Nat.div_mul_le_self ..
    refine ⟨⟨fun _ => hle _, fun _ => hle _⟩, ?_⟩
    by_cases hd : data = []
    · simp [hd, skim]
    · -- the first piece has as many frames as the data
      have hframes : min bufferSize data.length / pcm.frameSize = data.length / pcm.frameSize := by
        apply Nat.le_antisymm
        · exact Nat.div_le_div_right (Nat.min_le_right ..)
        · rw [Nat.le_div_iff_mul_le hf]
          exact Nat.le_min.mpr ⟨hfirst, Nat.div_mul_le_self ..⟩
      have hrest : skim bufferSize pcm.offered (data.drop bufferSize) = [] := by
        apply skim_none
        intro n hn
        rw [List.length_drop] at hn
        have hlast := Nat.lt_div_mul_add (a := data.length) hf
        exact offered_short (by omega)
      rw [skim_cut bufferSize_pos data hd, hrest, List.append_nil, List.length_take, Pcm.offered,
        hframes, h, List.take_take, Nat.min_eq_left hfirst]
  | whole hfull hrest hsum =>
    have hcap : pcm.offered bufferSize = bufferSize := hfull
    refine ⟨⟨fun _ => hcap.le, fun _ => hrest⟩, ?_⟩
    rw [skim_whole bufferSize_pos hcap data hrest, ← hsum]
    rfl

/- Bytes that show a gap: all zero but the one at `p`. -/
def marked (p size : ℕ) : Bytes := List.replicate p 0 ++ 1 :: List.replicate (size - p - 1) 0

theorem marked_length {p size : ℕ} (h : p < size) : (marked p size).length = size := by
  simp only [marked, List.length_append, List.length_cons, List.length_replicate]
  omega

theorem marked_mem {p size n : ℕ} (h : p < n) : 1 ∈ (marked p size).take n := by
  have hat : ((marked p size).take n)[p]? = some 1 := by
    rw [List.getElem?_take_of_lt h, marked, List.getElem?_append_right (by simp)]
    simp
  exact List.mem_of_getElem? hat

theorem marked_outside (size : ℕ) {p m : ℕ} (h : p < m) : 1 ∉ (marked p size).take p ∧
    1 ∉ (marked p size).drop m := by
  obtain ⟨d, rfl⟩ : ∃ d, m = p + (d + 1) := ⟨m - p - 1, by omega⟩
  constructor
  · rw [marked, List.take_left' List.length_replicate]
    simp
  · rw [marked, ← List.drop_drop, List.drop_left' List.length_replicate, List.drop_succ_cons,
      List.drop_replicate]
    simp

/- When the first piece is not taken whole, the frames end in it. -/
theorem gap_end {size : ℕ} (hlarge : bufferSize < size)
    (hgap : pcm.offered bufferSize < bufferSize)
    (h : ∀ data : Bytes, data.length = size → skim bufferSize pcm.offered data =
      data.take (data.length / pcm.frameSize * pcm.frameSize)) :
    size / pcm.frameSize * pcm.frameSize ≤ pcm.offered bufferSize := by
  by_contra hbeyond
  have hlen := marked_length (show pcm.offered bufferSize < size by omega)
  have hskim := h _ hlen
  rw [hlen] at hskim
  have hne : marked (pcm.offered bufferSize) size ≠ [] := by simp [marked]
  obtain ⟨hbefore, hbehind⟩ := marked_outside size hgap
  have hmem : 1 ∈ skim bufferSize pcm.offered (marked (pcm.offered bufferSize) size) := by
    rw [hskim]
    exact marked_mem (by omega)
  rw [skim_cut bufferSize_pos _ hne, List.length_take, hlen, Nat.min_eq_left hlarge.le, List.take_take,
    Nat.min_eq_left hgap.le, List.mem_append] at hmem
  rcases hmem with hmem | hmem
  · exact hbefore hmem
  · exact hbehind (mem_of_mem_skim hmem)

/- With one piece, as many bytes are offered as the frames have. -/
theorem one_piece {size : ℕ} (hle : size ≤ bufferSize)
    (hsum : size / bufferSize * pcm.offered bufferSize + pcm.offered (size % bufferSize) =
      size / pcm.frameSize * pcm.frameSize) :
    pcm.offered size = size / pcm.frameSize * pcm.frameSize := by
  by_cases heq : size = bufferSize
  · rw [heq, Nat.div_self bufferSize_pos, Nat.mod_self, offered_zero, Nat.one_mul,
      Nat.add_zero] at hsum
    rw [heq, hsum]
  · have hlt : size < bufferSize := by omega
    rw [Nat.div_eq_of_lt hlt, Nat.mod_eq_of_lt hlt, Nat.zero_mul, Nat.zero_add] at hsum
    exact hsum

/- With four bytes for three, the frames of a larger file do not end where the first
piece ends in memory. -/
theorem ratio_ends {size : ℕ} (hf : 0 < pcm.frameSize) (hratio : 3 * pcm.stride = 4 * pcm.frameSize)
    (hframes : 0 < size / pcm.frameSize) (hlarge : bufferSize ≤ size)
    (hgap : pcm.offered bufferSize < bufferSize) :
    size / pcm.frameSize * pcm.frameSize ≠ pcm.offered bufferSize := by
  intro hend
  have ha : bufferSize < bufferSize / pcm.frameSize * pcm.frameSize + pcm.frameSize :=
    Nat.lt_div_mul_add hf
  have hthree : 3 * pcm.offered bufferSize = 4 * (bufferSize / pcm.frameSize * pcm.frameSize) := by
    rw [Pcm.offered, Nat.mul_left_comm, hratio, Nat.mul_left_comm]
  have hmono : bufferSize / pcm.frameSize ≤ size / pcm.frameSize := Nat.div_le_div_right hlarge
  have hpos : 0 < size / pcm.frameSize * pcm.frameSize := Nat.mul_pos hframes hf
  rcases Nat.lt_or_eq_of_le hmono with hmono | hmono
  · have hnext : (bufferSize / pcm.frameSize + 1) * pcm.frameSize ≤
        size / pcm.frameSize * pcm.frameSize := Nat.mul_le_mul_right _ hmono
    rw [Nat.succ_mul] at hnext
    omega
  · rw [hmono] at hthree
    omega

theorem skim_fits {size : ℕ} (hf : 0 < pcm.frameSize)
    (hratio : pcm.stride = pcm.frameSize ∨ 3 * pcm.stride = 4 * pcm.frameSize)
    (h : ∀ data : Bytes, data.length = size →
      (∀ g ∈ fragments bufferSize data, pcm.offered g.length ≤ g.length) ∧
        skim bufferSize pcm.offered data =
          data.take (data.length / pcm.frameSize * pcm.frameSize)) :
    Fits pcm.frameSize pcm.stride size := by
  by_cases hsmall : size < pcm.frameSize
  · exact .empty hsmall
  have hframes : 0 < size / pcm.frameSize := Nat.div_pos (by omega) hf
  have hwhole : size / pcm.frameSize * pcm.frameSize ≤ size := Nat.div_mul_le_self ..
  -- the sizes, from any data of this length
  have hzeros : (List.replicate size (0 : UInt8)).length = size := List.length_replicate
  obtain ⟨hbound, hskim⟩ := h _ hzeros
  rw [forall_fragments bufferSize bufferSize_pos (fun n => pcm.offered n ≤ n), hzeros] at hbound
  obtain ⟨hfull, hlast⟩ := hbound
  have hrest : pcm.offered (size % bufferSize) ≤ size % bufferSize := by
    by_cases h0 : size % bufferSize = 0
    · rw [h0, offered_zero]
    · exact hlast h0
  have hsum : size / bufferSize * pcm.offered bufferSize + pcm.offered (size % bufferSize) =
      size / pcm.frameSize * pcm.frameSize := by
    have hlen := congrArg List.length hskim
    rw [skim_length bufferSize_pos offered_zero _ (by rw [hzeros]; exact hfull)
      (by rw [hzeros]; exact hrest), List.length_take, hzeros, Nat.min_eq_left hwhole] at hlen
    exact hlen
  by_cases hle : size ≤ bufferSize
  · have hone := one_piece hle hsum
    exact .first (Nat.eq_of_mul_eq_mul_left hframes hone) (by omega)
  · have htake : pcm.offered bufferSize ≤ bufferSize := hfull (by omega)
    by_cases hcap : pcm.offered bufferSize = bufferSize
    · rw [hcap] at hsum
      exact .whole hcap hrest hsum
    · have hlarge : bufferSize < size := by omega
      have hgap : pcm.offered bufferSize < bufferSize := by omega
      have hend := gap_end hlarge hgap (fun data hd => (h data hd).2)
      have hpieces : 1 ≤ size / bufferSize := Nat.div_pos hlarge.le bufferSize_pos
      have hmore : pcm.offered bufferSize ≤ size / bufferSize * pcm.offered bufferSize :=
        Nat.le_mul_of_pos_left _ hpieces
      rcases hratio with hratio | hratio
      · exact .first hratio (by omega)
      · exact absurd (by omega) (ratio_ends hf hratio hframes hlarge.le hgap)

end Alignment

/-! ### A run of playWav -/

/-- The header is whole and names PCM, the channels and the bits. -/
structure Announces (stack : Memory) (header : Bytes) (channels bits : ℕ) : Prop where
  length : header.length = 44
  pcm : (parseHeader (place header stack)).audioFormat = 1
  channels : (parseHeader (place header stack)).numChannels.toNat = channels
  bits : (parseHeader (place header stack)).bitsPerSample.toNat = bits

/-- The set up succeeds, with the channels that were asked for. -/
structure Device.Grants (device : Device) (channels : ℕ) : Prop where
  opens : (device.plughw || device.fallback || device.dmix) = true
  setParams : device.setParams = true
  channels : device.channels = channels
  prepares : device.prepares = true

theorem playWav_granted {device : Device} {stack : Memory} {header : Bytes} {channels bits : ℕ}
    {format : PcmFormat} (hh : Announces stack header channels bits) (hd : device.Grants channels)
    (hb : pcmFormat bits = some format) (buffer : Memory) (data : Bytes) :
    playWav device stack buffer (some (header ++ data)) =
      .ok ⟨parseHeader (place header stack), playFrom (device.pcm bits format) 0 buffer data⟩ := by
  have hheader : fileHeader stack (header ++ data) = parseHeader (place header stack) := by
    rw [fileHeader, List.take_left' hh.length]
  have hdepth : pcmFormat (fileHeader stack (header ++ data)).bitsPerSample.toNat = some format := by
    rw [hheader, hh.bits, hb]
  have hsetsUp : device.SetsUp (fileHeader stack (header ++ data)) := by
    constructor
    · rw [hheader]
      exact hh.pcm
    · exact hd.opens
    · rw [hdepth]
      rfl
    · exact hd.setParams
    · exact hd.prepares
  rw [playWav_ok hsetsUp hdepth, hheader, hh.bits, List.drop_left' hh.length]

/- In memory a sample has the bytes it has in the file, or four for three. -/
theorem format_ratio {bits : ℕ} {format : PcmFormat} (h : pcmFormat bits = some format) :
    0 < bits / 8 ∧ (format.width = bits / 8 ∨ 3 * format.width = 4 * (bits / 8)) := by
  unfold pcmFormat at h
  split_ifs at h with h8 h16 h24 h32
  · cases h
    rw [h8]
    decide
  · cases h
    rw [h16]
    decide
  · cases h
    rw [h24]
    decide
  · cases h
    rw [h32]
    decide

/-- For a device that grants the channels and takes every frame: `playWav` keeps the
frames aligned for all data of a size exactly when the size fits. -/
theorem frames_aligned_iff (device : Device) (stack buffer : Memory) (header : Bytes)
    (channels bits : ℕ) (format : PcmFormat) (hh : Announces stack header channels bits)
    (hd : device.Grants channels) (hall : ∀ k n, device.writei k n = n) (hc : 1 ≤ channels)
    (hb : pcmFormat bits = some format) (size : ℕ) :
    (∀ data : Bytes, data.length = size → ∃ played,
      playWav device stack buffer (some (header ++ data)) = .ok played ∧
        Aligned (channels * (bits / 8)) data played.calls) ↔
      Fits (channels * (bits / 8)) (channels * format.width) size := by
  obtain ⟨hbits, hratio⟩ := format_ratio hb
  have hsize : (device.pcm bits format).frameSize = channels * (bits / 8) := by
    rw [← hd.channels]
    rfl
  have hstride : (device.pcm bits format).stride = channels * format.width := by
    rw [← hd.channels]
    rfl
  have hf : 0 < (device.pcm bits format).frameSize := by
    rw [hsize]
    exact Nat.mul_pos hc hbits
  have hwritei : ∀ k n, (device.pcm bits format).writei k n = n := hall
  rw [← hsize, ← hstride]
  constructor
  · intro h
    apply skim_fits hf
    · rw [hsize, hstride]
      rcases hratio with hratio | hratio
      · exact .inl (congrArg (channels * ·) hratio)
      · apply Or.inr
        rw [Nat.mul_left_comm, hratio, Nat.mul_left_comm]
    · intro data hdata
      obtain ⟨played, hplayed, haligned⟩ := h data hdata
      rw [playWav_granted hh hd hb] at hplayed
      cases hplayed
      have hwithin := (accepting_within hwritei 0 buffer data).mp haligned.within
      have htaken := haligned.taken
      rw [accepting_taken hwritei 0 buffer data hwithin] at htaken
      exact ⟨hwithin, htaken⟩
  · intro h data hdata
    rw [← hdata] at h
    obtain ⟨hwithin, hskim⟩ := fits_skim hf h
    refine ⟨_, playWav_granted hh hd hb buffer data, ?_, ?_⟩
    · rw [accepting_taken hwritei 0 buffer data hwithin, hskim]
    · exact (accepting_within hwritei 0 buffer data).mpr hwithin

/- The header of a PCM file with the given channels and bits per sample. -/
def sampleHeader (channels bits : UInt16) : Bytes :=
  List.replicate 20 0 ++ u16le.bytes 1 ++ u16le.bytes channels ++ u32le.bytes 8000 ++
    List.replicate 6 0 ++ u16le.bytes bits ++ List.replicate 8 0

def acceptingDevice (channels : ℕ) : Device := ⟨true, true, true, true, channels, true, fun _ n => n⟩

/- A piece of the buffer's size, a frame of four bytes and one byte over. -/
def twoPieces : Bytes := List.replicate 4096 1 ++ [2, 3, 4, 5, 6]

theorem twoPieces_length : twoPieces.length = 4101 := by
  rw [twoPieces, List.length_append, List.length_replicate]
  rfl

theorem twoPieces_frames : twoPieces.take 4100 = List.replicate 4096 1 ++ [2, 3, 4, 5] := by
  rw [twoPieces, List.take_append, List.take_replicate, List.length_replicate]
  rfl

theorem stereo_aligned : ∃ played, playWav (acceptingDevice 2) (fun _ => 0) (fun _ => 0)
      (some (sampleHeader 2 16 ++ twoPieces)) = .ok played ∧
    Aligned (2 * (16 / 8)) twoPieces played.calls :=
  (frames_aligned_iff (acceptingDevice 2) (fun _ => 0) (fun _ => 0) (sampleHeader 2 16) 2 16 .s16le
    ⟨rfl, by decide, by decide, by decide⟩ ⟨rfl, rfl, rfl, rfl⟩ (fun _ _ => rfl) (by decide) rfl
    4101).mpr (.whole (by decide) (by decide) (by decide)) twoPieces twoPieces_length

/- One frame of a 24-bit file: the device takes four bytes, the fourth from what
the buffer held before. -/
theorem mono24_misaligned : ∃ played, playWav (acceptingDevice 1) (fun _ => 0) (fun _ => 9)
      (some (sampleHeader 1 24 ++ [1, 2, 3])) = .ok played ∧
    played.calls.map Call.taken = [[1, 2, 3, 9]] ∧ ¬Aligned (1 * (24 / 8)) [1, 2, 3] played.calls := by
  have hh : Announces (fun _ => 0) (sampleHeader 1 24) 1 24 :=
    ⟨rfl, by decide, by decide, by decide⟩
  have hcut := playFrom_cut ((acceptingDevice 1).pcm 24 .s24le) 0 (fun _ => 9) [1, 2, 3] (by simp)
  have hrest : ([1, 2, 3] : Bytes).drop bufferSize = [] := rfl
  rw [hrest, playFrom_nil, ite_self] at hcut
  have htaken : (playFrom ((acceptingDevice 1).pcm 24 .s24le) 0 (fun _ => 9) [1, 2, 3]).map
      Call.taken = [[1, 2, 3, 9]] := by
    rw [hcut]
    decide
  refine ⟨_, playWav_granted hh ⟨rfl, rfl, rfl, rfl⟩ rfl _ _, htaken, ?_⟩
  intro h
  have hflat := h.taken
  rw [List.flatMap_def, htaken] at hflat
  revert hflat
  decide

/-! ### Any device -/

/-- Every call that hands over a frame is answered with the full count. `k` is the
number of the first call. -/
def AnsweredInFull (writei : ℕ → ℕ → ℤ) (frameSize k : ℕ) (data : Bytes) : Prop :=
  ∀ j chunk, (fragments bufferSize data)[j]? = some chunk → 1 ≤ chunk.length / frameSize →
    writei (k + j) (chunk.length / frameSize) = (chunk.length / frameSize : ℕ)

theorem answered_cut {writei : ℕ → ℕ → ℤ} {frameSize k : ℕ} {data : Bytes} (hd : data ≠ []) :
    AnsweredInFull writei frameSize k data ↔
      (1 ≤ (data.take bufferSize).length / frameSize →
        writei k ((data.take bufferSize).length / frameSize) =
          ((data.take bufferSize).length / frameSize : ℕ)) ∧
      AnsweredInFull writei frameSize (k + 1) (data.drop bufferSize) := by
  have hcut := fragments_take bufferSize data bufferSize_pos hd
  constructor
  · intro h
    constructor
    · exact h 0 _ (by rw [hcut]; rfl)
    · intro j chunk hj
      have hnext := h (j + 1) chunk (by rw [hcut]; exact hj)
      rwa [show k + (j + 1) = k + 1 + j by omega] at hnext
  · rintro ⟨hfirst, hrest⟩ j chunk hj
    rw [hcut] at hj
    cases j with
    | zero =>
      cases hj
      exact hfirst
    | succ j =>
      have hnext := hrest j chunk hj
      rwa [show k + 1 + j = k + (j + 1) by omega] at hnext

/- A piece without a whole frame is the last. -/
theorem last_piece {frameSize : ℕ} {data : Bytes} (hf : 0 < frameSize)
    (hsize : frameSize ≤ bufferSize) (h : (data.take bufferSize).length / frameSize = 0) :
    data.drop bufferSize = [] := by
  have hshort := (Nat.div_eq_zero_iff_lt hf).mp h
  apply List.drop_eq_nil_of_le
  rw [List.length_take] at hshort
  omega

section AnyDevice
variable {pcm : Pcm} (hf : 0 < pcm.frameSize) (hsize : pcm.frameSize ≤ bufferSize)
  (hstride : pcm.stride = pcm.frameSize) (hsound : ∀ k n, pcm.writei k n ≤ n)
include hstride hsound

/- A call takes whole frames from the front of its piece. -/
theorem sound_taken (k : ℕ) (buffer : Memory) (chunk : Bytes) : ∃ frames,
    frames = (pcm.call k (place chunk buffer) chunk).result.toNat ∧
      frames ≤ chunk.length / pcm.frameSize ∧
      (pcm.call k (place chunk buffer) chunk).taken = chunk.take (frames * pcm.frameSize) ∧
      (pcm.call k (place chunk buffer) chunk).taken.length = frames * pcm.frameSize := by
  have hle : (pcm.call k (place chunk buffer) chunk).result ≤ (chunk.length / pcm.frameSize : ℕ) :=
    hsound _ _
  have hnat : (pcm.call k (place chunk buffer) chunk).result.toNat ≤
      chunk.length / pcm.frameSize := Int.toNat_le.mpr hle
  have hmul := Nat.mul_le_mul_right pcm.frameSize hnat
  have hin : chunk.length / pcm.frameSize * pcm.frameSize ≤ chunk.length := Nat.div_mul_le_self ..
  have htaken := call_taken pcm k buffer chunk (by rw [hstride]; omega)
  have hlength := call_taken_length pcm k (place chunk buffer) chunk
  rw [hstride] at htaken hlength
  exact ⟨_, rfl, hnat, htaken, hlength⟩

include hf hsize

/- At most the frames of the pieces are taken; all of them only when every call is
answered in full. -/
theorem taken_length (k : ℕ) (buffer : Memory) (data : Bytes) :
    ((playFrom pcm k buffer data).flatMap Call.taken).length ≤
        (skim bufferSize pcm.offered data).length ∧
      (((playFrom pcm k buffer data).flatMap Call.taken).length =
        (skim bufferSize pcm.offered data).length →
          AnsweredInFull pcm.writei pcm.frameSize k data) := by
  induction data using fragments_induction bufferSize bufferSize_pos generalizing k buffer with
  | nil => simp [playFrom_nil, skim, AnsweredInFull]
  | cut data hd ih =>
    obtain ⟨frames, hframes, hle, _, hfirst⟩ :=
      sound_taken hstride hsound k buffer (data.take bufferSize)
    obtain ⟨hless, hfull⟩ := ih (k + 1) (place (data.take bufferSize) buffer)
    have hmul := Nat.mul_le_mul_right pcm.frameSize hle
    have hmax : (data.take bufferSize).length / pcm.frameSize * pcm.frameSize ≤
        (data.take bufferSize).length := Nat.div_mul_le_self ..
    have hright : (skim bufferSize pcm.offered data).length =
        (data.take bufferSize).length / pcm.frameSize * pcm.frameSize +
          (skim bufferSize pcm.offered (data.drop bufferSize)).length := by
      rw [skim_cut bufferSize_pos data hd, List.length_append, Pcm.offered, hstride,
        List.length_take, Nat.min_eq_left hmax]
    rw [playFrom_cut pcm k buffer data hd, List.flatMap_cons, List.length_append, hfirst, hright,
      answered_cut hd]
    have hresult := call_result pcm k (place (data.take bufferSize) buffer) (data.take bufferSize)
    by_cases hfatal : (pcm.call k (place (data.take bufferSize) buffer)
        (data.take bufferSize)).Fatal
    · -- the loop ends; all frames were taken only if there were none
      have hneg := hfatal.1
      have hnone : frames = 0 := by omega
      rw [if_pos hfatal, hnone, Nat.zero_mul]
      constructor
      · exact Nat.zero_le _
      · intro hequal
        have hno : (data.take bufferSize).length / pcm.frameSize * pcm.frameSize = 0 * pcm.frameSize := by
          simp only [List.flatMap_nil, List.length_nil] at hequal
          omega
        have hzero := Nat.eq_of_mul_eq_mul_right hf hno
        rw [last_piece hf hsize hzero]
        exact ⟨fun h => by omega, by simp [AnsweredInFull]⟩
    · rw [if_neg hfatal]
      constructor
      · omega
      · intro hequal
        have hequal' : frames * pcm.frameSize =
            (data.take bufferSize).length / pcm.frameSize * pcm.frameSize := by omega
        have hall := Nat.eq_of_mul_eq_mul_right hf hequal'
        exact ⟨fun h => by omega, hfull (by omega)⟩

theorem taken_in_full (k : ℕ) (buffer : Memory) (data : Bytes)
    (h : AnsweredInFull pcm.writei pcm.frameSize k data) :
    (playFrom pcm k buffer data).flatMap Call.taken = skim bufferSize pcm.offered data := by
  induction data using fragments_induction bufferSize bufferSize_pos generalizing k buffer with
  | nil => simp [playFrom_nil, skim]
  | cut data hd ih =>
    obtain ⟨frames, hframes, hle, hfirst, _⟩ :=
      sound_taken hstride hsound k buffer (data.take bufferSize)
    obtain ⟨hanswer, hrest⟩ := (answered_cut hd).mp h
    have hresult := call_result pcm k (place (data.take bufferSize) buffer) (data.take bufferSize)
    rw [playFrom_cut pcm k buffer data hd, skim_cut bufferSize_pos data hd, List.flatMap_cons,
      Pcm.offered, hstride, hfirst]
    by_cases hone : 1 ≤ (data.take bufferSize).length / pcm.frameSize
    · have hall := hanswer hone
      rw [← hresult] at hall
      have hok : ¬(pcm.call k (place (data.take bufferSize) buffer)
          (data.take bufferSize)).Fatal := by
        rintro ⟨hneg, _⟩
        omega
      have hequal : frames = (data.take bufferSize).length / pcm.frameSize := by omega
      rw [if_neg hok, ih _ _ hrest, hequal]
    · have hzero : (data.take bufferSize).length / pcm.frameSize = 0 := by omega
      have hnone : frames = 0 := by omega
      rw [last_piece hf hsize hzero, hzero, hnone, playFrom_nil, ite_self]
      simp [skim]

end AnyDevice

/-! ### Complete playback -/

/- Frames that divide the buffer always fit. -/
theorem fits_of_dvd {frameSize : ℕ} (hf : 0 < frameSize) (hdvd : frameSize ∣ bufferSize)
    (size : ℕ) : Fits frameSize frameSize size := by
  apply Fits.whole
  · exact Nat.div_mul_cancel hdvd
  · exact Nat.div_mul_le_self ..
  · obtain ⟨m, hm⟩ := hdvd
    have hsplit : size = frameSize * (m * (size / bufferSize)) + size % bufferSize := by
      rw [← Nat.mul_assoc, ← hm]
      exact (Nat.div_add_mod size bufferSize).symm
    have hdiv : size / frameSize = m * (size / bufferSize) + size % bufferSize / frameSize := by
      conv => lhs; rw [hsplit]
      exact Nat.mul_add_div hf ..
    rw [hdiv, Nat.add_mul, hm]
    ring

/- A frame of 24-bit samples does not divide the buffer. -/
theorem width_of_dvd {channels bits : ℕ} {format : PcmFormat} (hb : pcmFormat bits = some format)
    (hdvd : channels * (bits / 8) ∣ bufferSize) : format.width = bits / 8 := by
  rcases (format_ratio hb).2 with h | h
  · exact h
  · have hthree : 3 ∣ bits / 8 := ⟨format.width - bits / 8, by omega⟩
    have hbuffer : 3 ∣ bufferSize := (hthree.trans (Nat.dvd_mul_left ..)).trans hdvd
    exact absurd hbuffer (by decide)

/-- For a file whose frame size divides the buffer size, on a device that has the
channels of the file and takes at most what it is given: that a true result
means complete playback holds exactly when the set up fails or every call with
a frame is answered with the full count. -/
theorem playback_complete_iff (device : Device) (stack buffer : Memory) (file : Bytes)
    (frameSize : ℕ)
    (hframe : frameSize = (fileHeader stack file).numChannels.toNat *
      ((fileHeader stack file).bitsPerSample.toNat / 8))
    (hdvd : frameSize ∣ bufferSize)
    (hchannels : device.channels = (fileHeader stack file).numChannels.toNat)
    (hsound : ∀ k n, device.writei k n ≤ n) :
    (∀ played, playWav device stack buffer (some file) = .ok played →
      played.calls.flatMap Call.taken =
        (file.drop 44).take ((file.drop 44).length / frameSize * frameSize)) ↔
      (device.SetsUp (fileHeader stack file) →
        AnsweredInFull device.writei frameSize 0 (file.drop 44)) := by
  have hf : 0 < frameSize := Nat.pos_of_dvd_of_pos hdvd bufferSize_pos
  have hsize : frameSize ≤ bufferSize := Nat.le_of_dvd bufferSize_pos hdvd
  by_cases hup : device.SetsUp (fileHeader stack file)
  · obtain ⟨format, hformat⟩ := Option.isSome_iff_exists.mp hup.depth
    obtain ⟨pcm, hpcm⟩ : ∃ pcm, pcm =
      device.pcm (fileHeader stack file).bitsPerSample.toNat format := ⟨_, rfl⟩
    have hpcmFrame : pcm.frameSize = frameSize := by
      rw [hpcm, hframe, ← hchannels]
      rfl
    have hstride : pcm.stride = pcm.frameSize := by
      have hwidth := width_of_dvd hformat (hframe ▸ hdvd)
      rw [hpcm]
      exact congrArg (device.channels * ·) hwidth
    have hwritei : pcm.writei = device.writei := by
      rw [hpcm]
      rfl
    have hplayed := playWav_ok hup hformat buffer
    rw [← hpcm] at hplayed
    have hfits : Fits pcm.frameSize pcm.stride (file.drop 44).length := by
      rw [hstride, hpcmFrame]
      exact fits_of_dvd hf hdvd _
    rw [← hpcmFrame] at hf hsize ⊢
    have hskim := (fits_skim hf hfits).2
    rw [← hwritei] at hsound ⊢
    constructor
    · intro h _
      have hall := h _ hplayed
      rw [← hskim] at hall
      exact (taken_length hf hsize hstride hsound 0 buffer (file.drop 44)).2
        (congrArg List.length hall)
    · intro h played hok
      rw [hplayed] at hok
      cases hok
      rw [← hskim]
      exact taken_in_full hf hsize hstride hsound 0 buffer (file.drop 44) (h hup)
  · constructor
    · intro _ h
      exact absurd h hup
    · intro _ played hok
      exact absurd (setsUp_of_ok hok) hup

theorem stereo_complete : ∃ played, playWav (acceptingDevice 2) (fun _ => 0) (fun _ => 0)
      (some (sampleHeader 2 16 ++ twoPieces)) = .ok played ∧
    played.calls.flatMap Call.taken = List.replicate 4096 1 ++ [2, 3, 4, 5] := by
  have hh : Announces (fun _ => 0) (sampleHeader 2 16) 2 16 :=
    ⟨rfl, by decide, by decide, by decide⟩
  have hd : (acceptingDevice 2).Grants 2 := ⟨rfl, rfl, rfl, rfl⟩
  have hok := playWav_granted hh hd rfl (fun _ => 0) twoPieces
  have hall := (playback_complete_iff (acceptingDevice 2) (fun _ => 0) (fun _ => 0)
    (sampleHeader 2 16 ++ twoPieces) 4 (by decide) (by decide) (by decide)
    (fun _ _ => le_rfl)).mpr (fun _ _ _ _ _ => rfl) _ hok
  have hdata : (sampleHeader 2 16 ++ twoPieces).drop 44 = twoPieces := rfl
  rw [hdata, twoPieces_length, twoPieces_frames] at hall
  exact ⟨_, hok, hall⟩

def underrunDevice (channels : ℕ) : Device :=
  ⟨true, true, true, true, channels, true, fun _ _ => -ePipe⟩

/- An underrun loses the only piece of the file, and the result is true. -/
theorem underrun_loses_frames : ∃ played, playWav (underrunDevice 2) (fun _ => 0) (fun _ => 0)
      (some (sampleHeader 2 16 ++ [1, 2, 3, 4])) = .ok played ∧
    played.calls.flatMap Call.taken = [] := by
  have hh : Announces (fun _ => 0) (sampleHeader 2 16) 2 16 :=
    ⟨rfl, by decide, by decide, by decide⟩
  have hcut := playFrom_cut ((underrunDevice 2).pcm 16 .s16le) 0 (fun _ => 0) [1, 2, 3, 4]
    (by simp)
  have hrest : ([1, 2, 3, 4] : Bytes).drop bufferSize = [] := rfl
  rw [hrest, playFrom_nil, ite_self] at hcut
  refine ⟨_, playWav_granted hh ⟨rfl, rfl, rfl, rfl⟩ rfl _ _, ?_⟩
  rw [hcut]
  rfl

end TypegoSdk.Audio
