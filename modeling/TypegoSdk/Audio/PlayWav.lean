import TypegoSdk.Lib.Bytes
import TypegoSdk.Lib.Fragment

/-!
# playWav (example/go2/typego_audio_interface.cpp)

The header is read at fixed offsets, the device is set up from it, and the rest
of the file goes to the device in pieces of 4096 bytes. The buffer on the stack
is a memory: what is behind the bytes just read is left from before.
-/

namespace TypegoSdk.Audio
open TypegoSdk.Lib

/-! ### The program -/

/-- The fields of the header that are used. -/
structure WavHeader where
  audioFormat : UInt16
  numChannels : UInt16
  sampleRate : UInt32
  bitsPerSample : UInt16
  deriving DecidableEq

/- The casts at fixed offsets of `header`. -/
def parseHeader (header : Memory) : WavHeader where
  audioFormat := u16le.value (load header 20 2)
  numChannels := u16le.value (load header 22 2)
  sampleRate := u32le.value (load header 24 4)
  bitsPerSample := u16le.value (load header 34 2)

/-- The formats of ALSA that are used. -/
inductive PcmFormat where
  | u8
  | s16le
  | s24le
  | s32le
  deriving DecidableEq

/- The bytes of a sample in memory; a 24-bit sample has four. -/
def PcmFormat.width : PcmFormat → ℕ
  | .u8 => 1
  | .s16le => 2
  | .s24le => 4
  | .s32le => 4

def pcmFormat (bitsPerSample : ℕ) : Option PcmFormat :=
  if bitsPerSample = 8 then some .u8
  else if bitsPerSample = 16 then some .s16le
  else if bitsPerSample = 24 then some .s24le
  else if bitsPerSample = 32 then some .s32le
  else none

/-- What the sound system answers. `channels` is the number it has set;
`writei k n` is the result of call `k`, with `n` frames: the frames that were
taken, or a negative code. -/
structure Device where
  plughw : Bool
  fallback : Bool
  dmix : Bool
  setParams : Bool
  channels : ℕ
  prepares : Bool
  writei : ℕ → ℕ → ℤ

/-- Why `playWav` returns false. -/
inductive Failure where
  | cannotOpenFile
  | notPcm
  | cannotOpenDevice
  | unsupportedBitDepth
  | cannotSetParams
  | cannotPrepare
  deriving DecidableEq

/-- One round of the loop: the bytes read, the frames handed over, the answer, and
the bytes that the device took from the buffer. -/
structure Call where
  chunk : Bytes
  frames : ℕ
  result : ℤ
  taken : Bytes
  deriving DecidableEq

structure Played where
  header : WavHeader
  calls : List Call
  deriving DecidableEq

def ePipe : ℤ := 32

def bufferSize : ℕ := 4096

/-- The set up device: its answers, the size of a frame in the file, and the bytes
that it takes for a frame. -/
structure Pcm where
  writei : ℕ → ℕ → ℤ
  frameSize : ℕ
  stride : ℕ

/- `snd_pcm_writei` after `chunk` was read to the front of the buffer. -/
def Pcm.call (pcm : Pcm) (k : ℕ) (buffer : Memory) (chunk : Bytes) : Call :=
  let frames := chunk.length / pcm.frameSize
  let result := pcm.writei k frames
  ⟨chunk, frames, result, load buffer 0 (result.toNat * pcm.stride)⟩

/- An underrun goes on with the next piece, another error ends the loop. -/
def Call.Fatal (call : Call) : Prop := call.result < 0 ∧ call.result ≠ -ePipe

instance (call : Call) : Decidable call.Fatal := inferInstanceAs (Decidable (_ ∧ _))

/- The loop from its call `k` on, with `rest` unread. A short read sets eof. -/
def playFrom (pcm : Pcm) (k : ℕ) (buffer : Memory) (rest : Bytes) : List Call :=
  if h : rest = [] then []
  else
    let chunk := rest.take bufferSize
    let buffer := place chunk buffer
    let call := pcm.call k buffer chunk
    if call.Fatal ∨ chunk.length < bufferSize then [call]
    else call :: playFrom pcm (k + 1) buffer (rest.drop bufferSize)
termination_by rest.length
decreasing_by
  have hpos := List.length_pos_of_ne_nil h
  simp only [bufferSize, List.length_drop]
  omega

/- `stack` and `buffer` are what the two arrays hold before. A file that is
shorter than the header is at its end before the loop. -/
def playWav (device : Device) (stack buffer : Memory) (file : Option Bytes) :
    Except Failure Played :=
  match file with
  | none => .error .cannotOpenFile
  | some file =>
    let header := parseHeader (place (file.take 44) stack)
    if header.audioFormat ≠ 1 then .error .notPcm
    else if !(device.plughw || device.fallback || device.dmix) then .error .cannotOpenDevice
    else
      match pcmFormat header.bitsPerSample.toNat with
      | none => .error .unsupportedBitDepth
      | some format =>
        if !device.setParams then .error .cannotSetParams
        else if !device.prepares then .error .cannotPrepare
        else
          let pcm : Pcm := {
            writei := device.writei
            frameSize := device.channels * (header.bitsPerSample.toNat / 8)
            stride := device.channels * format.width }
          .ok ⟨header, playFrom pcm 0 buffer (file.drop 44)⟩

/-! ### The loop -/

theorem bufferSize_pos : 0 < bufferSize := by decide

theorem playFrom_nil (pcm : Pcm) (k : ℕ) (buffer : Memory) : playFrom pcm k buffer [] = [] := by
  rw [playFrom]
  simp

/- A round on unread bytes. -/
theorem playFrom_cut (pcm : Pcm) (k : ℕ) (buffer : Memory) (rest : Bytes) (hr : rest ≠ []) :
    playFrom pcm k buffer rest =
      pcm.call k (place (rest.take bufferSize) buffer) (rest.take bufferSize) ::
        if (pcm.call k (place (rest.take bufferSize) buffer) (rest.take bufferSize)).Fatal then []
        else playFrom pcm (k + 1) (place (rest.take bufferSize) buffer) (rest.drop bufferSize) := by
  rw [playFrom, dif_neg hr]
  by_cases hfatal : (pcm.call k (place (rest.take bufferSize) buffer)
      (rest.take bufferSize)).Fatal
  · simp only [hfatal, true_or, if_true]
  · by_cases hshort : (rest.take bufferSize).length < bufferSize
    · -- a short read was the last: nothing is unread
      have hdrop : rest.drop bufferSize = [] := by
        apply List.drop_eq_nil_of_le
        rw [List.length_take] at hshort
        omega
      simp only [hfatal, hshort, false_or, if_true, if_false, hdrop, playFrom_nil]
    · simp only [hfatal, hshort, or_self, if_false]

/-! ### The set up -/

def fileHeader (stack : Memory) (file : Bytes) : WavHeader :=
  parseHeader (place (file.take 44) stack)

/-- All tests before the loop are passed. -/
structure Device.SetsUp (device : Device) (header : WavHeader) : Prop where
  pcm : header.audioFormat = 1
  opens : (device.plughw || device.fallback || device.dmix) = true
  depth : (pcmFormat header.bitsPerSample.toNat).isSome = true
  setParams : device.setParams = true
  prepares : device.prepares = true

def Device.pcm (device : Device) (bits : ℕ) (format : PcmFormat) : Pcm where
  writei := device.writei
  frameSize := device.channels * (bits / 8)
  stride := device.channels * format.width

theorem playWav_ok {device : Device} {stack : Memory} {file : Bytes} {format : PcmFormat}
    (h : device.SetsUp (fileHeader stack file))
    (hb : pcmFormat (fileHeader stack file).bitsPerSample.toNat = some format) (buffer : Memory) :
    playWav device stack buffer (some file) = .ok ⟨fileHeader stack file,
      playFrom (device.pcm (fileHeader stack file).bitsPerSample.toNat format) 0 buffer
        (file.drop 44)⟩ := by
  rw [fileHeader] at h hb ⊢
  simp only [playWav, h.pcm, h.opens, hb, h.setParams, h.prepares, ne_eq, not_true_eq_false,
    if_false, Bool.not_true, Bool.false_eq_true, Device.pcm]

theorem setsUp_of_ok {device : Device} {stack buffer : Memory} {file : Bytes} {played : Played}
    (h : playWav device stack buffer (some file) = .ok played) :
    device.SetsUp (fileHeader stack file) := by
  rw [fileHeader]
  simp only [playWav] at h
  split at h
  · cases h
  · rename_i hpcm
    split at h
    · cases h
    · rename_i hopens
      split at h
      · cases h
      · rename_i hdepth
        split at h
        · cases h
        · rename_i hparams
          split at h
          · cases h
          · rename_i hprepares
            simp only [Bool.not_eq_true', Bool.not_eq_false] at hopens hparams hprepares
            exact ⟨not_not.mp hpcm, hopens, by rw [hdepth]; rfl, hparams, hprepares⟩

end TypegoSdk.Audio
