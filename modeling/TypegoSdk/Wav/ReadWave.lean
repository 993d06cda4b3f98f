import TypegoSdk.Lib.Stream
import TypegoSdk.Lib.While

/-!
# Reading and writing WAV files (example/g1/audio/wav.hpp)

`ReadWaveImpl` checks the header of a file, follows the sizes of the chunks up
to the data chunk and reads its payload. The stream is tested only behind the
chunks. The products of the byte rate are of type `int`: beyond its range the
behaviour is undefined.
-/

namespace TypegoSdk.Wav
open TypegoSdk.Lib

def riffId : Int32 := 0x46464952
def waveId : Int32 := 0x45564157
def junkId : Int32 := 0x4b4e554a
def fmtId : Int32 := 0x20746d66
def dataId : Int32 := 0x61746164

structure WaveHeader where
  chunkId : Int32
  chunkSize : Int32
  format : Int32
  subchunk1Id : Int32
  subchunk1Size : Int32
  audioFormat : Int16
  numChannels : Int16
  sampleRate : Int32
  byteRate : Int32
  blockAlign : Int16
  bitsPerSample : Int16
  subchunk2Id : Int32
  subchunk2Size : Int32
  deriving DecidableEq

def WaveHeader.zero : WaveHeader := ⟨0, 0, 0, 0, 0, 0, 0, 0, 0, 0, 0, 0, 0⟩

/-! ### ReadWaveImpl -/

/-- Why `is_ok` is false, with the values of the message. -/
inductive Refusal where
  | chunkId (given : Int32)
  | format (given : Int32)
  | subchunk1Id (given : Int32)
  | subchunk1Size (given : Int32)
  | audioFormat (given : Int16)
  | byteRate (given : Int32) (expected : ℤ)
  | blockAlign (given : Int16) (expected : ℤ)
  | bitsPerSample (given : Int16)
  | extraSize (given : Int16)
  | stream
  deriving DecidableEq

/-- How a call ends. `lengthError` is thrown by the constructor of `samples`. -/
inductive Outcome where
  | refused (why : Refusal)
  | undefined
  | lengthError
  | ok (samplingRate : Int32) (channelCount : Int8) (ans : Bytes)
  deriving DecidableEq

def InInt (x : ℤ) : Prop := -2 ^ 31 ≤ x ∧ x < 2 ^ 31

instance (x : ℤ) : Decidable (InInt x) := inferInstanceAs (Decidable (_ ∧ _))

/- `sample_rate * num_channels * bits_per_sample / 8`, from left to right. -/
def expectedByteRate (h : WaveHeader) : Option ℤ :=
  let x := h.sampleRate.toInt * h.numChannels.toInt
  let y := x * h.bitsPerSample.toInt
  if InInt x ∧ InInt y then some (y.tdiv 8) else none

def expectedBlockAlign (h : WaveHeader) : ℤ :=
  (h.numChannels.toInt * h.bitsPerSample.toInt).tdiv 8

/- The identifier and the size of a chunk, in place of `id` and `size`. -/
def readChunkHeader (id size : Int32) (is : Stream) : Int32 × Int32 × Stream :=
  let r := is.readField i32le id
  let r' := r.2.readField i32le size
  (r.1, r'.1, r'.2)

/- Up to the identifier and size of the format chunk, with junk skipped. -/
def readRiff (is : Stream) : Except Outcome (WaveHeader × Stream) :=
  let (chunkId, is) := is.readField i32le 0
  if chunkId ≠ riffId then .error (.refused (.chunkId chunkId))
  else
    let (chunkSize, is) := is.readField i32le 0
    let (format, is) := is.readField i32le 0
    if format ≠ waveId then .error (.refused (.format format))
    else
      let (id, size, is) := readChunkHeader 0 0 is
      let (id, size, is) :=
        if id = junkId then readChunkHeader id size (is.seekCur size.toInt) else (id, size, is)
      .ok ({WaveHeader.zero with
        chunkId := chunkId
        chunkSize := chunkSize
        format := format
        subchunk1Id := id
        subchunk1Size := size}, is)

/- The format chunk and its checks. -/
def readFmt (h : WaveHeader) (is : Stream) : Except Outcome (WaveHeader × Stream) :=
  if h.subchunk1Id ≠ fmtId then .error (.refused (.subchunk1Id h.subchunk1Id))
  else if h.subchunk1Size ≠ 16 ∧ h.subchunk1Size ≠ 18 then
    .error (.refused (.subchunk1Size h.subchunk1Size))
  else
    let (audioFormat, is) := is.readField i16le 0
    if audioFormat ≠ 1 then .error (.refused (.audioFormat audioFormat))
    else
      let (numChannels, is) := is.readField i16le 0
      let (sampleRate, is) := is.readField i32le 0
      let (byteRate, is) := is.readField i32le 0
      let (blockAlign, is) := is.readField i16le 0
      let (bitsPerSample, is) := is.readField i16le 0
      let h := {h with
        audioFormat := audioFormat
        numChannels := numChannels
        sampleRate := sampleRate
        byteRate := byteRate
        blockAlign := blockAlign
        bitsPerSample := bitsPerSample}
      match expectedByteRate h with
      | none => .error .undefined
      | some rate =>
        if byteRate.toInt ≠ rate then .error (.refused (.byteRate byteRate rate))
        else if blockAlign.toInt ≠ expectedBlockAlign h then
          .error (.refused (.blockAlign blockAlign (expectedBlockAlign h)))
        else if bitsPerSample ≠ 16 then .error (.refused (.bitsPerSample bitsPerSample))
        else if h.subchunk1Size = 18 then
          let (extraSize, is) := is.readField i16le (-1)
          if extraSize ≠ 0 then .error (.refused (.extraSize extraSize)) else .ok (h, is)
        else .ok (h, is)

/- What `SeekToDataChunk` works on. -/
structure Seek where
  subchunk2Id : Int32
  subchunk2Size : Int32
  is : Stream
  deriving DecidableEq

def seeking (s : Seek) : Bool := !s.is.fail && s.subchunk2Id ≠ dataId

def nextChunk (s : Seek) : Seek :=
  let (id, size, is) :=
    readChunkHeader s.subchunk2Id s.subchunk2Size (s.is.seekCur s.subchunk2Size.toInt)
  ⟨id, size, is⟩

def firstChunk (is : Stream) : Seek :=
  let (id, size, is) := readChunkHeader 0 0 is
  ⟨id, size, is⟩

/- `none` while the loop needs more rounds. -/
def seekToDataChunk (fuel : ℕ) (s : Seek) : Option Seek :=
  (whileLoop seeking nextChunk fuel s).map (·.2)

/- The test of the stream behind the loop. -/
def dataFound (h : WaveHeader) (s : Seek) : Except Outcome (WaveHeader × Stream) :=
  if s.is.fail then .error (.refused .stream)
  else .ok ({h with subchunk2Id := s.subchunk2Id, subchunk2Size := s.subchunk2Size}, s.is)

/- The header and everything up to the data: lines 32 to 157. -/
def seekData (fuel : ℕ) (is : Stream) : Option (Except Outcome (WaveHeader × Stream)) :=
  match readRiff is with
  | .error o => some (.error o)
  | .ok (h, is) =>
    match readFmt h is with
    | .error o => some (.error o)
    | .ok (h, is) =>
      (seekToDataChunk fuel (firstChunk is)).map (dataFound h)

/- The argument of the constructor of `samples`, and the count of its read. -/
def samplesRequested (h : WaveHeader) : ℤ := h.subchunk2Size.toInt.tdiv 2
def bytesRequested (h : WaveHeader) : ℤ := h.subchunk2Size.toInt

/- `samples[i] & 0xFF` and `(samples[i] >> 8) & 0xFF`. -/
def split (sample : Int16) : Bytes :=
  [(sample &&& 0xFF).toUInt16.toUInt8, ((sample >>> 8) &&& 0xFF).toUInt16.toUInt8]

/- The payload: lines 159 to 178. A count that is negative, or that lets the
stream write behind `samples`, is undefined behaviour. -/
def readData (h : WaveHeader) (is : Stream) : Outcome :=
  if samplesRequested h < 0 then .lengthError
  else
    let size := (samplesRequested h).toNat
    if bytesRequested h < 0 then .undefined
    else
      let (got, is) := is.read (bytesRequested h).toNat
      if 2 * size < got.length then .undefined
      else if is.fail then .refused .stream
      else
        let samples := i16le.values size got
        .ok h.sampleRate h.numChannels.toInt8 (samples.flatMap split)

def readWaveImpl (fuel : ℕ) (is : Stream) : Option Outcome :=
  (seekData fuel is).map fun r =>
    match r with
    | .error o => o
    | .ok (h, is) => readData h is

/-! ### WriteWave -/

def WaveHeader.bytes (h : WaveHeader) : Bytes :=
  i32le.bytes h.chunkId ++ (i32le.bytes h.chunkSize ++ (i32le.bytes h.format ++
    (i32le.bytes h.subchunk1Id ++ (i32le.bytes h.subchunk1Size ++ (i16le.bytes h.audioFormat ++
      (i16le.bytes h.numChannels ++ (i32le.bytes h.sampleRate ++ (i32le.bytes h.byteRate ++
        (i16le.bytes h.blockAlign ++ (i16le.bytes h.bitsPerSample ++
          (i32le.bytes h.subchunk2Id ++ i32le.bytes h.subchunk2Size)))))))))))

/-- How a call of `WriteWave` ends; `file` is what the file then holds. -/
inductive Written where
  | undefined
  | lengthError
  | done (result : Bool) (file : Option Bytes)
  deriving DecidableEq

/- None when a product or sum leaves the range of `int`. -/
def writtenHeader (samplingRate n channels : ℤ) : Option WaveHeader :=
  let size := (n * channels * 16).tdiv 8
  if InInt (samplingRate * channels) ∧ InInt (samplingRate * channels * 16) ∧
      InInt (n * channels) ∧ InInt (n * channels * 16) ∧ InInt (36 + size) then
    some {
      chunkId := riffId
      chunkSize := .ofInt (36 + size)
      format := waveId
      subchunk1Id := fmtId
      subchunk1Size := 16
      audioFormat := 1
      numChannels := .ofInt channels
      sampleRate := .ofInt samplingRate
      byteRate := .ofInt ((samplingRate * channels * 16).tdiv 8)
      blockAlign := .ofInt ((channels * 16).tdiv 8)
      bitsPerSample := 16
      subchunk2Id := dataId
      subchunk2Size := .ofInt size }
  else none

/- `room` is how many bytes the file takes, none when it cannot be created;
`samples` is the array that the pointer leads to. -/
def writeWave (room : Option ℕ) (samplingRate : Int32) (samples : List Int16) (n : Int32)
    (numChannels : UInt8) : Written :=
  let count := n.toInt * numChannels.toNat
  match writtenHeader samplingRate.toInt n.toInt numChannels.toNat with
  | none => .undefined
  | some header =>
    if count < 0 then .lengthError
    else if (samples.length : ℤ) < count then .undefined
    else
      match room with
      | none => .done false none
      | some room =>
        let bytes := header.bytes ++ i16le.array (samples.take count.toNat)
        .done (bytes.length ≤ room) (some (bytes.take room))

end TypegoSdk.Wav
