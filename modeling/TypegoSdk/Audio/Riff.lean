import TypegoSdk.Audio.PlayWav

/-!
# RIFF/WAVE files and what playWav finds in them

A WAVE file is a RIFF header and a list of chunks, among them the format and,
later, the data. `playWav` takes the format from fixed offsets and everything
behind the first 44 bytes for audio.
-/

namespace TypegoSdk.Audio
open TypegoSdk.Lib

/-! ### The format -/

def ascii (s : String) : Bytes := s.toList.map fun c => UInt8.ofNat c.toNat

/- Identifier, size, payload, and a zero behind a payload of odd length. -/
def riffChunk (id payload : Bytes) : Bytes :=
  id ++ u32le.bytes (UInt32.ofNat payload.length) ++ payload ++
    if payload.length % 2 = 1 then [0] else []

/-- A chunk that is neither the format nor the data. -/
structure OtherChunk where
  id : Bytes
  payload : Bytes
  idLength : id.length = 4
  notFmt : id ≠ ascii "fmt "
  notData : id ≠ ascii "data"

def OtherChunk.bytes (c : OtherChunk) : Bytes := riffChunk c.id c.payload

/-- The payload of a PCM format chunk: 16 bytes, or 18 with the size of an extension. -/
structure Fmt where
  numChannels : UInt16
  sampleRate : UInt32
  byteRate : UInt32
  blockAlign : UInt16
  bitsPerSample : UInt16
  cbSize : Option UInt16

def Fmt.payload (f : Fmt) : Bytes :=
  u16le.bytes 1 ++ (u16le.bytes f.numChannels ++ (u32le.bytes f.sampleRate ++
    (u32le.bytes f.byteRate ++ (u16le.bytes f.blockAlign ++ (u16le.bytes f.bitsPerSample ++
      match f.cbSize with
      | none => []
      | some size => u16le.bytes size)))))

structure WavChunks where
  before : List OtherChunk
  fmt : Fmt
  between : List OtherChunk
  data : Bytes
  after : List OtherChunk

def WavChunks.body (w : WavChunks) : Bytes :=
  ascii "WAVE" ++ (w.before.flatMap OtherChunk.bytes ++ (riffChunk (ascii "fmt ") w.fmt.payload ++
    (w.between.flatMap OtherChunk.bytes ++ (riffChunk (ascii "data") w.data ++
      w.after.flatMap OtherChunk.bytes))))

/-- A file whose sizes fit into their fields. -/
structure WavFile extends WavChunks where
  fits : toWavChunks.body.length < 2 ^ 32

def WavFile.bytes (w : WavFile) : Bytes :=
  ascii "RIFF" ++ (u32le.bytes (UInt32.ofNat w.body.length) ++ w.body)

/- The format that a player has to use. -/
def Fmt.header (f : Fmt) : WavHeader := ⟨1, f.numChannels, f.sampleRate, f.bitsPerSample⟩

/-! ### What playWav makes of it -/

/- The part of a file that the loop reads. -/
def audioBytes (file : Bytes) : Bytes := file.drop 44

/-- The fields of the header are those of the format chunk, and the audio is the
payload of the data chunk. -/
structure Finds (stack : Memory) (w : WavFile) : Prop where
  header : fileHeader stack w.bytes = w.fmt.header
  audio : audioBytes w.bytes = w.data

/-- Only a short format chunk and an even data chunk. -/
structure WavFile.Plain (w : WavFile) : Prop where
  before : w.before = []
  fmt : w.fmt.cbSize = none
  between : w.between = []
  even : w.data.length % 2 = 0
  after : w.after = []

/- The loop reads all of the audio, unless an error ends it. -/
theorem playFrom_chunks (pcm : Pcm) (hok : ∀ k n, 0 ≤ pcm.writei k n ∨ pcm.writei k n = -ePipe)
    (k : ℕ) (buffer : Memory) (data : Bytes) :
    (playFrom pcm k buffer data).flatMap Call.chunk = data := by
  induction data using fragments_induction bufferSize bufferSize_pos generalizing k buffer with
  | nil => rw [playFrom_nil, List.flatMap_nil]
  | cut data hd ih =>
    have hgo : ¬(pcm.call k (place (data.take bufferSize) buffer) (data.take bufferSize)).Fatal := by
      rintro ⟨hneg, hcode⟩
      rcases hok k ((data.take bufferSize).length / pcm.frameSize) with h | h
      · exact absurd hneg (not_lt.mpr h)
      · exact hcode h
    rw [playFrom_cut pcm k buffer data hd, if_neg hgo, List.flatMap_cons, ih]
    exact List.take_append_drop ..

/-! ### Sizes -/

theorem riffChunk_length (id payload : Bytes) :
    (riffChunk id payload).length = id.length + 4 + payload.length + payload.length % 2 := by
  have hsize : (u32le.bytes (UInt32.ofNat payload.length)).length = 4 := u32le.bytes_length _
  by_cases hodd : payload.length % 2 = 1
  · rw [riffChunk, if_pos hodd]
    simp only [List.length_append, hsize, List.length_singleton]
    omega
  · rw [riffChunk, if_neg hodd]
    simp only [List.length_append, hsize, List.length_nil]
    omega

theorem others_empty (cs : List OtherChunk) (h : (cs.flatMap OtherChunk.bytes).length = 0) :
    cs = [] := by
  cases cs with
  | nil => rfl
  | cons c cs =>
    have hc : c.bytes.length = c.id.length + 4 + c.payload.length + c.payload.length % 2 :=
      riffChunk_length ..
    rw [List.flatMap_cons, List.length_append] at h
    omega

theorem fmt_length (f : Fmt) : f.payload.length = 16 ∧ f.cbSize = none ∨ f.payload.length = 18 := by
  cases hc : f.cbSize with
  | none =>
    simp only [Fmt.payload, hc, List.length_append, u16le.bytes_length, u32le.bytes_length]
    exact .inl ⟨rfl, trivial⟩
  | some size =>
    simp only [Fmt.payload, hc, List.length_append, u16le.bytes_length, u32le.bytes_length]
    exact .inr rfl

theorem file_length (w : WavFile) : w.bytes.length =
    28 + w.fmt.payload.length + w.data.length + w.data.length % 2 +
      (w.before.flatMap OtherChunk.bytes).length + (w.between.flatMap OtherChunk.bytes).length +
      (w.after.flatMap OtherChunk.bytes).length := by
  have hid : (ascii "RIFF").length = 4 ∧ (ascii "WAVE").length = 4 ∧ (ascii "fmt ").length = 4 ∧
      (ascii "data").length = 4 := by decide
  have hsize : (u32le.bytes (UInt32.ofNat w.body.length)).length = 4 := u32le.bytes_length _
  have heven : w.fmt.payload.length % 2 = 0 := by
    rcases fmt_length w.fmt with ⟨h, _⟩ | h <;> omega
  rw [WavFile.bytes, List.length_append, List.length_append, hsize, WavChunks.body]
  simp only [List.length_append, riffChunk_length, hid]
  omega

/-! ### The plain file -/

/- The bytes in front of the payload of the format chunk. -/
def plainStart (w : WavFile) : Bytes :=
  ascii "RIFF" ++ u32le.bytes (UInt32.ofNat w.body.length) ++ ascii "WAVE" ++ ascii "fmt " ++
    u32le.bytes 16

def plainHead (w : WavFile) : Bytes :=
  plainStart w ++ (w.fmt.payload ++
    (ascii "data" ++ u32le.bytes (UInt32.ofNat w.data.length)))

theorem plainStart_length (w : WavFile) : (plainStart w).length = 20 := by
  simp only [plainStart, List.length_append, u32le.bytes_length]
  rfl

theorem plain_bytes {w : WavFile} (h : w.Plain) : w.bytes = plainHead w ++ w.data := by
  have hfmt : w.fmt.payload.length = 16 := by
    simp only [Fmt.payload, h.fmt, List.length_append, u16le.bytes_length, u32le.bytes_length]
    rfl
  have heven : ¬w.data.length % 2 = 1 := by
    have := h.even
    omega
  have hbody : w.body = ascii "WAVE" ++ (riffChunk (ascii "fmt ") w.fmt.payload ++
      riffChunk (ascii "data") w.data) := by
    simp only [WavChunks.body, h.before, h.between, h.after, List.flatMap_nil, List.nil_append,
      List.append_nil]
  rw [WavFile.bytes, plainHead, plainStart]
  conv => lhs; arg 2; arg 2; rw [hbody, riffChunk, riffChunk, hfmt, if_neg heven]
  simp only [List.append_assoc, List.append_nil]
  rfl

theorem plainHead_length {w : WavFile} (h : w.Plain) : (plainHead w).length = 44 := by
  simp only [plainHead, List.length_append, plainStart_length, Fmt.payload, h.fmt,
    u16le.bytes_length, u32le.bytes_length]
  rfl

/- A word at an offset of the head. -/
theorem head_field {α : Type} (A : Layout α) {w : WavFile} (before : Bytes) (a : α) {after : Bytes}
    (stack : Memory) (h : plainHead w = plainStart w ++ (before ++ (A.bytes a ++ after))) :
    A.value (load (place (plainHead w) stack) (20 + before.length) A.size) = a := by
  have hv := A.value_load (plainStart w ++ before) after a stack
  rwa [List.length_append, plainStart_length, List.append_assoc, ← h] at hv

theorem plain_header (w : WavFile) (stack : Memory) :
    parseHeader (place (plainHead w) stack) = w.fmt.header := by
  have hformat : u16le.value (load (place (plainHead w) stack) 20 2) = 1 :=
    head_field u16le [] 1 stack
      (by simp only [plainHead, Fmt.payload, List.append_assoc, List.nil_append]; rfl)
  have hchannels : u16le.value (load (place (plainHead w) stack) 22 2) = w.fmt.numChannels :=
    head_field u16le (u16le.bytes 1) w.fmt.numChannels stack
      (by simp only [plainHead, Fmt.payload, List.append_assoc]; rfl)
  have hrate : u32le.value (load (place (plainHead w) stack) 24 4) = w.fmt.sampleRate :=
    head_field u32le (u16le.bytes 1 ++ u16le.bytes w.fmt.numChannels) w.fmt.sampleRate stack
      (by simp only [plainHead, Fmt.payload, List.append_assoc]; rfl)
  have hbits : u16le.value (load (place (plainHead w) stack) 34 2) = w.fmt.bitsPerSample :=
    head_field u16le (u16le.bytes 1 ++ (u16le.bytes w.fmt.numChannels ++
      (u32le.bytes w.fmt.sampleRate ++ (u32le.bytes w.fmt.byteRate ++
        u16le.bytes w.fmt.blockAlign)))) w.fmt.bitsPerSample stack
      (by simp only [plainHead, Fmt.payload, List.append_assoc]; rfl)
  rw [parseHeader, hformat, hchannels, hrate, hbits, Fmt.header]

theorem plain_found {w : WavFile} (h : w.Plain) (stack : Memory) : Finds stack w := by
  have hlen := plainHead_length h
  constructor
  · rw [fileHeader, plain_bytes h, List.take_left' hlen]
    exact plain_header w stack
  · rw [audioBytes, plain_bytes h, List.drop_left' hlen]

/- The audio of a file is longer than its data by all that is not plain. -/
theorem found_plain {w : WavFile} (h : audioBytes w.bytes = w.data) : w.Plain := by
  have hlen := congrArg List.length h
  rw [audioBytes, List.length_drop, file_length] at hlen
  have hfmt := fmt_length w.fmt
  constructor
  · exact others_empty _ (by omega)
  · rcases hfmt with ⟨_, hnone⟩ | hlong
    · exact hnone
    · omega
  · exact others_empty _ (by omega)
  · omega
  · exact others_empty _ (by omega)

/-- A run without errors uses the header at the fixed offsets and reads the audio
bytes; these are the format and the data of the file exactly when the file is
plain. -/
theorem found_iff_plain (w : WavFile) (stack : Memory) :
    (∀ device buffer played,
      (∀ k n, 0 ≤ device.writei k n ∨ device.writei k n = -ePipe) →
      playWav device stack buffer (some w.bytes) = .ok played →
        played.header = fileHeader stack w.bytes ∧
          played.calls.flatMap Call.chunk = audioBytes w.bytes) ∧
    (Finds stack w ↔ w.Plain) := by
  constructor
  · intro device buffer played hok hplayed
    have hup := setsUp_of_ok hplayed
    obtain ⟨format, hformat⟩ := Option.isSome_iff_exists.mp hup.depth
    rw [playWav_ok hup hformat] at hplayed
    cases hplayed
    exact ⟨rfl, playFrom_chunks _ hok 0 buffer _⟩
  · constructor
    · intro h
      exact found_plain h.audio
    · intro h
      exact plain_found h stack

/- A stereo file of four bytes, with the given chunks between format and data. -/
def stereoFile (between : List OtherChunk)
    (fits : (WavChunks.mk [] ⟨2, 8000, 32000, 4, 16, none⟩ between [1, 2, 3, 4] []).body.length <
      2 ^ 32) : WavFile := ⟨_, fits⟩

theorem plain_stereo_found : Finds (fun _ => 0) (stereoFile [] (by decide)) :=
  (found_iff_plain (stereoFile [] (by decide)) fun _ => 0).2.mpr ⟨rfl, rfl, rfl, rfl, rfl⟩

def infoChunk : OtherChunk := ⟨ascii "LIST", ascii "INFO", by decide, by decide, by decide⟩

theorem tagged_stereo_not_found :
    audioBytes (stereoFile [infoChunk] (by decide)).bytes =
      ascii "INFO" ++ ascii "data" ++ [4, 0, 0, 0] ++ [1, 2, 3, 4] ∧
    ¬Finds (fun _ => 0) (stereoFile [infoChunk] (by decide)) := by
  have haudio : audioBytes (stereoFile [infoChunk] (by decide)).bytes =
      ascii "INFO" ++ ascii "data" ++ [4, 0, 0, 0] ++ [1, 2, 3, 4] := by decide
  constructor
  · exact haudio
  · intro h
    have hdata := h.audio
    rw [haudio] at hdata
    exact absurd hdata (by decide)

end TypegoSdk.Audio
