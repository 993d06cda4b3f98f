import TypegoSdk.Wav.ReadWave

/-!
# What the reader makes of well-formed bytes

The parts of `ReadWaveImpl` on a header, a format chunk and a payload of the
expected form, with any continuation.
-/

namespace TypegoSdk.Wav
open TypegoSdk.Lib

/-- The fields of a format chunk. -/
structure Fmt where
  numChannels : Int16
  sampleRate : Int32
  byteRate : Int32
  blockAlign : Int16

/- The identifier and the size of a chunk. -/
def chunkHead (id size : Int32) : Bytes := i32le.bytes id ++ i32le.bytes size

def riffHead (chunkSize : Int32) : Bytes :=
  i32le.bytes riffId ++ (i32le.bytes chunkSize ++ i32le.bytes waveId)

/- The 16 bytes of a PCM format chunk with 16 bits per sample. -/
def Fmt.bytes (f : Fmt) : Bytes :=
  i16le.bytes 1 ++ (i16le.bytes f.numChannels ++ (i32le.bytes f.sampleRate ++
    (i32le.bytes f.byteRate ++ (i16le.bytes f.blockAlign ++ i16le.bytes 16))))

/- The header that the reader has before the format chunk, and behind it. -/
def riffHeader (chunkSize id size : Int32) : WaveHeader :=
  {WaveHeader.zero with
    chunkId := riffId
    chunkSize := chunkSize
    format := waveId
    subchunk1Id := id
    subchunk1Size := size}

def Fmt.header (f : Fmt) (chunkSize : Int32) : WaveHeader :=
  ⟨riffId, chunkSize, waveId, fmtId, 16, 1, f.numChannels, f.sampleRate, f.byteRate, f.blockAlign,
    16, 0, 0⟩

@[simp] theorem chunkHead_length (id size : Int32) : (chunkHead id size).length = 8 := by
  rw [chunkHead, List.length_append, i32le.bytes_length, i32le.bytes_length]
  rfl

@[simp] theorem riffHead_length (chunkSize : Int32) : (riffHead chunkSize).length = 12 := by
  rw [riffHead, List.length_append, List.length_append, i32le.bytes_length, i32le.bytes_length,
    i32le.bytes_length]
  rfl

@[simp] theorem Fmt.bytes_length (f : Fmt) : f.bytes.length = 16 := by
  simp only [Fmt.bytes, List.length_append, i16le.bytes_length, i32le.bytes_length]
  rfl

variable {s : Stream} {rest : Bytes}

theorem readChunkHeader_before {id size : Int32} (h : s.Before (chunkHead id size ++ rest))
    (id' size' : Int32) : readChunkHeader id' size' s = (id, size, s.skip 8) := by
  rw [chunkHead, List.append_assoc] at h
  have hid := h.readField id'
  have hsize := (h.skip (i32le.bytes_length id)).readField size'
  simp only [readChunkHeader, hid, hsize]
  rfl

/- The three fields in front of the first chunk. -/
theorem riffHead_before {chunkSize : Int32} (h : s.Before (riffHead chunkSize ++ rest)) :
    s.Before (i32le.bytes riffId ++ (i32le.bytes chunkSize ++ (i32le.bytes waveId ++ rest))) ∧
    (s.skip i32le.size).Before (i32le.bytes chunkSize ++ (i32le.bytes waveId ++ rest)) ∧
    ((s.skip i32le.size).skip i32le.size).Before (i32le.bytes waveId ++ rest) ∧
    (((s.skip i32le.size).skip i32le.size).skip i32le.size).Before rest := by
  rw [riffHead, List.append_assoc, List.append_assoc] at h
  have h1 := h.skip (i32le.bytes_length riffId)
  have h2 := h1.skip (i32le.bytes_length chunkSize)
  exact ⟨h, h1, h2, h2.skip (i32le.bytes_length waveId)⟩

/- The junk chunk is skipped by its size, without a pad byte. -/
theorem readRiff_junk {chunkSize id size : Int32} {junk : Bytes} {junkSize : Int32}
    (h : s.Before (riffHead chunkSize ++ (chunkHead junkId junkSize ++ (junk ++
      (chunkHead id size ++ rest))))) (hj : junkSize.toInt = junk.length) :
    readRiff s = .ok (riffHeader chunkSize id size, s.skip (20 + (junk.length + 8))) := by
  obtain ⟨hriff, h1, h2, h3⟩ := riffHead_before h
  have h4 := h3.skip (chunkHead_length junkId junkSize)
  have h5 := h4.skip rfl
  simp only [readRiff, hriff.readField, h1.readField, h2.readField, readChunkHeader_before h3,
    h4.seekCur hj, readChunkHeader_before h5, ne_eq, not_true_eq_false, if_false, if_true]
  simp [riffHeader, Stream.skip, i32le_size, Nat.add_assoc]

theorem readRiff_plain {chunkSize id size : Int32}
    (h : s.Before (riffHead chunkSize ++ (chunkHead id size ++ rest))) (hid : id ≠ junkId) :
    readRiff s = .ok (riffHeader chunkSize id size, s.skip 20) := by
  obtain ⟨hriff, h1, h2, h3⟩ := riffHead_before h
  simp only [readRiff, hriff.readField, h1.readField, h2.readField, readChunkHeader_before h3,
    ne_eq, not_true_eq_false, if_false, if_neg hid]
  simp [riffHeader, Stream.skip, i32le_size, Nat.add_assoc]

/- 16 bits a sample are two bytes. -/
theorem tdiv_bits {x : ℤ} (hx : 0 ≤ x) : (x * 16).tdiv 8 = x * 2 := by
  rw [Int.tdiv_eq_ediv_of_nonneg (by omega)]
  omega

/- Of a PCM format of 16 bits, only the rate and the alignment are left to check. -/
theorem readFmt_fields {f : Fmt} (h : s.Before (f.bytes ++ rest)) (chunkSize : Int32) :
    readFmt (riffHeader chunkSize fmtId 16) s =
      match expectedByteRate (f.header chunkSize) with
      | none => .error .undefined
      | some rate =>
        if f.byteRate.toInt ≠ rate then .error (.refused (.byteRate f.byteRate rate))
        else if f.blockAlign.toInt ≠ expectedBlockAlign (f.header chunkSize) then
          .error (.refused (.blockAlign f.blockAlign (expectedBlockAlign (f.header chunkSize))))
        else .ok (f.header chunkSize, s.skip 16) := by
  have h0 := h
  simp only [Fmt.bytes, List.append_assoc] at h0
  have h1 := h0.skip (i16le.bytes_length 1)
  have h2 := h1.skip (i16le.bytes_length f.numChannels)
  have h3 := h2.skip (i32le.bytes_length f.sampleRate)
  have h4 := h3.skip (i32le.bytes_length f.byteRate)
  have h5 := h4.skip (i16le.bytes_length f.blockAlign)
  simp only [readFmt, riffHeader, WaveHeader.zero, h0.readField, h1.readField, h2.readField,
    h3.readField, h4.readField, h5.readField, ne_eq, not_true_eq_false, if_false, false_and]
  rfl

theorem readFmt_before {f : Fmt} (h : s.Before (f.bytes ++ rest)) (chunkSize : Int32)
    (hrate : expectedByteRate (f.header chunkSize) = some f.byteRate.toInt)
    (halign : f.blockAlign.toInt = expectedBlockAlign (f.header chunkSize)) :
    readFmt (riffHeader chunkSize fmtId 16) s = .ok (f.header chunkSize, s.skip 16) := by
  rw [readFmt_fields h, hrate]
  dsimp only
  rw [if_neg (by simp), if_neg (by simp [halign])]

/- A file that begins with its format. -/
theorem format_plain {f : Fmt} {chunkSize : Int32}
    (h : s.Before (riffHead chunkSize ++ (chunkHead fmtId 16 ++ (f.bytes ++ rest))))
    (hrate : expectedByteRate (f.header chunkSize) = some f.byteRate.toInt)
    (halign : f.blockAlign.toInt = expectedBlockAlign (f.header chunkSize)) :
    readRiff s = .ok (riffHeader chunkSize fmtId 16, s.skip 20) ∧
    readFmt (riffHeader chunkSize fmtId 16) (s.skip 20) = .ok (f.header chunkSize, s.skip 36) ∧
    (s.skip 36).Before rest := by
  have hid : fmtId ≠ junkId := by decide
  have hfmt : (s.skip 20).Before (f.bytes ++ rest) :=
    (h.skip (riffHead_length _)).skip (chunkHead_length _ _)
  exact ⟨readRiff_plain h hid, readFmt_before hfmt chunkSize hrate halign,
    hfmt.skip (Fmt.bytes_length f)⟩

/-! ### From the format to the data -/

theorem seekData_format {t t' : Stream} {h h' : WaveHeader} (hriff : readRiff s = .ok (h, t))
    (hfmt : readFmt h t = .ok (h', t')) (fuel : ℕ) :
    seekData fuel s = (seekToDataChunk fuel (firstChunk t')).map (dataFound h') := by
  simp only [seekData, hriff, hfmt]

theorem firstChunk_before {id size : Int32} (h : s.Before (chunkHead id size ++ rest)) :
    firstChunk s = ⟨id, size, s.skip 8⟩ := by
  simp only [firstChunk, readChunkHeader_before h]

/-! ### The payload -/

theorem split_bytes (sample : Int16) : split sample = i16le.bytes sample := by
  have hbytes : i16le.bytes sample = [UInt8.ofNat sample.toUInt16.toNat,
      UInt8.ofNat (sample.toUInt16.toNat / 256)] := rfl
  have hones : ∀ i < 8, (255#8).getLsbD i = true := by decide
  rw [hbytes, split]
  congr 1
  · apply UInt8.toBitVec_inj.mp
    apply BitVec.eq_of_getLsbD_eq
    intro i hi
    simp [hones i hi]
  · congr 1
    apply UInt8.toBitVec_inj.mp
    apply BitVec.eq_of_getLsbD_eq
    intro i hi
    have hshift : (sample.toUInt16.toNat / 256).testBit i = sample.toBitVec.getLsbD (8 + i) := by
      rw [show 256 = 2 ^ 8 from rfl, Nat.testBit_div_two_pow, Nat.add_comm]
      rfl
    have hright : (UInt8.ofNat (sample.toUInt16.toNat / 256)).toBitVec.getLsbD i =
        sample.toBitVec.getLsbD (8 + i) := by
      rw [UInt8.toBitVec_ofNat', BitVec.getLsbD_ofNat, decide_eq_true hi, Bool.true_and, hshift]
    have hleft : (sample.toBitVec.sshiftRight 8).getLsbD i = sample.toBitVec.getLsbD (8 + i) := by
      rw [BitVec.getLsbD_sshiftRight, if_pos (by omega)]
      simp [show ¬16 ≤ i by omega]
    have hlow := hones i hi
    simp only [hright, ← hleft]
    simp only [UInt16.toBitVec_toUInt8, Int16.toBitVec_toUInt16]
    simp [hlow, hi]

/- Every even number of bytes is a list of samples. -/
theorem exists_array (n : ℕ) (bs : Bytes) (h : bs.length = 2 * n) :
    ∃ samples : List Int16, samples.length = n ∧ i16le.array samples = bs := by
  induction n generalizing bs with
  | zero => exact ⟨[], rfl, (List.eq_nil_of_length_eq_zero h).symm⟩
  | succ n ih =>
    match bs, h with
    | a :: b :: bs, h =>
      rw [List.length_cons, List.length_cons] at h
      obtain ⟨samples, hlen, harray⟩ := ih bs (by omega)
      refine ⟨(u16le.value [a, b]).toInt16 :: samples, by simp [hlen], ?_⟩
      have hpair : i16le.bytes (u16le.value [a, b]).toInt16 = [a, b] := by
        have hi : i16le.bytes (u16le.value [a, b]).toInt16 =
            leBytes 2 (u16le.value [a, b]).toNat := rfl
        rw [hi, u16le_toNat [a, b] rfl]
        exact leBytes_leVal [a, b]
      have hcons : i16le.array ((u16le.value [a, b]).toInt16 :: samples) =
          i16le.bytes (u16le.value [a, b]).toInt16 ++ i16le.array samples := rfl
      rw [hcons, hpair, harray]
      rfl

theorem readData_before {h : WaveHeader} {data : Bytes} (hb : s.Before (data ++ rest))
    (hsize : h.subchunk2Size.toInt = data.length) (heven : data.length % 2 = 0) :
    readData h s = .ok h.sampleRate h.numChannels.toInt8 data := by
  obtain ⟨samples, hlen, harray⟩ := exists_array (data.length / 2) data (by omega)
  have hreq : samplesRequested h = samples.length := by
    rw [samplesRequested, hsize, hlen]
    rfl
  have hcount : bytesRequested h = data.length := hsize
  have hsplit : samples.flatMap split = data := by
    rw [← harray]
    exact List.flatMap_congr fun sample _ => split_bytes sample
  have hvalues : i16le.values samples.length data = samples := by
    have hv := i16le.values_array samples []
    rw [List.append_nil, harray] at hv
    exact hv
  have hroom : ¬2 * samples.length < data.length := by omega
  have hgood : (s.skip data.length).fail = false := hb.good
  simp only [readData, hreq, hcount, Int.toNat_natCast, hb.read rfl, hgood, hvalues, hsplit,
    if_neg hroom, not_lt.mpr (Int.natCast_nonneg _), if_false, Bool.false_eq_true]

end TypegoSdk.Wav
