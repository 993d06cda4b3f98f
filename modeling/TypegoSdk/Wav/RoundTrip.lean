import TypegoSdk.Wav.Header

/-!
# What WriteWave writes, ReadWaveImpl reads

Both compute sizes, byte rate and block alignment for themselves. Within the
range of `int` they agree.
-/

namespace TypegoSdk.Wav
open TypegoSdk.Lib

/- The format of a file with `channels` channels. -/
def writtenFmt (samplingRate channels : ℤ) : Fmt where
  numChannels := .ofInt channels
  sampleRate := .ofInt samplingRate
  byteRate := .ofInt ((samplingRate * channels * 16).tdiv 8)
  blockAlign := .ofInt ((channels * 16).tdiv 8)

/- The header in the parts that the reader takes. -/
def writtenParts (samplingRate n channels : ℤ) : Bytes :=
  riffHead (.ofInt (36 + (n * channels * 16).tdiv 8)) ++ (chunkHead fmtId 16 ++
    ((writtenFmt samplingRate channels).bytes ++
      chunkHead dataId (.ofInt ((n * channels * 16).tdiv 8))))

section InRange
variable {samplingRate n channels : ℤ} (hr : 0 ≤ samplingRate) (hn : 0 ≤ n)
  (hc : 1 ≤ channels) (hc' : channels ≤ 127) (hsize : 16 * (n * channels) + 36 < 2 ^ 31)
  (hrate : 16 * (samplingRate * channels) < 2 ^ 31)
include hr hn hc hc' hsize hrate

theorem writtenHeader_parts : ∃ header, writtenHeader samplingRate n channels = some header ∧
    header.bytes = writtenParts samplingRate n channels := by
  have hx : 0 ≤ samplingRate * channels := Int.mul_nonneg hr (by omega)
  have hy : 0 ≤ n * channels := Int.mul_nonneg hn (by omega)
  have hdiv := tdiv_bits hy
  have hfits : InInt (samplingRate * channels) ∧ InInt (samplingRate * channels * 16) ∧
      InInt (n * channels) ∧ InInt (n * channels * 16) ∧
        InInt (36 + (n * channels * 16).tdiv 8) := by
    simp only [InInt, hdiv]
    omega
  refine ⟨_, if_pos hfits, ?_⟩
  simp only [WaveHeader.bytes, writtenParts, riffHead, chunkHead, Fmt.bytes, writtenFmt,
    List.append_assoc]

omit hn hsize in
theorem writtenFmt_rate (chunkSize : Int32) :
    expectedByteRate ((writtenFmt samplingRate channels).header chunkSize) =
      some (writtenFmt samplingRate channels).byteRate.toInt := by
  have hx : 0 ≤ samplingRate * channels := Int.mul_nonneg hr (by omega)
  have hle : samplingRate ≤ samplingRate * channels := le_mul_of_one_le_right hr hc
  have hs : (Int32.ofInt samplingRate).toInt = samplingRate :=
    Int32.toInt_ofInt_of_le (by omega) (by omega)
  have hch : (Int16.ofInt channels).toInt = channels :=
    Int16.toInt_ofInt_of_le (by omega) (by omega)
  have hdiv := tdiv_bits hx
  have hb : (Int32.ofInt (samplingRate * channels * 2)).toInt = samplingRate * channels * 2 :=
    Int32.toInt_ofInt_of_le (by omega) (by omega)
  have hfits : InInt (samplingRate * channels) ∧ InInt (samplingRate * channels * 16) := by
    simp only [InInt]
    omega
  have hbits : (16 : Int16).toInt = 16 := rfl
  simp only [expectedByteRate, Fmt.header, writtenFmt, hs, hch, hbits, if_pos hfits, hdiv, hb]

omit hr hn hsize hrate in
theorem writtenFmt_align (chunkSize : Int32) :
    (writtenFmt samplingRate channels).blockAlign.toInt =
      expectedBlockAlign ((writtenFmt samplingRate channels).header chunkSize) := by
  have hch : (Int16.ofInt channels).toInt = channels :=
    Int16.toInt_ofInt_of_le (by omega) (by omega)
  have hdiv := tdiv_bits (show 0 ≤ channels by omega)
  have hb : (Int16.ofInt (channels * 2)).toInt = channels * 2 :=
    Int16.toInt_ofInt_of_le (by omega) (by omega)
  have hbits : (16 : Int16).toInt = 16 := rfl
  simp only [expectedBlockAlign, Fmt.header, writtenFmt, hch, hbits, hdiv, hb]

/- The reader on the written header, with the payload behind it. -/
theorem readWaveImpl_parts (data : Bytes) (hdata : (data.length : ℤ) = n * channels * 2)
    (fuel : ℕ) :
    readWaveImpl fuel (.ofFile (writtenParts samplingRate n channels ++ data)) =
      some (.ok (.ofInt samplingRate) (.ofInt channels) data) := by
  have hfile := Stream.before_ofFile (writtenParts samplingRate n channels ++ data)
  generalize Stream.ofFile (writtenParts samplingRate n channels ++ data) = s at hfile ⊢
  have hy : 0 ≤ n * channels := Int.mul_nonneg hn (by omega)
  have hdiv := tdiv_bits hy
  simp only [writtenParts, List.append_assoc] at hfile
  obtain ⟨hriff, hfmt, h2⟩ := format_plain hfile (writtenFmt_rate hr hc hc' hrate _)
    (writtenFmt_align hc hc' _)
  have hfirst := firstChunk_before h2
  have h3 := h2.skip (chunkHead_length _ _)
  have hloop : seekToDataChunk fuel (firstChunk (s.skip 36)) = some (firstChunk (s.skip 36)) := by
    rw [seekToDataChunk, whileLoop_stop, Option.map_some]
    rw [hfirst, seeking, decide_eq_false (by simp), Bool.and_false]
  have hsize2 : (Int32.ofInt ((n * channels * 16).tdiv 8)).toInt = data.length := by
    rw [hdiv, hdata]
    exact Int32.toInt_ofInt_of_le (by omega) (by omega)
  have hrest := h3
  rw [← List.append_nil data] at hrest
  rw [readWaveImpl, seekData_format hriff hfmt, hloop, Option.map_some, Option.map_some, hfirst,
    dataFound, if_neg (by rw [h3.good]; simp)]
  dsimp only
  rw [readData_before (h := {(writtenFmt samplingRate channels).header _ with
    subchunk2Id := dataId, subchunk2Size := .ofInt ((n * channels * 16).tdiv 8)}) hrest hsize2
    (by omega)]
  simp [Fmt.header, writtenFmt]

end InRange

/-- What `WriteWave` writes, `ReadWaveImpl` accepts, with the sampling rate, the
channels and the bytes of the samples. -/
theorem readWave_writeWave (samplingRate n : Int32) (numChannels : UInt8) (samples : List Int16)
    (room : ℕ) (hr : 0 ≤ samplingRate.toInt) (hn : 0 ≤ n.toInt) (hc : 1 ≤ numChannels.toNat)
    (hc' : numChannels.toNat ≤ 127) (hlen : (samples.length : ℤ) = n.toInt * numChannels.toNat)
    (hsize : 16 * (n.toInt * numChannels.toNat) + 36 < 2 ^ 31)
    (hrate : 16 * (samplingRate.toInt * numChannels.toNat) < 2 ^ 31)
    (hroom : 44 + 2 * samples.length ≤ room) :
    ∃ (file : Bytes) (channelCount : Int8),
      writeWave (some room) samplingRate samples n numChannels = .done true (some file) ∧
      channelCount.toInt = numChannels.toNat ∧
      ∀ fuel, readWaveImpl fuel (.ofFile file) =
        some (.ok samplingRate channelCount (i16le.array samples)) := by
  have hch : (1 : ℤ) ≤ numChannels.toNat := by omega
  have hch' : (numChannels.toNat : ℤ) ≤ 127 := by omega
  obtain ⟨header, hheader, hparts⟩ := writtenHeader_parts hr hn hch hch' hsize hrate
  have hcount : (n.toInt * numChannels.toNat).toNat = samples.length := by omega
  have hall : samples.take samples.length = samples := List.take_length
  have harray : (i16le.array samples).length = samples.length * 2 := i16le.array_length samples
  have hbytes : (header.bytes ++ i16le.array samples).length ≤ room := by
    have hhead : (writtenParts samplingRate.toInt n.toInt numChannels.toNat).length = 44 := by
      simp [writtenParts]
    rw [List.length_append, hparts, hhead, harray]
    omega
  refine ⟨header.bytes ++ i16le.array samples, .ofInt numChannels.toNat, ?_, ?_, ?_⟩
  · simp only [writeWave, hheader, hcount, hall, hlen, lt_irrefl, if_false, hbytes, decide_true,
      List.take_of_length_le hbytes, not_lt.mpr (by omega : (0 : ℤ) ≤ n.toInt * numChannels.toNat)]
  · exact Int8.toInt_ofInt_of_le (by omega) (by omega)
  · intro fuel
    have hread := readWaveImpl_parts hr hn hch hch' hsize hrate (i16le.array samples)
      (by rw [harray]; push_cast; omega) fuel
    rw [Int32.ofInt_toInt] at hread
    rw [hparts]
    exact hread

/- Two stereo samples. -/
theorem readWave_writeWave_stereo : ∃ (file : Bytes) (channelCount : Int8),
    writeWave (some 48) 8000 [1, -1] 1 2 = .done true (some file) ∧ channelCount.toInt = 2 ∧
    ∀ fuel, readWaveImpl fuel (.ofFile file) = some (.ok 8000 channelCount [1, 0, 255, 255]) :=
  readWave_writeWave 8000 1 2 [1, -1] 48 (by decide) (by decide) (by decide) (by decide)
    (by decide) (by decide) (by decide) (by decide)

end TypegoSdk.Wav
