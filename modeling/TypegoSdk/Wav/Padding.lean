import TypegoSdk.Wav.Header

/-!
# Chunks of odd size

RIFF puts a pad byte behind a chunk of odd size, and the size does not count
it. The reader seeks by the size alone, both behind the junk chunk and in
`SeekToDataChunk`. So it reads every file of a given shape exactly when no size
in front of the data is odd.
-/

namespace TypegoSdk.Wav
open TypegoSdk.Lib

/-! ### Well-formed files -/

def padded (payload : Bytes) (pad : UInt8) : Bytes :=
  if payload.length % 2 = 1 then payload ++ [pad] else payload

def chunkBytes (id : Int32) (payload : Bytes) (pad : UInt8) : Bytes :=
  chunkHead id (.ofNat payload.length) ++ padded payload pad

structure Chunk where
  id : Int32
  payload : Bytes
  pad : UInt8
  notData : id ≠ dataId

def Chunk.bytes (c : Chunk) : Bytes := chunkBytes c.id c.payload c.pad

/-- A PCM format of 16 bits per sample, whose byte rate and block align follow
from the other fields and fit into their own. -/
structure PcmFmt where
  numChannels : ℕ
  sampleRate : ℕ
  sampleRate_fits : sampleRate < 2 ^ 32
  byteRate_fits : sampleRate * numChannels * 2 < 2 ^ 32
  blockAlign_fits : numChannels * 2 < 2 ^ 16

def PcmFmt.fields (p : PcmFmt) : Fmt :=
  ⟨.ofNat p.numChannels, .ofNat p.sampleRate, .ofNat (p.sampleRate * p.numChannels * 2),
    .ofNat (p.numChannels * 2)⟩

def waveBody (junk : Option (Bytes × UInt8)) (fmt : PcmFmt) (chunks : List Chunk) (data : Bytes) :
    Bytes :=
  (junk.elim [] fun j => chunkBytes junkId j.1 j.2) ++ (chunkHead fmtId 16 ++ (fmt.fields.bytes ++
    (chunks.flatMap Chunk.bytes ++ (chunkHead dataId (.ofNat data.length) ++ data))))

structure WaveFile where
  junk : Option (Bytes × UInt8)
  fmt : PcmFmt
  chunks : List Chunk
  data : Bytes
  even : data.length % 2 = 0
  fits : 4 + (waveBody junk fmt chunks data).length < 2 ^ 31

namespace WaveFile

def body (f : WaveFile) : Bytes := waveBody f.junk f.fmt f.chunks f.data

def bytes (f : WaveFile) : Bytes := riffHead (.ofNat (4 + f.body.length)) ++ f.body

def Accepted (f : WaveFile) : Prop :=
  ∃ fuel samplingRate channelCount,
    readWaveImpl fuel (.ofFile f.bytes) = some (.ok samplingRate channelCount f.data)

/- The same format and sizes; identifiers, payloads, pad bytes and data may differ. -/
def SameShape (g f : WaveFile) : Prop :=
  g.fmt = f.fmt ∧ g.junk.map (·.1.length) = f.junk.map (·.1.length) ∧
    g.chunks.map (·.payload.length) = f.chunks.map (·.payload.length)

def EvenSizes (f : WaveFile) : Prop :=
  (∀ j ∈ f.junk, j.1.length % 2 = 0) ∧ ∀ c ∈ f.chunks, c.payload.length % 2 = 0

end WaveFile

/- The reader's `int` arithmetic and its signed fields take the format. -/
def PcmFmt.InRange (p : PcmFmt) : Prop :=
  16 * (p.sampleRate * p.numChannels) < 2 ^ 31 ∧ p.numChannels < 2 ^ 14

theorem padded_even {payload : Bytes} (h : payload.length % 2 = 0) (pad : UInt8) :
    padded payload pad = payload := by
  rw [padded, if_neg (by omega)]

theorem padded_odd {payload : Bytes} (h : payload.length % 2 = 1) (pad : UInt8) :
    padded payload pad = payload ++ [pad] := by
  rw [padded, if_pos h]

theorem padded_length (payload : Bytes) (pad : UInt8) :
    (padded payload pad).length = payload.length + payload.length % 2 := by
  unfold padded
  split
  · rw [List.length_append, List.length_singleton]
    omega
  · omega

theorem chunk_length (c : Chunk) :
    c.bytes.length = 8 + (c.payload.length + c.payload.length % 2) := by
  rw [Chunk.bytes, chunkBytes, List.length_append, chunkHead_length, padded_length]

/- The length of the chunks depends on their sizes only. -/
theorem chunks_length {cs ds : List Chunk}
    (h : cs.map (·.payload.length) = ds.map (·.payload.length)) :
    (cs.flatMap Chunk.bytes).length = (ds.flatMap Chunk.bytes).length := by
  have hsum : ∀ es : List Chunk, (es.flatMap Chunk.bytes).length =
      ((es.map (·.payload.length)).map fun n => 8 + (n + n % 2)).sum := by
    intro es
    rw [List.length_flatMap, List.map_map]
    exact congrArg List.sum (List.map_congr_left fun c _ => chunk_length c)
  rw [hsum, hsum, h]

/-! ### The format -/

theorem channels_toInt (p : PcmFmt) : (Int16.ofNat p.numChannels).toInt = p.numChannels := by
  have hfits := p.blockAlign_fits
  exact Int16.toInt_ofNat_of_lt (by omega)

theorem rate_iff (p : PcmFmt) (chunkSize : Int32) :
    expectedByteRate (p.fields.header chunkSize) = some p.fields.byteRate.toInt ↔
      16 * (p.sampleRate * p.numChannels) < 2 ^ 31 := by
  have hbits : (16 : Int16).toInt = 16 := rfl
  -- a sample rate that is negative as an `int` leaves no room for a channel
  have hx : (Int32.ofNat p.sampleRate).toInt * (Int16.ofNat p.numChannels).toInt =
      ((p.sampleRate * p.numChannels : ℕ) : ℤ) := by
    rw [channels_toInt, Int.natCast_mul]
    rcases Nat.eq_zero_or_pos p.numChannels with hz | hpos
    · rw [hz]
      simp
    · have hle := Nat.le_mul_of_pos_right p.sampleRate hpos
      have hrate := p.byteRate_fits
      rw [Int32.toInt_ofNat_of_lt (by omega)]
  simp only [expectedByteRate, Fmt.header, PcmFmt.fields, hx, hbits, InInt]
  constructor
  · intro h
    split at h
    · rename_i hin
      omega
    · cases h
  · intro h
    rw [if_pos (by omega), Int32.toInt_ofNat_of_lt (by omega),
      Int.tdiv_eq_ediv_of_nonneg (by omega)]
    congr 1
    omega

theorem align_iff (p : PcmFmt) (chunkSize : Int32) :
    p.fields.blockAlign.toInt = expectedBlockAlign (p.fields.header chunkSize) ↔
      p.numChannels < 2 ^ 14 := by
  have hfits := p.blockAlign_fits
  have hbits : (16 : Int16).toInt = 16 := rfl
  have hdiv := tdiv_bits (Int.natCast_nonneg p.numChannels)
  have hsize : Int16.size = 2 ^ 16 := rfl
  simp only [expectedBlockAlign, Fmt.header, PcmFmt.fields, channels_toInt, hbits, hdiv]
  rw [Int16.toInt_ofNat', Int.bmod, hsize]
  split
  · omega
  · omega

variable {s : Stream} {rest : Bytes}

theorem readFmt_error {f : Fmt} (h : s.Before (f.bytes ++ rest)) (chunkSize : Int32)
    (hbad : ¬(expectedByteRate (f.header chunkSize) = some f.byteRate.toInt ∧
      f.blockAlign.toInt = expectedBlockAlign (f.header chunkSize))) :
    ∃ o, readFmt (riffHeader chunkSize fmtId 16) s = .error o ∧ ∀ r c a, o ≠ .ok r c a := by
  rw [readFmt_fields h]
  split
  · exact ⟨.undefined, rfl, by simp⟩
  · rename_i rate hrate
    split
    · exact ⟨_, rfl, by simp⟩
    · rename_i hsame
      split
      · exact ⟨_, rfl, by simp⟩
      · rename_i halign
        exact (hbad ⟨by rw [hrate, not_not.mp hsame], not_not.mp halign⟩).elim

/-! ### Headers that are read one byte early -/

/- A pad byte in front of a chunk header moves each field by one byte. -/
theorem chunkHead_shifted (pad : UInt8) (id size : Int32) (rest : Bytes) :
    ∃ id' size' last, pad :: (chunkHead id size ++ rest) = chunkHead id' size' ++ last :: rest ∧
      i32le.bytes id' = pad :: (i32le.bytes id).take 3 ∧
      i32le.bytes size' = (i32le.bytes id).drop 3 ++ (i32le.bytes size).take 3 := by
  have hid : (i32le.bytes id).length = 4 := i32le.bytes_length id
  have hsize : (i32le.bytes size).length = 4 := i32le.bytes_length size
  have hlast : ∃ last, (i32le.bytes size).drop 3 = [last] := by
    rw [← List.length_eq_one_iff, List.length_drop, hsize]
  obtain ⟨last, hlast⟩ := hlast
  have h1 := i32le_bytes_value (pad :: (i32le.bytes id).take 3) (by simp [hid])
  have h2 := i32le_bytes_value ((i32le.bytes id).drop 3 ++ (i32le.bytes size).take 3)
    (by simp [hid, hsize])
  refine ⟨_, _, last, ?_, h1, h2⟩
  have hid' : (i32le.bytes id).take 3 ++ (i32le.bytes id).drop 3 = i32le.bytes id :=
    List.take_append_drop 3 _
  have hsize' : (i32le.bytes size).take 3 ++ [last] = i32le.bytes size := by
    rw [← hlast, List.take_append_drop]
  rw [chunkHead, chunkHead, h1, h2]
  calc pad :: (i32le.bytes id ++ i32le.bytes size ++ rest)
      = pad :: ((i32le.bytes id).take 3 ++ (i32le.bytes id).drop 3 ++
          ((i32le.bytes size).take 3 ++ [last]) ++ rest) := by rw [hid', hsize']
    _ = _ := by simp only [List.cons_append, List.append_assoc, List.nil_append]

theorem shifted_ne {id id' : Int32} {pad : UInt8}
    (h : i32le.bytes id' = pad :: (i32le.bytes id).take 3)
    (hne : (i32le.bytes id).getD 0 0 ≠ (i32le.bytes id).getD 1 0) : id' ≠ id := by
  rintro rfl
  generalize i32le.bytes id' = bs at h hne
  cases bs with
  | nil => cases h
  | cons b bs =>
    rw [List.take_succ_cons] at h
    have hbs : bs = b :: bs.take 2 := (List.cons.inj h).2
    apply hne
    rw [hbs]
    rfl

theorem exists_chunkHead (bs : Bytes) (h : 8 ≤ bs.length) :
    ∃ id size rest, bs = chunkHead id size ++ rest := by
  refine ⟨i32le.value (bs.take 4), i32le.value ((bs.drop 4).take 4), bs.drop 8, ?_⟩
  have h1 : (bs.take 4).length = 4 := by
    rw [List.length_take]
    omega
  have h2 : ((bs.drop 4).take 4).length = 4 := by
    rw [List.length_take, List.length_drop]
    omega
  have hdrop : bs.drop 8 = (bs.drop 4).drop 4 := by rw [List.drop_drop]
  rw [chunkHead, i32le_bytes_value _ h1, i32le_bytes_value _ h2, List.append_assoc, hdrop,
    List.take_append_drop, List.take_append_drop]

/-! ### The loop -/

def SeeksTo (s t : Seek) : Prop := ∃ fuel, seekToDataChunk fuel s = some t

theorem seeksTo_stop {s t : Seek} (h : seeking s = false) : SeeksTo s t ↔ t = s := by
  simp only [SeeksTo, seekToDataChunk, whileLoop_stop h, Option.map_some, Option.some_inj,
    exists_const]
  exact eq_comm

theorem seeksTo_round {s t : Seek} (h : seeking s = true) :
    SeeksTo s t ↔ SeeksTo (nextChunk s) t := by
  have hsucc : ∀ fuel, seekToDataChunk (fuel + 1) s = seekToDataChunk fuel (nextChunk s) := by
    intro fuel
    rw [seekToDataChunk, whileLoop_round h, Option.map_map]
    rfl
  constructor
  · rintro ⟨fuel, hfuel⟩
    cases fuel with
    | zero => simp [seekToDataChunk, whileLoop, h] at hfuel
    | succ fuel => exact ⟨fuel, by rw [← hsucc, hfuel]⟩
  · rintro ⟨fuel, hfuel⟩
    exact ⟨fuel + 1, by rw [hsucc, hfuel]⟩

theorem seeking_chunk {id size : Int32} (hs : s.fail = false) (hid : id ≠ dataId) :
    seeking ⟨id, size, s⟩ = true := by
  simp [seeking, hs, hid]

/- From a chunk header the loop goes to what lies behind the payload. -/
theorem nextChunk_before {payload : Bytes} (h : s.Before (payload ++ rest)) (hr : 8 ≤ rest.length)
    {id size : Int32} (hs : size.toInt = payload.length) :
    nextChunk ⟨id, size, s⟩ = firstChunk (s.skip payload.length) := by
  obtain ⟨id', size', rest', rfl⟩ := exists_chunkHead rest hr
  have hnext := h.skip rfl
  simp only [nextChunk, h.seekCur hs, firstChunk, readChunkHeader_before hnext]

theorem seeksTo_chunk {c : Chunk} (hc : c.payload.length < 2 ^ 31)
    (h : s.Before (chunkHead c.id (.ofNat c.payload.length) ++ (c.payload ++ rest)))
    (hr : 8 ≤ rest.length) :
    ∃ u, u.Before rest ∧ ∀ t, SeeksTo (firstChunk s) t ↔ SeeksTo (firstChunk u) t := by
  have hpayload := h.skip (chunkHead_length _ _)
  refine ⟨(s.skip 8).skip c.payload.length, hpayload.skip rfl, fun t => ?_⟩
  rw [firstChunk_before h, seeksTo_round (seeking_chunk hpayload.good c.notData),
    nextChunk_before hpayload hr (Int32.toInt_ofNat_of_lt hc)]

theorem seeksTo_even (cs : List Chunk) (hcs : ∀ c ∈ cs, c.payload.length % 2 = 0)
    (hfits : (cs.flatMap Chunk.bytes).length < 2 ^ 31)
    (h : s.Before (cs.flatMap Chunk.bytes ++ rest)) (hr : 8 ≤ rest.length) :
    ∃ u, u.Before rest ∧ ∀ t, SeeksTo (firstChunk s) t ↔ SeeksTo (firstChunk u) t := by
  induction cs generalizing s with
  | nil => exact ⟨s, h, fun t => Iff.rfl⟩
  | cons c cs ih =>
    rw [List.flatMap_cons, List.length_append, chunk_length] at hfits
    rw [List.flatMap_cons, Chunk.bytes, chunkBytes, padded_even (hcs c List.mem_cons_self),
      List.append_assoc, List.append_assoc] at h
    have hlong : 8 ≤ (cs.flatMap Chunk.bytes ++ rest).length := by
      rw [List.length_append]
      omega
    obtain ⟨u, hu, hstep⟩ := seeksTo_chunk (by omega) h hlong
    obtain ⟨v, hv, hrun⟩ := ih (fun d hd => hcs d (List.mem_cons_of_mem c hd)) (by omega) hu
    exact ⟨v, hv, fun t => (hstep t).trans (hrun t)⟩

/-! ### The payload -/

/- What is behind `SeekToDataChunk`. -/
def conclude (h : WaveHeader) (t : Seek) : Outcome :=
  match dataFound h t with
  | .error o => o
  | .ok (h, is) => readData h is

theorem reads_iff {t t' : Stream} {h h' : WaveHeader} (hriff : readRiff s = .ok (h, t))
    (hfmt : readFmt h t = .ok (h', t')) (o : Outcome) :
    (∃ fuel, readWaveImpl fuel s = some o) ↔ ∃ u, SeeksTo (firstChunk t') u ∧ conclude h' u = o := by
  simp only [readWaveImpl, seekData_format hriff hfmt, Option.map_map, Option.map_eq_some_iff,
    SeeksTo]
  constructor
  · rintro ⟨fuel, u, hu, ho⟩
    exact ⟨u, ⟨fuel, hu⟩, ho⟩
  · rintro ⟨u, ⟨fuel, hu⟩, ho⟩
    exact ⟨fuel, u, hu, ho⟩

/- An odd count does not fit the buffer: the read overruns it or fails. -/
theorem readData_odd {h : WaveHeader} (hodd : h.subchunk2Size.toInt % 2 = 1) (is : Stream) :
    ∀ r c a, readData h is ≠ .ok r c a := by
  intro r c a
  unfold readData
  split
  · simp
  · rename_i hneg
    dsimp only
    split
    · simp
    · rename_i hpos
      have hbytes : 0 ≤ h.subchunk2Size.toInt := Int.not_lt.mp hpos
      have hsamples : samplesRequested h = h.subchunk2Size.toInt / 2 :=
        Int.tdiv_eq_ediv_of_nonneg hbytes
      split
      · simp
      · rename_i hroom
        split
        · simp
        · rename_i hgood
          have hall := Stream.read_complete (Bool.eq_false_iff.mpr hgood)
          rw [hall, hsamples, bytesRequested] at hroom
          omega

theorem conclude_failed {t : Seek} (hfail : t.is.fail = true) (h : WaveHeader) :
    ∀ r c a, conclude h t ≠ .ok r c a := by
  simp [conclude, dataFound, hfail]

theorem conclude_odd {t : Seek} (hodd : t.subchunk2Size.toInt % 2 = 1) (h : WaveHeader) :
    ∀ r c a, conclude h t ≠ .ok r c a := by
  unfold conclude dataFound
  split
  · rename_i o ho
    split at ho
    · cases ho
      simp
    · cases ho
  · rename_i h' is ho
    split at ho
    · cases ho
    · cases ho
      exact readData_odd hodd _

/-! ### Up to the chunks -/

namespace WaveFile

/- What follows the format. -/
def tail (f : WaveFile) : Bytes :=
  f.chunks.flatMap Chunk.bytes ++ (chunkHead dataId (.ofNat f.data.length) ++ f.data)

theorem tail_length (f : WaveFile) :
    f.tail.length = (f.chunks.flatMap Chunk.bytes).length + (8 + f.data.length) := by
  rw [tail, List.length_append, List.length_append, chunkHead_length]

theorem tail_fits (f : WaveFile) : f.tail.length < 2 ^ 31 := by
  have hfits := f.fits
  simp only [waveBody, List.length_append, chunkHead_length] at hfits
  rw [tail_length]
  omega

theorem before_plain {f : WaveFile} (hj : f.junk = none) : (Stream.ofFile f.bytes).Before
    (riffHead (.ofNat (4 + f.body.length)) ++ (chunkHead fmtId 16 ++
      (f.fmt.fields.bytes ++ f.tail))) := by
  refine ⟨rfl, ?_⟩
  have hbody : f.body = chunkHead fmtId 16 ++ (f.fmt.fields.bytes ++ f.tail) := by
    rw [body, waveBody, hj]
    rfl
  rw [← hbody]
  rfl

theorem before_junk {f : WaveFile} {junk : Bytes} {pad : UInt8} (hj : f.junk = some (junk, pad)) :
    (Stream.ofFile f.bytes).Before (riffHead (.ofNat (4 + f.body.length)) ++
      (chunkHead junkId (.ofNat junk.length) ++ (padded junk pad ++ (chunkHead fmtId 16 ++
        (f.fmt.fields.bytes ++ f.tail))))) := by
  refine ⟨rfl, ?_⟩
  have hbody : f.body = chunkHead junkId (.ofNat junk.length) ++ (padded junk pad ++
      (chunkHead fmtId 16 ++ (f.fmt.fields.bytes ++ f.tail))) := by
    rw [body, waveBody, hj]
    simp only [Option.elim_some, chunkBytes, List.append_assoc, tail]
  rw [← hbody]
  rfl

theorem junk_fits {f : WaveFile} {junk : Bytes} {pad : UInt8} (hj : f.junk = some (junk, pad)) :
    junk.length < 2 ^ 31 := by
  have hfits := f.fits
  rw [hj] at hfits
  simp only [waveBody, Option.elim_some, chunkBytes, List.length_append, padded_length] at hfits
  omega

theorem riff_read {f : WaveFile} (heven : ∀ j ∈ f.junk, j.1.length % 2 = 0) :
    ∃ t, readRiff (.ofFile f.bytes) =
        .ok (riffHeader (.ofNat (4 + f.body.length)) fmtId 16, t) ∧
      t.Before (f.fmt.fields.bytes ++ f.tail) := by
  cases hj : f.junk with
  | none =>
    have hb := before_plain hj
    have hid : fmtId ≠ junkId := by decide
    exact ⟨_, readRiff_plain hb hid, (hb.skip (riffHead_length _)).skip (chunkHead_length _ _)⟩
  | some j =>
    obtain ⟨junk, pad⟩ := j
    have hb := before_junk hj
    rw [padded_even (heven _ hj)] at hb
    have hsize : (Int32.ofNat junk.length).toInt = junk.length :=
      Int32.toInt_ofNat_of_lt (junk_fits hj)
    have h1 := (hb.skip (riffHead_length _)).skip (chunkHead_length _ _)
    have h2 := (h1.skip rfl).skip (chunkHead_length _ _)
    have hskip : ((((Stream.ofFile f.bytes).skip 12).skip 8).skip junk.length).skip 8 =
        (Stream.ofFile f.bytes).skip (20 + (junk.length + 8)) := by
      simp only [Stream.skip, Nat.add_assoc, Nat.reduceAdd]
    rw [hskip] at h2
    exact ⟨_, readRiff_junk hb hsize, h2⟩

theorem not_accepted_junk {f : WaveFile} {junk : Bytes} {pad : UInt8}
    (hj : f.junk = some (junk, pad)) (hodd : junk.length % 2 = 1) : ¬f.Accepted := by
  rintro ⟨fuel, rate, count, hread⟩
  have hb := before_junk hj
  rw [padded_odd hodd, List.append_assoc, List.singleton_append] at hb
  obtain ⟨id, size, last, hshift, hid, -⟩ :=
    chunkHead_shifted pad fmtId 16 (f.fmt.fields.bytes ++ f.tail)
  rw [hshift] at hb
  have hsize : (Int32.ofNat junk.length).toInt = junk.length :=
    Int32.toInt_ofNat_of_lt (junk_fits hj)
  have hriff := readRiff_junk hb hsize
  have hne : id ≠ fmtId := shifted_ne hid (by decide)
  simp [readWaveImpl, seekData, hriff, readFmt, riffHeader, hne] at hread

theorem not_accepted_fmt {f : WaveFile} (heven : ∀ j ∈ f.junk, j.1.length % 2 = 0)
    (hfmt : ¬f.fmt.InRange) : ¬f.Accepted := by
  rintro ⟨fuel, rate, count, hread⟩
  obtain ⟨t, hriff, ht⟩ := riff_read heven
  obtain ⟨o, ho, hno⟩ := readFmt_error ht (.ofNat (4 + f.body.length)) (by
    rw [rate_iff, align_iff]
    exact hfmt)
  rw [readWaveImpl, seekData, hriff] at hread
  simp only [ho, Option.map_some, Option.some_inj] at hread
  exact hno _ _ _ hread

/- The reader comes to the first chunk; from there it is the loop. -/
theorem format_read {f : WaveFile} (heven : ∀ j ∈ f.junk, j.1.length % 2 = 0)
    (hfmt : f.fmt.InRange) :
    ∃ h u, u.Before f.tail ∧ ∀ o, (∃ fuel, readWaveImpl fuel (.ofFile f.bytes) = some o) ↔
      ∃ t, SeeksTo (firstChunk u) t ∧ conclude h t = o := by
  obtain ⟨t, hriff, ht⟩ := riff_read heven
  have hread := readFmt_before ht (.ofNat (4 + f.body.length)) ((rate_iff _ _).mpr hfmt.1)
    ((align_iff _ _).mpr hfmt.2)
  exact ⟨_, _, ht.skip (Fmt.bytes_length _), fun o => reads_iff hriff hread o⟩

/-! ### Files of one shape -/

theorem accepted_of_even {f : WaveFile} (heven : f.EvenSizes) (hfmt : f.fmt.InRange) :
    f.Accepted := by
  obtain ⟨h, u, hu, hreads⟩ := format_read heven.1 hfmt
  have hfits := f.tail_fits
  rw [tail_length] at hfits
  have hlong : 8 ≤ (chunkHead dataId (.ofNat f.data.length) ++ f.data).length := by
    rw [List.length_append, chunkHead_length]
    omega
  obtain ⟨v, hv, hseek⟩ := seeksTo_even f.chunks heven.2 (by omega) hu hlong
  have hfirst := firstChunk_before hv
  have hstop : seeking (firstChunk v) = false := by simp [seeking, hfirst]
  have hdata : (v.skip 8).Before (f.data ++ []) := by
    rw [List.append_nil]
    exact hv.skip (chunkHead_length _ _)
  have hgood : ¬(v.skip 8).fail = true := by simp [hdata.good]
  have hsize : (Int32.ofNat f.data.length).toInt = f.data.length :=
    Int32.toInt_ofNat_of_lt (by omega)
  have hend : conclude h (firstChunk v) = .ok h.sampleRate h.numChannels.toInt8 f.data := by
    rw [conclude, hfirst, dataFound, if_neg hgood]
    exact readData_before hdata hsize f.even
  obtain ⟨fuel, hfuel⟩ := (hreads _).mpr
    ⟨firstChunk v, (hseek _).mpr ((seeksTo_stop hstop).mpr rfl), hend⟩
  exact ⟨fuel, _, _, hfuel⟩

/- The chunks up to the first of odd size; the reader lands on its pad byte. -/
theorem lands_on_pad {f : WaveFile} {es ds : List Chunk} {c : Chunk}
    (hchunks : f.chunks = es ++ c :: ds) (hes : ∀ d ∈ es, d.payload.length % 2 = 0)
    (hc : c.payload.length % 2 = 1) (hf : f.Accepted) (hjunk : ∀ j ∈ f.junk, j.1.length % 2 = 0)
    (hfmt : f.fmt.InRange) :
    ∃ h u t rate count, u.Before (c.pad :: (ds.flatMap Chunk.bytes ++
        (chunkHead dataId (.ofNat f.data.length) ++ f.data))) ∧
      SeeksTo (firstChunk u) t ∧ conclude h t = .ok rate count f.data := by
  obtain ⟨h, u, hu, hreads⟩ := format_read hjunk hfmt
  obtain ⟨fuel, rate, count, hread⟩ := hf
  obtain ⟨t, ht, hend⟩ := (hreads _).mp ⟨fuel, hread⟩
  have hfits := f.tail_fits
  rw [tail_length, hchunks, List.flatMap_append, List.length_append, List.flatMap_cons,
    List.length_append, chunk_length] at hfits
  rw [tail, hchunks, List.flatMap_append, List.flatMap_cons, List.append_assoc,
    List.append_assoc] at hu
  obtain ⟨v, hv, hrun⟩ := seeksTo_even es hes (by omega) hu (by
    rw [List.length_append, chunk_length]
    omega)
  rw [Chunk.bytes, chunkBytes, padded_odd hc, List.append_assoc, List.append_assoc,
    List.singleton_append] at hv
  obtain ⟨w, hw, hstep⟩ := seeksTo_chunk (by omega) hv (by
    simp only [List.length_cons, List.length_append, chunkHead_length]
    omega)
  exact ⟨h, w, t, rate, count, hw, (hstep t).mp ((hrun t).mp ht), hend⟩

end WaveFile

theorem nextChunk_past {id size : Int32} (h : s.Before rest) (hsize : rest.length ≤ size.toInt) :
    (nextChunk ⟨id, size, s⟩).is.fail = true := by
  have hle : (0 : ℤ) ≤ s.pos + size.toInt := by omega
  have hseek : (s.seekCur size.toInt).Before [] := by
    simp only [Stream.seekCur, h.good, Bool.false_eq_true, if_false, if_pos hle]
    refine ⟨rfl, ?_⟩
    have hlen := congrArg List.length h.drop
    rw [List.length_drop] at hlen
    apply List.drop_eq_nil_of_le
    dsimp only
    omega
  have hfail : ((s.seekCur size.toInt).readField i32le id).2.fail = true :=
    hseek.read_short (by decide)
  simp only [nextChunk, readChunkHeader, Stream.readField_failed hfail]
  exact hfail

theorem first_odd {cs : List Chunk} (h : ¬∀ c ∈ cs, c.payload.length % 2 = 0) :
    ∃ es c ds, cs = es ++ c :: ds ∧ (∀ d ∈ es, d.payload.length % 2 = 0) ∧
      c.payload.length % 2 = 1 := by
  induction cs with
  | nil => simp at h
  | cons c cs ih =>
    by_cases hc : c.payload.length % 2 = 1
    · exact ⟨[], c, cs, rfl, by simp, hc⟩
    · have hrest : ¬∀ d ∈ cs, d.payload.length % 2 = 0 := by
        intro hall
        apply h
        intro d hd
        rcases List.mem_cons.mp hd with rfl | hd
        · omega
        · exact hall d hd
      obtain ⟨es, d, ds, rfl, hes, hd⟩ := ih hrest
      refine ⟨c :: es, d, ds, rfl, ?_, hd⟩
      intro e he
      rcases List.mem_cons.mp he with rfl | he
      · omega
      · exact hes e he

namespace WaveFile
section Odd
variable {f : WaveFile} {es ds : List Chunk} {c d : Chunk}
  (hjunk : ∀ j ∈ f.junk, j.1.length % 2 = 0) (hfmt : f.fmt.InRange)
  (hes : ∀ d ∈ es, d.payload.length % 2 = 0) (hc : c.payload.length % 2 = 1)
include hjunk hfmt hes hc

/- Directly in front of the data chunk: the size that is read may lead behind the
end of the file. -/
theorem not_accepted_last (hchunks : f.chunks = es ++ [c]) {size : Int32}
    (hcut : (i32le.bytes dataId).drop 3 ++ (i32le.bytes (.ofNat f.data.length)).take 3 =
      i32le.bytes size) (hsize : f.data.length < size.toInt) : ¬f.Accepted := by
  intro hf
  obtain ⟨h, u, t, rate, count, hu, ht, hend⟩ := lands_on_pad hchunks hes hc hf hjunk hfmt
  rw [List.flatMap_nil, List.nil_append] at hu
  obtain ⟨id, size', last, hshift, hid, hsize'⟩ :=
    chunkHead_shifted c.pad dataId (.ofNat f.data.length) f.data
  obtain rfl := i32le.bytes_injective (hsize'.trans hcut)
  rw [hshift] at hu
  have hnext := hu.skip (chunkHead_length _ _)
  have hne : id ≠ dataId := shifted_ne hid (by decide)
  have hfail : (nextChunk ⟨id, size', u.skip 8⟩).is.fail = true := by
    apply nextChunk_past hnext
    rw [List.length_cons]
    omega
  rw [firstChunk_before hu, seeksTo_round (seeking_chunk hnext.good hne),
    seeksTo_stop (by simp [seeking, hfail])] at ht
  subst ht
  exact conclude_failed hfail h _ _ _ hend

theorem exists_refused_last (hchunks : f.chunks = es ++ [c]) :
    ∃ g : WaveFile, g.SameShape f ∧ ¬g.Accepted := by
  have hfits : 4 + (waveBody f.junk f.fmt f.chunks []).length < 2 ^ 31 := by
    have hf := f.fits
    simp only [waveBody, List.length_append, chunkHead_length, List.length_nil] at hf ⊢
    omega
  let g : WaveFile := ⟨f.junk, f.fmt, f.chunks, [], rfl, hfits⟩
  have hg : g.chunks = es ++ [c] := hchunks
  have hcut : (i32le.bytes dataId).drop 3 ++ (i32le.bytes (.ofNat 0)).take 3 = i32le.bytes 97 := by
    decide
  have hpast : ((0 : ℕ) : ℤ) < (97 : Int32).toInt := by decide
  exact ⟨g, ⟨rfl, rfl, rfl⟩, not_accepted_last hjunk hfmt hes hc hg hcut hpast⟩

/- In front of another chunk: the pad byte and the next identifier may read as a
data chunk of odd size. -/
theorem exists_refused_next (hchunks : f.chunks = es ++ c :: d :: ds) :
    ∃ g : WaveFile, g.SameShape f ∧ ¬g.Accepted := by
  let c' : Chunk := ⟨c.id, c.payload, 0x64, c.notData⟩
  let d' : Chunk := ⟨0x01617461, d.payload, d.pad, by decide⟩
  have hsizes : (es ++ c' :: d' :: ds).map (·.payload.length) =
      f.chunks.map (·.payload.length) := by
    simp only [hchunks, List.map_append, List.map_cons, c', d']
  have hfits : 4 + (waveBody f.junk f.fmt (es ++ c' :: d' :: ds) f.data).length < 2 ^ 31 := by
    have hf := f.fits
    have hlen := chunks_length hsizes
    simp only [waveBody, List.length_append] at hf hlen ⊢
    omega
  let g : WaveFile := ⟨f.junk, f.fmt, es ++ c' :: d' :: ds, f.data, f.even, hfits⟩
  refine ⟨g, ⟨rfl, rfl, hsizes⟩, fun hg => ?_⟩
  obtain ⟨h, u, t, rate, count, hu, ht, hend⟩ :=
    lands_on_pad (show g.chunks = es ++ c' :: d' :: ds from rfl) hes
      (show c'.payload.length % 2 = 1 from hc) hg hjunk hfmt
  rw [List.flatMap_cons, Chunk.bytes, chunkBytes, List.append_assoc, List.append_assoc] at hu
  obtain ⟨id, size, last, hshift, hid, hsize⟩ :=
    chunkHead_shifted c'.pad d'.id (.ofNat d'.payload.length) (padded d'.payload d'.pad ++
      (ds.flatMap Chunk.bytes ++ (chunkHead dataId (.ofNat f.data.length) ++ f.data)))
  have hdata : (0x64 : UInt8) :: (i32le.bytes 0x01617461).take 3 = i32le.bytes dataId := by decide
  have hlow : (i32le.bytes 0x01617461).drop 3 = [1] := by decide
  obtain rfl := i32le.bytes_injective (hid.trans hdata)
  have hodd : size.toInt % 2 = 1 := by
    rw [show (i32le.bytes d'.id).drop 3 = [1] from hlow] at hsize
    exact i32le_parity hsize
  rw [hshift] at hu
  rw [firstChunk_before hu, seeksTo_stop (by simp [seeking])] at ht
  subst ht
  exact conclude_odd hodd h _ _ _ hend

end Odd

/-- All files of a shape are read exactly when its sizes in front of the data are
even and the reader's arithmetic takes the format. -/
theorem shape_accepted_iff (f : WaveFile) :
    (∀ g : WaveFile, g.SameShape f → g.Accepted) ↔ f.EvenSizes ∧ f.fmt.InRange := by
  constructor
  · intro hall
    have hf : f.Accepted := hall f ⟨rfl, rfl, rfl⟩
    have hjunk : ∀ j ∈ f.junk, j.1.length % 2 = 0 := by
      intro j hj
      by_contra hodd
      exact not_accepted_junk hj (by omega) hf
    have hfmt : f.fmt.InRange := by
      by_contra hbad
      exact not_accepted_fmt hjunk hbad hf
    refine ⟨⟨hjunk, ?_⟩, hfmt⟩
    by_contra hchunks
    obtain ⟨es, c, ds, hsplit, hes, hc⟩ := first_odd hchunks
    have hrefused : ∃ g : WaveFile, g.SameShape f ∧ ¬g.Accepted := by
      cases ds with
      | nil => exact exists_refused_last hjunk hfmt hes hc hsplit
      | cons d ds => exact exists_refused_next hjunk hfmt hes hc hsplit
    obtain ⟨g, hg, hno⟩ := hrefused
    exact hno (hall g hg)
  · rintro ⟨⟨hjunk, hchunks⟩, hfmt⟩ g ⟨hsame, hjunks, hsizes⟩
    refine accepted_of_even ⟨?_, ?_⟩ (hsame ▸ hfmt)
    · intro j hj
      have hlen := congrArg (Option.map (· % 2)) hjunks
      rw [Option.mem_def.mp hj] at hlen
      cases hf : f.junk with
      | none =>
        rw [hf] at hlen
        cases hlen
      | some k =>
        rw [hf] at hlen
        rw [← hjunk k hf]
        exact Option.some.inj hlen
    · intro c hc
      have hmem : c.payload.length ∈ f.chunks.map (·.payload.length) := by
        rw [← hsizes]
        exact List.mem_map_of_mem hc
      obtain ⟨d, hd, hlen⟩ := List.mem_map.mp hmem
      rw [← hlen]
      exact hchunks d hd

end WaveFile

/- A file with a LIST chunk of one byte in front of two samples. -/
def listFile : WaveFile where
  junk := none
  fmt := ⟨1, 8000, by decide, by decide, by decide⟩
  chunks := [⟨0x5453494c, [7], 0, by decide⟩]
  data := [1, 0, 2, 0]
  even := rfl
  fits := by decide

theorem listFile_not_accepted : ¬listFile.Accepted := by
  have hfmt : listFile.fmt.InRange := ⟨by decide, by decide⟩
  have hcut : (i32le.bytes dataId).drop 3 ++ (i32le.bytes (.ofNat 4)).take 3 =
      i32le.bytes 1121 := by decide
  have hchunks : listFile.chunks = [] ++ [⟨0x5453494c, [7], 0, by decide⟩] := rfl
  exact WaveFile.not_accepted_last nofun hfmt (List.forall_mem_nil _) rfl hchunks hcut (by decide)

end TypegoSdk.Wav
