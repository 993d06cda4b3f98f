import TypegoSdk.Wav.Header
import TypegoSdk.Lib.Orbit

/-!
# The walk over the chunks

`SeekToDataChunk` goes from each chunk header to the place that the size, a
signed number, names behind it. The places are the orbit of `link`; the loop
ends exactly when this orbit does.
-/

namespace TypegoSdk.Wav
open TypegoSdk.Lib

/- The identifier and the size at a place of a file. -/
def chunkAt (file : Bytes) (p : ℕ) : Option (Int32 × Int32) :=
  if p + 8 ≤ file.length then
    some (i32le.value ((file.drop p).take 4), i32le.value ((file.drop (p + 4)).take 4))
  else none

/- Where the chunk header at `p` leads to; nowhere from the data chunk, from a
header that is not whole, or to a place before the file. -/
def link (file : Bytes) (p : ℕ) : Option ℕ :=
  match chunkAt file p with
  | none => none
  | some (id, size) =>
    if id = dataId then none
    else if 0 ≤ (p + 8 : ℤ) + size.toInt then some ((p + 8 : ℤ) + size.toInt).toNat
    else none

/-! ### Reading a chunk header -/

theorem readChunkHeader_at {file : Bytes} {p : ℕ} {id size : Int32}
    (h : chunkAt file p = some (id, size)) (id' size' : Int32) :
    readChunkHeader id' size' ⟨file, p, false⟩ = (id, size, ⟨file, p + 8, false⟩) := by
  unfold chunkAt at h
  split at h
  · rename_i hle
    cases h
    have h0 := Stream.before_at file p 4
    have hlen : ((file.drop p).take 4).length = i32le.size := by
      rw [List.length_take, List.length_drop, i32le_size]
      omega
    have h1 := Stream.before_at file (p + 4) 4
    have hlen' : ((file.drop (p + 4)).take 4).length = i32le.size := by
      rw [List.length_take, List.length_drop, i32le_size]
      omega
    have hskip : (⟨file, p, false⟩ : Stream).skip i32le.size = ⟨file, p + 4, false⟩ := rfl
    simp only [readChunkHeader, h0.readField_raw hlen, hskip, h1.readField_raw hlen']
    rfl
  · cases h

theorem readChunkHeader_beyond {file : Bytes} {p : ℕ} (h : chunkAt file p = none)
    (id size : Int32) : (readChunkHeader id size ⟨file, p, false⟩).2.2.fail = true := by
  unfold chunkAt at h
  split at h
  · cases h
  · rename_i hbeyond
    by_cases hid : p + 4 ≤ file.length
    · -- the identifier is there, the size is cut
      have h0 := Stream.before_at file p 4
      have hlen : ((file.drop p).take 4).length = i32le.size := by
        rw [List.length_take, List.length_drop, i32le_size]
        omega
      have h1 : Stream.Before ⟨file, p + 4, false⟩ (file.drop (p + 4)) := ⟨rfl, rfl⟩
      have hskip : (⟨file, p, false⟩ : Stream).skip i32le.size = ⟨file, p + 4, false⟩ := rfl
      simp only [readChunkHeader, h0.readField_raw hlen, hskip]
      apply h1.read_short
      rw [List.length_drop, i32le_size]
      omega
    · have h0 : Stream.Before ⟨file, p, false⟩ (file.drop p) := ⟨rfl, rfl⟩
      have hfail : ((⟨file, p, false⟩ : Stream).readField i32le id).2.fail = true := by
        apply h0.read_short
        rw [List.length_drop, i32le_size]
        omega
      simp only [readChunkHeader, Stream.readField_failed hfail]
      exact hfail

theorem readChunkHeader_failed {s : Stream} (h : s.fail = true) (id size : Int32) :
    (readChunkHeader id size s).2.2.fail = true := by
  have h0 : (s.readField i32le id).2 = s := Stream.readField_failed h id
  simp only [readChunkHeader, h0, Stream.readField_failed h]
  exact h

/-! ### One round -/

/- What the loop works on after the header at `p` was read. -/
def Landed (file : Bytes) (p : ℕ) (s : Seek) : Prop :=
  match chunkAt file p with
  | none => s.is.fail = true
  | some (id, size) => s = ⟨id, size, ⟨file, p + 8, false⟩⟩

theorem landed_read (file : Bytes) (p : ℕ) (id size : Int32) :
    Landed file p ⟨(readChunkHeader id size ⟨file, p, false⟩).1,
      (readChunkHeader id size ⟨file, p, false⟩).2.1,
      (readChunkHeader id size ⟨file, p, false⟩).2.2⟩ := by
  cases h : chunkAt file p with
  | none =>
    rw [Landed, h]
    exact readChunkHeader_beyond h id size
  | some c =>
    rw [Landed, h]
    dsimp only
    rw [readChunkHeader_at h]

section Round
variable {file : Bytes} {p : ℕ} {s : Seek} (h : Landed file p s)
include h

theorem seeking_iff : seeking s = true ↔ ∃ id size, chunkAt file p = some (id, size) ∧ id ≠ dataId := by
  cases hc : chunkAt file p with
  | none =>
    rw [Landed, hc] at h
    have hfail : s.is.fail = true := h
    simp [seeking, hfail]
  | some c =>
    rw [Landed, hc] at h
    have hs : s = ⟨c.1, c.2, ⟨file, p + 8, false⟩⟩ := h
    simp [hs, seeking, Prod.ext_iff]

theorem seeking_of_link {q : ℕ} (hl : link file p = some q) : seeking s = true := by
  rw [seeking_iff h]
  unfold link at hl
  split at hl
  · cases hl
  · rename_i id size hc
    refine ⟨id, size, hc, fun hid => ?_⟩
    rw [if_pos hid] at hl
    cases hl

theorem nextChunk_landed {q : ℕ} (hl : link file p = some q) : Landed file q (nextChunk s) := by
  unfold link at hl
  split at hl
  · cases hl
  · rename_i id size hc
    rw [Landed, hc] at h
    subst h
    split at hl
    · cases hl
    · split at hl
      · rename_i hge
        cases hl
        have hseek : (⟨file, p + 8, false⟩ : Stream).seekCur size.toInt =
            ⟨file, ((p + 8 : ℤ) + size.toInt).toNat, false⟩ := by
          simp [Stream.seekCur, hge]
        simp only [nextChunk, hseek]
        exact landed_read ..
      · cases hl

theorem nextChunk_failed (hs : seeking s = true) (hl : link file p = none) :
    (nextChunk s).is.fail = true := by
  obtain ⟨id, size, hc, hid⟩ := (seeking_iff h).mp hs
  rw [link, hc] at hl
  dsimp only at hl
  rw [if_neg hid] at hl
  rw [Landed, hc] at h
  subst h
  split at hl
  · cases hl
  · rename_i hneg
    have hseek : (⟨file, p + 8, false⟩ : Stream).seekCur size.toInt = ⟨file, p + 8, true⟩ := by
      simp [Stream.seekCur, hneg]
    simp only [nextChunk, hseek]
    exact readChunkHeader_failed rfl ..

end Round

/-! ### The loop -/

theorem loop_ends {file : Bytes} {k p : ℕ} {s : Seek} (h : Landed file p s)
    (ho : orbit (link file) p k = none) : ∃ r, whileLoop seeking nextChunk k s = some r := by
  induction k generalizing p s with
  | zero => cases ho
  | succ k ih =>
    cases hs : seeking s with
    | false => exact ⟨_, whileLoop_stop hs _⟩
    | true =>
      rw [whileLoop_round hs]
      cases hl : link file p with
      | none =>
        -- the seek fails, and so does the next test of the loop
        have hstop : seeking (nextChunk s) = false := by
          simp [seeking, nextChunk_failed h hs hl]
        exact ⟨_, by rw [whileLoop_stop hstop, Option.map_some]⟩
      | some q =>
        have hone : orbit (link file) p 1 = some q := hl
        rw [Nat.add_comm, orbit_of_some _ hone] at ho
        obtain ⟨r, hr⟩ := ih (nextChunk_landed h hl) ho
        exact ⟨_, by rw [hr, Option.map_some]⟩

theorem loop_endless {file : Bytes} {p : ℕ} {s : Seek} (h : Landed file p s)
    (ho : ∀ k, orbit (link file) p k ≠ none) (fuel : ℕ) :
    whileLoop seeking nextChunk fuel s = none := by
  apply whileLoop_endless
    (fun s => ∃ q, Landed file q s ∧ ∀ k, orbit (link file) q k ≠ none) _ ⟨p, h, ho⟩
  rintro s ⟨q, hq, hall⟩
  obtain ⟨q', hl⟩ := Option.ne_none_iff_exists'.mp (hall 1)
  have hlink : link file q = some q' := hl
  refine ⟨seeking_of_link hq hlink, q', nextChunk_landed hq hlink, fun k => ?_⟩
  rw [← orbit_of_some _ hl]
  exact hall (1 + k)

theorem link_lt {file : Bytes} {p q : ℕ} (h : link file p = some q) : p < file.length := by
  unfold link at h
  split at h
  · cases h
  · rename_i hc
    unfold chunkAt at hc
    split at hc
    · omega
    · cases hc

theorem seekToDataChunk_ends_iff {file : Bytes} {p : ℕ} {s : Seek} (h : Landed file p s) :
    (∃ fuel, (seekToDataChunk fuel s).isSome = true) ↔ NoReturn (link file) p := by
  have hrange : ∀ a b, link file a = some b → a ∈ Finset.range file.length :=
    fun a b hl => Finset.mem_range.mpr (link_lt hl)
  rw [← orbit_ends_iff _ hrange]
  constructor
  · rintro ⟨fuel, hfuel⟩
    by_contra hno
    rw [seekToDataChunk, loop_endless h (fun k hk => hno ⟨k, hk⟩)] at hfuel
    cases hfuel
  · rintro ⟨k, hk⟩
    obtain ⟨r, hr⟩ := loop_ends h hk
    exact ⟨k, by rw [seekToDataChunk, hr]; rfl⟩

/-! ### Before the walk -/

theorem readChunkHeader_bytes (id size : Int32) (s : Stream) :
    (readChunkHeader id size s).2.2.bytes = s.bytes := by
  simp only [readChunkHeader, Stream.readField_bytes]

theorem readRiff_bytes {s t : Stream} {h : WaveHeader} (hr : readRiff s = .ok (h, t)) :
    t.bytes = s.bytes := by
  unfold readRiff at hr
  dsimp only at hr
  split at hr
  · cases hr
  · split at hr
    · cases hr
    · cases hr
      split
      · simp only [readChunkHeader_bytes, Stream.seekCur_bytes, Stream.readField_bytes]
      · simp only [readChunkHeader_bytes, Stream.readField_bytes]

theorem passed {ε α : Type} {c : Prop} [Decidable c] {e : ε} {x : Except ε α} {a : α}
    (h : (if c then .error e else x) = .ok a) : x = .ok a := by
  split at h
  · cases h
  · exact h

theorem readFmt_bytes {s t : Stream} {h h' : WaveHeader} (hr : readFmt h s = .ok (h', t)) :
    t.bytes = s.bytes := by
  unfold readFmt at hr
  dsimp only at hr
  -- identifier, size and format, then the rate, then align and bits
  have hfields := passed (passed (passed hr))
  split at hfields
  · cases hfields
  · have hextra := passed (passed (passed hfields))
    split at hextra
    · cases passed hextra
      simp only [Stream.readField_bytes]
    · cases hextra
      simp only [Stream.readField_bytes]

/- Where the walk begins; none when the format is not accepted or the file ends
with it. -/
def formatEnd (file : Bytes) : Option ℕ :=
  match readRiff (.ofFile file) with
  | .error _ => none
  | .ok (h, s) =>
    match readFmt h s with
    | .error _ => none
    | .ok (_, s) => if s.fail then none else some s.pos

/- The file is refused, or the rest is the loop from the end of the format on. -/
theorem seekData_cases (file : Bytes) :
    (formatEnd file = none ∧ ∃ o, ∀ fuel, seekData fuel (.ofFile file) = some (.error o)) ∨
    ∃ p h, formatEnd file = some p ∧ ∀ fuel, seekData fuel (.ofFile file) =
      (seekToDataChunk fuel (firstChunk ⟨file, p, false⟩)).map (dataFound h) := by
  cases hriff : readRiff (.ofFile file) with
  | error o =>
    exact .inl ⟨by simp only [formatEnd, hriff], o, by simp only [seekData, hriff, forall_const]⟩
  | ok r =>
    obtain ⟨h, s⟩ := r
    cases hfmt : readFmt h s with
    | error o =>
      exact .inl ⟨by simp only [formatEnd, hriff, hfmt], o,
        by simp only [seekData, hriff, hfmt, forall_const]⟩
    | ok r =>
      obtain ⟨h', t⟩ := r
      cases hfail : t.fail with
      | true =>
        -- the reads of the first chunk do nothing, and the loop has no round
        have hfirst : (firstChunk t).is.fail = true := readChunkHeader_failed hfail 0 0
        have hstop : seeking (firstChunk t) = false := by simp [seeking, hfirst]
        refine .inl ⟨by simp only [formatEnd, hriff, hfmt, hfail, if_true], .refused .stream,
          fun fuel => ?_⟩
        rw [seekData_format hriff hfmt, seekToDataChunk, whileLoop_stop hstop]
        simp [dataFound, hfirst]
      | false =>
        have hbytes : t.bytes = file := (readFmt_bytes hfmt).trans (readRiff_bytes hriff)
        have ht : t = ⟨file, t.pos, false⟩ := by rw [← hbytes, ← hfail]
        refine .inr ⟨t.pos, h', by simp [formatEnd, hriff, hfmt, hfail], fun fuel => ?_⟩
        rw [seekData_format hriff hfmt, ← ht]

theorem readWaveImpl_isSome (fuel : ℕ) (s : Stream) :
    (readWaveImpl fuel s).isSome = (seekData fuel s).isSome := by
  rw [readWaveImpl, Option.isSome_map]

theorem firstChunk_landed (file : Bytes) (p : ℕ) : Landed file p (firstChunk ⟨file, p, false⟩) :=
  landed_read file p 0 0

/-! ### The end of the reader -/

/-- `ReadWaveImpl` ends exactly when its walk over the chunks, if it gets to it,
meets no chunk header twice. -/
theorem readWaveImpl_ends_iff (file : Bytes) :
    (∃ fuel, (readWaveImpl fuel (.ofFile file)).isSome = true) ↔
      ∀ p, formatEnd file = some p → NoReturn (link file) p := by
  simp only [readWaveImpl_isSome]
  rcases seekData_cases file with ⟨hf, o, ho⟩ | ⟨p, h, hf, hseek⟩
  · simp [hf, ho]
  · simp only [hf, hseek, Option.isSome_map, seekToDataChunk_ends_iff (firstChunk_landed file p)]
    simp

/- A mono file at 8000 Hz. -/
def monoFmt : Fmt := ⟨1, 8000, 16000, 2⟩

def monoFile (chunkSize : Int32) (chunks : Bytes) : Bytes :=
  riffHead chunkSize ++ (chunkHead fmtId 16 ++ (monoFmt.bytes ++ chunks))

theorem monoFile_formatEnd (chunkSize : Int32) (chunks : Bytes) :
    formatEnd (monoFile chunkSize chunks) = some 36 := by
  have hfile : (Stream.ofFile (monoFile chunkSize chunks)).Before
      (riffHead chunkSize ++ (chunkHead fmtId 16 ++ (monoFmt.bytes ++ chunks))) :=
    Stream.before_ofFile _
  have hrate : expectedByteRate (monoFmt.header 0) = some monoFmt.byteRate.toInt := by decide
  have halign : monoFmt.blockAlign.toInt = expectedBlockAlign (monoFmt.header 0) := by decide
  obtain ⟨hriff, hfmt, -⟩ := format_plain hfile hrate halign
  simp only [formatEnd, hriff, hfmt]
  rfl

/- A LIST chunk whose size leads back to its own header. -/
def loopingFile : Bytes := monoFile 36 (chunkHead 0x5453494c (-8))

theorem looping_not_read : ¬∃ fuel, (readWaveImpl fuel (.ofFile loopingFile)).isSome = true := by
  rintro ⟨fuel, h⟩
  have hformat : formatEnd loopingFile = some 36 := monoFile_formatEnd 36 _
  have hself : orbit (link loopingFile) 36 1 = some 36 := by decide
  have hround : ∀ k, orbit (link loopingFile) 36 k ≠ none := by
    intro k
    have hk := orbit_cycle hself k
    rw [Nat.mul_one] at hk
    rw [hk]
    simp
  have hnone := loop_endless (firstChunk_landed loopingFile 36) hround fuel
  rcases seekData_cases loopingFile with ⟨hf, -⟩ | ⟨p, header, hf, hseek⟩
  · rw [hformat] at hf
    cases hf
  · obtain rfl : 36 = p := Option.some.inj (hformat.symm.trans hf)
    rw [readWaveImpl_isSome, hseek, seekToDataChunk, hnone] at h
    cases h

/-! ### The payload -/

/- The data chunk that the walk comes to. -/
def DataAt (file : Bytes) (p : ℕ) (size : Int32) : Prop :=
  ∃ q k, formatEnd file = some q ∧ orbit (link file) q k = some p ∧
    chunkAt file p = some (dataId, size)

/- The walk does not go on behind the data chunk. -/
theorem dataAt_first {file : Bytes} {q p : ℕ} {size size' : Int32} (hf : formatEnd file = some q)
    (hc : chunkAt file q = some (dataId, size)) (h : DataAt file p size') : size' = size := by
  obtain ⟨q', k, hf', hk, hc'⟩ := h
  obtain rfl : q = q' := Option.some.inj (hf.symm.trans hf')
  have hend : orbit (link file) q 1 = none := by simp [orbit, link, hc]
  cases k with
  | zero =>
    obtain rfl : q = p := Option.some.inj hk
    rw [hc] at hc'
    cases hc'
    rfl
  | succ k =>
    rw [orbit_none _ hend (Nat.le_add_left 1 k)] at hk
    cases hk

theorem seekToDataChunk_exit {file : Bytes} {q fuel : ℕ} {s t : Seek} (h : Landed file q s)
    (hl : seekToDataChunk fuel s = some t) (hgood : t.is.fail = false) :
    ∃ k p size, orbit (link file) q k = some p ∧ chunkAt file p = some (dataId, size) ∧
      t = ⟨dataId, size, ⟨file, p + 8, false⟩⟩ := by
  obtain ⟨⟨n, t⟩, hloop, rfl⟩ := Option.map_eq_some_iff.mp hl
  -- a round ends at the header of the orbit's next place, or fails
  let walk : Seek → Prop := fun s =>
    s.is.fail = true ∨ ∃ k p, orbit (link file) q k = some p ∧ Landed file p s
  have hround : ∀ s, walk s → seeking s = true → walk (nextChunk s) := by
    rintro s (hfail | ⟨k, p, hk, hp⟩) hs
    · simp [seeking, hfail] at hs
    · cases hnext : link file p with
      | none => exact .inl (nextChunk_failed hp hs hnext)
      | some p' =>
        refine .inr ⟨k + 1, p', ?_, nextChunk_landed hp hnext⟩
        rw [orbit, hk]
        exact hnext
  obtain ⟨hend, hstop⟩ := whileLoop_exit walk hround (.inr ⟨0, q, rfl, h⟩) hloop
  rcases hend with hfail | ⟨k, p, hk, hp⟩
  · rw [hgood] at hfail
    cases hfail
  · cases hc : chunkAt file p with
    | none =>
      rw [Landed, hc] at hp
      rw [hgood] at hp
      cases hp
    | some c =>
      have hid : c.1 = dataId := by
        by_contra hne
        have hs := (seeking_iff hp).mpr ⟨c.1, c.2, hc, hne⟩
        rw [hs] at hstop
        cases hstop
      rw [Landed, hc] at hp
      have ht : t = ⟨c.1, c.2, ⟨file, p + 8, false⟩⟩ := hp
      refine ⟨k, p, c.2, hk, ?_, ?_⟩
      · rw [← hid, hc]
      · rw [ht, hid]

theorem payload_bounds_iff (size : ℤ) :
    (0 ≤ size.tdiv 2 ∧ 0 ≤ size ∧ size ≤ 2 * size.tdiv 2) ↔ 0 ≤ size ∧ size % 2 = 0 := by
  rcases Int.le_total 0 size with hle | hle
  · rw [Int.tdiv_eq_ediv_of_nonneg hle]
    omega
  · constructor
    · rintro ⟨_, hpos, _⟩
      have hzero : size = 0 := by omega
      simp [hzero]
    · rintro ⟨hpos, _⟩
      have hzero : size = 0 := by omega
      simp [hzero]

theorem tdiv_two_nonneg_iff (size : ℤ) : 0 ≤ size.tdiv 2 ↔ -1 ≤ size := by
  rcases Int.le_total 0 size with hle | hle
  · rw [Int.tdiv_eq_ediv_of_nonneg hle]
    omega
  · obtain ⟨n, hn⟩ := Int.eq_ofNat_of_zero_le (Int.neg_nonneg_of_nonpos hle)
    have hneg : size = -n := by omega
    rw [hneg, Int.neg_tdiv, Int.tdiv_eq_ediv_of_nonneg (Int.natCast_nonneg n)]
    omega

/-- The buffer can be made for sizes from -1 on, and the read of the payload stays
within it exactly for a data chunk whose size is even and not negative. -/
theorem payload_within_iff (file : Bytes) (fuel : ℕ) (h : WaveHeader) (s : Stream)
    (hseek : seekData fuel (.ofFile file) = some (.ok (h, s))) :
    ∃ p size, DataAt file p size ∧ (0 ≤ samplesRequested h ↔ -1 ≤ size.toInt) ∧
      ((0 ≤ samplesRequested h ∧ 0 ≤ bytesRequested h ∧
        bytesRequested h ≤ 2 * samplesRequested h) ↔ 0 ≤ size.toInt ∧ size.toInt % 2 = 0) := by
  rcases seekData_cases file with ⟨-, o, ho⟩ | ⟨q, h', hf, hwalk⟩
  · rw [ho] at hseek
    cases hseek
  · rw [hwalk, Option.map_eq_some_iff] at hseek
    obtain ⟨t, hloop, hfound⟩ := hseek
    unfold dataFound at hfound
    split at hfound
    · cases hfound
    · rename_i hgood
      cases hfound
      obtain ⟨k, p, size, hk, hc, rfl⟩ :=
        seekToDataChunk_exit (firstChunk_landed file q) hloop (Bool.eq_false_iff.mpr hgood)
      refine ⟨p, size, ⟨q, k, hf, hk, hc⟩, ?_, ?_⟩
      · exact tdiv_two_nonneg_iff size.toInt
      · exact payload_bounds_iff size.toInt

/- A data chunk over four bytes; for the size 3, the last one is the pad byte. -/
def dataFile (size : Int32) : Bytes := monoFile 40 (chunkHead dataId size ++ [1, 2, 3, 0])

def dataFileHeader (size : Int32) : WaveHeader :=
  {monoFmt.header 40 with subchunk2Id := dataId, subchunk2Size := size}

theorem dataFile_even_within :
    seekData 0 (.ofFile (dataFile 4)) = some (.ok (dataFileHeader 4, ⟨dataFile 4, 44, false⟩)) ∧
    0 ≤ samplesRequested (dataFileHeader 4) ∧ 0 ≤ bytesRequested (dataFileHeader 4) ∧
    bytesRequested (dataFileHeader 4) ≤ 2 * samplesRequested (dataFileHeader 4) := by
  have hseek : seekData 0 (.ofFile (dataFile 4)) =
      some (.ok (dataFileHeader 4, ⟨dataFile 4, 44, false⟩)) := by decide
  obtain ⟨p, size, hdata, -, hwithin⟩ := payload_within_iff _ 0 _ ⟨dataFile 4, 44, false⟩ hseek
  obtain rfl : size = 4 := dataAt_first (monoFile_formatEnd 40 _) (by decide) hdata
  exact ⟨hseek, hwithin.mpr (by decide)⟩

/- Three bytes are read into a buffer of one sample. -/
theorem dataFile_odd_overrun :
    seekData 0 (.ofFile (dataFile 3)) = some (.ok (dataFileHeader 3, ⟨dataFile 3, 44, false⟩)) ∧
    samplesRequested (dataFileHeader 3) = 1 ∧ bytesRequested (dataFileHeader 3) = 3 ∧
    readWaveImpl 0 (.ofFile (dataFile 3)) = some .undefined := by
  decide

end TypegoSdk.Wav
