import TypegoSdk.Audio.Upload

/-!
# A request whose file no other request touches

The steps of a request read the file piece by piece, so that requests can
interleave between the pieces. Without another request between them they do
what `playWav` does with the content of the file at the start: every outcome of
`playWav` is one of the outcomes of the steps.
-/

namespace TypegoSdk.Audio
open TypegoSdk.Lib

namespace Handler
variable {φ : Type} {h h' : Handler φ} {content : Option Bytes}

def alone (s : Handler φ × Option Bytes) (env : Env) : Option (Handler φ × Option Bytes) :=
  s.1.next s.2 env

/- Steps from `h` to `h'` that leave the content as it is. -/
def Leads (content : Option Bytes) (h h' : Handler φ) : Prop :=
  ∃ envs, exec alone (h, content) envs = (h', content)

theorem leads_self : Leads content h h := ⟨[], rfl⟩

theorem leads_step {h₁ : Handler φ} (env : Env) (hn : h.next content env = some (h₁, content))
    (hl : Leads content h₁ h') : Leads content h h' := by
  obtain ⟨envs, he⟩ := hl
  refine ⟨env :: envs, ?_⟩
  rw [exec_cons, advance_some alone (show alone (h, content) env = some (h₁, content) from hn)]
  exact he

/-! ### The loop -/

/- The request after it has read a piece. -/
def fetched (h : Handler φ) (chunk : Bytes) : Handler φ :=
  {h with
    reader := {h.reader with
      chunks := h.reader.chunks ++ [chunk]
      eof := decide (chunk.length < bufferSize)}}

/- The request after the loop with the calls `calls`. -/
def looped (h : Handler φ) (calls : List Call) (eof atEnd : Bool) : Handler φ :=
  {h with
    pc := .reply h.played
    reader := ⟨h.reader.head, h.reader.chunks ++ calls.map Call.chunk, eof, atEnd⟩}

theorem fetched_read (h : Handler φ) (chunk : Bytes) :
    (h.fetched chunk).reader.read.length = h.reader.read.length + chunk.length := by
  simp only [fetched, Reader.read, List.flatten_append, List.flatten_singleton, List.length_append,
    Nat.add_assoc]

theorem fetched_looped (h : Handler φ) (call : Call) (calls : List Call) (eof atEnd : Bool) :
    (h.fetched call.chunk).looped calls eof atEnd = h.looped (call :: calls) eof atEnd := by
  simp [fetched, looped, played]

section Round
variable {file rest : Bytes} {call : Call} (hpc : h.pc = .play)
  (hrest : file.drop h.reader.read.length = rest)
include hpc hrest

theorem next_ended (hnil : rest = []) (env : Env) :
    h.next (some file) env = some (h.looped [] h.reader.eof true, some file) := by
  have hended : h.looped [] h.reader.eof true =
      {h with pc := .reply h.played, reader := {h.reader with atEnd := true}} := by
    simp [looped]
  simp only [next, hpc, Option.getD_some, hrest, hnil, List.take_nil, if_true, ite_self, hended]

/- `env` tells whether the loop goes on. -/
theorem next_call (heof : h.reader.eof = false) (hchunk : call.chunk = rest.take bufferSize)
    (hne : rest ≠ []) (env : Env) :
    h.next (some file) env = some ({h.fetched call.chunk with
      pc := if env.writei then .play else .reply h.played}, some file) := by
  have hsome : rest.take bufferSize ≠ [] := by
    intro hnil
    rcases List.take_eq_nil_iff.mp hnil with hz | hz
    · exact absurd hz bufferSize_pos.ne'
    · exact hne hz
  rw [hchunk]
  simp only [next, hpc, heof, Option.getD_some, hrest, Bool.false_eq_true, if_false,
    if_neg hsome, fetched]

omit hpc in
/- The position in the file moves over the piece. -/
theorem fetched_rest (hchunk : call.chunk = rest.take bufferSize) :
    file.drop (h.fetched call.chunk).reader.read.length = rest.drop bufferSize := by
  rw [fetched_read, ← List.drop_drop, hrest, hchunk, List.length_take, List.drop_eq_drop_iff]
  omega

end Round

/- An environment in which files open. -/
def answers (stack : Bytes) (channels : Option ℕ) (writei : Bool) : Env :=
  ⟨true, 0, stack, channels, writei⟩

/- By induction on the pieces that are left; each answer of the device is the
environment of one step. -/
theorem loop_leads (pcm : Pcm) (file : Bytes) (h : Handler φ) (hpc : h.pc = .play)
    (heof : h.reader.eof = true → file.drop h.reader.read.length = []) (k : ℕ) (buffer : Memory) :
    ∃ eof atEnd, Leads (some file) h
      (h.looped (playFrom pcm k buffer (file.drop h.reader.read.length)) eof atEnd) := by
  obtain ⟨rest, hrest⟩ : ∃ rest, file.drop h.reader.read.length = rest := ⟨_, rfl⟩
  rw [hrest]
  induction rest using fragments_induction bufferSize bufferSize_pos
    generalizing h k buffer with
  | nil =>
    rw [playFrom_nil]
    exact ⟨_, _, leads_step (answers [] none true) (next_ended hpc hrest rfl _) leads_self⟩
  | cut rest hne ih =>
    obtain ⟨call, hcall⟩ : ∃ call, call = pcm.call k (place (rest.take bufferSize) buffer)
        (rest.take bufferSize) := ⟨_, rfl⟩
    have hchunk : call.chunk = rest.take bufferSize := by
      rw [hcall]
      rfl
    have hopen : h.reader.eof = false := by
      rw [Bool.eq_false_iff]
      intro he
      exact hne (hrest ▸ heof he)
    have hn := next_call hpc hrest hopen hchunk hne
    rw [playFrom_cut pcm k buffer rest hne, ← hcall]
    by_cases hfatal : call.Fatal
    · rw [if_pos hfatal]
      exact ⟨_, _, leads_step _ (hn (answers [] none false)) leads_self⟩
    · rw [if_neg hfatal]
      have hplay : (h.fetched call.chunk).pc = .play := hpc
      have hsame : {h.fetched call.chunk with pc := .play} = h.fetched call.chunk := by
        rw [← hplay]
      have hleft := fetched_rest hrest hchunk
      have hshort : (h.fetched call.chunk).reader.eof = true →
          file.drop (h.fetched call.chunk).reader.read.length = [] := by
        intro he
        have hlt : call.chunk.length < bufferSize := of_decide_eq_true he
        rw [hchunk, List.length_take] at hlt
        rw [hleft]
        apply List.drop_eq_nil_of_le
        omega
      obtain ⟨eof, atEnd, hl⟩ := ih (h.fetched call.chunk) hplay hshort (k + 1)
        (place (rest.take bufferSize) buffer) hleft
      rw [fetched_looped, ← hsame] at hl
      exact ⟨eof, atEnd, leads_step _ (hn (answers [] none true)) hl⟩

/-! ### The header -/

/- A field of the header, from the file and what the array held before. -/
theorem header_field (stack : Memory) (bytes : Bytes) (off : ℕ) (hoff : off + 2 ≤ 44) :
    leVal (((bytes ++ load stack bytes.length 44).drop off).take 2) =
      (u16le.value (load (place bytes stack) off 2)).toNat := by
  have hin : off + 2 ≤ (bytes ++ load stack bytes.length 44).length := by
    rw [List.length_append, load, List.length_map, List.length_range]
    omega
  rw [← place_load bytes stack 44, load_place _ _ _ _ hin, u16le_toNat]
  rw [List.length_take, List.length_drop]
  omega

/- The request with the header read. -/
def headed (h : Handler φ) (file : Bytes) (pc : Pc) : Handler φ :=
  {h with
    pc := pc
    reader := {h.reader with head := file.take 44, eof := decide ((file.take 44).length < 44)}}

theorem next_header {file : Bytes} (hpc : h.pc = .header) (stack : Memory) :
    h.next (some file) (answers (load stack (file.take 44).length 44) none true) =
      some (h.headed file (if (fileHeader stack file).audioFormat = 1
        then .setup (fileHeader stack file).bitsPerSample.toNat else .reply h.playFailed),
        some file) := by
  have hformat : leVal ((((file.take 44) ++ load stack (file.take 44).length 44).drop 20).take 2) =
      (fileHeader stack file).audioFormat.toNat := header_field stack (file.take 44) 20 (by decide)
  have hbits : leVal ((((file.take 44) ++ load stack (file.take 44).length 44).drop 34).take 2) =
      (fileHeader stack file).bitsPerSample.toNat := header_field stack (file.take 44) 34 (by decide)
  have hone : (fileHeader stack file).audioFormat = 1 ↔
      (fileHeader stack file).audioFormat.toNat = 1 := UInt16.toNat_inj.symm
  simp only [next, hpc, Option.getD_some, answers, hformat, hbits, headed, hone]

theorem supported_iff (bits : ℕ) : supported bits = true ↔ (pcmFormat bits).isSome = true := by
  simp only [supported, pcmFormat, decide_eq_true_eq]
  by_cases h8 : bits = 8
  · simp [h8]
  · by_cases h16 : bits = 16
    · simp [h16]
    · by_cases h24 : bits = 24
      · simp [h24]
      · by_cases h32 : bits = 32
        · simp [h32]
        · simp [h8, h16, h24, h32]

/- The set up device, as the request sees it. -/
def setUp (device : Device) : Option ℕ :=
  if (device.plughw || device.fallback || device.dmix) && device.setParams && device.prepares
  then some device.channels else none

section SetUp
variable {device : Device} {header : WavHeader} (hpc : h.pc = .setup header.bitsPerSample.toNat)
include hpc

theorem next_setUp (hup : device.SetsUp header) :
    h.next content (answers [] (setUp device) true) = some ({h with
      frame := device.channels * (header.bitsPerSample.toNat / 8)
      pc := .play}, content) := by
  have hdevice : setUp device = some device.channels := by
    simp only [setUp, hup.opens, hup.setParams, hup.prepares, Bool.and_self, if_true]
  simp only [next, hpc, answers, hdevice, (supported_iff _).mpr hup.depth, if_true]

theorem next_refused (hpcm : header.audioFormat = 1) (hup : ¬device.SetsUp header) :
    h.next content (answers [] (setUp device) true) =
      some ({h with pc := .reply h.playFailed}, content) := by
  cases hdevice : setUp device with
  | none => simp only [next, hpc, answers]
  | some channels =>
    -- the device is there, so the bit depth is what is wrong
    have hready : ((device.plughw || device.fallback || device.dmix) && device.setParams &&
        device.prepares) = true := by
      by_contra hno
      rw [setUp, if_neg hno] at hdevice
      cases hdevice
    rw [Bool.and_eq_true, Bool.and_eq_true] at hready
    have hdepth : ¬supported header.bitsPerSample.toNat = true := by
      intro hs
      exact hup ⟨hpcm, hready.1.1, (supported_iff _).mp hs, hready.1.2, hready.2⟩
    simp only [next, hpc, answers, if_neg hdepth]

end SetUp

/-! ### The whole function -/

/-- What the request shows of a call of `playWav`. -/
def Shows (h h' : Handler φ) (file : Bytes) (device : Device) : Except Failure Played → Prop
  | .error _ => h'.pc = .reply h.playFailed
  | .ok played => h'.pc = .reply h.played ∧ h'.reader.head = file.take 44 ∧
      h'.reader.chunks = played.calls.map Call.chunk ∧
      h'.frame = device.channels * (played.header.bitsPerSample.toNat / 8)

theorem shows_error {device : Device} {stack : Memory} {file : Bytes}
    (hup : ¬device.SetsUp (fileHeader stack file)) (buffer : Memory)
    (hpc : h'.pc = .reply h.playFailed) :
    h.Shows h' file device (playWav device stack buffer (some file)) := by
  cases hplay : playWav device stack buffer (some file) with
  | error e => exact hpc
  | ok played => exact absurd (setsUp_of_ok hplay) hup

theorem headed_leads (hpc : h.pc = .openRead) (stack : Memory) (file : Bytes)
    (hl : Leads (some file) (h.headed file (if (fileHeader stack file).audioFormat = 1
      then .setup (fileHeader stack file).bitsPerSample.toNat else .reply h.playFailed)) h') :
    Leads (some file) h h' := by
  have hopen : h.next (some file) (answers [] none true) =
      some ({h with pc := .header}, some file) := by
    simp only [next, hpc, answers, if_true]
  exact leads_step _ hopen (leads_step _ (next_header rfl stack) hl)

theorem headed_rest (hr : h.reader = .init) (file : Bytes) (pc : Pc) :
    file.drop (h.headed file pc).reader.read.length = file.drop 44 := by
  have hread : (h.headed file pc).reader.read = file.take 44 := by
    simp [headed, hr, Reader.init, Reader.read]
  rw [hread, List.length_take, List.drop_eq_drop_iff]
  omega

theorem headed_eof (file : Bytes) (pc : Pc) (he : (h.headed file pc).reader.eof = true) :
    file.drop 44 = [] := by
  have hlt : (file.take 44).length < 44 := of_decide_eq_true he
  rw [List.length_take] at hlt
  apply List.drop_eq_nil_of_le
  omega

/-- The steps of a request that is alone with its file can do what `playWav`
does, whatever the device answers. -/
theorem playWav_leads (h : Handler φ) (hpc : h.pc = .openRead) (hr : h.reader = .init)
    (content : Option Bytes) (device : Device) (stack buffer : Memory) :
    ∃ h', Leads content h h' ∧
      h.Shows h' (content.getD []) device (playWav device stack buffer content) := by
  cases content with
  | none =>
    refine ⟨{h with pc := .reply h.playFailed}, leads_step (answers [] none true) ?_ leads_self, rfl⟩
    simp only [next, hpc]
  | some file =>
    have hlead := fun h' => @headed_leads _ h h' hpc stack file
    by_cases hpcm : (fileHeader stack file).audioFormat = 1
    · rw [if_pos hpcm] at hlead
      by_cases hup : device.SetsUp (fileHeader stack file)
      · obtain ⟨format, hformat⟩ := Option.isSome_iff_exists.mp hup.depth
        have hrest := headed_rest hr file (.setup (fileHeader stack file).bitsPerSample.toNat)
        have heof := @headed_eof _ h file (.setup (fileHeader stack file).bitsPerSample.toNat)
        have hsetup := @next_setUp _ (h.headed file _) (some file) _ _ rfl hup
        obtain ⟨eof, atEnd, hl⟩ := loop_leads
          (device.pcm (fileHeader stack file).bitsPerSample.toNat format) file
          {h.headed file (.setup (fileHeader stack file).bitsPerSample.toNat) with
            frame := device.channels * ((fileHeader stack file).bitsPerSample.toNat / 8)
            pc := .play} rfl (fun he => hrest.trans (heof he)) 0 buffer
        rw [hrest] at hl
        refine ⟨_, hlead _ (leads_step _ hsetup hl), ?_⟩
        rw [playWav_ok hup hformat]
        refine ⟨rfl, rfl, ?_, rfl⟩
        simp [looped, headed, hr, Reader.init]
      · have hrefused := @next_refused _ (h.headed file _) (some file) _ _ rfl hpcm hup
        exact ⟨_, hlead _ (leads_step _ hrefused leads_self), shows_error hup buffer rfl⟩
    · rw [if_neg hpcm] at hlead
      exact ⟨_, hlead _ leads_self, shows_error (fun hup => hpcm hup.pcm) buffer rfl⟩

end Handler
end TypegoSdk.Audio
