import TypegoSdk.Audio.PlayWav
import TypegoSdk.Lib.Exec
import Mathlib.Logic.Function.Basic
import Mathlib.Data.Fintype.Defs

/-!
# The audio server (example/go2/typego_audio_interface.cpp)

`/upload_play` saves the uploaded WAV file under the name that the client gives
and plays the file. The server is multithreaded, so the steps of any number of
requests interleave, and the files are shared.
-/

namespace TypegoSdk.Audio
open TypegoSdk.Lib

/-! ### One request -/

inductive ExecutionStatus where
  | success
  | timeout
  | error
  deriving DecidableEq

structure Response where
  code : ℕ
  status : ExecutionStatus
  message : String
  filename : Option String
  filepath : Option String
  deriving DecidableEq

/-- The "audio" part of the form (an absent one has no body), and the filename of
its Content-Disposition header. -/
structure Upload where
  body : Bytes
  filename : Option String

/-- Where a request stands, named after what comes next. -/
inductive Pc where
  | create
  | write (pos : ℕ)
  | openRead
  | header
  | setup (bitsPerSample : ℕ)
  | play
  | reply (r : Response)
  | done
  deriving DecidableEq

/-- What `playWav` has read: the header, and the buffers of the loop. `atEnd` tells
that the loop has ended at the end of the file. -/
structure Reader where
  head : Bytes
  chunks : List Bytes
  eof : Bool
  atEnd : Bool
  deriving DecidableEq

def Reader.init : Reader := ⟨[], [], false, false⟩

def Reader.read (r : Reader) : Bytes := r.head ++ r.chunks.flatten

/- `frame` is the size of a frame in bytes. -/
structure Handler (φ : Type) where
  filename : String
  filepath : String
  file : φ
  body : Bytes
  pc : Pc
  reader : Reader
  frame : ℕ
  deriving DecidableEq

/-- What comes from outside with a step: whether a file opens, how much is written
at once, what the header's buffer held before, the channels of the device
(none when it cannot be set up), and whether the device takes the frames. -/
structure Env where
  opens : Bool
  pieces : ℕ
  stack : Bytes
  channels : Option ℕ
  writei : Bool

def badRequest (message : String) : Response := ⟨400, .error, message, none, none⟩

namespace Handler
variable {φ : Type}

/- From the arrival to the creation of the file. `resolve` finds the file of a path. -/
def arrive (resolve : String → φ) (u : Upload) : Handler φ :=
  let filename := u.filename.getD "uploaded_audio.wav"
  let filepath := "/tmp/audio_uploads/" ++ filename
  { filename := filename
    filepath := filepath
    file := resolve filepath
    body := u.body
    pc :=
      if u.body = [] then
        .reply (badRequest "No audio file provided. Use 'audio' as the form field name.")
      else if ".wav".toList.isSuffixOf filename.toList then .create
      else .reply (badRequest "Only WAV files are supported")
    reader := .init
    frame := 0 }

def saveFailed : Response := ⟨500, .error, "Failed to save uploaded file", none, none⟩

def played (h : Handler φ) : Response :=
  ⟨200, .success, "Audio uploaded and played successfully!", some h.filename, some h.filepath⟩

def playFailed (h : Handler φ) : Response :=
  ⟨500, .error, "Audio uploaded but playback failed!", some h.filename, none⟩

/- Bytes written at an offset. A file that ends before it is filled with zeros. -/
def writeAt (content : Bytes) (pos : ℕ) (bs : Bytes) : Bytes :=
  store (content ++ List.replicate (pos - content.length) 0) pos bs

def supported (bitsPerSample : ℕ) : Bool :=
  bitsPerSample = 8 ∨ bitsPerSample = 16 ∨ bitsPerSample = 24 ∨ bitsPerSample = 32

/- The bytes handed to the device: the whole frames of each buffer. -/
def handed (h : Handler φ) : List Bytes :=
  h.reader.chunks.map fun chunk => chunk.take (chunk.length / h.frame * h.frame)

/- One step, from the content of the request's file to its content afterwards. -/
def next (h : Handler φ) (content : Option Bytes) (env : Env) :
    Option (Handler φ × Option Bytes) :=
  match h.pc with
  | .create =>
    if env.opens then some ({h with pc := .write 0}, some [])
    else some ({h with pc := .reply saveFailed}, content)
  | .write pos =>
    let bs := (h.body.drop pos).take env.pieces
    let pos' := pos + bs.length
    some ({h with pc := if pos' < h.body.length then .write pos' else .openRead},
      some (writeAt (content.getD []) pos bs))
  | .openRead =>
    match content with
    | none => some ({h with pc := .reply h.playFailed}, content)
    | some _ => some ({h with pc := if env.opens then .header else .reply h.playFailed}, content)
  | .header =>
    let bytes := (content.getD []).take 44
    let header := bytes ++ env.stack
    let audioFormat := leVal ((header.drop 20).take 2)
    let bitsPerSample := leVal ((header.drop 34).take 2)
    some ({h with
      reader := {h.reader with head := bytes, eof := decide (bytes.length < 44)}
      pc := if audioFormat = 1 then .setup bitsPerSample else .reply h.playFailed}, content)
  | .setup bitsPerSample =>
    match env.channels with
    | none => some ({h with pc := .reply h.playFailed}, content)
    | some channels =>
      if supported bitsPerSample then
        some ({h with frame := channels * (bitsPerSample / 8), pc := .play}, content)
      else some ({h with pc := .reply h.playFailed}, content)
  | .play =>
    let ended := {h with pc := .reply h.played, reader := {h.reader with atEnd := true}}
    if h.reader.eof then some (ended, content)
    else
      let chunk := ((content.getD []).drop h.reader.read.length).take bufferSize
      if chunk = [] then some (ended, content)
      else
        some ({h with
          reader := {h.reader with
            chunks := h.reader.chunks ++ [chunk]
            eof := decide (chunk.length < bufferSize)}
          pc := if env.writei then .play else .reply h.played}, content)
  | .reply _ => some ({h with pc := .done}, content)
  | .done => none

end Handler

/-! ### The server -/

structure Server (ι φ : Type) where
  content : φ → Option Bytes
  handler : ι → Option (Handler φ)

inductive Act (ι : Type) where
  | arrive (i : ι) (u : Upload)
  | run (i : ι) (env : Env)

namespace Server
variable {ι φ : Type} [DecidableEq ι] [DecidableEq φ]

def init (content : φ → Option Bytes) : Server ι φ := ⟨content, fun _ => none⟩

def step (resolve : String → φ) (s : Server ι φ) : Act ι → Option (Server ι φ)
  | .arrive i u =>
    match s.handler i with
    | some _ => none
    | none => some {s with
        handler := Function.update s.handler i (some (.arrive resolve u))}
  | .run i env =>
    match s.handler i with
    | none => none
    | some h => (h.next (s.content h.file) env).map fun r =>
        ⟨Function.update s.content h.file r.2, Function.update s.handler i (some r.1)⟩

def after (resolve : String → φ) (content : φ → Option Bytes) (acts : List (Act ι)) : Server ι φ :=
  exec (step resolve) (init content) acts

end Server

/-! ### What a step does -/

/- Bytes behind those that are there. -/
theorem take_extend (body : Bytes) (pos n : ℕ) :
    body.take pos ++ (body.drop pos).take n = body.take (pos + ((body.drop pos).take n).length) := by
  have hall : (body.drop pos).take (body.drop pos).length = body.drop pos := List.take_length
  rw [List.take_add, List.length_take, ← List.take_take, hall]

theorem prefix_extend {got body : Bytes} (h : got <+: body) (n : ℕ) :
    got ++ (body.drop got.length).take n = body.take (got.length + ((body.drop got.length).take n).length) := by
  rw [← take_extend, ← List.prefix_iff_eq_take.1 h]

/-- What has been read, and so played, is the request's own; all of it when playing
ended at the end of the file. -/
structure Reader.Own (body : Bytes) (r : Reader) : Prop where
  read : r.read <+: body
  eof : r.eof → r.read = body
  whole : r.atEnd → r.read = body

theorem own_init (body : Bytes) : Reader.init.Own body :=
  ⟨List.nil_prefix, by simp [Reader.init], by simp [Reader.init]⟩

theorem own_header (body : Bytes) :
    Reader.Own body {Reader.init with
      head := body.take 44
      eof := decide ((body.take 44).length < 44)} := by
  have hread : ∀ eof, (Reader.mk (body.take 44) [] eof false).read = body.take 44 := by
    simp [Reader.read]
  refine ⟨?_, fun he => ?_, by simp [Reader.init]⟩
  · exact (hread _).symm ▸ List.take_prefix ..
  · rw [decide_eq_true_iff, List.length_take] at he
    refine (hread _).trans (List.take_of_length_le ?_)
    omega

namespace Handler
variable {φ : Type} {h h' : Handler φ} {content content' : Option Bytes} {env : Env}

/- From the creation of the file to the end of playing. -/
def Holding (h : Handler φ) : Prop :=
  match h.pc with
  | .write _ | .openRead | .header | .setup _ | .play => True
  | .create | .reply _ | .done => False

/- Nothing has been read yet. -/
def Saving (h : Handler φ) : Prop :=
  match h.pc with
  | .create | .write _ | .openRead | .header => True
  | .setup _ | .play | .reply _ | .done => False

def Creates (env : Env) (h : Handler φ) : Prop := h.pc = .create ∧ env.opens

instance (h : Handler φ) : Decidable h.Holding := by
  unfold Holding
  split <;> infer_instance

instance (env : Env) (h : Handler φ) : Decidable (h.Creates env) :=
  inferInstanceAs (Decidable (_ ∧ _))

/- What is in the file while the request holds it. -/
def stored (h : Handler φ) : Bytes :=
  match h.pc with
  | .write pos => h.body.take pos
  | _ => h.body

structure Good (h : Handler φ) : Prop where
  own : h.reader.Own h.body
  saving : h.Saving → h.reader = .init
  pos : ∀ pos, h.pc = .write pos → pos ≤ h.body.length

theorem arrive_pc (resolve : String → φ) (u : Upload) :
    (arrive resolve u).pc = .create ∨ ∃ r, (arrive resolve u).pc = .reply r := by
  unfold arrive
  dsimp only
  split
  · exact .inr ⟨_, rfl⟩
  · split
    · exact .inl rfl
    · exact .inr ⟨_, rfl⟩

theorem arrive_good (resolve : String → φ) (u : Upload) :
    (arrive resolve u).Good ∧ ¬(arrive resolve u).Holding := by
  rcases arrive_pc resolve u with hpc | ⟨r, hpc⟩
  · exact ⟨⟨own_init _, fun _ => rfl, by simp [hpc]⟩, by simp [Holding, hpc]⟩
  · exact ⟨⟨own_init _, fun _ => rfl, by simp [hpc]⟩, by simp [Holding, hpc]⟩

/- The write that goes on where the last one ended. -/
theorem writeAt_next (body : Bytes) (pos n : ℕ) (hpos : pos ≤ body.length) :
    writeAt (body.take pos) pos ((body.drop pos).take n) =
      body.take (pos + ((body.drop pos).take n).length) := by
  have hlen : (body.take pos).length = pos := List.length_take_of_le hpos
  have hdrop : (body.take pos).drop (pos + ((body.drop pos).take n).length) = [] :=
    List.drop_eq_nil_of_le (by omega)
  have htake : (body.take pos).take pos = body.take pos := List.take_of_length_le hlen.le
  rw [writeAt, hlen, Nat.sub_self, List.replicate_zero, List.append_nil, store, hdrop, htake,
    List.append_nil, take_extend]

/- A chunk read behind what has been read. -/
theorem own_chunk {body : Bytes} {r : Reader} (h : r.Own body) (n : ℕ)
    (hne : (body.drop r.read.length).take n ≠ []) :
    Reader.Own body {r with
      chunks := r.chunks ++ [(body.drop r.read.length).take n]
      eof := decide (((body.drop r.read.length).take n).length < n)} := by
  have hread : ∀ eof, (Reader.mk r.head (r.chunks ++ [(body.drop r.read.length).take n]) eof
      r.atEnd).read = body.take (r.read.length + ((body.drop r.read.length).take n).length) := by
    intro eof
    rw [← prefix_extend h.read]
    simp [Reader.read]
  refine ⟨?_, fun he => ?_, fun hend => ?_⟩
  · exact (hread _).symm ▸ List.take_prefix ..
  · rw [decide_eq_true_iff, List.length_take, List.length_drop] at he
    refine (hread _).trans (List.take_of_length_le ?_)
    rw [List.length_take, List.length_drop]
    omega
  · refine absurd ?_ hne
    rw [h.whole hend, List.drop_length, List.take_nil]

/- A request that only has to answer needs its file no more. -/
theorem good_replied {r : Response} (hpc : h.pc = .reply r) (hown : h.reader.Own h.body) :
    h.Good ∧ (h.Holding → content = some h.stored) :=
  ⟨⟨hown, by simp [Saving, hpc], by simp [hpc]⟩, by simp [Holding, hpc]⟩

theorem next_good (hg : h.Good) (hc : h.Holding → content = some h.stored)
    (hn : h.next content env = some (h', content')) :
    h'.Good ∧ (h'.Holding → content' = some h'.stored) := by
  cases hpc : h.pc with
  | create =>
    have hinit := hg.saving (by simp [Saving, hpc])
    simp only [next, hpc] at hn
    split at hn
    · cases hn
      exact ⟨⟨hg.own, fun _ => hinit, by simp⟩, fun _ => by simp [stored]⟩
    · cases hn
      exact good_replied rfl hg.own
  | write pos =>
    have hinit := hg.saving (by simp [Saving, hpc])
    have hstored : content = some (h.body.take pos) := by
      simpa [stored, hpc] using hc (by simp [Holding, hpc])
    simp only [next, hpc, hstored, Option.getD_some, writeAt_next h.body pos _ (hg.pos pos hpc)] at hn
    cases hn
    by_cases hmore : pos + ((h.body.drop pos).take env.pieces).length < h.body.length
    · refine ⟨⟨hg.own, fun _ => hinit, fun p hp => ?_⟩, fun _ => ?_⟩
      · rw [if_pos hmore, Pc.write.injEq] at hp
        exact hp ▸ hmore.le
      · simp only [stored, if_pos hmore]
    · refine ⟨⟨hg.own, fun _ => hinit, fun p hp => ?_⟩, fun _ => ?_⟩
      · rw [if_neg hmore] at hp
        cases hp
      · simp only [stored, if_neg hmore]
        rw [List.take_of_length_le (by omega)]
  | openRead =>
    have hinit := hg.saving (by simp [Saving, hpc])
    have hstored : content = some h.body := by
      simpa [stored, hpc] using hc (by simp [Holding, hpc])
    simp only [next, hpc, hstored] at hn
    cases hn
    cases env.opens with
    | true => exact ⟨⟨hg.own, fun _ => hinit, by simp⟩, fun _ => by simp [stored]⟩
    | false => exact good_replied rfl hg.own
  | header =>
    have hinit := hg.saving (by simp [Saving, hpc])
    have hstored : content = some h.body := by
      simpa [stored, hpc] using hc (by simp [Holding, hpc])
    have hown := own_header h.body
    simp only [next, hpc, hstored, hinit, Option.getD_some] at hn
    cases hn
    split
    · exact ⟨⟨hown, by simp [Saving], by simp⟩, fun _ => by simp [stored]⟩
    · exact good_replied rfl hown
  | setup bits =>
    have hstored : content = some h.body := by
      simpa [stored, hpc] using hc (by simp [Holding, hpc])
    simp only [next, hpc, hstored] at hn
    split at hn
    · cases hn
      exact good_replied rfl hg.own
    · split at hn
      · cases hn
        exact ⟨⟨hg.own, by simp [Saving], by simp⟩, fun _ => by simp [stored]⟩
      · cases hn
        exact good_replied rfl hg.own
  | play =>
    have hstored : content = some h.body := by
      simpa [stored, hpc] using hc (by simp [Holding, hpc])
    have hended : h.reader.read = h.body → Reader.Own h.body {h.reader with atEnd := true} :=
      fun hwhole => ⟨hg.own.read, hg.own.eof, fun _ => hwhole⟩
    simp only [next, hpc, hstored, Option.getD_some] at hn
    split at hn
    · rename_i heof
      cases hn
      exact good_replied rfl (hended (hg.own.eof heof))
    · split at hn
      · rename_i hnil
        cases hn
        have hdrop : h.body.drop h.reader.read.length = [] := by
          rcases List.take_eq_nil_iff.1 hnil with hz | hz
          · simp [bufferSize] at hz
          · exact hz
        have hwhole : h.reader.read = h.body :=
          hg.own.read.eq_of_length_le (List.drop_eq_nil_iff.1 hdrop)
        exact good_replied rfl (hended hwhole)
      · rename_i hne
        cases hn
        have hown := own_chunk hg.own bufferSize hne
        cases env.writei with
        | true => exact ⟨⟨hown, by simp [Saving], by simp⟩, fun _ => by simp [stored]⟩
        | false => exact good_replied rfl hown
  | reply r =>
    simp only [next, hpc] at hn
    cases hn
    exact ⟨⟨hg.own, by simp [Saving], by simp⟩, by simp [Holding]⟩
  | done =>
    simp only [next, hpc] at hn
    cases hn

theorem next_file (hn : h.next content env = some (h', content')) : h'.file = h.file := by
  cases hpc : h.pc <;> simp only [next, hpc] at hn
  case create | openRead | setup | play => (repeat' split at hn) <;> cases hn <;> rfl
  case write | header | reply | done => cases hn <;> rfl

/- A request touches the content of its file only while it holds it, or by creating it. -/
theorem next_touches (hn : h.next content env = some (h', content')) :
    (h'.Holding → h.Holding ∨ h.Creates env) ∧
      (¬h.Holding → ¬h.Creates env → content' = content) := by
  by_cases hhold : h.Holding
  · exact ⟨fun _ => .inl hhold, fun hno => absurd hhold hno⟩
  · cases hpc : h.pc with
    | create =>
      simp only [next, hpc] at hn
      split at hn
      · rename_i ho
        cases hn
        exact ⟨fun _ => .inr ⟨hpc, ho⟩, fun _ hno => absurd ⟨hpc, ho⟩ hno⟩
      · cases hn
        exact ⟨by simp [Holding], fun _ _ => rfl⟩
    | reply r =>
      simp only [next, hpc] at hn
      cases hn
      exact ⟨by simp [Holding], fun _ _ => rfl⟩
    | done =>
      simp only [next, hpc] at hn
      cases hn
    | write | openRead | header | setup | play => exact absurd (by simp [Holding, hpc]) hhold

end Handler

/-! ### All interleavings -/

namespace Server
variable {ι φ : Type} {s s' : Server ι φ}

/- No file is created that another request has created and not yet played. -/
def Exclusive (s : Server ι φ) : Act ι → Prop
  | .arrive _ _ => True
  | .run i env => ∀ h ∈ s.handler i, h.Creates env →
      ∀ j, ∀ k ∈ s.handler j, k.Holding → k.file ≠ h.file

instance [Fintype ι] [DecidableEq φ] (s : Server ι φ) (a : Act ι) : Decidable (s.Exclusive a) :=
  match a with
  | .arrive _ _ => .isTrue trivial
  | .run i env => inferInstanceAs (Decidable (∀ h ∈ s.handler i, h.Creates env →
      ∀ j, ∀ k ∈ s.handler j, k.Holding → k.file ≠ h.file))

structure Safe (s : Server ι φ) : Prop where
  good : ∀ i h, s.handler i = some h → h.Good
  stored : ∀ i h, s.handler i = some h → h.Holding → s.content h.file = some h.stored
  alone : ∀ i j h k, s.handler i = some h → s.handler j = some k → h.Holding → k.Holding →
    h.file = k.file → i = j

/- The other holders keep clear of the file of the request that runs, if it
touches the content. -/
theorem run_clear {i j : ι} {env : Env} {k m : Handler φ} (h : s.Safe)
    (hok : s.Exclusive (.run i env)) (hk : s.handler i = some k) (hm : s.handler j = some m)
    (hij : j ≠ i) (hold : m.Holding) (htouch : k.Holding ∨ k.Creates env) : m.file ≠ k.file := by
  rcases htouch with hkold | hcreate
  · intro hf
    exact hij (h.alone j i m k hm hk hold hkold hf)
  · exact hok k hk hcreate j m hm hold

variable [DecidableEq ι] [DecidableEq φ] {resolve : String → φ}

theorem arrive_inv {i : ι} {u : Upload} (h : s.step resolve (.arrive i u) = some s') :
    s.handler i = none ∧
      s' = {s with handler := Function.update s.handler i (some (.arrive resolve u))} := by
  simp only [step] at h
  split at h
  · cases h
  · rename_i hnone
    cases h
    exact ⟨hnone, rfl⟩

theorem run_inv {i : ι} {env : Env} (h : s.step resolve (.run i env) = some s') :
    ∃ k k' content, s.handler i = some k ∧ k.next (s.content k.file) env = some (k', content) ∧
      s' = ⟨Function.update s.content k.file content, Function.update s.handler i (some k')⟩ := by
  simp only [step] at h
  split at h
  · cases h
  · rename_i k hk
    obtain ⟨⟨k', content⟩, hn, hs⟩ := Option.map_eq_some_iff.1 h
    exact ⟨k, k', content, hk, hn, hs.symm⟩

theorem arrive_safe {i : ι} {u : Upload} (h : s.Safe)
    (hs : s.step resolve (.arrive i u) = some s') : s'.Safe := by
  obtain ⟨_, rfl⟩ := arrive_inv hs
  obtain ⟨hgood, hfree⟩ := Handler.arrive_good resolve u
  refine ⟨fun j k hk => ?_, fun j k hk hold => ?_, fun j l k m hk hm hold hold' hf => ?_⟩
  · rcases update_inv hk with ⟨_, rfl⟩ | ⟨_, hk⟩
    · exact hgood
    · exact h.good j k hk
  · rcases update_inv hk with ⟨_, rfl⟩ | ⟨_, hk⟩
    · exact absurd hold hfree
    · exact h.stored j k hk hold
  · rcases update_inv hk with ⟨_, rfl⟩ | ⟨_, hk⟩
    · exact absurd hold hfree
    · rcases update_inv hm with ⟨_, rfl⟩ | ⟨_, hm⟩
      · exact absurd hold' hfree
      · exact h.alone j l k m hk hm hold hold' hf

theorem run_safe {i : ι} {env : Env} (h : s.Safe) (hok : s.Exclusive (.run i env))
    (hs : s.step resolve (.run i env) = some s') : s'.Safe := by
  obtain ⟨k, k', content, hk, hn, rfl⟩ := run_inv hs
  obtain ⟨hgood, hstored⟩ := Handler.next_good (h.good i k hk) (h.stored i k hk) hn
  obtain ⟨hhold, hkeep⟩ := Handler.next_touches hn
  have hfile := Handler.next_file hn
  refine ⟨fun j m hm => ?_, fun j m hm hold => ?_, fun j l m n hm hl hold hold' hf => ?_⟩
  · rcases update_inv hm with ⟨_, rfl⟩ | ⟨_, hm⟩
    · exact hgood
    · exact h.good j m hm
  · rcases update_inv hm with ⟨_, rfl⟩ | ⟨hij, hm⟩
    · rw [hfile]
      exact (Function.update_self ..).trans (hstored hold)
    · -- Another holder's file is untouched, or not touched by this step.
      by_cases htouch : k.Holding ∨ k.Creates env
      · have hclear := run_clear h hok hk hm hij hold htouch
        exact (Function.update_of_ne hclear ..).trans (h.stored j m hm hold)
      · rw [not_or] at htouch
        have hsame := hkeep htouch.1 htouch.2
        rw [hsame, Function.update_eq_self]
        exact h.stored j m hm hold
  · rcases update_inv hm with ⟨hj, rfl⟩ | ⟨hij, hm'⟩
    · rcases update_inv hl with ⟨hl', rfl⟩ | ⟨hil, hl⟩
      · rw [hj, hl']
      · exact absurd (hfile ▸ hf).symm (run_clear h hok hk hl hil hold' (hhold hold))
    · rcases update_inv hl with ⟨_, rfl⟩ | ⟨_, hl⟩
      · exact absurd (hfile ▸ hf) (run_clear h hok hk hm' hij hold (hhold hold'))
      · exact h.alone j l m n hm' hl hold hold' hf

/-- In every run in which no request creates a file that another one has created
and not yet played, what each request has read, and so what it hands to the
device, is its own upload: a prefix of the body at every moment, and the whole
body when playing has ended at the end of the file. -/
theorem plays_own (resolve : String → φ) (content : φ → Option Bytes) (acts : List (Act ι))
    (h : Along (step resolve) Exclusive (init content) acts) (i : ι) (k : Handler φ)
    (hk : (after resolve content acts).handler i = some k) :
    k.reader.read <+: k.body ∧ (k.reader.atEnd → k.reader.read = k.body) := by
  have hsafe : (after resolve content acts).Safe := by
    refine exec_invariant_along (step resolve) Exclusive Safe (fun s a s' hs hok hstep => ?_)
      (init content) ⟨by simp [init], by simp [init], by simp [init]⟩ acts h
    cases a with
    | arrive i u => exact arrive_safe hs hstep
    | run i env => exact run_safe hs hok hstep
  have hown := (hsafe.good i k hk).own
  exact ⟨hown.read, hown.whole⟩

/- A WAV file: PCM, 16 bits, and its samples. -/
def wav (samples : Bytes) : Bytes :=
  List.replicate 20 0 ++ [1, 0] ++ List.replicate 12 0 ++ [16, 0] ++ List.replicate 8 0 ++ samples

/- All goes well, on a device with one channel. -/
def fine : Env := ⟨true, 4096, [], some 1, true⟩

def upload (i : Bool) (filename : Option String) (samples : Bytes) : Act Bool :=
  .arrive i ⟨wav samples, filename⟩

/- Two clients save one after the other, and the first plays. -/
def twoClients (first second : Option String) : List (Act Bool) :=
  upload false first [1, 1] :: upload true second [2, 2] ::
    [.run false fine, .run false fine, .run true fine, .run true fine, .run false fine,
      .run false fine, .run false fine, .run false fine, .run false fine]

/- With names of their own. -/
theorem plays_own_named :
    ∃ k, (after id (fun _ => none) (twoClients (some "a.wav") (some "b.wav"))).handler false = some k ∧
      k.reader.atEnd ∧ k.reader.read = k.body ∧ k.handed = [[1, 1]] := by
  have hplayed : ((after id (fun _ => none) (twoClients (some "a.wav") (some "b.wav"))).handler
      false).map (fun k => (k.reader.atEnd, k.handed)) = some (true, [[1, 1]]) := by decide +kernel
  obtain ⟨k, hk, hp⟩ := Option.map_eq_some_iff.1 hplayed
  rw [Prod.mk.injEq] at hp
  have hown := plays_own id (fun _ => none) (twoClients (some "a.wav") (some "b.wav"))
    (by decide +kernel) false k hk
  exact ⟨k, hk, hp.1, hown.2 hp.1, hp.2⟩

/- Without names: the first client hears the second one's samples. -/
theorem plays_other_unnamed :
    ((after id (fun _ => none) (twoClients none none)).handler false).map
      (fun k => (k.body, k.reader.read, k.reader.atEnd, k.handed)) =
      some (wav [1, 1], wav [2, 2], true, [[2, 2]]) ∧
    ¬∀ (i : Bool) k, (after id (fun _ => none) (twoClients none none)).handler i = some k →
      k.reader.read <+: k.body := by
  have hplayed : ((after id (fun _ => none) (twoClients none none)).handler false).map
      (fun k => (k.body, k.reader.read, k.reader.atEnd, k.handed)) =
      some (wav [1, 1], wav [2, 2], true, [[2, 2]]) := by decide +kernel
  refine ⟨hplayed, fun h => ?_⟩
  obtain ⟨k, hk, hp⟩ := Option.map_eq_some_iff.1 hplayed
  rw [Prod.mk.injEq, Prod.mk.injEq] at hp
  have hown := h false k hk
  rw [hp.1, hp.2.1] at hown
  exact absurd hown (by decide)

end Server

end TypegoSdk.Audio
