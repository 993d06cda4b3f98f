import TypegoSdk.Lib.Exec
import Mathlib.Logic.Function.Basic

/-!
# DdsEasyModel (include/unitree/common/dds/dds_easy_model.hpp)

The map from topics to channels, and what `SetTopic` and `WriteMessage` do to
it. The map erases the message type of a channel. Creating a topic, a writer or
a reader may throw, and each call says which of its creations do.
-/

namespace TypegoSdk.Dds
open TypegoSdk.Lib
variable {μ : Type}

/-- A `DdsTopicChannel<MSG>`: the MSG it was created with, and the MSG of each
entity that has been created in it. -/
structure Channel (μ : Type) where
  created : μ
  topic : Option μ
  writer : Option μ
  reader : Option μ
  deriving DecidableEq

inductive Failure where
  | topic
  | writer
  | reader
  | listener
  | exist (text : String)
  deriving DecidableEq

/- `undefined` is a call on a null pointer. -/
inductive Result where
  | returned
  | wrote (done : Bool)
  | threw (e : Failure)
  | undefined
  deriving DecidableEq

inductive Call (μ : Type) where
  | setWriter (topic : String) (msg : μ) (topicFails writerFails : Bool)
  | setReader (topic : String) (msg : μ) (topicFails readerFails listenerFails : Bool)
  | writeMessage (topic : String) (msg : μ) (done : Bool)
  deriving DecidableEq

/- `calls` are the calls made so far; there is none after an undefined one. -/
structure EasyModel (μ : Type) where
  channelMap : String → Option (Channel μ)
  calls : List (Call μ)
  undefined : Bool

namespace EasyModel

def init : EasyModel μ := ⟨fun _ => none, [], false⟩

/- The cast to `DdsTopicChannel<MSG>` is a static one. -/
def getChannel (s : EasyModel μ) (_msg : μ) (topic : String) : Option (Channel μ) :=
  s.channelMap topic

def put (s : EasyModel μ) (topic : String) (channel : Channel μ) : EasyModel μ :=
  {s with channelMap := Function.update s.channelMap topic (some channel)}

def existText (topic : String) : String := "topic reader is already exist. topic:" ++ topic

/- The first part of both `SetTopic`: the channel is in the map before its topic
is created. -/
def openChannel (s : EasyModel μ) (topic : String) (msg : μ) (topicFails : Bool) :
    EasyModel μ × Except Failure (Channel μ) :=
  match s.getChannel msg topic with
  | some channel => (s, .ok channel)
  | none =>
    let s := s.put topic ⟨msg, none, none, none⟩
    if topicFails then (s, .error .topic)
    else
      let channel := ⟨msg, some msg, none, none⟩
      (s.put topic channel, .ok channel)

/- The second part of each. -/
def addWriter (s : EasyModel μ) (topic : String) (channel : Channel μ) (msg : μ)
    (writerFails : Bool) : EasyModel μ × Result :=
  match channel.writer with
  | some _ => (s, .threw (.exist (existText topic)))
  | none =>
    if channel.topic = none then (s, .undefined)
    else if writerFails then (s, .threw .writer)
    else (s.put topic {channel with writer := some msg}, .returned)

def addReader (s : EasyModel μ) (topic : String) (channel : Channel μ) (msg : μ)
    (readerFails listenerFails : Bool) : EasyModel μ × Result :=
  match channel.reader with
  | some _ => (s, .threw (.exist (existText topic)))
  | none =>
    if channel.topic = none then (s, .undefined)
    else if readerFails then (s, .threw .reader)
    else
      let s := s.put topic {channel with reader := some msg}
      if listenerFails then (s, .threw .listener) else (s, .returned)

def setWriter (s : EasyModel μ) (topic : String) (msg : μ) (topicFails writerFails : Bool) :
    EasyModel μ × Result :=
  match s.openChannel topic msg topicFails with
  | (s, .error e) => (s, .threw e)
  | (s, .ok channel) => s.addWriter topic channel msg writerFails

def setReader (s : EasyModel μ) (topic : String) (msg : μ)
    (topicFails readerFails listenerFails : Bool) : EasyModel μ × Result :=
  match s.openChannel topic msg topicFails with
  | (s, .error e) => (s, .threw e)
  | (s, .ok channel) => s.addReader topic channel msg readerFails listenerFails

def writeMessage (s : EasyModel μ) (topic : String) (msg : μ) (done : Bool) :
    EasyModel μ × Result :=
  match s.getChannel msg topic with
  | none => (s, .wrote false)
  | some channel => if channel.writer = none then (s, .undefined) else (s, .wrote done)

def run (s : EasyModel μ) : Call μ → EasyModel μ × Result
  | .setWriter topic msg topicFails writerFails => s.setWriter topic msg topicFails writerFails
  | .setReader topic msg topicFails readerFails listenerFails =>
    s.setReader topic msg topicFails readerFails listenerFails
  | .writeMessage topic msg done => s.writeMessage topic msg done

def step (s : EasyModel μ) (call : Call μ) : Option (EasyModel μ) :=
  if s.undefined then none
  else
    let r := s.run call
    some {r.1 with calls := s.calls ++ [call], undefined := r.2 == .undefined}

def after (acts : List (Call μ)) : EasyModel μ := exec step init acts

end EasyModel

/-! ### What a call does to the map -/

namespace Call

def topic : Call μ → String
  | .setWriter topic _ _ _ => topic
  | .setReader topic _ _ _ _ => topic
  | .writeMessage topic _ _ => topic

def msg : Call μ → μ
  | .setWriter _ msg _ _ => msg
  | .setReader _ msg _ _ _ => msg
  | .writeMessage _ msg _ => msg

/- A `SetTopic` of either kind, and whether its topic can be created. -/
def sets : Call μ → Bool
  | .setWriter _ _ _ _ => true
  | .setReader _ _ _ _ _ => true
  | .writeMessage _ _ _ => false

def topicFails : Call μ → Bool
  | .setWriter _ _ topicFails _ => topicFails
  | .setReader _ _ topicFails _ _ => topicFails
  | .writeMessage _ _ _ => false

end Call

namespace EasyModel
variable {s s' : EasyModel μ}

theorem openChannel_cases (s : EasyModel μ) (topic : String) (msg : μ) (topicFails : Bool) :
    (∃ channel, s.channelMap topic = some channel ∧
      s.openChannel topic msg topicFails = (s, .ok channel)) ∨
    (s.channelMap topic = none ∧ topicFails = true ∧
      s.openChannel topic msg topicFails = (s.put topic ⟨msg, none, none, none⟩, .error .topic)) ∨
    (s.channelMap topic = none ∧ topicFails = false ∧ s.openChannel topic msg topicFails =
      (s.put topic ⟨msg, some msg, none, none⟩, .ok ⟨msg, some msg, none, none⟩)) := by
  cases hc : s.channelMap topic with
  | some channel => exact .inl ⟨channel, rfl, by simp [openChannel, getChannel, hc]⟩
  | none =>
    cases topicFails with
    | true => exact .inr (.inl ⟨rfl, rfl, by simp [openChannel, getChannel, hc]⟩)
    | false => exact .inr (.inr ⟨rfl, rfl, by simp [openChannel, getChannel, hc, put]⟩)

/- The channel keeps its type and its topic. -/
def Keeps (s : EasyModel μ) (topic : String) (old : Channel μ)
    (map : String → Option (Channel μ)) : Prop :=
  ∃ channel, map = Function.update s.channelMap topic (some channel) ∧
    channel.created = old.created ∧ channel.topic = old.topic

theorem keeps_refl {topic : String} {channel : Channel μ} (h : s.channelMap topic = some channel) :
    s.Keeps topic channel s.channelMap :=
  ⟨channel, (Function.update_eq_self_iff.2 h.symm).symm, rfl, rfl⟩

/- The second part of a `SetTopic` keeps the channel's type and its topic, and
does not create the topic. -/
def Adds (topic : String) (add : EasyModel μ → Channel μ → EasyModel μ × Result) : Prop :=
  ∀ s channel, s.channelMap topic = some channel →
    s.Keeps topic channel (add s channel).1.channelMap ∧ (add s channel).2 ≠ .threw .topic

theorem addWriter_adds (topic : String) (msg : μ) (writerFails : Bool) :
    Adds topic fun s channel => s.addWriter topic channel msg writerFails := by
  intro s channel h
  dsimp only
  unfold addWriter
  split
  · exact ⟨keeps_refl h, by simp⟩
  · split
    · exact ⟨keeps_refl h, by simp⟩
    · split
      · exact ⟨keeps_refl h, by simp⟩
      · exact ⟨⟨_, rfl, rfl, rfl⟩, by simp⟩

theorem addReader_adds (topic : String) (msg : μ) (readerFails listenerFails : Bool) :
    Adds topic fun s channel => s.addReader topic channel msg readerFails listenerFails := by
  intro s channel h
  dsimp only
  unfold addReader
  split
  · exact ⟨keeps_refl h, by simp⟩
  · split
    · exact ⟨keeps_refl h, by simp⟩
    · split
      · exact ⟨keeps_refl h, by simp⟩
      · split
        · exact ⟨⟨_, rfl, rfl, rfl⟩, by simp⟩
        · exact ⟨⟨_, rfl, rfl, rfl⟩, by simp⟩

/- The two `SetTopic` differ in their second part. -/
theorem run_sets (call : Call μ) (h : call.sets) : ∃ add, Adds call.topic add ∧
    ∀ s : EasyModel μ, s.run call =
      match s.openChannel call.topic call.msg call.topicFails with
      | (s, .error e) => (s, .threw e)
      | (s, .ok channel) => add s channel := by
  cases call with
  | setWriter topic msg topicFails writerFails =>
    exact ⟨_, addWriter_adds topic msg writerFails, fun _ => rfl⟩
  | setReader topic msg topicFails readerFails listenerFails =>
    exact ⟨_, addReader_adds topic msg readerFails listenerFails, fun _ => rfl⟩
  | writeMessage topic msg done => cases h

/- What a `SetTopic` leaves in the map: the channel that was there, or a new one
of the call's type. -/
def Opened (s : EasyModel μ) (call : Call μ) (map : String → Option (Channel μ)) : Prop :=
  match s.channelMap call.topic with
  | some old => s.Keeps call.topic old map
  | none => s.Keeps call.topic
      ⟨call.msg, if call.topicFails then none else some call.msg, none, none⟩ map

/- Only the channel of the call's topic changes. -/
theorem Opened.other {call : Call μ} {map : String → Option (Channel μ)} (h : s.Opened call map)
    {topic : String} (ht : topic ≠ call.topic) : map topic = s.channelMap topic := by
  have hkept : ∀ old, s.Keeps call.topic old map → map topic = s.channelMap topic := by
    intro old ho
    obtain ⟨channel, hupd, _⟩ := ho
    rw [hupd, Function.update_of_ne ht]
  unfold Opened at h
  split at h
  · exact hkept _ h
  · exact hkept _ h

theorem Keeps.of_put {topic : String} {old : Channel μ} {map : String → Option (Channel μ)}
    (h : (s.put topic old).Keeps topic old map) : s.Keeps topic old map := by
  obtain ⟨channel, hmap, hkept⟩ := h
  exact ⟨channel, hmap.trans (Function.update_idem ..), hkept⟩

/- The topic is created only with its channel. -/
theorem run_opened (s : EasyModel μ) (call : Call μ) (h : call.sets) :
    s.Opened call (s.run call).1.channelMap ∧
      ((s.run call).2 = .threw .topic → s.channelMap call.topic = none ∧ call.topicFails) := by
  obtain ⟨add, hadd, hrun⟩ := run_sets call h
  rcases openChannel_cases s call.topic call.msg call.topicFails with
    ⟨channel, hc, ho⟩ | ⟨hc, hf, ho⟩ | ⟨hc, hf, ho⟩
  · obtain ⟨hkeeps, hthrows⟩ := hadd s channel hc
    rw [hrun, ho]
    simp only [Opened, hc]
    exact ⟨hkeeps, fun ht => absurd ht hthrows⟩
  · rw [hrun, ho]
    simp only [Opened, hc, hf]
    exact ⟨⟨_, rfl, rfl, rfl⟩, fun _ => ⟨trivial, trivial⟩⟩
  · obtain ⟨hkeeps, hthrows⟩ := hadd (s.put call.topic ⟨call.msg, some call.msg, none, none⟩) _
      (Function.update_self ..)
    rw [hrun, ho]
    simp only [Opened, hc, hf]
    exact ⟨hkeeps.of_put, fun ht => absurd ht hthrows⟩

theorem run_write (s : EasyModel μ) (call : Call μ) (h : call.sets = false) :
    (s.run call).1.channelMap = s.channelMap := by
  cases call with
  | writeMessage topic msg done =>
    simp only [run, writeMessage]
    split
    · rfl
    · split <;> rfl
  | setWriter | setReader => cases h

theorem step_run {call : Call μ} (h : s.step call = some s') :
    s'.channelMap = (s.run call).1.channelMap ∧ s'.calls = s.calls ++ [call] := by
  unfold step at h
  split at h
  · cases h
  · cases h
    exact ⟨rfl, rfl⟩

/-! ### Atomicity of SetTopic -/

def AllCreated (map : String → Option (Channel μ)) : Prop :=
  ∀ topic channel, map topic = some channel → channel.topic ≠ none

/- Every registered channel has a topic after the call, and a call whose topic
could not be created has left the map alone. -/
def Atomic (s : EasyModel μ) (call : Call μ) : Prop :=
  AllCreated (s.run call).1.channelMap ∧
    ((s.run call).2 = .threw .topic → (s.run call).1.channelMap = s.channelMap)

/- The topic of a new channel can be created. -/
def CreatesTopic (s : EasyModel μ) (call : Call μ) : Prop :=
  call.sets → s.channelMap call.topic = none → call.topicFails = false

instance [DecidableEq μ] (s : EasyModel μ) (call : Call μ) : Decidable (s.CreatesTopic call) :=
  inferInstanceAs (Decidable (_ → _ → _))

theorem Keeps.allCreated {topic : String} {old : Channel μ} {map : String → Option (Channel μ)}
    (h : s.Keeps topic old map) (hs : AllCreated s.channelMap) (hold : old.topic ≠ none) :
    AllCreated map := by
  obtain ⟨channel, rfl, _, htopic⟩ := h
  intro t c hc
  by_cases ht : t = topic
  · subst ht
    rw [Function.update_self, Option.some.injEq] at hc
    rw [← hc, htopic]
    exact hold
  · rw [Function.update_of_ne ht] at hc
    exact hs t c hc

theorem run_throws {call : Call μ} (h : (s.run call).2 = .threw .topic) :
    call.sets ∧ s.channelMap call.topic = none ∧ call.topicFails := by
  cases call with
  | setWriter => exact ⟨rfl, (run_opened s _ rfl).2 h⟩
  | setReader => exact ⟨rfl, (run_opened s _ rfl).2 h⟩
  | writeMessage topic msg done =>
    simp only [run, writeMessage] at h
    split at h
    · cases h
    · split at h <;> cases h

theorem run_creates {call : Call μ} (hs : AllCreated s.channelMap) (h : s.CreatesTopic call) :
    AllCreated (s.run call).1.channelMap := by
  cases hsets : call.sets with
  | false =>
    rw [run_write s call hsets]
    exact hs
  | true =>
    have ho := (run_opened s call hsets).1
    unfold Opened at ho
    cases hc : s.channelMap call.topic with
    | some old =>
      rw [hc] at ho
      exact ho.allCreated hs (hs _ _ hc)
    | none =>
      rw [hc] at ho
      exact ho.allCreated hs (by simp [h hsets hc])

theorem run_atomic (call : Call μ) (hs : AllCreated s.channelMap) :
    s.Atomic call ↔ s.CreatesTopic call := by
  constructor
  · intro h hsets hc
    by_contra hf
    rw [Bool.not_eq_false] at hf
    have ho := (run_opened s call hsets).1
    unfold Opened at ho
    rw [hc] at ho
    obtain ⟨channel, hmap, _, htopic⟩ := ho
    -- The channel that this call registers has no topic.
    refine h.1 call.topic channel (by rw [hmap, Function.update_self]) ?_
    rw [htopic]
    exact if_pos hf
  · intro h
    refine ⟨run_creates hs h, fun ht => ?_⟩
    obtain ⟨hsets, hc, hf⟩ := run_throws ht
    rw [h hsets hc] at hf
    cases hf

/-- All the calls of a history are atomic exactly when the topic of every channel
that they register can be created. -/
theorem setTopic_atomic (acts : List (Call μ)) :
    Along step Atomic (init : EasyModel μ) acts ↔ Along step CreatesTopic init acts := by
  refine along_congr step (fun s => AllCreated s.channelMap) ?_ ?_ init (by simp [AllCreated, init])
    acts
  · intro s call s' hs _
    exact run_atomic call hs
  · intro s call s' hs hok hstep
    rw [(step_run hstep).1]
    exact run_creates hs hok

/- A reader that cannot be created, and the writer and the reader of its topic afterwards. -/
theorem setTopic_atomic_reader_fails :
    Along step Atomic (init : EasyModel String)
      [.setReader "rt/lowstate" "LowState_" false true false,
        .setWriter "rt/lowstate" "LowState_" true false,
        .setReader "rt/lowstate" "LowState_" false false false] :=
  (setTopic_atomic _).2 (by decide)

/- The topic of a writer cannot be created. Its channel stays, and the second
call takes it for one that has a topic. -/
theorem setTopic_leaves_channel :
    (after [.setWriter "rt/lowcmd" "LowCmd_" true false]).channelMap "rt/lowcmd" =
      some ⟨"LowCmd_", none, none, none⟩ ∧
    ((after [.setWriter "rt/lowcmd" "LowCmd_" true false]).run
      (.setWriter "rt/lowcmd" "LowCmd_" false false)).2 = .undefined ∧
    ¬Along step Atomic init [.setWriter "rt/lowcmd" "LowCmd_" true false] := by
  refine ⟨by decide, by decide, fun h => ?_⟩
  have hatomic := h.1 rfl
  exact hatomic.1 "rt/lowcmd" ⟨"LowCmd_", none, none, none⟩ (by decide) rfl

/-! ### The message type of a channel -/

/- The types of the channels are those of the first `SetTopic` on their topics. -/
def Typed (s : EasyModel μ) : Prop :=
  ∀ topic, (s.channelMap topic).map (·.created) =
    (s.calls.find? fun call => call.sets && call.topic == topic).map (·.msg)

theorem step_typed (call : Call μ) (h : s.Typed) (hs : s.step call = some s') : s'.Typed := by
  intro topic
  obtain ⟨hmap, hcalls⟩ := step_run hs
  rw [hmap, hcalls, List.find?_append]
  have ht := h topic
  cases hsets : call.sets with
  | false =>
    rw [run_write s call hsets, ht]
    simp [hsets]
  | true =>
    have ho := (run_opened s call hsets).1
    by_cases heq : call.topic = topic
    · unfold Opened at ho
      cases hc : s.channelMap topic with
      | some old =>
        -- The channel is older than this call, and so is its first `SetTopic`.
        rw [heq, hc] at ho
        obtain ⟨channel, hupd, hcreated, _⟩ := ho
        rw [hc, Option.map_some] at ht
        rw [hupd, Function.update_self, Option.map_some, hcreated, ht]
        cases hf : s.calls.find? fun call => call.sets && call.topic == topic with
        | none => simp [hf] at ht
        | some first => rfl
      | none =>
        rw [heq, hc] at ho
        obtain ⟨channel, hupd, hcreated, _⟩ := ho
        rw [hc, Option.map_none, eq_comm, Option.map_eq_none_iff] at ht
        rw [hupd, Function.update_self, Option.map_some, hcreated, ht]
        simp [hsets, heq]
    · rw [ho.other (Ne.symm heq), ht]
      simp [heq]

/-- Whatever type it asks for, `GetChannel` returns the channel that the first
`SetTopic` on the topic has registered, created at that call's type. It is of the
type asked for if the `SetTopic` calls on the topic agree on that type. -/
theorem getChannel_created (acts : List (Call μ)) (msg : μ) (topic : String) :
    ((after acts).getChannel msg topic).map (·.created) =
      ((after acts).calls.find? fun call => call.sets && call.topic == topic).map (·.msg) ∧
    ∀ channel, (after acts).getChannel msg topic = some channel →
      (∀ call ∈ (after acts).calls, call.sets → call.topic = topic → call.msg = msg) →
      channel.created = msg := by
  have htyped : (after acts).Typed :=
    exec_invariant step Typed (fun _ call _ h hs => step_typed call h hs) init (fun _ => rfl) acts
  refine ⟨htyped topic, fun channel hc hagree => ?_⟩
  have ht := htyped topic
  rw [getChannel] at hc
  rw [hc, Option.map_some, eq_comm, Option.map_eq_some_iff] at ht
  obtain ⟨first, hfirst, hmsg⟩ := ht
  have hp := List.find?_some hfirst
  rw [Bool.and_eq_true, beq_iff_eq] at hp
  rw [← hmsg]
  exact hagree first (List.mem_of_find?_eq_some hfirst) hp.1 hp.2

/- The writer of LowCmd_ and a message of its type. -/
def lowCmdWriter : List (Call String) :=
  [.setWriter "rt/lowcmd" "LowCmd_" false false, .writeMessage "rt/lowcmd" "LowCmd_" true]

theorem getChannel_created_lowCmd :
    ∃ channel, (after lowCmdWriter).getChannel "LowCmd_" "rt/lowcmd" = some channel ∧
      channel.created = "LowCmd_" := by
  have hc : (after lowCmdWriter).getChannel "LowCmd_" "rt/lowcmd" =
      some ⟨"LowCmd_", some "LowCmd_", some "LowCmd_", none⟩ := by decide
  exact ⟨_, hc, (getChannel_created lowCmdWriter "LowCmd_" "rt/lowcmd").2 _ hc (by decide)⟩

/- A LowState_ is written to the same topic, and the channel of LowCmd_ takes it. -/
theorem getChannel_other_type :
    (after lowCmdWriter).getChannel "LowState_" "rt/lowcmd" =
      some ⟨"LowCmd_", some "LowCmd_", some "LowCmd_", none⟩ ∧
    ((after lowCmdWriter).run (.writeMessage "rt/lowcmd" "LowState_" true)).2 = .wrote true ∧
    ¬∀ (acts : List (Call String)) msg topic channel,
      (after acts).getChannel msg topic = some channel → channel.created = msg := by
  have hc : (after lowCmdWriter).getChannel "LowState_" "rt/lowcmd" =
      some ⟨"LowCmd_", some "LowCmd_", some "LowCmd_", none⟩ := by decide
  refine ⟨hc, by decide, fun h => ?_⟩
  have hsame := h lowCmdWriter "LowState_" "rt/lowcmd" _ hc
  simp at hsame

end EasyModel

end TypegoSdk.Dds
