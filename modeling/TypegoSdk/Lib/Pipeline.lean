import TypegoSdk.Lib.Exec
import Mathlib.Data.List.Forall2
import Mathlib.Data.List.GetD

/-!
# Loops that hand values over in buffers

Three threads: one records the states that arrive, one computes a command from the state
recorded last, and one publishes the command computed last. A buffer keeps one value,
and a reader takes the whole value. Two variables are shared without a buffer: a mode
that the computing thread stores before its command, and a mark that the recording
thread stores after its state.
-/

namespace TypegoSdk.Lib

/-! ### Values under rising numbers -/

/-- The values can be numbered so that the numbers do not fall and `P` relates each
number to its value. -/
def Rising {ι B : Type*} [Preorder ι] (P : ι → B → Prop) (ys : List B) : Prop :=
  ∃ ks : List ι, ks.Pairwise (· ≤ ·) ∧ List.Forall₂ P ks ys

section Rising
variable {ι κ B : Type*} [Preorder ι] [Preorder κ] {P Q : ι → B → Prop} {ys : List B}

theorem rising_nil : Rising P [] := ⟨[], List.Pairwise.nil, List.Forall₂.nil⟩

theorem Rising.mono (h : Rising P ys) (hPQ : ∀ k y, P k y → Q k y) : Rising Q ys := by
  obtain ⟨ks, hks, hall⟩ := h
  exact ⟨ks, hks, hall.imp fun k y => hPQ k y⟩

theorem Rising.snoc (h : Rising P ys) {n : ι} {y : B} (hn : P n y) (hmax : ∀ k z, P k z → k ≤ n) :
    Rising P (ys ++ [y]) := by
  obtain ⟨ks, hks, hall⟩ := h
  refine ⟨ks ++ [n], ?_, List.rel_append hall (List.Forall₂.cons hn List.Forall₂.nil)⟩
  refine List.pairwise_append.mpr ⟨hks, List.pairwise_singleton _ _, ?_⟩
  intro k hk m hm
  obtain ⟨i, hi, hki⟩ := List.getElem_of_mem hk
  have hpair : P (ks.get ⟨i, hi⟩) (ys.get ⟨i, hall.length_eq ▸ hi⟩) := hall.get hi _
  rw [List.mem_singleton.mp hm, ← hki]
  exact hmax _ _ hpair

theorem Rising.append_left {zs : List B} (h : Rising P (ys ++ zs)) : Rising P ys := by
  obtain ⟨ks, hks, hall⟩ := h
  have htake : List.Forall₂ P (ks.take ys.length) ys := List.forall₂_take_append ks ys zs hall
  exact ⟨ks.take ys.length, hks.sublist (List.take_sublist _ _), htake⟩

theorem Rising.mem (h : Rising P ys) {y : B} (hy : y ∈ ys) : ∃ k, P k y := by
  obtain ⟨ks, -, hall⟩ := h
  obtain ⟨i, hi, rfl⟩ := List.getElem_of_mem hy
  exact ⟨ks.get ⟨i, hall.length_eq ▸ hi⟩, hall.get _ hi⟩

theorem Rising.map {C : Type*} {R : ι → C → Prop} {f : B → C} (h : Rising P ys)
    (hf : ∀ k y, P k y → R k (f y)) : Rising R (ys.map f) := by
  obtain ⟨ks, hks, hall⟩ := h
  exact ⟨ks, hks, List.forall₂_map_right_iff.mpr (hall.imp fun k y => hf k y)⟩

end Rising

/- Later values do not disturb a sample of earlier ones. -/
theorem getElem?_grown {B : Type*} {xs : List B} {k : ℕ} {y : B} (zs : List B)
    (h : xs[k]? = some y) : (xs ++ zs)[k]? = some y := by
  obtain ⟨hk, -⟩ := List.getElem?_eq_some_iff.mp h
  rw [List.getElem?_append_left hk, h]

theorem index_le_last {B : Type*} {xs : List B} {k : ℕ} {y : B} (h : xs[k]? = some y) :
    k ≤ xs.length - 1 := by
  obtain ⟨hk, -⟩ := List.getElem?_eq_some_iff.mp h
  omega

theorem getElem?_last {B : Type*} {xs : List B} {x : B} (h : xs.getLast? = some x) :
    xs[xs.length - 1]? = some x := by
  rw [← List.getLast?_eq_getElem?, h]

/-! ### The threads -/

structure Frame (M U C : Type*) where
  mode : M
  mark : U
  command : C

/- A computation after it took a state, and after it stored its mode. -/
inductive Controlling (S C : Type*) where
  | got (s : S)
  | stored (c : C)

inductive Writing (M U C : Type*) where
  | mode (m : M)
  | mark (m : M) (u : U)
  | got (f : Frame M U C)

/-- `recorded` are the states that came in, `used` those that a command was computed
from, and `produced` the commands that were put into the buffer. -/
structure Pipeline (S U M T C : Type*) where
  state : Option S
  mark : U
  mode : M
  time : T
  command : Option C
  handling : Option U
  controlling : Option (Controlling S C)
  writing : Option (Writing M U C)
  recorded : List (S × U)
  used : List S
  produced : List C
  published : List (Frame M U C)

inductive PipelineAct (A : Type*) where
  | message (a : A)
  | mark
  | get
  | store
  | set
  | readMode
  | readMark
  | getCommand
  | write

variable {A S U M T C : Type*} (accept : A → Option (S × U)) (control : M → T → S → M × T × C)

namespace Pipeline

def init (u : U) (m : M) (t : T) : Pipeline S U M T C :=
  ⟨none, u, m, t, none, none, none, none, [], [], [], []⟩

/- An action of a thread that is at another point of its loop cannot be taken. -/
def step (p : Pipeline S U M T C) : PipelineAct A → Option (Pipeline S U M T C)
  | .message a =>
    match p.handling with
    | some _ => none
    | none =>
      match accept a with
      | none => some p
      | some (s, u) =>
        some {p with state := some s, handling := some u, recorded := p.recorded ++ [(s, u)]}
  | .mark => p.handling.map fun u => {p with mark := u, handling := none}
  | .get =>
    match p.controlling with
    | some _ => none
    | none =>
      match p.state with
      | none => some p
      | some s => some {p with controlling := some (.got s)}
  | .store =>
    match p.controlling with
    | some (.got s) =>
      let r := control p.mode p.time s
      some {p with mode := r.1, time := r.2.1, controlling := some (.stored r.2.2), used := p.used ++ [s]}
    | _ => none
  | .set =>
    match p.controlling with
    | some (.stored c) =>
      some {p with command := some c, controlling := none, produced := p.produced ++ [c]}
    | _ => none
  | .readMode =>
    match p.writing with
    | none => some {p with writing := some (.mode p.mode)}
    | some _ => none
  | .readMark =>
    match p.writing with
    | some (.mode m) => some {p with writing := some (.mark m p.mark)}
    | _ => none
  | .getCommand =>
    match p.writing with
    | some (.mark m u) =>
      match p.command with
      | none => some {p with writing := none}
      | some c => some {p with writing := some (.got ⟨m, u, c⟩)}
    | _ => none
  | .write =>
    match p.writing with
    | some (.got f) => some {p with writing := none, published := p.published ++ [f]}
    | _ => none

def after (u : U) (m : M) (t : T) (acts : List (PipelineAct A)) : Pipeline S U M T C :=
  exec (step accept control) (init u m t) acts

/-! ### What the computing thread makes of its states -/

def memory (m : M) (t : T) (ss : List S) : M × T :=
  ss.foldl (fun r s => ((control r.1 r.2 s).1, (control r.1 r.2 s).2.1)) (m, t)

def outputs : M → T → List S → List C
  | _, _, [] => []
  | m, t, s :: ss => (control m t s).2.2 :: outputs (control m t s).1 (control m t s).2.1 ss

@[simp] theorem outputs_length (m : M) (t : T) (ss : List S) :
    (outputs control m t ss).length = ss.length := by
  induction ss generalizing m t with
  | nil => rfl
  | cons s ss ih => simp only [outputs, List.length_cons, ih]

theorem memory_snoc (m : M) (t : T) (ss : List S) (s : S) :
    memory control m t (ss ++ [s]) =
      ((control (memory control m t ss).1 (memory control m t ss).2 s).1,
        (control (memory control m t ss).1 (memory control m t ss).2 s).2.1) := by
  simp only [memory, List.foldl_append, List.foldl_cons, List.foldl_nil]

theorem outputs_snoc (m : M) (t : T) (ss : List S) (s : S) :
    outputs control m t (ss ++ [s]) = outputs control m t ss ++
      [(control (memory control m t ss).1 (memory control m t ss).2 s).2.2] := by
  induction ss generalizing m t with
  | nil => rfl
  | cons x ss ih => simp only [List.cons_append, outputs, ih, memory, List.foldl_cons]

/- What the threads hold on the way. -/
def taking (p : Pipeline S U M T C) : List S :=
  match p.controlling with
  | some (.got s) => [s]
  | _ => []

def setting (p : Pipeline S U M T C) : List C :=
  match p.controlling with
  | some (.stored c) => [c]
  | _ => []

def writingFrame (p : Pipeline S U M T C) : List (Frame M U C) :=
  match p.writing with
  | some (.got f) => [f]
  | _ => []

variable (u₀ : U) (m₀ : M) (t₀ : T)

/- A mode that was there after some of the states. -/
def ModeOf (p : Pipeline S U M T C) (n : ℕ) (m : M) : Prop :=
  ∃ k, k ≤ n ∧ k ≤ p.used.length ∧ m = (memory control m₀ t₀ (p.used.take k)).1

def MarkOf (p : Pipeline S U M T C) (u : U) : Prop := u = u₀ ∨ u ∈ p.recorded.map Prod.snd

/- The frame has the command with number `n`, and a mode that is at most one command ahead. -/
def FrameOf (p : Pipeline S U M T C) (n : ℕ) (f : Frame M U C) : Prop :=
  p.produced[n]? = some f.command ∧ ModeOf control m₀ t₀ p (n + 2) f.mode ∧ MarkOf u₀ p f.mark

structure Sound (p : Pipeline S U M T C) : Prop where
  state : p.state = (p.recorded.map Prod.fst).getLast?
  mark : MarkOf u₀ p p.mark
  handling : ∀ u, p.handling = some u → u ∈ p.recorded.map Prod.snd
  sampled : Rising (fun (k : ℕ) x => (p.recorded.map Prod.fst)[k]? = some x) (p.used ++ p.taking)
  memory : (p.mode, p.time) = Pipeline.memory control m₀ t₀ p.used
  produced : outputs control m₀ t₀ p.used = p.produced ++ p.setting
  command : p.command = p.produced.getLast?
  readMode : ∀ m, p.writing = some (.mode m) → ModeOf control m₀ t₀ p p.used.length m
  readMark : ∀ m u, p.writing = some (.mark m u) →
    ModeOf control m₀ t₀ p p.used.length m ∧ MarkOf u₀ p u
  frames : Rising (FrameOf control u₀ m₀ t₀ p) (p.published ++ p.writingFrame)

variable {control u₀ m₀ t₀} {p : Pipeline S U M T C}

theorem init_sound : Sound control u₀ m₀ t₀ (init u₀ m₀ t₀ : Pipeline S U M T C) where
  state := rfl
  mark := .inl rfl
  handling _ h := nomatch h
  sampled := rising_nil
  memory := rfl
  produced := rfl
  command := rfl
  readMode _ h := nomatch h
  readMark _ _ h := nomatch h
  frames := rising_nil

/- A later state has recorded, used and produced more. -/
structure Grown (p q : Pipeline S U M T C) : Prop where
  recorded : ∃ xs, q.recorded = p.recorded ++ xs
  used : ∃ ss, q.used = p.used ++ ss
  produced : ∃ cs, q.produced = p.produced ++ cs

theorem Grown.markOf {q : Pipeline S U M T C} (h : Grown p q) {u : U} (hu : MarkOf u₀ p u) :
    MarkOf u₀ q u := by
  obtain ⟨xs, hxs⟩ := h.recorded
  rcases hu with hu | hu
  · exact .inl hu
  · refine .inr ?_
    rw [hxs, List.map_append]
    exact List.mem_append_left _ hu

theorem Grown.modeOf {q : Pipeline S U M T C} (h : Grown p q) {n : ℕ} {m : M}
    (hm : ModeOf control m₀ t₀ p n m) : ModeOf control m₀ t₀ q n m := by
  obtain ⟨ss, hss⟩ := h.used
  obtain ⟨k, hkn, hk, hmode⟩ := hm
  refine ⟨k, hkn, ?_, ?_⟩
  · rw [hss, List.length_append]
    omega
  · rw [hss, List.take_append_of_le_length hk, hmode]

theorem Grown.frameOf {q : Pipeline S U M T C} (h : Grown p q) {n : ℕ} {f : Frame M U C}
    (hf : FrameOf control u₀ m₀ t₀ p n f) : FrameOf control u₀ m₀ t₀ q n f := by
  obtain ⟨cs, hcs⟩ := h.produced
  refine ⟨?_, h.modeOf hf.2.1, h.markOf hf.2.2⟩
  rw [hcs]
  exact getElem?_grown cs hf.1

/-! ### The steps -/

theorem Sound.message (h : Sound control u₀ m₀ t₀ p) (s : S) (u : U) :
    Sound control u₀ m₀ t₀
      {p with state := some s, handling := some u, recorded := p.recorded ++ [(s, u)]} := by
  have hgrown : Grown p
      {p with state := some s, handling := some u, recorded := p.recorded ++ [(s, u)]} :=
    ⟨⟨[(s, u)], rfl⟩, ⟨[], (List.append_nil _).symm⟩, ⟨[], (List.append_nil _).symm⟩⟩
  refine ⟨?_, hgrown.markOf h.mark, ?_, ?_, h.memory, h.produced, h.command,
    fun m hm => hgrown.modeOf (h.readMode m hm),
    fun m u' hm => ⟨hgrown.modeOf (h.readMark m u' hm).1, hgrown.markOf (h.readMark m u' hm).2⟩,
    h.frames.mono fun n f => hgrown.frameOf⟩
  · simp
  · intro u' hu'
    obtain rfl : u = u' := Option.some.inj hu'
    simp
  · refine h.sampled.mono fun k x hk => ?_
    rw [List.map_append]
    exact getElem?_grown _ hk

theorem Sound.marked (h : Sound control u₀ m₀ t₀ p) {u : U} (hu : p.handling = some u) :
    Sound control u₀ m₀ t₀ {p with mark := u, handling := none} :=
  {h with
    mark := .inr (h.handling u hu)
    handling := fun _ hnone => nomatch hnone}

theorem Sound.got (h : Sound control u₀ m₀ t₀ p) (hidle : p.controlling = none) {s : S}
    (hs : p.state = some s) : Sound control u₀ m₀ t₀ {p with controlling := some (.got s)} := by
  have htaking : p.taking = [] := by simp only [taking, hidle]
  have hsetting : p.setting = [] := by simp only [setting, hidle]
  have hsampled := h.sampled
  have hproduced := h.produced
  rw [htaking, List.append_nil] at hsampled
  rw [hsetting] at hproduced
  have hlast : (p.recorded.map Prod.fst).getLast? = some s := by rw [← h.state, hs]
  refine {h with sampled := ?_, produced := hproduced}
  exact hsampled.snoc (getElem?_last hlast) fun k x => index_le_last

theorem Sound.stored (h : Sound control u₀ m₀ t₀ p) {s : S} (hs : p.controlling = some (.got s)) :
    Sound control u₀ m₀ t₀
      {p with
        mode := (control p.mode p.time s).1
        time := (control p.mode p.time s).2.1
        controlling := some (.stored (control p.mode p.time s).2.2)
        used := p.used ++ [s]} := by
  have htaking : p.taking = [s] := by simp only [taking, hs]
  have hsetting : p.setting = [] := by simp only [setting, hs]
  have hgrown : Grown p
      {p with
        mode := (control p.mode p.time s).1
        time := (control p.mode p.time s).2.1
        controlling := some (.stored (control p.mode p.time s).2.2)
        used := p.used ++ [s]} :=
    ⟨⟨[], (List.append_nil _).symm⟩, ⟨[s], rfl⟩, ⟨[], (List.append_nil _).symm⟩⟩
  have hlength : ∀ m, ModeOf control m₀ t₀ p p.used.length m →
      ModeOf control m₀ t₀ p (p.used ++ [s]).length m := by
    rintro m ⟨k, hk, hused, hm⟩
    rw [List.length_append]
    exact ⟨k, by omega, hused, hm⟩
  refine ⟨h.state, h.mark, h.handling, ?_, ?_, ?_, h.command,
    fun m hm => hgrown.modeOf (hlength m (h.readMode m hm)),
    fun m u hm => ⟨hgrown.modeOf (hlength m (h.readMark m u hm).1), (h.readMark m u hm).2⟩,
    h.frames.mono fun n f => hgrown.frameOf⟩
  · have hsampled := h.sampled
    rw [htaking] at hsampled
    simpa only [taking, List.append_nil] using hsampled
  · rw [memory_snoc, ← h.memory]
  · have hproduced := h.produced
    rw [hsetting, List.append_nil] at hproduced
    rw [outputs_snoc, hproduced, ← h.memory]
    rfl

theorem Sound.set (h : Sound control u₀ m₀ t₀ p) {c : C} (hc : p.controlling = some (.stored c)) :
    Sound control u₀ m₀ t₀
      {p with command := some c, controlling := none, produced := p.produced ++ [c]} := by
  have htaking : p.taking = [] := by simp only [taking, hc]
  have hsetting : p.setting = [c] := by simp only [setting, hc]
  have hgrown : Grown p {p with command := some c, controlling := none, produced := p.produced ++ [c]} :=
    ⟨⟨[], (List.append_nil _).symm⟩, ⟨[], (List.append_nil _).symm⟩, ⟨[c], rfl⟩⟩
  refine {h with
    sampled := ?_
    produced := ?_
    command := ?_
    frames := h.frames.mono fun n f => hgrown.frameOf}
  · have hsampled := h.sampled
    rwa [htaking] at hsampled
  · rw [h.produced, hsetting]
    exact (List.append_nil _).symm
  · exact List.getLast?_concat.symm

/- Without a frame on the way, only the published ones count. -/
theorem Sound.published (h : Sound control u₀ m₀ t₀ p) :
    Rising (FrameOf control u₀ m₀ t₀ p) p.published := h.frames.append_left

/- The computing thread is at most one state ahead of its commands. -/
theorem Sound.used_le (h : Sound control u₀ m₀ t₀ p) : p.used.length ≤ p.produced.length + 1 := by
  have hlength := congrArg List.length h.produced
  rw [outputs_length, List.length_append] at hlength
  have hsetting : p.setting.length ≤ 1 := by
    unfold setting
    split
    · exact le_rfl
    · exact Nat.zero_le 1
  omega

theorem Sound.modeRead (h : Sound control u₀ m₀ t₀ p) (hidle : p.writing = none) :
    Sound control u₀ m₀ t₀ {p with writing := some (.mode p.mode)} := by
  refine {h with readMode := ?_, readMark := fun m u hm => (by cases hm), frames := ?_}
  · intro m hm
    obtain rfl : p.mode = m := by
      cases hm
      rfl
    refine ⟨p.used.length, le_rfl, le_rfl, ?_⟩
    rw [List.take_length, ← h.memory]
  · have hnone : p.writingFrame = [] := by simp only [writingFrame, hidle]
    have hframes := h.frames
    rw [hnone] at hframes
    exact hframes

theorem Sound.markRead (h : Sound control u₀ m₀ t₀ p) {m : M} (hm : p.writing = some (.mode m)) :
    Sound control u₀ m₀ t₀ {p with writing := some (.mark m p.mark)} := by
  refine {h with readMode := fun m' hm' => (by cases hm'), readMark := ?_, frames := ?_}
  · intro m' u hmu
    obtain ⟨rfl, rfl⟩ : m = m' ∧ p.mark = u := by
      cases hmu
      exact ⟨rfl, rfl⟩
    exact ⟨h.readMode m hm, h.mark⟩
  · have hnone : p.writingFrame = [] := by simp only [writingFrame, hm]
    have hframes := h.frames
    rw [hnone] at hframes
    exact hframes

/- There is no command yet, and the call returns. -/
theorem Sound.nothingGot (h : Sound control u₀ m₀ t₀ p) :
    Sound control u₀ m₀ t₀ {p with writing := none} := by
  refine {h with
    readMode := fun m hm => (by cases hm)
    readMark := fun m u hm => (by cases hm)
    frames := ?_}
  have hframes := h.published
  rw [← List.append_nil p.published] at hframes
  exact hframes

theorem Sound.commandGot (h : Sound control u₀ m₀ t₀ p) {m : M} {u : U} {c : C}
    (hmu : p.writing = some (.mark m u)) (hc : p.command = some c) :
    Sound control u₀ m₀ t₀ {p with writing := some (.got ⟨m, u, c⟩)} := by
  have hlast : p.produced.getLast? = some c := by rw [← h.command, hc]
  obtain ⟨⟨k, hk, hused, hmode⟩, hmark⟩ := h.readMark m u hmu
  -- the mode is read before the command, and the command is the last one
  have hahead : k ≤ p.produced.length - 1 + 2 := by
    have hle := h.used_le
    omega
  refine {h with
    readMode := fun m' hm' => (by cases hm')
    readMark := fun m' u' hm' => (by cases hm')
    frames := ?_}
  exact h.published.snoc ⟨getElem?_last hlast, ⟨k, hahead, hused, hmode⟩, hmark⟩
    fun n f hf => index_le_last hf.1

theorem Sound.written (h : Sound control u₀ m₀ t₀ p) {f : Frame M U C} (hf : p.writing = some (.got f)) :
    Sound control u₀ m₀ t₀ {p with writing := none, published := p.published ++ [f]} := by
  refine {h with
    readMode := fun m hm => (by cases hm)
    readMark := fun m u hm => (by cases hm)
    frames := ?_}
  have hone : p.writingFrame = [f] := by simp only [writingFrame, hf]
  have hframes := h.frames
  rw [hone, ← List.append_nil (p.published ++ [f])] at hframes
  exact hframes

theorem step_sound (a : PipelineAct A) {q : Pipeline S U M T C} (h : Sound control u₀ m₀ t₀ p)
    (hstep : step accept control p a = some q) : Sound control u₀ m₀ t₀ q := by
  cases a with
  | message a =>
    simp only [step] at hstep
    split at hstep
    · cases hstep
    · split at hstep
      · cases hstep
        exact h
      · cases hstep
        exact h.message _ _
  | mark =>
    obtain ⟨u, hu, rfl⟩ := Option.map_eq_some_iff.mp hstep
    exact h.marked hu
  | get =>
    simp only [step] at hstep
    split at hstep
    · cases hstep
    · rename_i hidle
      split at hstep
      · cases hstep
        exact h
      · rename_i hs
        cases hstep
        exact h.got hidle hs
  | store =>
    simp only [step] at hstep
    split at hstep
    · rename_i hs
      cases hstep
      exact h.stored hs
    · cases hstep
  | set =>
    simp only [step] at hstep
    split at hstep
    · rename_i hc
      cases hstep
      exact h.set hc
    · cases hstep
  | readMode =>
    simp only [step] at hstep
    split at hstep
    · rename_i hidle
      cases hstep
      exact h.modeRead hidle
    · cases hstep
  | readMark =>
    simp only [step] at hstep
    split at hstep
    · rename_i hm
      cases hstep
      exact h.markRead hm
    · cases hstep
  | getCommand =>
    simp only [step] at hstep
    split at hstep
    · rename_i hmu
      split at hstep
      · cases hstep
        exact h.nothingGot
      · rename_i hc
        cases hstep
        exact h.commandGot hmu hc
    · cases hstep
  | write =>
    simp only [step] at hstep
    split at hstep
    · rename_i hf
      cases hstep
      exact h.written hf
    · cases hstep

theorem after_sound (acts : List (PipelineAct A)) :
    Sound control u₀ m₀ t₀ (after accept control u₀ m₀ t₀ acts) :=
  exec_invariant (step accept control) (Sound control u₀ m₀ t₀) (fun _ a _ => step_sound accept a) _
    init_sound acts

/-! ### Whole runs -/

section Runs
variable (control u₀ m₀ t₀)

/- The rounds of the computing thread, between the steps of the others. -/
def rounds (n : ℕ) : List (PipelineAct A) := (List.replicate n [.get, .store, .set]).flatten

theorem exec_round {s : S} (hstate : p.state = some s) (hidle : p.controlling = none) :
    exec (step accept control) p [.get, .store, .set] =
      {p with
        mode := (control p.mode p.time s).1
        time := (control p.mode p.time s).2.1
        command := some (control p.mode p.time s).2.2
        used := p.used ++ [s]
        produced := p.produced ++ [(control p.mode p.time s).2.2]} := by
  simp only [exec_cons, exec_nil, advance, step, hstate, hidle, Option.getD_some]

/- After `n` rounds and one more, with one state in the buffer. -/
theorem exec_rounds {s : S} (hstate : p.state = some s) (hidle : p.controlling = none) (n : ℕ) :
    exec (step accept control) p (rounds (n + 1)) =
      {p with
        mode := (memory control p.mode p.time (List.replicate (n + 1) s)).1
        time := (memory control p.mode p.time (List.replicate (n + 1) s)).2
        command := some (control (memory control p.mode p.time (List.replicate n s)).1
          (memory control p.mode p.time (List.replicate n s)).2 s).2.2
        used := p.used ++ List.replicate (n + 1) s
        produced := p.produced ++ outputs control p.mode p.time (List.replicate (n + 1) s)} := by
  induction n generalizing p with
  | zero =>
    rw [rounds, List.replicate_one, List.flatten_singleton, exec_round accept control hstate hidle]
    rfl
  | succ n ih =>
    have hsplit : (rounds (n + 1 + 1) : List (PipelineAct A)) = [.get, .store, .set] ++ rounds (n + 1) := by
      rw [rounds, List.replicate_succ, List.flatten_cons, rounds]
    have hrest := ih (p := {p with
        mode := (control p.mode p.time s).1
        time := (control p.mode p.time s).2.1
        command := some (control p.mode p.time s).2.2
        used := p.used ++ [s]
        produced := p.produced ++ [(control p.mode p.time s).2.2]}) hstate hidle
    rw [List.append_assoc, List.append_assoc] at hrest
    rw [hsplit, exec_append, exec_round accept control hstate hidle]
    exact hrest

/- The steps of the publishing thread, with none of the others between them. -/
def look : List (PipelineAct A) := [.readMode, .readMark, .getCommand, .write]

end Runs

end Pipeline

end TypegoSdk.Lib
