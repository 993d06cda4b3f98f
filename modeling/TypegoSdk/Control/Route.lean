import TypegoSdk.Control.Motion
import TypegoSdk.Crow.Fields
import TypegoSdk.Crow.Writer

/-!
# The route /control (example/go2/typego_control_interface.cpp)

The handler parses the body of the request, reads the field `command` and looks it
up in a map of lambdas, which read the other fields and call the robot. The fields
are read before the call is made, so an exception on the way leaves the robot alone;
the router answers it with code 500. The lambdas work on copies of `body`, made once
the command has been read: the copies share the buffer, and nothing is written to
it any more.
-/

namespace TypegoSdk.Control
open TypegoSdk.Lib TypegoSdk.Crow
variable {K : Type}

/-! ### The handler -/

/-- A call of a method of `Go2RemoteControl`. -/
inductive Call (K : Type) where
  | motion (request : Request K)
  | standUp
  | hello
  | standDown
  | nav (vx vy vyaw : K)
  | euler (roll pitch yaw : K)
  | stop
  | stretch
  | balancedStand

/-- What a request leads to: an answer, or a call whose result is the answer. -/
inductive Answer (K : Type) where
  | response (code : ℕ) (body : String)
  | call (c : Call K)

/-- `utility::lexical_cast<double>`, and the conversion of a `double` to `float`. -/
structure Conversions (K : Type) where
  lexicalCast : Bytes → K
  toFloat : K → K

/-- The lambdas, over the two ways to read a field that they use. -/
def commandMap {m : Type → Type} [Monad m] (C : Conversions K) (d : Bytes → m K) (b : Bytes → m Bool) :
    List (Bytes × m (Call K)) := [
  (bytes "move", do
    let dx ← d (bytes "dx")
    let dy ← d (bytes "dy")
    let bodyFrame ← b (bytes "body_frame")
    let timeout ← d (bytes "timeout")
    return .motion (.move dx dy bodyFrame timeout)),
  (bytes "rotate", do
    let deltaRad ← d (bytes "delta_rad")
    let timeout ← d (bytes "timeout")
    return .motion (.rotate deltaRad timeout)),
  (bytes "stand_up", return .standUp),
  (bytes "shake_hand", return .hello),
  (bytes "stand_down", return .standDown),
  (bytes "nav", do
    let vx ← d (bytes "vx")
    let vy ← d (bytes "vy")
    let vyaw ← d (bytes "vyaw")
    return .nav vx vy vyaw),
  (bytes "euler", do
    let roll ← d (bytes "roll")
    let pitch ← d (bytes "pitch")
    let yaw ← d (bytes "yaw")
    return .euler (C.toFloat roll) (C.toFloat pitch) (C.toFloat yaw)),
  (bytes "stop", return .stop),
  (bytes "stretch", return .stretch),
  (bytes "balanced_stand", return .balancedStand)]

/- Nothing is called for a command that is not in the map. -/
def handle {m : Type → Type} [Monad m] (C : Conversions K) (s : Bytes → m Bytes) (d : Bytes → m K)
    (b : Bytes → m Bool) : m (Option (Call K)) := do
  let command ← s (bytes "command")
  match (commandMap C d b).lookup command with
  | none => return none
  | some handler =>
    let c ← handler
    return some c

/- The code 500 is from `default_exception_handler` of the router. -/
def control (P : Platform) (C : Conversions K) (body : Bytes) : Answer K :=
  match Crow.load body with
  | .error _ => .response 400 "Invalid JSON"
  | .ok document =>
    match handle C (Reading.text P) (Reading.number P C.lexicalCast) (Reading.flag P) document with
    | .error _ => .response 500 ""
    | .ok (none, _) => .response 400 "Unknown command"
    | .ok (some c, _) => .call c

/-! ### The answer to an object -/

/-- What the members of an object ask for. -/
def answer (C : Conversions K) (look : Lookup) : Answer K :=
  match handle C look.text (look.number C.lexicalCast) look.flag with
  | none => .response 500 ""
  | some none => .response 400 "Unknown command"
  | some (some c) => .call c

theorem lookup_forall₂ {β γ : Type} {R : β → γ → Prop} {xs : List (Bytes × β)}
    {ys : List (Bytes × γ)} (h : List.Forall₂ (fun x y => x.1 = y.1 ∧ R x.2 y.2) xs ys) (key : Bytes) :
    (xs.lookup key = none ∧ ys.lookup key = none) ∨
      ∃ b c, xs.lookup key = some b ∧ ys.lookup key = some c ∧ R b c := by
  induction h with
  | nil => exact .inl ⟨rfl, rfl⟩
  | @cons x y xs ys hxy _ ih =>
    obtain ⟨k, b⟩ := x
    obtain ⟨k', c⟩ := y
    obtain ⟨rfl, hR⟩ := hxy
    rw [List.lookup_cons, List.lookup_cons]
    cases key == k with
    | true => exact .inr ⟨b, c, rfl, rfl, hR⟩
    | false => exact ih

section
variable (P : Platform) (look : Lookup)

/- The handlers of the two maps, one by one. -/
theorem commandMap_follows (C : Conversions K) :
    List.Forall₂ (fun x y => x.1 = y.1 ∧ Reading.Follows P look x.2 y.2)
      (commandMap C (Reading.number P C.lexicalCast) (Reading.flag P))
      (commandMap C (look.number C.lexicalCast) look.flag) := by
  have hd : ∀ key, Reading.Follows P look (Reading.number P C.lexicalCast key)
      (look.number C.lexicalCast key) := Reading.number_follows C.lexicalCast
  have hb : ∀ key, Reading.Follows P look (Reading.flag P key) (look.flag key) :=
    Reading.flag_follows
  refine .cons ⟨rfl, ?_⟩ (.cons ⟨rfl, ?_⟩ (.cons ⟨rfl, .pure _⟩ (.cons ⟨rfl, .pure _⟩
    (.cons ⟨rfl, .pure _⟩ (.cons ⟨rfl, ?_⟩ (.cons ⟨rfl, ?_⟩ (.cons ⟨rfl, .pure _⟩
      (.cons ⟨rfl, .pure _⟩ (.cons ⟨rfl, .pure _⟩ .nil)))))))))
  · exact .bind (hd _) fun _ => .bind (hd _) fun _ => .bind (hb _) fun _ => .bind (hd _) fun _ =>
      .pure _
  · exact .bind (hd _) fun _ => .bind (hd _) fun _ => .pure _
  · exact .bind (hd _) fun _ => .bind (hd _) fun _ => .bind (hd _) fun _ => .pure _
  · exact .bind (hd _) fun _ => .bind (hd _) fun _ => .bind (hd _) fun _ => .pure _

theorem handle_follows (C : Conversions K) :
    Reading.Follows P look
      (handle C (Reading.text P) (Reading.number P C.lexicalCast) (Reading.flag P))
      (handle C look.text (look.number C.lexicalCast) look.flag) := by
  refine .bind (Reading.text_follows _) fun command => ?_
  rcases lookup_forall₂ (commandMap_follows P look C) command with
    ⟨hx, hy⟩ | ⟨x, y, hx, hy, hxy⟩
  · rw [hx, hy]
    exact .pure _
  · rw [hx, hy]
    exact .bind hxy fun _ => .pure _

/- The first field is read from a document that has not been sorted. -/
theorem handle_arranged (C : Conversions K) {d : Document} (ht : d.root.t = .object) :
    handle C (Reading.text P) (Reading.number P C.lexicalCast) (Reading.flag P) d =
      handle C (Reading.text P) (Reading.number P C.lexicalCast) (Reading.flag P)
        ⟨d.root.arrange P d.buf, d.buf⟩ := by
  simp only [handle, bind, StateT.bind]
  rw [Reading.text_arranged P ht]

end

section
variable (P : Platform) (C : Conversions K) {body : Bytes} {t : Padded Phrase}

theorem control_object {m : List (Bytes × Json)} (ht : textOf body = t.render)
    (hn : t.body.nest ≤ 5000) (hm : t.body.value = .object m) :
    ∃ m' : List (Bytes × Json), m'.Perm m ∧
      control P C body = answer C fun key => m'.lookup key := by
  obtain ⟨d, hload, hd⟩ := load_accepts ht hn
  obtain ⟨htype, hmembers⟩ := RValue.denote_eq_object.mp (hd.trans hm)
  obtain ⟨look, m', hperm, rfl, hready⟩ := ready_of_inv (load_inv P hload) htype
  refine ⟨m', hmembers ▸ hperm, ?_⟩
  have hfollows := handle_follows P _ C _ hready
  rw [← handle_arranged P C htype] at hfollows
  rw [control, hload, answer]
  revert hfollows
  cases handle C (Lookup.text fun key => m'.lookup key)
      (Lookup.number C.lexicalCast fun key => m'.lookup key)
      (Lookup.flag fun key => m'.lookup key) with
  | none =>
    rintro ⟨e, he⟩
    simp only [he]
  | some c =>
    rintro ⟨d', hrun, -⟩
    simp only [hrun]
    cases c <;> rfl

end

/- With distinct keys the order of the members makes no difference. -/
theorem lookup_eq_some {m : List (Bytes × Json)} (h : (m.map Prod.fst).Nodup) {key : Bytes} {v : Json} :
    m.lookup key = some v ↔ (key, v) ∈ m := by
  induction m with
  | nil => simp
  | cons p m ih =>
    obtain ⟨k, w⟩ := p
    rw [List.map_cons, List.nodup_cons] at h
    rw [List.lookup_cons, List.mem_cons, Prod.mk.injEq]
    by_cases hk : key = k
    · subst hk
      have hnot : (key, v) ∉ m := fun hm => h.1 (List.mem_map.mpr ⟨_, hm, rfl⟩)
      simp [hnot, eq_comm]
    · have hne : (key == k) = false := by simpa using hk
      simp [hne, hk, ih h.2]

theorem lookup_perm {m m' : List (Bytes × Json)} (hperm : m.Perm m') (h : (m.map Prod.fst).Nodup)
    (key : Bytes) : m.lookup key = m'.lookup key := by
  have h' : (m'.map Prod.fst).Nodup := (hperm.map _).nodup_iff.mp h
  refine Option.ext fun v => ?_
  rw [lookup_eq_some h, lookup_eq_some h', hperm.mem_iff]

/-- Two objects with the same members, with distinct keys, are answered alike, however
they are written and on whatever platform. -/
theorem control_same (P P' : Platform) (C : Conversions K) {body body' : Bytes}
    {t t' : Padded Phrase} {m m' : List (Bytes × Json)}
    (ht : textOf body = t.render) (hn : t.body.nest ≤ 5000) (hm : t.body.value = .object m)
    (ht' : textOf body' = t'.render) (hn' : t'.body.nest ≤ 5000) (hm' : t'.body.value = .object m')
    (hperm : m.Perm m') (hdistinct : (m.map Prod.fst).Nodup) :
    control P C body = control P' C body' := by
  obtain ⟨a, ha, hanswer⟩ := control_object P C ht hn hm
  obtain ⟨b, hb, hanswer'⟩ := control_object P' C ht' hn' hm'
  have hlook : (fun key => a.lookup key) = fun key => b.lookup key := by
    funext key
    have hab : a.Perm b := ha.trans (hperm.trans hb.symm)
    exact lookup_perm hab ((ha.map _).nodup_iff.mpr hdistinct) key
  rw [hanswer, hanswer', hlook]

/- On one line, and on several with the members the other way round. -/
theorem control_same_written :
    control insertionPlatform (⟨fun text => text.length, id⟩ : Conversions ℕ)
        (dump printedNumerals (-1) 32
          (.object [(bytes "command", .string (bytes "stop")), (bytes "note", .null)])) =
      control insertionPlatform ⟨fun text => text.length, id⟩ (dump printedNumerals 2 9
        (.object [(bytes "note", .null), (bytes "command", .string (bytes "stop"))])) := by
  obtain ⟨t, ht, hm, hn⟩ := dump_phrase printedNumerals (-1) 32 (by decide)
    (.object [(bytes "command", .string (bytes "stop")), (bytes "note", .null)]) rfl
  obtain ⟨t', ht', hm', hn'⟩ := dump_phrase printedNumerals 2 9 (by decide)
    (.object [(bytes "note", .null), (bytes "command", .string (bytes "stop"))]) rfl
  exact control_same _ _ _ ht (hn.trans_le (by decide)) hm ht' (hn'.trans_le (by decide)) hm'
    (.swap ..) (by decide)

end TypegoSdk.Control
