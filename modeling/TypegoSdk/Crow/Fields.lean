import TypegoSdk.Crow.Access

/-!
# Reading the fields of an object (include/crow/json.h)

A handler reads fields of an object one by one, `body[key].s()`, `.d()` or `.b()`,
and an exception ends it. The same program can be run over the members of the JSON
object: what is read there is what the code reads from its buffer, if the members
are taken in the order to which the first `operator[]` sorts them.
-/

namespace TypegoSdk.Crow
open TypegoSdk.Lib

/-! ### The code -/

namespace RValue

def d {K : Type} (lexicalCast : Bytes → K) (buf : Bytes) (v : RValue) : Except Thrown K :=
  if v.t ≠ .number then .error (.runtimeError (bytes "value is not number"))
  else .ok (lexicalCast (substr buf v.start v.stop))

def b (v : RValue) : Except Thrown Bool :=
  if v.t ≠ .true ∧ v.t ≠ .false then .error (.runtimeError (bytes "value is not boolean"))
  else .ok (v.t = .true)

end RValue

/-- A program that reads a document. -/
abbrev Reading := StateT Document (Except Thrown)

namespace Reading
variable (P : Platform)

/- `body[key]`. A member that has been found is there. -/
def member (key : Bytes) : Reading (List ℕ × RValue) := fun d =>
  match d.find P [] d.root key with
  | (.error e, _) => .error e
  | (.ok path, d) =>
    match d.root.get? path with
    | none => .error .fuel
    | some v => .ok ((path, v), d)

def text (key : Bytes) : Reading Bytes := do
  let (path, v) ← member P key
  fun d =>
    match d.s path v with
    | (.error e, _) => .error e
    | (.ok s, d) => .ok (s, d)

def number {K : Type} (lexicalCast : Bytes → K) (key : Bytes) : Reading K := do
  let (_, v) ← member P key
  fun d => (v.d lexicalCast d.buf).map (·, d)

def flag (key : Bytes) : Reading Bool := do
  let (_, v) ← member P key
  fun d => v.b.map (·, d)

end Reading

/-! ### The same over the members -/

/-- The members of an object as a partial function. -/
abbrev Lookup := Bytes → Option Json

namespace Lookup

def text (look : Lookup) (key : Bytes) : Option Bytes :=
  match look key with
  | some (.string s) => some s
  | _ => none

def number {K : Type} (lexicalCast : Bytes → K) (look : Lookup) (key : Bytes) : Option K :=
  match look key with
  | some (.number n) => some (lexicalCast n)
  | _ => none

def flag (look : Lookup) (key : Bytes) : Option Bool :=
  match look key with
  | some (.bool b) => some b
  | _ => none

end Lookup

/-- A document whose root is an object, sorted, with the given members. -/
structure Ready (P : Platform) (look : Lookup) (d : Document) : Prop where
  inv : d.Inv P
  object : d.root.t = .object
  cached : d.root.cached = .true
  members : look = fun key => (RValue.denoteMembers d.buf d.root.l).lookup key

/-- What `x` does from a ready document is what `y` says. -/
def Reading.Follows {α : Type} (P : Platform) (look : Lookup) (x : Reading α) (y : Option α) : Prop :=
  ∀ d, Ready P look d →
    match y with
    | some a => ∃ d', x d = .ok (a, d') ∧ Ready P look d'
    | none => ∃ e, x d = .error e

namespace Reading.Follows
variable {P : Platform} {look : Lookup} {α β : Type}

theorem pure (a : α) : Reading.Follows P look (Pure.pure a) (some a) :=
  fun d hd => ⟨d, rfl, hd⟩

theorem bind {x : Reading α} {y : Option α} {f : α → Reading β} {g : α → Option β}
    (hx : Reading.Follows P look x y) (hf : ∀ a, Reading.Follows P look (f a) (g a)) :
    Reading.Follows P look (x >>= f) (y >>= g) := by
  intro d hd
  have hstep := hx d hd
  have hrun : (x >>= f) d = (x d >>= fun r => f r.1 r.2) := rfl
  cases y with
  | none =>
    obtain ⟨e, he⟩ := hstep
    exact ⟨e, by rw [hrun, he]; rfl⟩
  | some a =>
    obtain ⟨d', hd', hready⟩ := hstep
    have hnext := hf a d' hready
    rw [hrun, hd']
    exact hnext

end Reading.Follows

theorem lookup_members (buf : Bytes) (l : List RValue) (key : Bytes) :
    (RValue.denoteMembers buf l).lookup key =
      (l.find? fun x => x.keyText buf = key).map (RValue.denote buf) := by
  induction l with
  | nil => rfl
  | cons v l ih =>
    rw [RValue.denoteMembers, List.lookup_cons, ih, List.find?_cons]
    by_cases hk : v.keyText buf = key
    · simp [hk]
    · have hne : (key == v.keyText buf) = false := by simpa using Ne.symm hk
      simp [hk, hne]

/-! ### Reading a sorted object -/

namespace RValue

theorem arrange_cached (P : Platform) (buf : Bytes) {v : RValue} (h : v.cached = .true) :
    v.arrange P buf = v := by
  rw [arrange, if_pos h]

theorem cached_arrange (P : Platform) (buf : Bytes) (v : RValue) :
    (v.arrange P buf).cached = .true := by
  rw [arrange]
  split_ifs with h
  · exact h
  · rfl

theorem t_arrange (P : Platform) (buf : Bytes) (v : RValue) : (v.arrange P buf).t = v.t := by
  rw [arrange]
  split_ifs <;> rfl

theorem denote_eq_object {buf : Bytes} {v : RValue} {m : List (Bytes × Json)} :
    v.denote buf = .object m ↔ v.t = .object ∧ denoteMembers buf v.l = m := by
  obtain ⟨t, start, stop, k, l, cached⟩ := v
  cases t <;> simp [denote]

end RValue

/- A string of the tree is not its root, if that is an object. -/
theorem Document.s_root {d : Document} {path : List ℕ} (v : RValue) (hpath : path ≠ []) :
    (d.s path v).2.root.cached = d.root.cached := by
  obtain ⟨i, rest, rfl⟩ := List.exists_cons_of_ne_nil hpath
  rw [s]
  split
  · rfl
  · split <;> rfl

section
variable {P : Platform} {look : Lookup} {d : Document}

theorem Ready.member (h : Ready P look d) (key : Bytes) :
    (∃ path v, Reading.member P key d = .ok ((path, v), d) ∧ d.root.get? path = some v ∧
        look key = some (v.denote d.buf)) ∨
      (∃ e, Reading.member P key d = .error e) ∧ look key = none := by
  obtain ⟨r, d', hfind, -, -, hbuf, hroot, hr⟩ :=
    Document.find_spec h.inv (show d.root.get? [] = some d.root from rfl) h.object key
  rw [RValue.modify, RValue.arrange_cached P d.buf h.cached] at hroot
  rw [RValue.arrange_cached P d.buf h.cached] at hr
  have hd : d' = d := by
    cases d
    cases d'
    simp_all
  subst hd
  have hlook : look key = (d'.root.l.find? fun x => x.keyText d'.buf = key).map
      (RValue.denote d'.buf) := by
    rw [h.members]
    exact lookup_members _ _ key
  rcases hr with ⟨path, x, rfl, hx, hfirst⟩ | ⟨rfl, hnone⟩
  · refine .inl ⟨path, x, ?_, hx, by rw [hlook, hfirst]; rfl⟩
    simp only [Reading.member, hfind, hx]
  · refine .inr ⟨⟨.runtimeError (bytes "cannot find key: " ++ key), ?_⟩, by rw [hlook, hnone]; rfl⟩
    simp only [Reading.member, hfind]

/- The members stay, as the document says the same. -/
theorem Ready.of_denote (h : Ready P look d) {d' : Document} (hinv : d'.Inv P)
    (hc : d'.root.cached = d.root.cached) (hd : d.denote = d'.denote) : Ready P look d' := by
  obtain ⟨hobject, hmembers⟩ :=
    RValue.denote_eq_object.mp (hd.symm.trans (RValue.denote_eq_object.mpr ⟨h.object, rfl⟩))
  exact ⟨hinv, hobject, hc.trans h.cached, by rw [h.members, hmembers]⟩

end

namespace Reading
variable {P : Platform} {look : Lookup}

theorem number_follows {K : Type} (lexicalCast : Bytes → K) (key : Bytes) :
    Follows P look (number P lexicalCast key) (look.number lexicalCast key) := by
  intro d hd
  have hrun : number P lexicalCast key d =
      (member P key d >>= fun r => (r.1.2.d lexicalCast r.2.buf).map (·, r.2)) := rfl
  rw [Lookup.number]
  rcases hd.member key with ⟨path, v, hmember, -, hlook⟩ | ⟨⟨e, he⟩, hlook⟩
  · rw [hlook, hrun, hmember]
    obtain ⟨t, start, stop, k, l, cached⟩ := v
    cases t with
    | number => exact ⟨d, rfl, hd⟩
    | _ => exact ⟨_, rfl⟩
  · rw [hlook, hrun, he]
    exact ⟨e, rfl⟩

theorem flag_follows (key : Bytes) : Follows P look (flag P key) (look.flag key) := by
  intro d hd
  have hrun : flag P key d = (member P key d >>= fun r => r.1.2.b.map (·, r.2)) := rfl
  rw [Lookup.flag]
  rcases hd.member key with ⟨path, v, hmember, -, hlook⟩ | ⟨⟨e, he⟩, hlook⟩
  · rw [hlook, hrun, hmember]
    obtain ⟨t, start, stop, k, l, cached⟩ := v
    cases t with
    | true => exact ⟨d, rfl, hd⟩
    | false => exact ⟨d, rfl, hd⟩
    | _ => exact ⟨_, rfl⟩
  · rw [hlook, hrun, he]
    exact ⟨e, rfl⟩

theorem text_follows (key : Bytes) : Follows P look (text P key) (look.text key) := by
  intro d hd
  have hrun : text P key d = (member P key d >>= fun r =>
      match r.2.s r.1.1 r.1.2 with
      | (.error e, _) => .error e
      | (.ok s, d) => .ok (s, d)) := rfl
  rw [Lookup.text]
  rcases hd.member key with ⟨path, v, hmember, hget, hlook⟩ | ⟨⟨e, he⟩, hlook⟩
  · rw [hlook, hrun, hmember]
    by_cases ht : v.t = .string
    · have hpath : path ≠ [] := by
        rintro rfl
        cases hget
        exact absurd (ht.symm.trans hd.object) (by simp)
      obtain ⟨s, d', hs, hsaid, hinv, hsame⟩ := Document.s_spec hd.inv hget ht
      have hc := Document.s_root (d := d) v hpath
      rw [hs] at hc
      rw [hsaid]
      refine ⟨d', ?_, hd.of_denote hinv hc hsame⟩
      simp only [bind, Except.bind, hs]
    · have herr : d.s path v = (.error (.runtimeError (bytes "value is not string")), d) := by
        rw [Document.s, if_pos ht]
      have hnot : ∀ s, v.denote d.buf ≠ .string s := by
        intro s hs
        obtain ⟨t, start, stop, k, l, cached⟩ := v
        cases t <;> first | exact ht rfl | cases hs
      cases hv : v.denote d.buf with
      | string s => exact absurd hv (hnot s)
      | _ => exact ⟨_, by simp only [bind, Except.bind, herr]; rfl⟩
  · rw [hlook, hrun, he]
    exact ⟨e, rfl⟩

end Reading

/-! ### The first access -/

/- It makes no difference whether the members have been sorted before. -/
theorem Document.find_arranged (P : Platform) {d : Document} (ht : d.root.t = .object) (key : Bytes) :
    d.find P [] d.root key =
      Document.find P ⟨d.root.arrange P d.buf, d.buf⟩ [] (d.root.arrange P d.buf) key := by
  have harrange := RValue.arrange_cached P d.buf (RValue.cached_arrange P d.buf d.root)
  simp only [find, RValue.t_arrange, RValue.modify, harrange, ht, ne_eq, not_true_eq_false, if_false]

theorem Reading.text_arranged (P : Platform) {d : Document} (ht : d.root.t = .object) (key : Bytes) :
    text P key d = text P key ⟨d.root.arrange P d.buf, d.buf⟩ := by
  have hmember : member P key d = member P key ⟨d.root.arrange P d.buf, d.buf⟩ := by
    simp only [member, Document.find_arranged P ht]
  exact congrArg (fun r => r >>= fun r =>
    match r.2.s r.1.1 r.1.2 with
    | (.error e, _) => .error e
    | (.ok s, d) => .ok (s, d)) hmember

theorem ready_of_inv {P : Platform} {d : Document} (hinv : d.Inv P) (ht : d.root.t = .object) :
    ∃ (look : Lookup) (m : List (Bytes × Json)), m.Perm (RValue.denoteMembers d.buf d.root.l) ∧
      look = (fun key => m.lookup key) ∧ Ready P look ⟨d.root.arrange P d.buf, d.buf⟩ := by
  obtain ⟨-, -, hperm, hcached, -⟩ := RValue.arrange_spec hinv.arranged ht
  obtain ⟨r, d', -, hinv', -, hbuf, hroot, -⟩ :=
    Document.find_spec hinv (show d.root.get? [] = some d.root from rfl) ht []
  have hd : d' = ⟨d.root.arrange P d.buf, d.buf⟩ := by
    cases d'
    simp_all [RValue.modify]
  refine ⟨_, RValue.denoteMembers d.buf (d.root.arrange P d.buf).l, ?_, rfl, ?_⟩
  · rw [RValue.denoteMembers_eq, RValue.denoteMembers_eq]
    exact hperm.map _
  · exact ⟨hd ▸ hinv', (RValue.t_arrange P d.buf d.root).trans ht, hcached, rfl⟩

end TypegoSdk.Crow
