import TypegoSdk.Json.Jsonize
import TypegoSdk.Lib.Union

/-!
# Decoding into a target (include/unitree/common/json/jsonize.hpp)

None of the four container templates of `FromAny` clears its target: the
elements are decoded one by one into objects of their own and pushed, inserted
or assigned, so that an element never meets an earlier content. A class derived
from Jsonize decodes its members in place, so that each of them does. The target
takes in the value that a default-constructed one would get, and it is the same
for every nesting.
-/

namespace TypegoSdk.Json
open TypegoSdk.Lib
variable {σ : Type}

/-! ### Leaves -/

/-- A leaf that is not a class: a number, a `bool`, a text, a JsonMap or a JsonArray. Its
`FromAny` is in the library and throws, sets the target or leaves it alone, which it does
to a null Any only. -/
structure ScalarLeaf (σ : Type) where
  carrier : Type
  default : carrier
  lt : carrier → carrier → Bool
  toAny : carrier → Any σ
  read : Any σ → Except JsonError (Option carrier)
  sets : ∀ a, a ≠ .empty → read a ≠ .ok none

/-- A class derived from Jsonize: its constructor and its `fromJson`. -/
structure JsonizeClass (σ : Type) where
  Object : Type
  create : Object
  fromJson : JsonMap σ → Object → Except JsonError Object

/- `json[name]`, which is a null Any for a name that is not there. -/
def member (name : String) (json : JsonMap σ) : Any σ := (json.lookup name).getD .empty

namespace JsonizeClass

/- A `fromJson` without a statement. -/
def empty : JsonizeClass σ := ⟨Unit, (), fun _ t => .ok t⟩

/- `FromJson(json[name], value)`; with `weak` only if the name is there, as in
JN_FROM_WEAK. The default of `c` is what the constructor gives the member. -/
def field (name : String) (weak : Bool) (c : CppType σ) : JsonizeClass σ where
  Object := c.carrier
  create := c.default
  fromJson json value :=
    if weak && (json.lookup name).isNone then .ok value else c.fromJson (member name json) value

/- One member after the other. -/
def both (k k' : JsonizeClass σ) : JsonizeClass σ where
  Object := k.Object × k'.Object
  create := (k.create, k'.create)
  fromJson json t :=
    match k.fromJson json t.1 with
    | .error e => .error e
    | .ok x =>
      match k'.fromJson json t.2 with
      | .error e => .error e
      | .ok y => .ok (x, y)

end JsonizeClass

/-- A leaf that is a class. `jsonMap` is what `FromAny(const Any&, Jsonize&)` of the library
does with an Any: it throws, or calls `fromJson` with a map, or leaves the object alone. -/
structure JsonizeLeaf (σ : Type) where
  cls : JsonizeClass σ
  lt : cls.Object → cls.Object → Bool
  toAny : cls.Object → Any σ
  jsonMap : Any σ → Except JsonError (Option (JsonMap σ))

def ScalarLeaf.toCppType (l : ScalarLeaf σ) : CppType σ where
  carrier := l.carrier
  default := l.default
  lt := l.lt
  toAny := l.toAny
  fromAny a target :=
    match l.read a with
    | .error e => .error e
    | .ok none => .ok target
    | .ok (some v) => .ok v

def JsonizeLeaf.toCppType (l : JsonizeLeaf σ) : CppType σ where
  carrier := l.cls.Object
  default := l.cls.create
  lt := l.lt
  toAny := l.toAny
  fromAny a target :=
    match l.jsonMap a with
    | .error e => .error e
    | .ok none => .ok target
    | .ok (some json) => l.cls.fromJson json target

/-! ### How a value is taken in -/

/- A scalar is replaced, unless a null Any leaves it alone. -/
def ScalarLeaf.take (l : ScalarLeaf σ) : Any σ → l.carrier → l.carrier → l.carrier
  | .empty, target, v =>
    match l.read .empty with
    | .ok none => target
    | _ => v
  | _, _, v => v

def JsonizeLeaf.take (l : JsonizeLeaf σ)
    (merge : JsonMap σ → l.cls.Object → l.cls.Object → l.cls.Object) (a : Any σ)
    (target v : l.cls.Object) : l.cls.Object :=
  match l.jsonMap a with
  | .ok (some json) => merge json target v
  | _ => target

/- A member whose name is not there is left alone if it is weak. -/
def takeField (name : String) (weak : Bool) {C : Type} (merge : Any σ → C → C → C)
    (json : JsonMap σ) (target v : C) : C :=
  if weak && (json.lookup name).isNone then target else merge (member name json) target v

mutual

/-- The types built from leaves: whether elements are appended somewhere, and how each
takes a value into a target, which for a leaf depends on the Any. -/
inductive Decoding : (c : CppType σ) → Bool → (Any σ → c.carrier → c.carrier → c.carrier) → Prop where
  | scalar (l : ScalarLeaf σ) : Decoding l.toCppType false l.take
  | jsonize (l : JsonizeLeaf σ) {appends : Bool}
      {merge : JsonMap σ → l.cls.Object → l.cls.Object → l.cls.Object}
      (h : Members l.cls appends merge) : Decoding l.toCppType appends (l.take merge)
  | vector {c : CppType σ} {appends : Bool} {merge : Any σ → c.carrier → c.carrier → c.carrier}
      (h : Decoding c appends merge) :
      Decoding c.vector true fun _ (target v : List c.carrier) => target ++ v
  | list {c : CppType σ} {appends : Bool} {merge : Any σ → c.carrier → c.carrier → c.carrier}
      (h : Decoding c appends merge) :
      Decoding c.list true fun _ (target v : List c.carrier) => target ++ v
  | set {c : CppType σ} {appends : Bool} {merge : Any σ → c.carrier → c.carrier → c.carrier}
      (h : Decoding c appends merge) (hlt : StrictWeak c.lt) :
      Decoding (c.set hlt) false fun _ => Ordered.union hlt (c.set_merges c.lt)
  | map {c : CppType σ} {appends : Bool} {merge : Any σ → c.carrier → c.carrier → c.carrier}
      (h : Decoding c appends merge) :
      Decoding c.map false fun _ => Ordered.union key_strictWeak assign_merges

/-- The classes, member by member. -/
inductive Members : (k : JsonizeClass σ) → Bool → (JsonMap σ → k.Object → k.Object → k.Object) →
    Prop where
  | empty : Members .empty false fun _ target _ => target
  | field (name : String) (weak : Bool) {c : CppType σ} {appends : Bool}
      {merge : Any σ → c.carrier → c.carrier → c.carrier} (h : Decoding c appends merge) :
      Members (.field name weak c) appends (takeField name weak merge)
  | both {k k' : JsonizeClass σ} {appends appends' : Bool}
      {merge : JsonMap σ → k.Object → k.Object → k.Object}
      {merge' : JsonMap σ → k'.Object → k'.Object → k'.Object}
      (h : Members k appends merge) (h' : Members k' appends' merge') :
      Members (k.both k') (appends || appends') fun json target v =>
        (merge json target.1 v.1, merge' json target.2 v.2)

end

/-! ### The loops -/

namespace CppType
variable (c : CppType σ)

/- What a JsonArray is decoded to, element by element. -/
def elements : JsonArray σ → Except JsonError (List c.carrier)
  | [] => .ok []
  | a :: arr =>
    match c.fromJson a c.default with
    | .error e => .error e
    | .ok e => (elements arr).map (e :: ·)

def entries : JsonMap σ → Except JsonError (List (String × c.carrier))
  | [] => .ok []
  | (name, a) :: m =>
    match c.fromJson a c.default with
    | .error e => .error e
    | .ok e => (entries m).map ((name, e) :: ·)

theorem fromArray_eq {β : Type} (push : β → c.carrier → β) (arr : JsonArray σ) (value : β) :
    c.fromArray push arr value = (c.elements arr).map fun es => es.foldl push value := by
  induction arr generalizing value with
  | nil => rfl
  | cons a arr ih =>
    simp only [fromArray, elements]
    cases c.fromJson a c.default with
    | error e => rfl
    | ok e =>
      simp only [ih]
      cases c.elements arr with
      | error e => rfl
      | ok es => rfl

theorem fromMap_eq {β : Type} (assign : β → String × c.carrier → β) (m : JsonMap σ) (value : β) :
    c.fromMap assign m value = (c.entries m).map fun es => es.foldl assign value := by
  induction m generalizing value with
  | nil => rfl
  | cons p m ih =>
    obtain ⟨name, a⟩ := p
    simp only [fromMap, entries]
    cases c.fromJson a c.default with
    | error e => rfl
    | ok e =>
      simp only [ih]
      cases c.entries m with
      | error e => rfl
      | ok es => rfl

/-! ### Into a target -/

/- A content that takes in the elements as it takes in what they make of an empty
one. -/
theorem map_foldl_into {ε α β : Type} {push : β → α → β} (merge : β → β → β) {start : β}
    (hpush : ∀ target (es : List α), es.foldl push target = merge target (es.foldl push start))
    (decoded : Except ε (List α)) (target : β) :
    decoded.map (fun es => es.foldl push target) =
      (decoded.map fun es => es.foldl push start).map (merge target) := by
  cases decoded with
  | error e => rfl
  | ok es => exact congrArg Except.ok (hpush target es)

theorem fromArrayAny_into {β : Type} {push : β → c.carrier → β} (merge : β → β → β) {start : β}
    (hpush : ∀ target (es : List c.carrier),
      es.foldl push target = merge target (es.foldl push start)) (a : Any σ) (target : β) :
    c.fromArrayAny push a target = (c.fromArrayAny push a start).map (merge target) := by
  cases a with
  | empty => exact congrArg Except.ok (hpush target [])
  | scalar value => rfl
  | map m => rfl
  | array arr =>
    simp only [fromArrayAny, Any.castArray, fromArray_eq]
    exact map_foldl_into merge hpush (c.elements arr) target

theorem fromMapAny_into {β : Type} {assign : β → String × c.carrier → β} (merge : β → β → β)
    {start : β} (hassign : ∀ target (es : List (String × c.carrier)),
      es.foldl assign target = merge target (es.foldl assign start)) (a : Any σ) (target : β) :
    c.fromMapAny assign a target = (c.fromMapAny assign a start).map (merge target) := by
  cases a with
  | empty => exact congrArg Except.ok (hassign target [])
  | scalar value => rfl
  | array arr => rfl
  | map m =>
    simp only [fromMapAny, Any.castMap, fromMap_eq]
    exact map_foldl_into merge hassign (c.entries m) target

theorem sequence_into (a : Any σ) (target : List c.carrier) :
    c.sequence.fromJson a target =
      (c.sequence.fromJson a c.sequence.default).map fun v : List c.carrier => target ++ v := by
  have hpush : ∀ target es : List c.carrier, es.foldl (fun value e => value ++ [e]) target =
      target ++ es.foldl (fun value e => value ++ [e]) [] := by
    intro target es
    rw [foldl_push, foldl_push, List.nil_append]
  exact c.fromArrayAny_into (fun target v => target ++ v) hpush a target

theorem set_into (hlt : StrictWeak c.lt) (a : Any σ) (target : Ordered c.lt) :
    (c.set hlt).fromJson a target = ((c.set hlt).fromJson a (c.set hlt).default).map
      (Ordered.union hlt (c.set_merges c.lt) target) :=
  c.fromArrayAny_into _ (Ordered.foldl_insert_union hlt (c.set_merges c.lt) fun _ _ _ => rfl) a target

theorem map_into (a : Any σ)
    (target : Ordered (keyLt : String × c.carrier → String × c.carrier → Bool)) :
    c.map.fromJson a target = (c.map.fromJson a c.map.default).map
      (Ordered.union key_strictWeak assign_merges target) :=
  c.fromMapAny_into _ (Ordered.foldl_insert_union key_strictWeak assign_merges fun _ _ _ => rfl)
    a target

end CppType

/-! ### Leaves into a target -/

section Leaves

theorem ScalarLeaf.take_kept {l : ScalarLeaf σ} {a : Any σ} (h : l.read a = .ok none)
    (target v : l.carrier) : l.take a target v = target := by
  obtain rfl : a = .empty := by
    by_contra ha
    exact l.sets a ha h
  simp only [ScalarLeaf.take, h]

theorem ScalarLeaf.take_set {l : ScalarLeaf σ} {a : Any σ} {w : l.carrier}
    (h : l.read a = .ok (some w)) (target v : l.carrier) : l.take a target v = v := by
  cases a with
  | empty => simp only [ScalarLeaf.take, h]
  | scalar value => rfl
  | array arr => rfl
  | map m => rfl

/- Of a value that is kept or set, the second time is like the first. -/
theorem ScalarLeaf.take_take (l : ScalarLeaf σ) (a : Any σ) (target v : l.carrier) :
    l.take a (l.take a target v) v = l.take a target v := by
  cases a with
  | empty =>
    simp only [ScalarLeaf.take]
    split <;> rfl
  | scalar value => rfl
  | array arr => rfl
  | map m => rfl

theorem ScalarLeaf.into (l : ScalarLeaf σ) (a : Any σ) (target : l.toCppType.carrier) :
    l.toCppType.fromJson a target =
      (l.toCppType.fromJson a l.toCppType.default).map (l.take a target) := by
  simp only [CppType.fromJson, ScalarLeaf.toCppType]
  cases hr : l.read a with
  | error e => rfl
  | ok r =>
    cases r with
    | none => exact congrArg Except.ok (ScalarLeaf.take_kept hr target l.default).symm
    | some v => exact congrArg Except.ok (ScalarLeaf.take_set hr target v).symm

theorem JsonizeLeaf.into (l : JsonizeLeaf σ)
    {merge : JsonMap σ → l.cls.Object → l.cls.Object → l.cls.Object}
    (h : ∀ json target,
      l.cls.fromJson json target = (l.cls.fromJson json l.cls.create).map (merge json target))
    (a : Any σ) (target : l.toCppType.carrier) :
    l.toCppType.fromJson a target =
      (l.toCppType.fromJson a l.toCppType.default).map (l.take merge a target) := by
  simp only [CppType.fromJson, JsonizeLeaf.toCppType]
  unfold JsonizeLeaf.take
  cases l.jsonMap a with
  | error e => rfl
  | ok r =>
    cases r with
    | none => rfl
    | some json => exact h json target

theorem JsonizeLeaf.take_take (l : JsonizeLeaf σ)
    {merge : JsonMap σ → l.cls.Object → l.cls.Object → l.cls.Object}
    (h : ∀ json target v, merge json (merge json target v) v = merge json target v)
    (a : Any σ) (target v : l.cls.Object) :
    l.take merge a (l.take merge a target v) v = l.take merge a target v := by
  unfold JsonizeLeaf.take
  cases l.jsonMap a with
  | error e => rfl
  | ok r =>
    cases r with
    | none => rfl
    | some json => exact h json target v

end Leaves

/-! ### Members into a target -/

section Members
variable {c : CppType σ} {merge : Any σ → c.carrier → c.carrier → c.carrier}

theorem field_into (name : String) (weak : Bool)
    (h : ∀ a target, c.fromJson a target = (c.fromJson a c.default).map (merge a target))
    (json : JsonMap σ) (target : c.carrier) :
    (JsonizeClass.field name weak c).fromJson json target =
      ((JsonizeClass.field name weak c).fromJson json c.default).map
        (takeField name weak merge json target) := by
  simp only [JsonizeClass.field]
  unfold takeField
  split
  · rfl
  · exact h (member name json) target

theorem takeField_take (name : String) (weak : Bool)
    (h : ∀ a target v, merge a (merge a target v) v = merge a target v)
    (json : JsonMap σ) (target v : c.carrier) :
    takeField name weak merge json (takeField name weak merge json target v) v =
      takeField name weak merge json target v := by
  unfold takeField
  split
  · rfl
  · exact h (member name json) target v

theorem both_into {k k' : JsonizeClass σ} {m : JsonMap σ → k.Object → k.Object → k.Object}
    {m' : JsonMap σ → k'.Object → k'.Object → k'.Object}
    (h : ∀ json target, k.fromJson json target = (k.fromJson json k.create).map (m json target))
    (h' : ∀ json target, k'.fromJson json target = (k'.fromJson json k'.create).map (m' json target))
    (json : JsonMap σ) (target : k.Object × k'.Object) :
    (k.both k').fromJson json target = ((k.both k').fromJson json (k.create, k'.create)).map
      fun v : k.Object × k'.Object => (m json target.1 v.1, m' json target.2 v.2) := by
  simp only [JsonizeClass.both]
  rw [h json target.1, h' json target.2]
  cases k.fromJson json k.create with
  | error e => rfl
  | ok x =>
    cases k'.fromJson json k'.create with
    | error e => rfl
    | ok y => rfl

end Members

/-! ### Every nesting -/

mutual

theorem Decoding.into {c : CppType σ} {appends : Bool}
    {merge : Any σ → c.carrier → c.carrier → c.carrier} : Decoding c appends merge → ∀ a target,
      c.fromJson a target = (c.fromJson a c.default).map (merge a target)
  | .scalar l => l.into
  | .jsonize l h => l.into h.into
  | .vector _ => CppType.sequence_into _
  | .list _ => CppType.sequence_into _
  | .set _ hlt => CppType.set_into _ hlt
  | .map _ => CppType.map_into _

theorem Members.into {k : JsonizeClass σ} {appends : Bool}
    {merge : JsonMap σ → k.Object → k.Object → k.Object} : Members k appends merge → ∀ json target,
      k.fromJson json target = (k.fromJson json k.create).map (merge json target)
  | .empty => fun _ _ => rfl
  | .field name weak h => field_into name weak h.into
  | .both h h' => both_into h.into h'.into

end

mutual

/- What is taken in twice is as good as taken in once, unless something is appended. -/
theorem Decoding.settles {c : CppType σ} {appends : Bool}
    {merge : Any σ → c.carrier → c.carrier → c.carrier} :
    Decoding c appends merge → appends = false →
      ∀ a target v, merge a (merge a target v) v = merge a target v
  | .scalar l => fun _ => l.take_take
  | .jsonize l h => fun hnone => l.take_take (h.settles hnone)
  | .vector _ => fun hnone => nomatch hnone
  | .list _ => fun hnone => nomatch hnone
  | .set _ hlt => fun _ _ => Ordered.union_union hlt _ (fun _ _ => rfl) fun _ => rfl
  | .map _ => fun _ _ => Ordered.union_union key_strictWeak assign_merges (fun _ _ => rfl) fun _ => rfl

theorem Members.settles {k : JsonizeClass σ} {appends : Bool}
    {merge : JsonMap σ → k.Object → k.Object → k.Object} :
    Members k appends merge → appends = false →
      ∀ json target v, merge json (merge json target v) v = merge json target v
  | .empty => fun _ _ _ _ => rfl
  | .field name weak h => fun hnone => takeField_take name weak (h.settles hnone)
  | .both h h' => fun hnone json target v =>
    have hboth := Bool.or_eq_false_iff.mp hnone
    Prod.ext (h.settles hboth.1 json target.1 v.1) (h'.settles hboth.2 json target.2 v.2)

end

section LocoApi
variable (float : CppType σ)

def jsonizeDataVecFloat : JsonizeClass σ := .field "data" false float.vector

end LocoApi

end TypegoSdk.Json
