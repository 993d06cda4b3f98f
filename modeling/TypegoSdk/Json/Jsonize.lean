import TypegoSdk.Lib.Ordered
import Mathlib.Data.String.Basic

/-!
# JSON marshalling (include/unitree/common/json/jsonize.hpp)

`ToJson` and `FromJson` are templates that follow the type of the value: the
leaves have functions of their own, and `std::vector`, `std::list`, `std::set`
and `std::map` are marshalled element by element. A C++ type is modelled by what
the templates use of it, so that an instantiation is an operation on types.
-/

namespace TypegoSdk.Json
open TypegoSdk.Lib
variable {σ : Type}

/-! ### Any -/

/- `σ` is what an Any may hold besides a JsonArray and a JsonMap. A JsonMap is
listed in the order of its iteration. -/
inductive Any (σ : Type) where
  | empty
  | scalar (value : σ)
  | array (arr : List (Any σ))
  | map (m : List (String × Any σ))

abbrev JsonArray (σ : Type) := List (Any σ)
abbrev JsonMap (σ : Type) := List (String × Any σ)

/-- The type of the content, for the text of a BadCastException. -/
inductive Held where
  | void
  | scalar
  | array
  | map
  deriving DecidableEq

inductive JsonError where
  | badCast (target source : Held)
  | leaf (text : String)
  deriving DecidableEq

namespace Any

def held : Any σ → Held
  | .empty => .void
  | .scalar _ => .scalar
  | .array _ => .array
  | .map _ => .map

/- `AnyCast<JsonArray>` and `AnyCast<JsonMap>`. -/
def castArray : Any σ → Except JsonError (JsonArray σ)
  | .array arr => .ok arr
  | a => .error (.badCast .array a.held)

def castMap : Any σ → Except JsonError (JsonMap σ)
  | .map m => .ok m
  | a => .error (.badCast .map a.held)

end Any

/-! ### Types -/

/-- What the templates use of a type: `E e;`, `operator<`, `ToAny` and `FromAny`
into a target. -/
structure CppType (σ : Type) where
  carrier : Type
  default : carrier
  lt : carrier → carrier → Bool
  toAny : carrier → Any σ
  fromAny : Any σ → carrier → Except JsonError carrier

/-- The functions of a scalar are in the library. A scalar declared by `E e;` has
no value, so any target must do. -/
structure ScalarType (σ : Type) extends CppType σ where
  roundTrip : ∀ v target, fromAny (toAny v) target = .ok v

/-- So are those of Jsonize, which go through the class's own two functions. -/
structure JsonizeType (σ : Type) extends CppType σ where
  toJson : carrier → JsonMap σ → JsonMap σ
  fills : ∀ v, toAny v = .map (toJson v [])
  roundTrip : ∀ v, fromAny (toAny v) default = .ok v

namespace CppType
variable (c : CppType σ)

def toJson : c.carrier → Any σ := c.toAny

def fromJson : Any σ → c.carrier → Except JsonError c.carrier := c.fromAny

/- The loop over a JsonArray. -/
def fromArray {β : Type} (push : β → c.carrier → β) :
    JsonArray σ → β → Except JsonError β
  | [], value => .ok value
  | a :: arr, value =>
    match c.fromJson a c.default with
    | .error e => .error e
    | .ok e => fromArray push arr (push value e)

/- The loop over a JsonMap. -/
def fromMap {β : Type} (assign : β → String × c.carrier → β) :
    JsonMap σ → β → Except JsonError β
  | [], value => .ok value
  | (name, a) :: m, value =>
    match c.fromJson a c.default with
    | .error e => .error e
    | .ok e => fromMap assign m (assign value (name, e))

/- A container that is marshalled as a JsonArray. -/
def fromArrayAny {β : Type} (push : β → c.carrier → β) (a : Any σ) (value : β) :
    Except JsonError β :=
  match a with
  | .empty => .ok value
  | a =>
    match a.castArray with
    | .error e => .error e
    | .ok arr => c.fromArray push arr value

def fromMapAny {β : Type} (assign : β → String × c.carrier → β) (a : Any σ) (value : β) :
    Except JsonError β :=
  match a with
  | .empty => .ok value
  | a =>
    match a.castMap with
    | .error e => .error e
    | .ok m => c.fromMap assign m value

def toArrayAny (elements : List c.carrier) : Any σ := .array (elements.map c.toJson)

/- `std::vector` and `std::list` differ in nothing that is used here. -/
def sequence : CppType σ where
  carrier := List c.carrier
  default := []
  lt := lexLt c.lt
  toAny := c.toArrayAny
  fromAny := c.fromArrayAny fun value e => value ++ [e]

def vector : CppType σ := c.sequence

def list : CppType σ := c.sequence

/- An element that is there is kept. -/
theorem set_merges (lt : c.carrier → c.carrier → Bool) : Merges lt fun x _ => x :=
  ⟨fun _ _ _ => rfl, fun _ _ _ => rfl⟩

def set (h : StrictWeak c.lt) : CppType σ where
  carrier := Ordered c.lt
  default := .empty
  lt a b := lexLt c.lt a.1 b.1
  toAny value := c.toArrayAny value.1
  fromAny := c.fromArrayAny (Ordered.insert h (c.set_merges c.lt))

end CppType

/-! ### Maps -/

def nameLt (a b : String) : Bool := decide (a < b)

/- `operator[]` and an assignment. -/
def assignValue {β : Type} (x e : String × β) : String × β := (x.1, e.2)

def keyLt {β : Type} (a b : String × β) : Bool := nameLt a.1 b.1

theorem key_strictWeak {β : Type} : StrictWeak (keyLt : String × β → String × β → Bool) :=
  strictWeak_of_linear.comap Prod.fst

theorem assign_merges {β : Type} : Merges (keyLt : String × β → String × β → Bool) assignValue :=
  ⟨fun _ _ _ => rfl, fun _ _ _ => rfl⟩

/- The JsonMap that the loop of `ToAny` fills. -/
def CppType.toMap (c : CppType σ) (elements : List (String × c.carrier)) : JsonMap σ :=
  elements.foldl (fun m p => insertInto keyLt assignValue (p.1, c.toJson p.2) m) []

def CppType.map (c : CppType σ) : CppType σ where
  carrier := Ordered (keyLt : String × c.carrier → String × c.carrier → Bool)
  default := .empty
  lt a b := lexLt (pairLt nameLt c.lt) a.1 b.1
  toAny value := .map (c.toMap value.1)
  fromAny := c.fromMapAny (Ordered.insert key_strictWeak assign_merges)

/-- The types built from leaves. A `std::set` needs an order on its elements. -/
inductive Built : CppType σ → Prop where
  | scalar (s : ScalarType σ) : Built s.toCppType
  | jsonize (j : JsonizeType σ) : Built j.toCppType
  | vector {c : CppType σ} (h : Built c) : Built c.vector
  | list {c : CppType σ} (h : Built c) : Built c.list
  | set {c : CppType σ} (h : Built c) (hlt : StrictWeak c.lt) : Built (c.set hlt)
  | map {c : CppType σ} (h : Built c) : Built c.map

/-! ### Orders of the containers -/

theorem sequence_strictWeak {c : CppType σ} (h : StrictWeak c.lt) : StrictWeak c.sequence.lt :=
  h.lex

theorem set_strictWeak {c : CppType σ} (h : StrictWeak c.lt) : StrictWeak (c.set h).lt :=
  h.lex.comap Subtype.val

theorem map_strictWeak {c : CppType σ} (h : StrictWeak c.lt) : StrictWeak c.map.lt :=
  (strictWeak_of_linear.pair h).lex.comap Subtype.val

/-! ### Round trips -/

def CppType.RoundTrips (c : CppType σ) : Prop := ∀ v, c.fromJson (c.toJson v) c.default = .ok v

/- The names come in order, so each entry is appended. -/
theorem toMap_eq (c : CppType σ) (elements : List (String × c.carrier))
    (hs : Sorted keyLt elements) : c.toMap elements = elements.map fun p => (p.1, c.toJson p.2) := by
  have hsorted : Sorted keyLt (elements.map fun p => (p.1, c.toJson p.2)) := List.pairwise_map.2 hs
  rw [CppType.toMap, ← List.foldl_map (f := fun p : String × c.carrier => (p.1, c.toJson p.2))
    (g := fun m p => insertInto keyLt assignValue p m)]
  exact foldl_insertInto key_strictWeak _ hsorted

theorem foldl_push {β : Type} (acc xs : List β) :
    xs.foldl (fun value e => value ++ [e]) acc = acc ++ xs := by
  induction xs generalizing acc with
  | nil => simp
  | cons x xs ih => simp [ih]

section RoundTrip
variable {c : CppType σ} (h : c.RoundTrips)
include h

theorem fromArray_map {β : Type} (push : β → c.carrier → β) (elements : List c.carrier) (value : β) :
    c.fromArray push (elements.map c.toJson) value = .ok (elements.foldl push value) := by
  induction elements generalizing value with
  | nil => rfl
  | cons e elements ih =>
    simp only [List.map_cons, CppType.fromArray, h e]
    exact ih (push value e)

theorem fromMap_map {β : Type} (assign : β → String × c.carrier → β)
    (elements : List (String × c.carrier)) (value : β) :
    c.fromMap assign (elements.map fun p => (p.1, c.toJson p.2)) value =
      .ok (elements.foldl assign value) := by
  induction elements generalizing value with
  | nil => rfl
  | cons p elements ih =>
    simp only [List.map_cons, CppType.fromMap, h p.2]
    exact ih (assign value p)

theorem sequence_roundTrips : c.sequence.RoundTrips := by
  intro (v : List c.carrier)
  exact (fromArray_map h _ v []).trans (congrArg Except.ok (foldl_push [] v))

theorem set_roundTrips (hlt : StrictWeak c.lt) : (c.set hlt).RoundTrips := by
  intro (v : Ordered c.lt)
  exact (fromArray_map h _ v.1 Ordered.empty).trans
    (congrArg Except.ok (Ordered.foldl_insert hlt (c.set_merges c.lt) v))

theorem map_roundTrips : c.map.RoundTrips := by
  intro (v : Ordered (keyLt : String × c.carrier → String × c.carrier → Bool))
  show c.fromMap (Ordered.insert key_strictWeak assign_merges) (c.toMap v.1) Ordered.empty = .ok v
  rw [toMap_eq c v.1 v.2, fromMap_map h]
  exact congrArg Except.ok (Ordered.foldl_insert key_strictWeak assign_merges v)

end RoundTrip

/-- `FromJson` of what `ToJson` makes of a value, into a default-constructed
target, succeeds and gives the value back, for every type built from leaves by
containers. -/
theorem fromJson_toJson (c : CppType σ) (h : Built c) (v : c.carrier) :
    c.fromJson (c.toJson v) c.default = .ok v := by
  induction h with
  | scalar s => exact s.roundTrip v s.default
  | jsonize j => exact j.roundTrip v
  | vector h ih => exact sequence_roundTrips ih v
  | list h ih => exact sequence_roundTrips ih v
  | set h hlt ih => exact set_roundTrips ih hlt v
  | map h ih => exact map_roundTrips ih v

/-! ### The class of example/jsonize/test_jsonize.cpp -/

/- An `int` held as such. -/
def intType : ScalarType ℤ where
  carrier := ℤ
  default := 0
  lt a b := decide (a < b)
  toAny := .scalar
  fromAny a _ :=
    match a with
    | .scalar n => .ok n
    | a => .error (.badCast .scalar a.held)
  roundTrip _ _ := rfl

structure Test where
  x : ℤ
  y : ℤ
  z : ℤ
  deriving DecidableEq

/- `json[name]` as a target and as a source. -/
def put (name : String) (a : Any ℤ) (json : JsonMap ℤ) : JsonMap ℤ :=
  insertInto keyLt assignValue (name, a) json

def get (name : String) (json : JsonMap ℤ) : Any ℤ := (json.lookup name).getD .empty

namespace Test

def toJson (t : Test) (json : JsonMap ℤ) : JsonMap ℤ :=
  put "z" (intType.toJson t.z) (put "y" (intType.toJson t.y) (put "x" (intType.toJson t.x) json))

def fromJson (json : JsonMap ℤ) (t : Test) : Except JsonError Test := do
  let x ← intType.fromJson (get "x" json) t.x
  let y ← intType.fromJson (get "y" json) t.y
  let z ← intType.fromJson (get "z" json) t.z
  return ⟨x, y, z⟩

theorem toJson_nil (t : Test) :
    t.toJson [] = [("x", .scalar t.x), ("y", .scalar t.y), ("z", .scalar t.z)] := by
  have hyx : nameLt "y" "x" = false := by decide
  have hxy : nameLt "x" "y" = true := by decide
  have hzx : nameLt "z" "x" = false := by decide
  have hxz : nameLt "x" "z" = true := by decide
  have hzy : nameLt "z" "y" = false := by decide
  have hyz : nameLt "y" "z" = true := by decide
  simp only [toJson, put, insertInto, keyLt, hyx, hxy, hzx, hxz, hzy, hyz, Bool.false_eq_true,
    if_false, if_true]
  rfl

theorem fromJson_toJson_nil (t target : Test) : fromJson (t.toJson []) target = .ok t := by
  rw [toJson_nil]
  rfl

end Test

def testType : JsonizeType ℤ where
  carrier := Test
  default := ⟨0, 0, 0⟩
  lt _ _ := false
  toAny t := .map (t.toJson [])
  fromAny a t :=
    match a.castMap with
    | .error e => .error e
    | .ok json => Test.fromJson json t
  toJson := Test.toJson
  fills _ := rfl
  roundTrip v := v.fromJson_toJson_nil ⟨0, 0, 0⟩

theorem int_strictWeak : StrictWeak intType.lt := strictWeak_of_linear (α := ℤ)

/- `std::set<std::map<std::string,std::set<std::list<int>>>>`. -/
def nested : CppType ℤ :=
  (intType.list.set (sequence_strictWeak int_strictWeak)).map.set
    (map_strictWeak (set_strictWeak (sequence_strictWeak int_strictWeak)))

theorem nested_built : Built nested := .set (.map (.set (.list (.scalar intType)) _)) _

/- A set of one map, which takes a name to two lists. -/
def nestedValue : nested.carrier :=
  ⟨[⟨[("abc", ⟨[[(1 : ℤ)], [(1 : ℤ), (2 : ℤ)]], List.pairwise_pair.2 rfl⟩)], List.pairwise_singleton ..⟩],
    List.pairwise_singleton ..⟩

/- With the vector of the example. -/
theorem fromJson_toJson_example :
    testType.vector.fromJson (testType.vector.toJson [⟨1, 2, 3⟩, ⟨10, 20, 30⟩, ⟨100, 200, 300⟩]) [] =
      .ok [⟨1, 2, 3⟩, ⟨10, 20, 30⟩, ⟨100, 200, 300⟩] ∧
    nested.fromJson (nested.toJson nestedValue) nested.default = .ok nestedValue :=
  ⟨fromJson_toJson testType.vector (.vector (.jsonize testType)) _,
    fromJson_toJson nested nested_built nestedValue⟩

end TypegoSdk.Json
