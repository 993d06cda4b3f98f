import TypegoSdk.Json.Merge

/-!
# Getters of the loco clients (robot/h1/loco/, robot/g1/loco/)

A getter calls the robot and decodes the answer into a Jsonize object of its
own, whose fields go to the output arguments. The clients of the G1 look at the
return code before they decode; those of the H1 decode whatever has come back.
`Client::Call`, the parser and the `FromAny` of numbers and of Jsonize are in
the prebuilt library.
-/

namespace TypegoSdk.Loco
open TypegoSdk.Json
variable {σ : Type}

/-! ### The library -/

/-- `int` and `float`, which the constructors of the Jsonize classes set to zero. -/
structure NumberType (σ : Type) extends CppType σ where
  zero : carrier
  nonzero : ∃ v, v ≠ zero

/-- `parse` is `FromJsonString(const std::string&)`. `jsonMap` is what
`FromAny(const Any&, Jsonize&)` does with an Any: it throws, or calls `fromJson` with
a map, or leaves the object alone. -/
structure Library (σ : Type) where
  int : NumberType σ
  float : NumberType σ
  parse : String → Except JsonError (Any σ)
  jsonMap : Any σ → Except JsonError (Option (JsonMap σ))

/-- The return code of `Call(apiId, parameter, data)` and what it leaves in `data`. -/
abbrev Call := Int32 → String → Int32 × String

def fromJsonString (lib : Library σ) (k : JsonizeClass σ) (s : String) (t : k.Object) :
    Except JsonError k.Object :=
  match lib.parse s with
  | .error e => .error e
  | .ok a =>
    match lib.jsonMap a with
    | .error e => .error e
    | .ok none => .ok t
    | .ok (some json) => k.fromJson json t

/-! ### Jsonize classes (robot/go2/public/jsonize_type.hpp, h1_loco_api.hpp, g1_loco_api.hpp) -/

section Classes
variable (lib : Library σ)

def jsonizeDataInt : JsonizeClass σ where
  Object := lib.int.carrier
  create := lib.int.zero
  fromJson json data := lib.int.fromJson (member "data" json) data

def jsonizeDataFloat : JsonizeClass σ where
  Object := lib.float.carrier
  create := lib.float.zero
  fromJson json data := lib.float.fromJson (member "data" json) data

/- The two loco APIs declare it alike. -/
def jsonizeDataVecFloat : JsonizeClass σ := Json.jsonizeDataVecFloat lib.float.toCppType

structure Vec3 (F : Type) where
  x : F
  y : F
  z : F

def jsonizeVec3 : JsonizeClass σ where
  Object := Vec3 lib.float.carrier
  create := ⟨lib.float.zero, lib.float.zero, lib.float.zero⟩
  fromJson json v := do
    let x ← lib.float.fromJson (member "x" json) v.x
    let y ← lib.float.fromJson (member "y" json) v.y
    let z ← lib.float.fromJson (member "z" json) v.z
    return ⟨x, y, z⟩

end Classes

/-! ### Clients -/

inductive Getter where
  | fsmId
  | fsmMode
  | balanceMode
  | swingHeight
  | standHeight
  | phase
  | odom
  deriving DecidableEq

namespace Getter
variable (lib : Library σ)

def jsonize : Getter → JsonizeClass σ
  | fsmId | fsmMode | balanceMode => jsonizeDataInt lib
  | swingHeight | standHeight => jsonizeDataFloat lib
  | phase => jsonizeDataVecFloat lib
  | odom => jsonizeVec3 lib

/- The output arguments: those of GetOdom are `x`, `y` and `yaw`. -/
def Out : Getter → Type
  | fsmId | fsmMode | balanceMode => lib.int.carrier
  | swingHeight | standHeight => lib.float.carrier
  | phase => List lib.float.carrier
  | odom => lib.float.carrier × lib.float.carrier × lib.float.carrier

/- The assignments behind the decoding. -/
def assign : (g : Getter) → (g.jsonize lib).Object → g.Out lib
  | fsmId => fun data => data
  | fsmMode => fun data => data
  | balanceMode => fun data => data
  | swingHeight => fun data => data
  | standHeight => fun data => data
  | phase => fun data => data
  | odom => fun json : Vec3 lib.float.carrier => (json.x, json.y, json.z)

end Getter

section Clients
variable (lib : Library σ)

/- What a getter returns or throws, and its output arguments behind it. -/
abbrev Got (g : Getter) := Except JsonError Int32 × g.Out lib

/- The answer decoded into a fresh object and assigned. -/
def decode (g : Getter) (ret : Int32) (data : String) (out : g.Out lib) : Got lib g :=
  match fromJsonString lib (g.jsonize lib) data (g.jsonize lib).create with
  | .error e => (.error e, out)
  | .ok json => (.ok ret, g.assign lib json)

namespace H1

def get (apiId : Int32) (g : Getter) (call : Call) (out : g.Out lib) : Got lib g :=
  let r := call apiId ""
  decode lib g r.1 r.2 out

def getFsmId : Call → Getter.fsmId.Out lib → Got lib .fsmId := get lib 8001 .fsmId
def getFsmMode : Call → Getter.fsmMode.Out lib → Got lib .fsmMode := get lib 8002 .fsmMode
def getBalanceMode : Call → Getter.balanceMode.Out lib → Got lib .balanceMode :=
  get lib 8003 .balanceMode
def getSwingHeight : Call → Getter.swingHeight.Out lib → Got lib .swingHeight :=
  get lib 8004 .swingHeight
def getStandHeight : Call → Getter.standHeight.Out lib → Got lib .standHeight :=
  get lib 8005 .standHeight
def getPhase : Call → Getter.phase.Out lib → Got lib .phase := get lib 8006 .phase
def getOdom : Call → Getter.odom.Out lib → Got lib .odom := get lib 8203 .odom

def getter : (g : Getter) → Call → g.Out lib → Got lib g
  | .fsmId => getFsmId lib
  | .fsmMode => getFsmMode lib
  | .balanceMode => getBalanceMode lib
  | .swingHeight => getSwingHeight lib
  | .standHeight => getStandHeight lib
  | .phase => getPhase lib
  | .odom => getOdom lib

end H1

namespace G1

def get (apiId : Int32) (g : Getter) (call : Call) (out : g.Out lib) : Got lib g :=
  let r := call apiId ""
  if r.1 = 0 then decode lib g r.1 r.2 out else (.ok r.1, out)

def getFsmId : Call → Getter.fsmId.Out lib → Got lib .fsmId := get lib 7001 .fsmId
def getFsmMode : Call → Getter.fsmMode.Out lib → Got lib .fsmMode := get lib 7002 .fsmMode
def getBalanceMode : Call → Getter.balanceMode.Out lib → Got lib .balanceMode :=
  get lib 7003 .balanceMode
def getSwingHeight : Call → Getter.swingHeight.Out lib → Got lib .swingHeight :=
  get lib 7004 .swingHeight
def getStandHeight : Call → Getter.standHeight.Out lib → Got lib .standHeight :=
  get lib 7005 .standHeight
def getPhase : Call → Getter.phase.Out lib → Got lib .phase := get lib 7006 .phase

/- There is no GetOdom. -/
def getter : (g : Getter) → Option (Call → g.Out lib → Got lib g)
  | .fsmId => some (getFsmId lib)
  | .fsmMode => some (getFsmMode lib)
  | .balanceMode => some (getBalanceMode lib)
  | .swingHeight => some (getSwingHeight lib)
  | .standHeight => some (getStandHeight lib)
  | .phase => some (getPhase lib)
  | .odom => none

end G1

end Clients

/-! ### Failed calls -/

section Failure
variable (lib : Library σ)

/- A call that comes back with `ret` and `data`. -/
def answer (ret : Int32) (data : String) : Call := fun _ _ => (ret, data)

/-- A failed call is passed on and leaves the output arguments alone; after a
successful one the getter does what that of the G1 does. -/
def Respects (g : Getter) (ret : Int32) (data : String) (out : g.Out lib) : Prop :=
  (ret ≠ 0 → H1.getter lib g (answer ret data) out = (.ok ret, out)) ∧
  (ret = 0 → ∀ get, G1.getter lib g = some get →
    H1.getter lib g (answer ret data) out = get (answer ret data) out)

theorem H1.getter_eq (g : Getter) : ∃ apiId, H1.getter lib g = H1.get lib apiId g := by
  cases g with
  | fsmId => exact ⟨8001, rfl⟩
  | fsmMode => exact ⟨8002, rfl⟩
  | balanceMode => exact ⟨8003, rfl⟩
  | swingHeight => exact ⟨8004, rfl⟩
  | standHeight => exact ⟨8005, rfl⟩
  | phase => exact ⟨8006, rfl⟩
  | odom => exact ⟨8203, rfl⟩

theorem G1.getter_eq (g : Getter) (get : Call → g.Out lib → Got lib g)
    (h : G1.getter lib g = some get) : ∃ apiId, get = G1.get lib apiId g := by
  cases g with
  | fsmId => exact ⟨7001, (Option.some.inj h).symm⟩
  | fsmMode => exact ⟨7002, (Option.some.inj h).symm⟩
  | balanceMode => exact ⟨7003, (Option.some.inj h).symm⟩
  | swingHeight => exact ⟨7004, (Option.some.inj h).symm⟩
  | standHeight => exact ⟨7005, (Option.some.inj h).symm⟩
  | phase => exact ⟨7006, (Option.some.inj h).symm⟩
  | odom => cases h

theorem get_succeeded (apiId apiId' : Int32) (g : Getter) (data : String) (out : g.Out lib) :
    H1.get lib apiId g (answer 0 data) out = G1.get lib apiId' g (answer 0 data) out := by
  show decode lib g 0 data out = if (0 : Int32) = 0 then decode lib g 0 data out else (.ok 0, out)
  rw [if_pos rfl]

/- The return code is passed on, and nothing else depends on it. -/
theorem decode_code (g : Getter) (ret : Int32) (data : String) (out : g.Out lib) :
    decode lib g ret data out =
      ((decode lib g 0 data out).1.map fun _ => ret, (decode lib g 0 data out).2) := by
  unfold decode
  split <;> rfl

theorem Getter.out_two (g : Getter) : ∃ out out' : g.Out lib, out ≠ out' := by
  obtain ⟨n, hn⟩ := lib.int.nonzero
  obtain ⟨x, hx⟩ := lib.float.nonzero
  cases g with
  | fsmId => exact ⟨n, lib.int.zero, hn⟩
  | fsmMode => exact ⟨n, lib.int.zero, hn⟩
  | balanceMode => exact ⟨n, lib.int.zero, hn⟩
  | swingHeight => exact ⟨x, lib.float.zero, hx⟩
  | standHeight => exact ⟨x, lib.float.zero, hx⟩
  | phase =>
    have hne : [x] ≠ [] := List.cons_ne_nil x []
    exact ⟨[x], ([] : List lib.float.carrier), hne⟩
  | odom =>
    refine ⟨(x, lib.float.zero, lib.float.zero), (lib.float.zero, lib.float.zero, lib.float.zero), ?_⟩
    exact fun h => hx (congrArg Prod.fst h)

/- What an answer decodes to is one value, and the output arguments may hold another. -/
theorem decode_not_kept (g : Getter) (ret : Int32) (data : String) :
    ¬∀ out, decode lib g ret data out = (.ok ret, out) := by
  intro hkept
  unfold decode at hkept
  cases hjson : fromJsonString lib (g.jsonize lib) data (g.jsonize lib).create with
  | error e =>
    obtain ⟨out, -⟩ := g.out_two lib
    have hthrown := congrArg Prod.fst (hkept out)
    rw [hjson] at hthrown
    cases hthrown
  | ok json =>
    have hvalue : ∀ out, g.assign lib json = out := by
      intro out
      have hout := congrArg Prod.snd (hkept out)
      rwa [hjson] at hout
    obtain ⟨out, out', hne⟩ := g.out_two lib
    exact hne ((hvalue out).symm.trans (hvalue out'))

/-- Whatever data come with a code, every getter of the H1 treats the call as it should,
for all output arguments, exactly when the code is 0. With another code it decodes the
data all the same: it throws what it throws after a success with these data, and else it
returns the code and sets the output arguments as after that success. -/
theorem getters_respect_iff (g : Getter) (ret : Int32) (data : String) :
    ((∀ out, Respects lib g ret data out) ↔ ret = 0) ∧
    ∀ out, H1.getter lib g (answer ret data) out =
      ((H1.getter lib g (answer 0 data) out).1.map fun _ => ret,
        (H1.getter lib g (answer 0 data) out).2) := by
  obtain ⟨apiId, hget⟩ := H1.getter_eq lib g
  rw [hget]
  refine ⟨⟨fun hrespects => ?_, ?_⟩, fun out => decode_code lib g ret data out⟩
  · by_contra hret
    refine decode_not_kept lib g ret data fun out => ?_
    have hkept := (hrespects out).1 hret
    rwa [hget] at hkept
  · rintro rfl out
    refine ⟨fun h => absurd rfl h, fun _ get hg => ?_⟩
    obtain ⟨apiId', rfl⟩ := G1.getter_eq lib g get hg
    rw [hget]
    exact get_succeeded lib apiId apiId' g data out

end Failure

/- A library that reads one answer, with whole numbers in the place of floats. -/
def readsZero : Library ℤ where
  int := {intType.toCppType with zero := (0 : ℤ), nonzero := ⟨(1 : ℤ), Int.one_ne_zero⟩}
  float := {intType.toCppType with zero := (0 : ℤ), nonzero := ⟨(1 : ℤ), Int.one_ne_zero⟩}
  parse s :=
    if s = "\x7b\"data\":0\x7d" then .ok (.map [("data", .scalar 0)]) else .error (.leaf "parse")
  jsonMap a := a.castMap.map some

/- The FSM id is 500, and a call that fails with the code 3104 has left an answer
with the data 0. -/
theorem getFsmId_overwrites :
    ¬Respects readsZero .fsmId 3104 "\x7b\"data\":0\x7d" (500 : ℤ) := by
  rintro ⟨hkeeps, -⟩
  have hout : H1.getter readsZero .fsmId (answer 3104 "\x7b\"data\":0\x7d") (500 : ℤ) =
      (.ok 3104, (0 : ℤ)) := rfl
  have hsame : ((0 : ℤ)) = 500 := congrArg Prod.snd (hout.symm.trans (hkeeps (by decide)))
  exact absurd hsame (by decide)

end TypegoSdk.Loco
