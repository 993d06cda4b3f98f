import Mathlib.Data.Int.ModEq

/-!
# AnyNumberCast (include/unitree/common/any.hpp)

`IsNumberType` lists the number types, and so does the chain of branches of
`AnyNumberCast` that tells which Holder to read. Integers are bit vectors with a
sign or without; the casts from and to floating types are left open.
-/

namespace TypegoSdk.Common

/-! ### Number types -/

inductive IntType where
  | int8
  | uint8
  | int16
  | uint16
  | int32
  | uint32
  | int64
  | uint64
  deriving DecidableEq

inductive FloatType where
  | float
  | double
  | longDouble
  deriving DecidableEq

inductive NumberType where
  | bool
  | int (i : IntType)
  | floating (f : FloatType)
  deriving DecidableEq

namespace IntType

def width : IntType → ℕ
  | int8 | uint8 => 8
  | int16 | uint16 => 16
  | int32 | uint32 => 32
  | int64 | uint64 => 64

def signed : IntType → Bool
  | int8 | int16 | int32 | int64 => true
  | uint8 | uint16 | uint32 | uint64 => false

abbrev Value (i : IntType) := BitVec i.width

def number (i : IntType) (v : i.Value) : ℤ := if i.signed then v.toInt else v.toNat

/- `(T)v` between integer types. -/
def cast (i j : IntType) (v : i.Value) : j.Value := BitVec.ofInt j.width (i.number v)

theorem number_modEq (i : IntType) (v : i.Value) : i.number v ≡ v.toNat [ZMOD 2 ^ i.width] := by
  unfold number
  split
  · rw [BitVec.toInt_eq_toNat_bmod]
    exact_mod_cast Int.bmod_emod
  · rfl

/-- An integer cast keeps the number modulo the width of the target. -/
theorem cast_modEq (i j : IntType) (v : i.Value) :
    j.number (i.cast j v) ≡ i.number v [ZMOD 2 ^ j.width] := by
  have hpos : ((2 ^ j.width : ℕ) : ℤ) ≠ 0 := Int.natCast_ne_zero.mpr (Nat.two_pow_pos _).ne'
  refine (j.number_modEq _).trans ?_
  rw [cast, BitVec.toNat_ofInt, Int.toNat_of_nonneg (Int.emod_nonneg _ hpos)]
  exact_mod_cast Int.mod_modEq (i.number v) (2 ^ j.width)

theorem cast_self (i : IntType) (v : i.Value) : i.cast i v = v := by
  unfold cast number
  split
  · exact BitVec.ofInt_toInt
  · simp

end IntType

/-- The values of the floating types and the casts from and to them. -/
structure Floats where
  Value : FloatType → Type
  cast : (f g : FloatType) → Value f → Value g
  ofInt : (i : IntType) → (g : FloatType) → i.Value → Value g
  toInt : (f : FloatType) → (j : IntType) → Value f → j.Value
  ofBool : (g : FloatType) → Bool → Value g
  toBool : (f : FloatType) → Value f → Bool
  cast_self : ∀ f v, cast f f v = v

variable (floats : Floats)

abbrev NumberType.Value : NumberType → Type
  | .bool => Bool
  | .int i => i.Value
  | .floating f => floats.Value f

/- `(T)v` for all number types. -/
def castNumber : (s t : NumberType) → s.Value floats → t.Value floats
  | .bool, .bool, v => v
  | .bool, .int j, v => BitVec.ofNat j.width v.toNat
  | .bool, .floating g, v => floats.ofBool g v
  | .int i, .bool, v => i.number v != 0
  | .int i, .int j, v => i.cast j v
  | .int i, .floating g, v => floats.ofInt i g v
  | .floating f, .bool, v => floats.toBool f v
  | .floating f, .int j, v => floats.toInt f j v
  | .floating f, .floating g, v => floats.cast f g v

theorem castNumber_self (t : NumberType) (v : t.Value floats) : castNumber floats t t v = v := by
  cases t with
  | bool => rfl
  | int i => exact i.cast_self v
  | floating f => exact floats.cast_self f v

/-! ### Any -/

/-- `typeid` of what an Any holds. -/
inductive TypeInfo where
  | void
  | number (t : NumberType)
  | other (name : String)
  deriving DecidableEq

/-- An Any that holds something else than a number is known by its type. -/
inductive Any where
  | empty
  | number (t : NumberType) (v : t.Value floats)
  | other (name : String)

def Any.typeInfo : Any floats → TypeInfo
  | .empty => .void
  | .number t _ => .number t
  | .other name => .other name

section Predicates
variable (t : TypeInfo)

def isBoolType : Bool := t == .number .bool
def isInt8Type : Bool := t == .number (.int .int8)
def isUint8Type : Bool := t == .number (.int .uint8)
def isInt16Type : Bool := t == .number (.int .int16)
def isUint16Type : Bool := t == .number (.int .uint16)
def isIntType : Bool := t == .number (.int .int32)
def isUintType : Bool := t == .number (.int .uint32)
def isInt64Type : Bool := t == .number (.int .int64)
def isUint64Type : Bool := t == .number (.int .uint64)

def isIntegerType : Bool :=
  isIntType t || isUintType t || isInt64Type t || isUint64Type t ||
    isInt8Type t || isUint8Type t || isInt16Type t || isUint16Type t

def isFloatType : Bool := t == .number (.floating .float)
def isDoubleType : Bool := t == .number (.floating .double)
def isLongDoubleType : Bool := t == .number (.floating .longDouble)

def isNumberType : Bool :=
  isBoolType t || isIntegerType t || isFloatType t || isDoubleType t || isLongDoubleType t

end Predicates

/-! ### AnyNumberCast -/

/-- `undefined` is what the language does not define: the content read through the
Holder of another type, or a string between two unrelated pointers. -/
inductive Outcome (α : Type) where
  | returned (v : α)
  | badCast (what : String)
  | undefined
  deriving DecidableEq

variable {floats}

/- `((Any::Holder<S>*)(operand->mContent))->mValue`, and what is made of it. -/
def Any.through {α : Type} (s : NumberType) (convert : s.Value floats → α) : Any floats → Outcome α
  | .number t v => if h : t = s then .returned (convert (h ▸ v)) else .undefined
  | _ => .undefined

/- The branches behind the test for equal types. The text of the last one is
`std::string("... unknown number type:", t2.name())`, which takes its arguments
for the two ends of a range. -/
def dispatch (t : NumberType) (operand : Any floats) : Outcome (t.Value floats) :=
  let t2 := operand.typeInfo
  let cast (s : NumberType) := operand.through s (castNumber floats s t)
  if isFloatType t2 then cast (.floating .float)
  else if isDoubleType t2 then cast (.floating .double)
  else if isLongDoubleType t2 then cast (.floating .longDouble)
  else if isInt8Type t2 then cast (.int .int8)
  else if isUint8Type t2 then cast (.int .uint8)
  else if isInt16Type t2 then cast (.int .int16)
  else if isUint16Type t2 then cast (.int .uint16)
  else if isIntType t2 then cast (.int .int32)
  else if isUintType t2 then cast (.int .uint32)
  else if isInt64Type t2 then cast (.int .int64)
  else if isUint64Type t2 then cast (.int .uint64)
  else .undefined

def anyNumberCast (t : NumberType) (operand : Any floats) : Outcome (t.Value floats) :=
  let t1 := TypeInfo.number t
  let t2 := operand.typeInfo
  if isNumberType t1 && isNumberType t2 then
    if t1 = t2 then operand.through t id else dispatch t operand
  else .badCast "AnyNumberCast error. not number type"

/-- A number is converted as by a cast; anything else is a bad cast. -/
def Converts (t : NumberType) : Any floats → Prop
  | .number s v => anyNumberCast t (.number s v) = .returned (castNumber floats s t v)
  | a => ∃ what, anyNumberCast t a = .badCast what

theorem isNumberType_number (t : NumberType) : isNumberType (.number t) = true := by
  cases t with
  | bool => rfl
  | int i => cases i <;> rfl
  | floating f => cases f <;> rfl

theorem through_self {α : Type} (s : NumberType) (v : s.Value floats) (convert : s.Value floats → α) :
    (Any.number s v).through s convert = .returned (convert v) := dif_pos rfl

/- The chain finds the Holder of every number type but one. -/
theorem dispatch_number (t : NumberType) {s : NumberType} (hs : s ≠ .bool) (v : s.Value floats) :
    dispatch t (.number s v) = .returned (castNumber floats s t v) := by
  cases s with
  | bool => exact absurd rfl hs
  | int i => cases i <;> exact through_self _ v _
  | floating f => cases f <;> exact through_self _ v _

theorem dispatch_bool (t : NumberType) (v : Bool) :
    dispatch t (.number .bool v : Any floats) = .undefined := rfl

theorem anyNumberCast_number (t s : NumberType) (v : s.Value floats) :
    anyNumberCast t (.number s v) =
      if s = t then .returned (castNumber floats s t v) else dispatch t (.number s v) := by
  simp only [anyNumberCast, Any.typeInfo, isNumberType_number, Bool.and_self, if_true,
    TypeInfo.number.injEq]
  by_cases hst : s = t
  · subst hst
    rw [if_pos rfl, if_pos rfl, through_self, castNumber_self]
    rfl
  · rw [if_neg hst, if_neg fun h => hst h.symm]

theorem anyNumberCast_not_number (t : NumberType) {a : Any floats}
    (h : isNumberType a.typeInfo = false) :
    anyNumberCast t a = .badCast "AnyNumberCast error. not number type" := by
  simp only [anyNumberCast, h, Bool.and_false, Bool.false_eq_true, if_false]

/-- AnyNumberCast does what it should for every content and target but a `bool`
that is to become another number. -/
theorem anyNumberCast_converts_iff (t : NumberType) (a : Any floats) :
    Converts t a ↔ ¬(a.typeInfo = .number .bool ∧ t ≠ .bool) := by
  cases a with
  | empty =>
    have hbad : Converts t (.empty : Any floats) := ⟨_, anyNumberCast_not_number t rfl⟩
    simp [hbad, Any.typeInfo]
  | other name =>
    have hbad : Converts t (.other name : Any floats) := ⟨_, anyNumberCast_not_number t rfl⟩
    simp [hbad, Any.typeInfo]
  | number s v =>
    rw [Converts, anyNumberCast_number]
    simp only [Any.typeInfo, TypeInfo.number.injEq]
    by_cases hst : s = t
    · subst hst
      simp
    · rw [if_neg hst]
      by_cases hs : s = .bool
      · subst hs
        have ht : t ≠ .bool := fun h => hst h.symm
        simp [dispatch_bool, ht]
      · simp [dispatch_number t hs, hs]

/- Whole numbers in the place of the floating types. -/
def wholeFloats : Floats where
  Value _ := ℤ
  cast _ _ v := v
  ofInt i _ v := i.number v
  toInt _ j v := BitVec.ofInt j.width v
  ofBool _ v := if v then 1 else 0
  toBool _ v := v != 0
  cast_self _ _ := rfl

/- A `true` that is asked for as an `int`. -/
theorem bool_not_converted :
    ¬Converts (.int .int32) (.number .bool true : Any wholeFloats) := by
  intro h
  have hcast : anyNumberCast (.int .int32) (.number .bool true : Any wholeFloats) = .undefined := rfl
  rw [Converts, hcast] at h
  cases h

end TypegoSdk.Common
