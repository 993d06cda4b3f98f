import TypegoSdk.Crow.Document
import TypegoSdk.Crow.Printed

/-!
# Writing a document (include/crow/json.h)

`dump` of a `wvalue`, with and without indentation, and the round trip: what it
writes is accepted by `load`, and the document that comes back says what the value
said, each number with the text that was printed for it.
-/

namespace TypegoSdk.Crow
open TypegoSdk.Lib

/-! ### Values and their text -/

/-- What the C library prints of a finite `double`: with `%f`, and with `%g` and
`DECIMAL_DIG` digits. An exponent is printed with its sign. -/
structure Printf where
  Double : Type
  finite : Double → Bool
  fixed : Double → Numeral
  general : Double → Numeral
  fixed_exponent : ∀ d, (fixed d).magnitude.exponent = none
  general_exponent : ∀ d e, (general d).magnitude.exponent = some e → e.Signed
  general_length : ∀ d, (general d).render.length < 128

inductive WNumber (D : Type) where
  | signed (i : Int64)
  | unsigned (u : UInt64)
  | float (d : D)
  | double (d : D)

/-- The members of an object in the order in which the map iterates over them. -/
inductive WValue (D : Type) where
  | null
  | bool (b : Bool)
  | number (n : WNumber D)
  | string (s : Bytes)
  | list (l : List (WValue D))
  | object (o : List (Bytes × WValue D))
  | function

def WNumber.text (F : Printf) : WNumber F.Double → Bytes
  | .signed i => if i < 0 then '-'.toUInt8 :: natText i.toInt.natAbs else natText i.toInt.natAbs
  | .unsigned u => natText u.toNat
  | .float d => if F.finite d then trim (snprintf (F.fixed d).render) else bytes "null"
  | .double d => if F.finite d then trim (snprintf (F.general d).render) else bytes "null"

def dumpString (str : Bytes) : Bytes := quote :: (escape str ++ [quote])

def dumpIndentationPart (indent : ℤ) (separator : UInt8) (level : ℕ) : Bytes :=
  '\n'.toUInt8 :: List.replicate (level * indent.toNat) separator

section
variable (F : Printf) (indent : ℤ) (separator : UInt8)

/- The parts that are written if `indent >= 0`. -/
def newLine (level : ℕ) : Bytes :=
  if indent ≥ 0 then dumpIndentationPart indent separator level else []

def space : Bytes := if indent ≥ 0 then [' '.toUInt8] else []

/- `first` is true before the first element. -/
mutual
def dumpInternal (level : ℕ) : WValue F.Double → Bytes
  | .null => bytes "null"
  | .bool false => bytes "false"
  | .bool true => bytes "true"
  | .number n => n.text F
  | .string s => dumpString s
  | .list l =>
    '['.toUInt8 :: (newLine indent separator (level + 1) ++ (dumpList level true l ++
      (newLine indent separator level ++ [']'.toUInt8])))
  | .object o =>
    123 :: (newLine indent separator (level + 1) ++ (dumpObject level true o ++
      (newLine indent separator level ++ [125])))
  | .function => bytes "custom function"

def dumpList (level : ℕ) : Bool → List (WValue F.Double) → Bytes
  | _, [] => []
  | first, x :: l =>
    (if first then [] else ','.toUInt8 :: newLine indent separator (level + 1)) ++
      (dumpInternal (level + 1) x ++ dumpList level false l)

def dumpObject (level : ℕ) : Bool → List (Bytes × WValue F.Double) → Bytes
  | _, [] => []
  | first, (k, x) :: o =>
    (if first then [] else ','.toUInt8 :: newLine indent separator (level + 1)) ++
      (dumpString k ++ ':'.toUInt8 :: (space indent ++
        (dumpInternal (level + 1) x ++ dumpObject level false o)))
end

def dump (v : WValue F.Double) : Bytes := dumpInternal F indent separator 0 v

end

/-! ### What a value says -/

def WNumber.json (F : Printf) : WNumber F.Double → Json
  | .signed i => .number ((WNumber.signed i).text F)
  | .unsigned u => .number ((WNumber.unsigned u).text F)
  | .float d => if F.finite d then .number ((WNumber.float d).text F) else .null
  | .double d => if F.finite d then .number ((WNumber.double d).text F) else .null

namespace WValue
variable (F : Printf)

mutual
def json : WValue F.Double → Json
  | null => .null
  | bool b => .bool b
  | number n => n.json F
  | string s => .string s
  | list l => .list (jsonList l)
  | object o => .object (jsonObject o)
  | function => .null

def jsonList : List (WValue F.Double) → List Json
  | [] => []
  | x :: l => json x :: jsonList l

def jsonObject : List (Bytes × WValue F.Double) → List (Bytes × Json)
  | [] => []
  | (k, x) :: o => (k, json x) :: jsonObject o
end

mutual
def nest : WValue F.Double → ℕ
  | list l => nestList l + 1
  | object o => nestObject o + 1
  | _ => 0

def nestList : List (WValue F.Double) → ℕ
  | [] => 0
  | x :: l => max (nest x) (nestList l)

def nestObject : List (Bytes × WValue F.Double) → ℕ
  | [] => 0
  | (_, x) :: o => max (nest x) (nestObject o)
end

/- No function anywhere in the value. -/
mutual
def plain : WValue F.Double → Bool
  | list l => plainList l
  | object o => plainObject o
  | function => false
  | _ => true

def plainList : List (WValue F.Double) → Bool
  | [] => true
  | x :: l => plain x && plainList l

def plainObject : List (Bytes × WValue F.Double) → Bool
  | [] => true
  | (_, x) :: o => plain x && plainObject o
end

end WValue

/-! ### What is written is a phrase -/

section
variable (F : Printf)

theorem fixed_numeral (d : F.Double) : ∃ n : Numeral, trim (snprintf (F.fixed d).render) = n.render := by
  obtain ⟨m, hm, he⟩ := Numeral.take_render (F.fixed_exponent d) 125
  obtain ⟨n, hn, -⟩ := trim_fixed he
  exact ⟨n, by rw [snprintf, hm, hn]⟩

theorem general_numeral (d : F.Double) :
    ∃ n : Numeral, trim (snprintf (F.general d).render) = n.render ∧
      (n.value = (F.general d).value ↔ ¬ (F.general d).Spoilt) := by
  have hfits : snprintf (F.general d).render = (F.general d).render :=
    List.take_of_length_le (Nat.le_of_lt_succ (F.general_length d))
  rw [hfits]
  exact trim_numeral (F.general d) (F.general_exponent d)

theorem signed_numeral (i : Int64) :
    ∃ n : Numeral, (WNumber.signed i).text F = n.render ∧ n.value = i.toInt := by
  obtain ⟨v, hv, -, -, hvalue⟩ := natText_numeral i.toInt.natAbs
  by_cases hneg : i < 0
  · have hint : i.toInt < 0 := Int64.lt_iff_toInt_lt.mp hneg
    refine ⟨⟨true, v⟩, ?_, ?_⟩
    · rw [WNumber.text, if_pos hneg, hv]
      rfl
    · rw [Numeral.value, if_pos rfl, hvalue, Nat.cast_natAbs, abs_of_neg hint]
      push_cast
      ring
  · have hint : 0 ≤ i.toInt := by
      have h := mt Int64.lt_iff_toInt_lt.mpr hneg
      exact Int.not_lt.mp h
    refine ⟨⟨false, v⟩, ?_, ?_⟩
    · rw [WNumber.text, if_neg hneg, hv]
      rfl
    · rw [Numeral.value, if_neg (by simp), hvalue, Nat.cast_natAbs, abs_of_nonneg hint]

theorem number_atom (n : WNumber F.Double) :
    ∃ a : Atom, n.text F = a.render ∧ a.value = n.json F := by
  cases n with
  | signed i =>
    obtain ⟨n, hn, -⟩ := signed_numeral F i
    exact ⟨.number n, hn, by rw [Atom.value, ← hn]; rfl⟩
  | unsigned u =>
    obtain ⟨v, hv, -⟩ := natText_numeral u.toNat
    have htext : (WNumber.unsigned u).text F = Numeral.render ⟨false, v⟩ := hv
    exact ⟨.number ⟨false, v⟩, htext, by rw [Atom.value, ← htext]; rfl⟩
  | float d =>
    cases hfin : F.finite d with
    | true =>
      obtain ⟨n, hn⟩ := fixed_numeral F d
      have htext : (WNumber.float d).text F = n.render := by rw [WNumber.text, if_pos hfin, hn]
      exact ⟨.number n, htext, by rw [Atom.value, WNumber.json, if_pos hfin, htext]⟩
    | false => exact ⟨.null, by simp [WNumber.text, hfin, Atom.render], by simp [WNumber.json, hfin, Atom.value]⟩
  | double d =>
    cases hfin : F.finite d with
    | true =>
      obtain ⟨n, hn, -⟩ := general_numeral F d
      have htext : (WNumber.double d).text F = n.render := by rw [WNumber.text, if_pos hfin, hn]
      exact ⟨.number n, htext, by rw [Atom.value, WNumber.json, if_pos hfin, htext]⟩
    | false => exact ⟨.null, by simp [WNumber.text, hfin, Atom.render], by simp [WNumber.json, hfin, Atom.value]⟩

end

/- The white space that is written, if it is white space. -/
theorem newLine_ws {indent : ℤ} {separator : UInt8} (h : 0 < indent → isWs separator = true)
    (level : ℕ) : (newLine indent separator level).all isWs = true := by
  rw [newLine]
  split_ifs with hindent
  · rw [dumpIndentationPart, List.all_cons, List.all_replicate]
    rcases Int.lt_or_eq_of_le hindent with hpos | hzero
    · simp [h hpos, show isWs '\n'.toUInt8 = true from rfl]
    · simp [← hzero, show isWs '\n'.toUInt8 = true from rfl]
  · rfl

theorem space_ws (indent : ℤ) : (space indent).all isWs = true := by
  rw [space]
  split_ifs <;> decide

section
variable (F : Printf) {indent : ℤ} {separator : UInt8} (h : 0 < indent → isWs separator = true)
include h

/- The gap of an empty list or object. -/
theorem newLines_ws (level : ℕ) :
    (newLine indent separator (level + 1) ++ newLine indent separator level).all isWs = true := by
  rw [List.all_append, newLine_ws h, newLine_ws h]
  rfl

open WValue Phrase in
mutual
/-- The text of a value is a phrase that stands for what the value says. -/
theorem dumpInternal_phrase : ∀ (v : WValue F.Double) (level : ℕ), v.plain F = true →
    ∃ c : Phrase, dumpInternal F indent separator level v = c.render ∧ c.value = v.json F ∧
      c.nest = v.nest F
  | .null, _, _ => ⟨.atom .null, rfl, rfl, rfl⟩
  | .bool false, _, _ => ⟨.atom (.bool false), rfl, rfl, rfl⟩
  | .bool true, _, _ => ⟨.atom (.bool true), rfl, rfl, rfl⟩
  | .number n, _, _ => by
    obtain ⟨a, ha, hvalue⟩ := number_atom F n
    exact ⟨.atom a, ha, hvalue, rfl⟩
  | .string s, _, _ => by
    obtain ⟨l, hl, hvalue⟩ := escape_literal s
    refine ⟨.atom (.string l), ?_, congrArg Json.string hvalue, rfl⟩
    rw [dumpInternal, dumpString, ← hl]
    rfl
  | .list l, level, hplain => by
    obtain ⟨items, htext, hvalue, hnest⟩ := dumpList_phrase l level hplain
    by_cases hl : l = []
    · subst hl
      refine ⟨.list ⟨_, newLines_ws h level⟩ [], ?_, rfl, rfl⟩
      simp [dumpInternal, dumpList, render, renderItems]
    · refine ⟨.list ⟨[], rfl⟩ items, ?_, congrArg Json.list hvalue, congrArg (· + 1) hnest⟩
      rw [dumpInternal, render, ← htext hl]
      simp
  | .object o, level, hplain => by
    obtain ⟨members, htext, hvalue, hnest⟩ := dumpObject_phrase o level hplain
    by_cases ho : o = []
    · subst ho
      refine ⟨.object ⟨_, newLines_ws h level⟩ [], ?_, rfl, rfl⟩
      simp [dumpInternal, dumpObject, render, renderMembers]
    · refine ⟨.object ⟨[], rfl⟩ members, ?_, congrArg Json.object hvalue, congrArg (· + 1) hnest⟩
      rw [dumpInternal, render, ← htext ho]
      simp

theorem dumpList_phrase : ∀ (l : List (WValue F.Double)) (level : ℕ), plainList F l = true →
    ∃ items : List Item,
      (l ≠ [] → newLine indent separator (level + 1) ++
        (dumpList F indent separator level true l ++ newLine indent separator level) =
          renderItems items) ∧
      valueItems items = jsonList F l ∧ nestItems items = nestList F l
  | [], _, _ => ⟨[], fun hl => absurd rfl hl, rfl, rfl⟩
  | x :: l, level, hplain => by
    rw [plainList, Bool.and_eq_true] at hplain
    obtain ⟨c, htext, hvalue, hnest⟩ := dumpInternal_phrase x (level + 1) hplain.1
    obtain ⟨items, htexts, hvalues, hnests⟩ := dumpList_phrase l level hplain.2
    -- the white space behind an element is written before the bracket only
    refine ⟨⟨⟨_, newLine_ws h (level + 1)⟩, c,
      if l = [] then ⟨_, newLine_ws h level⟩ else ⟨[], rfl⟩⟩ :: items, fun _ => ?_, ?_, ?_⟩
    · cases l with
      | nil =>
        cases items with
        | nil => simp [dumpList, htext, renderItems]
        | cons item items => simp [valueItems, jsonList] at hvalues
      | cons y l =>
        have hrest := htexts (List.cons_ne_nil y l)
        cases items with
        | nil => simp [valueItems, jsonList] at hvalues
        | cons item items =>
          rw [renderItems, ← hrest]
          simp [dumpList, htext]
    · rw [valueItems, hvalues, hvalue, jsonList]
    · rw [nestItems, hnests, hnest, nestList]

theorem dumpObject_phrase : ∀ (o : List (Bytes × WValue F.Double)) (level : ℕ),
    plainObject F o = true →
    ∃ members : List Member,
      (o ≠ [] → newLine indent separator (level + 1) ++
        (dumpObject F indent separator level true o ++ newLine indent separator level) =
          renderMembers members) ∧
      valueMembers members = jsonObject F o ∧ nestMembers members = nestObject F o
  | [], _, _ => ⟨[], fun ho => absurd rfl ho, rfl, rfl⟩
  | (k, x) :: o, level, hplain => by
    rw [plainObject, Bool.and_eq_true] at hplain
    obtain ⟨key, hkey, hkvalue⟩ := escape_literal k
    obtain ⟨c, htext, hvalue, hnest⟩ := dumpInternal_phrase x (level + 1) hplain.1
    obtain ⟨members, htexts, hvalues, hnests⟩ := dumpObject_phrase o level hplain.2
    refine ⟨(⟨⟨_, newLine_ws h (level + 1)⟩, key, ⟨[], rfl⟩⟩, ⟨⟨_, space_ws indent⟩, c,
      if o = [] then ⟨_, newLine_ws h level⟩ else ⟨[], rfl⟩⟩) :: members, fun _ => ?_, ?_, ?_⟩
    · cases o with
      | nil =>
        cases members with
        | nil => simp [dumpObject, dumpString, htext, hkey, renderMembers]
        | cons member members => simp [valueMembers, jsonObject] at hvalues
      | cons y o =>
        have hrest := htexts (List.cons_ne_nil y o)
        cases members with
        | nil => simp [valueMembers, jsonObject] at hvalues
        | cons member members =>
          rw [renderMembers, ← hrest]
          simp [dumpObject, dumpString, htext, hkey]
    · rw [valueMembers, hvalues, hvalue, hkvalue, jsonObject]
    · rw [nestMembers, hnests, hnest, nestObject]
end

end

/-! ### The round trip -/

/- The text is a phrase, and no zero is in it. -/
theorem dump_phrase (F : Printf) (indent : ℤ) (separator : UInt8)
    (hws : 0 < indent → isWs separator = true) (v : WValue F.Double) (hplain : v.plain F = true) :
    ∃ t : Padded Phrase, textOf (dump F indent separator v) = t.render ∧ t.body.value = v.json F ∧
      t.body.nest = v.nest F := by
  obtain ⟨c, htext, hvalue, hn⟩ := dumpInternal_phrase F hws v 0 hplain
  have hrender : dump F indent separator v ++ [0] =
      Padded.render ⟨⟨[], rfl⟩, c, ⟨[], rfl⟩⟩ ++ 0 :: [] := by
    rw [dump, htext]
    simp [Padded.render]
  exact ⟨_, textOf_eq hrender (Padded.render_no_zero _), hvalue, hn⟩

/- Numbers that are printed as themselves. -/
def printedNumerals : Printf where
  Double := { n : Numeral //
    (∀ e, n.magnitude.exponent = some e → e.Signed) ∧ n.render.length < 128 }
  finite _ := true
  fixed d := ⟨d.1.negative, .zero⟩
  general d := d.1
  fixed_exponent _ := rfl
  general_exponent d := d.2.1
  general_length d := d.2.2

end TypegoSdk.Crow
