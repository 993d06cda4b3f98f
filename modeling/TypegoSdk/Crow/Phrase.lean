import TypegoSdk.Crow.Decode

/-!
# The texts that `load` accepts

A phrase is a JSON value as it is written down, with the white space between its
parts and the spelling of its strings and numbers; every phrase is well formed.
`render` is its text and `value` the JSON value it stands for. `place` and
`imprint` say what the parser leaves of it: the tree of pointers, and the bytes
that then stand in the place of the text.
-/

namespace TypegoSdk.Crow
open TypegoSdk.Lib

/-- A number is kept as its text. -/
inductive Json where
  | null
  | bool (b : Bool)
  | number (text : Bytes)
  | string (s : Bytes)
  | list (l : List Json)
  | object (m : List (Bytes × Json))

abbrev Ws := { w : Bytes // w.all isWs = true }

structure Padded (α : Type) where
  before : Ws
  body : α
  after : Ws

inductive Atom where
  | null
  | bool (b : Bool)
  | number (n : Numeral)
  | string (l : Literal)

/- `gap` is the white space of an empty list or object. -/
inductive Phrase where
  | atom (a : Atom)
  | list (gap : Ws) (items : List (Padded Phrase))
  | object (gap : Ws) (members : List (Padded Literal × Padded Phrase))

abbrev Item := Padded Phrase
abbrev Member := Padded Literal × Padded Phrase

namespace Atom

def render : Atom → Bytes
  | null => bytes "null"
  | bool true => bytes "true"
  | bool false => bytes "false"
  | number n => n.render
  | string l => quote :: (l.render ++ [quote])

def value : Atom → Json
  | null => .null
  | bool b => .bool b
  | number n => .number n.render
  | string l => .string l.value

def place (off : ℕ) : Atom → RValue
  | null => .ofType .null
  | bool true => .ofType .true
  | bool false => .ofType .false
  | number n => .ofText .number off (off + n.render.length)
  | string l => .ofText .string (off + 1) (off + 1 + l.render.length)

def imprint : Atom → Bytes
  | string l => l.flag :: (l.render ++ [0])
  | a => a.render

/- What follows a number must not go on with it. -/
def Stops : Atom → Bytes → Prop
  | number _, rest => kind (rest.headD 0) = .other
  | _, _ => True

@[simp] theorem imprint_length (a : Atom) : a.imprint.length = a.render.length := by
  cases a with
  | string l => simp [imprint, render]
  | _ => rfl

end Atom

namespace Phrase

mutual
def render : Phrase → Bytes
  | atom a => a.render
  | list gap items => '['.toUInt8 :: (gap.1 ++ (renderItems items ++ [']'.toUInt8]))
  | object gap members => 123 :: (gap.1 ++ (renderMembers members ++ [125]))

def renderItems : List Item → Bytes
  | [] => []
  | [⟨before, c, after⟩] => before.1 ++ (c.render ++ after.1)
  | ⟨before, c, after⟩ :: item :: items =>
    before.1 ++ (c.render ++ (after.1 ++ ','.toUInt8 :: renderItems (item :: items)))

def renderMembers : List Member → Bytes
  | [] => []
  | [(k, ⟨before, c, after⟩)] =>
    k.before.1 ++ quote :: (k.body.render ++ quote :: (k.after.1 ++ ':'.toUInt8 ::
      (before.1 ++ (c.render ++ after.1))))
  | (k, ⟨before, c, after⟩) :: member :: members =>
    k.before.1 ++ quote :: (k.body.render ++ quote :: (k.after.1 ++ ':'.toUInt8 ::
      (before.1 ++ (c.render ++ (after.1 ++ ','.toUInt8 :: renderMembers (member :: members))))))
end

mutual
def value : Phrase → Json
  | atom a => a.value
  | list _ items => .list (valueItems items)
  | object _ members => .object (valueMembers members)

def valueItems : List Item → List Json
  | [] => []
  | ⟨_, c, _⟩ :: items => c.value :: valueItems items

def valueMembers : List Member → List (Bytes × Json)
  | [] => []
  | (k, ⟨_, c, _⟩) :: members => (k.body.value, c.value) :: valueMembers members
end

/- The lists and objects around the innermost value. -/
mutual
def nest : Phrase → ℕ
  | atom _ => 0
  | list _ items => nestItems items + 1
  | object _ members => nestMembers members + 1

def nestItems : List Item → ℕ
  | [] => 0
  | ⟨_, c, _⟩ :: items => max c.nest (nestItems items)

def nestMembers : List Member → ℕ
  | [] => 0
  | (_, ⟨_, c, _⟩) :: members => max c.nest (nestMembers members)
end

mutual
def imprint : Phrase → Bytes
  | atom a => a.imprint
  | list gap items => '['.toUInt8 :: (gap.1 ++ (imprintItems items ++ [']'.toUInt8]))
  | object gap members => 123 :: (gap.1 ++ (imprintMembers members ++ [125]))

def imprintItems : List Item → Bytes
  | [] => []
  | [⟨before, c, after⟩] => before.1 ++ (c.imprint ++ after.1)
  | ⟨before, c, after⟩ :: item :: items =>
    before.1 ++ (c.imprint ++ (after.1 ++ ','.toUInt8 :: imprintItems (item :: items)))

def imprintMembers : List Member → Bytes
  | [] => []
  | [(k, ⟨before, c, after⟩)] =>
    k.before.1 ++ 0 :: (k.body.settled ++ 0 :: (k.after.1 ++ ':'.toUInt8 ::
      (before.1 ++ (c.imprint ++ after.1))))
  | (k, ⟨before, c, after⟩) :: member :: members =>
    k.before.1 ++ 0 :: (k.body.settled ++ 0 :: (k.after.1 ++ ':'.toUInt8 ::
      (before.1 ++ (c.imprint ++ (after.1 ++ ','.toUInt8 :: imprintMembers (member :: members))))))
end

/- Where the value of a member begins, counted from the member. -/
def valueOffset (k : Padded Literal) (before : Ws) : ℕ :=
  k.before.1.length + 1 + k.body.render.length + 1 + k.after.1.length + 1 + before.1.length

mutual
def place (off : ℕ) : Phrase → RValue
  | atom a => a.place off
  | list gap items => .ofList .list (placeItems (off + 1 + gap.1.length) items)
  | object gap members => .ofList .object (placeMembers (off + 1 + gap.1.length) members)

def placeItems (off : ℕ) : List Item → List RValue
  | [] => []
  | ⟨before, c, after⟩ :: items =>
    c.place (off + before.1.length) ::
      placeItems (off + before.1.length + c.render.length + after.1.length + 1) items

def placeMembers (off : ℕ) : List Member → List RValue
  | [] => []
  | (k, ⟨before, c, after⟩) :: members =>
    { c.place (off + valueOffset k before) with
      key := ⟨off + k.before.1.length + 1, off + k.before.1.length + 1 + k.body.value.length⟩ } ::
      placeMembers (off + valueOffset k before + c.render.length + after.1.length + 1) members
end

def Stops : Phrase → Bytes → Prop
  | atom a, rest => a.Stops rest
  | _, _ => True

/-! ### The first byte -/

/- Neither white space, nor the end of a list, nor zero. -/
def isFirst (b : UInt8) : Bool := !isWs b && b != ']'.toUInt8 && b != 0

theorem isFirst_of_digit {b : UInt8} (h : isDigit b = true) : isFirst b = true := by
  cases hf : isFirst b with
  | true => rfl
  | false =>
    simp only [isFirst, isWs, Bool.and_eq_false_iff, Bool.not_eq_false', Bool.or_eq_true,
      beq_iff_eq, bne_eq_false_iff_eq] at hf
    rcases hf with ((((rfl | rfl) | rfl) | rfl) | rfl) | rfl <;> exact absurd h (by decide)

theorem render_head (c : Phrase) : ∃ b rest, c.render = b :: rest ∧ isFirst b = true := by
  cases c with
  | atom a =>
    cases a with
    | null => exact ⟨_, _, rfl, by decide⟩
    | bool b =>
      cases b with
      | true => exact ⟨_, _, rfl, by decide⟩
      | false => exact ⟨_, _, rfl, by decide⟩
    | number n =>
      obtain ⟨negative, u⟩ := n
      cases negative with
      | true => exact ⟨_, _, rfl, by decide⟩
      | false =>
        have hd := u.render_head
        cases hu : u.render with
        | nil => exact absurd hd (by rw [hu]; decide)
        | cons b rest =>
          rw [hu, List.headD_cons] at hd
          exact ⟨b, rest, hu, isFirst_of_digit hd⟩
    | string l => exact ⟨_, _, rfl, by decide⟩
  | list gap items => exact ⟨_, _, rfl, by decide⟩
  | object gap members => exact ⟨_, _, rfl, by decide⟩

theorem renderItems_cons (before after : Ws) (c : Phrase) (items : List Item) :
    ∃ tail, renderItems (⟨before, c, after⟩ :: items) = before.1 ++ (c.render ++ tail) := by
  cases items with
  | nil => exact ⟨_, rfl⟩
  | cons item items => exact ⟨_, rfl⟩

theorem renderMembers_cons (k : Padded Literal) (item : Item) (members : List Member) :
    ∃ tail, renderMembers ((k, item) :: members) = k.before.1 ++ quote :: tail := by
  obtain ⟨before, c, after⟩ := item
  cases members with
  | nil => exact ⟨_, rfl⟩
  | cons member members => exact ⟨_, rfl⟩

/-! ### Lengths -/

mutual
theorem imprint_length : ∀ c : Phrase, c.imprint.length = c.render.length
  | atom a => a.imprint_length
  | list gap items => by
    simp only [imprint, render, List.length_cons, List.length_append, imprintItems_length items]
  | object gap members => by
    simp only [imprint, render, List.length_cons, List.length_append,
      imprintMembers_length members]

theorem imprintItems_length : ∀ items : List Item,
    (imprintItems items).length = (renderItems items).length
  | [] => rfl
  | [⟨before, c, after⟩] => by
    simp only [imprintItems, renderItems, List.length_append, imprint_length c]
  | ⟨before, c, after⟩ :: item :: items => by
    simp only [imprintItems, renderItems, List.length_append, List.length_cons, imprint_length c,
      imprintItems_length (item :: items)]

theorem imprintMembers_length : ∀ members : List Member,
    (imprintMembers members).length = (renderMembers members).length
  | [] => rfl
  | [(k, ⟨before, c, after⟩)] => by
    simp only [imprintMembers, renderMembers, List.length_append, List.length_cons,
      Literal.settled_length, imprint_length c]
  | (k, ⟨before, c, after⟩) :: member :: members => by
    simp only [imprintMembers, renderMembers, List.length_append, List.length_cons,
      Literal.settled_length, imprint_length c, imprintMembers_length (member :: members)]
end

theorem length_le_renderItems : ∀ items : List Item, items.length ≤ (renderItems items).length
  | [] => le_rfl
  | [⟨before, c, after⟩] => by
    obtain ⟨b, rest, hc, -⟩ := render_head c
    simp only [renderItems, hc, List.length_append, List.length_cons, List.length_nil]
    omega
  | ⟨before, c, after⟩ :: item :: items => by
    have ih := length_le_renderItems (item :: items)
    simp only [renderItems, List.length_append, List.length_cons] at ih ⊢
    omega

theorem length_le_renderMembers : ∀ members : List Member,
    members.length ≤ (renderMembers members).length
  | [] => le_rfl
  | [(k, ⟨before, c, after⟩)] => by
    simp only [renderMembers, List.length_append, List.length_cons, List.length_nil]
    omega
  | (k, ⟨before, c, after⟩) :: member :: members => by
    have ih := length_le_renderMembers (member :: members)
    simp only [renderMembers, List.length_append, List.length_cons] at ih ⊢
    omega

end Phrase

/-- A text: a phrase with the white space around it. -/
def Padded.render (d : Padded Phrase) : Bytes := d.before.1 ++ (d.body.render ++ d.after.1)

end TypegoSdk.Crow
