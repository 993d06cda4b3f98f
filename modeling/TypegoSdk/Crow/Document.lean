import TypegoSdk.Crow.Accept

/-!
# What a document says

The tree that `load` returns holds offsets, and what it says is read from the
buffer: a number is the bytes between its pointers, and a string as well, once
its escapes have been undone. The bytes a tree depends on are its cells. The
cells of a freshly loaded document lie apart from each other, and the document
says what was written.
-/

namespace TypegoSdk.Crow
open TypegoSdk.Lib

/-! ### Reading a tree -/

/-- The string between two pointers. The byte before it says whether its escapes
are still to be undone. -/
def stringAt (buf : Bytes) (start stop : ℕ) : Bytes :=
  if peek buf (start - 1) ≠ 0 then unescapeText (substr buf start stop) else substr buf start stop

def RValue.keyText (buf : Bytes) (v : RValue) : Bytes := substr buf v.key.s v.key.e

namespace RValue

mutual
def denote (buf : Bytes) : RValue → Json
  | ⟨.null, _, _, _, _, _⟩ => .null
  | ⟨.false, _, _, _, _, _⟩ => .bool false
  | ⟨.true, _, _, _, _, _⟩ => .bool true
  | ⟨.number, start, stop, _, _, _⟩ => .number (substr buf start stop)
  | ⟨.string, start, stop, _, _, _⟩ => .string (stringAt buf start stop)
  | ⟨.list, _, _, _, l, _⟩ => .list (denoteItems buf l)
  | ⟨.object, _, _, _, l, _⟩ => .object (denoteMembers buf l)

def denoteItems (buf : Bytes) : List RValue → List Json
  | [] => []
  | v :: l => v.denote buf :: denoteItems buf l

def denoteMembers (buf : Bytes) : List RValue → List (Bytes × Json)
  | [] => []
  | v :: l => (v.keyText buf, v.denote buf) :: denoteMembers buf l
end

theorem denoteItems_eq (buf : Bytes) (l : List RValue) : denoteItems buf l = l.map (denote buf) := by
  induction l with
  | nil => rfl
  | cons v l ih => rw [denoteItems, ih, List.map_cons]

theorem denoteMembers_eq (buf : Bytes) (l : List RValue) :
    denoteMembers buf l = l.map fun v => (v.keyText buf, v.denote buf) := by
  induction l with
  | nil => rfl
  | cons v l ih => rw [denoteMembers, ih, List.map_cons]

/- The key of a value is not part of what it says. -/
@[simp] theorem denote_setKey (buf : Bytes) (v : RValue) (key : RString) :
    ({ v with key := key } : RValue).denote buf = v.denote buf := by
  obtain ⟨t, start, stop, k, l, cached⟩ := v
  cases t <;> rfl

end RValue

def Document.denote (d : Document) : Json := d.root.denote d.buf

/-! ### The tree of a phrase says what was written -/

theorem substr_between (pre mid post : Bytes) {i j : ℕ} (hi : i = pre.length)
    (hj : j = pre.length + mid.length) : substr (pre ++ (mid ++ post)) i j = mid := by
  rw [hi, hj, ← List.append_assoc, substr_append]

theorem stringAt_literal (l : Literal) (pre post : Bytes) :
    stringAt (pre ++ l.flag :: (l.render ++ post)) (pre.length + 1)
      (pre.length + 1 + l.render.length) = l.value := by
  have hsubstr : substr (pre ++ l.flag :: (l.render ++ post)) (pre.length + 1)
      (pre.length + 1 + l.render.length) = l.render := by
    have h := substr_between (pre ++ [l.flag]) l.render post
      (i := pre.length + 1) (j := pre.length + 1 + l.render.length) (by simp) (by simp)
    simpa using h
  rw [stringAt, Nat.add_sub_cancel, peek_head, hsubstr]
  cases h : l.escaped with
  | true => rw [if_pos (by simp [Literal.flag, h]), unescapeText_render]
  | false => rw [if_neg (by simp [Literal.flag, h]), Literal.value_of_not_escaped h]

theorem Atom.denote_place (a : Atom) (pre post : Bytes) :
    (a.place pre.length).denote (pre ++ (a.imprint ++ post)) = a.value := by
  cases a with
  | null => rfl
  | bool b =>
    cases b with
    | true => rfl
    | false => rfl
  | number n => exact congrArg Json.number (substr_between _ _ _ rfl rfl)
  | string l =>
    have h := stringAt_literal l pre (0 :: post)
    simp only [Atom.place, RValue.ofText, RValue.denote, Atom.imprint, Atom.value, List.cons_append,
      List.append_assoc, List.nil_append, h]

namespace Phrase
open RValue

/- A key that has been unescaped stands behind a zero. -/
theorem key_at (l : Literal) (pre rest : Bytes) :
    substr (pre ++ 0 :: (l.settled ++ rest)) (pre.length + 1) (pre.length + 1 + l.value.length) =
      l.value := by
  have h := substr_between (pre ++ [0]) l.value
    (l.settled.drop l.value.length ++ rest) (i := pre.length + 1)
    (j := pre.length + 1 + l.value.length) (by simp) (by simp)
  rw [← List.append_assoc l.value, ← l.settled_eq] at h
  simpa using h

mutual
theorem denote_place : ∀ (c : Phrase) (pre post : Bytes),
    (c.place pre.length).denote (pre ++ (c.imprint ++ post)) = c.value
  | .atom a, pre, post => a.denote_place pre post
  | .list gap items, pre, post => by
    have hitems := denote_placeItems items (pre ++ '['.toUInt8 :: gap.1) ([']'.toUInt8] ++ post)
    have hoff : (pre ++ '['.toUInt8 :: gap.1).length = pre.length + 1 + gap.1.length := by
      simp only [List.length_append, List.length_cons]
      omega
    rw [hoff] at hitems
    simp only [Phrase.place, RValue.ofList, denote, imprint, Phrase.value]
    simpa using hitems
  | .object gap members, pre, post => by
    have hmembers := denote_placeMembers members (pre ++ 123 :: gap.1) ([125] ++ post)
    have hoff : (pre ++ 123 :: gap.1).length = pre.length + 1 + gap.1.length := by
      simp only [List.length_append, List.length_cons]
      omega
    rw [hoff] at hmembers
    simp only [Phrase.place, RValue.ofList, denote, imprint, Phrase.value]
    simpa using hmembers

theorem denote_placeItems : ∀ (items : List Item) (pre post : Bytes),
    denoteItems (pre ++ (imprintItems items ++ post)) (placeItems pre.length items) =
      valueItems items
  | [], _, _ => rfl
  | [⟨before, c, after⟩], pre, post => by
    have hc := denote_place c (pre ++ before.1) (after.1 ++ post)
    rw [List.length_append] at hc
    simp only [imprintItems, placeItems, denoteItems, valueItems]
    simpa using hc
  | ⟨before, c, after⟩ :: item :: items, pre, post => by
    have hc := denote_place c (pre ++ before.1)
      (after.1 ++ ','.toUInt8 :: (imprintItems (item :: items) ++ post))
    have hrest := denote_placeItems (item :: items)
      (pre ++ before.1 ++ c.imprint ++ after.1 ++ [','.toUInt8]) post
    simp only [List.length_append, imprint_length, List.length_singleton] at hc hrest
    simp only [imprintItems, placeItems.eq_2, denoteItems.eq_2, valueItems.eq_2, List.cons.injEq]
    simp only [List.append_assoc, List.cons_append, List.nil_append] at hc hrest ⊢
    exact ⟨hc, hrest⟩

theorem denote_placeMembers : ∀ (members : List Member) (pre post : Bytes),
    denoteMembers (pre ++ (imprintMembers members ++ post)) (placeMembers pre.length members) =
      valueMembers members
  | [], _, _ => rfl
  | [(k, ⟨before, c, after⟩)], pre, post => by
    have hc := denote_place c
      (pre ++ k.before.1 ++ Parser.keyImprint k.body k.after ++ before.1) (after.1 ++ post)
    have hk := key_at k.body (pre ++ k.before.1)
      (0 :: (k.after.1 ++ ':'.toUInt8 :: (before.1 ++ (c.imprint ++ (after.1 ++ post)))))
    rw [Parser.valueOffset_length] at hc
    rw [List.length_append] at hk
    simp only [imprintMembers, placeMembers, denoteMembers, valueMembers, denote_setKey,
      RValue.keyText, Parser.keyImprint, List.append_assoc, List.cons_append,
      List.nil_append] at hc hk ⊢
    rw [hc, hk]
  | (k, ⟨before, c, after⟩) :: member :: members, pre, post => by
    have hc := denote_place c (pre ++ k.before.1 ++ Parser.keyImprint k.body k.after ++ before.1)
      (after.1 ++ ','.toUInt8 :: (imprintMembers (member :: members) ++ post))
    have hk := key_at k.body (pre ++ k.before.1) (0 :: (k.after.1 ++ ':'.toUInt8 :: (before.1 ++
      (c.imprint ++ (after.1 ++ ','.toUInt8 :: (imprintMembers (member :: members) ++ post))))))
    have hrest := denote_placeMembers (member :: members)
      (pre ++ k.before.1 ++ Parser.keyImprint k.body k.after ++ before.1 ++ c.imprint ++ after.1 ++
        [','.toUInt8]) post
    have hoff : (pre ++ k.before.1 ++ Parser.keyImprint k.body k.after ++ before.1 ++ c.imprint ++
        after.1 ++ [','.toUInt8]).length =
        pre.length + valueOffset k before + c.render.length + after.1.length + 1 := by
      rw [List.length_append, List.length_append, List.length_append, Parser.valueOffset_length,
        imprint_length, List.length_singleton]
    rw [Parser.valueOffset_length] at hc
    rw [List.length_append] at hk
    rw [hoff] at hrest
    simp only [imprintMembers, placeMembers.eq_2, denoteMembers.eq_2, valueMembers.eq_2,
      denote_setKey, RValue.keyText, Parser.keyImprint, List.append_assoc, List.cons_append,
      List.nil_append] at hc hk hrest ⊢
    rw [hc, hk, hrest]
end

end Phrase

theorem documentOf_denote (t : Padded Phrase) (rest : Bytes) :
    (documentOf t rest).denote = t.body.value :=
  t.body.denote_place t.before.1 (t.after.1 ++ rest)

theorem load_says {str : Bytes} {d : Document} (h : load str = .ok d) :
    ∃ t : Padded Phrase, textOf str = t.render ∧ t.body.nest ≤ 5000 ∧ d.denote = t.body.value := by
  obtain ⟨t, tail, ht, hn⟩ := load_sound h
  rw [load_render ht hn] at h
  cases h
  exact ⟨t, textOf_eq ht t.render_no_zero, hn, documentOf_denote t _⟩

theorem load_accepts {str : Bytes} {t : Padded Phrase} (ht : textOf str = t.render)
    (hn : t.body.nest ≤ 5000) : ∃ d, load str = .ok d ∧ d.denote = t.body.value := by
  obtain ⟨tail, htail⟩ := textOf_split str
  exact ⟨_, load_render (by rw [htail, ht]) hn, documentOf_denote t _⟩

/-- For every string: the loops of the parser end; what is accepted is a phrase with
white space around it, up to the first zero and of at most 5000 levels, and each
such text is accepted; and the document says what the text says. -/
theorem load_spec (str : Bytes) :
    load str ≠ .error .fuel ∧
    (∀ d, load str = .ok d → ∃ t : Padded Phrase, textOf str = t.render ∧ t.body.nest ≤ 5000 ∧
      d.denote = t.body.value) ∧
    ∀ t : Padded Phrase, textOf str = t.render → t.body.nest ≤ 5000 →
      ∃ d, load str = .ok d ∧ d.denote = t.body.value :=
  ⟨load_enough str, fun _ hd => load_says hd, fun _ ht hn => load_accepts ht hn⟩

end TypegoSdk.Crow
