import TypegoSdk.Crow.Document
import TypegoSdk.Lib.Search

/-!
# The cells of a tree

The bytes a tree depends on: those between the pointers of a number or of a key,
and those of a string together with the byte before it, which the first `s()` of
the string writes. A change outside the cells of a tree does not change what it
says, so a change in one cell of a document is seen by one value only.
-/

namespace TypegoSdk.Crow
open TypegoSdk.Lib

inductive Cell where
  | string (start stop : ℕ)
  | text (lo hi : ℕ)

namespace Cell

def lo : Cell → ℕ
  | string start _ => start - 1
  | text lo _ => lo

def hi : Cell → ℕ
  | string _ stop => stop
  | text _ hi => hi

def Apart (a b : Cell) : Prop := a.hi ≤ b.lo ∨ b.hi ≤ a.lo

theorem Apart.symm {a b : Cell} (h : Apart a b) : Apart b a := Or.symm h

/- The two buffers have the same bytes in the cell. -/
def Agree (a b : Bytes) (c : Cell) : Prop := ∀ k, c.lo ≤ k → k < c.hi → peek a k = peek b k

/-- A string has been unescaped, or the byte before it is one and it is a literal
with escapes. -/
def Good (buf : Bytes) : Cell → Prop
  | string start stop => 1 ≤ start ∧ start ≤ stop ∧ stop ≤ buf.length ∧
      (peek buf (start - 1) = 0 ∨
        peek buf (start - 1) = 1 ∧ ∃ l : Literal, substr buf start stop = l.render ∧ l.escaped = true)
  | text _ _ => True

theorem slice_string_congr {a b : Bytes} {start stop : ℕ} (hlen : a.length = b.length)
    (h : Agree a b (.string start stop)) : substr a start stop = substr b start stop := by
  apply substr_congr hlen
  intro k hk hks
  exact h k (by simp only [lo]; omega) hks

theorem Good.congr {a b : Bytes} {c : Cell} (hlen : a.length = b.length) (h : Agree a b c)
    (hg : c.Good a) : c.Good b := by
  cases c with
  | text lo hi => trivial
  | string start stop =>
    obtain ⟨h1, h2, h3, hflag⟩ := hg
    have hpeek : peek a (start - 1) = peek b (start - 1) :=
      h (start - 1) (by simp only [lo]; omega) (by simp only [hi]; omega)
    refine ⟨h1, h2, by omega, ?_⟩
    rw [← hpeek, ← slice_string_congr hlen h]
    exact hflag

theorem stringAt_congr {a b : Bytes} {start stop : ℕ} (hlen : a.length = b.length)
    (h : Agree a b (.string start stop)) (hg : (Cell.string start stop).Good a) :
    stringAt a start stop = stringAt b start stop := by
  have hpeek : peek a (start - 1) = peek b (start - 1) :=
    h (start - 1) (by simp only [lo]; omega) (by
      have h1 := hg.1
      have h2 := hg.2.1
      simp only [hi]
      omega)
  rw [stringAt, stringAt, hpeek, slice_string_congr hlen h]

end Cell

/-! ### The cells of a tree -/

namespace RValue

mutual
def cells : RValue → List Cell
  | ⟨.null, _, _, _, _, _⟩ => []
  | ⟨.false, _, _, _, _, _⟩ => []
  | ⟨.true, _, _, _, _, _⟩ => []
  | ⟨.number, start, stop, _, _, _⟩ => [.text start stop]
  | ⟨.string, start, stop, _, _, _⟩ => [.string start stop]
  | ⟨.list, _, _, _, l, _⟩ => cellsItems l
  | ⟨.object, _, _, _, l, _⟩ => cellsMembers l

def cellsItems : List RValue → List Cell
  | [] => []
  | v :: l => v.cells ++ cellsItems l

def cellsMembers : List RValue → List Cell
  | [] => []
  | v :: l => .text v.key.s v.key.e :: (v.cells ++ cellsMembers l)
end

theorem cellsItems_append (l m : List RValue) :
    cellsItems (l ++ m) = cellsItems l ++ cellsItems m := by
  induction l with
  | nil => rfl
  | cons v l ih => rw [List.cons_append, cellsItems, cellsItems, ih, List.append_assoc]

theorem cellsMembers_append (l m : List RValue) :
    cellsMembers (l ++ m) = cellsMembers l ++ cellsMembers m := by
  induction l with
  | nil => rfl
  | cons v l ih =>
    rw [List.cons_append, cellsMembers, cellsMembers, ih, List.cons_append, List.append_assoc]

@[simp] theorem cells_setKey (v : RValue) (key : RString) :
    ({ v with key := key } : RValue).cells = v.cells := by
  obtain ⟨t, start, stop, k, l, cached⟩ := v
  cases t <;> rfl

mutual
theorem denote_congr : ∀ (v : RValue) {a b : Bytes}, a.length = b.length →
    (∀ c ∈ v.cells, c.Good a ∧ c.Agree a b) → v.denote a = v.denote b
  | ⟨.null, _, _, _, _, _⟩, _, _, _, _ => rfl
  | ⟨.false, _, _, _, _, _⟩, _, _, _, _ => rfl
  | ⟨.true, _, _, _, _, _⟩, _, _, _, _ => rfl
  | ⟨.number, start, stop, _, _, _⟩, a, b, hlen, h => by
    have hsubstr : substr a start stop = substr b start stop :=
      substr_congr hlen (h (.text start stop) (by simp [cells])).2
    rw [denote, denote, hsubstr]
  | ⟨.string, start, stop, _, _, _⟩, a, b, hlen, h => by
    obtain ⟨hgood, hagree⟩ := h (.string start stop) (by simp [cells])
    rw [denote, denote, Cell.stringAt_congr hlen hagree hgood]
  | ⟨.list, _, _, _, l, _⟩, a, b, hlen, h => by
    rw [denote, denote, denoteItems_congr l hlen h]
  | ⟨.object, _, _, _, l, _⟩, a, b, hlen, h => by
    rw [denote, denote, denoteMembers_congr l hlen h]

theorem denoteItems_congr : ∀ (l : List RValue) {a b : Bytes}, a.length = b.length →
    (∀ c ∈ cellsItems l, c.Good a ∧ c.Agree a b) → denoteItems a l = denoteItems b l
  | [], _, _, _, _ => rfl
  | v :: l, a, b, hlen, h => by
    simp only [cellsItems, List.forall_mem_append] at h
    rw [denoteItems, denoteItems, denote_congr v hlen h.1, denoteItems_congr l hlen h.2]

theorem denoteMembers_congr : ∀ (l : List RValue) {a b : Bytes}, a.length = b.length →
    (∀ c ∈ cellsMembers l, c.Good a ∧ c.Agree a b) → denoteMembers a l = denoteMembers b l
  | [], _, _, _, _ => rfl
  | v :: l, a, b, hlen, h => by
    simp only [cellsMembers, List.forall_mem_cons, List.forall_mem_append] at h
    have hkey : v.keyText a = v.keyText b := substr_congr hlen h.1.2
    rw [denoteMembers, denoteMembers, hkey, denote_congr v hlen h.2.1,
      denoteMembers_congr l hlen h.2.2]
end

end RValue

/-! ### The cells of a phrase lie apart -/

/-- Good cells between two offsets, each apart from the others. -/
structure Laid (buf : Bytes) (lo hi : ℕ) (cs : List Cell) : Prop where
  good : ∀ c ∈ cs, c.Good buf
  inside : ∀ c ∈ cs, lo ≤ c.lo ∧ c.hi ≤ hi
  apart : cs.Pairwise Cell.Apart

namespace Laid
variable {buf : Bytes} {lo mid mid' hi : ℕ} {cs ds : List Cell}

theorem nil : Laid buf lo hi [] := ⟨by simp, by simp, List.Pairwise.nil⟩

theorem singleton {c : Cell} (hg : c.Good buf) (hlo : lo ≤ c.lo) (hhi : c.hi ≤ hi) :
    Laid buf lo hi [c] :=
  ⟨by simpa using hg, by simpa using ⟨hlo, hhi⟩, List.pairwise_singleton ..⟩

theorem mono (h : Laid buf mid mid' cs) (hlo : lo ≤ mid) (hhi : mid' ≤ hi) : Laid buf lo hi cs := by
  refine ⟨h.good, fun c hc => ?_, h.apart⟩
  obtain ⟨h1, h2⟩ := h.inside c hc
  exact ⟨hlo.trans h1, h2.trans hhi⟩

/- What lies one behind the other lies apart. -/
theorem append (h : Laid buf lo mid cs) (h' : Laid buf mid' hi ds) (hmid : mid ≤ mid')
    (hlo : lo ≤ mid') (hhi : mid ≤ hi) : Laid buf lo hi (cs ++ ds) := by
  refine ⟨?_, ?_, ?_⟩
  · rw [List.forall_mem_append]
    exact ⟨h.good, h'.good⟩
  · rw [List.forall_mem_append]
    exact ⟨(h.mono le_rfl hhi).inside, (h'.mono hlo le_rfl).inside⟩
  · rw [List.pairwise_append]
    refine ⟨h.apart, h'.apart, fun c hc d hd => .inl ?_⟩
    exact ((h.inside c hc).2.trans hmid).trans (h'.inside d hd).1

end Laid

/- The cell of a string that has just been decoded. -/
theorem literal_good (l : Literal) (pre post : Bytes) :
    (Cell.string (pre.length + 1) (pre.length + 1 + l.render.length)).Good
      (pre ++ l.flag :: (l.render ++ post)) := by
  refine ⟨by omega, by omega, ?_, ?_⟩
  · simp only [List.length_append, List.length_cons]
    omega
  · rw [Nat.add_sub_cancel, peek_head]
    cases h : l.escaped with
    | false => exact .inl (by simp [Literal.flag, h])
    | true =>
      refine .inr ⟨by simp [Literal.flag, h], l, ?_, h⟩
      have hsubstr := substr_between (pre ++ [l.flag]) l.render post
        (i := pre.length + 1) (j := pre.length + 1 + l.render.length) (by simp) (by simp)
      simpa using hsubstr

theorem Atom.laid (a : Atom) (pre post : Bytes) :
    Laid (pre ++ (a.imprint ++ post)) pre.length (pre.length + a.render.length)
      (a.place pre.length).cells := by
  cases a with
  | null => exact .nil
  | bool b =>
    cases b with
    | true => exact .nil
    | false => exact .nil
  | number n => exact .singleton trivial le_rfl le_rfl
  | string l =>
    refine .singleton ?_ ?_ ?_
    · have h := literal_good l pre (0 :: post)
      simpa [Atom.imprint] using h
    · simp [Cell.lo]
    · simp only [Cell.hi, Atom.render, List.length_cons, List.length_append]
      omega

namespace Phrase
open RValue

/- The cell of a key lies before the value. -/
theorem key_laid (buf : Bytes) (off : ℕ) (k : Padded Literal) (before : Ws) :
    Laid buf off (off + valueOffset k before)
      [.text (off + k.before.1.length + 1)
        (off + k.before.1.length + 1 + k.body.value.length)] := by
  have hle := k.body.value_length_le
  refine .singleton trivial ?_ ?_
  · simp only [Cell.lo]
    omega
  · simp only [Cell.hi, valueOffset]
    omega

mutual
theorem laid : ∀ (c : Phrase) (pre post : Bytes),
    Laid (pre ++ (c.imprint ++ post)) pre.length (pre.length + c.render.length)
      (c.place pre.length).cells
  | .atom a, pre, post => a.laid pre post
  | .list gap items, pre, post => by
    have hitems := laidItems items (pre ++ '['.toUInt8 :: gap.1) ([']'.toUInt8] ++ post)
    have hoff : (pre ++ '['.toUInt8 :: gap.1).length = pre.length + 1 + gap.1.length := by
      simp only [List.length_append, List.length_cons]
      omega
    rw [hoff] at hitems
    simp only [Phrase.place, RValue.ofList, cells, imprint, render]
    refine Laid.mono (by simpa using hitems) (by omega) ?_
    simp only [List.length_append, List.length_cons, List.length_nil]
    omega
  | .object gap members, pre, post => by
    have hmembers := laidMembers members (pre ++ 123 :: gap.1) ([125] ++ post)
    have hoff : (pre ++ 123 :: gap.1).length = pre.length + 1 + gap.1.length := by
      simp only [List.length_append, List.length_cons]
      omega
    rw [hoff] at hmembers
    simp only [Phrase.place, RValue.ofList, cells, imprint, render]
    refine Laid.mono (by simpa using hmembers) (by omega) ?_
    simp only [List.length_append, List.length_cons, List.length_nil]
    omega

theorem laidItems : ∀ (items : List Item) (pre post : Bytes),
    Laid (pre ++ (imprintItems items ++ post)) pre.length (pre.length + (renderItems items).length)
      (cellsItems (placeItems pre.length items))
  | [], _, _ => .nil
  | [⟨before, c, after⟩], pre, post => by
    have hc := laid c (pre ++ before.1) (after.1 ++ post)
    rw [List.length_append] at hc
    simp only [imprintItems, placeItems, cellsItems, renderItems, List.append_nil]
    refine Laid.mono (by simpa using hc) (by omega) ?_
    simp only [List.length_append]
    omega
  | ⟨before, c, after⟩ :: item :: items, pre, post => by
    have hc := laid c (pre ++ before.1)
      (after.1 ++ ','.toUInt8 :: (imprintItems (item :: items) ++ post))
    have hrest := laidItems (item :: items)
      (pre ++ before.1 ++ c.imprint ++ after.1 ++ [','.toUInt8]) post
    simp only [List.length_append, imprint_length, List.length_singleton] at hc hrest
    simp only [imprintItems, placeItems.eq_2, cellsItems.eq_2, renderItems]
    simp only [List.append_assoc, List.cons_append, List.nil_append] at hc hrest ⊢
    refine (hc.mono (Nat.le_add_right _ _) le_rfl).append (hrest.mono le_rfl ?_) ?_ ?_ ?_
    · simp only [List.length_append, List.length_cons]
      omega
    · omega
    · omega
    · simp only [List.length_append, List.length_cons]
      omega

theorem laidMembers : ∀ (members : List Member) (pre post : Bytes),
    Laid (pre ++ (imprintMembers members ++ post)) pre.length
      (pre.length + (renderMembers members).length) (cellsMembers (placeMembers pre.length members))
  | [], _, _ => .nil
  | [(k, ⟨before, c, after⟩)], pre, post => by
    have hc := laid c (pre ++ k.before.1 ++ Parser.keyImprint k.body k.after ++ before.1)
      (after.1 ++ post)
    rw [Parser.valueOffset_length] at hc
    simp only [imprintMembers, placeMembers, cellsMembers, renderMembers, List.append_nil,
      cells_setKey, Parser.keyImprint, List.append_assoc, List.cons_append,
      List.nil_append] at hc ⊢
    refine (key_laid _ pre.length k before).append (hc.mono le_rfl ?_) le_rfl
      (Nat.le_add_right _ _) ?_
    · simp only [List.length_append, List.length_cons, valueOffset]
      omega
    · simp only [List.length_append, List.length_cons, valueOffset]
      omega
  | (k, ⟨before, c, after⟩) :: member :: members, pre, post => by
    have hc := laid c (pre ++ k.before.1 ++ Parser.keyImprint k.body k.after ++ before.1)
      (after.1 ++ ','.toUInt8 :: (imprintMembers (member :: members) ++ post))
    have hrest := laidMembers (member :: members)
      (pre ++ k.before.1 ++ Parser.keyImprint k.body k.after ++ before.1 ++ c.imprint ++ after.1 ++
        [','.toUInt8]) post
    have hoff : (pre ++ k.before.1 ++ Parser.keyImprint k.body k.after ++ before.1 ++ c.imprint ++
        after.1 ++ [','.toUInt8]).length =
        pre.length + valueOffset k before + c.render.length + after.1.length + 1 := by
      rw [List.length_append, List.length_append, List.length_append, Parser.valueOffset_length,
        imprint_length, List.length_singleton]
    rw [Parser.valueOffset_length] at hc
    rw [hoff] at hrest
    simp only [imprintMembers, placeMembers.eq_2, cellsMembers.eq_2, renderMembers, cells_setKey,
      Parser.keyImprint, List.append_assoc, List.cons_append, List.nil_append] at hc hrest ⊢
    have hmember := (key_laid _ pre.length k before).append hc le_rfl (Nat.le_add_right _ _)
      (Nat.le_add_right _ _)
    refine hmember.append (hrest.mono le_rfl ?_) ?_ ?_ ?_
    · simp only [List.length_append, List.length_cons, valueOffset]
      omega
    · omega
    · omega
    · simp only [List.length_append, List.length_cons, valueOffset]
      omega
end

end Phrase

end TypegoSdk.Crow
