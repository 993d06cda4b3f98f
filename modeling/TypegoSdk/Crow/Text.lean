import TypegoSdk.Lib.Buffer

/-!
# String literals (include/crow/json.h)

`escape` writes a string, the loop of `decode_string` finds its end and checks
its escapes, and `unescape` turns the escapes back into bytes, in place, when
the string is first asked for. A literal is modelled as the list of its pieces,
so that what stands between the quotes is well formed by construction; the
three functions are related to it one by one.
-/

namespace TypegoSdk.Crow
open TypegoSdk.Lib

abbrev quote : UInt8 := 34
abbrev backslash : UInt8 := 92

/-- The bytes of a text. -/
def bytes (s : String) : Bytes := s.toList.map Char.toUInt8

/-! ### Writing -/

def toHex (c : UInt8) : UInt8 :=
  let c := c &&& 0xf
  if c < 10 then '0'.toUInt8 + c else 'a'.toUInt8 + c - 10

/- A byte above 0x7f is negative as a signed char, and not below 0x20 as an
unsigned one. -/
def escapeByte (c : UInt8) : Bytes :=
  if c = quote then [backslash, quote]
  else if c = backslash then [backslash, backslash]
  else if c = 10 then [backslash, 'n'.toUInt8]
  else if c = 8 then [backslash, 'b'.toUInt8]
  else if c = 12 then [backslash, 'f'.toUInt8]
  else if c = 13 then [backslash, 'r'.toUInt8]
  else if c = 9 then [backslash, 't'.toUInt8]
  else if c < 0x20 then
    [backslash, 'u'.toUInt8, '0'.toUInt8, '0'.toUInt8, toHex (c / 16), toHex (c % 16)]
  else [c]

def escape (str : Bytes) : Bytes := str.flatMap escapeByte

/-! ### Checking -/

def isPlain (c : UInt8) : Bool := c != quote && c != backslash && c != 0

/- `check` of `decode_string`: a hexadecimal digit. -/
def isHex (c : UInt8) : Bool :=
  ('0'.toUInt8 ≤ c && c ≤ '9'.toUInt8) || ('a'.toUInt8 ≤ c && c ≤ 'f'.toUInt8) ||
    ('A'.toUInt8 ≤ c && c ≤ 'F'.toUInt8)

/- The escapes of one letter that `decode_string` lets pass. -/
def isShort (e : UInt8) : Bool :=
  e == quote || e == backslash || e == '/'.toUInt8 || e == 'b'.toUInt8 || e == 'f'.toUInt8 ||
    e == 'n'.toUInt8 || e == 'r'.toUInt8 || e == 't'.toUInt8

/-- The loop of `decode_string` behind the opening quote: the number of bytes up
to the closing one, and `has_escaping`. `none` is the error value. -/
def scanString : Bytes → Option (ℕ × Bool)
  | [] => none
  | c :: rest =>
    if isPlain c then (scanString rest).map fun r => (r.1 + 1, r.2)
    else if c = quote then some (0, false)
    else if c = backslash then
      match rest with
      | [] => none
      | e :: rest =>
        if e = 'u'.toUInt8 then
          match rest with
          | a :: b :: c :: d :: rest =>
            if isHex a && isHex b && isHex c && isHex d then
              (scanString rest).map fun r => (r.1 + 6, true)
            else none
          | _ => none
        else if isShort e then (scanString rest).map fun r => (r.1 + 2, true)
        else none
    else none

/-! ### Reading -/

def fromHex (c : UInt8) : ℕ :=
  if 'a'.toUInt8 ≤ c then c.toNat - 97 + 10
  else if 'A'.toUInt8 ≤ c then c.toNat - 65 + 10
  else c.toNat - 48

/- The switch of `unescape` without its case 'u'. A letter that is not listed
writes nothing. -/
def shortByte (e : UInt8) : Option UInt8 :=
  if e = quote then some quote
  else if e = backslash then some backslash
  else if e = '/'.toUInt8 then some '/'.toUInt8
  else if e = 'b'.toUInt8 then some 8
  else if e = 'f'.toUInt8 then some 12
  else if e = 'n'.toUInt8 then some 10
  else if e = 'r'.toUInt8 then some 13
  else if e = 't'.toUInt8 then some 9
  else none

def hexCode (a b c d : UInt8) : ℕ :=
  fromHex a * 4096 + fromHex b * 256 + fromHex c * 16 + fromHex d

/- One to three bytes; a surrogate is written like any other code. -/
def utf8 (code : ℕ) : Bytes :=
  if 0x800 ≤ code then
    [UInt8.ofNat (0xE0 ||| code >>> 12), UInt8.ofNat (0x80 ||| (code >>> 6 &&& 0x3F)),
      UInt8.ofNat (0x80 ||| (code &&& 0x3F))]
  else if 0x80 ≤ code then
    [UInt8.ofNat (0xC0 ||| code >>> 6), UInt8.ofNat (0x80 ||| (code &&& 0x3F))]
  else [UInt8.ofNat code]

/-- The loop of `unescape`, which reads at `head` and writes at `tail` of the same
buffer until `head` is `stop`. `none` says that it would run on behind `stop`. -/
def unescapeLoop (stop : ℕ) : ℕ → Bytes → ℕ → ℕ → Option (Bytes × ℕ)
  | 0, _, _, _ => none
  | fuel + 1, buf, head, tail =>
    if head = stop then some (buf, tail)
    else if peek buf head = backslash then
      let e := peek buf (head + 1)
      if e = 'u'.toUInt8 then
        let out := utf8 (hexCode (peek buf (head + 2)) (peek buf (head + 3)) (peek buf (head + 4))
          (peek buf (head + 5)))
        unescapeLoop stop fuel (writeAt buf tail out) (head + 6) (tail + out.length)
      else
        let out := (shortByte e).toList
        unescapeLoop stop fuel (writeAt buf tail out) (head + 2) (tail + out.length)
    else unescapeLoop stop fuel (buf.set tail (peek buf head)) (head + 1) (tail + 1)

/-- `unescape` on the string between `start` and `stop`: the buffer and the new
end. The byte before the string says whether there is anything to do. -/
def unescape (buf : Bytes) (start stop : ℕ) : Option (Bytes × ℕ) :=
  if peek buf (start - 1) ≠ 0 then
    (unescapeLoop stop (stop - start + 1) buf start start).map fun r =>
      ((r.1.set r.2 0).set (start - 1) 0, r.2)
  else some (buf, stop)

/-! ### Pieces of a literal -/

inductive Piece where
  | plain (c : UInt8) (h : isPlain c = true)
  | short (e : UInt8) (h : isShort e = true)
  | unicode (a b c d : UInt8) (h : (isHex a && isHex b && isHex c && isHex d) = true)

/-- What stands between the quotes of a literal. -/
abbrev Literal := List Piece

namespace Piece

def render : Piece → Bytes
  | plain c _ => [c]
  | short e _ => [backslash, e]
  | unicode a b c d _ => [backslash, 'u'.toUInt8, a, b, c, d]

def value : Piece → Bytes
  | plain c _ => [c]
  | short e _ => (shortByte e).toList
  | unicode a b c d _ => utf8 (hexCode a b c d)

def escaped : Piece → Bool
  | plain _ _ => false
  | short _ _ => true
  | unicode _ _ _ _ _ => true

end Piece

namespace Literal

def render (l : Literal) : Bytes := l.flatMap Piece.render
def value (l : Literal) : Bytes := l.flatMap Piece.value
def escaped (l : Literal) : Bool := l.any Piece.escaped

@[simp] theorem render_nil : render [] = [] := rfl
@[simp] theorem value_nil : value [] = [] := rfl
@[simp] theorem escaped_nil : escaped [] = false := rfl
@[simp] theorem render_cons (p : Piece) (l : Literal) : render (p :: l) = p.render ++ render l := rfl
@[simp] theorem value_cons (p : Piece) (l : Literal) : value (p :: l) = p.value ++ value l := rfl
@[simp] theorem escaped_cons (p : Piece) (l : Literal) :
    escaped (p :: l) = (p.escaped || escaped l) := rfl

end Literal

/-! ### Lengths -/

theorem backslash_ne_quote : backslash ≠ quote := by decide

theorem isPlain_iff {c : UInt8} : isPlain c = true ↔ c ≠ quote ∧ c ≠ backslash ∧ c ≠ 0 := by
  simp [isPlain, and_assoc]

theorem ne_u_of_isShort {e : UInt8} (h : isShort e = true) : e ≠ 'u'.toUInt8 := by
  intro he
  subst he
  exact absurd h (by decide)

theorem utf8_length_le (code : ℕ) : (utf8 code).length ≤ 3 := by
  rw [utf8]
  split
  · simp
  · split
    · simp
    · simp

theorem toList_length_le (o : Option UInt8) : o.toList.length ≤ 1 := by
  cases o with
  | none => simp
  | some v => simp

theorem Piece.value_length_le (p : Piece) : p.value.length ≤ p.render.length := by
  cases p with
  | plain c h => exact le_rfl
  | short e h =>
    have hle := toList_length_le (shortByte e)
    simp only [Piece.value, Piece.render, List.length_cons, List.length_nil]
    omega
  | unicode a b c d h =>
    have hle := utf8_length_le (hexCode a b c d)
    simp only [Piece.value, Piece.render, List.length_cons, List.length_nil]
    omega

/- An escape leaves room. -/
theorem Piece.value_length_lt {p : Piece} (hp : p.escaped = true) :
    p.value.length < p.render.length := by
  cases p with
  | plain c h => simp [Piece.escaped] at hp
  | short e h =>
    have hle := toList_length_le (shortByte e)
    simp only [Piece.value, Piece.render, List.length_cons, List.length_nil]
    omega
  | unicode a b c d h =>
    have hle := utf8_length_le (hexCode a b c d)
    simp only [Piece.value, Piece.render, List.length_cons, List.length_nil]
    omega

theorem Piece.render_length_pos (p : Piece) : 0 < p.render.length := by
  cases p with
  | plain c h => simp [Piece.render]
  | short e h => simp [Piece.render]
  | unicode a b c d h => simp [Piece.render]

namespace Literal

theorem value_length_le (l : Literal) : (value l).length ≤ (render l).length := by
  induction l with
  | nil => exact le_rfl
  | cons p l ih =>
    have hp := p.value_length_le
    simp only [render_cons, value_cons, List.length_append]
    omega

theorem value_length_lt {l : Literal} (h : escaped l = true) :
    (value l).length < (render l).length := by
  induction l with
  | nil => simp at h
  | cons p l ih =>
    have hp := p.value_length_le
    have hl := value_length_le l
    simp only [render_cons, value_cons, List.length_append]
    simp only [escaped_cons, Bool.or_eq_true] at h
    cases h with
    | inl hesc =>
      have hlt := Piece.value_length_lt hesc
      omega
    | inr hesc =>
      have hlt := ih hesc
      omega

theorem length_le (l : Literal) : l.length ≤ (render l).length := by
  induction l with
  | nil => exact le_rfl
  | cons p l ih =>
    have hp := p.render_length_pos
    rw [render_cons, List.length_append, List.length_cons]
    omega

theorem value_of_not_escaped {l : Literal} (h : escaped l = false) : value l = render l := by
  induction l with
  | nil => rfl
  | cons p l ih =>
    simp only [escaped_cons, Bool.or_eq_false_iff] at h
    cases p with
    | plain c hc => rw [render_cons, value_cons, ih h.2]; rfl
    | short e he => simp [Piece.escaped] at h
    | unicode a b c d hh => simp [Piece.escaped] at h

end Literal

/-! ### The scan finds the end of a literal -/

theorem scanString_plain {c : UInt8} (h : isPlain c = true) (rest : Bytes) :
    scanString (c :: rest) = (scanString rest).map fun r => (r.1 + 1, r.2) := by
  rw [scanString.eq_def]
  simp only [h, if_true]

theorem scanString_quote (rest : Bytes) : scanString (quote :: rest) = some (0, false) := by
  rw [scanString.eq_def]
  rfl

theorem scanString_piece (p : Piece) (rest : Bytes) :
    scanString (p.render ++ rest) =
      (scanString rest).map fun r => (p.render.length + r.1, p.escaped || r.2) := by
  cases p with
  | plain c h =>
    rw [Piece.render, List.singleton_append, scanString_plain h]
    simp [Piece.escaped, Nat.add_comm]
  | short e h =>
    have hu := ne_u_of_isShort h
    rw [Piece.render, scanString.eq_def]
    simp [isPlain, backslash_ne_quote, hu, h, Piece.escaped, Nat.add_comm]
  | unicode a b c d h =>
    rw [Piece.render, scanString.eq_def]
    simp only [List.cons_append, List.nil_append, h]
    simp [isPlain, backslash_ne_quote, Piece.escaped, Nat.add_comm]

theorem scanString_render (l : Literal) (rest : Bytes) :
    scanString (l.render ++ quote :: rest) = some (l.render.length, l.escaped) := by
  induction l with
  | nil => exact scanString_quote rest
  | cons p l ih =>
    rw [Literal.render_cons, List.append_assoc, scanString_piece, ih]
    simp

/- What the loop passes over is a literal. -/
theorem scanString_sound {text : Bytes} {n : ℕ} {esc : Bool} (h : scanString text = some (n, esc)) :
    ∃ (l : Literal) (rest : Bytes), text = l.render ++ quote :: rest := by
  fun_induction scanString text generalizing n esc with
  | case1 => simp at h
  | case2 c rest hc ih =>
    rw [Option.map_eq_some_iff] at h
    obtain ⟨r, hr, -⟩ := h
    obtain ⟨l, tail, rfl⟩ := ih hr
    exact ⟨.plain c hc :: l, tail, rfl⟩
  | case3 rest hc => exact ⟨[], rest, rfl⟩
  | case4 => simp at h
  | case5 a b c d rest hhex _ _ ih =>
    rw [Option.map_eq_some_iff] at h
    obtain ⟨r, hr, -⟩ := h
    obtain ⟨l, tail, rfl⟩ := ih hr
    exact ⟨.unicode a b c d hhex :: l, tail, rfl⟩
  | case6 => simp at h
  | case7 => simp at h
  | case8 e rest hu hshort hc hq ih =>
    rw [Option.map_eq_some_iff] at h
    obtain ⟨r, hr, -⟩ := h
    obtain ⟨l, tail, rfl⟩ := ih hr
    exact ⟨.short e hshort :: l, tail, rfl⟩
  | case9 => simp at h
  | case10 => simp at h

/-! ### Unescaping in place -/

/- One round reads a piece at `head` and writes its value at `tail`. -/
theorem unescapeLoop_piece (p : Piece) (before post : Bytes) (fuel : ℕ) {stop : ℕ} (tail : ℕ)
    (hstop : before.length ≠ stop) :
    unescapeLoop stop (fuel + 1) (before ++ p.render ++ post) before.length tail =
      unescapeLoop stop fuel (writeAt (before ++ p.render ++ post) tail p.value)
        (before.length + p.render.length) (tail + p.value.length) := by
  rw [unescapeLoop, if_neg hstop]
  have hread : ∀ k, peek (before ++ p.render ++ post) (before.length + k) =
      peek (p.render ++ post) k := by
    intro k
    rw [List.append_assoc, peek_append]
  have hhead := hread 0
  rw [Nat.add_zero] at hhead
  rw [hhead]
  simp only [hread]
  cases p with
  | plain c h =>
    have hc := isPlain_iff.mp h
    exact if_neg hc.2.1
  | short e h => exact (if_pos rfl).trans (if_neg (ne_u_of_isShort h))
  | unicode a b c d h => exact (if_pos rfl).trans (if_pos rfl)

/- `gap` is what is left of the pieces already read. -/
theorem unescapeLoop_render (l : Literal) (done gap post : Bytes) (fuel stop head : ℕ)
    (hfuel : l.length < fuel) (hhead : head = done.length + gap.length)
    (hstop : stop = head + l.render.length) :
    unescapeLoop stop fuel (done ++ gap ++ l.render ++ post) head done.length =
      some (done ++ l.value ++ (gap ++ l.render).drop l.value.length ++ post,
        done.length + l.value.length) := by
  induction l generalizing done gap fuel head with
  | nil =>
    obtain ⟨fuel, rfl⟩ := Nat.exists_eq_succ_of_ne_zero (Nat.ne_of_gt hfuel)
    rw [unescapeLoop, if_pos (by simpa using hstop.symm)]
    simp
  | cons p l ih =>
    obtain ⟨fuel, rfl⟩ := Nat.exists_eq_succ_of_ne_zero (Nat.ne_of_gt (Nat.zero_lt_of_lt hfuel))
    have hpos := p.render_length_pos
    have hle := p.value_length_le
    have hover : p.value.length ≤ (gap ++ p.render).length := by
      rw [List.length_append]
      omega
    have hstart : (done ++ gap).length = head := by rw [List.length_append, hhead]
    have hne : (done ++ gap).length ≠ stop := by
      rw [hstart, hstop, Literal.render_cons, List.length_append]
      omega
    have hround := unescapeLoop_piece p (done ++ gap) (Literal.render l ++ post) fuel done.length hne
    have hwrite := writeAt_append done (gap ++ p.render) (Literal.render l ++ post) p.value hover
    have hrest := ih (done ++ p.value) ((gap ++ p.render).drop p.value.length) fuel (head + p.render.length)
      (Nat.lt_of_succ_lt_succ hfuel)
      (by simp only [List.length_append, List.length_drop, hhead]; omega)
      (by rw [hstop, Literal.render_cons, List.length_append, Nat.add_assoc])
    have hdrop : (gap ++ (p.render ++ Literal.render l)).drop
          (p.value.length + (Literal.value l).length) =
        ((gap ++ p.render).drop p.value.length ++ Literal.render l).drop
          (Literal.value l).length := by
      rw [← List.drop_append_of_le_length hover, List.drop_drop, List.append_assoc]
    rw [Literal.render_cons, Literal.value_cons, List.length_append, hdrop]
    simp only [List.append_assoc, hstart, List.length_append] at hround hwrite hrest ⊢
    rw [hround, hwrite, hrest, Nat.add_assoc]

/-- The byte before a string that has been decoded, and not yet asked for. -/
def Literal.flag (l : Literal) : UInt8 := if l.escaped then 1 else 0

/-- The bytes of a literal once it has been asked for: its value, a zero, and what
is left of the escapes. -/
def Literal.settled (l : Literal) : Bytes :=
  if l.escaped then l.value ++ 0 :: l.render.drop (l.value.length + 1) else l.render

theorem Literal.settled_length (l : Literal) : l.settled.length = l.render.length := by
  rw [settled]
  split
  · next h =>
    have hlt := value_length_lt h
    simp only [List.length_append, List.length_cons, List.length_drop]
    omega
  · rfl

/- The value stands at the front. -/
theorem Literal.settled_eq (l : Literal) :
    l.settled = l.value ++ l.settled.drop l.value.length := by
  rw [settled]
  split
  · simp
  · next h =>
    rw [value_of_not_escaped (by simpa using h), List.drop_length, List.append_nil]

theorem unescape_literal (l : Literal) (pre post : Bytes) :
    unescape (pre ++ l.flag :: (l.render ++ post)) (pre.length + 1)
        (pre.length + 1 + l.render.length) =
      some (pre ++ 0 :: (l.settled ++ post), pre.length + 1 + l.value.length) := by
  rw [unescape, Nat.add_sub_cancel, peek_head]
  cases h : l.escaped with
  | false =>
    have hflag : l.flag = 0 := by simp [Literal.flag, h]
    rw [hflag, if_neg (by simp), Literal.settled, h, Literal.value_of_not_escaped h]
    rfl
  | true =>
    have hflag : l.flag = 1 := by simp [Literal.flag, h]
    have hlt := Literal.value_length_lt h
    have hlen := l.length_le
    have hloop := unescapeLoop_render l (pre ++ [l.flag]) [] post
      (pre.length + 1 + l.render.length - (pre.length + 1) + 1)
      (pre.length + 1 + l.render.length) (pre.length + 1) (by omega) (by simp) rfl
    have hcons : l.render.drop l.value.length =
        l.render[l.value.length] :: l.render.drop (l.value.length + 1) :=
      List.drop_eq_getElem_cons hlt
    simp only [List.append_assoc, List.nil_append, List.length_append, List.length_singleton,
      List.cons_append, hcons] at hloop
    have hend : ∀ v, (pre ++ l.flag :: (l.value ++ l.render[l.value.length] ::
        (l.render.drop (l.value.length + 1) ++ post))).set (pre.length + 1 + l.value.length) v =
        pre ++ l.flag :: (l.value ++ v :: (l.render.drop (l.value.length + 1) ++ post)) := by
      intro v
      have hset := set_head (pre ++ l.flag :: l.value) (l.render.drop (l.value.length + 1) ++ post)
        l.render[l.value.length] v
      have hat : (pre ++ l.flag :: l.value).length = pre.length + 1 + l.value.length := by
        simp only [List.length_append, List.length_cons]
        omega
      rw [hat] at hset
      simpa using hset
    rw [if_pos (by rw [hflag]; decide), hloop, Option.map_some, hend, set_head, Literal.settled, h]
    simp

/-! ### What an escaped text stands for -/

/-- The bytes that `unescape` would write for a text that has been checked. -/
def unescapeText : Bytes → Bytes
  | [] => []
  | c :: rest =>
    if c = backslash then
      match rest with
      | [] => []
      | e :: rest =>
        if e = 'u'.toUInt8 then
          match rest with
          | a :: b :: c :: d :: rest => utf8 (hexCode a b c d) ++ unescapeText rest
          | _ => []
        else (shortByte e).toList ++ unescapeText rest
    else c :: unescapeText rest

theorem unescapeText_piece (p : Piece) (rest : Bytes) :
    unescapeText (p.render ++ rest) = p.value ++ unescapeText rest := by
  cases p with
  | plain c h =>
    rw [Piece.render, List.singleton_append, unescapeText.eq_def]
    exact if_neg (isPlain_iff.mp h).2.1
  | short e h =>
    rw [Piece.render, List.cons_append, unescapeText.eq_def]
    exact if_neg (ne_u_of_isShort h)
  | unicode a b c d h =>
    rw [Piece.render, List.cons_append, unescapeText.eq_def]
    rfl

theorem unescapeText_render (l : Literal) : unescapeText l.render = l.value := by
  induction l with
  | nil => rfl
  | cons p l ih => rw [Literal.render_cons, unescapeText_piece, ih, Literal.value_cons]

/-! ### Every byte string can be written -/

theorem hex_escape (n : Fin 32) :
    (isHex '0'.toUInt8 && isHex '0'.toUInt8 && isHex (toHex (UInt8.ofNat n / 16)) &&
        isHex (toHex (UInt8.ofNat n % 16))) = true ∧
      utf8 (hexCode '0'.toUInt8 '0'.toUInt8 (toHex (UInt8.ofNat n / 16))
        (toHex (UInt8.ofNat n % 16))) = [UInt8.ofNat n] := by
  revert n
  decide

theorem escapeByte_piece (c : UInt8) :
    ∃ p : Piece, p.render = escapeByte c ∧ p.value = [c] := by
  rw [escapeByte]
  split_ifs with h1 h2 h3 h4 h5 h6 h7 h8
  · exact ⟨.short quote (by decide), rfl, by rw [h1]; decide⟩
  · exact ⟨.short backslash (by decide), rfl, by rw [h2]; decide⟩
  · exact ⟨.short 'n'.toUInt8 (by decide), rfl, by rw [h3]; decide⟩
  · exact ⟨.short 'b'.toUInt8 (by decide), rfl, by rw [h4]; decide⟩
  · exact ⟨.short 'f'.toUInt8 (by decide), rfl, by rw [h5]; decide⟩
  · exact ⟨.short 'r'.toUInt8 (by decide), rfl, by rw [h6]; decide⟩
  · exact ⟨.short 't'.toUInt8 (by decide), rfl, by rw [h7]; decide⟩
  · have hc : c.toNat < 32 := h8
    have hof : UInt8.ofNat c.toNat = c := UInt8.ofNat_toNat
    obtain ⟨hhex, hval⟩ := hex_escape ⟨c.toNat, hc⟩
    simp only [hof] at hhex hval
    exact ⟨.unicode _ _ _ _ hhex, rfl, hval⟩
  · have hzero : c ≠ 0 := by
      intro hc
      subst hc
      exact h8 (by decide)
    exact ⟨.plain c (isPlain_iff.mpr ⟨h1, h2, hzero⟩), rfl, rfl⟩

/-- What `escape` writes is a literal, and its value is the string. -/
theorem escape_literal (str : Bytes) : ∃ l : Literal, l.render = escape str ∧ l.value = str := by
  induction str with
  | nil => exact ⟨[], rfl, rfl⟩
  | cons c str ih =>
    obtain ⟨p, hp, hpv⟩ := escapeByte_piece c
    obtain ⟨l, hl, hlv⟩ := ih
    refine ⟨p :: l, ?_, ?_⟩
    · rw [Literal.render_cons, hp, hl]
      rfl
    · rw [Literal.value_cons, hpv, hlv, List.singleton_append]

end TypegoSdk.Crow
