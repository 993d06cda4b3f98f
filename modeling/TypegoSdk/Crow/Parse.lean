import TypegoSdk.Crow.Phrase

/-!
# What the parser makes of a phrase

The parser stands between the bytes it has passed and the text ahead of it. It
writes only into the first, so each function of the parser is described by the
text it takes off the front of the second, and by what it leaves behind.
-/

namespace TypegoSdk.Crow
open TypegoSdk.Lib

namespace Parser

def between (pre text : Bytes) : Parser := ⟨pre ++ text, pre.length⟩

@[simp] theorem between_cur (pre text : Bytes) : (between pre text).cur = text.headD 0 := by
  have h := peek_append pre text 0
  rw [Nat.add_zero, peek_zero] at h
  exact h

@[simp] theorem between_ahead (pre text : Bytes) : (between pre text).ahead = text :=
  List.drop_left

theorem between_advance (pre a rest : Bytes) :
    (between pre (a ++ rest)).advance a.length = between (pre ++ a) rest := by
  simp [between, advance]

@[simp] theorem between_advance_one (pre rest : Bytes) (c : UInt8) :
    (between pre (c :: rest)).advance 1 = between (pre ++ [c]) rest :=
  between_advance pre [c] rest

/-! ### White space -/

theorem wsSkip_append {w : Bytes} (hw : w.all isWs = true) (pre rest : Bytes) :
    (between pre (w ++ rest)).wsSkip = (between (pre ++ w) rest).wsSkip := by
  have htake : (w ++ rest).takeWhile isWs = w ++ rest.takeWhile isWs :=
    List.takeWhile_append_of_pos (List.all_eq_true.mp hw)
  rw [wsSkip, wsSkip, between_ahead, between_ahead, htake]
  simp [advance, between, Nat.add_assoc]

theorem wsSkip_stop {rest : Bytes} (h : isWs (rest.headD 0) = false) (pre : Bytes) :
    (between pre rest).wsSkip = between pre rest := by
  have htake : rest.takeWhile isWs = [] := by
    cases rest with
    | nil => rfl
    | cons c rest => rw [List.takeWhile_cons_of_neg (by simpa using h)]
  rw [wsSkip, between_ahead, htake]
  rfl

theorem wsSkip_to (w : Ws) (rest : Bytes) (h : isWs (rest.headD 0) = false) (pre : Bytes) :
    (between pre (w.1 ++ rest)).wsSkip = between (pre ++ w.1) rest := by
  rw [wsSkip_append w.2, wsSkip_stop h]

/- Some white space is skipped, up to something else. -/
theorem wsSkip_split (text : Bytes) :
    ∃ (w : Ws) (rest : Bytes), text = w.1 ++ rest ∧ isWs (rest.headD 0) = false ∧
      ∀ pre, (between pre text).wsSkip = between (pre ++ w.1) rest := by
  have hw : (text.takeWhile isWs).all isWs = true := List.all_takeWhile
  have hrest : isWs ((text.dropWhile isWs).headD 0) = false := by
    cases hd : text.dropWhile isWs with
    | nil => decide
    | cons c rest =>
      have hne : text.dropWhile isWs ≠ [] := by simp [hd]
      have hc := List.head_dropWhile_not isWs hne
      simp only [hd, List.head_cons] at hc
      exact hc
  refine ⟨⟨_, hw⟩, text.dropWhile isWs, List.takeWhile_append_dropWhile.symm, hrest, ?_⟩
  intro pre
  have hto := wsSkip_to ⟨_, hw⟩ _ hrest pre
  rwa [List.takeWhile_append_dropWhile] at hto

/- White space, or a byte of no class, does not go on with a number. -/
theorem kind_ws {c : UInt8} (h : isWs c = true) : kind c = .other := by
  simp only [isWs, Bool.or_eq_true, beq_iff_eq] at h
  rcases h with ((rfl | rfl) | rfl) | rfl <;> decide

theorem kind_after_ws (w : Ws) {rest : Bytes} (h : kind (rest.headD 0) = .other) :
    kind ((w.1 ++ rest).headD 0) = .other := by
  obtain ⟨w, hw⟩ := w
  cases w with
  | nil => exact h
  | cons c w =>
    simp only [List.all_cons, Bool.and_eq_true] at hw
    exact kind_ws hw.1

/-! ### Leaves -/

theorem decodeString_render (l : Literal) (pre rest : Bytes) :
    (between pre (quote :: (l.render ++ quote :: rest))).decodeString =
      .ok (.ofText .string (pre.length + 1) (pre.length + 1 + l.render.length),
        between (pre ++ l.flag :: (l.render ++ [0])) rest) := by
  have hscan : scanString ((pre ++ quote :: (l.render ++ quote :: rest)).drop (pre.length + 1)) =
      some (l.render.length, l.escaped) := by
    rw [List.drop_length_add_append, List.drop_succ_cons, List.drop_zero, scanString_render]
  have hclose : (pre ++ quote :: (l.render ++ quote :: rest)).set
      (pre.length + 1 + l.render.length) 0 = pre ++ quote :: (l.render ++ 0 :: rest) := by
    have hset := set_head (pre ++ quote :: l.render) rest quote 0
    have hat : (pre ++ quote :: l.render).length = pre.length + 1 + l.render.length := by
      simp only [List.length_append, List.length_cons]
      omega
    rw [hat] at hset
    simpa using hset
  have hcur : ¬(between pre (quote :: (l.render ++ quote :: rest))).cur ≠ quote := by simp
  rw [decodeString, if_neg hcur]
  simp only [between, hscan, hclose, Nat.add_sub_cancel, set_head, Literal.flag]
  simp [Nat.add_assoc, Nat.add_comm, Nat.add_left_comm]

theorem decodeString_sound {pre text : Bytes} {r : RValue × Parser}
    (h : (between pre text).decodeString = .ok r) :
    ∃ (l : Literal) (rest : Bytes), text = quote :: (l.render ++ quote :: rest) := by
  rw [decodeString] at h
  split at h
  · simp at h
  · next hcur =>
    rw [not_not, between_cur] at hcur
    cases text with
    | nil => exact absurd hcur (by decide)
    | cons c text =>
      rw [List.headD_cons] at hcur
      subst hcur
      have hdrop : (between pre (quote :: text)).buf.drop ((between pre (quote :: text)).data + 1) =
          text := by
        simp [between]
      simp only [hdrop] at h
      cases hs : scanString text with
      | none => simp [hs] at h
      | some s =>
        obtain ⟨l, rest, rfl⟩ := scanString_sound hs
        exact ⟨l, rest, rfl⟩

theorem decodeNumber_render (n : Numeral) (pre : Bytes) {rest : Bytes}
    (h : kind (rest.headD 0) = .other) :
    (between pre (n.render ++ rest)).decodeNumber =
      .ok (.ofText .number pre.length (pre.length + n.render.length),
        between (pre ++ n.render) rest) := by
  rw [decodeNumber, between_ahead, numberLoop_render n h]
  simp only [between_advance]
  rfl

theorem decodeWord_render (word pre rest : Bytes) (t : JType) :
    (between pre (word ++ rest)).decodeWord word t =
      .ok (.ofType t, between (pre ++ word) rest) := by
  have hpre : word.isPrefixOf (word ++ rest) = true := by
    rw [ List.isPrefixOf_iff_prefix]
    exact List.prefix_append _ _
  rw [decodeWord, between_ahead, if_pos hpre, between_advance]

theorem Numeral.render_head (n : Numeral) :
    ∃ b rest, n.render = b :: rest ∧ (isDigit b = true ∨ b = '-'.toUInt8) := by
  obtain ⟨negative, u⟩ := n
  cases negative with
  | true => exact ⟨_, _, rfl, .inr rfl⟩
  | false =>
    have hd := u.render_head
    cases hu : u.render with
    | nil => exact absurd hd (by rw [hu]; decide)
    | cons b rest =>
      rw [hu, List.headD_cons] at hd
      exact ⟨b, rest, hu, .inl hd⟩

/- A digit or a sign takes the default case of the switch. -/
theorem decodeValue_number {p : Parser} (h : isDigit p.cur = true ∨ p.cur = '-'.toUInt8)
    (fuel depth : ℕ) : decodeValue (fuel + 1) depth p = p.decodeNumber := by
  have hne : ∀ c, isDigit c = false → c ≠ '-'.toUInt8 → p.cur ≠ c := by
    rintro c hc hm rfl
    rcases h with h | h
    · rw [hc] at h
      exact absurd h (by simp)
    · exact hm h
  rw [decodeValue, if_neg (hne _ (by decide) (by decide)), if_neg (hne _ (by decide) (by decide)),
    if_neg (hne _ (by decide) (by decide)), if_neg (hne _ (by decide) (by decide)),
    if_neg (hne _ (by decide) (by decide)), if_neg (hne _ (by decide) (by decide))]

theorem decodeValue_atom (a : Atom) (pre : Bytes) {rest : Bytes} (h : a.Stops rest)
    (fuel depth : ℕ) :
    decodeValue (fuel + 1) depth (between pre (a.render ++ rest)) =
      .ok (a.place pre.length, between (pre ++ a.imprint) rest) := by
  cases a with
  | null =>
    have hcur : (between pre (Atom.null.render ++ rest)).cur = 'n'.toUInt8 := by
      rw [between_cur]
      rfl
    rw [decodeValue, hcur]
    exact decodeWord_render (bytes "null") pre rest .null
  | bool b =>
    cases b with
    | true =>
      have hcur : (between pre ((Atom.bool true).render ++ rest)).cur = 't'.toUInt8 := by
        rw [between_cur]
        rfl
      rw [decodeValue, hcur]
      exact decodeWord_render (bytes "true") pre rest .true
    | false =>
      have hcur : (between pre ((Atom.bool false).render ++ rest)).cur = 'f'.toUInt8 := by
        rw [between_cur]
        rfl
      rw [decodeValue, hcur]
      exact decodeWord_render (bytes "false") pre rest .false
  | number n =>
    obtain ⟨b, tail, hb, hhead⟩ := Numeral.render_head n
    have hcur : (between pre (n.render ++ rest)).cur = b := by rw [between_cur, hb]; rfl
    rw [Atom.render, decodeValue_number (by rw [hcur]; exact hhead)]
    exact decodeNumber_render n pre h
  | string l =>
    have hcur : (between pre (quote :: (l.render ++ quote :: rest))).cur = quote := by simp
    have hs := decodeString_render l pre rest
    rw [Atom.render, List.cons_append, List.append_assoc, List.singleton_append, decodeValue,
      if_neg (by rw [hcur]; decide), if_neg (by rw [hcur]; decide), if_pos hcur]
    exact hs

/-! ### The loops -/

section Loops
variable {decode : Parser → Except Fault (RValue × Parser)} {p : Parser} {v : RValue}
  {pre rest : Bytes} {w : Ws} {k : ℕ} {l : List RValue}

theorem listLoop_last (h : decode p = .ok (v, between pre (w.1 ++ ']'.toUInt8 :: rest))) :
    listLoop decode (k + 1) l p = .ok (l ++ [v], between (pre ++ w.1 ++ [']'.toUInt8]) rest) := by
  have hskip := wsSkip_to w (']'.toUInt8 :: rest) rfl pre
  rw [listLoop, h]
  simp only [hskip, between_cur, List.headD_cons, between_advance_one, if_true]

theorem listLoop_more (h : decode p = .ok (v, between pre (w.1 ++ ','.toUInt8 :: rest))) :
    listLoop decode (k + 1) l p =
      listLoop decode k (l ++ [v]) (between (pre ++ w.1 ++ [','.toUInt8]) rest).wsSkip := by
  have hskip := wsSkip_to w (','.toUInt8 :: rest) rfl pre
  have hne : ','.toUInt8 ≠ ']'.toUInt8 := by decide
  rw [listLoop, h]
  simp only [hskip, between_cur, List.headD_cons, between_advance_one, if_neg hne, ne_eq,
    not_true_eq_false, if_false]

/- What a key leaves behind, with the colon. -/
def keyImprint (lit : Literal) (w : Ws) : Bytes :=
  0 :: (lit.settled ++ 0 :: (w.1 ++ [':'.toUInt8]))

/- The key is decoded, its colon consumed, and the key unescaped behind the parser. -/
theorem objectLoop_key (lit : Literal) (text : Bytes) :
    objectLoop decode (k + 1) l
        (between pre (quote :: (lit.render ++ quote :: (w.1 ++ ':'.toUInt8 :: text)))) =
      match decode (between (pre ++ keyImprint lit w) text).wsSkip with
      | .error e => .error e
      | .ok (v, p) =>
        let p := p.wsSkip
        let l := l ++ [{ v with key := ⟨pre.length + 1, pre.length + 1 + lit.value.length⟩ }]
        if p.cur = 125 then .ok (l, p.advance 1)
        else if p.cur ≠ ','.toUInt8 then .error .error
        else objectLoop decode k l (p.advance 1).wsSkip := by
  have hskip := wsSkip_to w (':'.toUInt8 :: text) rfl (pre ++ lit.flag :: (lit.render ++ [0]))
  have hunescape := unescape_literal lit pre (0 :: (w.1 ++ ':'.toUInt8 :: text))
  have hbuf : (between (pre ++ lit.flag :: (lit.render ++ [0]) ++ w.1 ++ [':'.toUInt8]) text).buf =
      pre ++ lit.flag :: (lit.render ++ 0 :: (w.1 ++ ':'.toUInt8 :: text)) := by
    simp [between]
  have hstate : ∀ p : Parser,
      p = between (pre ++ lit.flag :: (lit.render ++ [0]) ++ w.1 ++ [':'.toUInt8]) text →
      ({ p with buf := pre ++ 0 :: (lit.settled ++ 0 :: (w.1 ++ ':'.toUInt8 :: text)) } : Parser) =
        between (pre ++ keyImprint lit w) text := by
    rintro p rfl
    simp only [between, keyImprint, List.append_assoc, List.cons_append, List.nil_append,
      List.length_append, List.length_cons, List.length_nil, Literal.settled_length]
  rw [objectLoop, decodeString_render]
  simp only [hskip, between_cur, List.headD_cons, between_advance_one, ne_eq, not_true_eq_false,
    if_false, RValue.ofText]
  rw [hbuf, hunescape]
  exact (hstate _ rfl).symm ▸ rfl

theorem objectLoop_last {lit : Literal} {text pre' : Bytes} {w' : Ws}
    (h : decode (between (pre ++ keyImprint lit w) text).wsSkip =
      .ok (v, between pre' (w'.1 ++ 125 :: rest))) :
    objectLoop decode (k + 1) l
        (between pre (quote :: (lit.render ++ quote :: (w.1 ++ ':'.toUInt8 :: text)))) =
      .ok (l ++ [{ v with key := ⟨pre.length + 1, pre.length + 1 + lit.value.length⟩ }],
        between (pre' ++ w'.1 ++ [125]) rest) := by
  have hskip := wsSkip_to w' (125 :: rest) rfl pre'
  rw [objectLoop_key, h]
  simp only [hskip, between_cur, List.headD_cons, between_advance_one, if_true]

theorem objectLoop_more {lit : Literal} {text pre' : Bytes} {w' : Ws}
    (h : decode (between (pre ++ keyImprint lit w) text).wsSkip =
      .ok (v, between pre' (w'.1 ++ ','.toUInt8 :: rest))) :
    objectLoop decode (k + 1) l
        (between pre (quote :: (lit.render ++ quote :: (w.1 ++ ':'.toUInt8 :: text)))) =
      objectLoop decode k
        (l ++ [{ v with key := ⟨pre.length + 1, pre.length + 1 + lit.value.length⟩ }])
        (between (pre' ++ w'.1 ++ [','.toUInt8]) rest).wsSkip := by
  have hskip := wsSkip_to w' (','.toUInt8 :: rest) rfl pre'
  have hne : ','.toUInt8 ≠ 125 := by decide
  rw [objectLoop_key, h]
  simp only [hskip, between_cur, List.headD_cons, between_advance_one, if_neg hne, ne_eq,
    not_true_eq_false, if_false]

end Loops

/-! ### Phrases -/

theorem isWs_of_isFirst {b : UInt8} (h : Phrase.isFirst b = true) : isWs b = false := by
  simp only [Phrase.isFirst, Bool.and_eq_true, Bool.not_eq_true'] at h
  exact h.1.1

/- The white space before a phrase is skipped. -/
theorem wsSkip_phrase (w : Ws) (c : Phrase) (pre rest : Bytes) :
    (between pre (w.1 ++ (c.render ++ rest))).wsSkip = between (pre ++ w.1) (c.render ++ rest) := by
  obtain ⟨b, tail, hc, hb⟩ := c.render_head
  exact wsSkip_to w _ (by rw [hc]; exact isWs_of_isFirst hb) pre

theorem stops_of_other (c : Phrase) {rest : Bytes} (h : kind (rest.headD 0) = .other) :
    c.Stops rest := by
  cases c with
  | atom a =>
    cases a with
    | number n => exact h
    | _ => trivial
  | _ => trivial

theorem wsSkip_members {members : List Member} (h : members ≠ []) (pre rest : Bytes) :
    (between pre (Phrase.renderMembers members ++ rest)).wsSkip.cur = quote := by
  cases members with
  | nil => exact absurd rfl h
  | cons member members =>
    obtain ⟨k, item⟩ := member
    obtain ⟨tail, ht⟩ := Phrase.renderMembers_cons k item members
    rw [ht, List.append_assoc, List.cons_append, wsSkip_to k.before _ rfl, between_cur,
      List.headD_cons]

theorem wsSkip_items {items : List Item} (h : items ≠ []) (pre rest : Bytes) :
    (between pre (Phrase.renderItems items ++ rest)).wsSkip.cur ≠ ']'.toUInt8 := by
  cases items with
  | nil => exact absurd rfl h
  | cons item items =>
    obtain ⟨before, c, after⟩ := item
    obtain ⟨tail, ht⟩ := Phrase.renderItems_cons before after c items
    obtain ⟨b, more, hc, hb⟩ := c.render_head
    have hne : b ≠ ']'.toUInt8 := by
      rintro rfl
      exact absurd hb (by decide)
    rw [ht, List.append_assoc, List.append_assoc, wsSkip_phrase, between_cur, hc]
    exact hne

/- The value of a member begins behind what its key has left. -/
theorem valueOffset_length (pre : Bytes) (key : Padded Literal) (before : Ws) :
    (pre ++ key.before.1 ++ keyImprint key.body key.after ++ before.1).length =
      pre.length + Phrase.valueOffset key before := by
  simp only [keyImprint, Phrase.valueOffset, List.length_append, List.length_cons, List.length_nil,
    Literal.settled_length]
  omega

/-! ### Lists and objects -/

section Open
variable {decode : Parser → Except Fault (RValue × Parser)} {depth : ℕ} {l : List RValue}
  {q : Parser}

theorem decodeValue_list (fuel depth : ℕ) (pre text : Bytes) :
    decodeValue (fuel + 1) depth (between pre ('['.toUInt8 :: text)) =
      decodeList (decodeValue fuel (depth + 2)) (depth + 1) (between pre ('['.toUInt8 :: text)) := by
  rw [decodeValue, between_cur, List.headD_cons, if_pos rfl]

theorem decodeValue_object (fuel depth : ℕ) (pre text : Bytes) :
    decodeValue (fuel + 1) depth (between pre (123 :: text)) =
      decodeObject (decodeValue fuel (depth + 2)) (depth + 1) (between pre (123 :: text)) := by
  rw [decodeValue, between_cur, List.headD_cons, if_neg (by decide), if_pos rfl]

theorem decodeList_empty (gap : Ws) (pre rest : Bytes) (hd : depth ≤ maxDepth) :
    decodeList decode depth (between pre ('['.toUInt8 :: (gap.1 ++ ']'.toUInt8 :: rest))) =
      .ok (.ofList .list [], between (pre ++ '['.toUInt8 :: (gap.1 ++ [']'.toUInt8])) rest) := by
  have hskip := wsSkip_to gap (']'.toUInt8 :: rest) rfl (pre ++ ['['.toUInt8])
  rw [decodeList, if_neg (by simpa using hd)]
  simp only [between_advance_one, hskip, between_cur, List.headD_cons, if_true, List.append_assoc,
    List.cons_append, List.nil_append]

theorem decodeList_items {pre text : Bytes} (hd : depth ≤ maxDepth)
    (hcur : (between (pre ++ ['['.toUInt8]) text).wsSkip.cur ≠ ']'.toUInt8)
    (h : listLoop decode (pre ++ '['.toUInt8 :: text).length []
      (between (pre ++ ['['.toUInt8]) text).wsSkip = .ok (l, q)) :
    decodeList decode depth (between pre ('['.toUInt8 :: text)) = .ok (.ofList .list l, q) := by
  have hbuf : (between (pre ++ ['['.toUInt8]) text).wsSkip.buf = pre ++ '['.toUInt8 :: text := by
    simp [wsSkip, advance, between]
  rw [decodeList, if_neg (by simpa using hd)]
  simp only [between_advance_one, if_neg hcur, hbuf, h]

theorem decodeObject_empty (gap : Ws) (pre rest : Bytes) (hd : depth ≤ maxDepth) :
    decodeObject decode depth (between pre (123 :: (gap.1 ++ 125 :: rest))) =
      .ok (.ofList .object [], between (pre ++ 123 :: (gap.1 ++ [125])) rest) := by
  have hskip := wsSkip_to gap (125 :: rest) rfl (pre ++ [123])
  rw [decodeObject, if_neg (by simpa using hd)]
  simp only [between_advance_one, hskip, between_cur, List.headD_cons, if_true, List.append_assoc,
    List.cons_append, List.nil_append]

theorem decodeObject_members {pre text : Bytes} (hd : depth ≤ maxDepth)
    (hcur : (between (pre ++ [123]) text).wsSkip.cur ≠ 125)
    (h : objectLoop decode (pre ++ 123 :: text).length [] (between (pre ++ [123]) text).wsSkip =
      .ok (l, q)) :
    decodeObject decode depth (between pre (123 :: text)) = .ok (.ofList .object l, q) := by
  have hbuf : (between (pre ++ [123]) text).wsSkip.buf = pre ++ 123 :: text := by
    simp [wsSkip, advance, between]
  rw [decodeObject, if_neg (by simpa using hd)]
  simp only [between_advance_one, if_neg hcur, hbuf, h]

end Open

open Phrase in
mutual
/-- A phrase that is not nested too deeply is decoded to its tree of pointers. -/
theorem decodeValue_render : ∀ (c : Phrase) (fuel depth : ℕ) (pre : Bytes) {rest : Bytes},
    c.Stops rest → c.nest < fuel → depth + 2 * c.nest ≤ maxDepth + 1 →
    decodeValue fuel depth (between pre (c.render ++ rest)) =
      .ok (c.place pre.length, between (pre ++ c.imprint) rest)
  | _, 0, depth, pre, rest, _, hf, _ => absurd hf (Nat.not_lt_zero _)
  | .atom a, fuel + 1, depth, pre, rest, hs, _, _ => decodeValue_atom a pre hs fuel depth
  | .list gap items, fuel + 1, depth, pre, rest, _, hf, hd => by
    simp only [nest] at hf hd
    have hdepth : depth + 1 ≤ maxDepth := by omega
    simp only [render, List.cons_append, List.append_assoc, List.nil_append]
    rw [decodeValue_list]
    by_cases hne : items = []
    · subst hne
      exact decodeList_empty gap pre rest hdepth
    · have hlen : items.length ≤
          (pre ++ '['.toUInt8 :: (gap.1 ++ (renderItems items ++ ']'.toUInt8 :: rest))).length := by
        have hle := length_le_renderItems items
        simp only [List.length_append, List.length_cons]
        omega
      have hitems := listLoop_render items fuel (depth + 2)
        ((pre ++ '['.toUInt8 :: (gap.1 ++ (renderItems items ++ ']'.toUInt8 :: rest))).length)
        [] (pre ++ ['['.toUInt8] ++ gap.1) rest hne (by omega) (by omega)
        hlen
      rw [← wsSkip_append gap.2] at hitems
      have hcur := wsSkip_items hne (pre ++ ['['.toUInt8] ++ gap.1) (']'.toUInt8 :: rest)
      rw [← wsSkip_append gap.2] at hcur
      have hoff : (pre ++ ['['.toUInt8] ++ gap.1).length = pre.length + 1 + gap.1.length := by
        rw [List.length_append, List.length_append]
        rfl
      rw [decodeList_items hdepth hcur hitems, Phrase.place, hoff]
      simp [imprint]
  | .object gap members, fuel + 1, depth, pre, rest, _, hf, hd => by
    simp only [nest] at hf hd
    have hdepth : depth + 1 ≤ maxDepth := by omega
    simp only [render, List.cons_append, List.append_assoc, List.nil_append]
    rw [decodeValue_object]
    by_cases hne : members = []
    · subst hne
      exact decodeObject_empty gap pre rest hdepth
    · have hlen : members.length ≤
          (pre ++ 123 :: (gap.1 ++ (renderMembers members ++ 125 :: rest))).length := by
        have hle := length_le_renderMembers members
        simp only [List.length_append, List.length_cons]
        omega
      have hmembers := objectLoop_render members fuel (depth + 2)
        ((pre ++ 123 :: (gap.1 ++ (renderMembers members ++ 125 :: rest))).length)
        [] (pre ++ [123] ++ gap.1) rest hne (by omega) (by omega)
        hlen
      rw [← wsSkip_append gap.2] at hmembers
      have hcur := wsSkip_members hne (pre ++ [123] ++ gap.1) (125 :: rest)
      rw [← wsSkip_append gap.2] at hcur
      have hoff : (pre ++ [123] ++ gap.1).length = pre.length + 1 + gap.1.length := by
        rw [List.length_append, List.length_append]
        rfl
      rw [decodeObject_members hdepth (by rw [hcur]; decide) hmembers, Phrase.place, hoff]
      simp [imprint]

theorem listLoop_render : ∀ (items : List Item) (fuel depth k : ℕ) (l : List RValue)
    (pre rest : Bytes), items ≠ [] → nestItems items < fuel →
    depth + 2 * nestItems items ≤ maxDepth + 1 → items.length ≤ k →
    listLoop (decodeValue fuel depth) k l
        (between pre (renderItems items ++ ']'.toUInt8 :: rest)).wsSkip =
      .ok (l ++ placeItems pre.length items,
        between (pre ++ (imprintItems items ++ [']'.toUInt8])) rest)
  | [], _, _, _, _, _, _, hne, _, _, _ => absurd rfl hne
  | _ :: _, _, _, 0, _, _, _, _, _, _, hk => absurd hk (by simp)
  | [⟨before, c, after⟩], fuel, depth, k + 1, l, pre, rest, _, hf, hd, hk => by
    simp only [nestItems, Nat.max_zero] at hf hd
    have hstop : c.Stops (after.1 ++ ']'.toUInt8 :: rest) :=
      stops_of_other c (kind_after_ws after rfl)
    have hv := decodeValue_render c _ _ (pre ++ before.1) hstop hf hd
    have hskip := wsSkip_phrase before c pre (after.1 ++ ']'.toUInt8 :: rest)
    simp only [renderItems, List.append_assoc]
    rw [hskip, listLoop_last hv]
    simp [placeItems, imprintItems]
  | ⟨before, c, after⟩ :: item :: items, fuel, depth, k + 1, l, pre, rest, _, hf, hd, hk => by
    rw [nestItems] at hf hd
    have hstop : c.Stops
        (after.1 ++ ','.toUInt8 :: (renderItems (item :: items) ++ ']'.toUInt8 :: rest)) :=
      stops_of_other c (kind_after_ws after rfl)
    have hv := decodeValue_render c fuel depth (pre ++ before.1) hstop
      (by omega) (by omega)
    have hskip := wsSkip_phrase before c pre
      (after.1 ++ ','.toUInt8 :: (renderItems (item :: items) ++ ']'.toUInt8 :: rest))
    have hmore := listLoop_render (item :: items) fuel depth k
      (l ++ [c.place (pre ++ before.1).length])
      (pre ++ before.1 ++ c.imprint ++ after.1 ++ [','.toUInt8]) rest (by simp)
      (by omega) (by omega) (by simpa using hk)
    simp only [renderItems, List.append_assoc, List.cons_append]
    rw [hskip, listLoop_more hv, hmore]
    simp [placeItems, imprintItems, imprint_length, Nat.add_assoc]

theorem objectLoop_render : ∀ (members : List Member) (fuel depth k : ℕ) (l : List RValue)
    (pre rest : Bytes), members ≠ [] → nestMembers members < fuel →
    depth + 2 * nestMembers members ≤ maxDepth + 1 → members.length ≤ k →
    objectLoop (decodeValue fuel depth) k l
        (between pre (renderMembers members ++ 125 :: rest)).wsSkip =
      .ok (l ++ placeMembers pre.length members,
        between (pre ++ (imprintMembers members ++ [125])) rest)
  | [], _, _, _, _, _, _, hne, _, _, _ => absurd rfl hne
  | _ :: _, _, _, 0, _, _, _, _, _, _, hk => absurd hk (by simp)
  | [(key, ⟨before, c, after⟩)], fuel, depth, k + 1, l, pre, rest, _, hf, hd, hk => by
    simp only [nestMembers, Nat.max_zero] at hf hd
    have hstop : c.Stops (after.1 ++ 125 :: rest) := stops_of_other c (kind_after_ws after rfl)
    have hv := decodeValue_render c fuel depth
      (pre ++ key.before.1 ++ keyImprint key.body key.after ++ before.1) hstop hf hd
    rw [← wsSkip_phrase] at hv
    simp only [renderMembers, List.append_assoc, List.cons_append]
    rw [wsSkip_to key.before _ rfl, objectLoop_last hv, valueOffset_length, List.length_append]
    simp [placeMembers, imprintMembers, keyImprint]
  | (key, ⟨before, c, after⟩) :: member :: members, fuel, depth, k + 1, l, pre, rest, _, hf, hd,
      hk => by
    rw [nestMembers] at hf hd
    have hstop : c.Stops
        (after.1 ++ ','.toUInt8 :: (renderMembers (member :: members) ++ 125 :: rest)) :=
      stops_of_other c (kind_after_ws after rfl)
    have hv := decodeValue_render c fuel depth
      (pre ++ key.before.1 ++ keyImprint key.body key.after ++ before.1) hstop
      (by omega) (by omega)
    rw [← wsSkip_phrase] at hv
    simp only [renderMembers, List.append_assoc, List.cons_append]
    rw [wsSkip_to key.before _ rfl, objectLoop_more hv,
      objectLoop_render (member :: members) fuel depth k _ _ rest (by simp)
        (by omega) (by omega) (by simpa using hk)]
    simp only [List.length_append, imprint_length, List.length_singleton]
    simp only [← List.length_append, valueOffset_length]
    simp [placeMembers, imprintMembers, keyImprint]
end

end Parser

end TypegoSdk.Crow
