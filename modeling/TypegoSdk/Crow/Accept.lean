import TypegoSdk.Crow.Parse

/-!
# The texts that are accepted

The converse: whatever a function of the parser accepts is a phrase. Together
with what it makes of a phrase this says, for every text, whether `load` returns
a document and which one.
-/

namespace TypegoSdk.Crow
open TypegoSdk.Lib

namespace Parser
open Phrase

/-- What is decoded with success is a phrase for which `ok` holds, and the parser
stands behind it. -/
def Decodes (decode : Parser → Except Fault (RValue × Parser)) (ok : Phrase → Prop) : Prop :=
  ∀ pre text r, decode (between pre text) = .ok r →
    ∃ c rest, text = c.render ++ rest ∧ ok c ∧ r.2 = between (pre ++ c.imprint) rest

/- A text with a first byte that is not zero begins with it. -/
theorem eq_cons_of_headD {text : Bytes} {c : UInt8} (h : text.headD 0 = c) (hc : c ≠ 0) :
    ∃ rest, text = c :: rest := by
  cases text with
  | nil => exact absurd h.symm hc
  | cons b rest => exact ⟨rest, by rw [← h, List.headD_cons]⟩

theorem decodeString_error {p : Parser} {e : Fault} (h : p.decodeString = .error e) :
    e = .error := by
  simp only [decodeString] at h
  split at h
  · cases h
    rfl
  · split at h
    · cases h
      rfl
    · cases h

section Loops
variable {decode : Parser → Except Fault (RValue × Parser)} {ok : Phrase → Prop}

/- What a round of the loop can do: fail as an element does, refuse, end with the
last element, or go on behind a comma. -/
theorem listLoop_round (hdec : Decodes decode ok) (k : ℕ) (l : List RValue) (pre text : Bytes) :
    (∃ e pre' text', decode (between pre' text') = .error e ∧
      listLoop decode (k + 1) l (between pre text).wsSkip = .error e) ∨
    listLoop decode (k + 1) l (between pre text).wsSkip = .error .error ∨
    (∃ (before : Ws) (c : Phrase) (after : Ws) (rest : Bytes),
      text = renderItems [⟨before, c, after⟩] ++ ']'.toUInt8 :: rest ∧
      ok c ∧ ∃ r, listLoop decode (k + 1) l (between pre text).wsSkip = .ok r) ∨
    ∃ (before : Ws) (c : Phrase) (after : Ws) (rest : Bytes),
      text = renderItems [⟨before, c, after⟩] ++ ','.toUInt8 :: rest ∧
      ok c ∧ ∃ l' pre', listLoop decode (k + 1) l (between pre text).wsSkip =
        listLoop decode k l' (between pre' rest).wsSkip := by
  obtain ⟨before, text', rfl, -, hskip⟩ := wsSkip_split text
  rw [hskip]
  cases hv : decode (between (pre ++ before.1) text') with
  | error e => exact .inl ⟨e, _, _, hv, by rw [listLoop, hv]⟩
  | ok vp =>
    obtain ⟨v, p⟩ := vp
    obtain ⟨c, rest, rfl, hok, rfl⟩ := hdec _ _ _ hv
    obtain ⟨after, rest', rfl, -, hskip'⟩ := wsSkip_split rest
    by_cases hclose : rest'.headD 0 = ']'.toUInt8
    · obtain ⟨rest, rfl⟩ := eq_cons_of_headD hclose (by decide)
      exact .inr (.inr (.inl ⟨before, c, after, rest, by simp [renderItems], hok, _,
        listLoop_last hv⟩))
    · by_cases hcomma : rest'.headD 0 = ','.toUInt8
      · obtain ⟨rest, rfl⟩ := eq_cons_of_headD hcomma (by decide)
        exact .inr (.inr (.inr ⟨before, c, after, rest, by simp [renderItems], hok, _, _,
          listLoop_more hv⟩))
      · refine .inr (.inl ?_)
        rw [listLoop, hv]
        simp only [hskip', between_cur, if_neg hclose, ne_eq, hcomma, not_false_eq_true, if_true]

theorem listLoop_sound (hdec : Decodes decode ok) {k : ℕ} {l : List RValue} {pre text : Bytes}
    {r : List RValue × Parser} (h : listLoop decode k l (between pre text).wsSkip = .ok r) :
    ∃ (items : List Item) (rest : Bytes), items ≠ [] ∧
      text = renderItems items ++ ']'.toUInt8 :: rest ∧ ∀ item ∈ items, ok item.body := by
  induction k generalizing l pre text with
  | zero => simp [listLoop] at h
  | succ k ih =>
    rcases listLoop_round hdec k l pre text with ⟨e, _, _, -, he⟩ | he |
      ⟨before, c, after, rest, rfl, hok, -⟩ | ⟨before, c, after, rest, rfl, hok, l', pre', hmore⟩
    · rw [he] at h
      cases h
    · rw [he] at h
      cases h
    · refine ⟨[⟨before, c, after⟩], rest, by simp, rfl, ?_⟩
      simpa using hok
    · rw [hmore] at h
      obtain ⟨items, rest', hne, rfl, hall⟩ := ih h
      obtain ⟨item, items, rfl⟩ := List.exists_cons_of_ne_nil hne
      refine ⟨⟨before, c, after⟩ :: item :: items, rest', by simp, by simp [renderItems], ?_⟩
      rw [List.forall_mem_cons]
      exact ⟨hok, hall⟩

/- Each round takes at least one byte. -/
theorem listLoop_enough (hdec : Decodes decode ok)
    (hnf : ∀ pre text, decode (between pre text) ≠ .error .fuel) {k : ℕ} (l : List RValue)
    (pre : Bytes) {text : Bytes} (hk : text.length < k) :
    listLoop decode k l (between pre text).wsSkip ≠ .error .fuel := by
  induction k generalizing l pre text with
  | zero => omega
  | succ k ih =>
    rcases listLoop_round hdec k l pre text with ⟨e, _, _, hv, he⟩ | he |
      ⟨before, c, after, rest, rfl, -, r, hr⟩ | ⟨before, c, after, rest, rfl, -, l', pre', hmore⟩
    · rw [he]
      rintro ⟨⟩
      exact hnf _ _ hv
    · rw [he]
      simp
    · rw [hr]
      simp
    · rw [hmore]
      apply ih
      simp only [List.length_append, List.length_cons] at hk
      omega

/- The same for a member: a key, a colon and a value. -/
theorem objectLoop_round (hdec : Decodes decode ok) (k : ℕ) (l : List RValue) (pre text : Bytes) :
    (∃ e pre' text', decode (between pre' text') = .error e ∧
      objectLoop decode (k + 1) l (between pre text).wsSkip = .error e) ∨
    objectLoop decode (k + 1) l (between pre text).wsSkip = .error .error ∨
    (∃ (key : Padded Literal) (before : Ws) (c : Phrase) (after : Ws) (rest : Bytes),
      text = renderMembers [(key, ⟨before, c, after⟩)] ++ 125 :: rest ∧
      ok c ∧ ∃ r, objectLoop decode (k + 1) l (between pre text).wsSkip = .ok r) ∨
    ∃ (key : Padded Literal) (before : Ws) (c : Phrase) (after : Ws) (rest : Bytes),
      text = renderMembers [(key, ⟨before, c, after⟩)] ++ ','.toUInt8 :: rest ∧
      ok c ∧ ∃ l' pre', objectLoop decode (k + 1) l (between pre text).wsSkip =
        objectLoop decode k l' (between pre' rest).wsSkip := by
  obtain ⟨kbefore, text', rfl, -, hskip⟩ := wsSkip_split text
  rw [hskip]
  cases ht : (between (pre ++ kbefore.1) text').decodeString with
  | error e => exact .inr (.inl (by rw [objectLoop, ht, decodeString_error ht]))
  | ok tp =>
    obtain ⟨lit, rest, rfl⟩ := decodeString_sound ht
    obtain ⟨kafter, rest', rfl, -, hskip'⟩ := wsSkip_split rest
    by_cases hcolon : rest'.headD 0 = ':'.toUInt8
    · obtain ⟨text, rfl⟩ := eq_cons_of_headD hcolon (by decide)
      obtain ⟨before, text', rfl, -, hskipv⟩ := wsSkip_split text
      cases hv : decode (between (pre ++ kbefore.1 ++ keyImprint lit kafter) (before.1 ++ text')).wsSkip with
      | error e =>
        have hv' := hv
        rw [hskipv] at hv'
        exact .inl ⟨e, _, _, hv', by rw [objectLoop_key, hv]⟩
      | ok vp =>
        have hv' := hv
        rw [hskipv] at hv'
        obtain ⟨v, p⟩ := vp
        obtain ⟨c, rest, rfl, hok, rfl⟩ := hdec _ _ _ hv'
        obtain ⟨after, rest', rfl, -, hskip''⟩ := wsSkip_split rest
        by_cases hclose : rest'.headD 0 = 125
        · obtain ⟨rest, rfl⟩ := eq_cons_of_headD hclose (by decide)
          exact .inr (.inr (.inl ⟨⟨kbefore, lit, kafter⟩, before, c, after, rest,
            by simp [renderMembers], hok, _, objectLoop_last hv⟩))
        · by_cases hcomma : rest'.headD 0 = ','.toUInt8
          · obtain ⟨rest, rfl⟩ := eq_cons_of_headD hcomma (by decide)
            exact .inr (.inr (.inr ⟨⟨kbefore, lit, kafter⟩, before, c, after, rest,
              by simp [renderMembers], hok, _, _, objectLoop_more hv⟩))
          · refine .inr (.inl ?_)
            rw [objectLoop_key, hv]
            simp only [hskip'', between_cur, if_neg hclose, ne_eq, hcomma, not_false_eq_true,
              if_true]
    · refine .inr (.inl ?_)
      rw [objectLoop, decodeString_render]
      simp only [hskip', between_cur, ne_eq, hcolon, not_false_eq_true, if_true]

theorem objectLoop_sound (hdec : Decodes decode ok) {k : ℕ} {l : List RValue} {pre text : Bytes}
    {r : List RValue × Parser} (h : objectLoop decode k l (between pre text).wsSkip = .ok r) :
    ∃ (members : List Member) (rest : Bytes), members ≠ [] ∧
      text = renderMembers members ++ 125 :: rest ∧ ∀ m ∈ members, ok m.2.body := by
  induction k generalizing l pre text with
  | zero => simp [objectLoop] at h
  | succ k ih =>
    rcases objectLoop_round hdec k l pre text with ⟨e, _, _, -, he⟩ | he |
      ⟨key, before, c, after, rest, rfl, hok, -⟩ |
      ⟨key, before, c, after, rest, rfl, hok, l', pre', hmore⟩
    · rw [he] at h
      cases h
    · rw [he] at h
      cases h
    · refine ⟨[(key, ⟨before, c, after⟩)], rest, by simp, rfl, ?_⟩
      simpa using hok
    · rw [hmore] at h
      obtain ⟨members, rest', hne, rfl, hall⟩ := ih h
      obtain ⟨member, members, rfl⟩ := List.exists_cons_of_ne_nil hne
      refine ⟨(key, ⟨before, c, after⟩) :: member :: members, rest', by simp,
        by simp [renderMembers], ?_⟩
      rw [List.forall_mem_cons]
      exact ⟨hok, hall⟩

theorem objectLoop_enough (hdec : Decodes decode ok)
    (hnf : ∀ pre text, decode (between pre text) ≠ .error .fuel) {k : ℕ} (l : List RValue)
    (pre : Bytes) {text : Bytes} (hk : text.length < k) :
    objectLoop decode k l (between pre text).wsSkip ≠ .error .fuel := by
  induction k generalizing l pre text with
  | zero => omega
  | succ k ih =>
    rcases objectLoop_round hdec k l pre text with ⟨e, _, _, hv, he⟩ | he |
      ⟨key, before, c, after, rest, rfl, -, r, hr⟩ |
      ⟨key, before, c, after, rest, rfl, -, l', pre', hmore⟩
    · rw [he]
      rintro ⟨⟩
      exact hnf _ _ hv
    · rw [he]
      simp
    · rw [hr]
      simp
    · rw [hmore]
      apply ih
      simp only [List.length_append, List.length_cons] at hk
      omega

end Loops

theorem nestItems_le {items : List Item} {b : ℕ} (h : ∀ item ∈ items, item.body.nest ≤ b) :
    nestItems items ≤ b := by
  induction items with
  | nil => exact Nat.zero_le b
  | cons item items ih =>
    rw [List.forall_mem_cons] at h
    obtain ⟨before, c, after⟩ := item
    exact max_le h.1 (ih h.2)

theorem nestMembers_le {members : List Member} {b : ℕ} (h : ∀ m ∈ members, m.2.body.nest ≤ b) :
    nestMembers members ≤ b := by
  induction members with
  | nil => exact Nat.zero_le b
  | cons m members ih =>
    rw [List.forall_mem_cons] at h
    obtain ⟨k, before, c, after⟩ := m
    exact max_le h.1 (ih h.2)

/-- The phrases that `decode_value` at a depth can take. -/
def Fits (depth : ℕ) (c : Phrase) : Prop := depth + 2 * c.nest ≤ maxDepth + 1

theorem decodes_of_sound {fuel depth : ℕ} (hfuel : maxDepth + 1 < depth + 2 * fuel)
    (h : ∀ {pre text : Bytes} {r : RValue × Parser},
      decodeValue fuel depth (between pre text) = .ok r →
      ∃ c rest, text = c.render ++ rest ∧ c.Stops rest ∧ Fits depth c) :
    Decodes (decodeValue fuel depth) (Fits depth) := by
  intro pre text r hr
  obtain ⟨c, rest, rfl, hstop, hfits⟩ := h hr
  have hnest : c.nest < fuel := by
    rw [Fits] at hfits
    omega
  rw [decodeValue_render c _ _ pre hstop hnest hfits] at hr
  cases hr
  exact ⟨c, rest, rfl, hfits, rfl⟩

/- An element two levels down leaves room for what is around it. -/
theorem nest_le_of_fits {depth : ℕ} {c : Phrase} (h : Fits (depth + 2) c) :
    c.nest ≤ (maxDepth - 1 - depth) / 2 := by
  rw [Fits] at h
  omega

theorem decodeWord_sound {pre text word : Bytes} {t : JType} {r : RValue × Parser}
    (h : (between pre text).decodeWord word t = .ok r) : ∃ rest, text = word ++ rest := by
  rw [decodeWord, between_ahead] at h
  split at h
  · next hpre =>
    obtain ⟨rest, hrest⟩ := List.isPrefixOf_iff_prefix.mp hpre
    exact ⟨rest, hrest.symm⟩
  · simp at h

theorem decodeList_sound {decode : Parser → Except Fault (RValue × Parser)} {ok : Phrase → Prop}
    {depth : ℕ} (hdec : depth ≤ maxDepth → Decodes decode ok) {pre text : Bytes}
    {r : RValue × Parser} (h : decodeList decode depth (between pre text) = .ok r) :
    ∃ (gap : Ws) (items : List Item) (rest : Bytes), depth ≤ maxDepth ∧
      text = (Phrase.list gap items).render ++ rest ∧ ∀ item ∈ items, ok item.body := by
  rw [decodeList] at h
  split at h
  · simp at h
  · next hopen =>
    rw [not_or, not_not, between_cur] at hopen
    obtain ⟨text, rfl⟩ := eq_cons_of_headD hopen.1 (by decide)
    have hd : depth ≤ maxDepth := not_lt.mp hopen.2
    simp only [between_advance_one] at h
    split at h
    · next hcur =>
      obtain ⟨gap, rest, rfl, -, hskip⟩ := wsSkip_split text
      rw [hskip, between_cur] at hcur
      obtain ⟨rest, rfl⟩ := eq_cons_of_headD hcur (by decide)
      exact ⟨gap, [], rest, hd, by simp [render, renderItems], by simp⟩
    · split at h
      · simp at h
      · next hloop =>
        obtain ⟨items, rest, -, rfl, hall⟩ := listLoop_sound (hdec hd) hloop
        exact ⟨⟨[], rfl⟩, items, rest, hd, by simp [render], hall⟩

theorem decodeObject_sound {decode : Parser → Except Fault (RValue × Parser)} {ok : Phrase → Prop}
    {depth : ℕ} (hdec : depth ≤ maxDepth → Decodes decode ok) {pre text : Bytes}
    {r : RValue × Parser} (h : decodeObject decode depth (between pre text) = .ok r) :
    ∃ (gap : Ws) (members : List Member) (rest : Bytes), depth ≤ maxDepth ∧
      text = (Phrase.object gap members).render ++ rest ∧ ∀ m ∈ members, ok m.2.body := by
  rw [decodeObject] at h
  split at h
  · simp at h
  · next hopen =>
    rw [not_or, not_not, between_cur] at hopen
    obtain ⟨text, rfl⟩ := eq_cons_of_headD hopen.1 (by decide)
    have hd : depth ≤ maxDepth := not_lt.mp hopen.2
    simp only [between_advance_one] at h
    split at h
    · next hcur =>
      obtain ⟨gap, rest, rfl, -, hskip⟩ := wsSkip_split text
      rw [hskip, between_cur] at hcur
      obtain ⟨rest, rfl⟩ := eq_cons_of_headD hcur (by decide)
      exact ⟨gap, [], rest, hd, by simp [render, renderMembers], by simp⟩
    · split at h
      · simp at h
      · next hloop =>
        obtain ⟨members, rest, -, rfl, hall⟩ := objectLoop_sound (hdec hd) hloop
        exact ⟨⟨[], rfl⟩, members, rest, hd, by simp [render], hall⟩

/-- Whatever `decode_value` accepts is a phrase, not nested too deeply. -/
theorem decodeValue_sound {fuel depth : ℕ} (hfuel : maxDepth + 1 < depth + 2 * fuel)
    (hd : depth ≤ maxDepth + 1) {pre text : Bytes} {r : RValue × Parser}
    (h : decodeValue fuel depth (between pre text) = .ok r) :
    ∃ c rest, text = c.render ++ rest ∧ c.Stops rest ∧ Fits depth c := by
  induction fuel generalizing depth pre text r with
  | zero => simp [decodeValue] at h
  | succ fuel ih =>
    have hatom : Fits depth (.atom .null) := by simpa [Fits, nest] using hd
    have hdec : depth + 1 ≤ maxDepth →
        Decodes (decodeValue fuel (depth + 2)) (Fits (depth + 2)) := by
      intro hdepth
      exact decodes_of_sound (by omega) (ih (by omega) (by omega))
    rw [decodeValue] at h
    split_ifs at h with h1 h2 h3 h4 h5 h6
    · obtain ⟨gap, items, rest, hdepth, rfl, hall⟩ := decodeList_sound hdec h
      have hnest := nestItems_le fun item hi => nest_le_of_fits (hall item hi)
      refine ⟨.list gap items, rest, rfl, trivial, ?_⟩
      simp only [Fits, nest]
      omega
    · obtain ⟨gap, members, rest, hdepth, rfl, hall⟩ := decodeObject_sound hdec h
      have hnest := nestMembers_le fun m hm => nest_le_of_fits (hall m hm)
      refine ⟨.object gap members, rest, rfl, trivial, ?_⟩
      simp only [Fits, nest]
      omega
    · obtain ⟨l, rest, rfl⟩ := decodeString_sound h
      exact ⟨.atom (.string l), rest, by simp [render, Atom.render], trivial, hatom⟩
    · obtain ⟨rest, rfl⟩ := decodeWord_sound h
      exact ⟨.atom (.bool true), rest, rfl, trivial, hatom⟩
    · obtain ⟨rest, rfl⟩ := decodeWord_sound h
      exact ⟨.atom (.bool false), rest, rfl, trivial, hatom⟩
    · obtain ⟨rest, rfl⟩ := decodeWord_sound h
      exact ⟨.atom .null, rest, rfl, trivial, hatom⟩
    · rw [decodeNumber, between_ahead] at h
      split at h
      · simp at h
      · next hloop =>
        obtain ⟨n, rest, rfl, hrest⟩ := numeral_of_numberLoop hloop
        exact ⟨.atom (.number n), rest, rfl, hrest, hatom⟩

/-! ### The bounds of the loops are large enough -/

theorem decodeList_enough {decode : Parser → Except Fault (RValue × Parser)} {ok : Phrase → Prop}
    {depth : ℕ} (hdec : depth ≤ maxDepth → Decodes decode ok)
    (hnf : depth ≤ maxDepth → ∀ pre text, decode (between pre text) ≠ .error .fuel)
    (pre text : Bytes) : decodeList decode depth (between pre text) ≠ .error .fuel := by
  rw [decodeList]
  split
  · simp
  · next hopen =>
    rw [not_or, not_not, between_cur] at hopen
    obtain ⟨text, rfl⟩ := eq_cons_of_headD hopen.1 (by decide)
    have hd : depth ≤ maxDepth := not_lt.mp hopen.2
    have hk : text.length < (between (pre ++ ['['.toUInt8]) text).wsSkip.buf.length := by
      simp only [wsSkip, advance, between, List.length_append, List.length_singleton]
      omega
    have hloop := listLoop_enough (hdec hd) (hnf hd) [] (pre ++ ['['.toUInt8]) hk
    simp only [between_advance_one]
    split
    · simp
    · split
      · next e he =>
        rintro ⟨⟩
        exact hloop he
      · simp

theorem decodeObject_enough {decode : Parser → Except Fault (RValue × Parser)} {ok : Phrase → Prop}
    {depth : ℕ} (hdec : depth ≤ maxDepth → Decodes decode ok)
    (hnf : depth ≤ maxDepth → ∀ pre text, decode (between pre text) ≠ .error .fuel)
    (pre text : Bytes) : decodeObject decode depth (between pre text) ≠ .error .fuel := by
  rw [decodeObject]
  split
  · simp
  · next hopen =>
    rw [not_or, not_not, between_cur] at hopen
    obtain ⟨text, rfl⟩ := eq_cons_of_headD hopen.1 (by decide)
    have hd : depth ≤ maxDepth := not_lt.mp hopen.2
    have hk : text.length < (between (pre ++ [123]) text).wsSkip.buf.length := by
      simp only [wsSkip, advance, between, List.length_append, List.length_singleton]
      omega
    have hloop := objectLoop_enough (hdec hd) (hnf hd) [] (pre ++ [123]) hk
    simp only [between_advance_one]
    split
    · simp
    · split
      · next e he =>
        rintro ⟨⟩
        exact hloop he
      · simp

theorem decodeValue_enough (fuel depth : ℕ) (hfuel : maxDepth + 1 < depth + 2 * fuel)
    (hd : depth ≤ maxDepth + 1) (pre text : Bytes) :
    decodeValue fuel depth (between pre text) ≠ .error .fuel := by
  induction fuel generalizing depth pre text with
  | zero => omega
  | succ fuel ih =>
    have hdec : depth + 1 ≤ maxDepth →
        Decodes (decodeValue fuel (depth + 2)) (Fits (depth + 2)) := by
      intro hdepth
      exact decodes_of_sound (by omega) (decodeValue_sound (by omega) (by omega))
    have hnf : depth + 1 ≤ maxDepth →
        ∀ pre text, decodeValue fuel (depth + 2) (between pre text) ≠ .error .fuel := by
      intro hdepth
      exact ih _ (by omega) (by omega)
    have hword : ∀ (p : Parser) word t, p.decodeWord word t ≠ .error .fuel := by
      intro p word t
      rw [decodeWord]
      split <;> simp
    rw [decodeValue]
    split_ifs with h1 h2 h3 h4 h5 h6
    · exact decodeList_enough hdec hnf pre text
    · exact decodeObject_enough hdec hnf pre text
    · intro h
      exact absurd (decodeString_error h) (by simp)
    · exact hword _ _ _
    · exact hword _ _ _
    · exact hword _ _ _
    · rw [decodeNumber]
      split <;> simp

end Parser

/-! ### No text holds a zero -/

theorem zero_ne_marks : (0 : UInt8) ≠ quote ∧ (0 : UInt8) ≠ backslash ∧ 0 ≠ 'u'.toUInt8 ∧
    0 ≠ '['.toUInt8 ∧ 0 ≠ ']'.toUInt8 ∧ 0 ≠ ','.toUInt8 ∧ 0 ≠ ':'.toUInt8 := by decide

theorem ws_no_zero (w : Ws) : (0 : UInt8) ∉ w.1 := by
  intro h
  exact absurd (List.all_eq_true.mp w.2 0 h) (by decide)

theorem Literal.render_no_zero (l : Literal) : (0 : UInt8) ∉ l.render := by
  induction l with
  | nil => simp
  | cons p l ih =>
    rw [Literal.render_cons, List.mem_append, not_or]
    refine ⟨?_, ih⟩
    cases p with
    | plain c h =>
      have hc := (isPlain_iff.mp h).2.2
      simpa [Piece.render] using hc.symm
    | short e h =>
      have he : e ≠ 0 := by
        rintro rfl
        exact absurd h (by decide)
      simp [Piece.render, zero_ne_marks, he.symm]
    | unicode a b c d h =>
      simp only [Bool.and_eq_true] at h
      have hhex : ∀ x, isHex x = true → 0 ≠ x := by
        rintro x hx rfl
        exact absurd hx (by decide)
      simp [Piece.render, zero_ne_marks, hhex a h.1.1.1, hhex b h.1.1.2, hhex c h.1.2, hhex d h.2]

theorem accepts_no_zero {state : NumberState} {t : Bytes} (h : accepts state t = true) :
    (0 : UInt8) ∉ t := by
  induction t generalizing state with
  | nil => simp
  | cons c t ih =>
    obtain ⟨state', hn, -, ht⟩ := accepts_cons h
    rw [List.mem_cons, not_or]
    refine ⟨?_, ih ht⟩
    rintro rfl
    exact absurd hn (by simp [NumberState.next, show kind 0 = .other from rfl, Kind.row])

theorem Atom.render_no_zero (a : Atom) : (0 : UInt8) ∉ a.render := by
  cases a with
  | null => decide
  | bool b =>
    cases b with
    | true => decide
    | false => decide
  | number n => exact accepts_no_zero (accepts_iff.mpr ⟨n, rfl⟩)
  | string l =>
    have hl := l.render_no_zero
    simp [Atom.render, zero_ne_marks, hl]

namespace Phrase

mutual
theorem render_no_zero : ∀ c : Phrase, (0 : UInt8) ∉ c.render
  | .atom a => a.render_no_zero
  | .list gap items => by
    have hgap := ws_no_zero gap
    have hitems := renderItems_no_zero items
    simp [render, zero_ne_marks, hgap, hitems]
  | .object gap members => by
    have hgap := ws_no_zero gap
    have hmembers := renderMembers_no_zero members
    simp [render, hgap, hmembers]

theorem renderItems_no_zero : ∀ items : List Item, (0 : UInt8) ∉ renderItems items
  | [] => by simp [renderItems]
  | [⟨before, c, after⟩] => by
    simp [renderItems, ws_no_zero before, ws_no_zero after, render_no_zero c]
  | ⟨before, c, after⟩ :: item :: items => by
    simp [renderItems, zero_ne_marks, ws_no_zero before, ws_no_zero after, render_no_zero c,
      renderItems_no_zero (item :: items)]

theorem renderMembers_no_zero : ∀ members : List Member, (0 : UInt8) ∉ renderMembers members
  | [] => by simp [renderMembers]
  | [(k, ⟨before, c, after⟩)] => by
    simp [renderMembers, zero_ne_marks, ws_no_zero k.before, ws_no_zero k.after, ws_no_zero before,
      ws_no_zero after, k.body.render_no_zero, render_no_zero c]
  | (k, ⟨before, c, after⟩) :: member :: members => by
    simp [renderMembers, zero_ne_marks, ws_no_zero k.before, ws_no_zero k.after, ws_no_zero before,
      ws_no_zero after, k.body.render_no_zero, render_no_zero c,
      renderMembers_no_zero (member :: members)]
end

end Phrase

theorem Padded.render_no_zero (t : Padded Phrase) : (0 : UInt8) ∉ t.render := by
  simp [Padded.render, ws_no_zero t.before, ws_no_zero t.after, t.body.render_no_zero]

/-! ### Documents -/

/-- What the parser sees of a string: the bytes before the first zero. -/
def textOf (str : Bytes) : Bytes := str.takeWhile (· != 0)

theorem textOf_split (str : Bytes) : ∃ tail, str ++ [0] = textOf str ++ 0 :: tail := by
  induction str with
  | nil => exact ⟨[], rfl⟩
  | cons c str ih =>
    by_cases hc : c = 0
    · subst hc
      exact ⟨str ++ [0], rfl⟩
    · obtain ⟨tail, htail⟩ := ih
      refine ⟨tail, ?_⟩
      rw [List.cons_append, htail, textOf, textOf, List.takeWhile_cons_of_pos (by simpa using hc),
        List.cons_append]

theorem textOf_eq {str t tail : Bytes} (h : str ++ [0] = t ++ 0 :: tail) (ht : (0 : UInt8) ∉ t) :
    textOf str = t := by
  induction t generalizing str with
  | nil =>
    cases str with
    | nil => rfl
    | cons c str =>
      simp only [List.cons_append, List.nil_append, List.cons.injEq] at h
      rw [textOf, h.1]
      rfl
  | cons b t ih =>
    rw [List.mem_cons, not_or] at ht
    cases str with
    | nil =>
      simp only [List.nil_append, List.cons_append, List.cons.injEq] at h
      exact absurd h.1 ht.1
    | cons c str =>
      simp only [List.cons_append, List.cons.injEq] at h
      obtain ⟨rfl, h⟩ := h
      rw [textOf, List.takeWhile_cons_of_pos (by simpa using Ne.symm ht.1)]
      exact congrArg _ (ih h ht.2)

/-- The document of a text that is followed by `rest` in the buffer. -/
def documentOf (t : Padded Phrase) (rest : Bytes) : Document where
  root := t.body.place t.before.1.length
  buf := t.before.1 ++ (t.body.imprint ++ (t.after.1 ++ rest))

/-- The limit of the source on the depth of the recursion is one of 5000 levels,
since each level takes two of it. -/
theorem load_render {str tail : Bytes} {t : Padded Phrase} (h : str ++ [0] = t.render ++ 0 :: tail)
    (hn : t.body.nest ≤ 5000) : load str = .ok (documentOf t (0 :: tail)) := by
  have hskip := Parser.wsSkip_phrase t.before t.body [] (t.after.1 ++ 0 :: tail)
  have hstop : t.body.Stops (t.after.1 ++ 0 :: tail) :=
    Parser.stops_of_other t.body (Parser.kind_after_ws t.after rfl)
  have hv := Parser.decodeValue_render t.body maxDepth 0 ([] ++ t.before.1)
    hstop (by rw [maxDepth]; omega) (by rw [maxDepth]; omega)
  have hskip' := Parser.wsSkip_to t.after (0 :: tail) rfl
    ([] ++ t.before.1 ++ t.body.imprint)
  have hstart : (⟨str ++ [0], 0⟩ : Parser) =
      .between [] (t.before.1 ++ (t.body.render ++ (t.after.1 ++ 0 :: tail))) := by
    rw [h, Padded.render]
    simp [Parser.between]
  rw [load, Parser.parse, hstart, hskip, hv]
  simp only [hskip', Parser.between_cur, List.headD_cons, ne_eq, not_true_eq_false, if_false]
  simp [Parser.between, documentOf]

theorem load_sound {str : Bytes} {d : Document} (h : load str = .ok d) :
    ∃ (t : Padded Phrase) (tail : Bytes), str ++ [0] = t.render ++ 0 :: tail ∧
      t.body.nest ≤ 5000 := by
  rw [load, Parser.parse] at h
  obtain ⟨before, text, hstr, -, hskip⟩ := Parser.wsSkip_split (str ++ [0])
  have hstart : (⟨str ++ [0], 0⟩ : Parser).wsSkip = .between before.1 text := hskip []
  rw [hstart] at h
  cases hv : Parser.decodeValue maxDepth 0 (.between before.1 text) with
  | error e => simp only [hv, reduceCtorEq] at h
  | ok vp =>
    obtain ⟨c, rest, rfl, hstop, hfits⟩ :=
      Parser.decodeValue_sound (by rw [maxDepth]; omega) (Nat.zero_le _) hv
    rw [Parser.Fits, maxDepth] at hfits
    rw [Parser.decodeValue_render c _ _ before.1 hstop (by rw [maxDepth]; omega)
      (by rw [maxDepth]; omega)] at hv
    cases hv
    obtain ⟨after, rest', rfl, -, hskip'⟩ := Parser.wsSkip_split rest
    have hzero : rest'.headD 0 = 0 := by
      by_contra hne
      simp only [Parser.decodeValue_render c maxDepth 0 before.1 hstop
        (by rw [maxDepth]; omega) (by rw [maxDepth]; omega), hskip', Parser.between_cur, ne_eq, hne,
        not_false_eq_true, if_true, reduceCtorEq] at h
    cases rest' with
    | nil =>
      -- the terminating zero is in the buffer, and not in the text
      have hmem : (0 : UInt8) ∈ str ++ [0] := by simp
      rw [hstr] at hmem
      exact absurd hmem (by simpa [Padded.render] using Padded.render_no_zero ⟨before, c, after⟩)
    | cons b tail =>
      rw [List.headD_cons] at hzero
      subst hzero
      have hnest : c.nest ≤ 5000 := by omega
      exact ⟨⟨before, c, after⟩, tail, by rw [hstr]; simp [Padded.render], hnest⟩

/-- The bounds of the model's loops never end a parse. -/
theorem load_enough (str : Bytes) : load str ≠ .error .fuel := by
  obtain ⟨before, text, -, -, hskip⟩ := Parser.wsSkip_split (str ++ [0])
  have hstart : (⟨str ++ [0], 0⟩ : Parser).wsSkip = .between before.1 text := hskip []
  have henough := Parser.decodeValue_enough maxDepth 0 (by rw [maxDepth]; omega)
    (Nat.zero_le _) before.1 text
  rw [load, Parser.parse, hstart]
  cases hv : Parser.decodeValue maxDepth 0 (.between before.1 text) with
  | error e =>
    rintro ⟨⟩
    exact henough hv
  | ok vp =>
    obtain ⟨v, p⟩ := vp
    simp only
    split_ifs <;> simp

end TypegoSdk.Crow
