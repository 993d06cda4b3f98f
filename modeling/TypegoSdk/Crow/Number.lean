import TypegoSdk.Lib.Buffer

/-!
# Numbers (include/crow/json.h)

`decode_number` runs an automaton whose transitions are strings of octal
escapes, one per class of characters, indexed by the state. Behind a digit other
than zero it skips the digits that follow without a look at the state. The
automaton is compared with a grammar, and the loop with the automaton: a number
ends at the first byte that is in none of the classes.
-/

namespace TypegoSdk.Crow
open TypegoSdk.Lib

/-! ### The automaton -/

inductive NumberState where
  | minus
  | afterMinus
  | zeroFirst
  | digits
  | digitsAfterPoints
  | e
  | digitsAfterE
  | invalid
  deriving DecidableEq

namespace NumberState

def index : NumberState → ℕ
  | minus => 0
  | afterMinus => 1
  | zeroFirst => 2
  | digits => 3
  | digitsAfterPoints => 4
  | e => 5
  | digitsAfterE => 6
  | invalid => 7

def ofIndex : ℕ → NumberState
  | 0 => minus
  | 1 => afterMinus
  | 2 => zeroFirst
  | 3 => digits
  | 4 => digitsAfterPoints
  | 5 => e
  | 6 => digitsAfterE
  | _ => invalid

/- The states in which the default case of the switch returns a number. -/
def accepting : NumberState → Bool
  | zeroFirst => true
  | digits => true
  | digitsAfterPoints => true
  | digitsAfterE => true
  | _ => false

end NumberState

/-- The cases of the switch. -/
inductive Kind where
  | zero
  | positive
  | point
  | minus
  | plus
  | e
  | other
  deriving DecidableEq

def isDigit (c : UInt8) : Bool := '0'.toUInt8 ≤ c && c ≤ '9'.toUInt8

def kind (c : UInt8) : Kind :=
  if c = '0'.toUInt8 then .zero
  else if isDigit c then .positive
  else if c = '.'.toUInt8 then .point
  else if c = '-'.toUInt8 then .minus
  else if c = '+'.toUInt8 then .plus
  else if c = 'e'.toUInt8 ∨ c = 'E'.toUInt8 then .e
  else .other

/- The strings of the source. -/
def Kind.row : Kind → Option (List ℕ)
  | zero => some [2, 2, 7, 3, 4, 6, 6]
  | positive => some [3, 3, 7, 3, 4, 6, 6]
  | point => some [7, 7, 4, 4, 7, 7, 7]
  | minus => some [1, 7, 7, 7, 7, 6, 7]
  | plus => some [7, 7, 7, 7, 7, 6, 7]
  | e => some [7, 7, 7, 5, 5, 7, 7]
  | other => none

def NumberState.next (state : NumberState) (k : Kind) : Option NumberState :=
  k.row.map fun r => .ofIndex (r.getD state.index 7)

/-- The loop of `decode_number`: the number of bytes up to the one it returns at.
`skip` is the inner loop over the digits behind a digit other than zero. -/
def numberLoop : Bool → NumberState → Bytes → Option ℕ
  | _, state, [] => if state.accepting then some 0 else none
  | skip, state, c :: rest =>
    if state = .invalid then none
    else if skip && isDigit c then (numberLoop true state rest).map (· + 1)
    else
      match state.next (kind c) with
      | some state => (numberLoop (kind c == .positive) state rest).map (· + 1)
      | none => if state.accepting then some 0 else none

/-- The automaton reads all of a text and accepts. -/
def accepts : NumberState → Bytes → Bool
  | state, [] => state.accepting
  | state, c :: rest =>
    match state.next (kind c) with
    | some state => accepts state rest
    | none => false

/-! ### The grammar -/

abbrev Digits := { ds : Bytes // ds.all isDigit = true }

def isPositive (c : UInt8) : Bool := kind c == .positive

/- A sign may stand alone. -/
inductive Exponent where
  | unsigned (letter d : UInt8) (hl : kind letter = .e) (hd : isDigit d = true) (ds : Digits)
  | signed (letter sign : UInt8) (hl : kind letter = .e)
      (hs : kind sign = .plus ∨ kind sign = .minus) (ds : Digits)

/-- The texts of numbers without a sign. An exponent needs a point or a first digit
other than zero, and the digits behind a point may be missing. -/
inductive Unsigned where
  | zero
  | fraction (ds : Digits) (exp : Option Exponent)
  | whole (d : UInt8) (h : isPositive d = true) (ds : Digits) (exp : Option Exponent)
  | decimal (d : UInt8) (h : isPositive d = true) (ds frac : Digits) (exp : Option Exponent)

structure Numeral where
  negative : Bool
  magnitude : Unsigned

def Exponent.render : Exponent → Bytes
  | unsigned letter d _ _ ds => letter :: d :: ds.1
  | signed letter sign _ _ ds => letter :: sign :: ds.1

def renderExponent : Option Exponent → Bytes
  | none => []
  | some exp => exp.render

def Unsigned.render : Unsigned → Bytes
  | zero => ['0'.toUInt8]
  | fraction ds exp => '0'.toUInt8 :: '.'.toUInt8 :: (ds.1 ++ renderExponent exp)
  | whole d _ ds exp => d :: (ds.1 ++ renderExponent exp)
  | decimal d _ ds frac exp => d :: (ds.1 ++ '.'.toUInt8 :: (frac.1 ++ renderExponent exp))

def Numeral.render (n : Numeral) : Bytes :=
  (if n.negative then ['-'.toUInt8] else []) ++ n.magnitude.render

/-! ### Classes -/

theorem kind_zero_iff {c : UInt8} : kind c = .zero ↔ c = '0'.toUInt8 := by
  simp only [kind]
  split_ifs with h1 h2 h3 h4 h5 h6 <;> simp_all

theorem kind_point_iff {c : UInt8} : kind c = .point ↔ c = '.'.toUInt8 := by
  refine ⟨fun h => ?_, fun h => h ▸ by decide⟩
  simp only [kind] at h
  split_ifs at h with h1 h2 h3
  exact h3

theorem kind_minus_iff {c : UInt8} : kind c = .minus ↔ c = '-'.toUInt8 := by
  refine ⟨fun h => ?_, fun h => h ▸ by decide⟩
  simp only [kind] at h
  split_ifs at h with h1 h2 h3 h4
  exact h4

theorem isDigit_iff {c : UInt8} : isDigit c = true ↔ kind c = .zero ∨ kind c = .positive := by
  by_cases h0 : c = '0'.toUInt8
  · subst h0
    decide
  · simp only [kind, if_neg h0]
    split_ifs with h2 h3 h4 h5 h6 <;> simp [h2]

theorem isPositive_iff {c : UInt8} : isPositive c = true ↔ kind c = .positive := by
  simp [isPositive]

/-! ### The loop is the automaton -/

/- States that a digit does not change. -/
theorem next_digit {state : NumberState} {c : UInt8} (h : isDigit c = true)
    (hs : state = .digits ∨ state = .digitsAfterPoints ∨ state = .digitsAfterE) :
    state.next (kind c) = some state := by
  rcases isDigit_iff.mp h with hk | hk <;> rcases hs with rfl | rfl | rfl <;> rw [hk] <;> rfl

/- Where a digit other than zero leads. -/
theorem next_positive {state state' : NumberState} (h : state.next .positive = some state') :
    state' = .digits ∨ state' = .digitsAfterPoints ∨ state' = .digitsAfterE ∨
      state' = .invalid := by
  cases state <;> cases h <;> decide

theorem numberLoop_invalid (skip : Bool) (text : Bytes) :
    numberLoop skip .invalid text = none := by
  cases text with
  | nil => rfl
  | cons c rest => rfl

theorem numberLoop_step {skip : Bool} {state : NumberState} {c : UInt8} (hi : state ≠ .invalid)
    (h : (skip && isDigit c) = false) (rest : Bytes) :
    numberLoop skip state (c :: rest) =
      match state.next (kind c) with
      | some state => (numberLoop (kind c == .positive) state rest).map (· + 1)
      | none => if state.accepting then some 0 else none := by
  rw [numberLoop, if_neg hi, if_neg (by simp [h])]

/-- Skipping digits leads where the automaton would have led. -/
theorem numberLoop_skip {state : NumberState} (text : Bytes)
    (hs : state = .digits ∨ state = .digitsAfterPoints ∨ state = .digitsAfterE ∨
      state = .invalid) : numberLoop true state text = numberLoop false state text := by
  by_cases hi : state = .invalid
  · rw [hi, numberLoop_invalid, numberLoop_invalid]
  have hkeep : state = .digits ∨ state = .digitsAfterPoints ∨ state = .digitsAfterE := by tauto
  induction text with
  | nil => rfl
  | cons c rest ih =>
    by_cases hd : isDigit c = true
    · rw [numberLoop, if_neg hi, if_pos (by simp [hd]), numberLoop_step hi (by simp),
        next_digit hd hkeep]
      cases hk : kind c == .positive with
      | false => simp only [ih]
      | true => rfl
    · rw [numberLoop_step hi (by simpa using hd), numberLoop_step hi (by simp)]

theorem numberLoop_next {state state' : NumberState} {c : UInt8} (hi : state ≠ .invalid)
    (h : state.next (kind c) = some state') (rest : Bytes) :
    numberLoop false state (c :: rest) = (numberLoop false state' rest).map (· + 1) := by
  rw [numberLoop_step hi (by simp), h]
  cases hk : kind c == .positive with
  | false => rfl
  | true =>
    have hp : kind c = .positive := by simpa using hk
    rw [hp] at h
    simp only [numberLoop_skip rest (next_positive h)]

theorem numberLoop_other {state : NumberState} {text : Bytes} (h : kind (text.headD 0) = .other) :
    numberLoop false state text = if state.accepting then some 0 else none := by
  cases text with
  | nil => rfl
  | cons c rest =>
    by_cases hi : state = .invalid
    · rw [hi]
      rfl
    · rw [List.headD_cons] at h
      rw [numberLoop_step hi (by simp), h]
      rfl

theorem accepts_invalid (text : Bytes) : accepts .invalid text = false := by
  induction text with
  | nil => rfl
  | cons c rest ih =>
    rw [accepts]
    cases kind c with
    | other => rfl
    | _ => exact ih

theorem numberLoop_accepts {state : NumberState} {text rest : Bytes}
    (h : accepts state text = true) (hrest : kind (rest.headD 0) = .other) :
    numberLoop false state (text ++ rest) = some text.length := by
  induction text generalizing state with
  | nil =>
    rw [accepts] at h
    rw [List.nil_append, numberLoop_other hrest, if_pos h, List.length_nil]
  | cons c text ih =>
    have hi : state ≠ .invalid := by
      rintro rfl
      rw [accepts_invalid] at h
      exact absurd h (by simp)
    rw [accepts] at h
    cases hn : state.next (kind c) with
    | none => rw [hn] at h; exact absurd h (by simp)
    | some state' =>
      rw [hn] at h
      rw [List.cons_append, numberLoop_next hi hn, ih h, Option.map_some, List.length_cons]

theorem numberLoop_sound {state : NumberState} {text : Bytes} {n : ℕ}
    (h : numberLoop false state text = some n) :
    ∃ t rest, text = t ++ rest ∧ accepts state t = true ∧ kind (rest.headD 0) = .other := by
  induction text generalizing state n with
  | nil =>
    rw [numberLoop_other rfl] at h
    split at h
    · next ha => exact ⟨[], [], rfl, ha, rfl⟩
    · simp at h
  | cons c text ih =>
    by_cases hi : state = .invalid
    · rw [hi, numberLoop_invalid] at h
      simp at h
    cases hn : state.next (kind c) with
    | none =>
      have hk : kind c = .other := by
        cases hc : kind c with
        | other => rfl
        | _ => rw [hc] at hn; simp [NumberState.next, Kind.row] at hn
      rw [numberLoop_other (by simpa using hk)] at h
      split at h
      · next ha => exact ⟨[], c :: text, rfl, ha, hk⟩
      · simp at h
    | some state' =>
      rw [numberLoop_next hi hn, Option.map_eq_some_iff] at h
      obtain ⟨m, hm, -⟩ := h
      obtain ⟨t, rest, rfl, ha, hrest⟩ := ih hm
      refine ⟨c :: t, rest, rfl, ?_, hrest⟩
      rw [accepts, hn]
      exact ha

/-! ### The language of each state -/

/- What a transition can be. -/
theorem next_cases {state state' : NumberState} {k : Kind} (h : state.next k = some state')
    (hv : state' ≠ .invalid) :
    (state = .minus ∧ k = .minus ∧ state' = .afterMinus) ∨
    ((state = .minus ∨ state = .afterMinus) ∧ k = .zero ∧ state' = .zeroFirst) ∨
    ((state = .minus ∨ state = .afterMinus) ∧ k = .positive ∧ state' = .digits) ∨
    ((state = .digits ∨ state = .digitsAfterPoints ∨ state = .digitsAfterE) ∧
      (k = .zero ∨ k = .positive) ∧ state' = state) ∨
    ((state = .zeroFirst ∨ state = .digits) ∧ k = .point ∧ state' = .digitsAfterPoints) ∨
    ((state = .digits ∨ state = .digitsAfterPoints) ∧ k = .e ∧ state' = .e) ∨
    (state = .e ∧ (k = .zero ∨ k = .positive ∨ k = .plus ∨ k = .minus) ∧
      state' = .digitsAfterE) := by
  cases state <;> cases k <;> cases h <;> first | exact absurd rfl hv | simp [NumberState.ofIndex,
    NumberState.index]

theorem accepts_cons {state : NumberState} {c : UInt8} {t : Bytes}
    (h : accepts state (c :: t) = true) :
    ∃ state', state.next (kind c) = some state' ∧ state' ≠ .invalid ∧ accepts state' t = true := by
  rw [accepts] at h
  cases hn : state.next (kind c) with
  | none => rw [hn] at h; exact absurd h (by simp)
  | some state' =>
    have ht : accepts state' t = true := by rwa [hn] at h
    refine ⟨state', rfl, ?_, ht⟩
    rintro rfl
    rw [accepts_invalid] at ht
    exact absurd ht (by simp)

theorem accepts_of_next {state s : NumberState} {c : UInt8} {t : Bytes}
    (hn : state.next (kind c) = some s) : accepts state (c :: t) = accepts s t := by
  rw [accepts, hn]

/- Digits are read without a change of state. -/
theorem accepts_digits (ds : Digits) {s : NumberState} (t : Bytes)
    (hs : s = .digits ∨ s = .digitsAfterPoints ∨ s = .digitsAfterE) :
    accepts s (ds.1 ++ t) = accepts s t := by
  obtain ⟨ds, hds⟩ := ds
  induction ds with
  | nil => rfl
  | cons d ds ih =>
    simp only [List.all_cons, Bool.and_eq_true] at hds
    rw [List.cons_append, accepts_of_next (next_digit hds.1 hs)]
    exact ih hds.2

/- A state that digits do not change reads some, and then something else. -/
theorem accepts_split {state : NumberState} {t : Bytes}
    (hs : state = .digits ∨ state = .digitsAfterPoints ∨ state = .digitsAfterE)
    (h : accepts state t = true) :
    ∃ (ds : Digits) (rest : Bytes), t = ds.1 ++ rest ∧ accepts state rest = true ∧
      isDigit (rest.headD 0) = false := by
  induction t with
  | nil => exact ⟨⟨[], rfl⟩, [], rfl, h, by decide⟩
  | cons c t ih =>
    cases hd : isDigit c with
    | false => exact ⟨⟨[], rfl⟩, c :: t, rfl, h, hd⟩
    | true =>
      rw [accepts_of_next (next_digit hd hs)] at h
      obtain ⟨ds, rest, rfl, hrest, hhead⟩ := ih h
      exact ⟨⟨c :: ds.1, by simp [hd, ds.2]⟩, rest, rfl, hrest, hhead⟩

theorem accepts_digitsAfterE {t : Bytes} :
    accepts .digitsAfterE t = true ↔ t.all isDigit = true := by
  refine ⟨fun h => ?_, fun h => ?_⟩
  · obtain ⟨ds, rest, rfl, hrest, hhead⟩ := accepts_split (by simp) h
    cases rest with
    | nil => simpa using ds.2
    | cons c rest =>
      obtain ⟨state', hn, hv, -⟩ := accepts_cons hrest
      obtain ⟨hk, -⟩ : (kind c = .zero ∨ kind c = .positive) ∧ state' = .digitsAfterE := by
        simpa using next_cases hn hv
      rw [List.headD_cons, isDigit_iff.mpr hk] at hhead
      simp at hhead
  · have hread := accepts_digits ⟨t, h⟩ (s := .digitsAfterE) [] (by simp)
    rw [List.append_nil] at hread
    exact hread

theorem exponent_of_accepts {letter : UInt8} {t : Bytes} (hl : kind letter = .e)
    (h : accepts .e t = true) : ∃ exp : Exponent, letter :: t = exp.render := by
  cases t with
  | nil => simp [accepts, NumberState.accepting] at h
  | cons c t =>
    obtain ⟨state', hn, hv, ht⟩ := accepts_cons h
    obtain ⟨hk, rfl⟩ : (kind c = .zero ∨ kind c = .positive ∨ kind c = .plus ∨ kind c = .minus) ∧
        state' = .digitsAfterE := by simpa using next_cases hn hv
    have hds := accepts_digitsAfterE.mp ht
    by_cases hd : isDigit c = true
    · exact ⟨.unsigned letter c hl hd ⟨t, hds⟩, rfl⟩
    · have hsign : kind c = .plus ∨ kind c = .minus := by
        rw [isDigit_iff] at hd
        tauto
      exact ⟨.signed letter c hl hsign ⟨t, hds⟩, rfl⟩

theorem accepts_exponent (exp : Option Exponent) {state : NumberState}
    (hs : state = .digits ∨ state = .digitsAfterPoints) :
    accepts state (renderExponent exp) = true := by
  cases exp with
  | none => rcases hs with rfl | rfl <;> rfl
  | some exp =>
    have hletter : ∀ k : UInt8, kind k = .e → state.next (kind k) = some .e := by
      intro k hk
      rcases hs with rfl | rfl <;> rw [hk] <;> rfl
    cases exp with
    | unsigned letter d hl hd ds =>
      have hn : NumberState.next .e (kind d) = some .digitsAfterE := by
        rcases isDigit_iff.mp hd with hk | hk <;> rw [hk] <;> rfl
      rw [renderExponent, Exponent.render, accepts_of_next (hletter letter hl),
        accepts_of_next hn, accepts_digitsAfterE.mpr ds.2]
    | signed letter sign hl hsign ds =>
      have hn : NumberState.next .e (kind sign) = some .digitsAfterE := by
        rcases hsign with hk | hk <;> rw [hk] <;> rfl
      rw [renderExponent, Exponent.render, accepts_of_next (hletter letter hl),
        accepts_of_next hn, accepts_digitsAfterE.mpr ds.2]

/- Behind a point: digits, and an exponent. -/
theorem accepts_digitsAfterPoints {t : Bytes} :
    accepts .digitsAfterPoints t = true ↔
      ∃ (ds : Digits) (exp : Option Exponent), t = ds.1 ++ renderExponent exp := by
  refine ⟨fun h => ?_, ?_⟩
  · obtain ⟨ds, rest, rfl, hrest, hhead⟩ := accepts_split (by simp) h
    cases rest with
    | nil => exact ⟨ds, none, rfl⟩
    | cons c rest =>
      obtain ⟨state', hn, hv, ht⟩ := accepts_cons hrest
      rw [List.headD_cons] at hhead
      have hd : ¬(kind c = .zero ∨ kind c = .positive) := by
        rw [← isDigit_iff, hhead]
        simp
      obtain ⟨hk, rfl⟩ : kind c = .e ∧ state' = .e := by simpa [hd] using next_cases hn hv
      obtain ⟨exp, hexp⟩ := exponent_of_accepts hk ht
      exact ⟨ds, some exp, by rw [hexp]; rfl⟩
  · rintro ⟨ds, exp, rfl⟩
    rw [accepts_digits ds _ (by simp), accepts_exponent exp (by simp)]

/- Behind the first digit of a number that does not begin with zero. -/
theorem accepts_digitsFirst {t : Bytes} :
    accepts .digits t = true ↔
      (∃ (ds : Digits) (exp : Option Exponent), t = ds.1 ++ renderExponent exp) ∨
      ∃ (ds frac : Digits) (exp : Option Exponent),
        t = ds.1 ++ '.'.toUInt8 :: (frac.1 ++ renderExponent exp) := by
  refine ⟨fun h => ?_, ?_⟩
  · obtain ⟨ds, rest, rfl, hrest, hhead⟩ := accepts_split (by simp) h
    cases rest with
    | nil => exact .inl ⟨ds, none, rfl⟩
    | cons c rest =>
      obtain ⟨state', hn, hv, ht⟩ := accepts_cons hrest
      rw [List.headD_cons] at hhead
      have hd : ¬(kind c = .zero ∨ kind c = .positive) := by
        rw [← isDigit_iff, hhead]
        simp
      have hcases : (kind c = .point ∧ state' = .digitsAfterPoints) ∨
          (kind c = .e ∧ state' = .e) := by simpa [hd] using next_cases hn hv
      rcases hcases with ⟨hk, rfl⟩ | ⟨hk, rfl⟩
      · obtain ⟨frac, exp, rfl⟩ := accepts_digitsAfterPoints.mp ht
        exact .inr ⟨ds, frac, exp, by rw [kind_point_iff.mp hk]⟩
      · obtain ⟨exp, hexp⟩ := exponent_of_accepts hk ht
        exact .inl ⟨ds, some exp, by rw [hexp]; rfl⟩
  · rintro (⟨ds, exp, rfl⟩ | ⟨ds, frac, exp, rfl⟩)
    · rw [accepts_digits ds _ (by simp), accepts_exponent exp (by simp)]
    · rw [accepts_digits ds _ (by simp),
        accepts_of_next (s := .digitsAfterPoints) (by decide),
        accepts_digitsAfterPoints.mpr ⟨frac, exp, rfl⟩]

theorem accepts_zeroFirst {t : Bytes} :
    accepts .zeroFirst t = true ↔
      t = [] ∨ ∃ (frac : Digits) (exp : Option Exponent),
        t = '.'.toUInt8 :: (frac.1 ++ renderExponent exp) := by
  refine ⟨fun h => ?_, ?_⟩
  · cases t with
    | nil => exact .inl rfl
    | cons c t =>
      obtain ⟨state', hn, hv, ht⟩ := accepts_cons h
      obtain ⟨hk, rfl⟩ : kind c = .point ∧ state' = .digitsAfterPoints := by
        simpa using next_cases hn hv
      obtain ⟨frac, exp, rfl⟩ := accepts_digitsAfterPoints.mp ht
      exact .inr ⟨frac, exp, by rw [kind_point_iff.mp hk]⟩
  · rintro (rfl | ⟨frac, exp, rfl⟩)
    · rfl
    · rw [accepts_of_next (s := .digitsAfterPoints) (by decide),
        accepts_digitsAfterPoints.mpr ⟨frac, exp, rfl⟩]

theorem accepts_afterMinus {t : Bytes} :
    accepts .afterMinus t = true ↔ ∃ u : Unsigned, t = u.render := by
  refine ⟨fun h => ?_, ?_⟩
  · cases t with
    | nil => simp [accepts, NumberState.accepting] at h
    | cons c t =>
      obtain ⟨state', hn, hv, ht⟩ := accepts_cons h
      have hcases : (kind c = .zero ∧ state' = .zeroFirst) ∨
          (kind c = .positive ∧ state' = .digits) := by simpa using next_cases hn hv
      rcases hcases with ⟨hk, rfl⟩ | ⟨hk, rfl⟩
      · rw [kind_zero_iff.mp hk]
        rcases accepts_zeroFirst.mp ht with rfl | ⟨frac, exp, rfl⟩
        · exact ⟨.zero, rfl⟩
        · exact ⟨.fraction frac exp, rfl⟩
      · rcases accepts_digitsFirst.mp ht with ⟨ds, exp, rfl⟩ | ⟨ds, frac, exp, rfl⟩
        · exact ⟨.whole c (isPositive_iff.mpr hk) ds exp, rfl⟩
        · exact ⟨.decimal c (isPositive_iff.mpr hk) ds frac exp, rfl⟩
  · rintro ⟨u, rfl⟩
    have hpos : ∀ d, isPositive d = true → NumberState.next .afterMinus (kind d) = some .digits := by
      intro d hd
      rw [isPositive_iff.mp hd]
      rfl
    cases u with
    | zero => rfl
    | fraction ds exp =>
      rw [Unsigned.render, accepts_of_next (s := .zeroFirst) (by decide)]
      exact accepts_zeroFirst.mpr (.inr ⟨ds, exp, rfl⟩)
    | whole d h ds exp =>
      rw [Unsigned.render, accepts_of_next (hpos d h)]
      exact accepts_digitsFirst.mpr (.inl ⟨ds, exp, rfl⟩)
    | decimal d h ds frac exp =>
      rw [Unsigned.render, accepts_of_next (hpos d h)]
      exact accepts_digitsFirst.mpr (.inr ⟨ds, frac, exp, rfl⟩)

/- Without a sign the first state is the one behind the sign. -/
theorem accepts_minus {t : Bytes} (h : kind (t.headD 0) ≠ .minus) :
    accepts .minus t = accepts .afterMinus t := by
  cases t with
  | nil => rfl
  | cons c t =>
    have hnext : NumberState.next .minus (kind c) = NumberState.next .afterMinus (kind c) := by
      rw [List.headD_cons] at h
      cases hk : kind c with
      | minus => exact absurd hk h
      | _ => rfl
    rw [accepts, accepts, hnext]

theorem Unsigned.render_head (u : Unsigned) : isDigit (u.render.headD 0) = true := by
  cases u with
  | zero => decide
  | fraction ds exp => exact isDigit_iff.mpr (.inl (kind_zero_iff.mpr rfl))
  | whole d h ds exp => exact isDigit_iff.mpr (.inr (isPositive_iff.mp h))
  | decimal d h ds frac exp => exact isDigit_iff.mpr (.inr (isPositive_iff.mp h))

/-- The automaton accepts the numerals, and nothing else. -/
theorem accepts_iff {t : Bytes} : accepts .minus t = true ↔ ∃ n : Numeral, t = n.render := by
  refine ⟨fun h => ?_, ?_⟩
  · by_cases hk : kind (t.headD 0) = .minus
    · cases t with
      | nil => exact absurd hk (by decide)
      | cons c t =>
        rw [List.headD_cons] at hk
        rw [accepts_of_next (s := .afterMinus) (by rw [hk]; rfl)] at h
        obtain ⟨u, rfl⟩ := accepts_afterMinus.mp h
        exact ⟨⟨true, u⟩, by rw [kind_minus_iff.mp hk]; rfl⟩
    · rw [accepts_minus hk] at h
      obtain ⟨u, rfl⟩ := accepts_afterMinus.mp h
      exact ⟨⟨false, u⟩, rfl⟩
  · rintro ⟨⟨negative, u⟩, rfl⟩
    have hu := accepts_afterMinus.mpr ⟨u, rfl⟩
    cases negative with
    | true =>
      rw [Numeral.render, if_pos rfl, List.singleton_append,
        accepts_of_next (s := .afterMinus) (by decide), hu]
    | false =>
      have hk : kind (u.render.headD 0) ≠ .minus := by
        rcases isDigit_iff.mp u.render_head with h | h <;> rw [h] <;> decide
      rw [Numeral.render, if_neg (by simp), List.nil_append, accepts_minus hk, hu]

/-! ### The loop reads a numeral -/

/- A numeral is read up to a byte of no class. -/
theorem numberLoop_render (n : Numeral) {rest : Bytes} (hrest : kind (rest.headD 0) = .other) :
    numberLoop false .minus (n.render ++ rest) = some n.render.length :=
  numberLoop_accepts (accepts_iff.mpr ⟨n, rfl⟩) hrest

theorem numeral_of_numberLoop {text : Bytes} {k : ℕ}
    (h : numberLoop false .minus text = some k) :
    ∃ (n : Numeral) (rest : Bytes), text = n.render ++ rest ∧ kind (rest.headD 0) = .other := by
  obtain ⟨t, rest, rfl, ht, hrest⟩ := numberLoop_sound h
  obtain ⟨n, rfl⟩ := accepts_iff.mp ht
  exact ⟨n, rest, rfl, hrest⟩

end TypegoSdk.Crow
