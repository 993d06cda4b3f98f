import TypegoSdk.Crow.Number
import Mathlib.Data.List.DropRight
import Mathlib.Data.Rat.Defs
import Mathlib.Algebra.Order.Field.Rat
import Mathlib.Tactic.Ring
import Mathlib.Tactic.FieldSimp

/-!
# Trailing zeros of a printed number (include/crow/json.h)

`dump_internal` prints a number with a point and then cuts the zeros at the end of
the text, all but the one right behind the point. The automaton looks for the end
of the text and not for the end of the digits behind the point, so the zeros at the
end of an exponent are cut as well.
-/

namespace TypegoSdk.Crow
open TypegoSdk.Lib

/-! ### The loop over `outbuf` -/

inductive TrimState where
  | start
  | decp
  | zero

/-- `p` is the position of the next byte and `pos` is `pos_first_trailing_0`. A zero
right behind the point is passed over. -/
def trimLoop : Bool → TrimState → ℕ → Option ℕ → Bytes → Option ℕ
  | _, _, _, pos, [] => pos
  | true, state, p, pos, _ :: rest => trimLoop false state (p + 1) pos rest
  | false, .start, p, pos, ch :: rest =>
    if ch = '.'.toUInt8 then trimLoop (rest.head? == some '0'.toUInt8) .decp (p + 1) pos rest
    else trimLoop false .start (p + 1) pos rest
  | false, .decp, p, pos, ch :: rest =>
    if ch = '0'.toUInt8 then trimLoop false .zero (p + 1) (some p) rest
    else trimLoop false .decp (p + 1) pos rest
  | false, .zero, p, pos, ch :: rest =>
    if ch ≠ '0'.toUInt8 then trimLoop false .decp (p + 1) none rest
    else trimLoop false .zero (p + 1) pos rest

def trim (text : Bytes) : Bytes :=
  match trimLoop false .start 0 none text with
  | none => text
  | some pos => text.take pos

/-! ### What is cut -/

def isZero (c : UInt8) : Bool := c == '0'.toUInt8

def dropZeros (l : Bytes) : Bytes := l.rdropWhile isZero

theorem dropZeros_append {c : UInt8} (hc : isZero c = false) (a b : Bytes) :
    dropZeros (a ++ c :: b) = a ++ c :: dropZeros b := by
  rw [dropZeros, List.rdropWhile, List.reverse_append, List.reverse_cons, List.append_assoc,
    List.singleton_append, List.dropWhile_append]
  cases h : (b.reverse.dropWhile isZero).isEmpty with
  | true =>
    rw [List.isEmpty_iff] at h
    simp [dropZeros, List.rdropWhile, h, hc]
  | false => simp [dropZeros, List.rdropWhile]

theorem dropZeros_of_all {l : Bytes} (h : l.all isZero = true) : dropZeros l = [] := by
  rw [dropZeros, List.rdropWhile_eq_nil_iff]
  simpa using h

theorem dropZeros_zero_cons {l : Bytes} (h : l.all isZero = false) :
    dropZeros ('0'.toUInt8 :: l) = '0'.toUInt8 :: dropZeros l := by
  rw [List.all_eq_false] at h
  obtain ⟨c, hc, hz⟩ := h
  obtain ⟨a, b, rfl⟩ := List.append_of_mem hc
  rw [← List.cons_append, dropZeros_append (by simpa using hz), dropZeros_append (by simpa using hz)]
  rfl

theorem dropZeros_cons {c : UInt8} (hc : isZero c = false) (l : Bytes) :
    dropZeros (c :: l) = c :: dropZeros l :=
  dropZeros_append hc [] l

/- The zeros that are cut. -/
theorem dropZeros_split (l : Bytes) : ∃ k, l = dropZeros l ++ List.replicate k '0'.toUInt8 := by
  induction l using List.reverseRecOn with
  | nil => exact ⟨0, rfl⟩
  | append_singleton l c ih =>
    cases hc : isZero c with
    | true =>
      obtain ⟨k, hk⟩ := ih
      refine ⟨k + 1, ?_⟩
      rw [dropZeros, List.rdropWhile_concat, if_pos hc, List.replicate_succ', ← List.append_assoc]
      rw [dropZeros] at hk
      rw [← hk, LawfulBEq.eq_of_beq hc]
    | false =>
      refine ⟨0, ?_⟩
      rw [dropZeros, List.rdropWhile_concat, if_neg (by simp [hc])]
      simp

/- Where a text is cut that begins at `p`. -/
def cutAt (p : ℕ) (l : Bytes) : Option ℕ :=
  if dropZeros l = l then none else some (p + (dropZeros l).length)

theorem cutAt_cons {c : UInt8} (hc : isZero c = false) (p : ℕ) (l : Bytes) :
    cutAt p (c :: l) = cutAt (p + 1) l := by
  simp only [cutAt, dropZeros_cons hc, List.cons.injEq, true_and, List.length_cons]
  rw [Nat.add_right_comm p 1, Nat.add_assoc]

theorem cutAt_zero_cons (p : ℕ) (l : Bytes) :
    cutAt p ('0'.toUInt8 :: l) = if l.all isZero = true then some p else cutAt (p + 1) l := by
  split_ifs with h
  · have hall : ('0'.toUInt8 :: l).all isZero = true := by simpa [isZero] using h
    simp [cutAt, dropZeros_of_all hall]
  · simp only [cutAt, dropZeros_zero_cons (Bool.eq_false_iff.mpr h), List.cons.injEq, true_and,
      List.length_cons]
    rw [Nat.add_right_comm p 1, Nat.add_assoc]

/- Behind the point: with no zero pending, and with zeros pending since `q`. -/
theorem trimLoop_cutAt (l : Bytes) :
    (∀ p, trimLoop false .decp p none l = cutAt p l) ∧
    ∀ p q, trimLoop false .zero p (some q) l =
      if l.all isZero = true then some q else cutAt p l := by
  induction l with
  | nil =>
    refine ⟨fun p => ?_, fun p q => rfl⟩
    simp [trimLoop, cutAt, dropZeros]
  | cons c l ih =>
    obtain ⟨hdecp, hzero⟩ := ih
    by_cases hc : c = '0'.toUInt8
    · subst hc
      refine ⟨fun p => ?_, fun p q => ?_⟩
      · rw [trimLoop, if_pos rfl, hzero, cutAt_zero_cons]
      · have hall : ('0'.toUInt8 :: l).all isZero = l.all isZero := rfl
        rw [trimLoop, if_neg (by simp), hzero, cutAt_zero_cons, hall]
        split_ifs <;> rfl
    · have hz : isZero c = false := by simpa [isZero] using hc
      refine ⟨fun p => ?_, fun p q => ?_⟩
      · rw [trimLoop, if_neg hc, hdecp, cutAt_cons hz]
      · rw [trimLoop, if_pos hc, hdecp, cutAt_cons hz, List.all_cons, hz]
        rfl

theorem trimLoop_start {l : Bytes} (hl : '.'.toUInt8 ∉ l) (p : ℕ) (rest : Bytes) :
    trimLoop false .start p none (l ++ rest) = trimLoop false .start (p + l.length) none rest := by
  induction l generalizing p with
  | nil => rfl
  | cons c l ih =>
    rw [List.mem_cons, not_or] at hl
    rw [List.cons_append, trimLoop, if_neg (Ne.symm hl.1), ih hl.2, List.length_cons]
    congr 1
    omega

/- The bytes behind the point that are kept. -/
def keep : Bytes → Bytes
  | [] => []
  | c :: l => if c = '0'.toUInt8 then c :: dropZeros l else dropZeros (c :: l)

theorem take_cutAt (pre l : Bytes) :
    (match cutAt pre.length l with
      | none => pre ++ l
      | some pos => (pre ++ l).take pos) = pre ++ dropZeros l := by
  by_cases h : dropZeros l = l
  · simp [cutAt, h]
  · obtain ⟨k, hk⟩ := dropZeros_split l
    have htake : l.take (dropZeros l).length = dropZeros l :=
      (congrArg (List.take (dropZeros l).length) hk).trans List.take_left
    simp only [cutAt, if_neg h, List.take_length_add_append, htake]

theorem trim_none {text : Bytes} (h : '.'.toUInt8 ∉ text) : trim text = text := by
  have hloop := trimLoop_start h 0 []
  rw [List.append_nil] at hloop
  rw [trim, hloop]
  rfl

theorem trim_point {lead : Bytes} (h : '.'.toUInt8 ∉ lead) (tail : Bytes) :
    trim (lead ++ '.'.toUInt8 :: tail) = lead ++ '.'.toUInt8 :: keep tail := by
  rw [trim, trimLoop_start h, trimLoop, if_pos rfl]
  cases tail with
  | nil => simp [trimLoop, keep]
  | cons c l =>
    by_cases hc : c = '0'.toUInt8
    · have hcut := take_cutAt (lead ++ ['.'.toUInt8, c]) l
      have hlen : 0 + lead.length + 1 + 1 = (lead ++ ['.'.toUInt8, c]).length := by simp
      have hskip : ((c :: l).head? == some '0'.toUInt8) = true := by simp [hc]
      rw [hskip, trimLoop, (trimLoop_cutAt l).1, keep, if_pos hc, hlen]
      simpa using hcut
    · have hcut := take_cutAt (lead ++ ['.'.toUInt8]) (c :: l)
      have hlen : 0 + lead.length + 1 = (lead ++ ['.'.toUInt8]).length := by simp
      have hskip : ((c :: l).head? == some '0'.toUInt8) = false := by simp [hc]
      rw [hskip, (trimLoop_cutAt (c :: l)).1, keep, if_neg hc, hlen]
      simpa using hcut

/-! ### The value of a text -/

def digitsValue (ds : Bytes) : ℕ := ds.foldl (fun n c => 10 * n + (c.toNat - 48)) 0

theorem digitsValue_append (a b : Bytes) :
    digitsValue (a ++ b) = digitsValue a * 10 ^ b.length + digitsValue b := by
  induction b using List.reverseRecOn with
  | nil => simp [digitsValue]
  | append_singleton b c ih =>
    have hsnoc : ∀ l, digitsValue (l ++ [c]) = 10 * digitsValue l + (c.toNat - 48) := by
      intro l
      simp [digitsValue]
    rw [← List.append_assoc, hsnoc, hsnoc, ih, List.length_append, List.length_singleton, pow_succ]
    ring

theorem digitsValue_zeros (k : ℕ) : digitsValue (List.replicate k '0'.toUInt8) = 0 := by
  induction k with
  | zero => rfl
  | succ k ih => rw [List.replicate_succ', digitsValue_append, ih]; rfl

theorem digitsValue_append_zeros (a : Bytes) (k : ℕ) :
    digitsValue (a ++ List.replicate k '0'.toUInt8) = digitsValue a * 10 ^ k := by
  rw [digitsValue_append, digitsValue_zeros, List.length_replicate, Nat.add_zero]

def Exponent.value : Exponent → ℤ
  | unsigned _ d _ _ ds => digitsValue (d :: ds.1)
  | signed _ sign _ _ ds => if kind sign = .minus then -digitsValue ds.1 else digitsValue ds.1

def exponentValue : Option Exponent → ℤ
  | none => 0
  | some exp => exp.value

namespace Unsigned

def lead : Unsigned → Bytes
  | zero => ['0'.toUInt8]
  | fraction _ _ => ['0'.toUInt8]
  | whole d _ ds _ => d :: ds.1
  | decimal d _ ds _ _ => d :: ds.1

def frac : Unsigned → Option Digits
  | zero => none
  | fraction ds _ => some ds
  | whole _ _ _ _ => none
  | decimal _ _ _ ds _ => some ds

def exponent : Unsigned → Option Exponent
  | zero => none
  | fraction _ exp => exp
  | whole _ _ _ exp => exp
  | decimal _ _ _ _ exp => exp

def fracDigits (u : Unsigned) : Bytes := (u.frac.map Subtype.val).getD []

def value (u : Unsigned) : ℚ :=
  digitsValue (u.lead ++ u.fracDigits) * ((10 : ℕ) : ℚ) ^ (exponentValue u.exponent - u.fracDigits.length)

end Unsigned

def Numeral.value (n : Numeral) : ℚ :=
  if n.negative then -n.magnitude.value else n.magnitude.value

/-! ### What becomes of the value -/

theorem point_not_digit {ds : Bytes} (h : ds.all isDigit = true) : '.'.toUInt8 ∉ ds := by
  intro hmem
  have hdot := List.all_eq_true.mp h _ hmem
  revert hdot
  decide

theorem point_not_exponent (exp : Option Exponent) : '.'.toUInt8 ∉ renderExponent exp := by
  have hkind : ∀ c : UInt8, kind c ≠ .point → '.'.toUInt8 ≠ c := by
    rintro c hc rfl
    exact hc (by decide)
  cases exp with
  | none => simp [renderExponent]
  | some exp =>
    cases exp with
    | unsigned letter d hl hd ds =>
      have hdigits : (d :: ds.1).all isDigit = true := by simpa [hd] using ds.2
      rw [renderExponent, Exponent.render, List.mem_cons, not_or]
      exact ⟨hkind letter (by rw [hl]; decide), point_not_digit hdigits⟩
    | signed letter sign hl hs ds =>
      rw [renderExponent, Exponent.render, List.mem_cons, List.mem_cons, not_or, not_or]
      refine ⟨hkind letter (by rw [hl]; decide), hkind sign ?_, point_not_digit ds.2⟩
      rcases hs with hs | hs <;> rw [hs] <;> decide

theorem keep_append {c : UInt8} (hc : isZero c = false) (a b : Bytes) :
    keep (a ++ c :: b) = a ++ c :: dropZeros b := by
  cases a with
  | nil =>
    have hne : c ≠ '0'.toUInt8 := by simpa [isZero] using hc
    rw [List.nil_append, keep, if_neg hne, dropZeros_cons hc]
    rfl
  | cons x a =>
    rw [List.cons_append, keep, ← List.cons_append, dropZeros_append hc, dropZeros_append hc]
    split_ifs <;> rfl

theorem keep_split (l : Bytes) : ∃ k, l = keep l ++ List.replicate k '0'.toUInt8 := by
  cases l with
  | nil => exact ⟨0, rfl⟩
  | cons c l =>
    rw [keep]
    split_ifs with hc
    · obtain ⟨k, hk⟩ := dropZeros_split l
      exact ⟨k, congrArg (c :: ·) hk⟩
    · exact dropZeros_split (c :: l)

theorem all_of_split {l m : Bytes} {k : ℕ} (h : l = m ++ List.replicate k '0'.toUInt8)
    (hl : l.all isDigit = true) : m.all isDigit = true := by
  rw [h, List.all_append, Bool.and_eq_true] at hl
  exact hl.1

namespace Digits

def keep (ds : Digits) : Digits :=
  ⟨Crow.keep ds.1, have ⟨_, hk⟩ := keep_split ds.1; all_of_split hk ds.2⟩

def dropZeros (ds : Digits) : Digits :=
  ⟨Crow.dropZeros ds.1, have ⟨_, hk⟩ := dropZeros_split ds.1; all_of_split hk ds.2⟩

end Digits

/- A last digit other than zero. -/
theorem not_dvd_of_last {l : Bytes} {c : UInt8} (hd : isDigit c = true) (hc : isZero c = false) :
    ¬ 10 ∣ digitsValue (l ++ [c]) := by
  have hlast : digitsValue [c] = c.toNat - 48 := by simp [digitsValue]
  have hrange : 48 ≤ c.toNat ∧ c.toNat ≤ 57 := by
    rw [isDigit, Bool.and_eq_true, decide_eq_true_eq, decide_eq_true_eq] at hd
    exact hd
  have hne : c.toNat ≠ 48 := by
    intro h
    rw [isZero, UInt8.toNat_inj.mp (h.trans (show 48 = '0'.toUInt8.toNat from rfl))] at hc
    cases hc
  rw [digitsValue_append, hlast, List.length_singleton]
  omega

/- Cutting the zeros of a number changes it if there are any and it is not zero. -/
theorem digitsValue_dropZeros (ds : Digits) :
    digitsValue (dropZeros ds.1) = digitsValue ds.1 ↔
      ¬ (digitsValue ds.1 ≠ 0 ∧ 10 ∣ digitsValue ds.1) := by
  obtain ⟨k, hk⟩ := dropZeros_split ds.1
  have hval : digitsValue ds.1 = digitsValue (dropZeros ds.1) * 10 ^ k := by
    rw [← digitsValue_append_zeros, ← hk]
  cases k with
  | zero =>
    rw [List.replicate_zero, List.append_nil] at hk
    refine ⟨fun _ hspoilt => ?_, fun _ => by rw [← hk]⟩
    rcases List.eq_nil_or_concat ds.1 with hnil | ⟨l, c, hl⟩
    · exact hspoilt.1 (by rw [hnil]; rfl)
    · have hlast := ds.2
      rw [hl, List.concat_eq_append, List.all_append, Bool.and_eq_true] at hlast
      have hc : isZero c = false := by
        rw [hl, List.concat_eq_append, dropZeros, List.rdropWhile_concat] at hk
        by_contra hz
        rw [if_pos (by simpa using hz)] at hk
        obtain ⟨j, hj⟩ := dropZeros_split l
        have hlen := congrArg List.length hj
        rw [dropZeros, ← hk, List.length_append, List.length_append, List.length_singleton] at hlen
        omega
      have hdvd := hspoilt.2
      rw [hl, List.concat_eq_append] at hdvd
      exact not_dvd_of_last (by simpa using hlast.2) hc hdvd
  | succ k =>
    have hpos : 0 < 10 ^ k := by positivity
    have hdvd : 10 ∣ digitsValue ds.1 := ⟨digitsValue (dropZeros ds.1) * 10 ^ k, by rw [hval]; ring⟩
    rw [not_and', not_not]
    refine ⟨fun h _ => ?_, fun h => ?_⟩
    · rw [← h, pow_succ] at hval
      by_contra hne
      have hv : 0 < digitsValue (dropZeros ds.1) := by omega
      have hone : 1 = 10 ^ k * 10 := Nat.eq_of_mul_eq_mul_left hv (by rw [Nat.mul_one, ← hval])
      omega
    · have hzero := h hdvd
      rw [hval, mul_eq_zero] at hzero
      rw [hval, hzero.resolve_right (by positivity), Nat.zero_mul]

namespace Unsigned

theorem point_not_lead (u : Unsigned) : '.'.toUInt8 ∉ u.lead := by
  have hwhole : ∀ (d : UInt8) (ds : Digits), isPositive d = true → '.'.toUInt8 ∉ d :: ds.1 := by
    intro d ds hd
    have hdigit : isDigit d = true := isDigit_iff.mpr (.inr (isPositive_iff.mp hd))
    exact point_not_digit (by simpa [hdigit] using ds.2)
  cases u with
  | zero => decide
  | fraction ds exp => exact show '.'.toUInt8 ∉ ['0'.toUInt8] by decide
  | whole d hd ds exp => exact hwhole d ds hd
  | decimal d hd ds frac exp => exact hwhole d ds hd

theorem render_none {u : Unsigned} (h : u.frac = none) :
    u.render = u.lead ++ renderExponent u.exponent := by
  cases u with
  | zero => rfl
  | fraction ds exp => cases h
  | whole d hd ds exp => rfl
  | decimal d hd ds frac exp => cases h

theorem render_some {u : Unsigned} {ds : Digits} (h : u.frac = some ds) :
    u.render = u.lead ++ '.'.toUInt8 :: (ds.1 ++ renderExponent u.exponent) := by
  cases u with
  | zero => cases h
  | fraction ds' exp =>
    cases h
    rfl
  | whole d hd ds' exp => cases h
  | decimal d hd ds' frac exp =>
    cases h
    simp [render, lead, exponent]

/- The same digits before the point, and others behind it. -/
theorem exists_tail {u : Unsigned} (h : u.frac ≠ none) (ds : Digits) (exp : Option Exponent) :
    ∃ v : Unsigned, v.lead = u.lead ∧ v.frac = some ds ∧ v.exponent = exp := by
  cases u with
  | zero => exact absurd rfl h
  | fraction ds' exp' => exact ⟨.fraction ds exp, rfl, rfl, rfl⟩
  | whole d hd ds' exp' => exact absurd rfl h
  | decimal d hd ds' frac exp' => exact ⟨.decimal d hd ds' ds exp, rfl, rfl, rfl⟩

theorem value_some {u : Unsigned} {ds : Digits} (h : u.frac = some ds) :
    u.value = digitsValue (u.lead ++ ds.1) *
      ((10 : ℕ) : ℚ) ^ (exponentValue u.exponent - ds.1.length) := by
  simp [value, fracDigits, h]

/- Zeros at the end of the digits behind the point do not count. -/
theorem value_keep {u v : Unsigned} {ds : Digits} (hu : u.frac = some ds) (he : u.exponent = none)
    (hlead : v.lead = u.lead) (hv : v.frac = some ds.keep) (hve : v.exponent = none) :
    v.value = u.value := by
  obtain ⟨k, hk⟩ := keep_split ds.1
  have hten : ((10 : ℕ) : ℚ) ≠ 0 := by norm_num
  have hdigits : digitsValue (u.lead ++ ds.1) = digitsValue (u.lead ++ ds.keep.1) * 10 ^ k := by
    rw [← digitsValue_append_zeros, List.append_assoc]
    exact congrArg (fun l => digitsValue (u.lead ++ l)) hk
  have hlen : ds.1.length = ds.keep.1.length + k := by
    have h := congrArg List.length hk
    rwa [List.length_append, List.length_replicate] at h
  rw [value_some hu, value_some hv, he, hve, hlead, hdigits, hlen, exponentValue]
  push_cast
  rw [mul_assoc, ← zpow_natCast, ← zpow_add₀ (by norm_num)]
  congr 2
  ring

/- Of the exponent they do. -/
theorem value_exponent {u v : Unsigned} {ds : Digits} (hu : u.frac = some ds)
    (hlead : v.lead = u.lead) (hv : v.frac = some ds) :
    v.value = u.value ↔
      u.value = 0 ∨ exponentValue v.exponent = exponentValue u.exponent := by
  have hten : ((10 : ℕ) : ℚ) ≠ 0 := by norm_num
  rw [value_some hu, value_some hv, hlead, mul_eq_zero, or_iff_left (zpow_ne_zero _ hten),
    mul_eq_mul_left_iff, or_comm]
  refine or_congr_right ?_
  rw [zpow_right_inj₀ (by norm_num) (by norm_num)]
  omega

end Unsigned

/-- A number whose exponent loses zeros to `trim`. -/
def Numeral.Spoilt (n : Numeral) : Prop :=
  n.value ≠ 0 ∧ n.magnitude.frac ≠ none ∧
    exponentValue n.magnitude.exponent ≠ 0 ∧ (10 : ℤ) ∣ exponentValue n.magnitude.exponent

def Exponent.Signed : Exponent → Prop
  | unsigned _ _ _ _ _ => False
  | signed _ _ _ _ _ => True

theorem Numeral.value_eq_iff (n : Numeral) (v : Unsigned) :
    Numeral.value ⟨n.negative, v⟩ = n.value ↔ v.value = n.magnitude.value := by
  simp only [value]
  split_ifs
  · exact neg_inj
  · rfl

def Numeral.lead (n : Numeral) : Bytes :=
  (if n.negative then ['-'.toUInt8] else []) ++ n.magnitude.lead

theorem Numeral.point_not_lead (n : Numeral) : '.'.toUInt8 ∉ n.lead := by
  rw [lead, List.mem_append, not_or]
  refine ⟨?_, n.magnitude.point_not_lead⟩
  split_ifs <;> decide

theorem Numeral.render_some {n : Numeral} {ds : Digits} (h : n.magnitude.frac = some ds) :
    n.render = n.lead ++ '.'.toUInt8 :: (ds.1 ++ renderExponent n.magnitude.exponent) := by
  rw [render, Unsigned.render_some h, lead, List.append_assoc]

theorem trim_whole {n : Numeral} (hf : n.magnitude.frac = none) : trim n.render = n.render := by
  refine trim_none ?_
  have hlead := n.point_not_lead
  rw [Numeral.lead, List.mem_append, not_or] at hlead
  rw [Numeral.render, Unsigned.render_none hf, List.mem_append, List.mem_append, not_or, not_or]
  exact ⟨hlead.1, hlead.2, point_not_exponent _⟩

theorem trim_fixed {n : Numeral} (he : n.magnitude.exponent = none) :
    ∃ m : Numeral, trim n.render = m.render ∧ m.value = n.value := by
  cases hf : n.magnitude.frac with
  | none => exact ⟨n, trim_whole hf, rfl⟩
  | some ds =>
    obtain ⟨v, hlead, hv, hve⟩ := Unsigned.exists_tail (u := n.magnitude) (by simp [hf]) ds.keep none
    refine ⟨⟨n.negative, v⟩, ?_, ?_⟩
    · rw [Numeral.render_some hf, trim_point n.point_not_lead, he, Numeral.render_some hv, hve,
        Numeral.lead, Numeral.lead, hlead]
      simp only [renderExponent, List.append_nil]
      rfl
    · exact (Numeral.value_eq_iff n v).mpr (Unsigned.value_keep hf he hlead hv hve)

/- A sign and its digits at the end of a text. -/
theorem exponentValue_dropZeros (letter sign : UInt8) (hl : kind letter = .e)
    (hs : kind sign = .plus ∨ kind sign = .minus) (es : Digits) :
    (Exponent.signed letter sign hl hs es.dropZeros).value =
        (Exponent.signed letter sign hl hs es).value ↔
      ¬ ((Exponent.signed letter sign hl hs es).value ≠ 0 ∧
        (10 : ℤ) ∣ (Exponent.signed letter sign hl hs es).value) := by
  have h := digitsValue_dropZeros es
  have hdvd : ((10 : ℤ) ∣ (digitsValue es.1 : ℤ)) ↔ 10 ∣ digitsValue es.1 := by
    exact_mod_cast Int.natCast_dvd_natCast (m := 10) (n := digitsValue es.1)
  simp only [Exponent.value, Digits.dropZeros]
  split_ifs
  · rw [neg_inj, Nat.cast_inj, h, Int.dvd_neg, hdvd, neg_ne_zero, Nat.cast_ne_zero]
  · rw [Nat.cast_inj, h, hdvd, Nat.cast_ne_zero]

/-- What `trim` leaves of a number, if its exponent has a sign, is a number of the same
value unless the exponent lost zeros. -/
theorem trim_numeral (n : Numeral) (hsigned : ∀ e, n.magnitude.exponent = some e → e.Signed) :
    ∃ m : Numeral, trim n.render = m.render ∧ (m.value = n.value ↔ ¬ n.Spoilt) := by
  cases he : n.magnitude.exponent with
  | none =>
    obtain ⟨m, hm, hvalue⟩ := trim_fixed he
    refine ⟨m, hm, fun _ hspoilt => hspoilt.2.2.1 (by rw [he]; rfl), fun _ => hvalue⟩
  | some e =>
    cases hf : n.magnitude.frac with
    | none => exact ⟨n, trim_whole hf, fun _ hspoilt => hspoilt.2.1 hf, fun _ => rfl⟩
    | some ds =>
      cases e with
      | unsigned letter d hl hd es => exact (hsigned _ he).elim
      | signed letter sign hl hs es =>
        obtain ⟨v, hlead, hv, hve⟩ := Unsigned.exists_tail (u := n.magnitude) (by simp [hf]) ds
          (some (.signed letter sign hl hs es.dropZeros))
        have hsign : isZero sign = false := by
          have hkind : kind sign ≠ .zero := by rcases hs with hs | hs <;> rw [hs] <;> decide
          simpa [isZero] using mt kind_zero_iff.mpr hkind
        have hkeep := keep_append hsign (ds.1 ++ [letter]) es.1
        refine ⟨⟨n.negative, v⟩, ?_, ?_⟩
        · rw [Numeral.render_some hf, trim_point n.point_not_lead, he, Numeral.render_some hv, hve,
            Numeral.lead, Numeral.lead, hlead]
          rw [List.append_assoc, List.append_assoc] at hkeep
          exact congrArg (fun l => _ ++ '.'.toUInt8 :: l) hkeep
        · rw [Numeral.value_eq_iff, Unsigned.value_exponent hf hlead hv, hve, he,
            exponentValue, exponentValue, exponentValue_dropZeros]
          have hzero : n.value = 0 ↔ n.magnitude.value = 0 := by
            rw [Numeral.value]
            split_ifs
            · exact neg_eq_zero
            · rfl
          simp only [Numeral.Spoilt, he, hf, exponentValue, ne_eq, hzero, reduceCtorEq,
            not_false_eq_true, true_and]
          tauto

/-! ### Texts that do not fit, and whole numbers -/

/- `snprintf(outbuf, 128, …)` keeps 127 bytes of the text. -/
def snprintf (text : Bytes) : Bytes := text.take 127

def Digits.take (ds : Digits) (k : ℕ) : Digits :=
  ⟨ds.1.take k, List.all_eq_true.mpr fun c hc => List.all_eq_true.mp ds.2 c (List.mem_of_mem_take hc)⟩

theorem Unsigned.take_render {u : Unsigned} (he : u.exponent = none) (k : ℕ) :
    ∃ v : Unsigned, u.render.take (k + 1) = v.render ∧ v.exponent = none := by
  cases u with
  | zero => exact ⟨.zero, by simp [render], rfl⟩
  | fraction ds exp =>
    cases he
    cases k with
    | zero => exact ⟨.zero, rfl, rfl⟩
    | succ k => exact ⟨.fraction (ds.take k) none, by simp [render, renderExponent, Digits.take], rfl⟩
  | whole d hd ds exp =>
    cases he
    exact ⟨.whole d hd (ds.take k) none, by simp [render, renderExponent, Digits.take], rfl⟩
  | decimal d hd ds frac exp =>
    cases he
    by_cases hk : k ≤ ds.1.length
    · refine ⟨.whole d hd (ds.take k) none, ?_, rfl⟩
      simp [render, renderExponent, Digits.take, List.take_append_of_le_length hk]
    · obtain ⟨j, rfl⟩ := Nat.exists_eq_add_of_lt (Nat.lt_of_not_le hk)
      refine ⟨.decimal d hd ds (frac.take j) none, ?_, rfl⟩
      simp only [render, renderExponent, List.append_nil]
      rw [List.take_succ_cons, Nat.add_assoc, List.take_length_add_append]
      rfl

theorem Numeral.take_render {n : Numeral} (he : n.magnitude.exponent = none) (k : ℕ) :
    ∃ m : Numeral, n.render.take (k + 2) = m.render ∧ m.magnitude.exponent = none := by
  obtain ⟨negative, u⟩ := n
  cases negative with
  | false =>
    obtain ⟨v, hv, hve⟩ := Unsigned.take_render he (k + 1)
    exact ⟨⟨false, v⟩, hv, hve⟩
  | true =>
    obtain ⟨v, hv, hve⟩ := Unsigned.take_render he k
    exact ⟨⟨true, v⟩, congrArg ('-'.toUInt8 :: ·) hv, hve⟩

/- `std::to_string` of a number that is not negative. -/
def natText (n : ℕ) : Bytes := (Nat.toDigits 10 n).map Char.toUInt8

theorem digitChar_digit : ∀ n < 10,
    isDigit n.digitChar.toUInt8 = true ∧ digitsValue [n.digitChar.toUInt8] = n ∧
      (0 < n → isPositive n.digitChar.toUInt8 = true) := by
  decide

/-- The text of a whole number is a number without a point or an exponent. -/
theorem natText_numeral (n : ℕ) :
    ∃ u : Unsigned, natText n = u.render ∧ u.frac = none ∧ u.exponent = none ∧ u.value = n := by
  have hvalue : ∀ (d : UInt8) (hd : isPositive d = true) (ds : Digits),
      (Unsigned.whole d hd ds none).value = digitsValue (d :: ds.1) := by
    intro d hd ds
    simp [Unsigned.value, Unsigned.lead, Unsigned.fracDigits, Unsigned.frac, Unsigned.exponent,
      exponentValue]
  have hwhole : 0 < n → ∃ (d : UInt8) (hd : isPositive d = true) (ds : Digits),
      natText n = d :: ds.1 ∧ digitsValue (d :: ds.1) = n := by
    induction n using Nat.strong_induction_on with
    | _ n ih =>
      intro hpos
      by_cases hlt : n < 10
      · obtain ⟨-, hone, hp⟩ := digitChar_digit n hlt
        refine ⟨n.digitChar.toUInt8, hp hpos, ⟨[], rfl⟩, ?_, hone⟩
        rw [natText, Nat.toDigits_of_lt_base hlt]
        rfl
      · obtain ⟨d, hd, ds, htext, hds⟩ := ih (n / 10) (by omega) (by omega)
        obtain ⟨hdigit, hone, -⟩ := digitChar_digit _ (Nat.mod_lt n (show 0 < 10 by decide))
        refine ⟨d, hd, ⟨ds.1 ++ [(n % 10).digitChar.toUInt8], ?_⟩, ?_, ?_⟩
        · rw [List.all_append, ds.2, Bool.true_and]
          simpa using hdigit
        · rw [natText] at htext
          rw [natText, Nat.toDigits_of_base_le (by decide) (Nat.le_of_not_lt hlt), List.map_append,
            htext]
          rfl
        · rw [← List.cons_append, digitsValue_append, hds, hone, List.length_singleton]
          omega
  rcases Nat.eq_zero_or_pos n with rfl | hpos
  · refine ⟨.zero, rfl, rfl, rfl, ?_⟩
    have hdigits : digitsValue (Unsigned.zero.lead ++ Unsigned.zero.fracDigits) = 0 := rfl
    rw [Unsigned.value, hdigits, Nat.cast_zero, zero_mul]
  · obtain ⟨d, hd, ds, htext, hds⟩ := hwhole hpos
    refine ⟨.whole d hd ds none, ?_, rfl, rfl, ?_⟩
    · simp [htext, Unsigned.render, renderExponent]
    · rw [hvalue, hds]

end TypegoSdk.Crow
