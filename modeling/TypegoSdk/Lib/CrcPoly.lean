import TypegoSdk.Lib.Crc
import Mathlib.Algebra.CharP.Two
import Mathlib.Algebra.Field.ZMod
import Mathlib.Algebra.Polynomial.Div
import Mathlib.Data.ZMod.Basic

/-!
# The polynomial of a CRC register

A register is a polynomial of degree below `w` over the field of two elements,
a message the polynomial of its bits, first bit highest. A step multiplies the
register by `X` and adds the message bit at `X ^ w`, up to a multiple of the
generator; a register is therefore a remainder.
-/

namespace TypegoSdk.Lib
open Polynomial

def coeffBit (b : Bool) : ZMod 2 := if b then 1 else 0

theorem coeffBit_xor (b c : Bool) : coeffBit (b ^^ c) = coeffBit b + coeffBit c := by
  cases b <;> cases c <;> decide

noncomputable def bitsPoly (bs : List Bool) : (ZMod 2)[X] :=
  bs.foldl (fun p b => p * X + C (coeffBit b)) 0

theorem bitsPoly_append_singleton (bs : List Bool) (b : Bool) :
    bitsPoly (bs ++ [b]) = bitsPoly bs * X + C (coeffBit b) := by
  simp [bitsPoly]

variable {w : ℕ}

noncomputable def regPoly (r : BitVec w) : (ZMod 2)[X] :=
  ∑ i ∈ Finset.range w, monomial i (coeffBit (r.getLsbD i))

theorem regPoly_coeff (r : BitVec w) (i : ℕ) : (regPoly r).coeff i = coeffBit (r.getLsbD i) := by
  by_cases h : i < w
  · simp [regPoly, coeff_monomial, h]
  · have hout : r.getLsbD i = false := BitVec.getLsbD_of_ge r i (not_lt.mp h)
    simp [regPoly, coeff_monomial, h, hout, coeffBit]

theorem regPoly_degree (r : BitVec w) : (regPoly r).degree < w := by
  rw [degree_lt_iff_coeff_zero]
  intro i hi
  rw [regPoly_coeff, BitVec.getLsbD_of_ge r i hi]
  rfl

theorem regPoly_xor (r s : BitVec w) : regPoly (r ^^^ s) = regPoly r + regPoly s := by
  ext i
  rw [coeff_add, regPoly_coeff, regPoly_coeff, regPoly_coeff, BitVec.getLsbD_xor, coeffBit_xor]

theorem regPoly_zero : regPoly 0#w = 0 := by
  ext i
  rw [regPoly_coeff, BitVec.getLsbD_zero, coeff_zero]
  rfl

theorem regPoly_select (c : Bool) (poly : BitVec w) :
    regPoly (if c then poly else 0#w) = C (coeffBit c) * regPoly poly := by
  cases c with
  | false => simp [coeffBit, regPoly_zero]
  | true => simp [coeffBit]

/- The bit that the shift drops is the coefficient of `X ^ w`. -/
theorem regPoly_mul_X (r : BitVec w) :
    regPoly r * X = regPoly (r <<< 1) + C (coeffBit r.msb) * X ^ w := by
  ext i
  cases i with
  | zero =>
    rw [coeff_mul_X_zero, coeff_add, regPoly_coeff, coeff_C_mul, coeff_X_pow]
    by_cases hw : w = 0
    · subst hw
      simp [coeffBit, BitVec.of_length_zero]
    · simp [coeffBit, Ne.symm hw]
  | succ i =>
    rw [coeff_mul_X, coeff_add, regPoly_coeff, regPoly_coeff, coeff_C_mul, coeff_X_pow,
      BitVec.getLsbD_shiftLeft, Nat.add_sub_cancel]
    rcases Nat.lt_trichotomy (i + 1) w with hlt | heq | hgt
    · rw [decide_eq_true hlt, if_neg hlt.ne]
      simp
    · have hmsb : r.msb = r.getLsbD i := by
        rw [BitVec.msb_eq_getLsbD_last, show w - 1 = i by omega]
      rw [hmsb, decide_eq_false heq.not_lt, if_pos heq]
      simp [coeffBit]
    · have hout : r.getLsbD i = false := BitVec.getLsbD_of_ge r i (by omega)
      rw [hout, if_neg hgt.ne']
      simp [coeffBit]

/-! ### The remainder -/

noncomputable def generator (poly : BitVec w) : (ZMod 2)[X] := X ^ w + regPoly poly

theorem generator_monic (poly : BitVec w) : (generator poly).Monic :=
  monic_X_pow_add (regPoly_degree poly)

theorem generator_degree (poly : BitVec w) : (generator poly).degree = w := by
  have hlt : (regPoly poly).degree < (X ^ w : (ZMod 2)[X]).degree := by
    rw [degree_X_pow]
    exact regPoly_degree poly
  rw [generator, degree_add_eq_left_of_degree_lt hlt, degree_X_pow]

theorem crcBit_poly (poly r : BitVec w) (b : Bool) :
    regPoly (crcBit poly r b) + generator poly * C (coeffBit (r.msb ^^ b)) =
      regPoly r * X + C (coeffBit b) * X ^ w := by
  rw [crcBit, regPoly_xor, regPoly_select, regPoly_mul_X, generator, coeffBit_xor, C_add]
  have hp : regPoly poly + regPoly poly = 0 := CharTwo.add_self_eq_zero _
  calc regPoly (r <<< 1) + (C (coeffBit r.msb) + C (coeffBit b)) * regPoly poly +
        (X ^ w + regPoly poly) * (C (coeffBit r.msb) + C (coeffBit b))
      = regPoly (r <<< 1) + C (coeffBit r.msb) * X ^ w + C (coeffBit b) * X ^ w +
        (C (coeffBit r.msb) + C (coeffBit b)) * (regPoly poly + regPoly poly) := by ring
    _ = _ := by rw [hp, mul_zero, add_zero]

theorem crcBits_poly (poly r : BitVec w) (bs : List Bool) :
    ∃ q, regPoly (crcBits poly r bs) + generator poly * q =
      regPoly r * X ^ bs.length + bitsPoly bs * X ^ w := by
  induction bs using List.reverseRecOn with
  | nil => exact ⟨0, by simp [crcBits, bitsPoly]⟩
  | append_singleton bs b ih =>
    obtain ⟨q, hq⟩ := ih
    refine ⟨q * X + C (coeffBit ((crcBits poly r bs).msb ^^ b)), ?_⟩
    have hstep := crcBit_poly poly (crcBits poly r bs) b
    have hone : crcBits poly (crcBits poly r bs) [b] = crcBit poly (crcBits poly r bs) b := rfl
    rw [crcBits_append, hone, bitsPoly_append_singleton, List.length_append,
      List.length_singleton]
    calc regPoly (crcBit poly (crcBits poly r bs) b) +
          generator poly * (q * X + C (coeffBit ((crcBits poly r bs).msb ^^ b)))
        = regPoly (crcBits poly r bs) * X + C (coeffBit b) * X ^ w + generator poly * q * X := by
          rw [← hstep]
          ring
      _ = (regPoly (crcBits poly r bs) + generator poly * q) * X + C (coeffBit b) * X ^ w := by
          ring
      _ = _ := by
          rw [hq]
          ring

/-- The register is the remainder of the message behind its initial value. -/
theorem crcBits_remainder (poly r : BitVec w) (bs : List Bool) :
    regPoly (crcBits poly r bs) =
      (regPoly r * X ^ bs.length + bitsPoly bs * X ^ w) %ₘ generator poly := by
  obtain ⟨q, hq⟩ := crcBits_poly poly r bs
  have hdeg : (regPoly (crcBits poly r bs)).degree < (generator poly).degree := by
    rw [generator_degree]
    exact regPoly_degree _
  exact (div_modByMonic_unique q _ (generator_monic poly) ⟨hq, hdeg⟩).2.symm

end TypegoSdk.Lib
