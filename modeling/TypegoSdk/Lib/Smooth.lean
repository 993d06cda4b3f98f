import Mathlib.Algebra.Order.Ring.Defs
import Mathlib.Algebra.Order.Ring.Unbundled.Basic
import Mathlib.Order.Interval.Set.Defs
import Mathlib.Tactic.Ring

/-!
# Exponential smoothing

A filter that moves by the fraction `a` towards each input.
-/

namespace TypegoSdk.Lib
variable {K : Type*} [CommRing K]

def smooth (a x u : K) : K := x * (1 - a) + u * a

def settle (a x : K) (us : List K) : K := us.foldl (smooth a) x

theorem settle_append (a x : K) (us vs : List K) :
    settle a x (us ++ vs) = settle a (settle a x us) vs := List.foldl_append ..

/- The distance to a constant input shrinks by the factor `1 - a`. -/
theorem settle_replicate (a x u : K) (n : ℕ) :
    settle a x (List.replicate n u) = u + (1 - a) ^ n * (x - u) := by
  induction n generalizing x with
  | zero => simp [settle]
  | succ n ih =>
    have hstep : settle a x (List.replicate (n + 1) u) = settle a (smooth a x u) (List.replicate n u) :=
      rfl
    rw [hstep, ih, smooth, pow_succ]
    ring

variable [LinearOrder K] [IsStrictOrderedRing K] {a x u lo hi : K}

theorem smooth_mem (ha : a ∈ Set.Icc 0 1) (hx : x ∈ Set.Icc lo hi) (hu : u ∈ Set.Icc lo hi) :
    smooth a x u ∈ Set.Icc lo hi := by
  have h1 : 0 ≤ 1 - a := sub_nonneg.2 ha.2
  have hlo : lo = lo * (1 - a) + lo * a := by ring
  have hhi : hi = hi * (1 - a) + hi * a := by ring
  constructor
  · calc lo = lo * (1 - a) + lo * a := hlo
      _ ≤ x * (1 - a) + u * a :=
        add_le_add (mul_le_mul_of_nonneg_right hx.1 h1) (mul_le_mul_of_nonneg_right hu.1 ha.1)
  · calc x * (1 - a) + u * a ≤ hi * (1 - a) + hi * a :=
        add_le_add (mul_le_mul_of_nonneg_right hx.2 h1) (mul_le_mul_of_nonneg_right hu.2 ha.1)
      _ = hi := hhi.symm

theorem settle_mem (ha : a ∈ Set.Icc 0 1) (hx : x ∈ Set.Icc lo hi) (us : List K)
    (hu : ∀ u ∈ us, u ∈ Set.Icc lo hi) : settle a x us ∈ Set.Icc lo hi := by
  induction us generalizing x with
  | nil => exact hx
  | cons u us ih =>
    have hs := smooth_mem ha hx (hu u (List.mem_cons_self ..))
    exact ih hs fun v hv => hu v (List.mem_cons_of_mem _ hv)

end TypegoSdk.Lib
