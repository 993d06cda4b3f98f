import TypegoSdk.StateMachine.Controller
import Mathlib.Algebra.Quaternion
import Mathlib.LinearAlgebra.CrossProduct
import Mathlib.Analysis.InnerProductSpace.PiL2
import Mathlib.Geometry.Euclidean.Angle.Unoriented.Basic

/-!
# Tilt (robot_interface.hpp, robot_controller.hpp, robot/g1/common/terminations.hpp)

`UpdateProjectedGravity` writes the gravity in the body's frame out in the
components of the inverse quaternion; `bad_orientation` leaves the rotation to
Eigen. Both are polynomials in the quaternion, over any commutative ring; over
the reals the two tests of the tilt are compared as angles.
-/

namespace TypegoSdk.StateMachine.Tilt
open Matrix Real
variable {R : Type} [CommRing R]

/- The function of `updateProjectedGravity` over any ring. -/
def projectedGravity (quat : Quaternion R) : Fin 3 → R :=
  let w := quat.re
  let x := -quat.imI
  let y := -quat.imJ
  let z := -quat.imK
  ![((-2 : ℤ) : R) * (x * z + w * y), ((-2 : ℤ) : R) * (y * z - w * x),
    -(w * w - x * x - y * y + z * z)]

theorem projectedGravity_x (q : Quaternion R) :
    projectedGravity q 0 = 2 * (q.re * q.imJ - q.imI * q.imK) := by
  show ((-2 : ℤ) : R) * (-q.imI * -q.imK + q.re * -q.imJ) = _
  push_cast
  ring

theorem projectedGravity_y (q : Quaternion R) :
    projectedGravity q 1 = -2 * (q.imJ * q.imK + q.re * q.imI) := by
  show ((-2 : ℤ) : R) * (-q.imJ * -q.imK - q.re * -q.imI) = _
  push_cast
  ring

theorem projectedGravity_z (q : Quaternion R) :
    projectedGravity q 2 = q.imI ^ 2 + q.imJ ^ 2 - q.re ^ 2 - q.imK ^ 2 := by
  show -(q.re * q.re - -q.imI * -q.imI - -q.imJ * -q.imJ + -q.imK * -q.imK) = _
  ring

/- A quaternion of the controller, and a vector. -/
def ofQuat (f : ℚ → R) (quat : Quat) : Quaternion R := ⟨f quat.w, f quat.x, f quat.y, f quat.z⟩

def ofVec3 (f : ℚ → R) (v : Vec3) : Fin 3 → R := ![f v.x, f v.y, f v.z]

theorem updateProjectedGravity_eq (f : ℚ →+* R) (quat : Quat) :
    ofVec3 f (updateProjectedGravity quat) = projectedGravity (ofQuat f quat) := by
  simp [ofVec3, updateProjectedGravity, projectedGravity, ofQuat, map_ofNat]

/-! ### Products -/

/- `v` as a quaternion without a real part. -/
def imaginary (v : Fin 3 → R) : Quaternion R := ⟨0, v 0, v 1, v 2⟩

@[simp] theorem imaginary_re (v : Fin 3 → R) : (imaginary v).re = 0 := rfl
@[simp] theorem imaginary_imI (v : Fin 3 → R) : (imaginary v).imI = v 0 := rfl
@[simp] theorem imaginary_imJ (v : Fin 3 → R) : (imaginary v).imJ = v 1 := rfl
@[simp] theorem imaginary_imK (v : Fin 3 → R) : (imaginary v).imK = v 2 := rfl

def quaternion (w x y z : R) : Quaternion R := ⟨w, x, y, z⟩

@[simp] theorem quaternion_re (w x y z : R) : (quaternion w x y z).re = w := rfl
@[simp] theorem quaternion_imI (w x y z : R) : (quaternion w x y z).imI = x := rfl
@[simp] theorem quaternion_imJ (w x y z : R) : (quaternion w x y z).imJ = y := rfl
@[simp] theorem quaternion_imK (w x y z : R) : (quaternion w x y z).imK = z := rfl

/- Eigen's product of a quaternion and a vector. -/
def eigenProduct (q : Quaternion R) (v : Fin 3 → R) : Fin 3 → R :=
  let u := ![q.imI, q.imJ, q.imK]
  let uv := crossProduct u v
  let uv := uv + uv
  v + q.re • uv + crossProduct u uv

theorem star_mul_down (q : Quaternion R) :
    star q * imaginary ![0, 0, -1] = quaternion (-q.imK) q.imJ (-q.imI) (-q.re) := by
  ext
  · simp
  · simp
  · simp
  · simp

theorem projectedGravity_hamilton (q : Quaternion R) :
    imaginary (projectedGravity q) = star q * imaginary ![0, 0, -1] * q := by
  rw [star_mul_down]
  ext
  · simp only [imaginary_re, Quaternion.re_mul, quaternion_re, quaternion_imI, quaternion_imJ,
      quaternion_imK]
    ring
  · simp only [imaginary_imI, projectedGravity_x, Quaternion.imI_mul, quaternion_re, quaternion_imI,
      quaternion_imJ, quaternion_imK]
    ring
  · simp only [imaginary_imJ, projectedGravity_y, Quaternion.imJ_mul, quaternion_re, quaternion_imI,
      quaternion_imJ, quaternion_imK]
    ring
  · simp only [imaginary_imK, projectedGravity_z, Quaternion.imK_mul, quaternion_re, quaternion_imI,
      quaternion_imJ, quaternion_imK]
    ring

theorem eigenProduct_star (q : Quaternion R) (hq : Quaternion.normSq q = 1) :
    eigenProduct (star q) ![0, 0, -1] = projectedGravity q := by
  rw [Quaternion.normSq_def'] at hq
  ext i
  fin_cases i
  · refine Eq.trans ?_ (projectedGravity_x q).symm
    simp [eigenProduct, cross_apply]
    ring
  · refine Eq.trans ?_ (projectedGravity_y q).symm
    simp [eigenProduct, cross_apply]
    ring
  · refine Eq.trans ?_ (projectedGravity_z q).symm
    simp [eigenProduct, cross_apply]
    linear_combination hq

theorem projectedGravity_length (q : Quaternion R) (hq : Quaternion.normSq q = 1) :
    projectedGravity q 0 ^ 2 + projectedGravity q 1 ^ 2 + projectedGravity q 2 ^ 2 = 1 := by
  rw [Quaternion.normSq_def'] at hq
  rw [projectedGravity_x, projectedGravity_y, projectedGravity_z]
  linear_combination (q.re ^ 2 + q.imI ^ 2 + q.imJ ^ 2 + q.imK ^ 2 + 1) * hq

/-! ### Angles -/

/- `projected_gravity.at(2) > 0`, the test of CheckTermination. -/
def Overturned (gravity : Fin 3 → ℝ) : Prop := 0 < gravity 2

def badOrientation (quat : Quaternion ℝ) (limitAngle : ℝ) : Prop :=
  limitAngle < |arccos (-(eigenProduct (star quat) ![0, 0, -1] 2))|

/- The body's vertical axis in the world, and the world's. -/
noncomputable def bodyAxis (q : Quaternion ℝ) : EuclideanSpace ℝ (Fin 3) :=
  let r := q * imaginary ![0, 0, 1] * star q
  WithLp.toLp _ ![r.imI, r.imJ, r.imK]

def upright : EuclideanSpace ℝ (Fin 3) := WithLp.toLp _ ![0, 0, 1]

theorem mul_up (q : Quaternion R) :
    q * imaginary ![0, 0, 1] = quaternion (-q.imK) q.imJ (-q.imI) q.re := by
  ext
  · simp
  · simp
  · simp
  · simp

theorem bodyAxis_x (q : Quaternion ℝ) : bodyAxis q 0 = 2 * (q.imI * q.imK + q.re * q.imJ) := by
  show (q * imaginary ![0, 0, 1] * star q).imI = _
  rw [mul_up]
  simp only [Quaternion.imI_mul, quaternion_re, quaternion_imI, quaternion_imJ, quaternion_imK,
    Quaternion.re_star, Quaternion.imI_star, Quaternion.imJ_star, Quaternion.imK_star]
  ring

theorem bodyAxis_y (q : Quaternion ℝ) : bodyAxis q 1 = 2 * (q.imJ * q.imK - q.re * q.imI) := by
  show (q * imaginary ![0, 0, 1] * star q).imJ = _
  rw [mul_up]
  simp only [Quaternion.imJ_mul, quaternion_re, quaternion_imI, quaternion_imJ, quaternion_imK,
    Quaternion.re_star, Quaternion.imI_star, Quaternion.imJ_star, Quaternion.imK_star]
  ring

/- The cosine of the tilt is the gravity along the body's axis, up to the sign. -/
theorem bodyAxis_z (q : Quaternion ℝ) : bodyAxis q 2 = -projectedGravity q 2 := by
  show (q * imaginary ![0, 0, 1] * star q).imK = _
  rw [mul_up, projectedGravity_z]
  simp only [Quaternion.imK_mul, quaternion_re, quaternion_imI, quaternion_imJ, quaternion_imK,
    Quaternion.re_star, Quaternion.imI_star, Quaternion.imJ_star, Quaternion.imK_star]
  ring

theorem bodyAxis_norm (q : Quaternion ℝ) (hq : Quaternion.normSq q = 1) : ‖bodyAxis q‖ = 1 := by
  rw [Quaternion.normSq_def'] at hq
  rw [EuclideanSpace.norm_eq, sqrt_eq_one, Fin.sum_univ_three]
  simp only [norm_eq_abs, sq_abs, bodyAxis_x, bodyAxis_y, bodyAxis_z, projectedGravity_z]
  linear_combination (q.re ^ 2 + q.imI ^ 2 + q.imJ ^ 2 + q.imK ^ 2 + 1) * hq

theorem upright_norm : ‖upright‖ = 1 := by
  rw [EuclideanSpace.norm_eq, sqrt_eq_one, Fin.sum_univ_three]
  simp [upright]

theorem bodyAxis_inner (q : Quaternion ℝ) :
    inner ℝ (bodyAxis q) upright = -projectedGravity q 2 := by
  rw [PiLp.inner_apply, Fin.sum_univ_three, bodyAxis_z]
  simp [upright]

theorem pi_div_two_lt_arccos {x : ℝ} : π / 2 < arccos x ↔ x < 0 := by
  rw [← not_le, arccos_le_pi_div_two, not_le]

theorem overturned_iff_angle (q : Quaternion ℝ) (hq : Quaternion.normSq q = 1) :
    Overturned (projectedGravity q) ↔ π / 2 < InnerProductGeometry.angle (bodyAxis q) upright := by
  rw [InnerProductGeometry.angle, bodyAxis_norm q hq, upright_norm, bodyAxis_inner, mul_one, div_one,
    pi_div_two_lt_arccos, neg_lt_zero]
  rfl

theorem overturned_iff_badOrientation (q : Quaternion ℝ) (hq : Quaternion.normSq q = 1) :
    Overturned (projectedGravity q) ↔ badOrientation q (π / 2) := by
  rw [badOrientation, eigenProduct_star q hq, abs_of_nonneg (arccos_nonneg _), pi_div_two_lt_arccos,
    neg_lt_zero]
  rfl

/- The controller computes with rational numbers. -/
theorem checkTermination_iff {σ : Type} (c : Controller σ) (state : LowState) :
    (c.lowStateMessageHandler state).checkTermination = true ↔
      Overturned (projectedGravity (ofQuat (Rat.castHom ℝ) state.imuState.quaternion)) := by
  rw [← updateProjectedGravity_eq]
  show decide (0 < (updateProjectedGravity state.imuState.quaternion).z) = true ↔
    0 < (((updateProjectedGravity state.imuState.quaternion).z : ℚ) : ℝ)
  rw [decide_eq_true_iff, Rat.cast_pos]

/-- The two computations of the gravity are the rotation of `(0, 0, -1)` by the inverse
quaternion, and the two tests ask whether the body is turned by more than a
right angle. -/
theorem tilt_agrees (q : Quaternion ℝ) (hq : Quaternion.normSq q = 1) :
    imaginary (projectedGravity q) = star q * imaginary ![0, 0, -1] * q ∧
    projectedGravity q 0 ^ 2 + projectedGravity q 1 ^ 2 + projectedGravity q 2 ^ 2 = 1 ∧
    eigenProduct (star q) ![0, 0, -1] = projectedGravity q ∧
    (Overturned (projectedGravity q) ↔
      π / 2 < InnerProductGeometry.angle (bodyAxis q) upright) ∧
    (Overturned (projectedGravity q) ↔ badOrientation q (π / 2)) ∧
    ∀ {σ : Type} (c : Controller σ) (state : LowState),
      ofQuat (Rat.castHom ℝ) state.imuState.quaternion = q →
      ((c.lowStateMessageHandler state).checkTermination = true ↔
        π / 2 < InnerProductGeometry.angle (bodyAxis q) upright) := by
  refine ⟨projectedGravity_hamilton q, projectedGravity_length q hq, eigenProduct_star q hq,
    overturned_iff_angle q hq, overturned_iff_badOrientation q hq, ?_⟩
  intro σ c state hstate
  rw [checkTermination_iff, hstate]
  exact overturned_iff_angle q hq

/- A body that lies on its back, turned about its forward axis. -/
theorem tilt_agrees_on_back :
    Quaternion.normSq (imaginary ![1, 0, 0] : Quaternion ℝ) = 1 ∧
    π / 2 < InnerProductGeometry.angle (bodyAxis (imaginary ![1, 0, 0])) upright := by
  have hq : Quaternion.normSq (imaginary ![1, 0, 0] : Quaternion ℝ) = 1 := by
    simp [Quaternion.normSq_def']
  have hback : Overturned (projectedGravity (imaginary ![1, 0, 0])) := by
    simp [Overturned, projectedGravity]
  exact ⟨hq, (tilt_agrees (imaginary ![1, 0, 0]) hq).2.2.2.1.mp hback⟩

end TypegoSdk.StateMachine.Tilt
