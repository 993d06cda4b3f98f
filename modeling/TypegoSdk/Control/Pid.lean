import Mathlib.Algebra.Order.Field.Basic
import Mathlib.Tactic.Linarith
import Mathlib.Tactic.Positivity

/-!
# The PID controllers (example/go2/typego_control_interface.cpp)

The class `PID` and what `Go2RemoteControl` configures: its three controllers
and its error bounds. In exact arithmetic, over any ordered field; `pi` stands
for `M_PI`.
-/

namespace TypegoSdk.Control
variable {K : Type} [Field K] [LinearOrder K]

/- `std::clamp`. -/
def clamp (v lo hi : K) : K := if v < lo then lo else if hi < v then hi else v

structure Pid (K : Type) where
  kp : K
  ki : K
  kd : K
  rate : K
  dt : K
  lastError : K
  integral : K
  tau : K
  filteredDerivative : K
  iLimit : K
  oLimit : K
  deriving DecidableEq

namespace Pid

def init (pi kp ki kd rate cutoffFreq iLimit oLimit : K) : Pid K where
  kp := kp
  ki := ki
  kd := kd
  rate := rate
  dt := 1 / rate
  lastError := 0
  integral := 0
  tau := if cutoffFreq > 0 then 1 / (2 * pi * cutoffFreq) else 0
  filteredDerivative := 0
  iLimit := iLimit
  oLimit := oLimit

/- The state after `update(error)` and the output. -/
def update (p : Pid K) (error : K) : Pid K × K :=
  let rawDerivative := (error - p.lastError) * p.rate
  let alpha := p.dt / (p.tau + p.dt)
  let filteredDerivative :=
    if p.tau > 0 then p.filteredDerivative * (1 - alpha) + rawDerivative * alpha
    else rawDerivative
  let sum := p.integral + error * p.dt
  let integral := if p.iLimit > 0 then clamp sum (-p.iLimit) p.iLimit else sum
  let output := p.kp * error + p.kd * filteredDerivative + p.ki * integral
  ({p with
      lastError := error
      filteredDerivative := filteredDerivative
      integral := integral},
    if p.oLimit > 0 then clamp output (-p.oLimit) p.oLimit else output)

/-- A controller with the gain `kp` alone and a limited output, as the three of
`Go2RemoteControl` are. -/
structure Proportional (kp oLimit : K) (p : Pid K) : Prop where
  gain : p.kp = kp
  noIntegral : p.ki = 0
  noDerivative : p.kd = 0
  limit : p.oLimit = oLimit

theorem init_proportional (pi kp rate cutoffFreq iLimit oLimit : K) :
    Proportional kp oLimit (init pi kp 0 0 rate cutoffFreq iLimit oLimit) := ⟨rfl, rfl, rfl, rfl⟩

theorem Proportional.update {kp oLimit : K} {p : Pid K} (h : Proportional kp oLimit p) (error : K) :
    Proportional kp oLimit (p.update error).1 :=
  ⟨h.gain, h.noIntegral, h.noDerivative, h.limit⟩

theorem Proportional.output {kp oLimit : K} {p : Pid K} (h : Proportional kp oLimit p)
    (ho : oLimit > 0) (error : K) : (p.update error).2 = clamp (kp * error) (-oLimit) oLimit := by
  simp only [Pid.update, h.gain, h.noIntegral, h.noDerivative, h.limit, if_pos ho, zero_mul,
    add_zero]

section NonZero
variable [IsStrictOrderedRing K]

theorem clamp_ne_zero {v limit : K} (hl : 0 < limit) (hv : v ≠ 0) : clamp v (-limit) limit ≠ 0 := by
  unfold clamp
  split
  · exact (neg_lt_zero.mpr hl).ne
  · split
    · exact hl.ne'
    · exact hv

theorem Proportional.output_ne_zero {kp oLimit : K} {p : Pid K} (h : Proportional kp oLimit p)
    (hk : kp > 0) (ho : oLimit > 0) {error : K} (he : error ≠ 0) : (p.update error).2 ≠ 0 := by
  rw [h.output ho]
  exact clamp_ne_zero ho (mul_ne_zero hk.ne' he)

end NonZero

end Pid

/-! ### Constants of the remote control -/

/-- The constant and the functions of `cmath` that the motions use. -/
structure Trig (K : Type) [Field K] [LinearOrder K] where
  pi : K
  cos : K → K
  sin : K → K
  pi_pos : 0 < pi
  sq_add_sq : ∀ a, cos a ^ 2 + sin a ^ 2 = 1

/- "Handle yaw wrap-around". -/
def wrap (pi yawDiff : K) : K :=
  if yawDiff > pi then yawDiff - 2 * pi
  else if yawDiff < -pi then yawDiff + 2 * pi
  else yawDiff

structure Controllers (K : Type) where
  yaw : Pid K
  x : Pid K
  y : Pid K

def Controllers.init (trig : Trig K) : Controllers K where
  yaw := .init trig.pi 10 0 0 100 10 (1 / 2) 2
  x := .init trig.pi 2 0 0 100 10 (1 / 2) 1
  y := .init trig.pi 2 0 0 100 10 (1 / 2) 1

def controlErrorYaw : K := 1 / 100
def controlError : K := 1 / 20

structure Controllers.Tuned (pids : Controllers K) : Prop where
  yaw : pids.yaw.Proportional 10 2
  x : pids.x.Proportional 2 1
  y : pids.y.Proportional 2 1

theorem init_tuned (trig : Trig K) : (Controllers.init trig).Tuned :=
  ⟨Pid.init_proportional .., Pid.init_proportional .., Pid.init_proportional ..⟩

end TypegoSdk.Control
