import TypegoSdk.Lib.Smooth
import TypegoSdk.Remote.Keys
import Mathlib.Algebra.Order.Ring.Rat
import Mathlib.Algebra.Order.Group.Unbundled.Abs
import Mathlib.Tactic.Linarith
import Mathlib.Tactic.NormNum

/-!
# The joystick bridge (include/unitree/dds_wrapper/common/unitree_joystick.hpp)

`extract` reads a packet of the remote into a joystick and `combine` makes a
packet of it. Fourteen buttons are kept as they are. L2 and R2 go through axes,
which are smoothed, and come back as a comparison with one half. The arithmetic
is exact.
-/

namespace TypegoSdk.Remote
open TypegoSdk.Lib

/- `Button<int>`. -/
structure Button where
  pressed : Bool
  onPressed : Bool
  onReleased : Bool
  data : ℤ
  deriving DecidableEq

namespace Button

def init : Button := ⟨false, false, false, 0⟩

def update (b : Button) (data : ℤ) : Button where
  pressed := data ≠ 0
  onPressed := data ≠ 0 ∧ b.data = 0
  onReleased := ¬data ≠ 0 ∧ b.data ≠ 0
  data := data

/- Assigned to a field of one bit. -/
def bit (b : Button) : Bool := b.data % 2 = 1

end Button

structure Axis where
  smooth : ℚ
  deadzone : ℚ
  pressed : Bool
  onPressed : Bool
  onReleased : Bool
  threshold : ℚ
  data : ℚ
  deriving DecidableEq

namespace Axis

def init : Axis := ⟨3 / 100, 1 / 100, false, false, false, 1 / 2, 0⟩

def update (a : Axis) (data : ℚ) : Axis :=
  let dataDeadzone := if |data| < a.deadzone then 0 else data
  let newData := a.data * (1 - a.smooth) + dataDeadzone * a.smooth
  {a with
    pressed := newData > a.threshold
    onPressed := newData > a.threshold ∧ a.data < a.threshold
    onReleased := ¬newData > a.threshold ∧ a.data > a.threshold
    data := newData}

end Axis

/-- LS and RS are neither read nor written here. -/
structure UnitreeJoystick where
  back : Button
  start : Button
  LB : Button
  RB : Button
  A : Button
  B : Button
  X : Button
  Y : Button
  up : Button
  down : Button
  left : Button
  right : Button
  F1 : Button
  F2 : Button
  lx : Axis
  ly : Axis
  rx : Axis
  ry : Axis
  LT : Axis
  RT : Axis
  deriving DecidableEq

namespace UnitreeJoystick

def init : UnitreeJoystick where
  back := .init
  start := .init
  LB := .init
  RB := .init
  A := .init
  B := .init
  X := .init
  Y := .init
  up := .init
  down := .init
  left := .init
  right := .init
  F1 := .init
  F2 := .init
  lx := .init
  ly := .init
  rx := .init
  ry := .init
  LT := .init
  RT := .init

/- A component as the number it converts to. -/
def asInt (key : RockerBtnData) (k : Key) : ℤ := if key.btn.component k then 1 else 0
def level (bit : Bool) : ℚ := if bit then 1 else 0

def extract (j : UnitreeJoystick) (key : RockerBtnData) : UnitreeJoystick where
  back := j.back.update (asInt key .select)
  start := j.start.update (asInt key .start)
  LB := j.LB.update (asInt key .L1)
  RB := j.RB.update (asInt key .R1)
  F1 := j.F1.update (asInt key .F1)
  F2 := j.F2.update (asInt key .F2)
  A := j.A.update (asInt key .A)
  B := j.B.update (asInt key .B)
  X := j.X.update (asInt key .X)
  Y := j.Y.update (asInt key .Y)
  up := j.up.update (asInt key .up)
  down := j.down.update (asInt key .down)
  left := j.left.update (asInt key .left)
  right := j.right.update (asInt key .right)
  LT := j.LT.update (level (key.btn.component .L2))
  RT := j.RT.update (level (key.btn.component .R2))
  lx := j.lx.update key.rockers.lx
  ly := j.ly.update key.rockers.ly
  rx := j.rx.update key.rockers.rx
  ry := j.ry.update key.rockers.ry

/- The analogue L2 of the packet is not written, so it holds whatever the local
variable held. -/
def combine (j : UnitreeJoystick) (unset : ℚ) : RockerBtnData where
  btn := .ofComponents fun
    | .select => j.back.bit
    | .start => j.start.bit
    | .L1 => j.LB.bit
    | .R1 => j.RB.bit
    | .F1 => j.F1.bit
    | .F2 => j.F2.bit
    | .A => j.A.bit
    | .B => j.B.bit
    | .X => j.X.bit
    | .Y => j.Y.bit
    | .up => j.up.bit
    | .down => j.down.bit
    | .left => j.left.bit
    | .right => j.right.bit
    | .L2 => j.LT.data > 1 / 2
    | .R2 => j.RT.data > 1 / 2
  rockers := ⟨j.lx.data, j.rx.data, j.ry.data, unset, j.ly.data⟩

/- The joystick after a sequence of packets. -/
def after (packets : List RockerBtnData) : UnitreeJoystick := packets.foldl extract init

/-! ### The fourteen buttons -/

theorem update_bit (b : Button) (key : RockerBtnData) (k : Key) :
    (b.update (asInt key k)).bit = key.btn.component k := by
  unfold Button.update Button.bit asInt
  cases key.btn.component k <;> rfl

theorem combine_button (j : UnitreeJoystick) (key : RockerBtnData) (unset : ℚ) (k : Key)
    (hL : k ≠ .L2) (hR : k ≠ .R2) :
    ((j.extract key).combine unset).btn.component k = key.btn.component k := by
  rw [combine, component_ofComponents]
  cases k with
  | L2 => exact absurd rfl hL
  | R2 => exact absurd rfl hR
  | R1 | L1 | start | select | F1 | F2 | A | B | X | Y | up | right | down | left =>
    exact update_bit ..

/-! ### The two axes -/

/- The axis of a trigger. -/
def trigger (j : UnitreeJoystick) : Key → Axis
  | .L2 => j.LT
  | _ => j.RT

/-- As it is made but for its value. -/
structure Plain (a : Axis) : Prop where
  smooth : a.smooth = 3 / 100
  deadzone : a.deadzone = 1 / 100

theorem update_level {a : Axis} (h : Plain a) (bit : Bool) :
    Plain (a.update (level bit)) ∧ (a.update (level bit)).data = smooth (3 / 100) a.data (level bit) := by
  refine ⟨⟨h.smooth, h.deadzone⟩, ?_⟩
  have hd : (if |level bit| < a.deadzone then 0 else level bit) = level bit := by
    rw [h.deadzone]
    cases bit <;> norm_num [level]
  simp only [Axis.update, hd, h.smooth, smooth]

theorem extract_trigger (j : UnitreeJoystick) (key : RockerBtnData) (k : Key)
    (hk : k = .L2 ∨ k = .R2) :
    (j.extract key).trigger k = (j.trigger k).update (level (key.btn.component k)) := by
  rcases hk with rfl | rfl <;> rfl

theorem foldl_trigger (j : UnitreeJoystick) (packets : List RockerBtnData) (k : Key)
    (hk : k = .L2 ∨ k = .R2) (h : Plain (j.trigger k)) :
    ((packets.foldl extract j).trigger k).data =
      settle (3 / 100) (j.trigger k).data
        (packets.map fun key => level (key.btn.component k)) := by
  induction packets generalizing j with
  | nil => rfl
  | cons key packets ih =>
    obtain ⟨hplain, hdata⟩ := update_level h (key.btn.component k)
    rw [← extract_trigger j key k hk] at hplain hdata
    rw [List.foldl_cons, ih (j.extract key) hplain, hdata]
    rfl

theorem combine_trigger (packets : List RockerBtnData) (unset : ℚ) (k : Key)
    (hk : k = .L2 ∨ k = .R2) :
    ((after packets).combine unset).btn.component k =
      decide (1 / 2 < settle (3 / 100) 0 (packets.map fun key => level (key.btn.component k))) := by
  have hplain : Plain (init.trigger k) := by
    rcases hk with rfl | rfl <;> exact ⟨rfl, rfl⟩
  have hzero : (init.trigger k).data = 0 := by
    rcases hk with rfl | rfl <;> rfl
  have hdata := foldl_trigger init packets k hk hplain
  rw [hzero] at hdata
  rw [← hdata, combine, component_ofComponents]
  rcases hk with rfl | rfl <;> rfl

/- Twenty-three equal inputs take the axis over the threshold, or under it. -/
theorem settled {x : ℚ} (hx : x ∈ Set.Icc (0 : ℚ) 1) (bit : Bool) (n : ℕ) (hn : 23 ≤ n) :
    decide (1 / 2 < settle (3 / 100) x (List.replicate n (level bit))) = bit := by
  have hpow : (1 - 3 / 100 : ℚ) ^ n < 1 / 2 := by
    calc (1 - 3 / 100 : ℚ) ^ n ≤ (1 - 3 / 100) ^ 23 :=
          pow_le_pow_of_le_one (by norm_num) (by norm_num) hn
      _ < 1 / 2 := by norm_num
  have hpos : (0 : ℚ) ≤ (1 - 3 / 100) ^ n := pow_nonneg (by norm_num) n
  rw [settle_replicate]
  generalize (1 - 3 / 100 : ℚ) ^ n = p at hpow hpos
  cases bit with
  | false =>
    have hle : p * x ≤ p * 1 := mul_le_mul_of_nonneg_left hx.2 hpos
    rw [decide_eq_false_iff_not, not_lt, level, if_neg (by simp)]
    linarith
  | true =>
    have hle : 0 ≤ p * x := mul_nonneg hpos hx.1
    rw [decide_eq_true_iff, level, if_pos rfl]
    linarith

/-- After each `extract`, `combine` has the packet's bits but for L2 and R2. The
bit of these is that of the smoothed bits of all packets over one half, which is
the packet's own once it has been the same in 23 packets. -/
theorem combine_extract (packets : List RockerBtnData) (key : RockerBtnData) (unset : ℚ)
    (k : Key) :
    (k ≠ .L2 → k ≠ .R2 →
      (((after packets).extract key).combine unset).btn.component k = key.btn.component k) ∧
    (k = .L2 ∨ k = .R2 →
      (((after packets).extract key).combine unset).btn.component k = decide (1 / 2 <
        settle (3 / 100) 0 ((packets ++ [key]).map fun key => level (key.btn.component k))) ∧
      ∀ older recent, packets ++ [key] = older ++ recent → 23 ≤ recent.length →
        (∀ p ∈ recent, p.btn.component k = key.btn.component k) →
        (((after packets).extract key).combine unset).btn.component k = key.btn.component k) := by
  refine ⟨combine_button (after packets) key unset k, fun hk => ?_⟩
  have hafter : (after packets).extract key = after (packets ++ [key]) := by
    rw [after, after, List.foldl_append]
    rfl
  have htrigger := combine_trigger (packets ++ [key]) unset k hk
  rw [hafter]
  refine ⟨htrigger, fun older recent hsplit hlen hsame => ?_⟩
  have hrecent : (recent.map fun key => level (key.btn.component k)) =
      List.replicate recent.length (level (key.btn.component k)) := by
    refine List.eq_replicate_iff.2 ⟨List.length_map .., fun u hu => ?_⟩
    obtain ⟨p, hp, rfl⟩ := List.mem_map.1 hu
    rw [hsame p hp]
  have holder : settle (3 / 100) 0 (older.map fun key => level (key.btn.component k)) ∈
      Set.Icc (0 : ℚ) 1 := by
    refine settle_mem (by norm_num) (by norm_num) _ fun u hu => ?_
    obtain ⟨p, _, rfl⟩ := List.mem_map.1 hu
    cases p.btn.component k <;> norm_num [level]
  rw [htrigger, hsplit, List.map_append, settle_append, hrecent]
  exact settled holder _ _ hlen

/- A packet with one button held. -/
def holding (k : Key) : RockerBtnData := ⟨.ofComponents fun k' => decide (k' = k), ⟨0, 0, 0, 0, 0⟩⟩

/- L2 held for 23 packets is seen. -/
theorem combine_extract_held :
    (((after (List.replicate 22 (holding .L2))).extract (holding .L2)).combine 0).btn.component .L2 =
      true := by
  have h := ((combine_extract (List.replicate 22 (holding .L2)) (holding .L2) 0 .L2).2
    (.inl rfl)).2 [] (List.replicate 23 (holding .L2)) rfl (by simp) (by
      intro p hp
      rw [List.eq_of_mem_replicate hp])
  rw [h]
  decide

/- The first packet with L2 is not. -/
theorem combine_extract_first :
    (holding .L2).btn.component .L2 = true ∧
    ((after []).extract (holding .L2)).LT.data = 3 / 100 ∧
    (((after []).extract (holding .L2)).combine 0).btn.component .L2 = false ∧
    ¬∀ packets key unset k,
      (((after packets).extract key).combine unset).btn.component k = key.btn.component k := by
  have hout : (((after []).extract (holding .L2)).combine 0).btn.component .L2 = false := by
    decide +kernel
  refine ⟨by decide, by decide +kernel, hout, fun h => ?_⟩
  have hbit := h [] (holding .L2) 0 .L2
  rw [hout] at hbit
  exact absurd hbit (by decide)

end UnitreeJoystick

end TypegoSdk.Remote
