import Mathlib.Data.Rat.Init

/-!
# The remote's packet

The 16 buttons of the remote and their bits, as both unions lay them out
(xKeySwitchUnion of example/state_machine/gamepad.hpp, BtnUnion of
include/unitree/dds_wrapper/common/unitree_joystick.hpp).
-/

namespace TypegoSdk.Remote

inductive Key where
  | R1 | L1 | start | select | R2 | L2 | F1 | F2 | A | B | X | Y | up | right | down | left
  deriving DecidableEq

/- In the order of their bits. -/
def Key.all : List Key :=
  [.R1, .L1, .start, .select, .R2, .L2, .F1, .F2, .A, .B, .X, .Y, .up, .right, .down, .left]

def Key.bit : Key → ℕ
  | .R1 => 0
  | .L1 => 1
  | .start => 2
  | .select => 3
  | .R2 => 4
  | .L2 => 5
  | .F1 => 6
  | .F2 => 7
  | .A => 8
  | .B => 9
  | .X => 10
  | .Y => 11
  | .up => 12
  | .right => 13
  | .down => 14
  | .left => 15

theorem Key.all_bit (k : Key) : Key.all[k.bit]? = some k := by
  cases k <;> rfl

/- `value` and `components` of the union. -/
abbrev BtnUnion := BitVec 16

def BtnUnion.component (value : BtnUnion) (k : Key) : Bool := value.getLsbD k.bit

def BtnUnion.ofComponents (component : Key → Bool) : BtnUnion :=
  BitVec.ofBoolListLE (Key.all.map component)

@[simp] theorem component_ofComponents (component : Key → Bool) (k : Key) :
    (BtnUnion.ofComponents component).component k = component k := by
  rw [BtnUnion.component, BtnUnion.ofComponents]
  have h : (Key.all.map component).getD k.bit false = component k := by
    rw [List.getD_eq_getElem?_getD, List.getElem?_map, Key.all_bit]
    rfl
  rw [← h]
  exact BitVec.getLsbD_ofBoolListLE ..

/-- The four sticks and the analogue trigger. -/
structure Rockers where
  lx : ℚ
  rx : ℚ
  ry : ℚ
  L2 : ℚ
  ly : ℚ
  deriving DecidableEq

structure RockerBtnData where
  btn : BtnUnion
  rockers : Rockers
  deriving DecidableEq

end TypegoSdk.Remote
