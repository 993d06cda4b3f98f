import TypegoSdk.Lib.Bytes
import TypegoSdk.Remote.Joystick
import Mathlib.Data.List.Induction

/-!
# The 40 bytes of the remote (REMOTE_DATA_RX of unitree_joystick.hpp)

`combine` fills a local union that is not initialised: the buttons, which it
assigns bit by bit, and four of the five floats. The publisher of LowState
copies all 40 bytes into the message, and the subscriber takes 40 zero bytes
for a remote that is not in use.
-/

namespace TypegoSdk.Remote
open TypegoSdk.Lib

/- An assignment to one of the bit fields. -/
def BtnUnion.assign (value : BtnUnion) (k : Key) (bit : Bool) : BtnUnion :=
  if bit then value ||| BitVec.twoPow 16 k.bit else value &&& ~~~BitVec.twoPow 16 k.bit

theorem Key.bit_lt (k : Key) : k.bit < 16 := by
  cases k <;> decide

theorem Key.bit_injective {k k' : Key} (h : k.bit = k'.bit) : k = k' := by
  have hk := Key.all_bit k
  rw [h, Key.all_bit k'] at hk
  exact (Option.some.inj hk).symm

theorem component_assign (value : BtnUnion) (k k' : Key) (bit : Bool) :
    (value.assign k bit).component k' = if k' = k then bit else value.component k' := by
  have hlt := k'.bit_lt
  by_cases hk : k' = k
  · subst hk
    cases bit with
    | false => simp [BtnUnion.component, BtnUnion.assign, hlt]
    | true => simp [BtnUnion.component, BtnUnion.assign, hlt]
  · have hbit : k.bit ≠ k'.bit := fun h => hk (Key.bit_injective h).symm
    cases bit with
    | false => simp [BtnUnion.component, BtnUnion.assign, hk, hbit.symm, hlt]
    | true => simp [BtnUnion.component, BtnUnion.assign, hk, hbit]

/- The last assignment to a bit field is the one that counts. -/
theorem component_foldl (writes : List (Key × Bool)) (value : BtnUnion) (k : Key) :
    (writes.foldl (fun value w => value.assign w.1 w.2) value).component k =
      (writes.reverse.lookup k).getD (value.component k) := by
  induction writes using List.reverseRecOn with
  | nil => rfl
  | append_singleton writes w ih =>
    rw [List.foldl_append, List.foldl_cons, List.foldl_nil, component_assign, ih,
      List.reverse_append, List.reverse_singleton, List.singleton_append, List.lookup_cons]
    by_cases hk : k = w.1
    · simp [hk]
    · rw [if_neg hk, beq_false_of_ne hk]

theorem BtnUnion.ext_component {v w : BtnUnion} (h : ∀ k, v.component k = w.component k) :
    v = w := by
  have hall : ∀ i < 16, ∃ k ∈ Key.all, k.bit = i := by decide
  apply BitVec.eq_of_getLsbD_eq
  intro i hi
  obtain ⟨k, -, rfl⟩ := hall i hi
  exact h k

/-- How a `float` lies in memory. -/
structure FloatBytes where
  bytes : ℚ → Bytes
  length : ∀ x, (bytes x).length = 4
  zero : bytes 0 = [0, 0, 0, 0]

structure RemoteDataRx where
  buff : Bytes
  size : buff.length = 40

namespace UnitreeJoystick

/- The assignments to the bit fields, in their order. -/
def btnWrites (j : UnitreeJoystick) : List (Key × Bool) :=
  [(.select, j.back.bit), (.start, j.start.bit), (.L1, j.LB.bit), (.R1, j.RB.bit),
   (.F1, j.F1.bit), (.F2, j.F2.bit), (.A, j.A.bit), (.B, j.B.bit), (.X, j.X.bit), (.Y, j.Y.bit),
   (.up, j.up.bit), (.down, j.down.bit), (.left, j.left.bit), (.right, j.right.bit),
   (.L2, j.LT.data > 1 / 2), (.R2, j.RT.data > 1 / 2)]

def combineBtn (j : UnitreeJoystick) (value : BtnUnion) : BtnUnion :=
  j.btnWrites.foldl (fun value w => value.assign w.1 w.2) value

/- All 16 bits are assigned, so nothing of the old value is left. -/
theorem combineBtn_eq (j : UnitreeJoystick) (value : BtnUnion) (unset : ℚ) :
    j.combineBtn value = (j.combine unset).btn := by
  apply BtnUnion.ext_component
  intro k
  rw [combine, component_ofComponents, combineBtn, component_foldl]
  cases k <;> rfl

def btnValue (buff : Bytes) : BtnUnion := (u16le.value (buff.drop 2)).toBitVec
def btnBytes (value : BtnUnion) : Bytes := u16le.bytes (UInt16.ofBitVec value)

/- `combine` on the local union `key`: the buttons at 2, lx at 4, ly at 20, rx at 8
and ry at 12. -/
def combineBuff (F : FloatBytes) (j : UnitreeJoystick) (key : Bytes) : Bytes :=
  let key := store key 2 (btnBytes (j.combineBtn (btnValue key)))
  let key := store key 4 (F.bytes j.lx.data)
  let key := store key 20 (F.bytes j.ly.data)
  let key := store key 8 (F.bytes j.rx.data)
  store key 12 (F.bytes j.ry.data)

/- What it leaves as it was: `head`, `L2` and everything behind the struct. -/
def LeftOut (i : ℕ) : Prop := i < 2 ∨ (16 ≤ i ∧ i < 20) ∨ 24 ≤ i

instance (i : ℕ) : Decidable (LeftOut i) := inferInstanceAs (Decidable (_ ∨ _))

/- The bytes it writes. -/
def written (F : FloatBytes) (j : UnitreeJoystick) (i : ℕ) : UInt8 :=
  if i < 4 then (btnBytes (j.combine 0).btn).getD (i - 2) 0
  else if i < 8 then (F.bytes j.lx.data).getD (i - 4) 0
  else if i < 12 then (F.bytes j.rx.data).getD (i - 8) 0
  else if i < 16 then (F.bytes j.ry.data).getD (i - 12) 0
  else (F.bytes j.ly.data).getD (i - 20) 0

theorem btnBytes_length (value : BtnUnion) : (btnBytes value).length = 2 := u16le.bytes_length _

section Buff
variable (F : FloatBytes) (j : UnitreeJoystick) {key : Bytes} (h : key.length = 40)
include h

theorem store_btn (value : BtnUnion) : (store key 2 (btnBytes value)).length = 40 := by
  rw [store_length (by rw [btnBytes_length]; omega), h]

theorem store_float (x : ℚ) {off : ℕ} (hoff : off ≤ 36) :
    (store key off (F.bytes x)).length = 40 := by
  rw [store_length (by rw [F.length]; omega), h]

theorem combineBuff_length : (combineBuff F j key).length = 40 := by
  have h1 := store_btn h (j.combineBtn (btnValue key))
  have h2 := store_float F h1 j.lx.data (show 4 ≤ 36 by omega)
  have h3 := store_float F h2 j.ly.data (show 20 ≤ 36 by omega)
  have h4 := store_float F h3 j.rx.data (show 8 ≤ 36 by omega)
  exact store_float F h4 j.ry.data (by omega)

/- Byte by byte: left out, or written from the joystick alone. -/
theorem combineBuff_getD (i : ℕ) :
    (combineBuff F j key).getD i 0 = if LeftOut i then key.getD i 0 else written F j i := by
  have hbtn := btnBytes_length (j.combine 0).btn
  have h1 := store_btn h (j.combine 0).btn
  have h2 := store_float F h1 j.lx.data (show 4 ≤ 36 by omega)
  have h3 := store_float F h2 j.ly.data (show 20 ≤ 36 by omega)
  have h4 := store_float F h3 j.rx.data (show 8 ≤ 36 by omega)
  simp only [combineBuff, combineBtn_eq j _ 0]
  rw [store_getD (by rw [F.length]; omega), store_getD (by rw [F.length]; omega),
    store_getD (by rw [F.length]; omega), store_getD (by rw [F.length]; omega),
    store_getD (by omega)]
  simp only [F.length, hbtn]
  by_cases hleft : LeftOut i
  · rw [if_pos hleft]
    unfold LeftOut at hleft
    rw [if_neg (by omega), if_neg (by omega), if_neg (by omega), if_neg (by omega),
      if_neg (by omega)]
  · rw [if_neg hleft, written]
    unfold LeftOut at hleft
    split_ifs <;> first | rfl | omega

end Buff

def combineFrame (F : FloatBytes) (j : UnitreeJoystick) (key : RemoteDataRx) : RemoteDataRx :=
  ⟨combineBuff F j key.buff, combineBuff_length F j key.size⟩

/-- All buttons null, all axes zero. -/
structure Null (j : UnitreeJoystick) : Prop where
  buttons : ∀ b ∈ [j.back, j.start, j.LB, j.RB, j.F1, j.F2, j.A, j.B, j.X, j.Y, j.up, j.down,
    j.left, j.right], b.data = 0
  axes : ∀ a ∈ [j.lx, j.ly, j.rx, j.ry, j.LT, j.RT], a.data = 0

theorem Null.btn {j : UnitreeJoystick} (h : Null j) : (j.combine 0).btn = 0#16 := by
  apply BtnUnion.ext_component
  intro k
  have hnull : ∀ b ∈ [j.back, j.start, j.LB, j.RB, j.F1, j.F2, j.A, j.B, j.X, j.Y, j.up, j.down,
      j.left, j.right], b.bit = false := by
    intro b hb
    rw [Button.bit, h.buttons b hb]
    rfl
  have hLT : j.LT.data = 0 := h.axes _ (by simp)
  have hRT : j.RT.data = 0 := h.axes _ (by simp)
  have hhalf : ¬(0 : ℚ) > 1 / 2 := by norm_num
  rw [combine, component_ofComponents, BtnUnion.component, BitVec.getLsbD_zero]
  cases k with
  | L2 => simp only [hLT, hhalf, decide_false]
  | R2 => simp only [hRT, hhalf, decide_false]
  | R1 | L1 | start | select | F1 | F2 | A | B | X | Y | up | right | down | left =>
    exact hnull _ (by simp)

theorem Null.written {F : FloatBytes} {j : UnitreeJoystick} (h : Null j) {i : ℕ} (hi : i < 24)
    (hleft : ¬LeftOut i) : written F j i = 0 := by
  have hbtn : ∀ n < 2, (btnBytes 0#16).getD n 0 = 0 := by decide
  have hfloat : ∀ a ∈ [j.lx, j.ly, j.rx, j.ry, j.LT, j.RT], ∀ n < 4,
      (F.bytes a.data).getD n 0 = 0 := by
    intro a ha n hn
    rw [h.axes a ha, F.zero]
    have hzero : ∀ n < 4, ([0, 0, 0, 0] : Bytes).getD n 0 = 0 := by decide
    exact hzero n hn
  unfold LeftOut at hleft
  rw [UnitreeJoystick.written, h.btn]
  split_ifs
  · exact hbtn _ (by omega)
  · exact hfloat _ (by simp) _ (by omega)
  · exact hfloat _ (by simp) _ (by omega)
  · exact hfloat _ (by simp) _ (by omega)
  · exact hfloat _ (by simp) _ (by omega)

/- The test of LowState::update. -/
def inactive (remote : Bytes) : Bool := remote.all (· == 0)

theorem inactive_iff {remote : Bytes} {n : ℕ} (h : remote.length = n) :
    inactive remote = true ↔ ∀ i < n, remote.getD i 0 = 0 := by
  rw [inactive, List.all_eq_true]
  constructor
  · intro hall i hi
    have hlt : i < remote.length := by omega
    rw [List.getD_eq_getElem _ _ hlt]
    simpa using hall _ (List.getElem_mem hlt)
  · intro hall b hb
    obtain ⟨i, hi, rfl⟩ := List.getElem_of_mem hb
    have hzero := hall i (by omega)
    rw [List.getD_eq_getElem _ _ hi] at hzero
    simp [hzero]

/-- The frame is the same for two contents of the local union exactly when they
agree where `combine` writes nothing; a null joystick gives 40 zero bytes, and is
recognised, exactly when these are zero. -/
theorem combineFrame_eq_iff (F : FloatBytes) (j : UnitreeJoystick) (a b : RemoteDataRx) :
    (combineFrame F j a = combineFrame F j b ↔
      ∀ i < 40, LeftOut i → a.buff.getD i 0 = b.buff.getD i 0) ∧
    (Null j → (inactive (combineFrame F j a).buff = true ↔
      ∀ i < 40, LeftOut i → a.buff.getD i 0 = 0)) := by
  refine ⟨?_, fun hnull => ?_⟩
  · constructor
    · intro h i _ hleft
      have hbyte := congrArg (fun key : RemoteDataRx => key.buff.getD i 0) h
      simp only [combineFrame, combineBuff_getD F j a.size, combineBuff_getD F j b.size,
        if_pos hleft] at hbyte
      exact hbyte
    · intro h
      rw [combineFrame, combineFrame, RemoteDataRx.mk.injEq]
      apply ext_getD (by rw [combineBuff_length F j a.size, combineBuff_length F j b.size])
      intro i hi
      rw [combineBuff_length F j a.size] at hi
      rw [combineBuff_getD F j a.size, combineBuff_getD F j b.size]
      split
      · rename_i hleft
        exact h i hi hleft
      · rfl
  · rw [inactive_iff (combineFrame F j a).size]
    constructor
    · intro h i hi hleft
      have hbyte := h i hi
      rw [combineFrame, combineBuff_getD F j a.size, if_pos hleft] at hbyte
      exact hbyte
    · intro h i hi
      rw [combineFrame, combineBuff_getD F j a.size]
      split
      · rename_i hleft
        exact h i hi hleft
      · rename_i hleft
        have hlow : i < 24 := by
          unfold LeftOut at hleft
          omega
        exact hnull.written hlow hleft

theorem init_null : Null init := by
  constructor
  · simp [init, Button.init]
  · simp [init, Axis.init]

/- The local union as the stack may leave it, with one byte of `head` set or none. -/
def dirtyKey : RemoteDataRx := ⟨7 :: List.replicate 39 0, rfl⟩
def cleanKey : RemoteDataRx := ⟨List.replicate 40 0, rfl⟩

/- Floats of which only zero is looked at. -/
def zeroFloats : FloatBytes := ⟨fun _ => [0, 0, 0, 0], fun _ => rfl, rfl⟩

/- The byte of `head` is sent, and a null joystick counts as one in use. -/
theorem head_not_cleared :
    Null init ∧ combineFrame zeroFloats init dirtyKey ≠ combineFrame zeroFloats init cleanKey ∧
    inactive (combineFrame zeroFloats init dirtyKey).buff = false ∧
    inactive (combineFrame zeroFloats init cleanKey).buff = true := by
  refine ⟨init_null, ?_, by decide +kernel, by decide +kernel⟩
  intro h
  have hhead := congrArg (fun key : RemoteDataRx => key.buff.getD 0 0) h
  simp only [combineFrame, combineBuff_getD zeroFloats init dirtyKey.size,
    combineBuff_getD zeroFloats init cleanKey.size, if_pos (show LeftOut 0 from .inl (by omega))]
    at hhead
  exact absurd hhead (by decide)

end UnitreeJoystick
end TypegoSdk.Remote
