import TypegoSdk.Lib.Bytes
import TypegoSdk.Lib.Crc

/-!
# crc16_core (dds_wrapper/common/crc.h)

A table gives the eight shifts of the low byte. It is checked entry by entry
against the shifts; that a byte can be folded in through it is linearity.
-/

namespace TypegoSdk.Dds
open TypegoSdk.Lib

def wCRCTable : List UInt16 :=
  [0x0000, 0xC0C1, 0xC181, 0x0140, 0xC301, 0x03C0, 0x0280, 0xC241,
   0xC601, 0x06C0, 0x0780, 0xC741, 0x0500, 0xC5C1, 0xC481, 0x0440,
   0xCC01, 0x0CC0, 0x0D80, 0xCD41, 0x0F00, 0xCFC1, 0xCE81, 0x0E40,
   0x0A00, 0xCAC1, 0xCB81, 0x0B40, 0xC901, 0x09C0, 0x0880, 0xC841,
   0xD801, 0x18C0, 0x1980, 0xD941, 0x1B00, 0xDBC1, 0xDA81, 0x1A40,
   0x1E00, 0xDEC1, 0xDF81, 0x1F40, 0xDD01, 0x1DC0, 0x1C80, 0xDC41,
   0x1400, 0xD4C1, 0xD581, 0x1540, 0xD701, 0x17C0, 0x1680, 0xD641,
   0xD201, 0x12C0, 0x1380, 0xD341, 0x1100, 0xD1C1, 0xD081, 0x1040,
   0xF001, 0x30C0, 0x3180, 0xF141, 0x3300, 0xF3C1, 0xF281, 0x3240,
   0x3600, 0xF6C1, 0xF781, 0x3740, 0xF501, 0x35C0, 0x3480, 0xF441,
   0x3C00, 0xFCC1, 0xFD81, 0x3D40, 0xFF01, 0x3FC0, 0x3E80, 0xFE41,
   0xFA01, 0x3AC0, 0x3B80, 0xFB41, 0x3900, 0xF9C1, 0xF881, 0x3840,
   0x2800, 0xE8C1, 0xE981, 0x2940, 0xEB01, 0x2BC0, 0x2A80, 0xEA41,
   0xEE01, 0x2EC0, 0x2F80, 0xEF41, 0x2D00, 0xEDC1, 0xEC81, 0x2C40,
   0xE401, 0x24C0, 0x2580, 0xE541, 0x2700, 0xE7C1, 0xE681, 0x2640,
   0x2200, 0xE2C1, 0xE381, 0x2340, 0xE101, 0x21C0, 0x2080, 0xE041,
   0xA001, 0x60C0, 0x6180, 0xA141, 0x6300, 0xA3C1, 0xA281, 0x6240,
   0x6600, 0xA6C1, 0xA781, 0x6740, 0xA501, 0x65C0, 0x6480, 0xA441,
   0x6C00, 0xACC1, 0xAD81, 0x6D40, 0xAF01, 0x6FC0, 0x6E80, 0xAE41,
   0xAA01, 0x6AC0, 0x6B80, 0xAB41, 0x6900, 0xA9C1, 0xA881, 0x6840,
   0x7800, 0xB8C1, 0xB981, 0x7940, 0xBB01, 0x7BC0, 0x7A80, 0xBA41,
   0xBE01, 0x7EC0, 0x7F80, 0xBF41, 0x7D00, 0xBDC1, 0xBC81, 0x7C40,
   0xB401, 0x74C0, 0x7580, 0xB541, 0x7700, 0xB7C1, 0xB681, 0x7640,
   0x7200, 0xB2C1, 0xB381, 0x7340, 0xB101, 0x71C0, 0x7080, 0xB041,
   0x5000, 0x90C1, 0x9181, 0x5140, 0x9301, 0x53C0, 0x5280, 0x9241,
   0x9601, 0x56C0, 0x5780, 0x9741, 0x5500, 0x95C1, 0x9481, 0x5440,
   0x9C01, 0x5CC0, 0x5D80, 0x9D41, 0x5F00, 0x9FC1, 0x9E81, 0x5E40,
   0x5A00, 0x9AC1, 0x9B81, 0x5B40, 0x9901, 0x59C0, 0x5880, 0x9841,
   0x8801, 0x48C0, 0x4980, 0x8941, 0x4B00, 0x8BC1, 0x8A81, 0x4A40,
   0x4E00, 0x8EC1, 0x8F81, 0x4F40, 0x8D01, 0x4DC0, 0x4C80, 0x8C41,
   0x4400, 0x84C1, 0x8581, 0x4540, 0x8701, 0x47C0, 0x4680, 0x8641,
   0x8201, 0x42C0, 0x4380, 0x8341, 0x4100, 0x81C1, 0x8081, 0x4040]

/- The body of the loop. -/
def crc16Round (wCRCWord : UInt16) (data : UInt8) : UInt16 :=
  let nTemp := (data.toUInt16 ^^^ wCRCWord).toUInt8
  (wCRCWord >>> 8) ^^^ wCRCTable.getD nTemp.toNat 0

/- `while (wLength--)`, from the byte at `nData` on. -/
def crc16Loop (memory : Memory) (nData : ℕ) : ℕ → UInt16 → UInt16
  | 0, wCRCWord => wCRCWord
  | wLength + 1, wCRCWord =>
    crc16Loop memory (nData + 1) wLength (crc16Round wCRCWord (memory nData))

/- `crc16_core(nData, wLength)` on what lies in memory from `nData` on. -/
def crc16Core (memory : Memory) (wLength : UInt16) : UInt16 :=
  crc16Loop memory 0 wLength.toNat 0xFFFF

/-! ### Bit at a time -/

def modbusShift (crc : UInt16) : UInt16 :=
  if crc &&& 1 ≠ 0 then (crc >>> 1) ^^^ 0xA001 else crc >>> 1

def modbusByte (crc : UInt16) (data : UInt8) : UInt16 := modbusShift^[8] (crc ^^^ data.toUInt16)

/-- CRC-16/MODBUS: the reflected polynomial 0xA001 and the initial value 0xFFFF. -/
def crc16Modbus (bytes : Bytes) : UInt16 := bytes.foldl modbusByte 0xFFFF

theorem wCRCTable_entries :
    wCRCTable = (List.range 256).map fun i => modbusShift^[8] (UInt16.ofNat i) := by
  decide +kernel

theorem modbusShift_toBitVec (crc : UInt16) :
    (modbusShift crc).toBitVec = shiftBit 0xA001#16 crc.toBitVec := by
  have hlow : crc &&& 1 ≠ 0 ↔ crc.toBitVec.getLsbD 0 = true := by
    rw [ne_eq, ← UInt16.toBitVec_inj, UInt16.toBitVec_and]
    have hone : (1 : UInt16).toBitVec = BitVec.twoPow 16 0 := by decide
    rw [hone, BitVec.and_twoPow]
    cases crc.toBitVec.getLsbD 0 with
    | false => simp
    | true => simp; decide
  simp only [modbusShift, shiftBit, hlow]
  cases crc.toBitVec.getLsbD 0 with
  | false => simp
  | true => simp

theorem modbusShift_iterate (n : ℕ) (crc : UInt16) :
    (modbusShift^[n] crc).toBitVec = (shiftBit 0xA001#16)^[n] crc.toBitVec := by
  induction n generalizing crc with
  | zero => rfl
  | succ n ih =>
    rw [Function.iterate_succ_apply, ih, modbusShift_toBitVec]
    rfl

theorem wCRCTable_toBitVec (nTemp : UInt8) :
    (wCRCTable.getD nTemp.toNat 0).toBitVec =
      (shiftBit 0xA001#16)^[8] (nTemp.toBitVec.setWidth 16) := by
  have hentry : wCRCTable.getD nTemp.toNat 0 = modbusShift^[8] (UInt16.ofNat nTemp.toNat) := by
    rw [wCRCTable_entries, List.getD_eq_getElem?_getD, List.getElem?_map,
      List.getElem?_range nTemp.toNat_lt]
    rfl
  have hlow : (UInt16.ofNat nTemp.toNat).toBitVec = nTemp.toBitVec.setWidth 16 := by
    apply BitVec.eq_of_toNat_eq
    simp
  rw [hentry, modbusShift_iterate, hlow]

/- The low byte of the register is looked up, the high byte moves down. -/
theorem crc16Round_eq (crc : UInt16) (data : UInt8) : crc16Round crc data = modbusByte crc data := by
  have hnTemp : ((data.toUInt16 ^^^ crc).toUInt8).toBitVec =
      (data.toBitVec.setWidth 16 ^^^ crc.toBitVec).setWidth 8 := by
    simp
  have hlow : ∀ i < 8,
      (((data.toBitVec.setWidth 16 ^^^ crc.toBitVec).setWidth 8).setWidth 16).getLsbD i =
      (crc.toBitVec ^^^ data.toBitVec.setWidth 16).getLsbD i := by
    intro i hi
    rw [BitVec.xor_comm crc.toBitVec]
    simp [hi, show i < 16 by omega]
  have hout :
      ((data.toBitVec.setWidth 16 ^^^ crc.toBitVec).setWidth 8).setWidth 16 >>> 8 = 0#16 := by
    apply BitVec.eq_of_getLsbD_eq
    intro i hi
    simp [BitVec.getLsbD_ushiftRight, BitVec.getLsbD_setWidth]
  have hdata : (data.toBitVec.setWidth 16) >>> 8 = 0#16 := by
    apply BitVec.eq_of_getLsbD_eq
    intro i hi
    simp [BitVec.getLsbD_ushiftRight, BitVec.getLsbD_setWidth]
  have hhigh : (crc >>> 8).toBitVec = crc.toBitVec >>> 8 := by
    rw [UInt16.toBitVec_shiftRight]
    rfl
  apply UInt16.toBitVec_inj.mp
  rw [modbusByte, modbusShift_iterate, UInt16.toBitVec_xor, UInt8.toBitVec_toUInt16,
    shiftBits_table _ 8 _ _ hlow hout, BitVec.ushiftRight_xor_distrib, hdata, BitVec.xor_zero]
  simp only [crc16Round]
  rw [UInt16.toBitVec_xor, wCRCTable_toBitVec, hnTemp, hhigh]

theorem crc16Loop_eq (memory : Memory) (nData wLength : ℕ) (crc : UInt16) :
    crc16Loop memory nData wLength crc = (load memory nData wLength).foldl modbusByte crc := by
  induction wLength generalizing nData crc with
  | zero => rfl
  | succ wLength ih =>
    have hload : load memory nData (wLength + 1) =
        memory nData :: load memory (nData + 1) wLength := by
      rw [load, List.range_succ_eq_map, List.map_cons, List.map_map, Nat.add_zero, load]
      congr 1
      apply List.map_congr_left
      intro k _
      rw [Function.comp_apply, Nat.succ_eq_add_one, Nat.add_assoc, Nat.add_comm 1 k]
    rw [crc16Loop, ih, crc16Round_eq, hload, List.foldl_cons]

/-- The table method is CRC-16/MODBUS, for every list that `wLength` can count. -/
theorem crc16Core_eq_modbus (bytes : Bytes) (tail : Memory) (h : bytes.length ≤ 65535) :
    crc16Core (place bytes tail) (UInt16.ofNat bytes.length) = crc16Modbus bytes := by
  have hlen : (UInt16.ofNat bytes.length).toNat = bytes.length := by
    rw [UInt16.toNat_ofNat', Nat.mod_eq_of_lt (by omega)]
  rw [crc16Core, hlen, crc16Loop_eq, load_place bytes tail 0 bytes.length (by omega),
    List.drop_zero, List.take_length, crc16Modbus]

/- The check value, of the text 123456789. -/
theorem crc16Core_check :
    [0x31, 0x32, 0x33, 0x34, 0x35, 0x36, 0x37, 0x38, 0x39].length ≤ 65535 ∧
    crc16Core (place [0x31, 0x32, 0x33, 0x34, 0x35, 0x36, 0x37, 0x38, 0x39] fun _ => 0) 9 =
      crc16Modbus [0x31, 0x32, 0x33, 0x34, 0x35, 0x36, 0x37, 0x38, 0x39] ∧
    crc16Modbus [0x31, 0x32, 0x33, 0x34, 0x35, 0x36, 0x37, 0x38, 0x39] = 0x4B37 :=
  ⟨by decide, crc16Core_eq_modbus _ _ (by decide), by decide +kernel⟩

end TypegoSdk.Dds
