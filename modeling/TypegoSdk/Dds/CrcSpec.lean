import TypegoSdk.Dds.Crc32
import TypegoSdk.Lib.Bytes
import TypegoSdk.Lib.CrcPoly

/-!
# crc32_core is CRC-32/MPEG-2

The algorithm of the catalogue works on bytes: a byte is added to the top of
the register, which is then shifted eight times. `crc32_core` works on words
and adds each bit behind the shift. Both feed the same bits to one register.
-/

namespace TypegoSdk.Dds
open TypegoSdk.Lib Polynomial

/-! ### The catalogue's algorithm -/

def mpeg2Shift (crc : UInt32) : UInt32 :=
  if crc &&& 0x80000000 ≠ 0 then (crc <<< 1) ^^^ 0x04C11DB7 else crc <<< 1

def mpeg2Byte (crc : UInt32) (byte : UInt8) : UInt32 :=
  mpeg2Shift^[8] (crc ^^^ byte.toUInt32 <<< 24)

/-- CRC-32/MPEG-2: no reflection, no final xor. -/
def crc32Mpeg2 (bytes : Bytes) : UInt32 := bytes.foldl mpeg2Byte 0xFFFFFFFF

/-! ### Bytes as bits -/

def byteBits (byte : UInt8) : List Bool := (List.range 8).map byte.toBitVec.getMsbD

theorem mpeg2Shift_toBitVec (crc : UInt32) :
    (mpeg2Shift crc).toBitVec = crcBit dwPolynomial.toBitVec crc.toBitVec false := by
  have htop := masked_ne_zero crc 0x80000000 0 (by omega) (by decide)
  have hmsb : crc.toBitVec.getMsbD 0 = crc.toBitVec.msb := rfl
  rw [hmsb] at htop
  simp only [mpeg2Shift, crcBit, htop, Bool.xor_false]
  cases crc.toBitVec.msb with
  | false => simp
  | true =>
    rw [if_pos rfl, if_pos rfl, UInt32.toBitVec_xor]
    rfl

theorem mpeg2Shift_iterate (n : ℕ) (crc : UInt32) :
    (mpeg2Shift^[n] crc).toBitVec =
      crcBits dwPolynomial.toBitVec crc.toBitVec (List.replicate n false) := by
  induction n generalizing crc with
  | zero => rfl
  | succ n ih =>
    rw [Function.iterate_succ_apply, ih, mpeg2Shift_toBitVec]
    rfl

theorem mpeg2Byte_toBitVec (crc : UInt32) (byte : UInt8) :
    (mpeg2Byte crc byte).toBitVec =
      crcBits dwPolynomial.toBitVec crc.toBitVec (byteBits byte) := by
  have hshift : (byte.toUInt32 <<< 24).toBitVec = byte.toBitVec.setWidth 32 <<< 24 := by
    rw [UInt32.toBitVec_shiftLeft, UInt8.toBitVec_toUInt32]
    rfl
  have hbits : byteBits byte =
      (List.range 8).map (byte.toBitVec.setWidth 32 <<< 24).getMsbD := by
    apply List.map_congr_left
    intro i hi
    have hi : i < 8 := List.mem_range.mp hi
    have hlow : 32 - 1 - (i + 24) = 8 - 1 - i := by omega
    rw [BitVec.getMsbD_shiftLeft, BitVec.getMsbD_eq_getLsbD, BitVec.getMsbD_eq_getLsbD,
      BitVec.getLsbD_setWidth, hlow]
    simp [hi, show i + 24 < 32 by omega, show 7 - i < 32 by omega]
  have hout : (byte.toBitVec.setWidth 32 <<< 24) <<< 8 = 0#32 := by
    rw [← BitVec.shiftLeft_add, BitVec.shiftLeft_eq_zero (by omega)]
  rw [mpeg2Byte, mpeg2Shift_iterate, UInt32.toBitVec_xor, hshift, hbits,
    crcBits_preload _ _ _ 8 (by omega) hout]

theorem crc32Mpeg2_toBitVec (bytes : Bytes) : (crc32Mpeg2 bytes).toBitVec =
    crcBits dwPolynomial.toBitVec (0xFFFFFFFF : UInt32).toBitVec (bytes.flatMap byteBits) := by
  have hfold : ∀ crc, (bytes.foldl mpeg2Byte crc).toBitVec =
      crcBits dwPolynomial.toBitVec crc.toBitVec (bytes.flatMap byteBits) := by
    induction bytes with
    | nil => exact fun _ => rfl
    | cons byte bytes ih =>
      intro crc
      rw [List.foldl_cons, ih, mpeg2Byte_toBitVec, List.flatMap_cons, crcBits_append]
  exact hfold 0xFFFFFFFF

/- The byte at `k` of the big-endian bytes holds the bits from `8 * k` on. -/
theorem byteBits_ofNat (data : UInt32) (k : ℕ) (hk : k < 4) :
    byteBits (UInt8.ofNat (data.toNat / 256 ^ (3 - k))) =
      (List.range 8).map fun i => data.toBitVec.getMsbD (8 * k + i) := by
  apply List.map_congr_left
  intro i hi
  have hi : i < 8 := List.mem_range.mp hi
  have hpow : 256 ^ (3 - k) = 2 ^ (8 * (3 - k)) := by
    rw [show 256 = 2 ^ 8 from rfl, ← Nat.pow_mul]
  have hbit : 8 - 1 - i + 8 * (3 - k) = 32 - 1 - (8 * k + i) := by omega
  have hdata : data.toNat.testBit (32 - 1 - (8 * k + i)) =
      data.toBitVec.getLsbD (32 - 1 - (8 * k + i)) := rfl
  rw [BitVec.getMsbD_eq_getLsbD, BitVec.getMsbD_eq_getLsbD, UInt8.toBitVec_ofNat',
    BitVec.getLsbD_ofNat, hpow, Nat.testBit_div_two_pow, hbit, hdata]
  simp [hi, show 7 - i < 8 by omega, show 8 * k + i < 32 by omega]

theorem wordBits_bytes (data : UInt32) : (u32be.bytes data).flatMap byteBits = wordBits data := by
  have hbytes : u32be.bytes data = (List.range 4).map fun k =>
      UInt8.ofNat (data.toNat / 256 ^ (3 - k)) := by
    simp [u32be, beBytes, leBytes, List.range_succ, Nat.div_div_eq_div_mul]
  have hrange : (List.range 32) = (List.range 4).flatMap fun k =>
      (List.range 8).map fun i => 8 * k + i := by decide
  rw [wordBits, hrange, hbytes, List.map_flatMap, List.flatMap_map]
  apply List.flatMap_congr
  intro k hk
  rw [byteBits_ofNat data k (List.mem_range.mp hk), List.map_map]
  rfl

theorem bitString_bytes (words : List UInt32) :
    (words.flatMap u32be.bytes).flatMap byteBits = bitString words := by
  rw [List.flatMap_assoc, bitString]
  exact List.flatMap_congr fun data _ => wordBits_bytes data

/-! ### The check -/

theorem crc32Core_toBitVec (words : List UInt32) : (crc32Core words).toBitVec =
    crcBits dwPolynomial.toBitVec (0xFFFFFFFF : UInt32).toBitVec (bitString words) :=
  crcWords_toBitVec words 0xFFFFFFFF

theorem crc32Core_append (words : List UInt32) (data : UInt32) :
    (crc32Core (words ++ [data])).toBitVec =
      crcBits dwPolynomial.toBitVec (crc32Core words).toBitVec (wordBits data) := by
  rw [crc32Core, List.foldl_append, List.foldl_cons, List.foldl_nil, crcWord_bits]
  rfl

/-- `crc32_core` is CRC-32/MPEG-2 of the words' big-endian bytes: the catalogue's
algorithm and the remainder of the message; a frame with its check has check 0. -/
theorem crc32Core_eq_mpeg2 (words : List UInt32) :
    crc32Core words = crc32Mpeg2 (words.flatMap u32be.bytes) ∧
    regPoly (crc32Core words).toBitVec =
      (regPoly (0xFFFFFFFF : BitVec 32) * X ^ (32 * words.length) +
        bitsPoly ((words.flatMap u32be.bytes).flatMap byteBits) * X ^ 32) %ₘ
        (X ^ 32 + regPoly (0x04C11DB7 : BitVec 32)) ∧
    crc32Core (words ++ [crc32Core words]) = 0 := by
  refine ⟨?_, ?_, ?_⟩
  · apply UInt32.toBitVec_inj.mp
    rw [crc32Core_toBitVec, crc32Mpeg2_toBitVec, bitString_bytes]
  · rw [crc32Core_toBitVec, crcBits_remainder, bitString_bytes, bitString_length]
    rfl
  · apply UInt32.toBitVec_inj.mp
    have hown := crcBits_own dwPolynomial.toBitVec (crc32Core words).toBitVec 32 (by omega)
    rw [crc32Core_append, wordBits, hown, BitVec.shiftLeft_eq_zero (by omega)]
    rfl

/- The catalogue's check value, of the text 123456789. -/
example : crc32Mpeg2 [0x31, 0x32, 0x33, 0x34, 0x35, 0x36, 0x37, 0x38, 0x39] = 0x0376E6E7 := by
  decide +kernel

end TypegoSdk.Dds
