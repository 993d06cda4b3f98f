import TypegoSdk.Lib.Crc
import Mathlib.Tactic.Ring

/-!
# The frame check (dds_wrapper/common/crc.h and its copies in the examples)

`crc32_core` runs over the words of a frame but its last, which holds the
result. The handlers of LowState drop a frame whose last word differs.
-/

namespace TypegoSdk.Dds
open TypegoSdk.Lib

def dwPolynomial : UInt32 := 0x04c11db7

/- One round of the inner loop. -/
def crcRound (data xbit crc : UInt32) : UInt32 :=
  let shifted := if crc &&& 0x80000000 ≠ 0 then (crc <<< 1) ^^^ dwPolynomial else crc <<< 1
  if data &&& xbit ≠ 0 then shifted ^^^ dwPolynomial else shifted

/- The inner loop with `n` rounds left. -/
def crcWord (data : UInt32) : ℕ → UInt32 → UInt32 → UInt32
  | 0, _, crc => crc
  | n + 1, xbit, crc => crcWord data n (xbit >>> 1) (crcRound data xbit crc)

/- `crc32_core(ptr, len)`; the list holds the `len` words from `ptr` on. -/
def crc32Core (ptr : List UInt32) : UInt32 :=
  ptr.foldl (fun crc data => crcWord data 32 ((1 : UInt32) <<< 31) crc) 0xFFFFFFFF

/-- A LowState as the handler sees it: the words that the check covers, and its last. -/
structure LowState where
  covered : List UInt32
  crc : UInt32
  deriving DecidableEq

/- `update` takes motors, IMU and mode out of an accepted frame. -/
def lowStateHandler {σ : Type} (update : σ → List UInt32 → σ) (s : σ) (lowState : LowState) :
    Except String σ :=
  if lowState.crc ≠ crc32Core lowState.covered then .error "low_state CRC Error"
  else .ok (update s lowState.covered)

/-! ### The code as a CRC register -/

def wordBits (data : UInt32) : List Bool := (List.range 32).map data.toBitVec.getMsbD

/- A frame as one string of bits, most significant bit of each word first. -/
def bitString (words : List UInt32) : List Bool := words.flatMap wordBits

theorem wordBits_length (data : UInt32) : (wordBits data).length = 32 := by
  simp [wordBits]

theorem bitString_length (words : List UInt32) : (bitString words).length = 32 * words.length := by
  induction words with
  | nil => rfl
  | cons data words ih =>
    have he : bitString (data :: words) = wordBits data ++ bitString words := rfl
    rw [he, List.length_append, wordBits_length, ih, List.length_cons]
    ring

theorem wordBits_injective (x y : UInt32) (h : wordBits x = wordBits y) : x = y := by
  apply UInt32.toBitVec_inj.mp
  apply BitVec.eq_of_getMsbD_eq
  intro k hk
  have hmem : k ∈ List.range 32 := List.mem_range.mpr hk
  exact List.map_inj_left.mp h k hmem

theorem bitString_injective (xs ys : List UInt32) (h : bitString xs = bitString ys) : xs = ys := by
  induction xs generalizing ys with
  | nil =>
    cases ys with
    | nil => rfl
    | cons y ys =>
      have hlen := congrArg List.length h
      rw [bitString_length, bitString_length] at hlen
      simp at hlen
  | cons x xs ih =>
    cases ys with
    | nil =>
      have hlen := congrArg List.length h
      rw [bitString_length, bitString_length] at hlen
      simp at hlen
    | cons y ys =>
      have hword : (wordBits x).length = (wordBits y).length := by
        rw [wordBits_length, wordBits_length]
      obtain ⟨hx, hxs⟩ := List.append_inj h hword
      rw [wordBits_injective x y hx, ih ys hxs]

/- A mask with the bit `31 - k` alone tests the `k`-th bit from the top. -/
theorem masked_ne_zero (x mask : UInt32) (k : ℕ) (hk : k < 32)
    (hmask : mask.toBitVec = BitVec.twoPow 32 (31 - k)) :
    (x &&& mask ≠ 0) ↔ x.toBitVec.getMsbD k = true := by
  have hbit : x.toBitVec.getMsbD k = x.toBitVec.getLsbD (31 - k) := by
    rw [BitVec.getMsbD_eq_getLsbD, decide_eq_true hk, Bool.true_and]
  have hone : BitVec.twoPow 32 (31 - k) ≠ 0#32 := by
    intro he
    have hb := congrArg (BitVec.getLsbD · (31 - k)) he
    simp [show 31 - k < 32 by omega] at hb
  rw [hbit, ne_eq, ← UInt32.toBitVec_inj, UInt32.toBitVec_and, hmask, BitVec.and_twoPow]
  cases hx : x.toBitVec.getLsbD (31 - k) with
  | false => simp
  | true => simpa using hone

theorem crcRound_toBitVec (data xbit crc : UInt32) (k : ℕ) (hk : k < 32)
    (hx : xbit.toBitVec = BitVec.twoPow 32 (31 - k)) :
    (crcRound data xbit crc).toBitVec =
      crcBit dwPolynomial.toBitVec crc.toBitVec (data.toBitVec.getMsbD k) := by
  have hdata := masked_ne_zero data xbit k hk hx
  have htop := masked_ne_zero crc 0x80000000 0 (by omega) (by decide)
  have hmsb : crc.toBitVec.getMsbD 0 = crc.toBitVec.msb := rfl
  rw [hmsb] at htop
  simp only [crcRound, crcBit, htop, hdata]
  cases crc.toBitVec.msb with
  | false => cases data.toBitVec.getMsbD k <;> simp
  | true =>
    cases data.toBitVec.getMsbD k with
    | false => simp
    | true =>
      -- The polynomial is added twice.
      rw [if_pos rfl, if_pos rfl, UInt32.toBitVec_xor, UInt32.toBitVec_xor, BitVec.xor_assoc,
        BitVec.xor_self]
      simp

theorem mask_shift (xbit : UInt32) (n : ℕ) (h0 : 0 < n) (hn : n < 32)
    (hx : xbit.toBitVec = BitVec.twoPow 32 n) :
    (xbit >>> 1).toBitVec = BitVec.twoPow 32 (n - 1) := by
  have hone : ((1 : UInt32).toBitVec % 32).toNat = 1 := by decide
  rw [UInt32.toBitVec_shiftRight, hx, BitVec.ushiftRight_eq', hone]
  apply BitVec.eq_of_getLsbD_eq
  intro i hi
  rw [BitVec.getLsbD_ushiftRight, BitVec.getLsbD_twoPow, BitVec.getLsbD_twoPow]
  simp only [show n < 32 from hn, show n - 1 < 32 by omega, decide_true, Bool.true_and,
    decide_eq_decide]
  omega

theorem crcWord_toBitVec (data : UInt32) (n : ℕ) (hn : n ≤ 32) (xbit crc : UInt32)
    (hx : n = 0 ∨ xbit.toBitVec = BitVec.twoPow 32 (n - 1)) :
    (crcWord data n xbit crc).toBitVec = crcBits dwPolynomial.toBitVec crc.toBitVec
      ((List.range' (32 - n) n).map data.toBitVec.getMsbD) := by
  induction n generalizing xbit crc with
  | zero => rfl
  | succ n ih =>
    rcases hx with hx | hx
    · omega
    · rw [Nat.add_sub_cancel] at hx
      have hround := crcRound_toBitVec data xbit crc (31 - n) (by omega)
        (by rw [hx, show 31 - (31 - n) = n by omega])
      have hnext : n = 0 ∨ (xbit >>> 1).toBitVec = BitVec.twoPow 32 (n - 1) := by
        by_cases h0 : n = 0
        · exact .inl h0
        · right
          exact mask_shift xbit n (by omega) (by omega) hx
      rw [crcWord, ih (by omega) _ _ hnext, hround, List.range'_succ, List.map_cons,
        show 32 - (n + 1) = 31 - n by omega, show 31 - n + 1 = 32 - n by omega]
      rfl

theorem crcWord_bits (data crc : UInt32) : (crcWord data 32 ((1 : UInt32) <<< 31) crc).toBitVec =
    crcBits dwPolynomial.toBitVec crc.toBitVec (wordBits data) := by
  have h := crcWord_toBitVec data 32 (by omega) ((1 : UInt32) <<< 31) crc (.inr (by decide))
  rw [h, wordBits, List.range_eq_range']

theorem crcWords_toBitVec (words : List UInt32) (crc : UInt32) :
    (words.foldl (fun crc data => crcWord data 32 ((1 : UInt32) <<< 31) crc) crc).toBitVec =
      crcBits dwPolynomial.toBitVec crc.toBitVec (bitString words) := by
  induction words generalizing crc with
  | nil => rfl
  | cons data words ih =>
    have he : bitString (data :: words) = wordBits data ++ bitString words := rfl
    rw [List.foldl_cons, ih, crcWord_bits, he, crcBits_append]

theorem poly_odd : dwPolynomial.toBitVec.getLsbD 0 = true := by decide

/-- Two frames that differ, and differ only inside one window of 32 bits, have
different checks; so a frame whose covered words were hit by such a burst is
dropped, since its last word is still the check of the words that were sent. -/
theorem crc32Core_burst (words hit : List UInt32) (hlen : words.length = hit.length)
    (hne : words ≠ hit) (k : ℕ)
    (hburst : ∀ i, i < k ∨ k + 32 ≤ i → (bitString words)[i]? = (bitString hit)[i]?) :
    crc32Core words ≠ crc32Core hit ∧
    ∀ {σ : Type} (update : σ → List UInt32 → σ) (s : σ),
      lowStateHandler update s ⟨hit, crc32Core words⟩ = .error "low_state CRC Error" := by
  have hcrc : crc32Core words ≠ crc32Core hit := by
    intro he
    apply hne
    apply bitString_injective
    have hbits : (bitString words).length = (bitString hit).length := by
      rw [bitString_length, bitString_length, hlen]
    apply burst_detected poly_odd (0xFFFFFFFF : UInt32).toBitVec _ _ hbits k hburst
    rw [← crcWords_toBitVec, ← crcWords_toBitVec]
    exact congrArg UInt32.toBitVec he
  refine ⟨hcrc, fun update s => ?_⟩
  simp [lowStateHandler, hcrc]

/- A burst of two bits across a word boundary. -/
theorem crc32Core_burst_boundary :
    crc32Core [0, 0] ≠ crc32Core [1, 0x80000000] ∧
    lowStateHandler (fun _ words => words) [] ⟨[1, 0x80000000], crc32Core [0, 0]⟩ =
      .error "low_state CRC Error" := by
  have hburst : ∀ i, i < 31 ∨ 31 + 32 ≤ i →
      (bitString [0, 0])[i]? = (bitString [1, 0x80000000])[i]? := by
    intro i hi
    by_cases hin : i < 64
    · have hall : ∀ j < 64, j < 31 ∨ 31 + 32 ≤ j →
          (bitString [0, 0])[j]? = (bitString [1, 0x80000000])[j]? := by decide
      exact hall i hin hi
    · rw [List.getElem?_eq_none (by simp [bitString_length]; omega),
        List.getElem?_eq_none (by simp [bitString_length]; omega)]
  obtain ⟨hcrc, hdrop⟩ := crc32Core_burst [0, 0] [1, 0x80000000] rfl (by decide) 31 hburst
  exact ⟨hcrc, hdrop _ _⟩

end TypegoSdk.Dds
