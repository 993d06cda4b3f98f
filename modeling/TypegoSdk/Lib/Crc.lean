import Mathlib.Data.List.Basic
import Mathlib.Data.List.Induction
import Mathlib.Data.List.GetD
import Mathlib.Logic.Function.Iterate

/-!
# A bit-serial CRC register

A register of `w` bits takes a message one bit at a time, most significant bit
first: it shifts left, and the polynomial is added when the bit shifted out
differs from the message bit. The step is linear in register and message, so
two messages are compared through the register of their difference. With an
odd polynomial a difference inside a window of `w` bits never cancels.
-/

namespace TypegoSdk.Lib
variable {w : ℕ} (poly : BitVec w)

def crcBit (r : BitVec w) (b : Bool) : BitVec w :=
  (r <<< 1) ^^^ (if r.msb ^^ b then poly else 0#w)

def crcBits (r : BitVec w) (bs : List Bool) : BitVec w := bs.foldl (crcBit poly) r

theorem crcBits_append (r : BitVec w) (xs ys : List Bool) :
    crcBits poly r (xs ++ ys) = crcBits poly (crcBits poly r xs) ys := by
  simp [crcBits]

/-! ### Linearity -/

theorem select_xor (c d : Bool) :
    (if c ^^ d then poly else 0#w) = (if c then poly else 0#w) ^^^ (if d then poly else 0#w) := by
  cases c <;> cases d <;> simp

theorem crcBit_xor (r s : BitVec w) (b c : Bool) :
    crcBit poly (r ^^^ s) (b ^^ c) = crcBit poly r b ^^^ crcBit poly s c := by
  have hbit : ((r ^^^ s).msb ^^ (b ^^ c)) = ((r.msb ^^ b) ^^ (s.msb ^^ c)) := by
    rw [BitVec.msb_xor]
    cases r.msb <;> cases s.msb <;> cases b <;> cases c <;> rfl
  simp only [crcBit, hbit, select_xor poly, BitVec.shiftLeft_xor_distrib]
  ac_rfl

/- The register of the difference of two messages. -/
theorem crcBits_xor (xs ys : List Bool) (h : xs.length = ys.length) (r s : BitVec w) :
    crcBits poly (r ^^^ s) (List.zipWith xor xs ys) = crcBits poly r xs ^^^ crcBits poly s ys := by
  induction xs generalizing ys r s with
  | nil =>
    cases ys with
    | nil => rfl
    | cons y ys => simp at h
  | cons x xs ih =>
    cases ys with
    | nil => simp at h
    | cons y ys =>
      have hlen : xs.length = ys.length := by simpa using h
      have hstep := ih ys hlen (crcBit poly r x) (crcBit poly s y)
      rw [← crcBit_xor] at hstep
      exact hstep

/-! ### Bits at the top of the register -/

/- A register that is fed its own bits is shifted out. -/
theorem crcBits_own (t : BitVec w) (n : ℕ) (hn : n ≤ w) :
    crcBits poly t ((List.range n).map t.getMsbD) = t <<< n := by
  induction n with
  | zero =>
    rw [BitVec.shiftLeft_zero]
    rfl
  | succ n ih =>
    have hmsb : (t <<< n).msb = t.getMsbD n := by
      rw [BitVec.msb, BitVec.getMsbD_shiftLeft, Nat.zero_add]
    have hone : crcBits poly (t <<< n) [t.getMsbD n] = crcBit poly (t <<< n) (t.getMsbD n) := rfl
    rw [List.range_succ, List.map_append, crcBits_append, ih (by omega), List.map_singleton, hone,
      crcBit, hmsb, Bool.xor_self, BitVec.shiftLeft_add]
    simp

/- Bits may be added to the top of the register before they are shifted. -/
theorem crcBits_preload (r t : BitVec w) (n : ℕ) (hn : n ≤ w) (ht : t <<< n = 0#w) :
    crcBits poly r ((List.range n).map t.getMsbD) =
      crcBits poly (r ^^^ t) (List.replicate n false) := by
  have hlen : (List.replicate n false).length = ((List.range n).map t.getMsbD).length := by
    simp
  have hxor := crcBits_xor poly (List.replicate n false) _ hlen (r ^^^ t) t
  have hzip : List.zipWith xor (List.replicate n false) ((List.range n).map t.getMsbD) =
      (List.range n).map t.getMsbD := by
    apply List.ext_getElem
    · simp
    · intro i h1 h2
      simp
  rw [hzip, crcBits_own poly t n hn, ht, BitVec.xor_assoc, BitVec.xor_self, BitVec.xor_zero,
    BitVec.xor_zero] at hxor
  exact hxor

/-! ### Registers that shift right -/

/- One step of a reflected register without a message bit. -/
def shiftBit (r : BitVec w) : BitVec w := (r >>> 1) ^^^ (if r.getLsbD 0 then poly else 0#w)

theorem shiftBit_xor (r s : BitVec w) :
    shiftBit poly (r ^^^ s) = shiftBit poly r ^^^ shiftBit poly s := by
  simp only [shiftBit, BitVec.getLsbD_xor, select_xor poly, BitVec.ushiftRight_xor_distrib]
  ac_rfl

theorem shiftBits_xor (n : ℕ) (r s : BitVec w) :
    (shiftBit poly)^[n] (r ^^^ s) = (shiftBit poly)^[n] r ^^^ (shiftBit poly)^[n] s := by
  induction n generalizing r s with
  | zero => rfl
  | succ n ih =>
    rw [Function.iterate_succ_apply, shiftBit_xor, ih]
    rfl

theorem shiftBits_clear (n : ℕ) (r : BitVec w) (h : ∀ i < n, r.getLsbD i = false) :
    (shiftBit poly)^[n] r = r >>> n := by
  induction n with
  | zero =>
    rw [BitVec.ushiftRight_zero]
    rfl
  | succ n ih =>
    have hlow : (r >>> n).getLsbD 0 = false := by
      rw [BitVec.getLsbD_ushiftRight, Nat.add_zero]
      exact h n (by omega)
    rw [Function.iterate_succ_apply', ih fun i hi => h i (by omega), shiftBit, hlow,
      BitVec.shiftRight_add]
    simp

/-- What a table of `n` steps needs: the low bits alone, and a shift of the rest. -/
theorem shiftBits_table (n : ℕ) (r low : BitVec w) (hlow : ∀ i < n, low.getLsbD i = r.getLsbD i)
    (hout : low >>> n = 0#w) :
    (shiftBit poly)^[n] r = (r >>> n) ^^^ (shiftBit poly)^[n] low := by
  have hclear : ∀ i < n, (r ^^^ low).getLsbD i = false := by
    intro i hi
    rw [BitVec.getLsbD_xor, hlow i hi, Bool.xor_self]
  have hsplit : r = (r ^^^ low) ^^^ low := by
    rw [BitVec.xor_assoc, BitVec.xor_self, BitVec.xor_zero]
  have hsteps := shiftBits_xor poly n (r ^^^ low) low
  rw [← hsplit, shiftBits_clear poly n _ hclear, BitVec.ushiftRight_xor_distrib, hout,
    BitVec.xor_zero] at hsteps
  exact hsteps

/-! ### What an odd polynomial keeps -/

theorem crcBit_zero : crcBit poly 0#w false = 0#w := by
  simp [crcBit]

theorem crcBits_zero (bs : List Bool) (h : ∀ b ∈ bs, b = false) : crcBits poly 0#w bs = 0#w := by
  induction bs with
  | nil => rfl
  | cons b bs ih =>
    have hb : b = false := h b List.mem_cons_self
    have hbs : ∀ c ∈ bs, c = false := fun c hc => h c (List.mem_cons_of_mem _ hc)
    have he : crcBits poly 0#w (b :: bs) = crcBits poly (crcBit poly 0#w b) bs := rfl
    rw [he, hb, crcBit_zero]
    exact ih hbs

section Odd
variable {poly} (hodd : poly.getLsbD 0 = true)
include hodd

/- The lowest bit tells whether the polynomial was added. -/
theorem crcBit_low (r : BitVec w) (b : Bool) (h : (crcBit poly r b).getLsbD 0 = false) :
    (r.msb ^^ b) = false := by
  cases hc : r.msb ^^ b with
  | false => rfl
  | true => simp [crcBit, hc, hodd] at h

/- Low bits that are clear after a step were clear, one place lower, before it. -/
theorem crcBit_clear (r : BitVec w) (b : Bool) (n : ℕ) (hn : n < w)
    (h : ∀ i < n + 1, (crcBit poly r b).getLsbD i = false) :
    (r.msb ^^ b) = false ∧ ∀ i < n, r.getLsbD i = false := by
  have hc := crcBit_low hodd r b (h 0 (by omega))
  refine ⟨hc, fun i hi => ?_⟩
  have hi1 := h (i + 1) (by omega)
  rw [BitVec.getLsbD_eq_getElem (by omega)]
  simpa [crcBit, hc, show i + 1 < w by omega] using hi1

/- A difference of at most `w` bits that leaves its own length of low bits
clear is no difference: by induction from the end, the last bit is read off
the lowest bit of the register. -/
theorem window_clear (bs : List Bool) (hw : bs.length ≤ w)
    (h : ∀ i < bs.length, (crcBits poly 0#w bs).getLsbD i = false) : ∀ b ∈ bs, b = false := by
  induction bs using List.reverseRecOn with
  | nil => simp
  | append_singleton bs b ih =>
    rw [List.length_append, List.length_singleton] at h hw
    rw [crcBits_append] at h
    obtain ⟨hc, hlow⟩ := crcBit_clear hodd _ b bs.length (by omega) h
    have hbs := ih (by omega) hlow
    rw [crcBits_zero poly bs hbs] at hc
    intro c hmem
    rcases List.mem_append.mp hmem with hmem | hmem
    · exact hbs c hmem
    · rw [List.mem_singleton.mp hmem]
      simpa using hc

theorem crcBit_injective (r : BitVec w) (h : crcBit poly r false = 0#w) : r = 0#w := by
  have hw : 0 < w := by
    by_contra hw
    have : poly.getLsbD 0 = false := BitVec.getLsbD_of_ge _ _ (by omega)
    rw [this] at hodd
    cases hodd
  obtain ⟨hc, hlow⟩ := crcBit_clear hodd r false (w - 1) (by omega) (by simp [h])
  apply BitVec.eq_of_getLsbD_eq
  intro i hi
  rw [BitVec.getLsbD_zero]
  by_cases hlast : i = w - 1
  · rw [Bool.xor_false, BitVec.msb_eq_getLsbD_last] at hc
    rw [hlast]
    exact hc
  · exact hlow i (by omega)

theorem crcBits_injective (bs : List Bool) (hbs : ∀ b ∈ bs, b = false) (r : BitVec w)
    (h : crcBits poly r bs = 0#w) : r = 0#w := by
  induction bs generalizing r with
  | nil => exact h
  | cons b bs ih =>
    have hb : b = false := hbs b List.mem_cons_self
    have hr := ih (fun c hc => hbs c (List.mem_cons_of_mem _ hc)) (crcBit poly r b) h
    rw [hb] at hr
    exact crcBit_injective hodd r hr

/- A difference inside one window of `w` bits does not cancel. -/
theorem burst_clear (bs : List Bool) (k : ℕ)
    (hout : ∀ i (hi : i < bs.length), i < k ∨ k + w ≤ i → bs[i] = false)
    (h : crcBits poly 0#w bs = 0#w) : ∀ b ∈ bs, b = false := by
  -- the bits before the window, in it and after it
  have hsplit : bs = bs.take k ++ ((bs.drop k).take w ++ (bs.drop k).drop w) := by
    rw [List.take_append_drop, List.take_append_drop]
  have hbefore : ∀ b ∈ bs.take k, b = false := by
    intro b hb
    obtain ⟨i, hi, rfl⟩ := List.mem_iff_getElem.mp hb
    rw [List.length_take] at hi
    rw [List.getElem_take]
    exact hout i (by omega) (.inl (by omega))
  have hafter : ∀ b ∈ (bs.drop k).drop w, b = false := by
    intro b hb
    obtain ⟨i, hi, rfl⟩ := List.mem_iff_getElem.mp hb
    rw [List.length_drop, List.length_drop] at hi
    rw [List.getElem_drop, List.getElem_drop]
    exact hout (k + (w + i)) (by omega) (.inr (by omega))
  rw [hsplit, crcBits_append, crcBits_zero poly _ hbefore, crcBits_append] at h
  have hzero := crcBits_injective hodd _ hafter _ h
  have hwindow := window_clear hodd ((bs.drop k).take w) (by rw [List.length_take]; omega)
    (by simp [hzero])
  intro b hb
  rw [hsplit, List.mem_append, List.mem_append] at hb
  rcases hb with hb | hb | hb
  · exact hbefore b hb
  · exact hwindow b hb
  · exact hafter b hb

/- Two messages that differ only inside one window and leave the same register
are the same message. -/
theorem burst_detected (r : BitVec w) (xs ys : List Bool) (hlen : xs.length = ys.length) (k : ℕ)
    (hout : ∀ i, i < k ∨ k + w ≤ i → xs[i]? = ys[i]?)
    (h : crcBits poly r xs = crcBits poly r ys) : xs = ys := by
  have hd : crcBits poly 0#w (List.zipWith xor xs ys) = 0#w := by
    have hx := crcBits_xor poly xs ys hlen r r
    rw [BitVec.xor_self, h, BitVec.xor_self] at hx
    exact hx
  have hzero := burst_clear hodd (List.zipWith xor xs ys) k ?_ hd
  · apply List.ext_getElem hlen
    intro i hx hy
    have hi : i < (List.zipWith xor xs ys).length := by rw [List.length_zipWith]; omega
    have hb := hzero _ (List.getElem_mem hi)
    rw [List.getElem_zipWith] at hb
    simpa using hb
  · intro i hi hik
    rw [List.length_zipWith] at hi
    have he := hout i hik
    rw [List.getElem?_eq_getElem (by omega), List.getElem?_eq_getElem (by omega),
      Option.some.injEq] at he
    rw [List.getElem_zipWith, he, Bool.xor_self]

end Odd

end TypegoSdk.Lib
