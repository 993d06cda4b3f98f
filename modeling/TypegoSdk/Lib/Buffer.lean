import TypegoSdk.Lib.Bytes

/-!
# Text in a writable buffer

A pointer into a zero-terminated text is an offset into the list of its bytes,
and a read behind the last byte sees a zero. The lemmas are about a buffer
written as `pre ++ mid ++ post`: what a read, a substr and a run of stores at
`pre.length` see or change.
-/

namespace TypegoSdk.Lib

def peek (buf : Bytes) (i : ℕ) : UInt8 := buf.getD i 0

/-- The bytes from `i` up to, not including, `j`. -/
def substr (buf : Bytes) (i j : ℕ) : Bytes := (buf.drop i).take (j - i)

/-- `*tail++ = v` for each byte in turn. -/
def writeAt (buf : Bytes) (tail : ℕ) : Bytes → Bytes
  | [] => buf
  | v :: vs => writeAt (buf.set tail v) (tail + 1) vs

/-! ### Reads -/

theorem peek_append (pre post : Bytes) (k : ℕ) :
    peek (pre ++ post) (pre.length + k) = peek post k := by
  rw [peek, peek, List.getD_append_right _ _ _ _ (Nat.le_add_right _ _), Nat.add_sub_cancel_left]

theorem peek_of_lt {buf : Bytes} {i : ℕ} (h : i < buf.length) (post : Bytes) :
    peek (buf ++ post) i = peek buf i :=
  List.getD_append _ _ _ _ h

@[simp] theorem peek_head (pre post : Bytes) (c : UInt8) :
    peek (pre ++ c :: post) pre.length = c :=
  peek_append pre (c :: post) 0

theorem peek_zero (buf : Bytes) : peek buf 0 = buf.headD 0 := by
  cases buf with
  | nil => rfl
  | cons c rest => rfl

theorem substr_append (pre mid post : Bytes) :
    substr (pre ++ mid ++ post) pre.length (pre.length + mid.length) = mid := by
  rw [substr, List.append_assoc, List.drop_left, Nat.add_sub_cancel_left, List.take_left]

theorem substr_congr {a b : Bytes} {i j : ℕ} (hlen : a.length = b.length)
    (h : ∀ k, i ≤ k → k < j → peek a k = peek b k) : substr a i j = substr b i j := by
  apply ext_getD
  · simp only [substr, List.length_take, List.length_drop, hlen]
  · intro k hk
    simp only [substr, List.length_take, List.length_drop, lt_inf_iff] at hk
    have hread := h (i + k) (Nat.le_add_right _ _) (by omega)
    simp only [peek, List.getD_eq_getElem?_getD] at hread
    simp only [substr, List.getD_eq_getElem?_getD, List.getElem?_take_of_lt hk.1, List.getElem?_drop]
    exact hread

/-! ### Stores -/

@[simp] theorem set_head (pre post : Bytes) (c v : UInt8) :
    (pre ++ c :: post).set pre.length v = pre ++ v :: post := by
  rw [List.set_append_right _ _ le_rfl, Nat.sub_self, List.set_cons_zero]

@[simp] theorem writeAt_length (buf : Bytes) (tail : ℕ) (vs : Bytes) :
    (writeAt buf tail vs).length = buf.length := by
  induction vs generalizing buf tail with
  | nil => rfl
  | cons v vs ih => rw [writeAt, ih, List.length_set]

/- A run of stores replaces what stands there, byte for byte. -/
theorem writeAt_append (pre old post vs : Bytes) (h : vs.length ≤ old.length) :
    writeAt (pre ++ old ++ post) pre.length vs = pre ++ vs ++ old.drop vs.length ++ post := by
  induction vs generalizing pre old with
  | nil => simp [writeAt]
  | cons v vs ih =>
    cases old with
    | nil => simp at h
    | cons o old =>
      have hstep := ih (pre ++ [v]) old (by simpa using h)
      rw [List.length_append, List.length_singleton] at hstep
      rw [writeAt, List.append_assoc, List.cons_append, set_head]
      simpa using hstep

end TypegoSdk.Lib
