import TypegoSdk.Lib.Bytes

/-!
# Input streams

A `std::istream` on a file, as far as `read` and `seekg` relative to the
current position use it. A read that finds too few bytes stores those it finds
and puts the stream into the failed state, in which both operations do nothing.
A seek may go behind the end of the file but not before its start.
-/

namespace TypegoSdk.Lib

structure Stream where
  bytes : Bytes
  pos : ℕ
  fail : Bool
  deriving DecidableEq

namespace Stream
variable {α : Type}

def ofFile (file : Bytes) : Stream := ⟨file, 0, false⟩

/- The bytes that are stored, and the stream behind them. -/
def read (s : Stream) (n : ℕ) : Bytes × Stream :=
  if s.fail then ([], s)
  else
    let got := (s.bytes.drop s.pos).take n
    (got, {s with pos := s.pos + got.length, fail := decide (got.length < n)})

/- `is.read(reinterpret_cast<char *>(&field), sizeof(field))`. -/
def readField (A : Layout α) (field : α) (s : Stream) : α × Stream :=
  let r := s.read A.size
  (A.value (store (A.bytes field) 0 r.1), r.2)

/- `is.seekg(off, std::istream::cur)`. -/
def seekCur (s : Stream) (off : ℤ) : Stream :=
  if s.fail then s
  else if 0 ≤ s.pos + off then {s with pos := (s.pos + off).toNat}
  else {s with fail := true}

def skip (s : Stream) (n : ℕ) : Stream := {s with pos := s.pos + n}

/-- The stream is good and `rest` is what it has not read yet. -/
structure Before (s : Stream) (rest : Bytes) : Prop where
  good : s.fail = false
  drop : s.bytes.drop s.pos = rest

theorem before_ofFile (file : Bytes) : (ofFile file).Before file := ⟨rfl, rfl⟩

theorem before_at (file : Bytes) (p n : ℕ) :
    Before ⟨file, p, false⟩ ((file.drop p).take n ++ file.drop (p + n)) := by
  refine ⟨rfl, ?_⟩
  rw [← List.drop_drop, List.take_append_drop]

/-! ### Reads -/

theorem read_bytes (s : Stream) (n : ℕ) : (s.read n).2.bytes = s.bytes := by
  unfold read
  split <;> rfl

theorem readField_bytes (A : Layout α) (field : α) (s : Stream) :
    (s.readField A field).2.bytes = s.bytes := read_bytes s A.size

theorem Before.skip {s : Stream} {xs rest : Bytes} {n : ℕ} (h : s.Before (xs ++ rest))
    (hn : xs.length = n) : (s.skip n).Before rest := by
  refine ⟨h.good, ?_⟩
  have hd := h.drop
  rw [Stream.skip, ← List.drop_drop, hd, List.drop_left' hn]

theorem Before.read {s : Stream} {xs rest : Bytes} {n : ℕ} (h : s.Before (xs ++ rest))
    (hn : xs.length = n) : s.read n = (xs, s.skip n) := by
  have hgot : (s.bytes.drop s.pos).take n = xs := by
    rw [h.drop, List.take_left' hn]
  simp [Stream.read, Stream.skip, h.good, hgot, hn]

theorem Before.readField_raw {A : Layout α} {s : Stream} {xs rest : Bytes}
    (h : s.Before (xs ++ rest)) (hlen : xs.length = A.size) (field : α) :
    s.readField A field = (A.value xs, s.skip A.size) := by
  have hall : store (A.bytes field) 0 xs = xs := by
    rw [store, List.take_zero, List.nil_append, hlen, Nat.zero_add,
      List.drop_eq_nil_of_le (A.bytes_length field).le, List.append_nil]
  rw [Stream.readField, h.read hlen, hall]

theorem Before.readField {A : Layout α} {s : Stream} {a : α} {rest : Bytes}
    (h : s.Before (A.bytes a ++ rest)) (field : α) :
    s.readField A field = (a, s.skip A.size) := by
  have hvalue := A.value_bytes a []
  rw [List.append_nil] at hvalue
  rw [h.readField_raw (A.bytes_length a), hvalue]

/- A short read. -/
theorem Before.read_short {s : Stream} {rest : Bytes} {n : ℕ} (h : s.Before rest)
    (hn : rest.length < n) : (s.read n).2.fail = true := by
  have hgot : (s.bytes.drop s.pos).take n = rest := by
    rw [h.drop, List.take_of_length_le hn.le]
  simp [Stream.read, h.good, hgot, hn]

theorem read_complete {s : Stream} {n : ℕ} (h : (s.read n).2.fail = false) :
    (s.read n).1.length = n := by
  unfold read at h ⊢
  split at h
  · rename_i hfail
    rw [hfail] at h
    cases h
  · rename_i hgood
    rw [if_neg hgood]
    have hn : ¬((s.bytes.drop s.pos).take n).length < n := of_decide_eq_false h
    have hle := List.length_take_le n (s.bytes.drop s.pos)
    dsimp only
    omega

theorem read_failed {s : Stream} (h : s.fail = true) (n : ℕ) : s.read n = ([], s) := by
  simp [Stream.read, h]

theorem readField_failed {A : Layout α} {s : Stream} (h : s.fail = true) (field : α) :
    (s.readField A field).2 = s := by
  rw [Stream.readField, read_failed h]

/-! ### Seeks -/

theorem seekCur_bytes (s : Stream) (off : ℤ) : (s.seekCur off).bytes = s.bytes := by
  unfold seekCur
  split
  · rfl
  · split <;> rfl

theorem Before.seekCur {s : Stream} {xs rest : Bytes} (h : s.Before (xs ++ rest)) {off : ℤ}
    (hoff : off = xs.length) : s.seekCur off = s.skip xs.length := by
  have hle : (0 : ℤ) ≤ s.pos + off := by omega
  have hpos : ((s.pos : ℤ) + off).toNat = s.pos + xs.length := by omega
  simp only [Stream.seekCur, h.good, Bool.false_eq_true, if_false, if_pos hle, hpos, Stream.skip]

end Stream
end TypegoSdk.Lib
