import Mathlib.Tactic.Ring
import Mathlib.Tactic.NormNum
import Mathlib.Data.List.Basic
import Mathlib.Data.List.GetD

/-!
# Words and records as bytes

Fixed-width words in both byte orders, byte arrays that are filled by stores
at offsets, and record layouts: a layout carries the proof that the bytes it
writes are read back as the same value, whatever follows them in memory.
-/

namespace TypegoSdk.Lib

abbrev Bytes := List UInt8

/-! ### Little and big endian words -/

/-- The `n` low bytes of `v`, least significant first. -/
def leBytes : ℕ → ℕ → Bytes
  | 0, _ => []
  | n + 1, v => UInt8.ofNat v :: leBytes n (v / 256)

/-- The number a byte string denotes, least significant byte first. -/
def leVal : Bytes → ℕ
  | [] => 0
  | b :: bs => b.toNat + 256 * leVal bs

def beBytes (n v : ℕ) : Bytes := (leBytes n v).reverse
def beVal (bs : Bytes) : ℕ := leVal bs.reverse

@[simp] theorem leBytes_length (n v : ℕ) : (leBytes n v).length = n := by
  induction n generalizing v with
  | zero => rfl
  | succ n ih => simp only [leBytes, List.length_cons, ih]

@[simp] theorem beBytes_length (n v : ℕ) : (beBytes n v).length = n := by
  simp only [beBytes, List.length_reverse, leBytes_length]

theorem leVal_leBytes (n v : ℕ) (h : v < 256 ^ n) : leVal (leBytes n v) = v := by
  induction n generalizing v with
  | zero =>
    have hv : v = 0 := by simpa using h
    simp only [leBytes, leVal, hv]
  | succ n ih =>
    have hq : v / 256 < 256 ^ n := by
      rw [pow_succ'] at h
      exact Nat.div_lt_of_lt_mul h
    have hb : (UInt8.ofNat v).toNat = v % 256 := by simp
    simp only [leBytes, leVal, ih _ hq, hb]
    omega

theorem leBytes_leVal (bs : Bytes) : leBytes bs.length (leVal bs) = bs := by
  induction bs with
  | nil => rfl
  | cons b bs ih =>
    have hb : b.toNat < 256 := b.toNat_lt
    have hq : (b.toNat + 256 * leVal bs) / 256 = leVal bs := by omega
    have hr : UInt8.ofNat (b.toNat + 256 * leVal bs) = b := by
      apply UInt8.toNat_inj.mp
      rw [UInt8.toNat_ofNat']
      omega
    simp only [List.length_cons, leVal, leBytes, hq, hr, ih]

theorem leVal_lt (bs : Bytes) : leVal bs < 256 ^ bs.length := by
  induction bs with
  | nil => simp [leVal]
  | cons b bs ih =>
    have hb : b.toNat < 256 := b.toNat_lt
    simp only [leVal, List.length_cons, pow_succ']
    omega

theorem beVal_beBytes (n v : ℕ) (h : v < 256 ^ n) : beVal (beBytes n v) = v := by
  simp only [beVal, beBytes, List.reverse_reverse]
  exact leVal_leBytes n v h

/-! ### Byte arrays -/

/-- A store of `bs` at offset `off`; the array grows when the store runs past
its end, so an overflow shows in the length. -/
def store (buf : Bytes) (off : ℕ) (bs : Bytes) : Bytes :=
  buf.take off ++ bs ++ buf.drop (off + bs.length)

theorem ext_getD {a b : Bytes} (hlen : a.length = b.length)
    (h : ∀ i < a.length, a.getD i 0 = b.getD i 0) : a = b := by
  apply List.ext_getElem hlen
  intro i ha hb
  have hi := h i ha
  rw [List.getD_eq_getElem _ _ ha, List.getD_eq_getElem _ _ hb] at hi
  exact hi

theorem store_length {buf bs : Bytes} {off : ℕ} (h : off + bs.length ≤ buf.length) :
    (store buf off bs).length = buf.length := by
  simp only [store, List.length_append, List.length_take, List.length_drop]
  omega

/- A store leaves the other bytes as they were. -/
theorem store_getD {buf bs : Bytes} {off : ℕ} (h : off + bs.length ≤ buf.length) (i : ℕ) :
    (store buf off bs).getD i 0 =
      if off ≤ i ∧ i < off + bs.length then bs.getD (i - off) 0 else buf.getD i 0 := by
  have htake : (buf.take off).length = off := by
    rw [List.length_take]
    omega
  rw [store, List.append_assoc]
  by_cases hlow : i < off
  · rw [List.getD_append _ _ _ _ (by omega), if_neg (by omega)]
    simp [hlow]
  · rw [List.getD_append_right _ _ _ _ (by omega), htake]
    by_cases hin : i < off + bs.length
    · rw [List.getD_append _ _ _ _ (by omega), if_pos (by omega)]
    · rw [List.getD_append_right _ _ _ _ (by omega), if_neg (by omega)]
      have hback : off + bs.length + (i - off - bs.length) = i := by omega
      simp [hback]

/-- A store directly behind the bytes already written extends them. -/
theorem store_extends {w buf : Bytes} (bs : Bytes) (off : ℕ) (h : w <+: buf) (ho : off = w.length) :
    (w ++ bs) <+: store buf off bs := by
  obtain ⟨t, rfl⟩ := h
  subst ho
  simp only [store, List.take_left]
  exact List.prefix_append _ _

theorem take_written {w buf : Bytes} (h : w <+: buf) (n : ℕ) (hn : n = w.length) :
    buf.take n = w := by
  subst hn
  exact (List.prefix_iff_eq_take.mp h).symm

/-- Memory seen from a pointer on: the byte at each offset. -/
abbrev Memory := ℕ → UInt8

/-- Memory that starts with `bs` and goes on with `tail`. -/
def place (bs : Bytes) (tail : Memory) : Memory := fun i => bs.getD i (tail i)

def load (m : Memory) (off n : ℕ) : Bytes := (List.range n).map fun k => m (off + k)

theorem load_place (bs : Bytes) (tail : Memory) (off n : ℕ) (h : off + n ≤ bs.length) :
    load (place bs tail) off n = (bs.drop off).take n := by
  apply List.ext_getElem
  · simp only [load, List.length_map, List.length_range, List.length_take, List.length_drop]
    omega
  · intro k h1 h2
    simp only [load, List.length_map, List.length_range] at h1
    have hk : off + k < bs.length := by omega
    simp only [load, place, List.getElem_map, List.getElem_range, List.getElem_take,
      List.getElem_drop]
    exact (List.getElem_eq_getD (tail (off + k))).symm

/- Behind the first `a` bytes. -/
theorem load_place_append (a b : Bytes) (tail : Memory) (off n : ℕ) (h : off + n ≤ b.length) :
    load (place (a ++ b) tail) (a.length + off) n = (b.drop off).take n := by
  have hin : a.length + off + n ≤ (a ++ b).length := by
    rw [List.length_append]
    omega
  rw [load_place _ _ _ _ hin, ← List.drop_drop, List.drop_left]

/- Bytes of the tail written over the tail. -/
theorem place_load (bs : Bytes) (tail : Memory) (n : ℕ) :
    place (bs ++ load tail bs.length n) tail = place bs tail := by
  funext i
  by_cases hi : i < bs.length
  · simp [place, List.getElem?_append_left hi]
  · by_cases hn : i - bs.length < n
    · have hback : bs.length + (i - bs.length) = i := by omega
      simp [place, load, List.getElem?_append_right (not_lt.mp hi), hn, hback, not_lt.mp hi]
    · simp [place, load, List.getElem?_append_right (not_lt.mp hi), hn, not_lt.mp hi]

theorem load_take (m : Memory) (off n k : ℕ) (h : k ≤ n) : (load m off n).take k = load m off k := by
  rw [load, load, ← List.map_take, List.take_range, Nat.min_eq_left h]

theorem load_drop (m : Memory) (off n k : ℕ) : (load m off (k + n)).drop k = load m (off + k) n := by
  rw [load, load, List.range_add, List.map_append, List.drop_left' (by simp), List.map_map]
  simp only [Function.comp_def, Nat.add_assoc]

theorem load_congr {m m' : Memory} {off n : ℕ} (h : ∀ k < n, m (off + k) = m' (off + k)) :
    load m off n = load m' off n := by
  apply List.map_congr_left
  intro k hk
  exact h k (List.mem_range.mp hk)

/-! ### Record layouts -/

/-- A packed record: `bytes` writes exactly `size` bytes and `value` reads
them back from the front of any longer string. -/
structure Layout (α : Type) where
  size : ℕ
  bytes : α → Bytes
  value : Bytes → α
  bytes_length : ∀ a, (bytes a).length = size
  value_bytes : ∀ a rest, value (bytes a ++ rest) = a

namespace Layout
variable {α β : Type}

def pair (A : Layout α) (B : Layout β) : Layout (α × β) where
  size := A.size + B.size
  bytes p := A.bytes p.1 ++ B.bytes p.2
  value bs := (A.value bs, B.value (bs.drop A.size))
  bytes_length p := by simp only [List.length_append, A.bytes_length, B.bytes_length]
  value_bytes p rest := by
    have hd : (A.bytes p.1 ++ (B.bytes p.2 ++ rest)).drop A.size = B.bytes p.2 ++ rest := by
      rw [← A.bytes_length p.1, List.drop_left]
    rw [List.append_assoc, hd, A.value_bytes, B.value_bytes]

/-- The same bytes under another type. -/
def iso (A : Layout α) (f : β → α) (g : α → β) (h : ∀ b, g (f b) = b) : Layout β where
  size := A.size
  bytes b := A.bytes (f b)
  value bs := g (A.value bs)
  bytes_length b := A.bytes_length (f b)
  value_bytes b rest := by rw [A.value_bytes, h]

/-- Consecutive records. -/
def array (A : Layout α) (xs : List α) : Bytes := xs.flatMap A.bytes

def values (A : Layout α) (n : ℕ) (bs : Bytes) : List α :=
  (List.range n).map fun i => A.value (bs.drop (i * A.size))

theorem array_length (A : Layout α) (xs : List α) : (A.array xs).length = xs.length * A.size := by
  induction xs with
  | nil => simp [array]
  | cons x xs ih =>
    have hx : A.array (x :: xs) = A.bytes x ++ A.array xs := rfl
    rw [hx, List.length_append, A.bytes_length, ih, List.length_cons]
    ring

theorem array_append (A : Layout α) (xs ys : List α) :
    A.array (xs ++ ys) = A.array xs ++ A.array ys := List.flatMap_append

/-- Reading an array of records gives the records written, in order. -/
theorem values_array (A : Layout α) (xs : List α) (rest : Bytes) :
    A.values xs.length (A.array xs ++ rest) = xs := by
  induction xs with
  | nil => rfl
  | cons x xs ih =>
    have hs : A.array (x :: xs) ++ rest = A.bytes x ++ (A.array xs ++ rest) := by
      simp [array, List.append_assoc]
    -- the first record is at the front, the others one record further on
    have hd : ∀ i, (A.bytes x ++ (A.array xs ++ rest)).drop ((i + 1) * A.size) =
        (A.array xs ++ rest).drop (i * A.size) := by
      intro i
      have hi : (i + 1) * A.size = (A.bytes x).length + i * A.size := by
        rw [A.bytes_length]; ring
      rw [hi, ← List.drop_drop, List.drop_left]
    rw [values] at ih
    rw [hs, values, List.length_cons, List.range_succ_eq_map, List.map_cons, List.map_map]
    simp only [Function.comp_def, Nat.succ_eq_add_one, hd, Nat.zero_mul, List.drop_zero,
      A.value_bytes]
    rw [ih]

/-- A record in memory, behind any other bytes. -/
theorem value_load (A : Layout α) (before after : Bytes) (a : α) (tail : Memory) :
    A.value (load (place (before ++ (A.bytes a ++ after)) tail) before.length A.size) = a := by
  have hin : 0 + A.size ≤ (A.bytes a ++ after).length := by
    rw [List.length_append, A.bytes_length]
    omega
  have hl := load_place_append before (A.bytes a ++ after) tail 0 A.size hin
  rw [Nat.add_zero, List.drop_zero, List.take_left' (A.bytes_length a)] at hl
  have hv := A.value_bytes a []
  rw [List.append_nil] at hv
  rw [hl, hv]

end Layout

/-! ### Words as layouts -/

def u8 : Layout UInt8 where
  size := 1
  bytes b := [b]
  value bs := bs.getD 0 0
  bytes_length _ := rfl
  value_bytes _ _ := rfl

def u16le : Layout UInt16 where
  size := 2
  bytes x := leBytes 2 x.toNat
  value bs := UInt16.ofNat (leVal (bs.take 2))
  bytes_length x := leBytes_length 2 x.toNat
  value_bytes x rest := by
    rw [List.take_left' (leBytes_length 2 x.toNat), leVal_leBytes 2 x.toNat x.toNat_lt]
    exact UInt16.ofNat_toNat

theorem u16le_toNat (bs : Bytes) (h : bs.length = 2) : (u16le.value bs).toNat = leVal bs := by
  have hlt : leVal bs < 2 ^ 16 := by
    have hl := leVal_lt bs
    rw [h] at hl
    exact hl
  have hval : u16le.value bs = UInt16.ofNat (leVal (bs.take 2)) := rfl
  rw [hval, List.take_of_length_le h.le, UInt16.toNat_ofNat', Nat.mod_eq_of_lt hlt]

def u32le : Layout UInt32 where
  size := 4
  bytes x := leBytes 4 x.toNat
  value bs := UInt32.ofNat (leVal (bs.take 4))
  bytes_length x := leBytes_length 4 x.toNat
  value_bytes x rest := by
    rw [List.take_left' (leBytes_length 4 x.toNat), leVal_leBytes 4 x.toNat x.toNat_lt]
    exact UInt32.ofNat_toNat

def u64le : Layout UInt64 where
  size := 8
  bytes x := leBytes 8 x.toNat
  value bs := UInt64.ofNat (leVal (bs.take 8))
  bytes_length x := leBytes_length 8 x.toNat
  value_bytes x rest := by
    rw [List.take_left' (leBytes_length 8 x.toNat), leVal_leBytes 8 x.toNat x.toNat_lt]
    exact UInt64.ofNat_toNat

def u16be : Layout UInt16 where
  size := 2
  bytes x := beBytes 2 x.toNat
  value bs := UInt16.ofNat (beVal (bs.take 2))
  bytes_length x := beBytes_length 2 x.toNat
  value_bytes x rest := by
    rw [List.take_left' (beBytes_length 2 x.toNat), beVal_beBytes 2 x.toNat x.toNat_lt]
    exact UInt16.ofNat_toNat

def u32be : Layout UInt32 where
  size := 4
  bytes x := beBytes 4 x.toNat
  value bs := UInt32.ofNat (beVal (bs.take 4))
  bytes_length x := beBytes_length 4 x.toNat
  value_bytes x rest := by
    rw [List.take_left' (beBytes_length 4 x.toNat), beVal_beBytes 4 x.toNat x.toNat_lt]
    exact UInt32.ofNat_toNat

def i16le : Layout Int16 :=
  u16le.iso Int16.toUInt16 UInt16.toInt16 Int16.toInt16_toUInt16

def i32le : Layout Int32 :=
  u32le.iso Int32.toUInt32 UInt32.toInt32 Int32.toInt32_toUInt32

theorem i32le_size : i32le.size = 4 := rfl

theorem i32le_bytes_value (bs : Bytes) (h : bs.length = 4) : i32le.bytes (i32le.value bs) = bs := by
  have hval : i32le.bytes (i32le.value bs) =
      leBytes 4 (UInt32.ofNat (leVal (bs.take 4))).toNat := rfl
  have hlt : leVal bs < 2 ^ 32 := by
    have hl := leVal_lt bs
    rw [h] at hl
    exact hl
  rw [hval, List.take_of_length_le h.le, UInt32.toNat_ofNat', Nat.mod_eq_of_lt hlt, ← h]
  exact leBytes_leVal bs

theorem Layout.bytes_injective {α : Type} (A : Layout α) {a b : α} (h : A.bytes a = A.bytes b) :
    a = b := by
  rw [← A.value_bytes a [], h, A.value_bytes b []]

/- The low byte of a word has its parity. -/
theorem i32le_parity {x : Int32} {b : UInt8} {bs : Bytes} (h : i32le.bytes x = b :: bs) :
    x.toInt % 2 = b.toNat % 2 := by
  have hb : b = UInt8.ofNat x.toUInt32.toNat := (List.cons.inj h).1.symm
  have hx : x.toInt = Int.bmod x.toUInt32.toNat (2 ^ 32) := BitVec.toInt_eq_toNat_bmod _
  rw [hb, UInt8.toNat_ofNat', hx, Int.bmod]
  split
  · omega
  · omega

/-! ### Host and network order

On a little endian host the network order of a word is the word whose own
(native) bytes are the big endian bytes of the value. -/

def htons (x : UInt16) : UInt16 := UInt16.ofNat (leVal (beBytes 2 x.toNat))
def htonl (x : UInt32) : UInt32 := UInt32.ofNat (leVal (beBytes 4 x.toNat))

theorem leBytes_of_bytes (bs : Bytes) (n : ℕ) (h : bs.length = n) : leBytes n (leVal bs) = bs := by
  rw [← h]
  exact leBytes_leVal bs

theorem u16le_htons (x : UInt16) : u16le.bytes (htons x) = u16be.bytes x := by
  have hl := leVal_lt (beBytes 2 x.toNat)
  rw [beBytes_length] at hl
  have hv : (htons x).toNat = leVal (beBytes 2 x.toNat) := by
    simp only [htons, UInt16.toNat_ofNat']
    exact Nat.mod_eq_of_lt hl
  show leBytes 2 (htons x).toNat = beBytes 2 x.toNat
  rw [hv]
  exact leBytes_of_bytes _ 2 (beBytes_length 2 x.toNat)

theorem u32le_htonl (x : UInt32) : u32le.bytes (htonl x) = u32be.bytes x := by
  have hl := leVal_lt (beBytes 4 x.toNat)
  rw [beBytes_length] at hl
  have hv : (htonl x).toNat = leVal (beBytes 4 x.toNat) := by
    simp only [htonl, UInt32.toNat_ofNat']
    exact Nat.mod_eq_of_lt hl
  show leBytes 4 (htonl x).toNat = beBytes 4 x.toNat
  rw [hv]
  exact leBytes_of_bytes _ 4 (beBytes_length 4 x.toNat)

end TypegoSdk.Lib
