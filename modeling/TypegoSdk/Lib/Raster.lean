import Mathlib.Data.List.Basic
import Mathlib.Algebra.GroupWithZero.Nat

/-!
# Rasters

Rows of pixels of one width, as arrays of two dimensions are handled by
programs: rows are cut off at the top, rasters are stacked, pixels are mapped
and written out as bytes, row by row.
-/

namespace TypegoSdk.Lib
variable {α β : Type*} {w : ℕ}

structure Raster (w : ℕ) (α : Type*) where
  rows : List (List α)
  width : ∀ row ∈ rows, row.length = w

namespace Raster

def height (a : Raster w α) : ℕ := a.rows.length

def cut (n : ℕ) (a : Raster w α) : Raster w α :=
  ⟨a.rows.drop n, fun row hrow => a.width row (List.mem_of_mem_drop hrow)⟩

def stack (images : List (Raster w α)) : Raster w α where
  rows := images.flatMap rows
  width row hrow := by
    obtain ⟨a, -, hrow⟩ := List.mem_flatMap.mp hrow
    exact a.width row hrow

def map (f : α → β) (a : Raster w α) : Raster w β where
  rows := a.rows.map (List.map f)
  width row hrow := by
    obtain ⟨row', hrow', rfl⟩ := List.mem_map.mp hrow
    rw [List.length_map]
    exact a.width row' hrow'

def bytes (encode : α → List UInt8) (a : Raster w α) : List UInt8 := a.rows.flatten.flatMap encode

/- A raster of one pixel. -/
def plain (h w : ℕ) (p : α) : Raster w α where
  rows := List.replicate h (List.replicate w p)
  width row hrow := by rw [List.eq_of_mem_replicate hrow, List.length_replicate]

@[simp] theorem height_cut (n : ℕ) (a : Raster w α) : (a.cut n).height = a.height - n :=
  List.length_drop

@[simp] theorem height_map (f : α → β) (a : Raster w α) : (a.map f).height = a.height :=
  List.length_map ..

@[simp] theorem height_stack (images : List (Raster w α)) :
    (stack images).height = (images.map height).sum := by
  show (images.flatMap rows).length = _
  rw [List.length_flatMap]
  rfl

@[simp] theorem height_plain (h w : ℕ) (p : α) : (plain h w p).height = h := List.length_replicate

theorem length_flatten (a : Raster w α) : a.rows.flatten.length = a.height * w := by
  obtain ⟨rows, width⟩ := a
  induction rows with
  | nil => simp [height]
  | cons row rows ih =>
    have hrow : row.length = w := width row (List.mem_cons_self ..)
    have hrest := ih fun r hr => width r (List.mem_cons_of_mem _ hr)
    simp only [height, List.length_cons, List.flatten_cons, List.length_append] at hrest ⊢
    rw [hrow, hrest, Nat.succ_mul, Nat.add_comm]

theorem length_bytes {encode : α → List UInt8} {k : ℕ} (h : ∀ p, (encode p).length = k)
    (a : Raster w α) : (a.bytes encode).length = a.height * w * k := by
  rw [bytes, List.length_flatMap, List.map_congr_left fun p _ => h p, List.map_const',
    List.sum_replicate_nat, length_flatten]

/- One of several rasters of the height `h` is cut. -/
theorem height_stack_modify {h n : ℕ} (hn : n ≤ h) {images : List (Raster w α)}
    (hall : ∀ a ∈ images, a.height = h) {i : ℕ} (hi : i < images.length) :
    (stack (images.modify i (cut n))).height + n = h * images.length := by
  rw [height_stack]
  induction images generalizing i with
  | nil => cases hi
  | cons a images ih =>
    have ha : a.height = h := hall a (List.mem_cons_self ..)
    have hrest : ∀ b ∈ images, b.height = h := fun b hb => hall b (List.mem_cons_of_mem _ hb)
    cases i with
    | zero =>
      have hsum : images.map height = List.replicate images.length h := by
        rw [List.map_congr_left hrest, List.map_const']
      rw [List.modify_zero_cons, List.map_cons, List.sum_cons, height_cut, ha, hsum,
        List.sum_replicate_nat, List.length_cons, Nat.mul_succ, Nat.mul_comm]
      omega
    | succ i =>
      have hsum := ih hrest (Nat.lt_of_succ_lt_succ hi)
      rw [List.modify_succ_cons, List.map_cons, List.sum_cons, ha, Nat.add_assoc, hsum,
        List.length_cons, Nat.mul_succ, Nat.add_comm]

end Raster

end TypegoSdk.Lib
