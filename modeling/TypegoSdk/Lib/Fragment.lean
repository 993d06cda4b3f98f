import Mathlib.Data.List.Basic
import Mathlib.Tactic.Ring

/-!
# Fragments and sequence numbers

A sender that cuts a list of records into datagrams of at most `cap` records
and numbers the datagrams with a 16-bit counter. `fragments` is the cut,
`number` the numbering and `counter` the numbers alone.
-/

namespace TypegoSdk.Lib
variable {α β : Type}

/-! ### Cutting a list -/

/-- Groups of `cap` elements, left to right; only the last may be shorter and
none is empty. -/
def fragments (cap : ℕ) : List α → List (List α)
  | [] => []
  | x :: xs => (x :: xs.take (cap - 1)) :: fragments cap (xs.drop (cap - 1))
termination_by xs => xs.length
decreasing_by
  simp only [List.length_drop, List.length_cons]
  omega

@[simp] theorem fragments_nil (cap : ℕ) : fragments cap ([] : List α) = [] := by
  rw [fragments]

theorem fragments_cons (cap : ℕ) (x : α) (xs : List α) :
    fragments cap (x :: xs) = (x :: xs.take (cap - 1)) :: fragments cap (xs.drop (cap - 1)) := by
  rw [fragments]

/-- The head group is the first `cap` elements. -/
theorem fragments_take (cap : ℕ) (xs : List α) (hc : 0 < cap) (hx : xs ≠ []) :
    fragments cap xs = xs.take cap :: fragments cap (xs.drop cap) := by
  obtain ⟨c, rfl⟩ : ∃ c, cap = c + 1 := ⟨cap - 1, by omega⟩
  cases xs with
  | nil => exact absurd rfl hx
  | cons x xs => rw [fragments_cons, List.take_succ_cons, List.drop_succ_cons, Nat.add_sub_cancel]

theorem fragments_full (cap : ℕ) (g rest : List α) (hc : 0 < cap) (hg : g.length = cap) :
    fragments cap (g ++ rest) = g :: fragments cap rest := by
  have hne : g ++ rest ≠ [] := by
    intro h
    have hl := congrArg List.length h
    simp only [List.length_append, List.length_nil] at hl
    omega
  rw [fragments_take cap _ hc hne, List.take_left' hg, List.drop_left' hg]

theorem fragments_flatten_append (cap : ℕ) (full : List (List α)) (rest : List α) (hc : 0 < cap)
    (hf : ∀ g ∈ full, g.length = cap) :
    fragments cap (full.flatten ++ rest) = full ++ fragments cap rest := by
  induction full with
  | nil => rfl
  | cons g full ih =>
    have hg := hf g (List.mem_cons_self ..)
    have ht := ih fun x hx => hf x (List.mem_cons_of_mem _ hx)
    rw [List.flatten_cons, List.append_assoc, fragments_full cap g _ hc hg, ht, List.cons_append]

theorem fragments_short (cap : ℕ) (g : List α) (hc : 0 < cap) (hne : g ≠ []) (hg : g.length ≤ cap) :
    fragments cap g = [g] := by
  rw [fragments_take cap g hc hne, List.take_of_length_le hg, List.drop_eq_nil_of_le hg,
    fragments_nil]

theorem fragments_flatten (cap : ℕ) (xs : List α) : (fragments cap xs).flatten = xs := by
  induction xs using fragments.induct cap with
  | case1 => simp
  | case2 x xs ih => rw [fragments_cons, List.flatten_cons, ih, List.cons_append, List.take_append_drop]

theorem fragments_bounds (cap : ℕ) (xs : List α) (hc : 0 < cap) :
    ∀ g ∈ fragments cap xs, 1 ≤ g.length ∧ g.length ≤ cap := by
  induction xs using fragments.induct cap with
  | case1 => simp
  | case2 x xs ih =>
    intro g hg
    rw [fragments_cons] at hg
    rcases List.mem_cons.mp hg with rfl | hg
    · simp only [List.length_cons, List.length_take]
      omega
    · exact ih g hg

/-- Every group but the last is full. -/
theorem fragments_dropLast (cap : ℕ) (xs : List α) (hc : 0 < cap) :
    ∀ g ∈ (fragments cap xs).dropLast, g.length = cap := by
  induction xs using fragments.induct cap with
  | case1 => simp
  | case2 x xs ih =>
    intro g hg
    rw [fragments_cons] at hg
    cases hr : xs.drop (cap - 1) with
    | nil => simp [hr] at hg
    | cons y ys =>
      rw [hr, fragments_cons, List.dropLast_cons_cons] at hg
      rcases List.mem_cons.mp hg with rfl | hg
      · have hl := congrArg List.length hr
        simp only [List.length_drop, List.length_cons] at hl
        simp only [List.length_cons, List.length_take]
        omega
      · rw [hr, fragments_cons] at ih
        exact ih g hg

/-- Induction over the groups, for a list that is cut from the front. -/
@[elab_as_elim]
theorem fragments_induction (cap : ℕ) (hc : 0 < cap) {P : List α → Prop} (nil : P [])
    (cut : ∀ xs, xs ≠ [] → P (xs.drop cap) → P xs) (xs : List α) : P xs := by
  induction hn : xs.length using Nat.strong_induction_on generalizing xs with
  | _ n ih =>
    by_cases hx : xs = []
    · rw [hx]
      exact nil
    · have hpos := List.length_pos_of_ne_nil hx
      have hless : (xs.drop cap).length < n := by
        rw [List.length_drop]
        omega
      exact cut xs hx (ih _ hless (xs.drop cap) rfl)

/- The groups of a list have two lengths: the full one and the rest. -/
theorem forall_fragments (cap : ℕ) (hc : 0 < cap) (Q : ℕ → Prop) (xs : List α) :
    (∀ g ∈ fragments cap xs, Q g.length) ↔
      (cap ≤ xs.length → Q cap) ∧ (xs.length % cap ≠ 0 → Q (xs.length % cap)) := by
  induction xs using fragments_induction cap hc with
  | nil => simp [Nat.not_le.mpr hc]
  | cut xs hx ih =>
    have hpos := List.length_pos_of_ne_nil hx
    rw [fragments_take cap xs hc hx, List.forall_mem_cons, ih, List.length_take, List.length_drop]
    by_cases hle : cap ≤ xs.length
    · have hmod : (xs.length - cap) % cap = xs.length % cap := (Nat.mod_eq_sub_mod hle).symm
      rw [Nat.min_eq_left hle, hmod]
      constructor
      · rintro ⟨hfull, _, hrest⟩
        exact ⟨fun _ => hfull, hrest⟩
      · rintro ⟨hfull, hrest⟩
        exact ⟨hfull hle, fun _ => hfull hle, hrest⟩
    · have hlt : xs.length < cap := by omega
      have hzero : xs.length - cap = 0 := by omega
      have hne : xs.length ≠ 0 := by omega
      rw [Nat.min_eq_right hlt.le, hzero, Nat.zero_mod, Nat.mod_eq_of_lt hlt]
      constructor
      · rintro ⟨hrest, _⟩
        exact ⟨fun h => absurd h hle, fun _ => hrest⟩
      · rintro ⟨_, hrest⟩
        exact ⟨hrest hne, fun h => by omega, fun h => absurd rfl h⟩

/-! ### The front of every group -/

/-- Of each group with `n` elements the first `t n`. -/
def skim (cap : ℕ) (t : ℕ → ℕ) (xs : List α) : List α :=
  (fragments cap xs).flatMap fun g => g.take (t g.length)

section Skim
variable {cap : ℕ} {t : ℕ → ℕ} (hc : 0 < cap)
include hc

theorem skim_cut (xs : List α) (hx : xs ≠ []) :
    skim cap t xs = (xs.take cap).take (t (xs.take cap).length) ++ skim cap t (xs.drop cap) := by
  rw [skim, fragments_take cap xs hc hx, List.flatMap_cons]
  rfl

omit hc in
theorem skim_none (xs : List α) (h : ∀ n ≤ xs.length, t n = 0) : skim cap t xs = [] := by
  apply List.flatMap_eq_nil_iff.mpr
  intro g hg
  have hle : g.length ≤ xs.length := by
    have hsub : g.length ≤ (fragments cap xs).flatten.length :=
      (List.sublist_flatten_of_mem hg).length_le
    rwa [fragments_flatten] at hsub
  rw [h g.length hle, List.take_zero]

omit hc in
theorem mem_of_mem_skim {xs : List α} {x : α} (h : x ∈ skim cap t xs) : x ∈ xs := by
  obtain ⟨g, hg, hx⟩ := List.mem_flatMap.mp h
  have hflat : x ∈ (fragments cap xs).flatten := List.mem_flatten.mpr ⟨g, hg, List.mem_of_mem_take hx⟩
  rwa [fragments_flatten] at hflat

theorem skim_length (h0 : t 0 = 0) (xs : List α) (hfull : cap ≤ xs.length → t cap ≤ cap)
    (hrest : t (xs.length % cap) ≤ xs.length % cap) :
    (skim cap t xs).length = xs.length / cap * t cap + t (xs.length % cap) := by
  induction xs using fragments_induction cap hc with
  | nil => simp [skim, h0]
  | cut xs hx ih =>
    rw [skim_cut hc xs hx, List.length_append]
    simp only [List.length_take]
    by_cases hle : cap ≤ xs.length
    · have hlen : (xs.drop cap).length = xs.length - cap := List.length_drop ..
      have hmod : (xs.length - cap) % cap = xs.length % cap := (Nat.mod_eq_sub_mod hle).symm
      have hdiv : xs.length / cap = (xs.length - cap) / cap + 1 := Nat.div_eq_sub_div hc hle
      rw [hlen, hmod] at ih
      have htake := hfull hle
      rw [ih (fun _ => htake) hrest, Nat.min_eq_left hle, Nat.min_eq_left htake, hdiv, Nat.succ_mul]
      omega
    · have hlt : xs.length < cap := by omega
      have hdrop : xs.drop cap = [] := List.drop_eq_nil_of_le hlt.le
      rw [Nat.mod_eq_of_lt hlt] at hrest ⊢
      rw [hdrop, Nat.min_eq_right hlt.le, Nat.min_eq_left hrest, Nat.div_eq_of_lt hlt]
      simp [skim]

/- Full groups that are taken whole leave no gap. -/
theorem skim_whole (hfull : t cap = cap) (xs : List α)
    (hrest : t (xs.length % cap) ≤ xs.length % cap) :
    skim cap t xs = xs.take (xs.length / cap * cap + t (xs.length % cap)) := by
  induction xs using fragments_induction cap hc with
  | nil => simp [skim]
  | cut xs hx ih =>
    rw [skim_cut hc xs hx, List.length_take]
    by_cases hle : cap ≤ xs.length
    · have hlen : (xs.drop cap).length = xs.length - cap := List.length_drop ..
      have hmod : (xs.length - cap) % cap = xs.length % cap := (Nat.mod_eq_sub_mod hle).symm
      have hdiv : xs.length / cap = (xs.length - cap) / cap + 1 := Nat.div_eq_sub_div hc hle
      have hsum : xs.length / cap * cap + t (xs.length % cap) =
          cap + ((xs.length - cap) / cap * cap + t (xs.length % cap)) := by
        rw [hdiv, Nat.succ_mul]
        omega
      rw [hlen, hmod] at ih
      rw [ih hrest, Nat.min_eq_left hle, hfull, List.take_take, Nat.min_self, hsum]
      exact (List.take_add ..).symm
    · have hlt : xs.length < cap := by omega
      have hdrop : xs.drop cap = [] := List.drop_eq_nil_of_le hlt.le
      have hall : xs.take cap = xs := List.take_of_length_le hlt.le
      rw [Nat.mod_eq_of_lt hlt, hdrop, Nat.min_eq_right hlt.le, Nat.div_eq_of_lt hlt, hall]
      simp [skim]

end Skim

/-! ### Sequence numbers -/

/-- Consecutive 16-bit numbers from `s` on. -/
def counter (s : UInt16) (n : ℕ) : List UInt16 :=
  (List.range n).map fun i => s + UInt16.ofNat i

/-- Each element with its number, counting up modulo 2^16. -/
def number (s : UInt16) : List α → List (UInt16 × α)
  | [] => []
  | a :: as => (s, a) :: number (s + 1) as

theorem counter_succ (s : UInt16) (n : ℕ) : counter s (n + 1) = s :: counter (s + 1) n := by
  have hz : s + UInt16.ofNat 0 = s := by simp
  have hs : ∀ i, s + UInt16.ofNat (i + 1) = s + 1 + UInt16.ofNat i := by
    intro i
    rw [UInt16.ofNat_add, UInt16.add_comm (UInt16.ofNat i), ← UInt16.add_assoc]
    rfl
  simp only [counter, List.range_succ_eq_map, List.map_cons, List.map_map, hz, Function.comp_def,
    Nat.succ_eq_add_one, hs]

theorem counter_add (s : UInt16) (m n : ℕ) :
    counter s (m + n) = counter s m ++ counter (s + UInt16.ofNat m) n := by
  simp only [counter, List.range_add, List.map_append, List.map_map, Function.comp_def,
    UInt16.ofNat_add, UInt16.add_assoc]

theorem number_append (s : UInt16) (as bs : List α) :
    number s (as ++ bs) = number s as ++ number (s + UInt16.ofNat as.length) bs := by
  induction as generalizing s with
  | nil => simp [number]
  | cons a as ih =>
    have hs : s + 1 + UInt16.ofNat as.length = s + UInt16.ofNat (as.length + 1) := by
      rw [UInt16.ofNat_add, UInt16.add_comm (UInt16.ofNat as.length), ← UInt16.add_assoc]
      rfl
    rw [List.cons_append, number, ih, number, List.length_cons, List.cons_append, hs]

@[simp] theorem number_fst (s : UInt16) (as : List α) :
    (number s as).map Prod.fst = counter s as.length := by
  induction as generalizing s with
  | nil => rfl
  | cons a as ih => rw [number, List.map_cons, ih, List.length_cons, counter_succ]

@[simp] theorem number_snd (s : UInt16) (as : List α) : (number s as).map Prod.snd = as := by
  induction as generalizing s with
  | nil => rfl
  | cons a as ih => rw [number, List.map_cons, ih]

@[simp] theorem number_length (s : UInt16) (as : List α) : (number s as).length = as.length := by
  have h := congrArg List.length (number_snd s as)
  rwa [List.length_map] at h

theorem number_mem (s : UInt16) (as : List α) (p : UInt16 × α) (h : p ∈ number s as) :
    p.2 ∈ as := by
  rw [← number_snd s as]
  exact List.mem_map_of_mem h

end TypegoSdk.Lib
