import Mathlib.Data.Fintype.Pigeonhole

/-!
# Orbits of a partial function

The places that a partial function leads to from a start. Over finitely many
places with a successor, the orbit ends exactly when it never comes back to a
place.
-/

namespace TypegoSdk.Lib
variable {α : Type*} (next : α → Option α)

def orbit (a : α) : ℕ → Option α
  | 0 => some a
  | n + 1 => (orbit a n).bind next

theorem orbit_add (a : α) (m n : ℕ) :
    orbit next a (m + n) = (orbit next a m).bind fun b => orbit next b n := by
  induction n with
  | zero =>
    cases orbit next a m with
    | none => rfl
    | some b => rfl
  | succ n ih =>
    rw [← Nat.add_assoc, orbit, ih]
    cases orbit next a m with
    | none => rfl
    | some b => rfl

theorem orbit_of_some {a b : α} {m : ℕ} (h : orbit next a m = some b) (n : ℕ) :
    orbit next a (m + n) = orbit next b n := by
  rw [orbit_add, h]
  rfl

/- An orbit that has ended stays so. -/
theorem orbit_none {a : α} {m n : ℕ} (h : orbit next a m = none) (hmn : m ≤ n) :
    orbit next a n = none := by
  obtain ⟨d, rfl⟩ := Nat.exists_eq_add_of_le hmn
  rw [orbit_add, h]
  rfl

/-- No place is met twice. -/
def NoReturn (a : α) : Prop :=
  ∀ i j b, i < j → orbit next a i = some b → orbit next a j ≠ some b

variable {next}

theorem orbit_cycle {b : α} {d : ℕ} (h : orbit next b d = some b) (m : ℕ) :
    orbit next b (m * d) = some b := by
  induction m with
  | zero => rw [Nat.zero_mul, orbit]
  | succ m ih => rw [Nat.succ_mul, orbit_of_some next ih, h]

theorem noReturn_of_ends {a : α} {k : ℕ} (h : orbit next a k = none) : NoReturn next a := by
  intro i j b hij hi hj
  obtain ⟨d, rfl⟩ := Nat.exists_eq_add_of_lt hij
  rw [Nat.add_assoc, orbit_of_some next hi] at hj
  -- from the place that is met again the orbit runs past its end
  have hround := orbit_cycle hj (k + 1)
  rw [← orbit_of_some next hi] at hround
  have hle : k ≤ i + (k + 1) * (d + 1) := by
    have hmul : k + 1 ≤ (k + 1) * (d + 1) := Nat.le_mul_of_pos_right (k + 1) (Nat.succ_pos d)
    omega
  rw [orbit_none next h hle] at hround
  cases hround

theorem orbit_ends_iff (s : Finset α) (hs : ∀ a b, next a = some b → a ∈ s) (a : α) :
    (∃ k, orbit next a k = none) ↔ NoReturn next a := by
  constructor
  · rintro ⟨k, hk⟩
    exact noReturn_of_ends hk
  · intro h
    by_contra hends
    -- every place of the orbit has a successor, so the orbit is a map to `s`
    have hsome : ∀ k, ∃ b, orbit next a k = some b := by
      intro k
      rw [← Option.ne_none_iff_exists']
      exact fun hk => hends ⟨k, hk⟩
    choose place hplace using hsome
    have hmem : ∀ k, place k ∈ s := by
      intro k
      have hstep := hplace (k + 1)
      rw [orbit, hplace k] at hstep
      exact hs _ _ hstep
    obtain ⟨i, j, hne, heq⟩ := Finite.exists_ne_map_eq_of_infinite fun k => (⟨place k, hmem k⟩ : s)
    have hsame : place i = place j := congrArg Subtype.val heq
    rcases Nat.lt_or_gt_of_ne hne with hlt | hlt
    · exact h i j _ hlt (hplace i) (hsame ▸ hplace j)
    · exact h j i _ hlt (hplace j) (hsame ▸ hplace i)

end TypegoSdk.Lib
