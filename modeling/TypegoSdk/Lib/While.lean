import Mathlib.Data.Nat.Basic
import Mathlib.Logic.Function.Iterate

/-!
# While loops

A loop with a bound on its rounds. `none` says that the bound is too small, so
a loop ends when some bound gives a result, and the result says after how many
rounds. The rules are for a loop that counts its rounds, for what holds at the
end of a loop, and for one that never ends.
-/

namespace TypegoSdk.Lib
variable {S : Type*}

/-- The rounds of `while (guard) body` and the state it ends in. -/
def whileLoop (guard : S → Bool) (body : S → S) : ℕ → S → Option (ℕ × S)
  | 0, s => if guard s then none else some (0, s)
  | fuel + 1, s =>
    if guard s then (whileLoop guard body fuel (body s)).map fun r => (r.1 + 1, r.2)
    else some (0, s)

variable {guard : S → Bool} {body : S → S}

theorem whileLoop_stop {s : S} (h : guard s = false) (fuel : ℕ) :
    whileLoop guard body fuel s = some (0, s) := by
  cases fuel with
  | zero => simp [whileLoop, h]
  | succ fuel => simp [whileLoop, h]

theorem whileLoop_round {s : S} (h : guard s = true) (fuel : ℕ) :
    whileLoop guard body (fuel + 1) s =
      (whileLoop guard body fuel (body s)).map fun r => (r.1 + 1, r.2) := by
  simp [whileLoop, h]

/-- `P k` holds before round `k`, counted from `k`, up to the last. -/
theorem whileLoop_counts (P : ℕ → S → Prop) (n : ℕ)
    (hround : ∀ k s, k < n → P k s → guard s = true ∧ P (k + 1) (body s))
    (hend : ∀ s, P n s → guard s = false) {k : ℕ} {s : S} (hk : k ≤ n) (hs : P k s) {fuel : ℕ}
    (hf : n - k ≤ fuel) : ∃ t, whileLoop guard body fuel s = some (n - k, t) ∧ P n t := by
  induction fuel generalizing k s with
  | zero =>
    have hkn : k = n := by omega
    subst hkn
    exact ⟨s, by rw [whileLoop_stop (hend s hs), Nat.sub_self], hs⟩
  | succ fuel ih =>
    by_cases hkn : k = n
    · subst hkn
      exact ⟨s, by rw [whileLoop_stop (hend s hs), Nat.sub_self], hs⟩
    · have hlt : k < n := by omega
      obtain ⟨hguard, hnext⟩ := hround k s hlt hs
      obtain ⟨t, ht, hp⟩ := ih (show k + 1 ≤ n by omega) hnext (by omega)
      have hsub : n - (k + 1) + 1 = n - k := by omega
      refine ⟨t, ?_, hp⟩
      rw [whileLoop_round hguard, ht, Option.map_some, hsub]

/- A state with a false guard on the way ends the loop, if not an earlier one. -/
theorem whileLoop_ends {k : ℕ} {s : S} (h : guard (body^[k] s) = false) :
    ∃ r, whileLoop guard body k s = some r := by
  induction k generalizing s with
  | zero => exact ⟨_, whileLoop_stop h 0⟩
  | succ k ih =>
    cases hg : guard s with
    | false => exact ⟨_, whileLoop_stop hg _⟩
    | true =>
      obtain ⟨r, hr⟩ := ih h
      exact ⟨_, by rw [whileLoop_round hg, hr, Option.map_some]⟩

/-- What every round keeps holds at the end, where the guard is false. -/
theorem whileLoop_exit (I : S → Prop) (hround : ∀ s, I s → guard s = true → I (body s)) {s t : S}
    (hs : I s) {fuel n : ℕ} (h : whileLoop guard body fuel s = some (n, t)) :
    I t ∧ guard t = false := by
  induction fuel generalizing s n with
  | zero =>
    cases hg : guard s with
    | true => simp [whileLoop, hg] at h
    | false =>
      rw [whileLoop_stop hg] at h
      cases h
      exact ⟨hs, hg⟩
  | succ fuel ih =>
    cases hg : guard s with
    | true =>
      rw [whileLoop_round hg, Option.map_eq_some_iff] at h
      obtain ⟨r, hr, hrt⟩ := h
      cases hrt
      exact ih (hround s hs hg) hr
    | false =>
      rw [whileLoop_stop hg] at h
      cases h
      exact ⟨hs, hg⟩

/-- A loop whose invariant keeps the guard true does not end. -/
theorem whileLoop_endless (I : S → Prop) (hround : ∀ s, I s → guard s = true ∧ I (body s)) {s : S}
    (hs : I s) (fuel : ℕ) : whileLoop guard body fuel s = none := by
  induction fuel generalizing s with
  | zero => simp [whileLoop, (hround s hs).1]
  | succ fuel ih => rw [whileLoop_round (hround s hs).1, ih (hround s hs).2, Option.map_none]

end TypegoSdk.Lib
