import Mathlib.Data.List.Basic
import Mathlib.Data.Nat.Notation

/-!
# The candidate with the least rank

Candidates come with a rank, and rank zero says that there is none. Of two candidates
the one with the smaller rank is kept, and of two with the same rank the first.
-/

namespace TypegoSdk.Lib
variable {α : Type*}

def better (found ret : ℕ × α) : ℕ × α :=
  if ret.1 ≠ 0 ∧ (found.1 = 0 ∨ ret.1 < found.1) then ret else found

/-- The same candidate, or none in both. -/
def Agree (r r' : ℕ × α) : Prop := r.1 = r'.1 ∧ (r.1 ≠ 0 → r.2 = r'.2)

theorem better_agree {r r' : ℕ × α} (h : Agree r r') (found : ℕ × α) :
    better found r = better found r' := by
  by_cases hr : r.1 = 0
  · have hr' : r'.1 = 0 := h.1.symm.trans hr
    simp [better, hr, hr']
  · rw [show r = r' from Prod.ext h.1 (h.2 hr)]

theorem better_assoc (a b c : ℕ × α) : better (better a b) c = better a (better b c) := by
  unfold better
  by_cases hb : b.1 ≠ 0 ∧ (a.1 = 0 ∨ b.1 < a.1)
  · by_cases hc : c.1 ≠ 0 ∧ (b.1 = 0 ∨ c.1 < b.1)
    · rw [if_pos hb, if_pos hc, if_pos (by omega)]
    · rw [if_pos hb, if_neg hc, if_pos hb]
  · by_cases hc : c.1 ≠ 0 ∧ (b.1 = 0 ∨ c.1 < b.1)
    · rw [if_neg hb, if_pos hc]
    · rw [if_neg hb, if_neg hc, if_neg hb, if_neg (by omega)]

def best (nothing : α) (cs : List (ℕ × α)) : ℕ × α := cs.foldl better (0, nothing)

theorem foldl_better (nothing : α) (found : ℕ × α) (cs : List (ℕ × α)) :
    cs.foldl better found = better found (best nothing cs) := by
  induction cs generalizing found with
  | nil => simp [best, better]
  | cons c cs ih =>
    have hbest : best nothing (c :: cs) = better (better (0, nothing) c) (best nothing cs) := ih _
    have hfirst : better found (better (0, nothing) c) = better found c := by
      by_cases hc : c.1 = 0 <;> simp [better, hc]
    rw [List.foldl_cons, ih, hbest, ← better_assoc, hfirst]

theorem best_cons (nothing : α) (c : ℕ × α) (cs : List (ℕ × α)) :
    best nothing (c :: cs) = better (better (0, nothing) c) (best nothing cs) :=
  foldl_better nothing (better (0, nothing) c) cs

/-- There is none, or it is a candidate with the least rank. -/
theorem best_spec (nothing : α) {cs : List (ℕ × α)} (hpos : ∀ c ∈ cs, c.1 ≠ 0) :
    ((best nothing cs).1 = 0 ↔ cs = []) ∧
      ((best nothing cs).1 ≠ 0 → best nothing cs ∈ cs ∧ ∀ c ∈ cs, (best nothing cs).1 ≤ c.1) := by
  induction cs with
  | nil => exact ⟨⟨fun _ => rfl, fun _ => rfl⟩, fun h => absurd rfl h⟩
  | cons c cs ih =>
    obtain ⟨ihzero, ihleast⟩ := ih fun d hd => hpos d (List.mem_cons_of_mem _ hd)
    have hc : c.1 ≠ 0 := hpos c (List.mem_cons_self ..)
    have hfirst : better (0, nothing) c = c := by simp [better, hc]
    rw [best_cons, hfirst, better]
    by_cases hless : (best nothing cs).1 ≠ 0 ∧ (c.1 = 0 ∨ (best nothing cs).1 < c.1)
    · obtain ⟨hmem, hleast⟩ := ihleast hless.1
      rw [if_pos hless]
      refine ⟨⟨fun h => absurd h hless.1, fun h => by cases h⟩, fun _ => ⟨.tail _ hmem, fun d hd => ?_⟩⟩
      rcases List.mem_cons.mp hd with rfl | hd
      · omega
      · exact hleast d hd
    · rw [if_neg hless]
      refine ⟨⟨fun h => absurd h hc, fun h => by cases h⟩, fun _ => ⟨.head _, fun d hd => ?_⟩⟩
      rcases List.mem_cons.mp hd with rfl | hd
      · exact Nat.le_refl _
      · by_cases hnone : (best nothing cs).1 = 0
        · rw [ihzero.mp hnone] at hd
          cases hd
        · have hle := (ihleast hnone).2 d hd
          omega

end TypegoSdk.Lib
