import Mathlib.Data.List.Basic
import Mathlib.Data.Nat.Notation

/-!
# The first occurrence of a pattern

`std::string::find` and where it finds a separator that has been put behind a text.
-/

namespace TypegoSdk.Lib
variable {α : Type*} [DecidableEq α]

/-- Where the pattern first occurs. -/
def find (pat : List α) : List α → Option ℕ
  | [] => if pat = [] then some 0 else none
  | c :: s => if (c :: s).take pat.length = pat then some 0 else (find pat s).map (· + 1)

theorem find_self (pat rest : List α) : find pat (pat ++ rest) = some 0 := by
  cases h : pat ++ rest with
  | nil =>
    rw [find, if_pos (List.append_eq_nil_iff.mp h).1]
  | cons c s =>
    rw [find, ← h, if_pos List.take_left]

theorem find_le {pat s : List α} {i : ℕ} (h : find pat s = some i) : i + pat.length ≤ s.length := by
  induction s generalizing i with
  | nil =>
    rw [find] at h
    split at h
    · next hp =>
      cases h
      simp [hp]
    · cases h
  | cons c s ih =>
    rw [find] at h
    split at h
    · next hp =>
      cases h
      rw [Nat.zero_add, ← hp, List.length_take]
      exact Nat.min_le_right _ _
    · obtain ⟨j, hj, rfl⟩ := Option.map_eq_some_iff.mp h
      have hle := ih hj
      rw [List.length_cons]
      omega

/-- Nothing is found in a text without the first element of the pattern. -/
theorem find_skip {p : α} {s : List α} (h : p ∉ s) (ps rest : List α) :
    find (p :: ps) (s ++ rest) = (find (p :: ps) rest).map (· + s.length) := by
  induction s with
  | nil => simp
  | cons c s ih =>
    rw [List.mem_cons, not_or] at h
    have hne : ((c :: s) ++ rest).take (p :: ps).length ≠ p :: ps := by
      rw [List.cons_append, List.length_cons, List.take_succ_cons, ne_eq, List.cons.injEq]
      exact fun heq => h.1 heq.1.symm
    rw [List.cons_append] at hne ⊢
    rw [find, if_neg hne, ih h.2, Option.map_map]
    rfl

theorem find_sep {p : α} {s : List α} (h : p ∉ s) (ps rest : List α) :
    find (p :: ps) (s ++ (p :: ps ++ rest)) = some s.length := by
  rw [find_skip h, find_self, Option.map_some, Nat.zero_add]

theorem find_absent {p : α} {s : List α} (h : p ∉ s) (ps : List α) : find (p :: ps) s = none := by
  have hskip := find_skip h ps []
  rw [List.append_nil] at hskip
  rw [hskip]
  rfl

/-- A text that ends with an element that is not in the pattern. -/
theorem find_last {pat s : List α} {c : α} (hs : find pat (s ++ [c]) = none) (hc : c ∉ pat)
    (rest : List α) : find pat (s ++ c :: (pat ++ rest)) = some (s.length + 1) := by
  have hpat : pat ≠ [] := by
    rintro rfl
    cases s <;> simp [find] at hs
  induction s with
  | nil =>
    have hne : (c :: (pat ++ rest)).take pat.length ≠ pat := by
      obtain ⟨p, ps, rfl⟩ := List.exists_cons_of_ne_nil hpat
      rw [List.length_cons, List.take_succ_cons, ne_eq, List.cons.injEq]
      rintro ⟨rfl, -⟩
      exact hc (List.mem_cons_self ..)
    rw [List.nil_append, find, if_neg hne, find_self]
    rfl
  | cons d s ih =>
    rw [List.cons_append, find] at hs
    split at hs
    · cases hs
    · next hne =>
      have hne' : (d :: (s ++ c :: (pat ++ rest))).take pat.length ≠ pat := by
        have hsplit : d :: (s ++ c :: (pat ++ rest)) = (d :: (s ++ [c])) ++ (pat ++ rest) := by simp
        rw [hsplit]
        intro heq
        by_cases hle : pat.length ≤ (d :: (s ++ [c])).length
        · rw [List.take_append_of_le_length hle] at heq
          exact hne heq
        · rw [List.take_append, List.take_of_length_le (by omega)] at heq
          exact hc (heq ▸ by simp)
      rw [List.cons_append, find, if_neg hne', ih (Option.map_eq_none_iff.mp hs)]
      rfl

end TypegoSdk.Lib
