import TypegoSdk.Lib.Ordered

/-!
# Binary search

`std::lower_bound` on a range that is partitioned: the elements below the value
come first. In a range sorted by a key the search finds an element with the key
if there is one.
-/

namespace TypegoSdk.Lib
variable {α κ : Type*}

/-- The loop of `std::lower_bound`: `len` elements from `first` on are left. -/
def lowerBoundLoop (below : α → Bool) (l : List α) : ℕ → ℕ → ℕ → ℕ
  | 0, first, _ => first
  | fuel + 1, first, len =>
    if len = 0 then first
    else
      match l[first + len / 2]? with
      | none => first
      | some x =>
        if below x then lowerBoundLoop below l fuel (first + len / 2 + 1) (len - len / 2 - 1)
        else lowerBoundLoop below l fuel first (len / 2)

def lowerBound (below : α → Bool) (l : List α) : ℕ := lowerBoundLoop below l l.length 0 l.length

def Partitioned (below : α → Bool) (l : List α) : Prop :=
  ∀ (i j : ℕ) (x y : α), i ≤ j → l[i]? = some x → l[j]? = some y → below y = true → below x = true

/- What is known of the elements outside the rest of the range. -/
structure Narrowed (below : α → Bool) (l : List α) (first len : ℕ) : Prop where
  inside : first + len ≤ l.length
  front : ∀ (i : ℕ) (x : α), i < first → l[i]? = some x → below x = true
  back : ∀ (i : ℕ) (x : α), first + len ≤ i → l[i]? = some x → below x = false

theorem lowerBoundLoop_spec {below : α → Bool} {l : List α} (hp : Partitioned below l)
    {fuel first len : ℕ} (hf : len ≤ fuel) (h : Narrowed below l first len) :
    Narrowed below l (lowerBoundLoop below l fuel first len) 0 := by
  induction fuel generalizing first len with
  | zero =>
    have hlen : len = 0 := by omega
    subst hlen
    exact h
  | succ fuel ih =>
    rw [lowerBoundLoop]
    split
    · next hlen =>
      subst hlen
      exact h
    · next hlen =>
      have hmid : first + len / 2 < l.length := by
        have := h.inside
        omega
      rw [List.getElem?_eq_getElem hmid]
      simp only
      split
      · next hb =>
        refine ih (by omega) ⟨?_, ?_, ?_⟩
        · have := h.inside
          omega
        · intro i x hi hx
          exact hp i _ x _ (by omega) hx (List.getElem?_eq_getElem hmid) hb
        · intro i x hi hx
          exact h.back i x (by omega) hx
      · next hb =>
        refine ih (by omega) ⟨by omega, h.front, ?_⟩
        intro i x hi hx
        by_contra hbx
        exact hb (hp _ i _ x hi (List.getElem?_eq_getElem hmid) hx (by simpa using hbx))

theorem lowerBound_spec {below : α → Bool} {l : List α} (hp : Partitioned below l) :
    Narrowed below l (lowerBound below l) 0 :=
  lowerBoundLoop_spec hp le_rfl ⟨by simp, by simp, by
    intro i x hi hx
    rw [List.getElem?_eq_none (by simpa using hi)] at hx
    cases hx⟩

/-! ### Ranges sorted by a key -/

/-- No element is above one that comes later, as `std::sort` leaves a range. -/
def InOrder (lt : κ → κ → Bool) (key : α → κ) (l : List α) : Prop :=
  l.Pairwise fun x y => lt (key y) (key x) = false

theorem InOrder.getElem {lt : κ → κ → Bool} {key : α → κ} {l : List α} (h : InOrder lt key l)
    (hlt : StrictWeak lt) {i j : ℕ} {x y : α} (hij : i ≤ j) (hx : l[i]? = some x)
    (hy : l[j]? = some y) : lt (key y) (key x) = false := by
  obtain ⟨hi, rfl⟩ := List.getElem?_eq_some_iff.mp hx
  obtain ⟨hj, rfl⟩ := List.getElem?_eq_some_iff.mp hy
  rcases Nat.lt_or_eq_of_le hij with hlt' | rfl
  · exact List.pairwise_iff_getElem.mp h i j hi hj hlt'
  · by_contra hne
    have hself := hlt.asymm (by simpa using hne)
    exact hne hself

theorem InOrder.partitioned {lt : κ → κ → Bool} {key : α → κ} {l : List α}
    (h : InOrder lt key l) (hlt : StrictWeak lt) (k : κ) :
    Partitioned (fun x => lt (key x) k) l := by
  intro i j x y hij hx hy hb
  rcases hlt.cotrans (key x) hb with hyx | hxk
  · rw [h.getElem hlt hij hx hy] at hyx
    cases hyx
  · exact hxk

/- Sequences that neither precede the other are the same, if their elements are. -/
theorem lexLt_total {lt : α → α → Bool} (htotal : ∀ a b, lt a b = false → lt b a = false → a = b)
    (xs ys : List α) (h : lexLt lt xs ys = false) (h' : lexLt lt ys xs = false) : xs = ys := by
  induction xs generalizing ys with
  | nil =>
    cases ys with
    | nil => rfl
    | cons y ys => simp [lexLt] at h
  | cons x xs ih =>
    cases ys with
    | nil => simp [lexLt] at h'
    | cons y ys =>
      simp only [lexLt, orElse, Bool.or_eq_false_iff, Bool.and_eq_false_iff,
        Bool.not_eq_false'] at h h'
      have hxy := htotal x y h.1 h'.1
      rw [hxy, ih ys (h.2.resolve_left (by simp [h'.1])) (h'.2.resolve_left (by simp [h.1]))]

/-- Binary search in a range sorted by a key finds what a search from the front finds. -/
theorem lowerBound_find? [DecidableEq κ] {lt : κ → κ → Bool} {key : α → κ} {l : List α}
    (h : InOrder lt key l) (hlt : StrictWeak lt)
    (htotal : ∀ a b, lt a b = false → lt b a = false → a = b) (k : κ) :
    l[lowerBound (fun x => lt (key x) k) l]?.filter (fun x => key x = k) =
      l.find? fun x => key x = k := by
  have hspec := lowerBound_spec (h.partitioned hlt k)
  have hirrefl : lt k k = false := by
    by_contra hne
    exact hne (hlt.asymm (by simpa using hne))
  have hbefore : ∀ i x, i < lowerBound (fun x => lt (key x) k) l → l[i]? = some x → key x ≠ k := by
    rintro i x hi hx rfl
    exact absurd (hspec.front i x hi hx) (by simp [hirrefl])
  cases hy : l[lowerBound (fun x => lt (key x) k) l]? with
  | none =>
    -- every element is below the key
    rw [Option.filter_none, eq_comm, List.find?_eq_none]
    intro x hx
    obtain ⟨i, hi⟩ := List.getElem?_of_mem hx
    obtain ⟨hil, -⟩ := List.getElem?_eq_some_iff.mp hi
    have hle := List.getElem?_eq_none_iff.mp hy
    simpa using hbefore i x (by omega) hi
  | some y =>
    obtain ⟨hlen, hyl⟩ := List.getElem?_eq_some_iff.mp hy
    by_cases hk : key y = k
    · rw [Option.filter_some_pos (by simpa using hk), eq_comm,
        List.find?_eq_some_iff_getElem]
      refine ⟨by simpa using hk, _, hlen, hyl, fun j hj => ?_⟩
      simpa using hbefore j _ hj (List.getElem?_eq_getElem (by omega))
    · rw [Option.filter_some_neg (by simpa using hk), eq_comm, List.find?_eq_none]
      intro x hx hkx
      obtain ⟨i, hi⟩ := List.getElem?_of_mem hx
      have hkx : key x = k := by simpa using hkx
      have hge : lowerBound (fun x => lt (key x) k) l ≤ i := by
        by_contra hlt'
        exact hbefore i x (by omega) hi hkx
      have hxy := h.getElem hlt hge hy hi
      rw [hkx] at hxy
      exact hk (htotal _ _ (hspec.back _ y (by simp) hy) hxy)

end TypegoSdk.Lib
