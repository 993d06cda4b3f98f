import TypegoSdk.Lib.Ordered
import Mathlib.Data.List.Sort
import Mathlib.Data.List.Induction

/-!
# Unions of ordered containers

What a container holds in place of an element, and that this determines the
container. Placing a row of elements in a container is placing what they make
of an empty one, if taking in is associative.
-/

namespace TypegoSdk.Lib
variable {α : Type*}

def equivalent (lt : α → α → Bool) (x y : α) : Bool := !lt x y && !lt y x

/- The element in the place of `x`. -/
def inPlace (lt : α → α → Bool) (x : α) (l : List α) : Option α := l.find? (equivalent lt x)

/- What stands in a place after `e` is taken in there. -/
def joined (merge : α → α → α) (r : Option α) (e : α) : α :=
  match r with
  | none => e
  | some y => merge y e

section Equivalent
variable {lt : α → α → Bool} {x y z : α}

theorem equivalent_iff : equivalent lt x y = true ↔ lt x y = false ∧ lt y x = false := by
  simp [equivalent]

theorem equivalent_self (h : StrictWeak lt) : equivalent lt x x = true := by
  have hx : lt x x = false := by
    by_contra hx
    have hlt : lt x x = true := by simpa using hx
    rw [h.asymm hlt] at hlt
    cases hlt
  exact equivalent_iff.mpr ⟨hx, hx⟩

theorem equivalent_symm (h : equivalent lt x y = true) : equivalent lt y x = true :=
  equivalent_iff.mpr (equivalent_iff.mp h).symm

theorem equivalent_trans (h : StrictWeak lt) (hxy : equivalent lt x y = true)
    (hyz : equivalent lt y z = true) : equivalent lt x z = true := by
  obtain ⟨hxy, hyx⟩ := equivalent_iff.mp hxy
  obtain ⟨hyz, hzy⟩ := equivalent_iff.mp hyz
  exact equivalent_iff.mpr ⟨h.not_trans hxy hyz, h.not_trans hzy hyx⟩

/- What lies apart from an element lies apart from those in its place. -/
theorem not_equivalent (h : StrictWeak lt) (hxy : equivalent lt x y = true)
    (hyz : lt y z = true ∨ lt z y = true) : equivalent lt x z = false := by
  by_contra hne
  have hxz : equivalent lt x z = true := by simpa using hne
  obtain ⟨hlt, hgt⟩ := equivalent_iff.mp (equivalent_trans h (equivalent_symm hxy) hxz)
  rcases hyz with hyz | hyz
  · rw [hlt] at hyz
    cases hyz
  · rw [hgt] at hyz
    cases hyz

end Equivalent

section InPlace
variable {lt : α → α → Bool} {merge : α → α → α} {l : List α}

theorem inPlace_cons (x y : α) :
    inPlace lt x (y :: l) = if equivalent lt x y then some y else inPlace lt x l := by
  cases hxy : equivalent lt x y with
  | true => simp [inPlace, hxy]
  | false => simp [inPlace, hxy]

/- Nothing stands in the place of `x` when all lie above an equivalent. -/
theorem inPlace_none (h : StrictWeak lt) {x e : α} (hxe : equivalent lt x e = true)
    (hl : ∀ y ∈ l, lt e y = true) : inPlace lt x l = none := by
  rw [inPlace, List.find?_eq_none]
  intro y hy
  rw [not_equivalent h hxe (.inl (hl y hy))]
  simp

theorem inPlace_self (h : StrictWeak lt) (hl : Sorted lt l) {x : α} (hx : x ∈ l) :
    inPlace lt x l = some x := by
  induction l with
  | nil => cases hx
  | cons y l ih =>
    obtain ⟨hy, hl⟩ := List.pairwise_cons.mp hl
    rw [inPlace_cons]
    rcases List.mem_cons.mp hx with rfl | hx
    · rw [if_pos (equivalent_self h)]
    · rw [not_equivalent h (equivalent_self h) (.inr (hy x hx)), if_neg (by simp)]
      exact ih hl hx

/- Placing `e` changes its own place and no other. -/
theorem inPlace_insertInto (h : StrictWeak lt) (hm : Merges lt merge) (hl : Sorted lt l) (x e : α) :
    inPlace lt x (insertInto lt merge e l) =
      if equivalent lt x e then some (joined merge (inPlace lt x l) e) else inPlace lt x l := by
  induction l with
  | nil => exact inPlace_cons x e
  | cons y l ih =>
    obtain ⟨hy, hl⟩ := List.pairwise_cons.mp hl
    unfold insertInto
    split
    · rename_i hey
      rw [inPlace_cons]
      split
      · rename_i hxe
        have hnone : inPlace lt x (y :: l) = none := by
          refine inPlace_none h hxe fun z hz => ?_
          rcases List.mem_cons.mp hz with rfl | hz
          · exact hey
          · exact h.trans hey (hy z hz)
        rw [hnone, joined]
      · rfl
    · split
      · rename_i hye
        rw [inPlace_cons, inPlace_cons, ih hl]
        cases hxy : equivalent lt x y with
        | true =>
          rw [not_equivalent h hxy (.inl hye)]
          rfl
        | false => rfl
      · rename_i hey hye
        have hplace : equivalent lt y e = true :=
          equivalent_iff.mpr ⟨by simpa using hye, by simpa using hey⟩
        have hmerge : equivalent lt x (merge y e) = equivalent lt x y := by
          rw [equivalent, equivalent, hm.left, hm.right]
        rw [inPlace_cons, inPlace_cons, hmerge]
        cases hxy : equivalent lt x y with
        | true =>
          rw [equivalent_trans h hxy hplace]
          rfl
        | false =>
          have hxe : equivalent lt x e = false := by
            by_contra hne
            have hxe : equivalent lt x e = true := by simpa using hne
            rw [equivalent_trans h hxe (equivalent_symm hplace)] at hxy
            cases hxy
          rw [hxe]
          rfl

end InPlace

namespace Ordered
variable {lt : α → α → Bool} {merge : α → α → α} (h : StrictWeak lt) (hm : Merges lt merge)

/- A container is determined by what stands in each place. -/
include h in
theorem ext_inPlace {s t : Ordered lt} (hst : ∀ x, inPlace lt x s.1 = inPlace lt x t.1) : s = t := by
  have hsub : ∀ {s t : Ordered lt}, (∀ x, inPlace lt x s.1 = inPlace lt x t.1) →
      ∀ x ∈ s.1, x ∈ t.1 := by
    intro s t hst x hx
    have hplace := inPlace_self h s.2 hx
    rw [hst x] at hplace
    exact List.mem_of_find?_eq_some hplace
  have : Std.Irrefl fun x y => lt x y = true :=
    ⟨fun x hx => by rw [(equivalent_iff.mp (equivalent_self h)).1] at hx; cases hx⟩
  have : Std.Antisymm fun x y => lt x y = true :=
    ⟨fun x y hxy hyx => by rw [h.asymm hxy] at hyx; cases hyx⟩
  exact Subtype.ext (List.Pairwise.eq_of_mem_iff s.2 t.2 fun x =>
    ⟨hsub hst x, hsub (fun x => (hst x).symm) x⟩)

/- The elements of `t`, placed in `s` one after the other. -/
def union (s t : Ordered lt) : Ordered lt := t.1.foldl (insert h hm) s

/- One element taken in, seen from the place of `x`. -/
def arrive (lt : α → α → Bool) (merge : α → α → α) (x : α) (r : Option α) (e : α) : Option α :=
  if equivalent lt x e then some (joined merge r e) else r

theorem inPlace_foldl (s : Ordered lt) (es : List α) (x : α) :
    inPlace lt x (es.foldl (insert h hm) s).1 = es.foldl (arrive lt merge x) (inPlace lt x s.1) := by
  induction es generalizing s with
  | nil => rfl
  | cons e es ih =>
    rw [List.foldl_cons, List.foldl_cons, ih (insert h hm s e)]
    exact congrArg (es.foldl (arrive lt merge x)) (inPlace_insertInto h hm s.2 x e)

include h in
/- Of a sorted row at most one element arrives in a place. -/
theorem foldl_arrive_sorted {l : List α} (hl : Sorted lt l) (x : α) (r : Option α) :
    l.foldl (arrive lt merge x) r = ((inPlace lt x l).map (joined merge r)).or r := by
  induction l generalizing r with
  | nil => rfl
  | cons y l ih =>
    obtain ⟨hy, hl⟩ := List.pairwise_cons.mp hl
    rw [List.foldl_cons, ih hl, arrive, inPlace_cons]
    cases hxy : equivalent lt x y with
    | true =>
      rw [inPlace_none h hxy hy]
      rfl
    | false => rfl

theorem inPlace_union (s t : Ordered lt) (x : α) :
    inPlace lt x (union h hm s t).1 =
      ((inPlace lt x t.1).map (joined merge (inPlace lt x s.1))).or (inPlace lt x s.1) := by
  rw [union, inPlace_foldl, foldl_arrive_sorted h t.2]

/- A row that arrives where `y` stands is taken in as what it makes by itself. -/
theorem foldl_arrive_some (hassoc : ∀ x y z, merge (merge x y) z = merge x (merge y z)) (x y : α)
    (es : List α) : es.foldl (arrive lt merge x) (some y) =
      ((es.foldl (arrive lt merge x) none).map (merge y)).or (some y) := by
  induction es using List.reverseRecOn with
  | nil => rfl
  | append_singleton es e ih =>
    rw [List.foldl_append, List.foldl_append, ih]
    simp only [List.foldl_cons, List.foldl_nil, arrive]
    cases equivalent lt x e with
    | true =>
      cases es.foldl (arrive lt merge x) none with
      | none => rfl
      | some z => simp [joined, hassoc]
    | false => rfl

/-- Elements placed in `s` in any order are the union with what they make of an
empty container. -/
theorem foldl_insert_union (hassoc : ∀ x y z, merge (merge x y) z = merge x (merge y z))
    (s : Ordered lt) (es : List α) :
    es.foldl (insert h hm) s = union h hm s (es.foldl (insert h hm) empty) := by
  refine ext_inPlace h fun x => ?_
  rw [inPlace_union, inPlace_foldl, inPlace_foldl]
  have hempty : inPlace lt x (empty : Ordered lt).1 = none := rfl
  rw [hempty]
  cases inPlace lt x s.1 with
  | none =>
    cases es.foldl (arrive lt merge x) none with
    | none => rfl
    | some z => rfl
  | some y => exact foldl_arrive_some hassoc x y es

/-- The union with the same container again changes nothing, if taking in twice is
taking in once. -/
theorem union_union (hidem : ∀ x y, merge (merge x y) y = merge x y) (hself : ∀ x, merge x x = x)
    (s t : Ordered lt) : union h hm (union h hm s t) t = union h hm s t := by
  refine ext_inPlace h fun x => ?_
  rw [inPlace_union, inPlace_union]
  cases inPlace lt x t.1 with
  | none => cases inPlace lt x s.1 <;> rfl
  | some z =>
    cases inPlace lt x s.1 with
    | none => simp [joined, hself]
    | some y => simp [joined, hidem]

end Ordered

end TypegoSdk.Lib
