import Mathlib.Data.List.Basic
import Mathlib.Order.Lattice

/-!
# Ordered containers

Strict weak orders, the orders that they induce on pairs and on sequences, and
containers that keep their elements in order: a sorted list, into which an
element is placed unless an equivalent one is there to take it in.
-/

namespace TypegoSdk.Lib
variable {α β : Type*}

/-! ### Strict weak orders -/

structure StrictWeak (lt : α → α → Bool) : Prop where
  asymm : ∀ {x y}, lt x y = true → lt y x = false
  cotrans : ∀ {x z} (y), lt x z = true → lt x y = true ∨ lt y z = true

theorem StrictWeak.trans {lt : α → α → Bool} (h : StrictWeak lt) {x y z : α} (hxy : lt x y = true)
    (hyz : lt y z = true) : lt x z = true := by
  rcases h.cotrans z hxy with hxz | hzy
  · exact hxz
  · rw [h.asymm hyz] at hzy
    cases hzy

theorem StrictWeak.not_trans {lt : α → α → Bool} (h : StrictWeak lt) {x y z : α}
    (hxy : lt x y = false) (hyz : lt y z = false) : lt x z = false := by
  by_contra hxz
  rcases h.cotrans y (Bool.not_eq_false _ ▸ hxz) with hlt | hlt
  · rw [hxy] at hlt
    cases hlt
  · rw [hyz] at hlt
    cases hlt

theorem strictWeak_of_linear [LinearOrder α] : StrictWeak fun x y : α => decide (x < y) where
  asymm h := decide_eq_false (lt_asymm (of_decide_eq_true h))
  cotrans y h := by
    rename_i x z
    rcases lt_or_ge x y with hy | hy
    · exact .inl (decide_eq_true hy)
    · exact .inr (decide_eq_true (lt_of_le_of_lt hy (of_decide_eq_true h)))

/- The first coordinate decides, and `rest` where it does not. -/
def orElse (lt : α → α → Bool) (x y : α) (rest : Bool) : Bool := lt x y || (!lt y x && rest)

section OrElse
variable {lt : α → α → Bool} {x y z : α} {p q r : Bool}

theorem orElse_asymm (h : StrictWeak lt) (hpq : p = true → q = false)
    (hxy : orElse lt x y p = true) : orElse lt y x q = false := by
  unfold orElse at hxy ⊢
  cases hlt : lt x y with
  | true => simp [h.asymm hlt]
  | false =>
    simp only [hlt, Bool.false_or, Bool.and_eq_true, Bool.not_eq_true'] at hxy
    simp [hxy.1, hpq hxy.2]

theorem orElse_cotrans (h : StrictWeak lt) (hpqr : p = true → q = true ∨ r = true)
    (hxz : orElse lt x z p = true) : orElse lt x y q = true ∨ orElse lt y z r = true := by
  unfold orElse at hxz ⊢
  cases hxy : lt x y with
  | true => simp
  | false =>
    cases hyz : lt y z with
    | true => simp
    | false =>
      simp only [h.not_trans hxy hyz, Bool.false_or, Bool.and_eq_true, Bool.not_eq_true'] at hxz
      -- What lies between two equivalent elements is equivalent to both.
      have hyx : lt y x = false := h.not_trans hyz hxz.1
      have hzy : lt z y = false := h.not_trans hxz.1 hxy
      simpa [hyx, hzy] using hpqr hxz.2

end OrElse

def pairLt (lt : α → α → Bool) (lt' : β → β → Bool) (a b : α × β) : Bool :=
  orElse lt a.1 b.1 (lt' a.2 b.2)

theorem StrictWeak.pair {lt : α → α → Bool} {lt' : β → β → Bool} (h : StrictWeak lt)
    (h' : StrictWeak lt') : StrictWeak (pairLt lt lt') where
  asymm := orElse_asymm h h'.asymm
  cotrans y := orElse_cotrans h (h'.cotrans y.2)

/- Lexicographical comparison of sequences. -/
def lexLt (lt : α → α → Bool) : List α → List α → Bool
  | _, [] => false
  | [], _ :: _ => true
  | x :: xs, y :: ys => orElse lt x y (lexLt lt xs ys)

theorem StrictWeak.lex {lt : α → α → Bool} (h : StrictWeak lt) : StrictWeak (lexLt lt) where
  asymm := by
    intro xs ys
    induction xs generalizing ys with
    | nil => cases ys <;> simp [lexLt]
    | cons x xs ih =>
      cases ys with
      | nil => simp [lexLt]
      | cons y ys => exact orElse_asymm h ih
  cotrans := by
    intro xs zs ys
    induction xs generalizing ys zs with
    | nil =>
      cases zs with
      | nil => simp [lexLt]
      | cons z zs => cases ys <;> simp [lexLt]
    | cons x xs ih =>
      cases zs with
      | nil => simp [lexLt]
      | cons z zs =>
        cases ys with
        | nil => simp [lexLt]
        | cons y ys => exact orElse_cotrans h (ih ys)

/- An order on what is read off the elements. -/
theorem StrictWeak.comap {lt : α → α → Bool} (h : StrictWeak lt) (f : β → α) :
    StrictWeak fun x y => lt (f x) (f y) where
  asymm := h.asymm
  cotrans y := h.cotrans (f y)

/-! ### Sorted lists -/

def Sorted (lt : α → α → Bool) (l : List α) : Prop := l.Pairwise fun x y => lt x y = true

/-- How an element takes in an equivalent one, without leaving its place. -/
structure Merges (lt : α → α → Bool) (merge : α → α → α) : Prop where
  left : ∀ x e y, lt (merge x e) y = lt x y
  right : ∀ x e y, lt y (merge x e) = lt y x

def insertInto (lt : α → α → Bool) (merge : α → α → α) (e : α) : List α → List α
  | [] => [e]
  | x :: xs =>
    if lt e x then e :: x :: xs
    else if lt x e then x :: insertInto lt merge e xs
    else merge x e :: xs

section Place
variable {lt : α → α → Bool} {merge : α → α → α} {e : α} {l : List α}

theorem insertInto_above (hm : Merges lt merge) {x : α} (he : lt x e = true)
    (hl : ∀ y ∈ l, lt x y = true) : ∀ y ∈ insertInto lt merge e l, lt x y = true := by
  induction l with
  | nil =>
    intro y hy
    rw [List.mem_singleton.1 hy]
    exact he
  | cons z zs ih =>
    have hz := hl z (List.mem_cons_self ..)
    have hzs : ∀ y ∈ zs, lt x y = true := fun y hy => hl y (List.mem_cons_of_mem _ hy)
    intro y hy
    unfold insertInto at hy
    split at hy
    · rcases List.mem_cons.1 hy with rfl | hy
      · exact he
      · exact hl y hy
    · split at hy
      · rcases List.mem_cons.1 hy with rfl | hy
        · exact hz
        · exact ih hzs y hy
      · rcases List.mem_cons.1 hy with rfl | hy
        · rw [hm.right]
          exact hz
        · exact hzs y hy

theorem insertInto_sorted (h : StrictWeak lt) (hm : Merges lt merge) (e : α) (hl : Sorted lt l) :
    Sorted lt (insertInto lt merge e l) := by
  induction l with
  | nil => exact List.pairwise_singleton ..
  | cons x xs ih =>
    obtain ⟨hx, hxs⟩ := List.pairwise_cons.1 hl
    unfold insertInto
    split
    · rename_i hex
      refine List.pairwise_cons.2 ⟨fun y hy => ?_, hl⟩
      rcases List.mem_cons.1 hy with rfl | hy
      · exact hex
      · exact h.trans hex (hx y hy)
    · split
      · rename_i hxe
        exact List.pairwise_cons.2 ⟨insertInto_above hm hxe hx, ih hxs⟩
      · refine List.pairwise_cons.2 ⟨fun y hy => ?_, hxs⟩
        rw [hm.left]
        exact hx y hy

/- An element above all others comes last. -/
theorem insertInto_last (h : StrictWeak lt) (hl : ∀ x ∈ l, lt x e = true) :
    insertInto lt merge e l = l ++ [e] := by
  induction l with
  | nil => rfl
  | cons x xs ih =>
    have hx := hl x (List.mem_cons_self ..)
    simp [insertInto, h.asymm hx, hx, ih fun y hy => hl y (List.mem_cons_of_mem _ hy)]

/- Elements placed in their order are appended. -/
theorem foldl_insertInto (h : StrictWeak lt) (es : List α) (hl : Sorted lt (l ++ es)) :
    es.foldl (fun l e => insertInto lt merge e l) l = l ++ es := by
  induction es generalizing l with
  | nil => simp
  | cons e es ih =>
    obtain ⟨_, _, habove⟩ := List.pairwise_append.1 hl
    have hlast : insertInto lt merge e l = l ++ [e] :=
      insertInto_last h fun x hx => habove x hx e (List.mem_cons_self ..)
    rw [List.append_cons] at hl ⊢
    rw [List.foldl_cons, hlast, ih hl]

end Place

/-! ### Containers -/

def Ordered (lt : α → α → Bool) := {l : List α // Sorted lt l}

namespace Ordered
variable {lt : α → α → Bool} {merge : α → α → α}

def empty : Ordered lt := ⟨[], List.Pairwise.nil⟩

def insert (h : StrictWeak lt) (hm : Merges lt merge) (s : Ordered lt) (e : α) : Ordered lt :=
  ⟨insertInto lt merge e s.1, insertInto_sorted h hm e s.2⟩

theorem foldl_insert_val (h : StrictWeak lt) (hm : Merges lt merge) (s : Ordered lt) (es : List α) :
    (es.foldl (insert h hm) s).1 = es.foldl (fun l e => insertInto lt merge e l) s.1 := by
  induction es generalizing s with
  | nil => rfl
  | cons e es ih => exact ih (insert h hm s e)

/- A container is made again from its elements. -/
theorem foldl_insert (h : StrictWeak lt) (hm : Merges lt merge) (s : Ordered lt) :
    s.1.foldl (insert h hm) empty = s := by
  refine Subtype.ext ?_
  rw [foldl_insert_val]
  exact foldl_insertInto h s.1 s.2

end Ordered

end TypegoSdk.Lib
