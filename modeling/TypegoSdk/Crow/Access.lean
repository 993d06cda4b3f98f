import TypegoSdk.Crow.Cells
import Mathlib.Data.List.Sort

/-!
# Reading a document (include/crow/json.h)

The accessors of `rvalue` are const and write all the same: the first `s()` of a
string undoes its escapes in the buffer and moves the end of the string, and the
first `operator[]` with a key sorts the members of the object. A value is reached
from the root by the positions of its elements, which a later sort may change.
-/

namespace TypegoSdk.Crow
open TypegoSdk.Lib

/-! ### The accessors -/

/-- `std::runtime_error` with its text. The loop of `unescape` may not end. -/
inductive Thrown where
  | runtimeError (what : Bytes)
  | fuel
  deriving DecidableEq

/-- What the library and the compiler decide: the order of plain `char`, and what
`std::sort` makes of elements that are equivalent. -/
structure Platform where
  charLt : UInt8 → UInt8 → Bool
  strict : StrictWeak charLt
  total : ∀ a b, charLt a b = false → charLt b a = false → a = b
  sort : (RValue → RValue → Bool) → List RValue → List RValue
  sort_perm : ∀ lt l, (sort lt l).Perm l
  sort_inOrder : ∀ lt l, StrictWeak lt → (sort lt l).Pairwise fun x y => lt y x = false

namespace Platform
variable (P : Platform)

/- `operator<` of two strings. -/
def textLt : Bytes → Bytes → Bool := lexLt P.charLt

theorem textLt_strict : StrictWeak P.textLt := P.strict.lex

theorem textLt_total : ∀ a b, P.textLt a b = false → P.textLt b a = false → a = b :=
  lexLt_total P.total

/- `Pred` of `operator[]`. -/
def keyLt (buf : Bytes) (v w : RValue) : Bool := P.textLt (v.keyText buf) (w.keyText buf)

end Platform

namespace RValue

/- `begin()` and `end()` are for a list or an object. -/
def children (v : RValue) : List RValue := if v.t = .list ∨ v.t = .object then v.l else []

def get? : List ℕ → RValue → Option RValue
  | [], v => some v
  | i :: path, v => v.children[i]?.bind (get? path)

def modify (f : RValue → RValue) : List ℕ → RValue → RValue
  | [], v => f v
  | i :: path, v => { v with l := v.l.modify i (modify f path) }

/- The elements sorted by their keys, unless they have been. -/
def arrange (P : Platform) (buf : Bytes) (v : RValue) : RValue :=
  if v.cached then v else { v with l := P.sort (P.keyLt buf) v.l, cached := .true }

end RValue

namespace Document

/-- `s()` of the value at `path`. -/
def s (d : Document) (path : List ℕ) (v : RValue) : Except Thrown Bytes × Document :=
  if v.t ≠ .string then (.error (.runtimeError (bytes "value is not string")), d)
  else
    match unescape d.buf v.start v.stop with
    | none => (.error .fuel, d)
    | some (buf, stop) =>
      (.ok (substr buf v.start stop), ⟨d.root.modify (fun v => { v with stop := stop }) path, buf⟩)

/-- `operator[](str)` of the value at `path`: the place of the member it refers to. -/
def find (P : Platform) (d : Document) (path : List ℕ) (v : RValue) (str : Bytes) :
    Except Thrown (List ℕ) × Document :=
  if v.t ≠ .object then (.error (.runtimeError (bytes "value is not an object")), d)
  else
    let w := v.arrange P d.buf
    let d := { d with root := d.root.modify (RValue.arrange P d.buf) path }
    let i := lowerBound (fun x => P.textLt (x.keyText d.buf) str) w.l
    match w.l[i]? with
    | none => (.error (.runtimeError (bytes "cannot find key: " ++ str)), d)
    | some x =>
      if x.keyText d.buf = str then (.ok (path ++ [i]), d)
      else (.error (.runtimeError (bytes "cannot find key: " ++ str)), d)

end Document

/-- A call of one of the two accessors that write. -/
inductive Access where
  | s (path : List ℕ)
  | find (path : List ℕ) (str : Bytes)

/- A path that leads nowhere is no call. -/
def Document.access (P : Platform) (d : Document) : Access → Document
  | .s path =>
    match d.root.get? path with
    | none => d
    | some v => (d.s path v).2
  | .find path str =>
    match d.root.get? path with
    | none => d
    | some v => (d.find P path v str).2

def Document.after (P : Platform) (d : Document) (calls : List Access) : Document :=
  calls.foldl (Document.access P) d

/-! ### The same value -/

/-- Two values that differ in the order of the members of their objects. -/
inductive Same : Json → Json → Prop where
  | refl (v : Json) : Same v v
  | trans {u v w : Json} (h : Same u v) (h' : Same v w) : Same u w
  | perm {m m' : List (Bytes × Json)} (h : m.Perm m') : Same (.object m) (.object m')
  | item {v v' : Json} (xs ys : List Json) (h : Same v v') :
      Same (.list (xs ++ v :: ys)) (.list (xs ++ v' :: ys))
  | member {v v' : Json} (k : Bytes) (xs ys : List (Bytes × Json)) (h : Same v v') :
      Same (.object (xs ++ (k, v) :: ys)) (.object (xs ++ (k, v') :: ys))

/-- A relation that carries over to a list or an object from one element of it. -/
structure Contextual (R : Json → Json → Prop) : Prop where
  item : ∀ {v v' : Json} (xs ys : List Json), R v v' →
    R (.list (xs ++ v :: ys)) (.list (xs ++ v' :: ys))
  member : ∀ {v v' : Json} (k : Bytes) (xs ys : List (Bytes × Json)), R v v' →
    R (.object (xs ++ (k, v) :: ys)) (.object (xs ++ (k, v') :: ys))

theorem Same.contextual : Contextual Same := ⟨fun xs ys h => .item xs ys h, fun k xs ys h => .member k xs ys h⟩

theorem contextual_eq : Contextual Eq := ⟨fun _ _ h => h ▸ rfl, fun _ _ _ h => h ▸ rfl⟩

/-! ### Sorted members -/

/-- Objects whose members are said to be sorted have them sorted. -/
inductive Arranged (P : Platform) (buf : Bytes) : RValue → Prop where
  | mk {v : RValue} (h : v.t = .object → v.cached = .true → InOrder P.textLt (RValue.keyText buf) v.l)
      (hl : ∀ c ∈ v.children, Arranged P buf c) : Arranged P buf v

section
variable {P : Platform} {buf : Bytes} {v : RValue}

theorem Arranged.inOrder (h : Arranged P buf v) (ht : v.t = .object) (hc : v.cached = .true) :
    InOrder P.textLt (RValue.keyText buf) v.l := by
  cases h with
  | mk h _ => exact h ht hc

theorem Arranged.children (h : Arranged P buf v) : ∀ c ∈ v.children, Arranged P buf c := by
  cases h with
  | mk _ hl => exact hl

end

open RValue in
theorem Arranged.get? {P : Platform} {buf : Bytes} {path : List ℕ} {v node : RValue}
    (h : Arranged P buf v) (hget : v.get? path = some node) : Arranged P buf node := by
  induction path generalizing v with
  | nil =>
    cases hget
    exact h
  | cons i path ih =>
    rw [RValue.get?, Option.bind_eq_some_iff] at hget
    obtain ⟨c, hc, hget⟩ := hget
    exact ih (h.children c (List.mem_of_getElem? hc)) hget

/-- What holds of a document between two calls. -/
structure Document.Inv (P : Platform) (d : Document) : Prop where
  good : ∀ c ∈ d.root.cells, c.Good d.buf
  apart : d.root.cells.Pairwise Cell.Apart
  arranged : Arranged P d.buf d.root

namespace RValue

theorem children_list {v : RValue} (h : v.t = .list) : v.children = v.l := by simp [children, h]
theorem children_object {v : RValue} (h : v.t = .object) : v.children = v.l := by simp [children, h]

theorem cells_list {v : RValue} (h : v.t = .list) : v.cells = cellsItems v.l := by
  obtain ⟨t, start, stop, k, l, cached⟩ := v
  subst h
  rfl

theorem cells_object {v : RValue} (h : v.t = .object) : v.cells = cellsMembers v.l := by
  obtain ⟨t, start, stop, k, l, cached⟩ := v
  subst h
  rfl

theorem cells_string {v : RValue} (h : v.t = .string) : v.cells = [.string v.start v.stop] := by
  obtain ⟨t, start, stop, k, l, cached⟩ := v
  subst h
  rfl

theorem denote_string {v : RValue} (h : v.t = .string) (buf : Bytes) :
    v.denote buf = .string (stringAt buf v.start v.stop) := by
  obtain ⟨t, start, stop, k, l, cached⟩ := v
  subst h
  rfl

theorem denote_list {v : RValue} (h : v.t = .list) (buf : Bytes) :
    v.denote buf = .list (v.l.map (denote buf)) := by
  obtain ⟨t, start, stop, k, l, cached⟩ := v
  subst h
  rw [denote, denoteItems_eq]

theorem denote_object {v : RValue} (h : v.t = .object) (buf : Bytes) :
    v.denote buf = .object (v.l.map fun c => (c.keyText buf, c.denote buf)) := by
  obtain ⟨t, start, stop, k, l, cached⟩ := v
  subst h
  rw [denote, denoteMembers_eq]

theorem mem_cellsItems {c : RValue} {l : List RValue} (hc : c ∈ l) :
    ∀ x ∈ c.cells, x ∈ cellsItems l := by
  intro x hx
  obtain ⟨xs, ys, rfl⟩ := List.append_of_mem hc
  rw [cellsItems_append, cellsItems]
  simp [hx]

theorem mem_cellsMembers {c : RValue} {l : List RValue} (hc : c ∈ l) :
    .text c.key.s c.key.e ∈ cellsMembers l ∧ ∀ x ∈ c.cells, x ∈ cellsMembers l := by
  obtain ⟨xs, ys, rfl⟩ := List.append_of_mem hc
  rw [cellsMembers_append, cellsMembers]
  refine ⟨by simp, fun x hx => by simp [hx]⟩

theorem mem_cells_of_child {v c : RValue} (hc : c ∈ v.children) : ∀ x ∈ c.cells, x ∈ v.cells := by
  rw [children] at hc
  split at hc
  · next ht =>
    rcases ht with ht | ht
    · rw [cells_list ht]
      exact mem_cellsItems hc
    · rw [cells_object ht]
      exact (mem_cellsMembers hc).2
  · simp at hc

end RValue

open RValue in
theorem Arranged.congr {P : Platform} {a b : Bytes} {v : RValue} (h : Arranged P a v)
    (hlen : a.length = b.length) (hagree : ∀ c ∈ v.cells, c.Agree a b) : Arranged P b v := by
  induction h with
  | @mk v h hl ih =>
    refine .mk ?_ ?_
    · intro ht hc
      refine (h ht hc).imp_of_mem ?_
      intro x y hx hy hxy
      rw [cells_object ht] at hagree
      have hkey : ∀ z ∈ v.l, z.keyText a = z.keyText b := fun z hz =>
        substr_congr hlen (hagree (.text z.key.s z.key.e) (mem_cellsMembers hz).1)
      rwa [hkey x hx, hkey y hy] at hxy
    · intro c hc
      exact ih c hc fun x hx => hagree x (mem_cells_of_child hc x hx)

/-! ### A change at one place -/

/-- `v` becomes `v'` when the value `node` in it becomes `node'`; `L` and `R` are the
cells around it. What the two say, over two buffers that agree around it, is related
as it is for the node, and the members stay sorted. -/
structure Kept (P : Platform) (v v' node node' : RValue) (L R : List Cell) : Prop where
  key : v'.key = v.key
  cells : v'.cells = L ++ (node'.cells ++ R)
  denote : ∀ {S}, Contextual S → ∀ a b, a.length = b.length →
    (∀ c ∈ L ++ R, c.Good a ∧ c.Agree a b) →
    S (node.denote a) (node'.denote b) → S (v.denote a) (v'.denote b)
  arranged : ∀ a b, a.length = b.length → (∀ c ∈ L ++ R, c.Agree a b) →
    Arranged P a v → Arranged P b node' → Arranged P b v'

namespace RValue
variable {P : Platform} {v c c' node node' : RValue} {xs ys : List RValue} {L R : List Cell}

theorem Kept.inList (ht : v.t = .list) (hl : v.l = xs ++ c :: ys) (h : Kept P c c' node node' L R) :
    Kept P v { v with l := xs ++ c' :: ys } node node' (cellsItems xs ++ L) (R ++ cellsItems ys) where
  key := rfl
  cells := by
    rw [cells_list (v := { v with l := xs ++ c' :: ys }) ht, cellsItems_append, cellsItems, h.cells]
    simp
  denote hS a b hlen hagree hsame := by
    simp only [List.forall_mem_append] at hagree
    obtain ⟨⟨hxs, hL⟩, hR, hys⟩ := hagree
    have hsub := h.denote hS a b hlen (by rw [List.forall_mem_append]; exact ⟨hL, hR⟩) hsame
    have hmapx := denoteItems_congr xs hlen hxs
    have hmapy := denoteItems_congr ys hlen hys
    simp only [denoteItems_eq] at hmapx hmapy
    rw [denote_list ht, denote_list (v := { v with l := xs ++ c' :: ys }) ht, hl]
    simp only [List.map_append, List.map_cons, hmapx, hmapy]
    exact hS.item _ _ hsub
  arranged a b hlen hagree harr hnode := by
    simp only [List.forall_mem_append] at hagree
    obtain ⟨⟨hxs, hL⟩, hR, hys⟩ := hagree
    have hold := harr.children
    rw [children_list ht, hl] at hold
    simp only [List.forall_mem_append, List.forall_mem_cons] at hold
    refine .mk (fun hobj => absurd (ht.symm.trans hobj) (by simp)) ?_
    rw [children_list (v := { v with l := xs ++ c' :: ys }) ht]
    simp only [List.forall_mem_append, List.forall_mem_cons]
    refine ⟨fun x hx => ?_, ?_, fun y hy => ?_⟩
    · exact (hold.1 x hx).congr hlen fun z hz => hxs z (mem_cellsItems hx z hz)
    · exact h.arranged a b hlen (by rw [List.forall_mem_append]; exact ⟨hL, hR⟩) hold.2.1 hnode
    · exact (hold.2.2 y hy).congr hlen fun z hz => hys z (mem_cellsItems hy z hz)

/- The key of the member is one of the cells around the node. -/
theorem Kept.inObject (ht : v.t = .object) (hl : v.l = xs ++ c :: ys)
    (h : Kept P c c' node node' L R) :
    Kept P v { v with l := xs ++ c' :: ys } node node'
      (cellsMembers xs ++ .text c.key.s c.key.e :: L) (R ++ cellsMembers ys) where
  key := rfl
  cells := by
    rw [cells_object (v := { v with l := xs ++ c' :: ys }) ht, cellsMembers_append, cellsMembers,
      h.cells, h.key]
    simp
  denote hS a b hlen hagree hsame := by
    simp only [List.forall_mem_append, List.forall_mem_cons] at hagree
    obtain ⟨⟨hxs, hkey, hL⟩, hR, hys⟩ := hagree
    have hsub := h.denote hS a b hlen (by rw [List.forall_mem_append]; exact ⟨hL, hR⟩) hsame
    have hmapx := denoteMembers_congr xs hlen hxs
    have hmapy := denoteMembers_congr ys hlen hys
    have hk : c'.keyText b = c.keyText a := by
      rw [keyText, keyText, h.key]
      exact (substr_congr hlen hkey.2).symm
    simp only [denoteMembers_eq] at hmapx hmapy
    rw [denote_object ht, denote_object (v := { v with l := xs ++ c' :: ys }) ht, hl]
    simp only [List.map_append, List.map_cons, hmapx, hmapy, hk]
    exact hS.member _ _ _ hsub
  arranged a b hlen hagree harr hnode := by
    simp only [List.forall_mem_append, List.forall_mem_cons] at hagree
    obtain ⟨⟨hxs, hkey, hL⟩, hR, hys⟩ := hagree
    have hold := harr.children
    rw [children_object ht, hl] at hold
    simp only [List.forall_mem_append, List.forall_mem_cons] at hold
    refine .mk (fun _ hc => ?_) ?_
    · -- the keys are the same, one by one
      have hk : c.keyText a = c'.keyText b := by
        rw [keyText, keyText, h.key]
        exact substr_congr hlen hkey
      have hmapx : xs.map (keyText a) = xs.map (keyText b) :=
        List.map_congr_left fun x hx => substr_congr hlen (hxs _ (mem_cellsMembers hx).1)
      have hmapy : ys.map (keyText a) = ys.map (keyText b) :=
        List.map_congr_left fun y hy => substr_congr hlen (hys _ (mem_cellsMembers hy).1)
      have hin := harr.inOrder ht hc
      rw [hl, InOrder, ← List.pairwise_map (R := fun x y => P.textLt y x = false)] at hin
      rw [InOrder, ← List.pairwise_map (R := fun x y => P.textLt y x = false)]
      simpa only [List.map_append, List.map_cons, hmapx, hmapy, hk] using hin
    · rw [children_object (v := { v with l := xs ++ c' :: ys }) ht]
      simp only [List.forall_mem_append, List.forall_mem_cons]
      refine ⟨fun x hx => ?_, ?_, fun y hy => ?_⟩
      · exact (hold.1 x hx).congr hlen fun z hz => hxs z ((mem_cellsMembers hx).2 z hz)
      · exact h.arranged a b hlen (by rw [List.forall_mem_append]; exact ⟨hL, hR⟩) hold.2.1 hnode
      · exact (hold.2.2 y hy).congr hlen fun z hz => hys z ((mem_cellsMembers hy).2 z hz)

/-- The cells of the value at a path, the cells around it, and what a change of the
value does to the whole. -/
theorem focus (P : Platform) {path : List ℕ} {v node : RValue} (h : v.get? path = some node) :
    ∃ L R, v.cells = L ++ (node.cells ++ R) ∧
      ∀ f : RValue → RValue, (f node).key = node.key →
        Kept P v (v.modify f path) node (f node) L R := by
  induction path generalizing v with
  | nil =>
    cases h
    refine ⟨[], [], by simp, fun f hf => ⟨hf, by simp [modify], ?_, ?_⟩⟩
    · exact fun _ a b _ _ hsame => hsame
    · exact fun a b _ _ _ hnode => hnode
  | cons i path ih =>
    rw [get?, Option.bind_eq_some_iff] at h
    obtain ⟨c, hc, hget⟩ := h
    obtain ⟨L, R, hcells, hkept⟩ := ih hget
    have hcontainer : v.t = .list ∨ v.t = .object := by
      by_contra hno
      rw [children, if_neg hno] at hc
      simp at hc
    rw [children, if_pos hcontainer] at hc
    obtain ⟨hi, hci⟩ := List.getElem?_eq_some_iff.mp hc
    have hl : v.l = v.l.take i ++ c :: v.l.drop (i + 1) := by
      rw [← hci, ← List.drop_eq_getElem_cons hi, List.take_append_drop]
    have hmodify : ∀ f, v.modify f (i :: path) =
        { v with l := v.l.take i ++ c.modify f path :: v.l.drop (i + 1) } := by
      intro f
      rw [modify, List.modify_eq_take_cons_drop hi, hci]
    rcases hcontainer with ht | ht
    · refine ⟨cellsItems (v.l.take i) ++ L, R ++ cellsItems (v.l.drop (i + 1)), ?_, fun f hf => ?_⟩
      · rw [cells_list ht]
        conv_lhs => rw [hl]
        rw [cellsItems_append, cellsItems, hcells]
        simp only [List.append_assoc]
      · rw [hmodify]
        exact Kept.inList ht hl (hkept f hf)
    · refine ⟨cellsMembers (v.l.take i) ++ .text c.key.s c.key.e :: L,
        R ++ cellsMembers (v.l.drop (i + 1)), ?_, fun f hf => ?_⟩
      · rw [cells_object ht]
        conv_lhs => rw [hl]
        rw [cellsMembers_append, cellsMembers, hcells]
        simp only [List.append_assoc, List.cons_append]
      · rw [hmodify]
        exact Kept.inObject ht hl (hkept f hf)

end RValue

/-! ### One call -/

theorem split_string {buf : Bytes} {start stop : ℕ} (h1 : 1 ≤ start) (h2 : start ≤ stop)
    (h3 : stop ≤ buf.length) :
    buf = buf.take (start - 1) ++ peek buf (start - 1) :: (substr buf start stop ++ buf.drop stop) := by
  have hlt : start - 1 < buf.length := by omega
  have hsucc : start - 1 + 1 = start := by omega
  have hdrop : substr buf start stop ++ buf.drop stop = buf.drop start := by
    have hstop : buf.drop stop = (buf.drop start).drop (stop - start) := by
      rw [List.drop_drop, Nat.add_sub_cancel' h2]
    rw [substr, hstop, List.take_append_drop]
  rw [hdrop, peek, List.getD_eq_getElem _ _ hlt]
  conv_lhs => rw [← List.take_append_drop (start - 1) buf, List.drop_eq_getElem_cons hlt, hsucc]

/- `unescape` writes into the cell of the string, and leaves in it what the string
said. -/
theorem unescape_good {buf : Bytes} {start stop : ℕ} (hg : (Cell.string start stop).Good buf) :
    ∃ buf' stop', unescape buf start stop = some (buf', stop') ∧ buf'.length = buf.length ∧
      (∀ k, k < start - 1 ∨ stop ≤ k → peek buf' k = peek buf k) ∧
      (Cell.string start stop').Good buf' ∧ stop' ≤ stop ∧ peek buf' (start - 1) = 0 ∧
      substr buf' start stop' = stringAt buf start stop := by
  obtain ⟨h1, h2, h3, hzero | ⟨hone, l, hl, hesc⟩⟩ := hg
  · refine ⟨buf, stop, ?_, rfl, fun _ _ => rfl, ⟨h1, h2, h3, .inl hzero⟩, le_rfl, hzero, ?_⟩
    · rw [unescape, if_neg (by simpa using hzero)]
    · rw [stringAt, if_neg (by simpa using hzero)]
  · obtain ⟨pre, post, rfl, rfl, rfl⟩ : ∃ pre post, buf = pre ++ l.flag :: (l.render ++ post) ∧
        start = pre.length + 1 ∧ stop = pre.length + 1 + l.render.length := by
      have hflag : l.flag = 1 := by simp [Literal.flag, hesc]
      have hsplit := split_string h1 h2 h3
      rw [hone, hl, ← hflag] at hsplit
      refine ⟨buf.take (start - 1), buf.drop stop, hsplit, ?_, ?_⟩
      · rw [List.length_take]
        omega
      · rw [← hl, substr, List.length_take, List.length_take, List.length_drop]
        omega
    have hvalue := l.value_length_le
    have hpeek : peek (pre ++ 0 :: (l.settled ++ post)) (pre.length + 1 - 1) = 0 := by
      rw [Nat.add_sub_cancel, peek_head]
    refine ⟨_, _, unescape_literal l pre post, ?_, ?_, ⟨h1, by omega, ?_, .inl hpeek⟩, by omega,
      hpeek, ?_⟩
    · simp only [List.length_append, List.length_cons, l.settled_length]
    · intro k hk
      rcases hk with hk | hk
      · have hlt : k < pre.length := by omega
        rw [peek_of_lt hlt, peek_of_lt hlt]
      · obtain ⟨j, rfl⟩ : ∃ j, k = (pre ++ 0 :: l.settled).length + j :=
          ⟨k - (pre ++ 0 :: l.settled).length, by
            simp only [List.length_append, List.length_cons, l.settled_length]
            omega⟩
        have hnew := peek_append (pre ++ 0 :: l.settled) post j
        have hold := peek_append (pre ++ l.flag :: l.render) post j
        simp only [List.append_assoc, List.cons_append, List.length_append, List.length_cons,
          l.settled_length] at hnew hold ⊢
        rw [hnew, hold]
    · simp only [List.length_append, List.length_cons, l.settled_length]
      omega
    · rw [Phrase.key_at, stringAt_literal]

namespace Document
variable {P : Platform} {d : Document} {path : List ℕ} {v : RValue}

/- What lies apart from a cell is not touched by a change in the cell. -/
theorem agree_of_apart {a b : Bytes} {c x : Cell} (h : x.Apart c)
    (hout : ∀ k, k < c.lo ∨ c.hi ≤ k → peek b k = peek a k) : x.Agree a b := by
  intro k hlo hhi
  refine (hout k ?_).symm
  rcases h with h | h
  · exact .inl (by omega)
  · exact .inr (by omega)

theorem apart_around {L R : List Cell} {c : Cell} (h : (L ++ ([c] ++ R)).Pairwise Cell.Apart) :
    ∀ x ∈ L ++ R, x.Apart c := by
  rw [List.pairwise_append, List.singleton_append, List.pairwise_cons] at h
  rw [List.forall_mem_append]
  exact ⟨fun x hx => h.2.2 x hx c (by simp), fun x hx => (h.2.1.1 x hx).symm⟩

/- A cell may shrink in its place. -/
theorem pairwise_replace {L R : List Cell} {c c' : Cell} (h : (L ++ ([c] ++ R)).Pairwise Cell.Apart)
    (hc : ∀ x, Cell.Apart x c → Cell.Apart x c') : (L ++ ([c'] ++ R)).Pairwise Cell.Apart := by
  have haround := apart_around h
  rw [List.forall_mem_append] at haround
  rw [List.pairwise_append, List.singleton_append, List.pairwise_cons] at h ⊢
  refine ⟨h.1, ⟨fun x hx => (hc x (haround.2 x hx)).symm, h.2.1.2⟩, fun x hx y hy => ?_⟩
  rcases List.mem_cons.mp hy with rfl | hy
  · exact hc x (haround.1 x hx)
  · exact h.2.2 x hx y (List.mem_cons_of_mem _ hy)

/-- `s()` of a string gives what the string says, and the document stays the same. -/
theorem s_spec (hinv : d.Inv P) (hget : d.root.get? path = some v) (ht : v.t = .string) :
    ∃ text d', d.s path v = (.ok text, d') ∧ v.denote d.buf = .string text ∧ d'.Inv P ∧
      d.denote = d'.denote := by
  obtain ⟨L, R, hcells, hkept⟩ := RValue.focus P hget
  rw [RValue.cells_string ht] at hcells
  have hgood := hinv.good
  have hapart := hinv.apart
  rw [hcells] at hgood hapart
  simp only [List.forall_mem_append, List.forall_mem_cons] at hgood
  obtain ⟨hL, ⟨hcell, -⟩, hR⟩ := hgood
  obtain ⟨buf', stop', hun, hlen, hout, hgood', hle, hpeek, hsubstr⟩ := unescape_good hcell
  have hagree : ∀ c ∈ L ++ R, c.Agree d.buf buf' := fun c hc =>
    agree_of_apart (apart_around hapart c hc) hout
  have hgoodLR : ∀ c ∈ L ++ R, c.Good d.buf := by
    rw [List.forall_mem_append]
    exact ⟨hL, hR⟩
  have hK := hkept (fun v => { v with stop := stop' }) rfl
  have hnode := RValue.cells_string (v := { v with stop := stop' }) ht
  have hstring : stringAt buf' v.start stop' = stringAt d.buf v.start v.stop := by
    rw [← hsubstr, stringAt, if_neg (by simpa using hpeek)]
  refine ⟨stringAt d.buf v.start v.stop, ⟨d.root.modify (fun v => { v with stop := stop' }) path, buf'⟩,
    ?_, RValue.denote_string ht d.buf, ⟨?_, ?_, ?_⟩, ?_⟩
  · rw [s, if_neg (by simpa using ht), hun]
    simp only [hsubstr]
  · rw [hK.cells, hnode]
    simp only [List.forall_mem_append, List.forall_mem_cons]
    have hnew : ∀ c ∈ L ++ R, c.Good buf' := fun c hc =>
      (hgoodLR c hc).congr hlen.symm (hagree c hc)
    rw [List.forall_mem_append] at hnew
    exact ⟨hnew.1, ⟨hgood', by simp⟩, hnew.2⟩
  · rw [hK.cells, hnode]
    refine pairwise_replace hapart fun x hx => ?_
    rcases hx with hx | hx
    · exact .inl hx
    · exact .inr (le_trans hle hx)
  · refine hK.arranged _ _ hlen.symm hagree hinv.arranged (.mk ?_ ?_)
    · intro hobj
      exact absurd (ht.symm.trans hobj) (by simp)
    · simp [RValue.children, ht]
  · refine hK.denote contextual_eq _ _ hlen.symm (fun c hc => ⟨hgoodLR c hc, hagree c hc⟩) ?_
    rw [RValue.denote_string ht, RValue.denote_string (v := { v with stop := stop' }) ht, hstring]

end Document

namespace RValue
variable {P : Platform} {buf : Bytes} {v : RValue}

theorem arrange_spec (h : Arranged P buf v) (ht : v.t = .object) :
    (v.arrange P buf).t = .object ∧ (v.arrange P buf).key = v.key ∧
      (v.arrange P buf).l.Perm v.l ∧ (v.arrange P buf).cached = .true ∧
      Arranged P buf (v.arrange P buf) := by
  rw [arrange]
  split
  · next hc => exact ⟨ht, rfl, .refl _, hc, h⟩
  · have hperm := P.sort_perm (P.keyLt buf) v.l
    have hsorted := P.sort_inOrder (P.keyLt buf) v.l (P.textLt_strict.comap (keyText buf))
    refine ⟨ht, rfl, hperm, rfl, .mk (fun _ _ => hsorted) ?_⟩
    intro c hc
    rw [children_object (by exact ht)] at hc
    exact h.children c (by rw [children_object ht]; exact hperm.mem_iff.mp hc)

theorem cellsMembers_perm {l m : List RValue} (h : l.Perm m) :
    (cellsMembers l).Perm (cellsMembers m) := by
  have hflat : ∀ l, cellsMembers l = l.flatMap fun v => .text v.key.s v.key.e :: v.cells := by
    intro l
    induction l with
    | nil => rfl
    | cons v l ih => rw [cellsMembers, ih, List.flatMap_cons, List.cons_append]
  rw [hflat, hflat]
  exact h.flatMap_right _

theorem get?_append (path : List ℕ) (i : ℕ) (v : RValue) :
    v.get? (path ++ [i]) = (v.get? path).bind fun w => w.children[i]? := by
  induction path generalizing v with
  | nil => simp [get?]
  | cons j path ih =>
    simp only [List.cons_append, get?, ih, Option.bind_assoc]

theorem get?_modify {f : RValue → RValue} {path : List ℕ} {v node : RValue}
    (h : v.get? path = some node) : (v.modify f path).get? path = some (f node) := by
  induction path generalizing v with
  | nil =>
    cases h
    rfl
  | cons i path ih =>
    rw [get?, Option.bind_eq_some_iff] at h
    obtain ⟨c, hc, hget⟩ := h
    have hcontainer : v.t = .list ∨ v.t = .object := by
      by_contra hno
      rw [children, if_neg hno] at hc
      simp at hc
    rw [children, if_pos hcontainer] at hc
    rw [modify, get?, children, if_pos (by exact hcontainer)]
    simp [hc, ih hget]

end RValue

namespace Document
variable {P : Platform} {d : Document} {path : List ℕ} {v : RValue}

/-- `operator[]` of an object gives the first member with the key, in the order to
which it sorts the members, or throws if there is none; the document stays the same. -/
theorem find_spec (hinv : d.Inv P) (hget : d.root.get? path = some v) (ht : v.t = .object)
    (str : Bytes) :
    ∃ r d', d.find P path v str = (r, d') ∧ d'.Inv P ∧ Same d.denote d'.denote ∧
      d'.buf = d.buf ∧ d'.root = d.root.modify (RValue.arrange P d.buf) path ∧
      ((∃ path' x, r = .ok path' ∧ d'.root.get? path' = some x ∧
          (v.arrange P d.buf).l.find? (fun x => x.keyText d.buf = str) = some x) ∨
        r = .error (.runtimeError (bytes "cannot find key: " ++ str)) ∧
          (v.arrange P d.buf).l.find? (fun x => x.keyText d.buf = str) = none) := by
  obtain ⟨L, R, hcells, hkept⟩ := RValue.focus P hget
  obtain ⟨hwt, hwkey, hperm, hcached, hwarr⟩ := RValue.arrange_spec (hinv.arranged.get? hget) ht
  have hK := hkept (RValue.arrange P d.buf) hwkey
  have hcellsPerm : (d.root.modify (RValue.arrange P d.buf) path).cells.Perm d.root.cells := by
    rw [hK.cells, hcells, RValue.cells_object hwt, RValue.cells_object ht]
    exact ((RValue.cellsMembers_perm hperm).append_right R).append_left L
  have hinv' : Inv P ⟨d.root.modify (RValue.arrange P d.buf) path, d.buf⟩ := by
    refine ⟨fun c hc => hinv.good c (hcellsPerm.mem_iff.mp hc), ?_, ?_⟩
    · exact (hcellsPerm.pairwise_iff fun h => h.symm).mpr hinv.apart
    · exact hK.arranged _ _ rfl (fun _ _ _ _ _ => rfl) hinv.arranged hwarr
  have hsame : Same d.denote
      (Document.denote ⟨d.root.modify (RValue.arrange P d.buf) path, d.buf⟩) := by
    refine hK.denote Same.contextual _ _ rfl (fun c hc => ⟨hinv.good c ?_, fun _ _ _ => rfl⟩) ?_
    · rw [hcells]
      rw [List.mem_append] at hc
      simp only [List.mem_append]
      tauto
    · rw [RValue.denote_object ht, RValue.denote_object hwt]
      exact .perm (hperm.symm.map _)
  have hfirst := lowerBound_find? (hwarr.inOrder hwt hcached) P.textLt_strict P.textLt_total str
  rw [find, if_neg (by simpa using ht)]
  simp only
  cases hy : (v.arrange P d.buf).l[lowerBound (fun x => P.textLt (x.keyText d.buf) str)
      (v.arrange P d.buf).l]? with
  | none =>
    rw [hy, Option.filter_none] at hfirst
    exact ⟨_, _, rfl, hinv', hsame, rfl, rfl, .inr ⟨rfl, hfirst.symm⟩⟩
  | some y =>
    rw [hy] at hfirst
    by_cases hk : y.keyText d.buf = str
    · simp only [hk, if_true]
      rw [Option.filter_some_pos (by simpa using hk)] at hfirst
      refine ⟨_, _, rfl, hinv', hsame, rfl, rfl, .inl ⟨_, y, rfl, ?_, hfirst.symm⟩⟩
      rw [RValue.get?_append, RValue.get?_modify hget, Option.bind_some,
        RValue.children_object hwt, hy]
    · simp only [hk, if_false]
      rw [Option.filter_some_neg (by simpa using hk)] at hfirst
      exact ⟨_, _, rfl, hinv', hsame, rfl, rfl, .inr ⟨rfl, hfirst.symm⟩⟩

/-! ### Any run of calls -/

theorem access_inv (hinv : d.Inv P) (a : Access) :
    (d.access P a).Inv P ∧ Same d.denote (d.access P a).denote := by
  cases a with
  | s path =>
    rw [access]
    cases hget : d.root.get? path with
    | none => exact ⟨hinv, .refl _⟩
    | some v =>
      by_cases ht : v.t = .string
      · obtain ⟨text, d', hs, -, hinv', hsame⟩ := s_spec hinv hget ht
        simp only [hs]
        exact ⟨hinv', hsame ▸ .refl _⟩
      · simp only [s, ne_eq, ht, not_false_eq_true, if_true]
        exact ⟨hinv, .refl _⟩
  | find path str =>
    rw [access]
    cases hget : d.root.get? path with
    | none => exact ⟨hinv, .refl _⟩
    | some v =>
      by_cases ht : v.t = .object
      · obtain ⟨r, d', hf, hinv', hsame, -⟩ := find_spec hinv hget ht str
        simp only [hf]
        exact ⟨hinv', hsame⟩
      · simp only [find, ne_eq, ht, not_false_eq_true, if_true]
        exact ⟨hinv, .refl _⟩

theorem after_inv (hinv : d.Inv P) (calls : List Access) :
    (d.after P calls).Inv P ∧ Same d.denote (d.after P calls).denote := by
  induction calls generalizing d with
  | nil => exact ⟨hinv, .refl _⟩
  | cons a calls ih =>
    obtain ⟨hinv', hsame⟩ := access_inv hinv a
    obtain ⟨hlast, hrest⟩ := ih hinv'
    exact ⟨hlast, hsame.trans hrest⟩

end Document

/-! ### A document that has been loaded -/

theorem arranged_atom (P : Platform) (buf : Bytes) (a : Atom) (off : ℕ) :
    Arranged P buf (a.place off) := by
  have hleaf : ∀ v : RValue, v.t ≠ .list → v.t ≠ .object → Arranged P buf v := by
    intro v hlist hobject
    refine .mk (fun h => absurd h hobject) ?_
    rw [RValue.children, if_neg (by tauto)]
    simp
  cases a with
  | bool b =>
    cases b with
    | true => exact hleaf _ (by simp [Atom.place, RValue.ofType]) (by simp [Atom.place, RValue.ofType])
    | false => exact hleaf _ (by simp [Atom.place, RValue.ofType]) (by simp [Atom.place, RValue.ofType])
  | null => exact hleaf _ (by simp [Atom.place, RValue.ofType]) (by simp [Atom.place, RValue.ofType])
  | number n => exact hleaf _ (by simp [Atom.place, RValue.ofText]) (by simp [Atom.place, RValue.ofText])
  | string l => exact hleaf _ (by simp [Atom.place, RValue.ofText]) (by simp [Atom.place, RValue.ofText])

theorem arranged_setKey {P : Platform} {buf : Bytes} {v : RValue} (h : Arranged P buf v)
    (key : RString) : Arranged P buf { v with key := key } :=
  .mk h.inOrder h.children

namespace Phrase

/- Nothing is sorted yet. -/
mutual
theorem arranged (P : Platform) (buf : Bytes) : ∀ (c : Phrase) (off : ℕ), Arranged P buf (c.place off)
  | .atom a, off => arranged_atom P buf a off
  | .list gap items, off => by
    refine .mk (fun _ h => by cases h) ?_
    rw [RValue.children_list rfl]
    exact arrangedItems P buf items _
  | .object gap members, off => by
    refine .mk (fun _ h => by cases h) ?_
    rw [RValue.children_object rfl]
    exact arrangedMembers P buf members _

theorem arrangedItems (P : Platform) (buf : Bytes) : ∀ (items : List Item) (off : ℕ),
    ∀ v ∈ placeItems off items, Arranged P buf v
  | [], _ => by simp [placeItems]
  | ⟨before, c, after⟩ :: items, off => by
    rw [placeItems, List.forall_mem_cons]
    exact ⟨arranged P buf c _, arrangedItems P buf items _⟩

theorem arrangedMembers (P : Platform) (buf : Bytes) : ∀ (members : List Member) (off : ℕ),
    ∀ v ∈ placeMembers off members, Arranged P buf v
  | [], _ => by simp [placeMembers]
  | (k, ⟨before, c, after⟩) :: members, off => by
    rw [placeMembers, List.forall_mem_cons]
    exact ⟨arranged_setKey (arranged P buf c _) _, arrangedMembers P buf members _⟩
end

end Phrase

theorem load_inv (P : Platform) {str : Bytes} {d : Document} (h : load str = .ok d) : d.Inv P := by
  obtain ⟨t, tail, ht, hn⟩ := load_sound h
  rw [load_render ht hn] at h
  cases h
  have hlaid := t.body.laid t.before.1 (t.after.1 ++ 0 :: tail)
  exact ⟨hlaid.good, hlaid.apart, t.body.arranged P _ _⟩

/-- A document that has been loaded says the same after any run of `s()` and
`operator[]`, up to the order of members. Whatever the run was, `s()` of a string
gives what the string says, and `operator[]` of an object gives a member with the
key if the object has one, and throws if it has none. -/
theorem load_access (P : Platform) {str : Bytes} {d : Document} (h : load str = .ok d)
    (calls : List Access) :
    Same d.denote (d.after P calls).denote ∧
    (∀ path v, (d.after P calls).root.get? path = some v → v.t = .string →
      ∃ text, ((d.after P calls).s path v).1 = .ok text ∧
        v.denote (d.after P calls).buf = .string text) ∧
    ∀ path v key, (d.after P calls).root.get? path = some v → v.t = .object →
      ∃ m, v.denote (d.after P calls).buf = .object m ∧
        ((∃ path' d' x, (d.after P calls).find P path v key = (.ok path', d') ∧
            d'.root.get? path' = some x ∧ (key, x.denote d'.buf) ∈ m) ∨
          ((d.after P calls).find P path v key).1 =
              .error (.runtimeError (bytes "cannot find key: " ++ key)) ∧ ∀ j, (key, j) ∉ m) := by
  obtain ⟨hinv, hsame⟩ := Document.after_inv (load_inv P h) calls
  refine ⟨hsame, ?_, ?_⟩
  · intro path v hget ht
    obtain ⟨text, d', hs, hsaid, -⟩ := Document.s_spec hinv hget ht
    exact ⟨text, by rw [hs], hsaid⟩
  · intro path v key hget ht
    refine ⟨_, RValue.denote_object ht _, ?_⟩
    obtain ⟨-, -, hperm, -⟩ := RValue.arrange_spec (hinv.arranged.get? hget) ht
    obtain ⟨r, d', hf, -, -, hbuf, -, hr⟩ := Document.find_spec hinv hget ht key
    rw [hf]
    rcases hr with ⟨path', x, rfl, hx, hfirst⟩ | ⟨rfl, hnone⟩
    · refine .inl ⟨path', d', x, rfl, hx, ?_⟩
      have hk := List.find?_some hfirst
      rw [List.mem_map]
      exact ⟨x, hperm.mem_iff.mp (List.mem_of_find?_eq_some hfirst), by rw [hbuf]; simpa using hk⟩
    · refine .inr ⟨rfl, fun j hj => ?_⟩
      rw [List.mem_map] at hj
      obtain ⟨x, hx, hxj⟩ := hj
      have hk := List.find?_eq_none.mp hnone x (hperm.mem_iff.mpr hx)
      exact hk (by simpa using congrArg Prod.fst hxj)

/-- Plain `char` is signed, and the sort is by insertion. -/
def insertionPlatform : Platform where
  charLt a b := decide (a.toInt8.toInt < b.toInt8.toInt)
  strict := strictWeak_of_linear.comap fun a : UInt8 => a.toInt8.toInt
  total a b hab hba := by
    have hint : a.toInt8.toInt = b.toInt8.toInt := by
      rw [decide_eq_false_iff_not, not_lt] at hab hba
      exact le_antisymm hba hab
    have htoUInt8 := congrArg Int8.toUInt8 (Int8.toInt_inj.mp hint)
    rwa [UInt8.toUInt8_toInt8, UInt8.toUInt8_toInt8] at htoUInt8
  sort lt l := l.insertionSort fun x y => lt y x = false
  sort_perm lt l := l.perm_insertionSort _
  sort_inOrder lt l h := by
    have : Std.Total fun x y => lt y x = false := ⟨fun x y => by
      cases hxy : lt y x with
      | false => exact .inl rfl
      | true => exact .inr (h.asymm hxy)⟩
    have : IsTrans RValue fun x y => lt y x = false := ⟨fun x y z hxy hyz => h.not_trans hyz hxy⟩
    exact List.pairwise_insertionSort _ l

/- An object whose members are out of order, with an escape in a string. -/
theorem load_access_members :
    ∃ d, load (bytes "\x7b\"b\":\"x\\n\",\"a\":1\x7d") = .ok d ∧
      ∀ calls, Same d.denote (d.after insertionPlatform calls).denote := by
  have hsome : (load (bytes "\x7b\"b\":\"x\\n\",\"a\":1\x7d")).toOption.isSome := by decide +kernel
  cases hload : load (bytes "\x7b\"b\":\"x\\n\",\"a\":1\x7d") with
  | error e =>
    rw [hload] at hsome
    cases hsome
  | ok d => exact ⟨d, rfl, fun calls => (load_access insertionPlatform hload calls).1⟩

end TypegoSdk.Crow
