import TypegoSdk.Crow.Text
import TypegoSdk.Crow.Printed
import TypegoSdk.Lib.Least

/-!
# The trie of the routes (include/crow/routing.h, class Trie)

`add` puts the url of a rule into the trie, one character or parameter a node.
`optimize` joins chains of nodes. `find` follows every branch that the url of a request
can take and keeps the rule with the smallest index.
-/

namespace TypegoSdk.Crow
open TypegoSdk.Lib

namespace Routing

/-! ### Parameters of a url -/

inductive ParamType where
  | int
  | uint
  | double
  | string
  | path
  deriving DecidableEq

structure RoutingParams (δ : Type) where
  intParams : List ℤ
  uintParams : List ℕ
  doubleParams : List δ
  stringParams : List Bytes

def RoutingParams.empty {δ : Type} : RoutingParams δ := ⟨[], [], [], []⟩

/- `strtoll` of a text that begins with a digit or a sign: the value and what is left, if
there are digits and they are in range. -/
def strtoll (s : Bytes) : Option (ℤ × Bytes) :=
  let negative := s.head? = some '-'.toUInt8
  let text := if negative ∨ s.head? = some '+'.toUInt8 then s.drop 1 else s
  let digits := text.takeWhile isDigit
  let value : ℤ := if negative then -digitsValue digits else digitsValue digits
  if digits ≠ [] ∧ -2 ^ 63 ≤ value ∧ value < 2 ^ 63 then some (value, text.dropWhile isDigit) else none

/- `strtoull` of a text that begins with a digit or a plus. -/
def strtoull (s : Bytes) : Option (ℕ × Bytes) :=
  let text := if s.head? = some '+'.toUInt8 then s.drop 1 else s
  let digits := text.takeWhile isDigit
  if digits ≠ [] ∧ digitsValue digits < 2 ^ 64 then
    some (digitsValue digits, text.dropWhile isDigit)
  else none

def beginsWith (p : UInt8 → Bool) (s : Bytes) : Bool := s.head?.any p

/- A url, and the parameters that have been read. -/
abbrev Place (δ : Type) := Bytes × RoutingParams δ

section
variable {δ : Type} (strtod : Bytes → Option (δ × Bytes))

/-- The parameter at the beginning of the url, and what is left. `strtod` is that of the C
library, with `none` for no number or one out of range. -/
def readParam (p : ParamType) (s : Place δ) : Option (Place δ) :=
  match p with
  | .int =>
    if beginsWith (fun c => isDigit c || c == '+'.toUInt8 || c == '-'.toUInt8) s.1 then
      (strtoll s.1).map fun r => (r.2, {s.2 with intParams := s.2.intParams ++ [r.1]})
    else none
  | .uint =>
    if beginsWith (fun c => isDigit c || c == '+'.toUInt8) s.1 then
      (strtoull s.1).map fun r => (r.2, {s.2 with uintParams := s.2.uintParams ++ [r.1]})
    else none
  | .double =>
    if beginsWith (fun c => isDigit c || c == '+'.toUInt8 || c == '-'.toUInt8 || c == '.'.toUInt8) s.1 then
      (strtod s.1).map fun r => (r.2, {s.2 with doubleParams := s.2.doubleParams ++ [r.1]})
    else none
  | .string =>
    let text := s.1.takeWhile (· ≠ '/'.toUInt8)
    if text ≠ [] then
      some (s.1.drop text.length, {s.2 with stringParams := s.2.stringParams ++ [text]})
    else none
  | .path =>
    if s.1 ≠ [] then some ([], {s.2 with stringParams := s.2.stringParams ++ [s.1]}) else none

/-! ### The trie -/

/-- A node; rule index 0 stands for no rule. -/
inductive Node where
  | mk (ruleIndex : ℕ) (key : Bytes) (param : Option ParamType) (children : List Node)

namespace Node

def ruleIndex : Node → ℕ
  | mk rule _ _ _ => rule

def key : Node → Bytes
  | mk _ key _ _ => key

def param : Node → Option ParamType
  | mk _ _ param _ => param

def children : Node → List Node
  | mk _ _ _ children => children

section
variable (rule : ℕ) (k : Bytes) (p : Option ParamType) (cs : List Node)

@[simp] theorem ruleIndex_mk : (mk rule k p cs).ruleIndex = rule := rfl
@[simp] theorem key_mk : (mk rule k p cs).key = k := rfl
@[simp] theorem param_mk : (mk rule k p cs).param = p := rfl
@[simp] theorem children_mk : (mk rule k p cs).children = cs := rfl

end

def isSimpleNode (n : Node) : Bool :=
  n.ruleIndex = 0 ∧ n.children.length < 2 ∧ n.param = none ∧ n.children.all fun c => c.param = none

end Node

/- `optimizeNode` of a node, whose key has grown to `key`: a simple node takes the place of its
child. -/
mutual
def Node.optimizeAs (key : Bytes) : Node → Node
  | .mk rule _ param [] => .mk rule key param []
  | .mk rule k param (child :: rest) =>
    if (Node.mk rule k param (child :: rest)).isSimpleNode then child.optimizeAs (key ++ child.key)
    else .mk rule key param (child.optimizeAs child.key :: optimizeAll rest)

def optimizeAll : List Node → List Node
  | [] => []
  | child :: rest => child.optimizeAs child.key :: optimizeAll rest
end

/- The head stays as it is. -/
def Node.optimize (head : Node) : Node :=
  .mk head.ruleIndex head.key head.param (optimizeAll head.children)

/- What a child takes of the url. -/
def Node.enter (child : Node) (s : Place δ) : Option (Place δ) :=
  match child.param with
  | some p => readParam strtod p s
  | none => if child.key.isPrefixOf s.1 then some (s.1.drop child.key.length, s.2) else none

mutual
def Node.find (s : Place δ) : Node → ℕ × RoutingParams δ
  | .mk rule _ _ children =>
    if s.1 = [] then (rule, s.2) else findChildren s (0, .empty) children

/- The loop over the children, with what has been found. -/
def findChildren (s : Place δ) (found : ℕ × RoutingParams δ) : List Node → ℕ × RoutingParams δ
  | [] => found
  | child :: rest =>
    match child.enter strtod s with
    | none => findChildren s found rest
    | some t => findChildren s (better found (child.find t)) rest
end

/-! ### Adding a rule -/

inductive Piece where
  | char (c : UInt8)
  | param (p : ParamType)
  deriving DecidableEq

def paramTraits : List (ParamType × Bytes) :=
  [(.int, bytes "<int>"), (.uint, bytes "<uint>"), (.double, bytes "<float>"),
    (.double, bytes "<double>"), (.string, bytes "<str>"), (.string, bytes "<string>"),
    (.path, bytes "<path>")]

/- The pieces of the url of a rule. At a '<' that begins no parameter the loop does not end. -/
def pieces : ℕ → Bytes → Option (List Piece)
  | _, [] => some []
  | 0, _ :: _ => none
  | fuel + 1, c :: url =>
    if c = '<'.toUInt8 then
      match paramTraits.find? fun x => x.2.isPrefixOf (c :: url) with
      | none => none
      | some x => (pieces fuel ((c :: url).drop x.2.length)).map (.param x.1 :: ·)
    else (pieces fuel url).map (.char c :: ·)

namespace Piece

def key : Piece → Bytes
  | char c => [c]
  | param _ => []

def type : Piece → Option ParamType
  | char _ => none
  | param p => some p

/- The test for the child that a piece leads to. A string has a zero behind its end. -/
def fits (piece : Piece) (n : Node) : Bool :=
  match piece with
  | char c => n.key.getD 0 0 = c
  | param p => n.param = some p

def node (piece : Piece) : Node := .mk 0 piece.key piece.type []

end Piece

/- The first child that fits, or a new one behind the others, is changed by `f`. -/
def addChild (fits : Node → Bool) (f : Node → Option Node) (new : Node) :
    List Node → Option (List Node)
  | [] => (f new).map ([·])
  | child :: rest =>
    if fits child then (f child).map (· :: rest) else (addChild fits f new rest).map (child :: ·)

/-- `add`, for the pieces of a url; `none` says that the url has a rule. -/
def Node.add (ruleIndex : ℕ) : List Piece → Node → Option Node
  | [], .mk rule key param children => if rule ≠ 0 then none else some (.mk ruleIndex key param children)
  | piece :: rest, .mk rule key param children =>
    (addChild piece.fits (Node.add ruleIndex rest) piece.node children).map (.mk rule key param ·)

/-! ### What a trie says -/

def Piece.read (piece : Piece) (s : Place δ) : Option (Place δ) :=
  match piece, s.1 with
  | .char c, d :: url => if c = d then some (url, s.2) else none
  | .char _, [] => none
  | .param p, _ => readParam strtod p s

/- The url from its beginning on, piece by piece. -/
def walk : List Piece → Place δ → Option (Place δ)
  | [], s => some s
  | piece :: rest, s => (piece.read strtod s).bind (walk rest)

/-- The parameters of a url that the pattern describes. -/
def accept (pattern : List Piece) (s : Place δ) : Option (RoutingParams δ) :=
  (walk strtod pattern s).bind fun t => if t.1 = [] then some t.2 else none

def labelOf (key : Bytes) (param : Option ParamType) : List Piece :=
  match param with
  | some p => [.param p]
  | none => key.map .char

def Node.label (n : Node) : List Piece := labelOf n.key n.param

/- Rules with their patterns, each behind `l`. -/
def under (l : List Piece) (entries : List (List Piece × ℕ)) : List (List Piece × ℕ) :=
  entries.map fun e => (l ++ e.1, e.2)

/- The rules below a node, each with its pattern from there on. -/
mutual
def Node.entries : Node → List (List Piece × ℕ)
  | .mk rule _ _ children => (if rule ≠ 0 then [([], rule)] else []) ++ childEntries children

def childEntries : List Node → List (List Piece × ℕ)
  | [] => []
  | child :: rest => under child.label child.entries ++ childEntries rest
end

/-! ### Looking for a rule -/

theorem readParam_nil (p : ParamType) (params : RoutingParams δ) :
    readParam strtod p ([], params) = none := by
  cases p <;> simp [readParam, beginsWith]

theorem Piece.read_nil (piece : Piece) (params : RoutingParams δ) :
    piece.read strtod ([], params) = none := by
  cases piece with
  | char c => rfl
  | param p => exact readParam_nil strtod p params

theorem walk_append (a b : List Piece) (s : Place δ) :
    walk strtod (a ++ b) s = (walk strtod a s).bind (walk strtod b) := by
  induction a generalizing s with
  | nil => rfl
  | cons piece a ih =>
    rw [List.cons_append, walk, walk, Option.bind_assoc]
    exact congrArg _ (funext ih)

theorem accept_append (a b : List Piece) (s : Place δ) :
    accept strtod (a ++ b) s = (walk strtod a s).bind (accept strtod b) := by
  rw [accept, walk_append, Option.bind_assoc]
  rfl

theorem walk_chars (key url : Bytes) (params : RoutingParams δ) :
    walk strtod (key.map .char) (url, params) =
      if key.isPrefixOf url then some (url.drop key.length, params) else none := by
  induction key generalizing url with
  | nil => simp [walk]
  | cons c key ih =>
    cases url with
    | nil => rfl
    | cons d url =>
      have hread : (Piece.char c).read strtod (d :: url, params) =
          if c = d then some (url, params) else none := rfl
      rw [List.map_cons, walk, hread]
      by_cases hcd : c = d
      · rw [if_pos hcd, Option.bind_some, ih, hcd]
        simp
      · simp [hcd]

theorem walk_one (piece : Piece) (s : Place δ) : walk strtod [piece] s = piece.read strtod s := by
  rw [walk]
  cases piece.read strtod s <;> rfl

theorem Node.enter_eq (n : Node) (s : Place δ) : n.enter strtod s = walk strtod n.label s := by
  rw [Node.enter, Node.label]
  cases n.param with
  | some p => exact (walk_one strtod (.param p) s).symm
  | none => exact (walk_chars strtod n.key s.1 s.2).symm

/- The rules that take the url, with its parameters. -/
def candidates (entries : List (List Piece × ℕ)) (s : Place δ) : List (ℕ × RoutingParams δ) :=
  entries.filterMap fun e => (accept strtod e.1 s).map (e.2, ·)

theorem candidates_append (as bs : List (List Piece × ℕ)) (s : Place δ) :
    candidates strtod (as ++ bs) s = candidates strtod as s ++ candidates strtod bs s :=
  List.filterMap_append

theorem candidates_label (l : List Piece) (entries : List (List Piece × ℕ)) (s : Place δ) :
    candidates strtod (under l entries) s =
      match walk strtod l s with
      | none => []
      | some t => candidates strtod entries t := by
  rw [candidates, under, List.filterMap_map]
  cases hwalk : walk strtod l s with
  | none =>
    refine List.filterMap_eq_nil_iff.mpr fun e _ => ?_
    simp [accept_append, hwalk]
  | some t =>
    refine List.filterMap_congr fun e _ => ?_
    simp [accept_append, hwalk]

/- Every node below has a character or a parameter. -/
mutual
def Node.Proper : Node → Prop
  | .mk _ _ _ children => ProperAll children

def ProperAll : List Node → Prop
  | [] => True
  | child :: rest => child.label ≠ [] ∧ child.Proper ∧ ProperAll rest
end

theorem walk_nil_url {l : List Piece} (h : l ≠ []) (params : RoutingParams δ) :
    walk strtod l ([], params) = none := by
  cases l with
  | nil => exact absurd rfl h
  | cons piece l =>
    rw [walk, Piece.read_nil]
    rfl

theorem candidates_nil_url {children : List Node} (h : ProperAll children) (params : RoutingParams δ) :
    candidates strtod (childEntries children) ([], params) = [] := by
  induction children with
  | nil => rfl
  | cons child rest ih =>
    obtain ⟨hlabel, -, hrest⟩ := h
    rw [childEntries, candidates_append, candidates_label, walk_nil_url strtod hlabel, ih hrest]
    rfl

mutual
theorem Node.find_agree {n : Node} (h : n.Proper) (s : Place δ) :
    Agree (n.find strtod s) (best .empty (candidates strtod n.entries s)) := by
  obtain ⟨rule, key, param, children⟩ := n
  rw [Node.find, Node.entries, candidates_append]
  by_cases hs : s.1 = []
  · obtain ⟨url, params⟩ := s
    obtain rfl : url = [] := hs
    rw [if_pos rfl, candidates_nil_url strtod h, List.append_nil]
    by_cases hrule : rule = 0
    · simp [hrule, Agree, candidates, best]
    · simp [hrule, Agree, candidates, best, accept, walk, better]
  · have hself : candidates strtod (if rule ≠ 0 then [([], rule)] else []) s = [] := by
      by_cases hrule : rule = 0 <;> simp [hrule, candidates, accept, walk, hs]
    rw [if_neg hs, hself, List.nil_append, findChildren_eq h s]
    exact ⟨rfl, fun _ => rfl⟩

theorem findChildren_eq {children : List Node} (h : ProperAll children) (s : Place δ)
    (found : ℕ × RoutingParams δ) :
    findChildren strtod s found children =
      (candidates strtod (childEntries children) s).foldl better found := by
  cases children with
  | nil => rfl
  | cons child rest =>
    obtain ⟨-, hchild, hrest⟩ := h
    rw [findChildren, childEntries, candidates_append, candidates_label, Node.enter_eq,
      List.foldl_append]
    cases hwalk : walk strtod child.label s with
    | none => exact findChildren_eq hrest s found
    | some t =>
      rw [foldl_better .empty found, ← better_agree (child.find_agree hchild t)]
      exact findChildren_eq hrest s _
end

/-! ### Optimizing -/

/- The rules below a node, each with its pattern from the node on. -/
def Node.full (n : Node) : List (List Piece × ℕ) := under n.label n.entries

end

theorem Node.isSimpleNode_iff {rule : ℕ} {key : Bytes} {param : Option ParamType} {child : Node}
    {rest : List Node} :
    (Node.mk rule key param (child :: rest)).isSimpleNode = true ↔
      rule = 0 ∧ rest = [] ∧ param = none ∧ child.param = none := by
  simp only [Node.isSimpleNode, Node.ruleIndex_mk, Node.children_mk, Node.param_mk, decide_eq_true_eq,
    List.length_cons, List.all_cons, Bool.and_eq_true]
  constructor
  · rintro ⟨hrule, hlength, hparam, hchild, -⟩
    exact ⟨hrule, List.eq_nil_of_length_eq_zero (by omega), hparam, hchild⟩
  · rintro ⟨rfl, rfl, rfl, hchild⟩
    exact ⟨rfl, by decide, rfl, hchild, rfl⟩

theorem under_under (a b : List Piece) (entries : List (List Piece × ℕ)) :
    under a (under b entries) = under (a ++ b) entries := by
  simp [under]

theorem Node.eta (n : Node) : Node.mk n.ruleIndex n.key n.param n.children = n := by
  cases n
  rfl

mutual
/- The rules keep their patterns when a key is joined with the key of the only child. -/
theorem Node.full_optimizeAs (key : Bytes) (n : Node) :
    (n.optimizeAs key).full = (Node.mk n.ruleIndex key n.param n.children).full := by
  obtain ⟨rule, k, param, children⟩ := n
  cases children with
  | nil => rfl
  | cons child rest =>
    rw [Node.optimizeAs]
    by_cases hsimple : (Node.mk rule k param (child :: rest)).isSimpleNode = true
    · obtain ⟨rfl, rfl, rfl, hchild⟩ := Node.isSimpleNode_iff.mp hsimple
      have hentries : (Node.mk 0 key none [child]).entries = child.full := by
        simp [Node.entries, childEntries, Node.full]
      have hlabel : labelOf (key ++ child.key) none = labelOf key none ++ child.label := by
        simp [labelOf, Node.label, hchild]
      have hown : (Node.mk child.ruleIndex (key ++ child.key) none child.children).entries =
          child.entries := by
        cases child
        rfl
      rw [if_pos hsimple, child.full_optimizeAs, hchild, Node.full, Node.label, hown]
      show under (labelOf (key ++ child.key) none) child.entries =
        under (labelOf key none) (Node.mk 0 key none [child]).entries
      rw [hentries, hlabel, Node.full, under_under]
    · have hentries : childEntries (child.optimizeAs child.key :: optimizeAll rest) =
          childEntries (child :: rest) := by
        have hfull := child.full_optimizeAs child.key
        rw [child.eta, Node.full, Node.full] at hfull
        rw [childEntries, childEntries, childEntries_optimizeAll rest, hfull]
      rw [if_neg hsimple, Node.full, Node.full, Node.entries, Node.entries, hentries]
      rfl

theorem childEntries_optimizeAll (children : List Node) :
    childEntries (optimizeAll children) = childEntries children := by
  cases children with
  | nil => rfl
  | cons child rest =>
    have hfull := child.full_optimizeAs child.key
    rw [child.eta, Node.full, Node.full] at hfull
    rw [optimizeAll, childEntries, childEntries, childEntries_optimizeAll rest, hfull]
end

mutual
theorem Node.proper_optimizeAs {key : Bytes} {n : Node} (hkey : labelOf key n.param ≠ []) (h : n.Proper) :
    (n.optimizeAs key).label ≠ [] ∧ (n.optimizeAs key).Proper := by
  obtain ⟨rule, k, param, children⟩ := n
  cases children with
  | nil => exact ⟨hkey, trivial⟩
  | cons child rest =>
    obtain ⟨hlabel, hchild, hrest⟩ := h
    rw [Node.optimizeAs]
    by_cases hsimple : (Node.mk rule k param (child :: rest)).isSimpleNode = true
    · obtain ⟨-, -, rfl, hnone⟩ := Node.isSimpleNode_iff.mp hsimple
      rw [if_pos hsimple]
      refine child.proper_optimizeAs ?_ hchild
      rw [hnone, labelOf, List.map_append]
      exact List.append_ne_nil_of_left_ne_nil hkey _
    · rw [if_neg hsimple]
      obtain ⟨hlabel', hproper⟩ := child.proper_optimizeAs hlabel hchild
      exact ⟨hkey, hlabel', hproper, properAll_optimizeAll hrest⟩

theorem properAll_optimizeAll {children : List Node} (h : ProperAll children) :
    ProperAll (optimizeAll children) := by
  cases children with
  | nil => trivial
  | cons child rest =>
    obtain ⟨hlabel, hchild, hrest⟩ := h
    obtain ⟨hlabel', hproper⟩ := child.proper_optimizeAs hlabel hchild
    exact ⟨hlabel', hproper, properAll_optimizeAll hrest⟩
end

theorem Node.proper_optimize {head : Node} (h : head.Proper) : head.optimize.Proper := by
  cases head
  exact properAll_optimizeAll h

theorem Node.entries_optimize (head : Node) : head.optimize.entries = head.entries := by
  obtain ⟨rule, k, param, children⟩ := head
  rw [Node.optimize, Node.entries, Node.entries]
  exact congrArg _ (childEntries_optimizeAll children)

/-- `find` gives the same in the optimized trie, with the same parameters. -/
theorem Node.find_optimize_eq {δ : Type} (strtod : Bytes → Option (δ × Bytes)) {head : Node}
    (h : head.Proper) (s : Place δ) : head.optimize.find strtod s = head.find strtod s := by
  obtain ⟨rule, key, param, children⟩ := head
  have hchildren : findChildren strtod s (0, .empty) (optimizeAll children) =
      findChildren strtod s (0, .empty) children := by
    rw [findChildren_eq strtod h, findChildren_eq strtod (properAll_optimizeAll h),
      childEntries_optimizeAll]
  rw [Node.optimize, Node.find, Node.find]
  exact congrArg (ite _ _) hchildren

/- A node with two keys below it, the second behind a chain. -/
def twoKeys : Node :=
  .mk 0 [] none [.mk 0 [47] none [.mk 2 [97] none [], .mk 0 [98] none [.mk 3 [99] none []]]]

theorem twoKeys_proper : twoKeys.Proper := by
  simp [twoKeys, Node.Proper, ProperAll, Node.label, labelOf]

theorem find_optimize_eq_twoKeys :
    twoKeys.optimize.find (fun _ => (none : Option (Unit × Bytes))) ([47, 98, 99], .empty) =
      (3, .empty) :=
  (Node.find_optimize_eq _ twoKeys_proper _).trans rfl

/-! ### A trie of added rules -/

/- The node of a piece, as `add` makes it. -/
def Piece.Makes (piece : Piece) (n : Node) : Prop :=
  piece ≠ .char 0 ∧ n.key = piece.key ∧ n.param = piece.type

/- Before `optimize`: one piece a node, and different pieces for the children of a node. -/
mutual
def Node.Plain : Node → Prop
  | .mk _ _ _ children => PlainAll children ∧ (children.map Node.label).Nodup

def PlainAll : List Node → Prop
  | [] => True
  | child :: rest => (∃ piece : Piece, piece.Makes child) ∧ child.Plain ∧ PlainAll rest
end

theorem Piece.Makes.label {piece : Piece} {n : Node} (h : piece.Makes n) : n.label = [piece] := by
  rw [Node.label, h.2.1, h.2.2]
  cases piece <;> rfl

theorem Piece.Makes.fits_iff {piece : Piece} {n : Node} (h : piece.Makes n) {q : Piece}
    (hq : q ≠ .char 0) : q.fits n = true ↔ n.label = [q] := by
  rw [h.label, List.singleton_inj]
  obtain ⟨-, hkey, htype⟩ := h
  cases q with
  | char c =>
    have hc : c ≠ 0 := fun h0 => hq (h0 ▸ rfl)
    simp only [Piece.fits, hkey, decide_eq_true_eq]
    cases piece with
    | char d => simp [Piece.key]
    | param p => simp [Piece.key, hc.symm]
  | param p =>
    simp only [Piece.fits, htype, decide_eq_true_eq]
    cases piece with
    | char d => simp [Piece.type]
    | param p' => simp [Piece.type]

theorem Piece.makes_node {piece : Piece} (h : piece ≠ .char 0) : piece.Makes piece.node :=
  ⟨h, rfl, rfl⟩

mutual
theorem Node.Plain.proper {n : Node} (h : n.Plain) : n.Proper := by
  cases n
  exact PlainAll.proper h.1

theorem PlainAll.proper {children : List Node} (h : PlainAll children) : ProperAll children := by
  cases children with
  | nil => trivial
  | cons child rest =>
    obtain ⟨⟨piece, hpiece⟩, hchild, hrest⟩ := h
    refine ⟨?_, hchild.proper, PlainAll.proper hrest⟩
    rw [hpiece.label]
    exact List.cons_ne_nil _ _
end

/-- `n'` is `n` with one rule more, for a pattern that had none. -/
structure Node.Added (ruleIndex : ℕ) (pattern : List Piece) (n n' : Node) : Prop where
  plain : n'.Plain
  key : n'.key = n.key
  param : n'.param = n.param
  entries : n'.entries.Perm ((pattern, ruleIndex) :: n.entries)
  fresh : pattern ∉ n.entries.map Prod.fst

structure AddedAll (ruleIndex : ℕ) (q : Piece) (pattern : List Piece) (cs cs' : List Node) : Prop where
  plain : PlainAll cs'
  labels : cs'.map Node.label = cs.map Node.label ∨
    [q] ∉ cs.map Node.label ∧ cs'.map Node.label = cs.map Node.label ++ [[q]]
  entries : (childEntries cs').Perm ((q :: pattern, ruleIndex) :: childEntries cs)
  fresh : q :: pattern ∉ (childEntries cs).map Prod.fst

theorem mem_under {l : List Piece} {entries : List (List Piece × ℕ)} {pattern : List Piece} :
    pattern ∈ (under l entries).map Prod.fst ↔ ∃ rest ∈ entries.map Prod.fst, pattern = l ++ rest := by
  simp only [under, List.map_map, List.mem_map, Function.comp]
  constructor
  · rintro ⟨e, he, rfl⟩
    exact ⟨e.1, ⟨e, he, rfl⟩, rfl⟩
  · rintro ⟨rest, ⟨e, he, rfl⟩, rfl⟩
    exact ⟨e, he, rfl⟩

/- A pattern leads to a child for its first piece. -/
theorem label_of_mem {cs : List Node} (h : PlainAll cs) {q : Piece} {pattern : List Piece}
    (hmem : q :: pattern ∈ (childEntries cs).map Prod.fst) : [q] ∈ cs.map Node.label := by
  induction cs with
  | nil => cases hmem
  | cons child rest ih =>
    obtain ⟨⟨piece, hpiece⟩, -, hrest⟩ := h
    rw [childEntries, List.map_append, List.mem_append, mem_under, hpiece.label] at hmem
    rcases hmem with ⟨tail, -, htail⟩ | hmem
    · obtain ⟨rfl, -⟩ := List.cons.inj htail
      rw [List.map_cons, hpiece.label]
      exact List.mem_cons_self ..
    · exact List.mem_cons_of_mem _ (ih hrest hmem)

theorem nil_not_mem {cs : List Node} (h : PlainAll cs) : [] ∉ (childEntries cs).map Prod.fst := by
  induction cs with
  | nil => exact List.not_mem_nil
  | cons child rest ih =>
    obtain ⟨⟨piece, hpiece⟩, -, hrest⟩ := h
    rw [childEntries, List.map_append, List.mem_append, mem_under, hpiece.label]
    rintro (⟨tail, -, htail⟩ | hmem)
    · cases htail
    · exact ih hrest hmem

theorem under_added {ruleIndex : ℕ} {pattern : List Piece} {child child' : Node} {q : Piece}
    (h : Node.Added ruleIndex pattern child child') (hlabel : child.label = [q]) :
    child'.label = [q] ∧
      (under child'.label child'.entries).Perm
        ((q :: pattern, ruleIndex) :: under child.label child.entries) := by
  have hlabel' : child'.label = [q] := by rw [Node.label, h.key, h.param, ← Node.label, hlabel]
  refine ⟨hlabel', ?_⟩
  rw [hlabel', hlabel]
  exact h.entries.map _

section
variable {ruleIndex : ℕ} {q : Piece} {pattern : List Piece} {f : Node → Option Node}

theorem addChild_added (hq : q ≠ .char 0)
    (hf : ∀ n, n.Plain → (∀ n', f n = some n' → Node.Added ruleIndex pattern n n') ∧
      (f n = none → pattern ∈ n.entries.map Prod.fst))
    {cs : List Node} (h : PlainAll cs) (hlabels : (cs.map Node.label).Nodup) :
    (∀ cs', addChild q.fits f q.node cs = some cs' → AddedAll ruleIndex q pattern cs cs') ∧
      (addChild q.fits f q.node cs = none → q :: pattern ∈ (childEntries cs).map Prod.fst) := by
  have hmakes := Piece.makes_node hq
  induction cs with
  | nil =>
    have hplain : q.node.Plain := ⟨trivial, List.nodup_nil⟩
    obtain ⟨hsome, hnone⟩ := hf q.node hplain
    refine ⟨fun cs' hcs => ?_, fun hcs => ?_⟩
    · obtain ⟨n', hn', rfl⟩ := Option.map_eq_some_iff.mp hcs
      have hadded := hsome n' hn'
      obtain ⟨hlabel, hentries⟩ := under_added hadded hmakes.label
      have hmakes' : q.Makes n' := ⟨hq, hadded.key.trans rfl, hadded.param.trans rfl⟩
      refine ⟨⟨⟨q, hmakes'⟩, hadded.plain, trivial⟩, .inr ⟨List.not_mem_nil, ?_⟩, ?_, List.not_mem_nil⟩
      · rw [List.map_singleton, hlabel]
        rfl
      · show (under n'.label n'.entries ++ []).Perm _
        rw [List.append_nil]
        exact hentries
    · cases hnone (Option.map_eq_none_iff.mp hcs)
  | cons child rest ih =>
    obtain ⟨⟨piece, hpiece⟩, hchild, hrest⟩ := h
    obtain ⟨hnew, hnodup⟩ := List.nodup_cons.mp hlabels
    rw [addChild]
    by_cases hfits : q.fits child = true
    · have hlabel := (hpiece.fits_iff hq).mp hfits
      obtain ⟨hsome, hnone⟩ := hf child hchild
      rw [if_pos hfits]
      refine ⟨fun cs' hcs => ?_, fun hcs => ?_⟩
      · obtain ⟨n', hn', rfl⟩ := Option.map_eq_some_iff.mp hcs
        have hadded := hsome n' hn'
        obtain ⟨hlabel', hentries⟩ := under_added hadded hlabel
        have hmakes' : piece.Makes n' :=
          ⟨hpiece.1, hadded.key.trans hpiece.2.1, hadded.param.trans hpiece.2.2⟩
        refine ⟨⟨⟨piece, hmakes'⟩, hadded.plain, hrest⟩, .inl ?_, ?_, ?_⟩
        · rw [List.map_cons, List.map_cons, hlabel, hlabel']
        · rw [childEntries, childEntries]
          exact hentries.append_right _
        · rw [childEntries, List.map_append, List.mem_append, mem_under, hlabel]
          rintro (⟨tail, htail, heq⟩ | hmem)
          · obtain ⟨-, rfl⟩ := List.cons.inj heq
            exact hadded.fresh htail
          · exact hnew (hlabel ▸ label_of_mem hrest hmem)
      · have hmem := hnone (Option.map_eq_none_iff.mp hcs)
        rw [childEntries, List.map_append, List.mem_append, mem_under, hlabel]
        exact .inl ⟨pattern, hmem, rfl⟩
    · have hlabel : child.label ≠ [q] := fun heq => hfits ((hpiece.fits_iff hq).mpr heq)
      obtain ⟨ihsome, ihnone⟩ := ih hrest hnodup
      rw [if_neg hfits]
      refine ⟨fun cs' hcs => ?_, fun hcs => ?_⟩
      · obtain ⟨tail, htail, rfl⟩ := Option.map_eq_some_iff.mp hcs
        have hadded := ihsome tail htail
        refine ⟨⟨⟨piece, hpiece⟩, hchild, hadded.plain⟩, ?_, ?_, ?_⟩
        · rcases hadded.labels with heq | ⟨hnot, heq⟩
          · exact .inl (by rw [List.map_cons, List.map_cons, heq])
          · refine .inr ⟨?_, by rw [List.map_cons, List.map_cons, heq, List.cons_append]⟩
            rw [List.map_cons, List.mem_cons, not_or]
            exact ⟨fun heq => hlabel heq.symm, hnot⟩
        · rw [childEntries, childEntries]
          exact (hadded.entries.append_left _).trans List.perm_middle
        · rw [childEntries, List.map_append, List.mem_append, mem_under]
          rintro (⟨tail, -, heq⟩ | hmem)
          · rw [hpiece.label] at heq hlabel
            exact hlabel (by rw [(List.cons.inj heq).1])
          · exact hadded.fresh hmem
      · rw [childEntries, List.map_append, List.mem_append]
        exact .inr (ihnone (Option.map_eq_none_iff.mp hcs))

/-- `add` throws if and only if the pattern has a rule, and otherwise adds the rule to those of the
trie. -/
theorem Node.add_added (hindex : ruleIndex ≠ 0) (hpattern : ∀ q ∈ pattern, q ≠ .char 0) {n : Node}
    (h : n.Plain) :
    (∀ n', n.add ruleIndex pattern = some n' → Node.Added ruleIndex pattern n n') ∧
      (n.add ruleIndex pattern = none → pattern ∈ n.entries.map Prod.fst) := by
  induction pattern generalizing n with
  | nil =>
    obtain ⟨rule, key, param, children⟩ := n
    rw [Node.add, Node.entries]
    by_cases hrule : rule = 0
    · rw [if_neg (not_not.mpr hrule), if_neg (not_not.mpr hrule), List.nil_append]
      refine ⟨fun n' hn' => ?_, fun hnone => by cases hnone⟩
      cases hn'
      refine ⟨h, rfl, rfl, ?_, ?_⟩
      · rw [Node.entries, Node.entries, if_pos hindex, if_neg (not_not.mpr hrule)]
        exact List.Perm.refl _
      · rw [Node.entries, if_neg (not_not.mpr hrule)]
        exact nil_not_mem h.1
    · rw [if_pos hrule, if_pos hrule]
      exact ⟨fun n' hn' => (by cases hn'), fun _ => List.mem_cons_self ..⟩
  | cons q pattern ih =>
    obtain ⟨rule, key, param, children⟩ := n
    obtain ⟨hplain, hlabels⟩ := h
    have hq := hpattern q (List.mem_cons_self ..)
    obtain ⟨hsome, hnone⟩ := addChild_added hq
      (fun n hn => ih (fun r hr => hpattern r (List.mem_cons_of_mem _ hr)) hn) hplain hlabels
    -- the rule of the node itself has another pattern
    have hself : q :: pattern ∉
        (if rule ≠ 0 then [(([] : List Piece), rule)] else []).map Prod.fst := by
      by_cases hrule : rule = 0 <;> simp [hrule]
    rw [Node.add]
    refine ⟨fun n' hn' => ?_, fun hnil => ?_⟩
    · obtain ⟨cs, hcs, rfl⟩ := Option.map_eq_some_iff.mp hn'
      have hadded := hsome cs hcs
      refine ⟨⟨hadded.plain, ?_⟩, rfl, rfl, ?_, ?_⟩
      · rcases hadded.labels with heq | ⟨hnot, heq⟩
        · rw [heq]
          exact hlabels
        · rw [heq]
          refine List.nodup_append.mpr ⟨hlabels, List.pairwise_singleton _ _, ?_⟩
          rintro a ha b hb rfl
          exact hnot (List.mem_singleton.mp hb ▸ ha)
      · rw [Node.entries, Node.entries]
        exact (hadded.entries.append_left _).trans List.perm_middle
      · rw [Node.entries, List.map_append, List.mem_append, not_or]
        exact ⟨hself, hadded.fresh⟩
    · rw [Node.entries, List.map_append, List.mem_append]
      exact .inr (hnone (Option.map_eq_none_iff.mp hnil))

end

/-- The optimized trie finds a rule if and only if the pattern of one takes the url, and then the
one with the smallest index, with its parameters. -/
theorem Node.find_optimize {δ : Type} (strtod : Bytes → Option (δ × Bytes)) {head : Node}
    (h : head.Plain) (hindex : ∀ e ∈ head.entries, e.2 ≠ 0) (s : Place δ) :
    ((head.optimize.find strtod s).1 = 0 ↔ ∀ e ∈ head.entries, accept strtod e.1 s = none) ∧
    ((head.optimize.find strtod s).1 ≠ 0 →
      (∃ pattern, (pattern, (head.optimize.find strtod s).1) ∈ head.entries ∧
        accept strtod pattern s = some (head.optimize.find strtod s).2) ∧
      ∀ e ∈ head.entries, accept strtod e.1 s ≠ none → (head.optimize.find strtod s).1 ≤ e.2) := by
  obtain ⟨hrank, hparams⟩ := Node.find_agree strtod (Node.proper_optimize h.proper) s
  rw [Node.entries_optimize] at hrank hparams
  have hpos : ∀ c ∈ candidates strtod head.entries s, c.1 ≠ 0 := by
    intro c hc
    obtain ⟨e, he, hmap⟩ := List.mem_filterMap.mp hc
    obtain ⟨params, -, rfl⟩ := Option.map_eq_some_iff.mp hmap
    exact hindex e he
  obtain ⟨hzero, hleast⟩ := best_spec RoutingParams.empty hpos
  refine ⟨?_, fun hne => ?_⟩
  · rw [hrank, hzero, candidates, List.filterMap_eq_nil_iff]
    exact forall₂_congr fun e _ => Option.map_eq_none_iff
  · obtain ⟨hmem, hle⟩ := hleast (hrank ▸ hne)
    refine ⟨?_, fun e he haccept => ?_⟩
    · obtain ⟨e, he, hmap⟩ := List.mem_filterMap.mp hmem
      obtain ⟨params, haccept, hbest⟩ := Option.map_eq_some_iff.mp hmap
      refine ⟨e.1, ?_, ?_⟩
      · rw [hrank, ← hbest]
        exact he
      · rw [hparams hne, ← hbest]
        exact haccept
    · obtain ⟨params, haccept⟩ := Option.ne_none_iff_exists'.mp haccept
      rw [hrank]
      exact hle (e.2, params) (List.mem_filterMap.mpr ⟨e, he, by rw [haccept]; rfl⟩)

end Routing

end TypegoSdk.Crow
