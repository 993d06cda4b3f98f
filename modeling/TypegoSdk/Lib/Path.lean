import Mathlib.Data.List.Induction
import Mathlib.Data.List.Basic

/-!
# Lexical resolution of paths

A path is a list of moves in a tree of directories: stay, go up, or go down to
a name. The directory that a walk ends in is given by the walk's route: how far
it climbs, and the names it then goes down.
-/

namespace TypegoSdk.Lib
variable {α : Type*}

inductive Move (α : Type*) where
  | stay
  | up
  | down (name : α)

/-- A directory is the names from the root to it; the root is its own parent. -/
def Move.apply (dir : List α) : Move α → List α
  | .stay => dir
  | .up => dir.dropLast
  | .down name => dir ++ [name]

def walk (dir : List α) (moves : List (Move α)) : List α := moves.foldl Move.apply dir

@[simp] theorem walk_nil (dir : List α) : walk dir [] = dir := rfl

theorem walk_append (dir : List α) (as bs : List (Move α)) :
    walk dir (as ++ bs) = walk (walk dir as) bs := List.foldl_append

structure Route (α : Type*) where
  climb : ℕ
  names : List α

def Route.extend (r : Route α) : Move α → Route α
  | .stay => r
  | .up =>
    match r.names with
    | [] => ⟨r.climb + 1, []⟩
    | name :: names => ⟨r.climb, (name :: names).dropLast⟩
  | .down name => ⟨r.climb, r.names ++ [name]⟩

def route (moves : List (Move α)) : Route α := moves.foldl Route.extend ⟨0, []⟩

theorem walk_route (dir : List α) (moves : List (Move α)) :
    walk dir moves = dir.take (dir.length - (route moves).climb) ++ (route moves).names := by
  induction moves using List.reverseRecOn with
  | nil => simp [route]
  | append_singleton moves m ih =>
    have hroute : route (moves ++ [m]) = (route moves).extend m := by
      rw [route, List.foldl_append]
      rfl
    have hwalk : walk dir (moves ++ [m]) = m.apply (walk dir moves) := by
      rw [walk_append]
      rfl
    rw [hroute, hwalk, ih]
    cases m with
    | stay => rfl
    | down name => exact List.append_assoc ..
    | up =>
      cases hn : (route moves).names with
      | nil =>
        -- nothing to go back from: one directory of `dir` is given up
        simp only [Move.apply, Route.extend, hn, List.append_nil, List.dropLast_eq_take,
          List.length_take, List.take_take]
        congr 1
        omega
      | cons name names =>
        simp only [Move.apply, Route.extend, hn]
        exact List.dropLast_append_of_ne_nil (List.cons_ne_nil name names)

/-! ### Paths as text -/

def moveOf (component : List Char) : Move (List Char) :=
  if component = [] ∨ component = ['.'] then .stay
  else if component = ['.', '.'] then .up
  else .down component

def pathMoves (path : List Char) : List (Move (List Char)) := (path.splitOn '/').map moveOf

/- The directory or file of an absolute path. -/
def resolvePath (path : List Char) : List (List Char) := walk [] (pathMoves path)

theorem pathMoves_append (as bs : List Char) :
    pathMoves (as ++ '/' :: bs) = pathMoves as ++ pathMoves bs := by
  have h := @List.splitOnP_append_cons _ (· == '/') as bs '/' (by simp)
  simp only [pathMoves, List.splitOn, h, List.map_append]

theorem resolvePath_append (as bs : List Char) :
    resolvePath (as ++ '/' :: bs) = walk (resolvePath as) (pathMoves bs) := by
  rw [resolvePath, pathMoves_append, walk_append]
  rfl

end TypegoSdk.Lib
