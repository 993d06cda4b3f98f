import TypegoSdk.Lib.Exec

/-!
# A mailbox with one place

`post` puts a message into the place and `take` empties it. With `overwrite`
a post may replace a message that was not taken; without it the place must be
free. `Mailbox overwrite es c` says that the events `es`, from an empty box,
are possible and leave `c`.
-/

namespace TypegoSdk.Lib
variable {α : Type*}

inductive MailEvent (α : Type*) where
  | post (m : α)
  | take (m : α)
  deriving DecidableEq

def posts (es : List (MailEvent α)) : List α := es.filterMap fun
  | .post m => some m
  | .take _ => none

def takes (es : List (MailEvent α)) : List α := es.filterMap fun
  | .post _ => none
  | .take m => some m

inductive Mailbox (overwrite : Bool) : List (MailEvent α) → Option α → Prop
  | empty : Mailbox overwrite [] none
  | post {es : List (MailEvent α)} {c : Option α} (m : α) (h : Mailbox overwrite es c)
      (hc : overwrite = false → c = none) : Mailbox overwrite (es ++ [.post m]) (some m)
  | take {es : List (MailEvent α)} (m : α) (h : Mailbox overwrite es (some m)) :
      Mailbox overwrite (es ++ [.take m]) none

@[simp] theorem posts_post (es : List (MailEvent α)) (m : α) :
    posts (es ++ [.post m]) = posts es ++ [m] := List.filterMap_append
@[simp] theorem posts_take (es : List (MailEvent α)) (m : α) :
    posts (es ++ [.take m]) = posts es :=
  List.filterMap_append.trans (List.append_nil _)
@[simp] theorem takes_post (es : List (MailEvent α)) (m : α) :
    takes (es ++ [.post m]) = takes es :=
  List.filterMap_append.trans (List.append_nil _)
@[simp] theorem takes_take (es : List (MailEvent α)) (m : α) :
    takes (es ++ [.take m]) = takes es ++ [m] := List.filterMap_append

namespace Mailbox
variable {overwrite : Bool} {es : List (MailEvent α)} {c : Option α}

/- What was taken, and then what is in the box, is part of what was posted, in
order. -/
theorem sublist (h : Mailbox overwrite es c) : (takes es ++ c.toList).Sublist (posts es) := by
  induction h with
  | empty => exact List.Sublist.refl _
  | post m _ _ ih =>
    rw [takes_post, posts_post]
    exact ((List.sublist_append_left _ _).trans ih).append (List.Sublist.refl _)
  | take m _ ih =>
    rw [takes_take, posts_take]
    simpa using ih

/- Without overwriting it is all of it. -/
theorem exact (h : Mailbox false es c) : takes es ++ c.toList = posts es := by
  induction h with
  | empty => rfl
  | post m _ hc ih =>
    rw [hc rfl] at ih
    rw [takes_post, posts_post, ← ih]
    simp
  | take m _ ih =>
    rw [takes_take, posts_take, ← ih]
    simp

/- The box holds the last post; when it is empty the last post was taken. -/
theorem last (h : Mailbox overwrite es c) :
    (c = none → (takes es).getLast? = (posts es).getLast?) ∧
      ∀ m, c = some m → (posts es).getLast? = some m := by
  induction h with
  | empty => exact ⟨fun _ => rfl, by simp⟩
  | post m _ _ _ =>
    rw [posts_post]
    exact ⟨by simp, by simp⟩
  | take m _ ih =>
    rw [takes_take, posts_take, ih.2 m rfl]
    exact ⟨by simp, by simp⟩

/- After a post comes its own take, or another post, or nothing. -/
theorem next (h : Mailbox overwrite es c) (before after : List (MailEvent α)) (m : α)
    (he : es = before ++ .post m :: after) :
    after = [] ∧ c = some m ∨ (∃ rest, after = .take m :: rest) ∨
      ∃ m' rest, after = .post m' :: rest := by
  induction h generalizing after with
  | empty => simp at he
  | post x h _ ih =>
    rcases snoc_split he with ⟨rfl, _, hx⟩ | ⟨rest, rfl, hes⟩
    · cases hx
      exact .inl ⟨rfl, rfl⟩
    · rcases ih rest hes with ⟨rfl, _⟩ | ⟨r, rfl⟩ | ⟨m', r, rfl⟩
      · exact .inr (.inr ⟨x, [], rfl⟩)
      · exact .inr (.inl ⟨r ++ [.post x], rfl⟩)
      · exact .inr (.inr ⟨m', r ++ [.post x], rfl⟩)
  | take x h ih =>
    rcases snoc_split he with ⟨_, _, hx⟩ | ⟨rest, rfl, hes⟩
    · cases hx
    · rcases ih rest hes with ⟨rfl, hc⟩ | ⟨r, rfl⟩ | ⟨m', r, rfl⟩
      · cases hc
        exact .inr (.inl ⟨[], rfl⟩)
      · exact .inr (.inl ⟨r ++ [.take x], rfl⟩)
      · exact .inr (.inr ⟨m', r ++ [.take x], rfl⟩)

/- A take comes right after the post of the same message. -/
theorem latest (h : Mailbox overwrite es c) (before after : List (MailEvent α)) (m : α)
    (he : es = before ++ .take m :: after) : ∃ first, before = first ++ [.post m] := by
  induction h generalizing after with
  | empty => simp at he
  | post x h _ ih =>
    rcases snoc_split he with ⟨_, _, hx⟩ | ⟨rest, _, hes⟩
    · cases hx
    · exact ih rest hes
  | take x h ih =>
    rcases snoc_split he with ⟨_, rfl, hx⟩ | ⟨rest, _, hes⟩
    · cases hx
      cases h with
      | post => exact ⟨_, rfl⟩
    · exact ih rest hes

end Mailbox

end TypegoSdk.Lib
