import Mathlib.Data.List.Basic
import Mathlib.Algebra.Order.Monoid.Defs
import Mathlib.Data.List.Induction
import Mathlib.Logic.Function.Basic

/-!
# Executions of interleaved programs

A system of threads is a partial step function: an action names a thread and
the choices the environment makes for it, and `none` means that the thread
cannot move now. A schedule is a list of actions; an action that cannot be
taken leaves the state as it is, so every list of actions is a schedule.
-/

namespace TypegoSdk.Lib
variable {S A : Type*} (step : S → A → Option S)

def advance (s : S) (a : A) : S := (step s a).getD s

def exec (s : S) (acts : List A) : S := acts.foldl (advance step) s

theorem advance_some {s t : S} {a : A} (h : step s a = some t) : advance step s a = t := by
  simp only [advance, h, Option.getD_some]

theorem advance_none {s : S} {a : A} (h : step s a = none) : advance step s a = s := by
  simp only [advance, h, Option.getD_none]

@[simp] theorem exec_nil (s : S) : exec step s [] = s := rfl

@[simp] theorem exec_cons (s : S) (a : A) (acts : List A) :
    exec step s (a :: acts) = exec step (advance step s a) acts := rfl

theorem exec_append (s : S) (as bs : List A) :
    exec step s (as ++ bs) = exec step (exec step s as) bs := List.foldl_append

/- What every step preserves holds along every schedule. -/
theorem exec_invariant (I : S → Prop) (hstep : ∀ s a t, I s → step s a = some t → I t)
    (s : S) (hs : I s) (acts : List A) : I (exec step s acts) := by
  induction acts generalizing s with
  | nil => exact hs
  | cons a acts ih =>
    cases ha : step s a with
    | none =>
      rw [exec_cons, advance_none step ha]
      exact ih s hs
    | some t =>
      rw [exec_cons, advance_some step ha]
      exact ih t (hstep s a t hs ha)

/- A condition at every occurrence of `c`, on what stands before it. -/
theorem split_cons {P : List A → Prop} {a c : A} {as : List A} :
    (∀ pre post, a :: as = pre ++ c :: post → P pre) ↔
      (a = c → P []) ∧ ∀ pre post, as = pre ++ c :: post → P (a :: pre) := by
  constructor
  · intro h
    refine ⟨fun hac => h [] as (by rw [hac]; rfl), fun pre post has => ?_⟩
    exact h (a :: pre) post (by rw [has]; rfl)
  · rintro ⟨hnil, hcons⟩ pre post hsplit
    cases pre with
    | nil => exact hnil (List.cons.inj hsplit).1
    | cons b pre =>
      obtain ⟨rfl, has⟩ := List.cons.inj hsplit
      exact hcons pre post has

/- Every action taken along the schedule is taken in a state that allows it. -/
def Along (ok : S → A → Prop) : S → List A → Prop
  | _, [] => True
  | s, a :: acts => ((step s a).isSome → ok s a) ∧ Along ok (advance step s a) acts

instance decidableAlong (ok : S → A → Prop) [∀ s a, Decidable (ok s a)] :
    (s : S) → (acts : List A) → Decidable (Along step ok s acts)
  | _, [] => .isTrue trivial
  | s, a :: acts =>
    have := decidableAlong ok (advance step s a) acts
    inferInstanceAs (Decidable (((step s a).isSome → ok s a) ∧ _))

theorem along_append (ok : S → A → Prop) (s : S) (as bs : List A) :
    Along step ok s (as ++ bs) ↔ Along step ok s as ∧ Along step ok (exec step s as) bs := by
  induction as generalizing s with
  | nil => simp [Along]
  | cons a as ih => simp only [List.cons_append, Along, exec_cons, ih, and_assoc]

theorem along_mono {ok ok' : S → A → Prop} (h : ∀ s a, ok s a → ok' s a) (s : S) (acts : List A)
    (ha : Along step ok s acts) : Along step ok' s acts := by
  induction acts generalizing s with
  | nil => trivial
  | cons a acts ih => exact ⟨fun hs => h s a (ha.1 hs), ih _ ha.2⟩

theorem along_of_forall (ok : A → Prop) (s : S) (acts : List A) (h : ∀ a ∈ acts, ok a) :
    Along step (fun _ a => ok a) s acts := by
  induction acts generalizing s with
  | nil => trivial
  | cons a acts ih =>
    exact ⟨fun _ => h a (List.mem_cons_self ..),
      ih _ fun b hb => h b (List.mem_cons_of_mem _ hb)⟩

/- Two conditions that agree as long as they are met allow the same schedules. -/
theorem along_congr {ok ok' : S → A → Prop} (I : S → Prop)
    (hiff : ∀ s a t, I s → step s a = some t → (ok s a ↔ ok' s a))
    (hstep : ∀ s a t, I s → ok' s a → step s a = some t → I t)
    (s : S) (hs : I s) (acts : List A) : Along step ok s acts ↔ Along step ok' s acts := by
  induction acts generalizing s with
  | nil => exact Iff.rfl
  | cons a acts ih =>
    cases ha : step s a with
    | none => simp [Along, ha, advance_none step ha, ih s hs]
    | some t =>
      simp only [Along, ha, advance_some step ha, Option.isSome_some, forall_const, hiff s a t hs ha]
      exact and_congr_right fun hok => ih t (hstep s a t hs hok ha)

/- `exec_invariant` with a condition on the steps taken. -/
theorem exec_invariant_along (ok : S → A → Prop) (I : S → Prop)
    (hstep : ∀ s a t, I s → ok s a → step s a = some t → I t)
    (s : S) (hs : I s) (acts : List A) (ha : Along step ok s acts) : I (exec step s acts) := by
  induction acts generalizing s with
  | nil => exact hs
  | cons a acts ih =>
    cases hst : step s a with
    | none =>
      have hr := ha.2
      rw [advance_none step hst] at hr
      rw [exec_cons, advance_none step hst]
      exact ih s hs hr
    | some t =>
      have hr := ha.2
      rw [advance_some step hst] at hr
      rw [exec_cons, advance_some step hst]
      exact ih t (hstep s a t hs (ha.1 (by simp [hst])) hst) hr

/- How many of the actions taken are taken where `p` holds. -/
def tally (p : S → A → Bool) : S → List A → ℕ
  | _, [] => 0
  | s, a :: acts => (if (step s a).isSome && p s a then 1 else 0) + tally p (advance step s a) acts

/- A quantity that grows by at most `d` where `p` holds, and not elsewhere,
has grown by at most `d` times the tally. -/
theorem exec_grows {M : Type*} [AddCommMonoid M] [PartialOrder M] [IsOrderedAddMonoid M]
    (p : S → A → Bool) (I : S → Prop) (hI : ∀ s a t, I s → step s a = some t → I t) (f : S → M) (d : M)
    (hf : ∀ s a t, I s → step s a = some t → f t ≤ f s + if p s a then d else 0)
    (s : S) (hs : I s) (acts : List A) : f (exec step s acts) ≤ f s + tally step p s acts • d := by
  induction acts generalizing s with
  | nil => simp [tally]
  | cons a acts ih =>
    cases ha : step s a with
    | none =>
      rw [exec_cons, tally, advance_none step ha, ha]
      simpa using ih s hs
    | some t =>
      rw [exec_cons, tally, advance_some step ha, ha]
      have hrest := ih t (hI s a t hs ha)
      have hstep := hf s a t hs ha
      cases hp : p s a with
      | false =>
        rw [hp] at hstep
        simpa using hrest.trans (add_le_add_left (by simpa using hstep) _)
      | true =>
        rw [hp, if_pos rfl] at hstep
        calc f (exec step t acts) ≤ f t + tally step p t acts • d := hrest
          _ ≤ f s + d + tally step p t acts • d := add_le_add_left hstep _
          _ = f s + (1 + tally step p t acts) • d := by rw [add_nsmul, one_nsmul, add_assoc]

/-! ### Tables of threads -/

/- An entry of an updated table is the new one, or one of another thread. -/
theorem update_inv {I T : Type*} [DecidableEq I] {f : I → Option T} {i j : I} {t t' : T}
    (h : Function.update f i (some t) j = some t') :
    (j = i ∧ t' = t) ∨ (j ≠ i ∧ f j = some t') := by
  by_cases hji : j = i
  · subst hji
    rw [Function.update_self] at h
    exact .inl ⟨rfl, (Option.some.inj h).symm⟩
  · rw [Function.update_of_ne hji] at h
    exact .inr ⟨hji, h⟩

/-! ### Logs -/

/- Where an element of a log that grew by one event stands. -/
theorem snoc_split {E : Type*} {log before after : List E} {x y : E}
    (h : log ++ [x] = before ++ y :: after) :
    (after = [] ∧ log = before ∧ x = y) ∨
      ∃ rest, after = rest ++ [x] ∧ log = before ++ y :: rest := by
  cases after using List.reverseRecOn with
  | nil =>
    obtain ⟨hlog, hx⟩ := List.append_inj' h rfl
    exact .inl ⟨rfl, hlog, List.singleton_inj.mp hx⟩
  | append_singleton rest z =>
    rw [← List.cons_append, ← List.append_assoc] at h
    obtain ⟨hlog, hx⟩ := List.append_inj' h rfl
    rw [List.singleton_inj.mp hx]
    exact .inr ⟨rest, rfl, hlog⟩

end TypegoSdk.Lib
