import TypegoSdk.Control.Http
import TypegoSdk.Crow.Router

/-!
# The site of the control interface (example/go2/typego_control_interface.cpp, main)

Three routes are registered, and every request goes through the router. A request
reaches the robot only as a POST of `/control`.
-/

namespace TypegoSdk.Control
open TypegoSdk.Lib TypegoSdk.Crow TypegoSdk.Crow.Routing

variable {ι K : Type}

/-! ### The routes -/

def readyRule : Rule := ⟨bytes "/", [.get]⟩

def controlRule : Rule := ⟨bytes "/control", [.post]⟩

def stateRule : Rule := ⟨bytes "/state", [.get]⟩

def siteRules : List Rule := [readyRule, controlRule, stateRule]

def siteRouter : Router :=
  .ofRules siteRules (by decide) (by
    intro m
    cases m <;> rfl)

/-- A request, with what StopMove returns and what `/state` writes, if the request leads to it; the
steps of the motions. -/
inductive SiteAct (ι K : Type) where
  | request (i : ι) (m : Method) (url body : Bytes) (code : ℤ) (state : String)
  | run (i : ι) (clock : K) (pose : Pose K)
  | stopReturn

namespace Site
variable [Field K] [LinearOrder K] [DecidableEq ι] {δ : Type} (strtod : Bytes → Option (δ × Bytes))
  (P : Platform) (C : Conversions K) (trig : Trig K)

/- What the route does: the text of `/`, the handler of `/control`, the position of `/state`. -/
def route (s : Http ι K) (i : ι) (r : Rule) (body : Bytes) (code : ℤ) (state : String) :
    Option (Http ι K) :=
  if r.url = controlRule.url then s.step P C trig (.post i body code)
  else if r.url = readyRule.url then
    some {s with answered := s.answered ++ [(i, 200, "Go2 control interface is ready!")]}
  else some {s with answered := s.answered ++ [(i, 200, state)]}

def step (s : Http ι K) : SiteAct ι K → Option (Http ι K)
  | .request i m url body code state =>
    match siteRouter.serve strtod m url with
    | .run r _ _ => route P C trig s i r body code state
    | .response c _ => some {s with answered := s.answered ++ [(i, c, "")]}
    | .redirect _ => some {s with answered := s.answered ++ [(i, 301, "")]}
    | .corrupted => none
  | .run i clock pose => s.step P C trig (.run i clock pose)
  | .stopReturn => s.step P C trig .stopReturn

def after (acts : List (SiteAct ι K)) : Http ι K := exec (step strtod P C trig) (.init trig) acts

/-! ### Which requests reach the robot -/

theorem serve_control {m : Method} {url : Bytes} {r : Rule} {params : RoutingParams δ} {skipBody : Bool}
    (h : siteRouter.serve strtod m url = .run r params skipBody) (hr : r.url = controlRule.url) :
    m = .post ∧ url = bytes "/control" := by
  obtain ⟨i, hi, hmem, htakes⟩ := siteRouter.serve_run strtod h
  obtain ⟨hrule, hmethod⟩ := List.mem_filter.mp hmem
  have hcases : r = readyRule ∨ r = controlRule ∨ r = stateRule := by
    simpa [siteRouter, Router.ofRules, siteRules] using hrule
  rcases hcases with rfl | rfl | rfl
  · exact absurd hr (by decide)
  · obtain rfl : i = .post := by simpa [controlRule] using hmethod
    rcases hi with rfl | ⟨-, hget⟩
    · exact ⟨rfl, ((Rule.takes_plain strtod (by decide)).mp htakes).1⟩
    · cases hget
  · exact absurd hr (by decide)

/-- A step does not touch the robot, or is one of the handler of `/control`. -/
theorem step_inv {s s' : Http ι K} {a : SiteAct ι K} (h : step strtod P C trig s a = some s') :
    (∃ b, s.step P C trig b = some s' ∧
      ∀ i body code, b = .post i body code →
        ∃ state, a = .request i .post (bytes "/control") body code state) ∨
    (s'.server = s.server ∧ s'.direct = s.direct) := by
  cases a with
  | request i m url body code state =>
    rw [step] at h
    cases hserve : siteRouter.serve strtod m url with
    | run r params skipBody =>
      rw [hserve] at h
      by_cases hr : r.url = controlRule.url
      · obtain ⟨rfl, rfl⟩ := serve_control strtod hserve hr
        simp only [route, if_pos hr] at h
        refine .inl ⟨_, h, fun j body' code' hpost => ?_⟩
        cases hpost
        exact ⟨state, rfl⟩
      · simp only [route, if_neg hr] at h
        split at h <;> cases h <;> exact .inr ⟨rfl, rfl⟩
    | response c allow =>
      rw [hserve] at h
      cases h
      exact .inr ⟨rfl, rfl⟩
    | redirect location =>
      rw [hserve] at h
      cases h
      exact .inr ⟨rfl, rfl⟩
    | corrupted =>
      rw [hserve] at h
      cases h
  | run i clock pose => exact .inl ⟨.run i clock pose, h, fun _ _ _ heq => (by cases heq)⟩
  | stopReturn => exact .inl ⟨.stopReturn, h, fun _ _ _ heq => (by cases heq)⟩

/-- Whatever requests arrive, the flag that cancels a motion is never set, and no motion
answers with an error: it reaches its target or times out. -/
theorem never_cancelled (acts : List (SiteAct ι K)) :
    (after strtod P C trig acts).server.cancelFlag = false ∧
      ∀ i r, .motion i (.returned r) ∈ (after strtod P C trig acts).server.log → r.1 ≠ .error := by
  have hrun : (after strtod P C trig acts).server.Calm := by
    refine exec_invariant _ (fun s : Http ι K => s.server.Calm) ?_ _ ?_ acts
    · intro s a s' hs hstep
      rcases step_inv strtod P C trig hstep with ⟨b, hb, -⟩ | ⟨hserver, -⟩
      · exact Http.calm_step hs hb
      · exact hserver ▸ hs
    · exact ⟨rfl, fun _ _ h => (by cases h), fun _ _ h => (by cases h)⟩
  exact ⟨hrun.flag, hrun.result⟩

end Site

end TypegoSdk.Control
