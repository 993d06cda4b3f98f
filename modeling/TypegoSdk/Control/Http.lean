import TypegoSdk.Control.Route
import TypegoSdk.Control.Rounds

/-!
# Requests and motions (example/go2/typego_control_interface.cpp)

The whole program: requests arrive as texts, in any order and on several threads,
and the motions they start run side by side. What the robot is told to do has been
asked for by the body of a request. No route calls `cancel()`, so no motion that was
started by a request is ever cancelled.
-/

namespace TypegoSdk.Control
open TypegoSdk.Lib TypegoSdk.Crow
variable {ι K : Type}

/-! ### What a body asks for -/

/-- `direct` are the calls of the robot that return at once, and `answered` the
requests that led to none. -/
structure Http (ι K : Type) where
  server : Server ι K
  direct : List (ι × Call K)
  answered : List (ι × ℕ × String)

/-- `code` is what StopMove returns, if the request leads to it. -/
inductive HttpAct (ι K : Type) where
  | post (i : ι) (body : Bytes) (code : ℤ)
  | run (i : ι) (clock : K) (pose : Pose K)
  | stopReturn

namespace Http
variable [Field K] [LinearOrder K] [DecidableEq ι] (P : Platform) (C : Conversions K) (trig : Trig K)

def init : Http ι K := ⟨.init trig, [], []⟩

def serve (s : Http ι K) (a : Act ι K) : Option (Http ι K) :=
  (s.server.step trig a).map fun server => {s with server := server}

def step (s : Http ι K) : HttpAct ι K → Option (Http ι K)
  | .post i body code =>
    match control P C body with
    | .response c text => some {s with answered := s.answered ++ [(i, c, text)]}
    | .call (.motion r) => s.serve trig (.call i r)
    | .call .stop => s.serve trig (.stopMove code)
    | .call c => some {s with direct := s.direct ++ [(i, c)]}
  | .run i clock pose => s.serve trig (.run i clock pose)
  | .stopReturn => s.serve trig .stopReturn

section Inversion
variable {P C trig} {s s' : Http ι K} {a : HttpAct ι K}

theorem serve_inv {b : Act ι K} (h : s.serve trig b = some s') :
    s.server.step trig b = some s'.server ∧ s'.direct = s.direct := by
  obtain ⟨server, hserver, rfl⟩ := Option.map_eq_some_iff.mp h
  exact ⟨hserver, rfl⟩

/-- A step is one of the server, and a call of it is one that a request named; or it
appends to a list. -/
theorem step_inv (h : s.step P C trig a = some s') :
    (∃ b, s.server.step trig b = some s'.server ∧ s'.direct = s.direct ∧ b ≠ .cancel ∧
        ∀ i r, b = .call i r →
          ∃ body code, a = .post i body code ∧ control P C body = .call (.motion r)) ∨
      s'.server = s.server ∧ (s'.direct = s.direct ∨ ∃ i body code c, a = .post i body code ∧
        control P C body = .call c ∧ s'.direct = s.direct ++ [(i, c)]) := by
  cases a with
  | post i body code =>
    rw [step] at h
    cases hcontrol : control P C body with
    | response c text =>
      simp only [hcontrol, Option.some.injEq] at h
      subst h
      exact .inr ⟨rfl, .inl rfl⟩
    | call c =>
      rw [hcontrol] at h
      cases c with
      | motion r =>
        obtain ⟨hserver, hdirect⟩ := serve_inv h
        refine .inl ⟨_, hserver, hdirect, by simp, fun j r' hcall => ?_⟩
        cases hcall
        exact ⟨body, code, rfl, hcontrol⟩
      | stop =>
        obtain ⟨hserver, hdirect⟩ := serve_inv h
        exact .inl ⟨_, hserver, hdirect, by simp, by simp⟩
      | _ =>
        simp only [Option.some.injEq] at h
        subst h
        exact .inr ⟨rfl, .inr ⟨i, body, code, _, rfl, hcontrol, rfl⟩⟩
  | run i clock pose =>
    obtain ⟨hserver, hdirect⟩ := serve_inv h
    exact .inl ⟨_, hserver, hdirect, by simp, by simp⟩
  | stopReturn =>
    obtain ⟨hserver, hdirect⟩ := serve_inv h
    exact .inl ⟨_, hserver, hdirect, by simp, by simp⟩

end Inversion

/-! ### Nothing is done that was not asked for -/

/-- The motions under way, the events of motions and the other calls of the robot have
been asked for. -/
structure Asked (asks : ι → Call K → Prop) (s : Http ι K) : Prop where
  motion : ∀ i m, s.server.motion i = some m → asks i (.motion m.request)
  event : ∀ i e, .motion i e ∈ s.server.log → ∃ m, s.server.motion i = some m
  direct : ∀ p ∈ s.direct, asks p.1 p.2

theorem Asked.serve {asks : ι → Call K → Prop} {s s' : Http ι K} {b : Act ι K} (hs : Asked asks s)
    (hasks : ∀ i r, b = .call i r → asks i (.motion r)) (h : s.server.step trig b = some s'.server)
    (hdirect : s'.direct = s.direct) : Asked asks s' := by
  -- a table in which an entry has been replaced, and a log with one event more
  have hupdate : ∀ (i : ι) (m : Motion K), asks i (.motion m.request) →
      s'.server.motion = Function.update s.server.motion i (some m) →
      (∀ j e, .motion j e ∈ s'.server.log → .motion j e ∈ s.server.log ∨ j = i) →
      Asked asks s' := by
    intro i m hm hmotion hlog
    refine ⟨fun j m' hj => ?_, fun j e he => ?_, hdirect ▸ hs.direct⟩
    · rw [hmotion] at hj
      rcases update_inv hj with ⟨rfl, rfl⟩ | ⟨-, hj⟩
      · exact hm
      · exact hs.motion j m' hj
    · rw [hmotion]
      by_cases hji : j = i
      · exact ⟨m, by rw [hji, Function.update_self]⟩
      · rw [Function.update_of_ne hji]
        exact hs.event j e ((hlog j e he).resolve_right hji)
  have hsame : s'.server.motion = s.server.motion →
      (∀ j e, .motion j e ∈ s'.server.log → .motion j e ∈ s.server.log) → Asked asks s' := by
    intro hmotion hlog
    exact ⟨hmotion ▸ hs.motion, fun j e he => hmotion ▸ hs.event j e (hlog j e he),
      hdirect ▸ hs.direct⟩
  cases b with
  | call i r =>
    obtain ⟨-, hs'⟩ := Server.call_inv h
    refine hupdate i (.enter r) (hasks i r rfl) (by rw [hs']) fun j e he => ?_
    exact .inl (by simpa [hs'] using he)
  | run i clock pose =>
    obtain ⟨m, o, hm, ho, hs'⟩ := Server.run_inv h
    refine hupdate i o.motion ?_ (by rw [hs']; rfl) fun j e he => ?_
    · rw [next_request ho]
      exact hs.motion i m hm
    · rw [hs', Server.absorb, List.mem_append] at he
      rcases he with he | he
      · exact .inl he
      · cases hev : o.event with
        | none => simp [hev] at he
        | some e' =>
          simp only [hev, Option.map_some, Option.toList_some, List.mem_singleton,
            Event.motion.injEq] at he
          exact .inr he.1
  | cancel =>
    have hs' := (Option.some.inj h).symm
    refine hsame (by rw [hs']) fun j e he => ?_
    simpa [hs'] using he
  | stopMove code =>
    have hs' := Server.stopMove_inv h
    refine hsame (by rw [hs']) fun j e he => ?_
    simpa [hs'] using he
  | stopReturn =>
    obtain ⟨code, -, hs'⟩ := Server.stopReturn_inv h
    refine hsame (by rw [hs']) fun j e he => ?_
    simpa [hs'] using he

theorem Asked.step {asks : ι → Call K → Prop} {s s' : Http ι K} {a : HttpAct ι K}
    (hs : Asked asks s) (hasks : ∀ i body code c, a = .post i body code →
      control P C body = .call c → asks i c) (h : s.step P C trig a = some s') : Asked asks s' := by
  rcases step_inv h with ⟨b, hserver, hdirect, -, hcall⟩ | ⟨hserver, hdirect⟩
  · refine hs.serve trig (fun i r hb => ?_) hserver hdirect
    obtain ⟨body, code, ha, hcontrol⟩ := hcall i r hb
    exact hasks i body code _ ha hcontrol
  · refine ⟨hserver ▸ hs.motion, hserver ▸ hs.event, ?_⟩
    rcases hdirect with hdirect | ⟨i, body, code, c, ha, hcontrol, hdirect⟩
    · exact hdirect ▸ hs.direct
    · rw [hdirect, List.forall_mem_append]
      refine ⟨hs.direct, fun p hp => ?_⟩
      rw [List.mem_singleton.mp hp]
      exact hasks i body code c ha hcontrol

end Http

/-! ### No motion is cancelled -/

/-- A call that is not on its way to be cancelled. -/
structure Motion.Undisturbed (m : Motion K) : Prop where
  moving : m.pc ≠ .cancelMove
  result : ∀ r, m.pc = .returning r → r.1 ≠ .error

section
variable [Field K] [LinearOrder K]

theorem next_undisturbed {trig : Trig K} {m : Motion K} {pids : Controllers K} {clock : K}
    {pose : Pose K} {o : Outcome K} (h : m.next trig false pids clock pose = some o)
    (hm : m.Undisturbed) :
    o.motion.Undisturbed ∧ o.cancelFlag = false ∧
      ∀ r, o.event = some (.returned r) → r.1 ≠ .error := by
  have htimeout : m.request.timedOut.1 ≠ .error := by cases m.request <;> simp [Request.timedOut]
  cases hpc : m.pc with
  | cancelMove => exact absurd hpc hm.moving
  | returning r =>
    simp only [Motion.next, hpc, Option.some.injEq] at h
    subst h
    refine ⟨⟨by simp, by simp⟩, rfl, fun r' hr => ?_⟩
    cases hr
    exact hm.result r hpc
  | guard =>
    simp only [Motion.next, hpc, Option.some.injEq] at h
    subst h
    refine ⟨⟨?_, fun r hr => ?_⟩, rfl, by simp⟩
    · dsimp only
      split <;> simp
    · dsimp only at hr
      split at hr
      · cases hr
      · cases hr
        exact htimeout
  | sample =>
    simp only [Motion.next, hpc, Option.some.injEq] at h
    subst h
    refine ⟨⟨?_, fun r hr => ?_⟩, rfl, by simp⟩
    · dsimp only
      split <;> simp
    · dsimp only at hr
      split at hr
      · cases hr
        simp
      · cases hr
  | done => simp [Motion.next, hpc] at h
  | _ =>
    simp only [Motion.next, hpc, Option.some.injEq] at h
    subst h
    exact ⟨⟨by simp, by simp⟩, rfl, by simp⟩

/-- Nobody has asked for a cancellation, and no call has ended with an error. -/
structure Server.Calm (s : Server ι K) : Prop where
  flag : s.cancelFlag = false
  motion : ∀ i m, s.motion i = some m → m.Undisturbed
  result : ∀ i r, .motion i (.returned r) ∈ s.log → r.1 ≠ .error

theorem Server.Calm.step [DecidableEq ι] {trig : Trig K} {s s' : Server ι K} {b : Act ι K}
    (hs : s.Calm) (hb : b ≠ .cancel) (h : s.step trig b = some s') : s'.Calm := by
  cases b with
  | call i r =>
    obtain ⟨-, rfl⟩ := Server.call_inv h
    refine ⟨hs.flag, fun j m hj => ?_, fun j r' hr => hs.result j r' (by simpa using hr)⟩
    rcases update_inv hj with ⟨rfl, rfl⟩ | ⟨-, hj⟩
    · exact ⟨by simp [Motion.enter], by simp [Motion.enter]⟩
    · exact hs.motion j m hj
  | run i clock pose =>
    obtain ⟨m, o, hm, ho, rfl⟩ := Server.run_inv h
    rw [hs.flag] at ho
    obtain ⟨hund, hflag, hres⟩ := next_undisturbed ho (hs.motion i m hm)
    refine ⟨hflag, fun j m' hj => ?_, fun j r hr => ?_⟩
    · rcases update_inv hj with ⟨rfl, rfl⟩ | ⟨-, hj⟩
      · exact hund
      · exact hs.motion j m' hj
    · rw [Server.absorb, List.mem_append] at hr
      rcases hr with hr | hr
      · exact hs.result j r hr
      · cases hev : o.event with
        | none => simp [hev] at hr
        | some e =>
          simp only [hev, Option.map_some, Option.toList_some, List.mem_singleton,
            Event.motion.injEq] at hr
          exact hres r (by rw [hev, ← hr.2])
  | cancel => exact absurd rfl hb
  | stopMove code =>
    obtain rfl := Server.stopMove_inv h
    exact ⟨hs.flag, hs.motion, fun j r hr => hs.result j r (by simpa using hr)⟩
  | stopReturn =>
    obtain ⟨code, -, rfl⟩ := Server.stopReturn_inv h
    exact ⟨hs.flag, hs.motion, fun j r hr => hs.result j r (by simpa using hr)⟩

theorem Http.calm_step [DecidableEq ι] {P : Platform} {C : Conversions K} {trig : Trig K} {s s' : Http ι K}
    {a : HttpAct ι K} (hs : s.server.Calm) (h : s.step P C trig a = some s') : s'.server.Calm := by
  rcases Http.step_inv h with ⟨b, hserver, -, hb, -⟩ | ⟨hserver, -⟩
  · exact hs.step hb hserver
  · exact hserver ▸ hs

end

end TypegoSdk.Control
