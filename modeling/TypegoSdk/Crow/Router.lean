import TypegoSdk.Crow.Trie

/-!
# The router (include/crow/routing.h, class Router)

Each method has its rules and a trie of their urls, which `validate` builds and
optimizes. A url with a slash at its end is also added without it, for a redirection.
`handle_initial` looks for the rule of a request and `handle` runs it.
-/

namespace TypegoSdk.Crow
open TypegoSdk.Lib

namespace Routing

/-! ### Building -/

inductive Method where
  | delete | get | head | post | put | connect | options | trace | patch | purge | copy | lock | mkCol
  | move | propfind | proppatch | search | unlock | bind | rebind | unbind | acl | report | mkActivity
  | checkout | merge | mSearch | notify | subscribe | unsubscribe | mkCalendar | link | unlink | source
  deriving DecidableEq

def Method.all : List Method :=
  [.delete, .get, .head, .post, .put, .connect, .options, .trace, .patch, .purge, .copy, .lock, .mkCol,
    .move, .propfind, .proppatch, .search, .unlock, .bind, .rebind, .unbind, .acl, .report, .mkActivity,
    .checkout, .merge, .mSearch, .notify, .subscribe, .unsubscribe, .mkCalendar, .link, .unlink, .source]

structure Rule where
  url : Bytes
  methods : List Method

def Rule.hasTrailingSlash (r : Rule) : Bool :=
  1 < r.url.length ∧ r.url.getLast? = some '/'.toUInt8

def ruleSpecialRedirectSlash : ℕ := 1

/-- The rules of a method, behind two places of special meaning. -/
structure PerMethod where
  rules : List Rule
  trie : Node

def parse (url : Bytes) : Option (List Piece) := pieces url.length url

namespace PerMethod

def init : PerMethod := ⟨[], .mk 0 [] none []⟩

/- `internal_add_rule_object` for one method. The index is that of the last place. -/
def addRule (p : PerMethod) (r : Rule) : Option PerMethod := do
  let pattern ← parse r.url
  let trie ← p.trie.add (2 + p.rules.length) pattern
  if r.hasTrailingSlash then
    let bare ← parse r.url.dropLast
    let trie ← trie.add ruleSpecialRedirectSlash bare
    some ⟨p.rules ++ [r], trie⟩
  else some ⟨p.rules ++ [r], trie⟩

def validate (p : PerMethod) : Option PerMethod :=
  if p.trie.isSimpleNode then some ⟨p.rules, p.trie.optimize⟩ else none

end PerMethod

def buildMethod (m : Method) (rules : List Rule) : Option PerMethod :=
  ((rules.filter (m ∈ ·.methods)).foldlM PerMethod.addRule .init).bind PerMethod.validate

/-- A router that has been validated without an exception. -/
structure Router where
  allRules : List Rule
  noZero : ∀ r ∈ allRules, 0 ∉ r.url
  perMethod : Method → PerMethod
  valid : ∀ m, buildMethod m allRules = some (perMethod m)

/-! ### Serving a request -/

/-- What `handle_initial` decides: a response, with the methods of its Allow header, or a rule of
a method. -/
inductive Initial (δ : Type) where
  | response (code : ℕ) (allow : List Method)
  | found (method : Method) (ruleIndex : ℕ) (params : RoutingParams δ) (skipBody : Bool)

inductive Served (δ : Type) where
  | response (code : ℕ) (allow : List Method)
  | redirect (location : Bytes)
  | corrupted
  | run (r : Rule) (params : RoutingParams δ) (skipBody : Bool)

namespace Router
variable {δ : Type} (strtod : Bytes → Option (δ × Bytes)) (router : Router)

def find (m : Method) (url : Bytes) : ℕ × RoutingParams δ :=
  (router.perMethod m).trie.find strtod (url, .empty)

def handleInitial (m : Method) (url : Bytes) : Initial δ :=
  match m with
  | .head =>
    let found := router.find strtod .head url
    if found.1 ≠ 0 then .found .head found.1 found.2 true
    else
      let found := router.find strtod .get url
      if found.1 ≠ 0 then .found .get found.1 found.2 true else .response 404 []
  | .options =>
    if url = bytes "/*" then
      .response 204 ([.options, .head] ++ Method.all.filter fun i =>
        i ≠ .head ∧ !(router.perMethod i).trie.children.isEmpty)
    else
      let matched := Method.all.filter fun i => (router.find strtod i url).1 ≠ 0
      if matched ≠ [] then .response 204 ([.options, .head] ++ matched.filter (· ≠ .head))
      else .response 404 []
  | m =>
    let found := router.find strtod m url
    if found.1 ≠ 0 then .found m found.1 found.2 false
    else if Method.all.any fun i => (router.find strtod i url).1 ≠ 0 then .response 405 []
    else .response 404 []

def handle (m : Method) (url : Bytes) (ruleIndex : ℕ) (params : RoutingParams δ) (skipBody : Bool) :
    Served δ :=
  if 2 + (router.perMethod m).rules.length ≤ ruleIndex then .corrupted
  else if ruleIndex = ruleSpecialRedirectSlash then .redirect (url ++ bytes "/")
  else
    match (router.perMethod m).rules[ruleIndex - 2]? with
    | none => .corrupted
    | some r => .run r params skipBody

def serve (m : Method) (url : Bytes) : Served δ :=
  match router.handleInitial strtod m url with
  | .response code allow => .response code allow
  | .found m ruleIndex params skipBody => router.handle m url ruleIndex params skipBody

end Router

/-! ### What a built method says -/

theorem parse_no_zero {fuel : ℕ} {url : Bytes} {pattern : List Piece}
    (h : pieces fuel url = some pattern) (hzero : 0 ∉ url) : ∀ q ∈ pattern, q ≠ .char 0 := by
  induction fuel generalizing url pattern with
  | zero =>
    cases url with
    | nil =>
      cases h
      exact fun q hq => by cases hq
    | cons c url => cases h
  | succ fuel ih =>
    cases url with
    | nil =>
      cases h
      exact fun q hq => by cases hq
    | cons c url =>
      rw [pieces] at h
      split at h
      · split at h
        · cases h
        · next x hx =>
          obtain ⟨rest, hrest, rfl⟩ := Option.map_eq_some_iff.mp h
          intro q hq
          rcases List.mem_cons.mp hq with rfl | hq
          · exact nofun
          · exact ih hrest (fun hmem => hzero (List.mem_of_mem_drop hmem)) q hq
      · obtain ⟨rest, hrest, rfl⟩ := Option.map_eq_some_iff.mp h
        rw [List.mem_cons, not_or] at hzero
        intro q hq
        rcases List.mem_cons.mp hq with rfl | hq
        · exact fun heq => hzero.1 (Piece.char.inj heq).symm
        · exact ih hrest hzero.2 q hq

/- The pattern is that of the rule in place `k`. -/
def Stands (rules : List Rule) (pattern : List Piece) (k : ℕ) : Prop :=
  ∃ i r, rules[i]? = some r ∧ k = 2 + i ∧ parse r.url = some pattern

/- The pattern is that of a rule, without the slash at its end. -/
def Redirects (rules : List Rule) (pattern : List Piece) : Prop :=
  ∃ r ∈ rules, r.hasTrailingSlash = true ∧ parse r.url.dropLast = some pattern

theorem stands_snoc {rules : List Rule} {r : Rule} {pattern : List Piece} {k : ℕ} :
    Stands (rules ++ [r]) pattern k ↔
      (k = 2 + rules.length ∧ parse r.url = some pattern) ∨ Stands rules pattern k := by
  constructor
  · rintro ⟨i, q, hq, rfl, hpattern⟩
    by_cases hi : i < rules.length
    · rw [List.getElem?_append_left hi] at hq
      exact .inr ⟨i, q, hq, rfl, hpattern⟩
    · have hlast : i = rules.length := by
        have hbound := (List.getElem?_eq_some_iff.mp hq).1
        rw [List.length_append, List.length_singleton] at hbound
        omega
      subst hlast
      rw [List.getElem?_concat_length] at hq
      cases hq
      exact .inl ⟨rfl, hpattern⟩
  · rintro (⟨rfl, hpattern⟩ | ⟨i, q, hq, rfl, hpattern⟩)
    · exact ⟨_, r, List.getElem?_concat_length, rfl, hpattern⟩
    · refine ⟨i, q, ?_, rfl, hpattern⟩
      rw [List.getElem?_append_left (List.getElem?_eq_some_iff.mp hq).1]
      exact hq

theorem redirects_snoc {rules : List Rule} {r : Rule} {pattern : List Piece} :
    Redirects (rules ++ [r]) pattern ↔
      (r.hasTrailingSlash = true ∧ parse r.url.dropLast = some pattern) ∨ Redirects rules pattern := by
  constructor
  · rintro ⟨q, hq, h⟩
    rcases List.mem_append.mp hq with hq | hq
    · exact .inr ⟨q, hq, h⟩
    · exact .inl (List.mem_singleton.mp hq ▸ h)
  · rintro (h | ⟨q, hq, h⟩)
    · exact ⟨r, by simp, h⟩
    · exact ⟨q, List.mem_append_left _ hq, h⟩

/-- The trie has the rules with their places, and the redirections. -/
structure PerMethod.Good (p : PerMethod) : Prop where
  plain : p.trie.Plain
  entries : ∀ pattern k, (pattern, k) ∈ p.trie.entries ↔
    (k = ruleSpecialRedirectSlash ∧ Redirects p.rules pattern) ∨ Stands p.rules pattern k

theorem PerMethod.init_good : PerMethod.init.Good := by
  refine ⟨⟨trivial, List.nodup_nil⟩, fun pattern k => ⟨fun h => (by cases h), ?_⟩⟩
  rintro (⟨-, r, hr, -⟩ | ⟨i, r, hr, -⟩)
  · cases hr
  · cases hr

theorem PerMethod.Good.addRule {p p' : PerMethod} {r : Rule} (hp : p.Good) (hzero : 0 ∉ r.url)
    (h : p.addRule r = some p') : p'.Good ∧ p'.rules = p.rules ++ [r] := by
  obtain ⟨pattern, hpattern, h⟩ := Option.bind_eq_some_iff.mp h
  obtain ⟨trie, htrie, h⟩ := Option.bind_eq_some_iff.mp h
  have hadded := (Node.add_added (by omega) (parse_no_zero hpattern hzero) hp.plain).1 trie htrie
  -- the rule itself, in the next place
  have hrule : ∀ pat k, (pat, k) ∈ trie.entries ↔
      (k = ruleSpecialRedirectSlash ∧ Redirects p.rules pat) ∨ Stands (p.rules ++ [r]) pat k := by
    intro pat k
    rw [hadded.entries.mem_iff, List.mem_cons, hp.entries, Prod.mk.injEq, stands_snoc, hpattern,
      Option.some.injEq, or_left_comm, eq_comm (a := pattern), and_comm (a := pat = pattern)]
  split at h
  · next hslash =>
    obtain ⟨bare, hbare, h⟩ := Option.bind_eq_some_iff.mp h
    obtain ⟨trie', htrie', h⟩ := Option.bind_eq_some_iff.mp h
    cases h
    have hzero' : 0 ∉ r.url.dropLast := fun hmem => hzero ((List.dropLast_sublist r.url).mem hmem)
    have hadded' :=
      (Node.add_added (by decide) (parse_no_zero hbare hzero') hadded.plain).1 trie' htrie'
    refine ⟨⟨hadded'.plain, fun pat k => ?_⟩, rfl⟩
    rw [hadded'.entries.mem_iff, List.mem_cons, hrule, Prod.mk.injEq, redirects_snoc, hbare,
      Option.some.injEq, ← or_assoc, and_or_left, eq_comm (a := bare), and_comm (a := pat = bare)]
    simp only [hslash, true_and]
  · next hslash =>
    cases h
    refine ⟨⟨hadded.plain, fun pat k => ?_⟩, rfl⟩
    rw [hrule, redirects_snoc]
    simp only [hslash, Bool.false_eq_true, false_and, false_or]

theorem foldlM_good {rules : List Rule} {p p' : PerMethod} (hp : p.Good)
    (hzero : ∀ r ∈ rules, 0 ∉ r.url) (h : rules.foldlM PerMethod.addRule p = some p') :
    p'.Good ∧ p'.rules = p.rules ++ rules := by
  induction rules generalizing p with
  | nil =>
    cases h
    exact ⟨hp, (List.append_nil _).symm⟩
  | cons r rules ih =>
    rw [List.foldlM_cons] at h
    obtain ⟨q, hq, h⟩ := Option.bind_eq_some_iff.mp h
    obtain ⟨hgood, hrules⟩ := hp.addRule (hzero r (List.mem_cons_self ..)) hq
    obtain ⟨hgood', hrules'⟩ := ih hgood (fun s hs => hzero s (List.mem_cons_of_mem _ hs)) h
    refine ⟨hgood', ?_⟩
    rw [hrules', hrules, List.append_assoc]
    rfl

theorem PerMethod.Good.index_ne_zero {p : PerMethod} (h : p.Good) : ∀ e ∈ p.trie.entries, e.2 ≠ 0 := by
  intro e he
  rcases (h.entries e.1 e.2).mp he with ⟨hk, -⟩ | ⟨i, r, -, hk, -⟩
  · rw [hk]
    decide
  · omega

/-! ### What a router serves -/

section
variable {δ : Type} (strtod : Bytes → Option (δ × Bytes))

/-- The rule takes the url, with these parameters. -/
def Rule.Takes (r : Rule) (url : Bytes) (params : RoutingParams δ) : Prop :=
  ∃ pattern, parse r.url = some pattern ∧ accept strtod pattern (url, .empty) = some params

/-- The rule would take the url with a slash behind it. -/
def Rule.Misses (r : Rule) (url : Bytes) : Prop :=
  r.hasTrailingSlash = true ∧
    ∃ pattern params, parse r.url.dropLast = some pattern ∧ accept strtod pattern (url, .empty) = some params

namespace Router
variable (router : Router)

def rulesFor (m : Method) : List Rule := router.allRules.filter (m ∈ ·.methods)

theorem perMethod_built (m : Method) :
    ∃ p : PerMethod, p.Good ∧ p.rules = router.rulesFor m ∧
      router.perMethod m = ⟨router.rulesFor m, p.trie.optimize⟩ := by
  obtain ⟨p, hp, hvalidate⟩ := Option.bind_eq_some_iff.mp (router.valid m)
  obtain ⟨hgood, hrules⟩ := foldlM_good PerMethod.init_good
    (fun r hr => router.noZero r (List.mem_of_mem_filter hr)) hp
  refine ⟨p, hgood, hrules, ?_⟩
  rw [PerMethod.validate] at hvalidate
  split at hvalidate
  · rw [← Option.some.inj hvalidate, hrules]
    rfl
  · cases hvalidate

/- Nothing is found if and only if no rule takes the url or would with a slash. -/
theorem find_none {m : Method} {url : Bytes} :
    (router.find strtod m url).1 = 0 ↔
      ∀ r ∈ router.rulesFor m, (∀ params, ¬ r.Takes strtod url params) ∧ ¬ r.Misses strtod url := by
  obtain ⟨p, hgood, hrules, hper⟩ := router.perMethod_built m
  have hzero := (Node.find_optimize strtod hgood.plain hgood.index_ne_zero (url, .empty)).1
  rw [find, hper, hzero]
  constructor
  · intro hnone r hr
    refine ⟨?_, ?_⟩
    · rintro params ⟨pattern, hparse, haccept⟩
      obtain ⟨i, hi, rfl⟩ := List.mem_iff_getElem.mp hr
      have hmem : (pattern, 2 + i) ∈ p.trie.entries := by
        refine (hgood.entries _ _).mpr (.inr ⟨i, _, ?_, rfl, hparse⟩)
        rw [hrules]
        exact List.getElem?_eq_getElem hi
      rw [hnone _ hmem] at haccept
      cases haccept
    · rintro ⟨hslash, pattern, params, hparse, haccept⟩
      have hmem : (pattern, ruleSpecialRedirectSlash) ∈ p.trie.entries :=
        (hgood.entries _ _).mpr (.inl ⟨rfl, r, hrules ▸ hr, hslash, hparse⟩)
      rw [hnone _ hmem] at haccept
      cases haccept
  · intro hno e he
    cases haccept : accept strtod e.1 (url, .empty) with
    | none => rfl
    | some params =>
      rcases (hgood.entries e.1 e.2).mp he with ⟨-, r, hr, hslash, hparse⟩ | ⟨i, r, hr, -, hparse⟩
      · exact absurd ⟨hslash, e.1, params, hparse, haccept⟩ (hno r (hrules ▸ hr)).2
      · have hmem : r ∈ router.rulesFor m := hrules ▸ List.mem_of_getElem? hr
        exact absurd ⟨e.1, hparse, haccept⟩ ((hno r hmem).1 params)

/-- What is found is a redirection, if a rule would take the url with a slash, and otherwise the
first rule that takes the url. -/
theorem find_some {m : Method} {url : Bytes} (h : (router.find strtod m url).1 ≠ 0) :
    ((router.find strtod m url).1 = ruleSpecialRedirectSlash ∧
      ∃ r ∈ router.rulesFor m, r.Misses strtod url) ∨
    ∃ before r later, router.rulesFor m = before ++ r :: later ∧
      (router.find strtod m url).1 = 2 + before.length ∧
      r.Takes strtod url (router.find strtod m url).2 ∧
      (∀ q ∈ before, ∀ params, ¬ q.Takes strtod url params) ∧
      ∀ q ∈ router.rulesFor m, ¬ q.Misses strtod url := by
  obtain ⟨p, hgood, hrules, hper⟩ := router.perMethod_built m
  have hfind : router.find strtod m url = p.trie.optimize.find strtod (url, .empty) := by
    rw [find, hper]
  rw [hfind] at h ⊢
  obtain ⟨⟨pattern, hmem, haccept⟩, hleast⟩ :=
    (Node.find_optimize strtod hgood.plain hgood.index_ne_zero (url, .empty)).2 h
  rcases (hgood.entries _ _).mp hmem with ⟨hk, r, hr, hslash, hparse⟩ | ⟨i, r, hr, hk, hparse⟩
  · exact .inl ⟨hk, r, hrules ▸ hr, hslash, pattern, _, hparse, haccept⟩
  · rw [hrules] at hr
    obtain ⟨hi, hget⟩ := List.getElem?_eq_some_iff.mp hr
    have hsplit : router.rulesFor m =
        (router.rulesFor m).take i ++ r :: (router.rulesFor m).drop (i + 1) := by
      conv_lhs => rw [← List.take_append_drop i (router.rulesFor m), List.drop_eq_getElem_cons hi, hget]
    have hlength : ((router.rulesFor m).take i).length = i := List.length_take_of_le hi.le
    refine .inr ⟨_, r, _, hsplit, by rw [hlength, hk], ⟨pattern, hparse, haccept⟩, ?_, ?_⟩
    · -- an earlier rule would have a smaller index
      rintro q hq params ⟨pattern', hparse', haccept'⟩
      obtain ⟨j, hj, rfl⟩ := List.mem_iff_getElem.mp hq
      rw [hlength] at hj
      have hmem' : (pattern', 2 + j) ∈ p.trie.entries := by
        refine (hgood.entries _ _).mpr (.inr ⟨j, _, ?_, rfl, hparse'⟩)
        rw [hrules, List.getElem_take]
        exact List.getElem?_eq_getElem (by omega)
      have hle := hleast _ hmem' (by rw [haccept']; exact nofun)
      omega
    · rintro q hq ⟨hslash, pattern', params, hparse', haccept'⟩
      have hmem' : (pattern', ruleSpecialRedirectSlash) ∈ p.trie.entries :=
        (hgood.entries _ _).mpr (.inl ⟨rfl, q, hrules ▸ hq, hslash, hparse'⟩)
      have hle := hleast _ hmem' (by rw [haccept']; exact nofun)
      rw [ruleSpecialRedirectSlash] at hle
      omega

/- The first of the rules that take the url. -/
def First (m : Method) (url : Bytes) (r : Rule) (params : RoutingParams δ) : Prop :=
  r.Takes strtod url params ∧ (∀ q ∈ router.rulesFor m, ¬ q.Misses strtod url) ∧
    ∃ before later, router.rulesFor m = before ++ r :: later ∧
      ∀ q ∈ before, ∀ params, ¬ q.Takes strtod url params

/- `handle` with what has been found. -/
theorem handle_found {m : Method} {url : Bytes} (h : (router.find strtod m url).1 ≠ 0)
    (skipBody : Bool) :
    (router.handle m url (router.find strtod m url).1 (router.find strtod m url).2 skipBody =
        .redirect (url ++ bytes "/") ∧ ∃ r ∈ router.rulesFor m, r.Misses strtod url) ∨
      ∃ r, router.handle m url (router.find strtod m url).1 (router.find strtod m url).2 skipBody =
        .run r (router.find strtod m url).2 skipBody ∧
        router.First strtod m url r (router.find strtod m url).2 := by
  obtain ⟨p, -, -, hper⟩ := router.perMethod_built m
  rcases router.find_some strtod h with ⟨hk, hmiss⟩ | ⟨before, r, later, hsplit, hk, htakes, hbefore, hmiss⟩
  · refine .inl ⟨?_, hmiss⟩
    rw [handle, hk, if_neg (by rw [ruleSpecialRedirectSlash]; omega), if_pos rfl]
  · refine .inr ⟨r, ?_, htakes, hmiss, before, later, hsplit, hbefore⟩
    have hrules : (router.perMethod m).rules = before ++ r :: later := by rw [hper, hsplit]
    have hbound : ¬ 2 + (before ++ r :: later).length ≤ 2 + before.length := by
      rw [List.length_append, List.length_cons]
      omega
    have hplace : 2 + before.length ≠ ruleSpecialRedirectSlash := by
      rw [ruleSpecialRedirectSlash]
      omega
    rw [handle, hk, hrules, if_neg hbound, if_neg hplace, Nat.add_sub_cancel_left,
      List.getElem?_append_right (Nat.le_refl _), Nat.sub_self]
    rfl

theorem handleInitial_plain {m : Method} (hhead : m ≠ .head) (hoptions : m ≠ .options) (url : Bytes) :
    router.handleInitial strtod m url =
      if (router.find strtod m url).1 ≠ 0 then
        .found m (router.find strtod m url).1 (router.find strtod m url).2 false
      else if Method.all.any fun i => (router.find strtod i url).1 ≠ 0 then .response 405 []
      else .response 404 [] := by
  cases m <;> first | rfl | exact absurd rfl hhead | exact absurd rfl hoptions

/- A rule that is run takes the url, and is one of the method, or of GET for HEAD. -/
theorem serve_run {m : Method} {url : Bytes} {r : Rule} {params : RoutingParams δ} {skipBody : Bool}
    (h : router.serve strtod m url = .run r params skipBody) :
    ∃ i, (i = m ∨ m = .head ∧ i = .get) ∧ r ∈ router.rulesFor i ∧ r.Takes strtod url params := by
  have hfound : ∀ i, (i = m ∨ m = .head ∧ i = .get) → (router.find strtod i url).1 ≠ 0 →
      ∀ skip, router.handle i url (router.find strtod i url).1 (router.find strtod i url).2 skip =
        .run r params skipBody →
      ∃ i, (i = m ∨ m = .head ∧ i = .get) ∧ r ∈ router.rulesFor i ∧ r.Takes strtod url params := by
    intro i hi hne skip hrun
    rcases router.handle_found strtod hne skip with ⟨hredirect, -⟩ | ⟨q, hq, htakes, -, before, later, hsplit, -⟩
    · rw [hredirect] at hrun
      cases hrun
    · rw [hq] at hrun
      cases hrun
      exact ⟨i, hi, by rw [hsplit]; simp, htakes⟩
  by_cases hhead : m = .head
  · subst hhead
    simp only [serve, handleInitial] at h
    by_cases hne : (router.find strtod .head url).1 = 0
    · by_cases hget : (router.find strtod .get url).1 = 0
      · simp [hne, hget] at h
      · simp only [hne, ne_eq, not_true_eq_false, if_false, hget, not_false_eq_true, if_true] at h
        exact hfound .get (.inr ⟨rfl, rfl⟩) hget true h
    · simp only [hne, ne_eq, not_false_eq_true, if_true] at h
      exact hfound .head (.inl rfl) hne true h
  · by_cases hoptions : m = .options
    · subst hoptions
      simp only [serve, handleInitial] at h
      split at h
      · next hresponse =>
        cases h
      · next hresponse =>
        split at hresponse
        · cases hresponse
        · split at hresponse <;> cases hresponse
    · rw [serve, router.handleInitial_plain strtod hhead hoptions] at h
      by_cases hne : (router.find strtod m url).1 = 0
      · rw [if_neg (not_not.mpr hne)] at h
        split at h
        · cases h
        · next hresponse => split at hresponse <;> cases hresponse
      · rw [if_pos hne] at h
        exact hfound m (.inl rfl) hne false h

end Router

/-! ### Rules without parameters -/

theorem pieces_plain {fuel : ℕ} {url : Bytes} (hfuel : url.length ≤ fuel) (h : '<'.toUInt8 ∉ url) :
    pieces fuel url = some (url.map .char) := by
  induction url generalizing fuel with
  | nil =>
    cases fuel <;> rfl
  | cons c url ih =>
    obtain ⟨fuel, rfl⟩ := Nat.exists_eq_succ_of_ne_zero (Nat.ne_of_gt (Nat.zero_lt_of_lt hfuel))
    rw [List.mem_cons, not_or] at h
    rw [pieces, if_neg (fun hc => h.1 hc.symm), ih (Nat.le_of_succ_le_succ hfuel) h.2]
    rfl

/-- A rule without parameters takes its own url only. -/
theorem Rule.takes_plain {r : Rule} (h : '<'.toUInt8 ∉ r.url) {url : Bytes} {params : RoutingParams δ} :
    r.Takes strtod url params ↔ url = r.url ∧ params = .empty := by
  have hparse : parse r.url = some (r.url.map .char) := pieces_plain (Nat.le_refl _) h
  have haccept : accept strtod (r.url.map .char) (url, .empty) =
      if url = r.url then some .empty else none := by
    rw [accept, walk_chars]
    by_cases hprefix : r.url.isPrefixOf url = true
    · obtain ⟨rest, rfl⟩ := List.isPrefixOf_iff_prefix.mp hprefix
      rw [if_pos hprefix, Option.bind_some, List.drop_left]
      by_cases hrest : rest = []
      · simp [hrest]
      · simp [hrest]
    · have hself : r.url.isPrefixOf r.url = true := List.isPrefixOf_iff_prefix.mpr List.prefix_rfl
      have hne : url ≠ r.url := by
        rintro rfl
        exact hprefix hself
      rw [if_neg hprefix, if_neg hne]
      rfl
  constructor
  · rintro ⟨pattern, hpattern, htakes⟩
    rw [hparse] at hpattern
    cases hpattern
    rw [haccept] at htakes
    split at htakes
    · next hurl => exact ⟨hurl, (Option.some.inj htakes).symm⟩
    · cases htakes
  · rintro ⟨rfl, rfl⟩
    exact ⟨_, hparse, by rw [haccept, if_pos rfl]⟩

end

/- The router of rules that can be added one after the other. -/
def Router.ofRules (rules : List Rule) (noZero : ∀ r ∈ rules, 0 ∉ r.url)
    (valid : ∀ m, (buildMethod m rules).isSome = true) : Router :=
  ⟨rules, noZero, fun m => (buildMethod m rules).get (valid m), fun m => (Option.some_get (valid m)).symm⟩

end Routing

end TypegoSdk.Crow
