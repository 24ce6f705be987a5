import Rphp.Regex.FixedDecision
import Rphp.Regex.LimitIndependence

set_option autoImplicit true

namespace Rphp.Regex

open Rphp.Lib

variable {env : Env} {E : Engine} {named : GroupName → Option Nat} {indexed : Nat → Option Nat}
  {flags : RegexFlags} {body : Node}

section Engines

theorem weight_pos (node : Node) : 0 < node.weight := by
  cases node <;> simp [Node.weight]

theorem engine_fuel (env : Env) (fuel : Nat) : (engine env fuel).fuel = fuel := by
  cases fuel <;> rfl

/-- The engine decides the advancing language of the patterns it has fuel for. -/
theorem engine_readsFixed (env : Env) (named : GroupName → Option Nat)
    (indexed : Nat → Option Nat) (fuel : Nat) :
    (engine env fuel).ReadsFixed env named indexed := by
  induction fuel with
  | zero =>
    refine ⟨fun {flags node rest} _ hfuel => ?_, fun _ hfuel => absurd hfuel (Nat.not_lt_zero _)⟩
    have hpos := weight_pos node
    have hzero : node.weight + weights rest ≤ 0 := hfuel
    omega
  | succ fuel ih =>
    refine ⟨fun {flags node rest} hfixed hfuel pos => ?_, fun {flags node} hnode hfuel state => ?_⟩
    · refine matchSeqFromStep_settles ih hfixed ?_ pos
      rw [engine_fuel]
      exact hfuel
    · refine collectMatchStatesFromStep_settles ih hnode ?_ state
      rw [engine_fuel]
      exact Nat.le_of_lt_succ hfuel

end Engines

section Found

/-- From the start an alternative reaches the position, and no earlier alternative ends
anywhere else. -/
def ReachesFirst (env : Env) (flags : RegexFlags) (branches : List Node) (start pos : Nat) :
    Prop :=
  ∃ before branch after, branches = before ++ branch :: after ∧
    env.Reads flags branch start pos ∧
      ∀ other ∈ before, ∀ final, env.Reads flags other start final → final = pos

theorem prefers_some_iff (pos : Nat) {branches : List Node} (hfixed : AllFixed named indexed branches)
    (h : Prefers env flags [] start branches result) :
    result = some pos ↔ ReachesFirst env flags branches start pos := by
  induction branches with
  | nil =>
    obtain rfl : result = none := h
    simp [ReachesFirst]
  | cons branch branches ih =>
    rcases h with ⟨hsome, hbranch⟩ | ⟨hnone, h⟩
    · obtain ⟨final, rfl⟩ := Option.isSome_iff_exists.mp hsome
      have hreads : env.Reads flags branch start final := spansAll_singleton.mp hbranch
      constructor
      · rintro ⟨⟩
        exact ⟨[], branch, branches, rfl, hreads, nofun⟩
      · rintro ⟨before, other, after, hbranches, hother, hbefore⟩
        cases before with
        | nil =>
          obtain ⟨rfl, -⟩ := List.cons_eq_cons.mp hbranches
          rw [hfixed.head.unique hreads hother]
        | cons first before =>
          obtain ⟨rfl, -⟩ := List.cons_eq_cons.mp hbranches
          rw [hbefore _ List.mem_cons_self final hreads]
    · have hnone : ∀ final, ¬env.Reads flags branch start final := fun final hf =>
        hnone final (spansAll_singleton.mpr hf)
      rw [ih hfixed.tail h]
      constructor
      · rintro ⟨before, other, after, rfl, hother, hbefore⟩
        refine ⟨branch :: before, other, after, rfl, hother, ?_⟩
        exact List.forall_mem_cons.mpr ⟨fun final hf => (hnone final hf).elim, hbefore⟩
      · rintro ⟨before, other, after, hbranches, hother, hbefore⟩
        cases before with
        | nil =>
          obtain ⟨rfl, -⟩ := List.cons_eq_cons.mp hbranches
          exact (hnone _ hother).elim
        | cons first before =>
          obtain ⟨rfl, rfl⟩ := List.cons_eq_cons.mp hbranches
          exact ⟨before, other, after, rfl, hother,
            fun other ho => hbefore other (List.mem_cons_of_mem _ ho)⟩

/-- The preferred outcome of a body whose alternatives have fixed lengths. -/
theorem matchSeqFrom_body (hfixed : AllFixed named indexed body.topAlternatives)
    (hfuel : weights body.topAlternatives < fuel) (start : Nat) :
    Settles flags ((engine env fuel).matchSeqFrom body [] start)
      (Prefers env flags [] start body.topAlternatives) := by
  have hsingle : ∀ {node result}, Decides (env.ReadsAll flags [node] start) result →
      Prefers env flags [] start [node] result := by
    intro node result h
    cases result with
    | some final => exact .inl ⟨rfl, h⟩
    | none => exact .inr ⟨h, rfl⟩
  obtain ⟨fuel, rfl⟩ : ∃ k, fuel = k + 1 := ⟨fuel - 1, by omega⟩
  have hE := engine_readsFixed env named indexed
  have hgeneral : body.topAlternatives = [body] →
      Settles flags ((engine env (fuel + 1)).matchSeqFrom body [] start)
        (Prefers env flags [] start body.topAlternatives) := by
    intro htop
    rw [htop] at hfixed hfuel ⊢
    exact ((hE (fuel + 1)).matched hfixed hfuel.le start).post fun _ => hsingle
  cases body with
  | alternation branches =>
    have hfuel : weights branches < fuel + 1 := hfuel
    refine Settles.hasError.bind ?_
    rintro _ rfl
    refine Settles.view.bind fun _ _ => ?_
    refine matchAlternation_settles (hE fuel) (List.forall_mem_nil _) hfixed ?_ start true
    rw [engine_fuel]
    exact Nat.le_of_lt_succ hfuel
  | _ => exact hgeneral rfl

theorem collectMatchStatesFrom_body (hfixed : AllFixed named indexed body.topAlternatives)
    (hfuel : weights body.topAlternatives + 1 < fuel) (state : BacktrackState) :
    Settles flags ((engine env fuel).collectMatchStatesFrom body state) fun states =>
      ∀ final, (∃ s ∈ states, s.end = final) ↔ env.Reads flags body state.end final := by
  obtain ⟨fuel, rfl⟩ : ∃ k, fuel = k + 1 := ⟨fuel - 1, by omega⟩
  have hE := engine_readsFixed env named indexed
  have hgeneral : body.topAlternatives = [body] →
      Settles flags ((engine env (fuel + 1)).collectMatchStatesFrom body state) fun states =>
        ∀ final, (∃ s ∈ states, s.end = final) ↔ env.Reads flags body state.end final := by
    intro htop
    rw [htop] at hfixed hfuel
    have hweights : weights [body] = body.weight := rfl
    exact ((hE (fuel + 1)).collected hfixed.head (by rw [engine_fuel]; omega) state).post
      fun _ h => h.2
  cases body with
  | alternation branches =>
    have hfuel : weights branches + 1 < fuel + 1 := hfuel
    refine Settles.hasError.bind ?_
    rintro _ rfl
    refine (collectAlternation_settles (hE fuel) hfixed ?_ state true).post fun states h final => ?_
    · rw [engine_fuel]
      omega
    · exact (h.2 final).trans spansAny_iff.symm
  | _ => exact hgeneral rfl

theorem lookbehindFound_settles (hfixed : AllFixed named indexed body.topAlternatives)
    (hfuel : weights body.topAlternatives < fuel) (pos : Nat) (starts : List Nat) :
    Settles flags (lookbehindFound (engine env fuel) body pos starts) fun found =>
      found = true ↔ ∃ start ∈ starts, ReachesFirst env flags body.topAlternatives start pos := by
  induction starts with
  | nil => exact .pure (by simp)
  | cons start starts ih =>
    refine Settles.view.bind fun saved _ => ?_
    refine (matchSeqFrom_body hfixed hfuel start).bind fun result hresult => ?_
    have hfirst := prefers_some_iff pos hfixed hresult
    refine Settles.takeAccepted.bind ?_
    rintro _ rfl
    by_cases hpos : result = some pos
    · rw [if_pos (by simp [hpos])]
      exact .pure (by simp [hfirst.mp hpos])
    · rw [if_neg (by simp [hpos])]
      refine (Settles.restoreCaptures saved).bind fun _ _ => ih.post fun found hfound => ?_
      rw [hfound]
      simp [mt hfirst.mpr hpos]

theorem tryLookbehindStarts_settles (hfixed : AllFixed named indexed body.topAlternatives)
    (hfuel : weights body.topAlternatives + 1 < fuel) (pos : Nat) (original : BacktrackState)
    (starts : List Nat) :
    Settles flags (tryLookbehindStarts (engine env fuel) body [] pos original starts) fun result =>
      result = some pos ↔ ∃ start ∈ starts, env.Reads flags body start pos := by
  induction starts with
  | nil => exact (Settles.install original).bind fun _ _ => .pure (by simp)
  | cons start starts ih =>
    refine (collectMatchStatesFrom_body hfixed hfuel { original with «end» := start }).bind
      fun states hstates => ?_
    refine Settles.takeAccepted.bind ?_
    rintro _ rfl
    have hends : (∃ s ∈ states, s.end = pos) ↔ env.Reads flags body start pos := hstates pos
    cases hfilter : states.filter fun state => false || state.end == pos with
    | nil =>
      have hnone : ¬env.Reads flags body start pos := by
        rw [← hends]
        rintro ⟨s, hs, rfl⟩
        have := List.filter_eq_nil_iff.mp hfilter s hs
        simp at this
      refine ih.post fun result h => ?_
      rw [h]
      simp [hnone]
    | cons state others =>
      have hstate : state ∈ states.filter fun state => false || state.end == pos := by
        rw [hfilter]
        exact List.mem_cons_self
      obtain ⟨hmem, hend⟩ := List.mem_filter.mp hstate
      have hreads : env.Reads flags body start pos := hends.mp ⟨state, hmem, by simpa using hend⟩
      refine (Settles.install state).bind fun _ _ => ?_
      have hrest : Settles flags (matchRest (engine env fuel) [] pos)
          (Decides (env.ReadsAll flags [] pos)) :=
        matchRest_settles (engine_readsFixed env named indexed fuel) (List.forall_mem_nil _)
          (Nat.zero_le _) pos
      refine hrest.bind fun result hresult => ?_
      cases result with
      | none => exact absurd rfl (hresult pos)
      | some final =>
        obtain rfl : pos = final := hresult
        exact .pure (by simp [hreads])

end Found

section Lookbehind

/-- How a lookbehind finds a match that ends at the position: a non-atomic one through any
outcome of its body, the others through the preferred one. -/
def LookbehindFinds (env : Env) (flags : RegexFlags) (positive atomic : Bool) (body : Node)
    (pos : Nat) : Prop :=
  if positive && !atomic then ∃ start, env.Reads flags body start pos
  else ∃ start, ReachesFirst env flags body.topAlternatives start pos

theorem LookbehindFinds.spans (h : LookbehindFinds env flags positive atomic body pos) :
    ∃ start, body.Spans env.tables env.chars false flags start pos := by
  unfold LookbehindFinds at h
  split at h
  · obtain ⟨start, hstart⟩ := h
    exact ⟨start, spans_of_advancing body hstart⟩
  · obtain ⟨start, before, branch, after, hbranches, hbranch, -⟩ := h
    refine ⟨start, spans_iff_topAlternatives.mpr ⟨branch, ?_, spans_of_advancing branch hbranch⟩⟩
    simp [hbranches]

/-- The starts that the engine tries hold every start of a match. -/
theorem mem_lookbehindStarts_of_spans (hfixed : AllFixed named indexed body.topAlternatives)
    (h : body.Spans env.tables env.chars advancing flags start pos) :
    start ∈ lookbehindStarts body pos := by
  obtain ⟨branch, hbranch, hspans⟩ := spans_iff_topAlternatives.mp h
  obtain ⟨-, n, hn⟩ := hfixed branch hbranch
  exact mem_lookbehindStarts hbranch hn (spans_length branch hn hspans)

theorem matchRest_nil_settles (pos : Nat) :
    Settles flags (matchRest E [] pos) (· = some pos) := by
  refine Settles.view.bind ?_
  rintro s ⟨hcontrol, -⟩
  rw [if_neg (by simp [hcontrol])]
  exact .pure rfl

/-- A lookbehind that nothing follows succeeds as it finds a match. -/
theorem matchSeqFrom_lookbehind (hfixed : AllFixed named indexed body.topAlternatives)
    (hfuel : weights body.topAlternatives + 2 < fuel) (positive atomic : Bool) (pos : Nat) :
    Settles flags (matchSeqFrom env fuel (.lookbehind positive atomic body) [] pos) fun result =>
      result = some pos ↔ (positive = true ↔ LookbehindFinds env flags positive atomic body pos) := by
  obtain ⟨fuel, rfl⟩ : ∃ k, fuel = k + 1 := ⟨fuel - 1, by omega⟩
  refine Settles.hasError.bind ?_
  rintro _ rfl
  refine Settles.view.bind fun _ _ => ?_
  refine Settles.inRecursion ?_
  by_cases hmode : (positive && !atomic) = true
  · rw [if_pos hmode]
    refine (Settles.take pos).bind fun original _ => ?_
    refine (tryLookbehindStarts_settles hfixed (by omega) pos original _).post fun result h => ?_
    rw [h]
    obtain ⟨rfl, -⟩ : positive = true ∧ _ := Bool.and_eq_true_iff.mp hmode
    simp only [LookbehindFinds, hmode, if_true, true_iff]
    refine exists_congr fun start => and_iff_right_of_imp fun hreads => ?_
    obtain ⟨branch, hbranch, hspans⟩ := spans_iff_topAlternatives.mp hreads
    obtain ⟨-, n, hn⟩ := hfixed branch hbranch
    have := spans_length branch hn hspans
    simp only [List.mem_reverse, List.mem_range]
    omega
  · rw [if_neg hmode]
    refine (lookbehindFound_settles hfixed (by omega) pos _).bind fun found hfound => ?_
    have hfinds : found = true ↔ LookbehindFinds env flags positive atomic body pos := by
      rw [hfound, LookbehindFinds, if_neg hmode]
      refine exists_congr fun start => and_iff_right_of_imp fun hfirst => ?_
      obtain ⟨before, branch, after, hbranches, hbranch, -⟩ := hfirst
      exact mem_lookbehindStarts_of_spans hfixed
        (spans_iff_topAlternatives.mpr ⟨branch, by simp [hbranches], hbranch⟩)
    have hagree : found = positive ↔
        (positive = true ↔ LookbehindFinds env flags positive atomic body pos) := by
      rw [← hfinds]
      cases found <;> cases positive <;> simp
    split
    · rename_i h
      exact (matchRest_nil_settles pos).post fun result hr => by simp [hr, hagree.mp h]
    · rename_i h
      exact .pure (by simp [mt hagree.mpr h])

theorem ParserGroups.exists_fixedLengthWith (P : ParserGroups) (lookups : Nat)
    (visiting : List Nat) :
    ∃ indexed, P.fixedLength lookups visiting = fixedLengthWith P.namedGroups indexed := by
  cases lookups with
  | zero => exact ⟨_, rfl⟩
  | succ lookups => exact ⟨_, rfl⟩

/-- A validated plain body has alternatives of fixed lengths. -/
theorem allFixed_of_validateLookbehind {P : ParserGroups} (hvalid : P.validateLookbehind body = true)
    (hplain : body.isPlain = true) :
    ∃ indexed, AllFixed P.namedGroups indexed body.topAlternatives := by
  obtain ⟨indexed, hindexed⟩ := P.exists_fixedLengthWith P.subpatternsByIndex.length []
  refine ⟨indexed, ?_⟩
  have hlength : ∀ node, (P.fixedLength P.subpatternsByIndex.length [] node).isSome = true →
      ∃ n, fixedLengthWith P.namedGroups indexed node = some n := by
    intro node h
    rw [hindexed] at h
    exact Option.isSome_iff_exists.mp h
  cases body with
  | alternation branches =>
    exact fun branch hbranch => ⟨allPlain_iff.mp hplain branch hbranch,
      hlength branch (List.all_eq_true.mp hvalid branch hbranch)⟩
  | _ => exact List.forall_mem_singleton.mpr ⟨hplain, hlength _ hvalid⟩

/-- A positive lookbehind that nothing follows succeeds exactly when its body matches a
substring that ends at the position, and a negative one exactly when it matches none. -/
def LookbehindCorrect (env : Env) (fuel : Nat) (positive atomic : Bool) (body : Node) (pos : Nat)
    (ctx : MatchCtx) : Prop :=
  (∃ ctx', matchSeqFrom env fuel (.lookbehind positive atomic body) [] pos ctx =
      some (some pos, ctx')) ↔
    (positive = true ↔
      ∃ start, body.Spans env.tables env.chars false ctx.state.flags start pos)

/-- A validated lookbehind finishes, tries every start of a match, and is correct exactly when
its body matches nothing up to the position or matches in a way the engine finds. -/
theorem lookbehind_correct_iff (P : ParserGroups) (body : Node)
    (hvalid : P.validateLookbehind body = true) (hplain : body.isPlain = true) :
    ∃ enough, ∀ fuel, enough ≤ fuel → ∀ (env : Env) (positive atomic : Bool) (pos : Nat)
      (ctx : MatchCtx), ctx.state.control = none → ctx.budget.Unlimited →
      (∃ result ctx', matchSeqFrom env fuel (.lookbehind positive atomic body) [] pos ctx =
          some (result, ctx')) ∧
        (∀ start, body.Spans env.tables env.chars false ctx.state.flags start pos →
          start ∈ lookbehindStarts body pos) ∧
        (LookbehindCorrect env fuel positive atomic body pos ctx ↔
          (¬∃ start, body.Spans env.tables env.chars false ctx.state.flags start pos) ∨
            LookbehindFinds env ctx.state.flags positive atomic body pos) := by
  obtain ⟨indexed, hfixed⟩ := allFixed_of_validateLookbehind hvalid hplain
  refine ⟨weights body.topAlternatives + 3, fun fuel hfuel env positive atomic pos ctx hcontrol
    hunlimited => ?_⟩
  have henough : weights body.topAlternatives + 2 < fuel := by omega
  obtain ⟨result, ctx', hrun, hresult, -⟩ := matchSeqFrom_lookbehind hfixed henough positive
    atomic pos ctx ⟨hcontrol, rfl, hunlimited⟩
  refine ⟨⟨result, ctx', hrun⟩, fun start => mem_lookbehindStarts_of_spans hfixed, ?_⟩
  have hsucceeds : (∃ ctx', matchSeqFrom env fuel (.lookbehind positive atomic body) [] pos ctx =
      some (some pos, ctx')) ↔ result = some pos := by
    rw [hrun]
    simp
  have hspans : LookbehindFinds env ctx.state.flags positive atomic body pos →
      ∃ start, body.Spans env.tables env.chars false ctx.state.flags start pos :=
    LookbehindFinds.spans
  rw [LookbehindCorrect, hsucceeds, hresult]
  cases positive with
  | true => grind
  | false => grind

end Lookbehind

section Examples

/-- Nothing is captured, and nothing limits the attempt. -/
def quietContext : MatchCtx where
  state := ⟨[none], none, none, none, RegexFlags.default, []⟩
  budget := ⟨.unlimited, .unlimited, 0, .unlimited, .unlimited, false, none⟩

theorem quietContext_unlimited : quietContext.budget.Unlimited :=
  ⟨rfl, rfl, rfl, rfl, rfl⟩

def noGroups : ParserGroups :=
  ⟨[], fun _ => none⟩

/-- The body of `(?<=a|ab)`. -/
def aOrAb : Node :=
  .alternation [.literal 'a', .sequence [.literal 'a', .literal 'b']]

/-- The body of `(?<=(?:){2})`. -/
def emptyTwice : Node :=
  .quantifier (.group none (.sequence [])) 2 (some 2) true false

def subjectAb : Env :=
  captureEnv plainTables (plainRegex aOrAb) ['a', 'b'] 0

/-- An outcome of a run with unlimited counters stays with more fuel. -/
theorem matchSeqFrom_more_fuel
    (h : (matchSeqFrom env fuel node [] pos quietContext).map Prod.fst = some result)
    (herr : (matchSeqFrom env fuel node [] pos quietContext).map (·.2.budget.error) = some none)
    (hfuel : fuel ≤ fuel') :
    (matchSeqFrom env fuel' node [] pos quietContext).map Prod.fst = some result := by
  obtain ⟨⟨result, ctx⟩, hrun, rfl⟩ := Option.map_eq_some_iff.mp h
  have herr : ctx.budget.error = none := by simpa [hrun] using herr
  have hle : quietContext.budget.LE quietContext.budget :=
    ⟨rfl, rfl, rfl, trivial, trivial, trivial, nofun⟩
  obtain ⟨big, hbig, -⟩ := matchSeqFrom_larger hle hfuel hrun herr
  exact congrArg (Option.map Prod.fst) hbig

/-- Behind `ab` the preferred alternative of `a|ab` ends too early, and behind anything an
empty group taken twice is not found. -/
theorem lookbehind_misses_match :
    noGroups.validateLookbehind aOrAb = true ∧ aOrAb.isPlain = true ∧
      noGroups.validateLookbehind emptyTwice = true ∧ emptyTwice.isPlain = true ∧
      ∀ fuel, 10 ≤ fuel →
        ¬LookbehindCorrect subjectAb fuel true true aOrAb 2 quietContext ∧
        ¬LookbehindCorrect subjectAb fuel false true aOrAb 2 quietContext ∧
        ¬LookbehindCorrect subjectAb fuel true true emptyTwice 0 quietContext := by
  refine ⟨by decide, by decide, by decide, by decide, fun fuel hfuel => ⟨?_, ?_, ?_⟩⟩
  · have hspans : ∃ start, aOrAb.Spans subjectAb.tables subjectAb.chars false
        quietContext.state.flags start 2 :=
      ⟨0, .inr (.inl ⟨1, ⟨by decide, rfl⟩, 2, ⟨by decide, rfl⟩, rfl⟩)⟩
    have hrun := matchSeqFrom_more_fuel
      (show (matchSeqFrom subjectAb 10 (.lookbehind true true aOrAb) [] 2 quietContext).map
        Prod.fst = some none by decide +kernel) (by decide +kernel) hfuel
    intro h
    obtain ⟨ctx, hctx⟩ := h.mpr ⟨fun _ => hspans, fun _ => rfl⟩
    simp [hctx] at hrun
  · have hspans : ∃ start, aOrAb.Spans subjectAb.tables subjectAb.chars false
        quietContext.state.flags start 2 :=
      ⟨0, .inr (.inl ⟨1, ⟨by decide, rfl⟩, 2, ⟨by decide, rfl⟩, rfl⟩)⟩
    have hrun := matchSeqFrom_more_fuel
      (show (matchSeqFrom subjectAb 10 (.lookbehind false true aOrAb) [] 2 quietContext).map
        Prod.fst = some (some 2) by decide +kernel) (by decide +kernel) hfuel
    intro h
    obtain ⟨⟨_, ctx⟩, hctx, rfl⟩ := Option.map_eq_some_iff.mp hrun
    simpa using (h.mp ⟨ctx, hctx⟩).mpr hspans
  · have hspans : ∃ start, emptyTwice.Spans subjectAb.tables subjectAb.chars false
        quietContext.state.flags start 0 :=
      ⟨0, 2, le_rfl, fun m hm => by cases hm; rfl, nofun, 0, rfl, 0, rfl, rfl⟩
    have hrun := matchSeqFrom_more_fuel
      (show (matchSeqFrom subjectAb 10 (.lookbehind true true emptyTwice) [] 0 quietContext).map
        Prod.fst = some none by decide +kernel) (by decide +kernel) hfuel
    intro h
    obtain ⟨ctx, hctx⟩ := h.mpr ⟨fun _ => hspans, fun _ => rfl⟩
    simp [hctx] at hrun

theorem lookbehind_correct_iff_aOrAb :
    noGroups.validateLookbehind aOrAb = true ∧ aOrAb.isPlain = true ∧
      quietContext.budget.Unlimited ∧
      ∃ enough, ∀ fuel, enough ≤ fuel →
        (LookbehindCorrect subjectAb fuel true true aOrAb 1 quietContext ↔
          (¬∃ start, aOrAb.Spans subjectAb.tables subjectAb.chars false RegexFlags.default start 1) ∨
            LookbehindFinds subjectAb RegexFlags.default true true aOrAb 1) := by
  refine ⟨by decide, by decide, quietContext_unlimited, ?_⟩
  obtain ⟨enough, h⟩ := lookbehind_correct_iff noGroups aOrAb (by decide) (by decide)
  exact ⟨enough, fun fuel hfuel =>
    (h fuel hfuel subjectAb true true 1 quietContext rfl quietContext_unlimited).2.2⟩

end Examples

end Rphp.Regex
