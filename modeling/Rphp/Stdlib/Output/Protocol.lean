import Rphp.Stdlib.Output.Buffers

namespace Rphp.Stdlib.Output
open Rphp.Lib
set_option autoImplicit true

/-! The calls that a display handler gets, from the first to the last. -/

section Phases

structure Invocation where
  mode : Int64
  threw : Bool
  deriving DecidableEq, Repr

inductive Phase
  | fresh
  | running
  | stopped
  deriving DecidableEq, Repr

/-- A call for a chunk asks for nothing besides. -/
def ends (operation : Int64) (threw : Bool) : Bool :=
  operation &&& handlerFinal != 0 ||
    threw && operation &&& (handlerClean ||| handlerFlush) == 0

/-- The first call begins, and no other. None follows the final one, or a chunk that failed. -/
def Phase.next : Phase → Invocation → Option Phase
  | fresh, ⟨mode, threw⟩ =>
    if mode &&& handlerStart != 0 then some (if ends mode threw then stopped else running)
    else none
  | running, ⟨mode, threw⟩ =>
    if mode &&& handlerStart != 0 then none
    else some (if ends mode threw then stopped else running)
  | stopped, _ => none

def OutputBuffer.phase (buffer : OutputBuffer η) : Phase :=
  if buffer.disabled then .stopped else if buffer.started then .running else .fresh

inductive Operation : Int64 → Prop
  | chunk : Operation 0
  | atEnd : Operation handlerFinal
  | phase (operation : OutputBufferOperation) : Operation operation.phase

theorem Operation.next (h : Operation operation) (started threw : Bool) :
    (if started then Phase.running else .fresh).next
        ⟨operation ||| (if started then 0 else handlerStart), threw⟩ =
      some (if ends operation threw then .stopped else .running) := by
  cases h with
  | chunk => cases started <;> cases threw <;> decide
  | atEnd => cases started <;> cases threw <;> decide
  | phase operation => cases operation <;> cases started <;> cases threw <;> decide

theorem ends_removes (operation : OutputBufferOperation) (threw : Bool) :
    ends operation.phase threw = operation.removes := by
  cases operation <;> cases threw <;> decide

end Phases

section Ledger

/-- The calls that take one stack of handlers to another. A handler that cannot be resolved takes
its step without a call. -/
inductive Calls {η : Type} (resolved : η → Prop) :
    List (Option η × Phase) → List (η × Invocation) → List (Option η × Phase) → Prop
  | quiet (standings) : Calls resolved standings [] standings
  | call (hnext : Phase.next phase invocation = some phase') (handler standings) :
    Calls resolved ((some handler, phase) :: standings) [(handler, invocation)]
      ((some handler, phase') :: standings)
  | skipped (hnext : Phase.next phase invocation = some phase') (standings)
      (hunresolved : ¬ resolved handler) :
    Calls resolved ((some handler, phase) :: standings) [] ((some handler, phase') :: standings)
  | plain (phase phase' standings) :
    Calls resolved ((none, phase) :: standings) [] ((none, phase') :: standings)
  | around (innermost) (h : Calls resolved standings log standings') :
    Calls resolved (innermost :: standings) log (innermost :: standings')
  | trans (h : Calls resolved standings log standings')
      (h' : Calls resolved standings' log' standings'') :
    Calls resolved standings (log ++ log') standings''

def handlers (standings : List (Option η × Phase)) : List η :=
  standings.filterMap Prod.fst

@[simp] theorem handlers_some (handler : η) (phase : Phase) (standings) :
    handlers ((some handler, phase) :: standings) = handler :: handlers standings := rfl

@[simp] theorem handlers_none (phase : Phase) (standings : List (Option η × Phase)) :
    handlers ((none, phase) :: standings) = handlers standings := rfl

theorem nodup_tail {entry : Option η × Phase} (h : (handlers (entry :: standings)).Nodup) :
    (handlers standings).Nodup := by
  obtain ⟨handler, phase⟩ := entry
  cases handler with
  | none => exact h
  | some handler => exact (List.nodup_cons.mp h).2

variable {resolved : η → Prop}

theorem Calls.handlers_eq {log : List (η × Invocation)}
    (h : Calls resolved standings log standings') :
    handlers standings' = handlers standings := by
  induction h with
  | quiet | call | skipped | plain => rfl
  | around innermost h ih =>
    obtain ⟨handler, phase⟩ := innermost
    cases handler with
    | none => exact ih
    | some handler => exact congrArg (handler :: ·) ih
  | trans h h' ih ih' => rw [ih', ih]

/-- The calls among the attempts at a handler: all of them, where it can be resolved. -/
structure Among (resolved : η → Prop) (handler : η) (calls attempts : List Invocation) : Prop where
  sublist : calls.Sublist attempts
  all : resolved handler → attempts = calls

theorem Among.refl (resolved : η → Prop) (handler : η) (calls : List Invocation) :
    Among resolved handler calls calls := ⟨.refl calls, fun _ => rfl⟩

theorem Among.append (h : Among resolved handler calls attempts)
    (h' : Among resolved handler calls' attempts') :
    Among resolved handler (calls ++ calls') (attempts ++ attempts') :=
  ⟨h.sublist.append h'.sublist, fun hresolved => by rw [h.all hresolved, h'.all hresolved]⟩

variable [DecidableEq η]

def callsOf (handler : η) (log : List (η × Invocation)) : List Invocation :=
  log.filterMap fun entry => if entry.1 = handler then some entry.2 else none

/-- The handlers of a stack of buffers, and where they are. -/
def standing (handler : η) : List (Option η × Phase) → Option Phase
  | [] => none
  | (h, phase) :: standings =>
    if h = some handler then some phase else standing handler standings

theorem callsOf_append (handler : η) (log log' : List (η × Invocation)) :
    callsOf handler (log ++ log') = callsOf handler log ++ callsOf handler log' :=
  List.filterMap_append

theorem standing_eq_none {handler : η} {standings : List (Option η × Phase)} :
    standing handler standings = none ↔ handler ∉ handlers standings := by
  induction standings with
  | nil => simp only [standing, handlers, List.filterMap_nil, List.not_mem_nil, not_false_iff]
  | cons entry standings ih =>
    obtain ⟨h, phase⟩ := entry
    cases h with
    | none => simp only [standing, handlers_none, reduceCtorEq, if_false, ih]
    | some h =>
      by_cases heq : h = handler
      · simp only [standing, heq, if_true, handlers_some, List.mem_cons_self, not_true_eq_false,
          reduceCtorEq]
      · have hne : ¬ handler = h := fun h => heq h.symm
        simp only [standing, Option.some.injEq, heq, if_false, ih, handlers_some, List.mem_cons,
          hne, false_or]

/-- What becomes of one handler. -/
def Moves (resolved : η → Prop) (handler : η) (standings : List (Option η × Phase))
    (log : List (η × Invocation)) (standings' : List (Option η × Phase)) : Prop :=
  (standing handler standings = none ∧ callsOf handler log = []) ∨
    ∃ phase phase' attempts, standing handler standings = some phase ∧
      standing handler standings' = some phase' ∧
      Among resolved handler (callsOf handler log) attempts ∧
      run Phase.next phase attempts = some phase'

theorem Moves.quiet {handler : η} (h : standing handler standings = standing handler standings')
    (hquiet : callsOf handler log = []) : Moves resolved handler standings log standings' := by
  cases hs : standing handler standings with
  | none => exact .inl ⟨hs, hquiet⟩
  | some phase =>
    refine .inr ⟨phase, phase, [], hs, h.symm.trans hs, ?_, rfl⟩
    rw [hquiet]
    exact .refl resolved handler []

theorem standing_congr {handler : η} (h : handlers standings' = handlers standings) :
    standing handler standings' = none ↔ standing handler standings = none := by
  rw [standing_eq_none, h, ← standing_eq_none]

/-- Around the innermost handler, which the calls are not for. -/
theorem Moves.around {handler : η} {innermost : Option η × Phase}
    (h : Moves resolved handler standings log standings')
    (hnodup : (handlers (innermost :: standings)).Nodup) :
    Moves resolved handler (innermost :: standings) log (innermost :: standings') := by
  obtain ⟨h', phase⟩ := innermost
  by_cases heq : h' = some handler
  · subst heq
    have hnot : standing handler standings = none :=
      standing_eq_none.mpr (List.nodup_cons.mp hnodup).1
    apply Moves.quiet
    · simp only [standing, if_true]
    · rcases h with ⟨_, hquiet⟩ | ⟨phase, _, _, hs, _⟩
      · exact hquiet
      · rw [hnot] at hs
        cases hs
  · simp only [Moves, standing, heq, if_false]
    exact h

theorem Moves.trans {handler : η} (h : Moves resolved handler standings log standings')
    (hsame : handlers standings' = handlers standings)
    (h' : Moves resolved handler standings' log' standings'') :
    Moves resolved handler standings (log ++ log') standings'' := by
  rcases h with ⟨hs, hquiet⟩ | ⟨phase, phase', attempts, hs, hs', hamong, hrun⟩
  · have hnone : standing handler standings' = none := (standing_congr hsame).mpr hs
    rcases h' with ⟨_, hquiet'⟩ | ⟨_, _, _, hs', _⟩
    · refine .inl ⟨hs, ?_⟩
      rw [callsOf_append, hquiet, hquiet']
      rfl
    · rw [hnone] at hs'
      cases hs'
  · rcases h' with ⟨hnone, _⟩ | ⟨middle, phase'', attempts', hmiddle, hs'', hamong', hrun'⟩
    · rw [hnone] at hs'
      cases hs'
    · rw [hmiddle] at hs'
      cases hs'
      refine .inr ⟨phase, phase'', attempts ++ attempts', hs, hs'', ?_, ?_⟩
      · rw [callsOf_append]
        exact hamong.append hamong'
      · rw [run_append, hrun, Option.bind_some, hrun']

/-- The attempts at each handler follow the protocol, from where it is to where it gets. -/
theorem Calls.moves {log : List (η × Invocation)} (h : Calls resolved standings log standings')
    (hnodup : (handlers standings).Nodup) (handler : η) :
    Moves resolved handler standings log standings' := by
  induction h with
  | quiet standings => exact .quiet rfl rfl
  | call hnext h standings =>
    rename_i phase invocation phase'
    by_cases heq : h = handler
    · refine .inr ⟨phase, phase', [invocation], ?_, ?_, ?_, ?_⟩
      · simp only [standing, heq, if_true]
      · simp only [standing, heq, if_true]
      · simp only [callsOf, List.filterMap_cons, heq, if_true, List.filterMap_nil]
        exact .refl resolved handler [invocation]
      · simp only [run, hnext, Option.bind_some]
    · apply Moves.quiet
      · simp only [standing, Option.some.injEq, heq, if_false]
      · simp only [callsOf, List.filterMap_cons, heq, if_false, List.filterMap_nil]
  | skipped hnext standings hunresolved =>
    rename_i phase invocation phase' h
    by_cases heq : h = handler
    · refine .inr ⟨phase, phase', [invocation], ?_, ?_, ⟨?_, ?_⟩, ?_⟩
      · simp only [standing, heq, if_true]
      · simp only [standing, heq, if_true]
      · exact List.nil_sublist _
      · exact fun hresolved => absurd (heq ▸ hresolved) hunresolved
      · simp only [run, hnext, Option.bind_some]
    · apply Moves.quiet
      · simp only [standing, Option.some.injEq, heq, if_false]
      · rfl
  | plain phase phase' standings =>
    apply Moves.quiet
    · simp only [standing, reduceCtorEq, if_false]
    · rfl
  | around innermost h ih => exact (ih (nodup_tail hnodup)).around hnodup
  | trans h h' ih ih' =>
    exact (ih hnodup).trans h.handlers_eq (ih' (by rw [h.handlers_eq]; exact hnodup))

/-- Handlers whose buffer is gone have stopped, and those to come are fresh. -/
structure Kept (resolved : η → Prop) (begun : List η) (standings : List (Option η × Phase))
    (log : List (η × Invocation)) : Prop where
  nodup : (handlers standings).Nodup
  installed : ∀ handler, handler ∈ handlers standings → handler ∈ begun
  follows : ∀ handler, ∃ attempts, Among resolved handler (callsOf handler log) attempts ∧
    run Phase.next .fresh attempts =
      some ((standing handler standings).getD (if handler ∈ begun then .stopped else .fresh))

theorem Kept.start : Kept resolved [] [] [] where
  nodup := .nil
  installed := fun _ h => h
  follows := fun handler => ⟨[], .refl resolved handler [], rfl⟩

theorem Kept.calls {log : List (η × Invocation)} (h : Kept resolved begun standings log)
    (hcalls : Calls resolved standings log' standings') :
    Kept resolved begun standings' (log ++ log') where
  nodup := by
    rw [hcalls.handlers_eq]
    exact h.nodup
  installed := by
    rw [hcalls.handlers_eq]
    exact h.installed
  follows := by
    intro handler
    obtain ⟨attempts, hamong, hfollows⟩ := h.follows handler
    rcases hcalls.moves h.nodup handler with
      ⟨hs, hquiet⟩ | ⟨phase, phase', attempts', hs, hs', hamong', hrun⟩
    · have hnone : standing handler standings' = none :=
        (standing_congr hcalls.handlers_eq).mpr hs
      refine ⟨attempts, ?_, ?_⟩
      · rw [callsOf_append, hquiet, List.append_nil]
        exact hamong
      · rw [hfollows, hs, hnone]
    · refine ⟨attempts ++ attempts', ?_, ?_⟩
      · rw [callsOf_append]
        exact hamong.append hamong'
      · rw [run_append, hfollows, Option.bind_some, hs, hs', Option.getD_some, hrun,
          Option.getD_some]

theorem Kept.pop {handler : Option η}
    (h : Kept resolved begun ((handler, .stopped) :: standings) log) :
    Kept resolved begun standings log where
  nodup := nodup_tail h.nodup
  installed := by
    intro handler' hmem
    apply h.installed
    cases handler with
    | none => exact hmem
    | some handler => exact List.mem_cons_of_mem _ hmem
  follows := by
    intro handler'
    obtain ⟨attempts, hamong, hfollows⟩ := h.follows handler'
    refine ⟨attempts, hamong, ?_⟩
    rw [hfollows, standing]
    split
    · rename_i heq
      subst heq
      have hnot := (List.nodup_cons.mp h.nodup).1
      rw [standing_eq_none.mpr hnot, Option.getD_some, Option.getD_none,
        if_pos (h.installed handler' List.mem_cons_self)]
    · rfl

theorem Kept.append_none (h : Kept resolved begun standings log) {handler : Option η}
    (hnone : handler = none) : Kept resolved (begun ++ handler.toList) standings log := by
  rw [hnone, Option.toList_none, List.append_nil]
  exact h

theorem Kept.push (h : Kept resolved begun standings log) {handler : Option η}
    (hfresh : ∀ h, handler = some h → h ∉ begun) :
    Kept resolved (begun ++ handler.toList) ((handler, .fresh) :: standings) log := by
  cases handler with
  | none =>
    rw [Option.toList_none, List.append_nil]
    exact ⟨h.nodup, h.installed, fun handler => by simpa [standing] using h.follows handler⟩
  | some handler =>
    have hnot := hfresh handler rfl
    constructor
    · exact List.nodup_cons.mpr ⟨fun hmem => hnot (h.installed handler hmem), h.nodup⟩
    · intro handler' hmem
      rcases List.mem_cons.mp hmem with rfl | hmem
      · exact List.mem_append_right _ (List.mem_singleton_self _)
      · exact List.mem_append_left _ (h.installed handler' hmem)
    · intro handler'
      obtain ⟨attempts, hamong, hfollows⟩ := h.follows handler'
      refine ⟨attempts, hamong, ?_⟩
      rw [hfollows]
      by_cases heq : handler = handler'
      · subst heq
        have hs := standing_eq_none.mpr fun hmem => hnot (h.installed handler hmem)
        rw [hs, Option.getD_none, if_neg hnot, standing, if_pos rfl, Option.getD_some]
      · have hne : ¬ handler' = handler := fun h => heq h.symm
        simp only [standing, Option.some.injEq, heq, if_false, Option.toList_some,
          List.mem_append, List.mem_singleton, hne, or_false]

end Ledger

section Handlers

/-- What handlers do, together with how they were called. -/
structure Logged (η σ : Type) where
  world : σ
  log : List (η × Invocation)
  deriving DecidableEq, Repr

def Reply.isThrew : Reply ε → Bool
  | threw _ => true
  | _ => false

def Script.logged (script : Script η ε σ) : Script η ε (Logged η σ) where
  resolves := fun handler caller world => script.resolves handler caller world.world
  call := fun handler buffers data mode world =>
    let called := script.call handler buffers data mode world.world
    ⟨called.printed, called.reply,
      ⟨called.world, world.log ++ [(handler, ⟨mode, called.reply.isThrew⟩)]⟩⟩
  displayName := script.displayName
  shown := script.shown

/-- The handler can be resolved whenever it is asked for. -/
def Script.Resolved (script : Script η ε σ) (handler : η) : Prop :=
  ∀ caller world, script.resolves handler caller world = true

def Globals.standings (g : Globals η ε σ) : List (Option η × Phase) :=
  g.outputBuffers.map fun buffer => (buffer.handler, buffer.phase)

theorem standings_of_cons {g : Globals η ε σ} (hg : g.outputBuffers = buffer :: buffers) :
    g.standings = (buffer.handler, buffer.phase) :: (g.withBuffers buffers).standings := by
  rw [Globals.standings, hg]
  rfl

@[simp] theorem standings_restore (g : Globals η ε σ) (buffer : OutputBuffer η) :
    (g.restore buffer).standings = (buffer.handler, buffer.phase) :: g.standings := rfl

theorem writeBuffers_standings : ∀ {buffers written : List (OutputBuffer η)} {data},
    writeBuffers buffers data = some written →
      written.map (fun buffer => (buffer.handler, buffer.phase)) =
        buffers.map (fun buffer => (buffer.handler, buffer.phase)) := by
  intro buffers
  induction buffers with
  | nil =>
    intro written data h
    cases h
  | cons buffer buffers ih =>
    intro written data h
    rw [writeBuffers] at h
    split at h
    · obtain ⟨rest, hrest, rfl⟩ := Option.map_eq_some_iff.mp h
      rw [List.map_cons, List.map_cons, ih hrest]
    · cases h
      rfl

@[simp] theorem writeOutput_standings (g : Globals η ε σ) (data : List UInt8) :
    (g.writeOutput data).standings = g.standings := by
  rw [Globals.writeOutput]
  split
  · rename_i written hwritten
    exact writeBuffers_standings hwritten
  · rfl

@[simp] theorem writeOutput_world (g : Globals η ε σ) (data : List UInt8) :
    (g.writeOutput data).world = g.world := by
  rw [Globals.writeOutput]
  split <;> rfl

@[simp] theorem writeOutput_exception (g : Globals η ε σ) (data : List UInt8) :
    (g.writeOutput data).exception = g.exception := by
  rw [Globals.writeOutput]
  split <;> rfl

variable (script : Script η ε σ)

/-- The last call of a handler threw. -/
def LastThrew (log : List (η × Invocation)) (operation : Int64) : Prop :=
  ∃ handler started, log.getLast? = some (handler, ⟨operation ||| started, true⟩)

/-- The buffer that is transformed is not in the stack; its handler is called once at most. -/
structure TransformedBy (g : Globals η ε (Logged η σ)) (buffer : OutputBuffer η)
    (operation : Int64) (r : Transformed η ε (Logged η σ)) : Prop where
  standings : r.globals.standings = g.standings
  handler : r.buffer.handler = buffer.handler
  exception : g.exception = none → r.globals.exception.isSome = r.threw
  calls : ∃ log, r.globals.world.log = g.world.log ++ log ∧ ∀ standings,
    Calls script.Resolved ((buffer.handler, buffer.phase) :: standings) log
      ((buffer.handler, if ends operation r.threw then .stopped else r.buffer.phase) :: standings)
  threw : r.threw = true → LastThrew r.globals.world.log operation

theorem OutputBuffer.phase_enabled (buffer : OutputBuffer η) (h : ¬ buffer.disabled = true) :
    buffer.phase = if buffer.started then .running else .fresh := by
  rw [phase, if_neg h]

theorem transform_transformedBy (g : Globals η ε (Logged η σ)) (buffer : OutputBuffer η)
    (h : Operation operation) (caller : Option CallSite) :
    TransformedBy script g buffer operation
      (transform script.logged g buffer operation caller) := by
  have hquiet (hnone : g.exception = none) : g.exception.isSome = false := by
    rw [hnone]
    rfl
  have hnot {Q : Prop} (hfalse : false = true) : Q := absurd hfalse Bool.false_ne_true
  rw [transform]
  split
  · rename_i hdisabled
    have hphase : buffer.phase = .stopped := by rw [OutputBuffer.phase, if_pos hdisabled]
    refine ⟨rfl, rfl, hquiet, ⟨[], (List.append_nil _).symm, fun standings => ?_⟩, hnot⟩
    have hstopped : ({ buffer with data := [] } : OutputBuffer η).phase = .stopped := hphase
    rw [hstopped, ite_self, hphase]
    exact .quiet _
  · rename_i hdisabled
    have hphase := buffer.phase_enabled hdisabled
    simp only
    split
    · rename_i hhandler
      refine ⟨rfl, rfl, hquiet, ⟨[], (List.append_nil _).symm, fun standings => ?_⟩, hnot⟩
      rw [hhandler]
      exact .plain _ _ _
    · rename_i handler hhandler
      have hrunning : ({ buffer with data := [], started := true } : OutputBuffer η).phase =
          .running := by
        exact OutputBuffer.phase_enabled _ hdisabled
      split
      · have hcalls (threw : Bool) (standings) :
            Calls script.Resolved ((buffer.handler, buffer.phase) :: standings)
              [(handler, ⟨operation ||| (if buffer.started then 0 else handlerStart), threw⟩)]
              ((buffer.handler, if ends operation threw then .stopped else
                ({ buffer with data := [], started := true } : OutputBuffer η).phase) ::
                standings) := by
          rw [hrunning, hphase, hhandler]
          exact .call (h.next buffer.started threw) handler standings
        cases hreply : (script.call handler g.outputBuffers buffer.data
            (operation ||| if buffer.started then 0 else handlerStart) g.world.world).reply with
        | bytes bytes =>
          simp only [Script.logged, hreply]
          refine ⟨writeOutput_standings _ _, rfl, ?_, ⟨_,
            congrArg Logged.log (writeOutput_world _ _), hcalls false⟩, hnot⟩
          rw [writeOutput_exception]
          exact hquiet
        | declined =>
          simp only [Script.logged, hreply]
          refine ⟨writeOutput_standings _ _, rfl, ?_, ⟨_,
            congrArg Logged.log (writeOutput_world _ _), hcalls false⟩, hnot⟩
          rw [writeOutput_exception]
          exact hquiet
        | threw exception =>
          simp only [Script.logged, hreply]
          refine ⟨writeOutput_standings _ _, rfl, fun _ => rfl, ⟨_,
            congrArg Logged.log (writeOutput_world _ _), hcalls true⟩, fun _ => ?_⟩
          rw [writeOutput_world]
          exact ⟨_, _, List.getLast?_concat⟩
      · rename_i hresolves
        refine ⟨rfl, rfl, hquiet, ⟨[], (List.append_nil _).symm, fun standings => ?_⟩, hnot⟩
        rw [hrunning, hphase, hhandler]
        exact .skipped (h.next buffer.started false) standings
          fun hresolved => hresolves (hresolved caller g.world.world)

/-- What some part of a run does to the stack of handlers, and the calls it makes for that. -/
def Goes (g g' : Globals η ε (Logged η σ)) : Prop :=
  ∃ log, g'.world.log = g.world.log ++ log ∧ Calls script.Resolved g.standings log g'.standings

theorem Goes.refl (g : Globals η ε (Logged η σ)) : Goes script g g :=
  ⟨[], (List.append_nil _).symm, .quiet _⟩

variable {script}

theorem Goes.trans {g g' g'' : Globals η ε (Logged η σ)} (h : Goes script g g')
    (h' : Goes script g' g'') : Goes script g g'' := by
  obtain ⟨log, hlog, hcalls⟩ := h
  obtain ⟨log', hlog', hcalls'⟩ := h'
  refine ⟨log ++ log', ?_, hcalls.trans hcalls'⟩
  rw [hlog', hlog, List.append_assoc]

theorem Goes.writeOutput {g g' : Globals η ε (Logged η σ)} (h : Goes script g g')
    (data : List UInt8) : Goes script g (g'.writeOutput data) := by
  obtain ⟨log, hlog, hcalls⟩ := h
  refine ⟨log, ?_, ?_⟩
  · rw [writeOutput_world, hlog]
  · rw [writeOutput_standings]
    exact hcalls

variable (script)

theorem flushReady_goes (caller : Option CallSite) : ∀ (g : Globals η ε (Logged η σ)),
    g.exception = none → Goes script g (flushReady script.logged caller g) := by
  intro g
  induction hn : g.outputBuffers.length generalizing g with
  | zero =>
    intro _
    rw [List.length_eq_zero_iff] at hn
    rw [flushReady]
    split
    · exact .refl script g
    · rename_i hg
      rw [hn] at hg
      cases hg
  | succ n ih =>
    intro hquiet
    rw [flushReady]
    split
    · exact .refl script g
    · rename_i buffer buffers hg
      split
      · have ht := transform_transformedBy script (g.withBuffers buffers) buffer
          .chunk caller
        generalize hr : transform script.logged (g.withBuffers buffers) buffer 0 caller = r at ht ⊢
        obtain ⟨log, hlog, hcalls⟩ := ht.calls
        have hcall := hcalls (g.withBuffers buffers).standings
        rw [← standings_of_cons hg] at hcall
        simp only
        split
        · rename_i hthrew
          rw [ht.exception hquiet] at hthrew
          apply Goes.writeOutput
          refine ⟨log, hlog, ?_⟩
          rw [hthrew] at hcall
          rw [standings_restore, ht.standings, ht.handler]
          exact hcall
        · rename_i hthrew
          have hnothrow : r.threw = false := by
            rw [← ht.exception hquiet]
            exact Bool.eq_false_iff.mpr hthrew
          have hquiet' : (r.globals.writeOutput r.output).exception = none := by
            rw [writeOutput_exception]
            exact Option.not_isSome_iff_eq_none.mp hthrew
          have hlength : (r.globals.writeOutput r.output).outputBuffers.length = n := by
            rw [Globals.writeOutput_length, ← hr, transform_length]
            rw [hg, List.length_cons] at hn
            exact Nat.succ.inj hn
          obtain ⟨log', hlog', hcalls'⟩ := ih _ hlength hquiet'
          refine ⟨log ++ log', ?_, ?_⟩
          · rw [← List.append_assoc]
            exact hlog'.trans (by rw [writeOutput_world, hlog]; rfl)
          · rw [hnothrow] at hcall
            rw [writeOutput_standings, ht.standings] at hcalls'
            rw [standings_restore, ht.handler]
            exact hcall.trans (.around _ hcalls')
      · exact .refl script g

theorem writePhpOutput_goes (g : Globals η ε (Logged η σ)) (hquiet : g.exception = none)
    (data : List UInt8) (caller : Option CallSite) :
    Goes script g (writePhpOutput script.logged g data caller) := by
  apply (Goes.refl script g).writeOutput data |>.trans
  apply flushReady_goes script caller
  rw [writeOutput_exception]
  exact hquiet

theorem reportNotice_goes (g : Globals η ε (Logged η σ)) (hquiet : g.exception = none)
    (site : CallSite) (message : String) :
    Goes script g (reportNotice script.logged g site message) := by
  rw [reportNotice]
  split
  · exact writePhpOutput_goes script g hquiet _ (some site)
  · exact .refl script g

theorem reportDenial_goes (g : Globals η ε (Logged η σ)) (hquiet : g.exception = none)
    (site : CallSite) (function action : String) :
    Goes script g (reportDenial script.logged g site function action) := by
  rw [reportDenial]
  split
  · exact .refl script g
  · exact reportNotice_goes script g hquiet site _

/-- Part of a run after which a handler that has stopped may be gone. -/
def Leaves (g g' : Globals η ε (Logged η σ)) : Prop :=
  Goes script g g' ∨ ∃ log handler, g'.world.log = g.world.log ++ log ∧
    Calls script.Resolved g.standings log ((handler, .stopped) :: g'.standings)

theorem applyOperation_leaves (g : Globals η ε (Logged η σ)) (hquiet : g.exception = none)
    (operation : OutputBufferOperation) (site : CallSite) :
    Leaves script g (applyOperation script.logged g operation site).1 := by
  rw [applyOperation]
  split
  · left
    simp only
    split
    · exact .refl script g
    · exact reportNotice_goes script g hquiet site _
  · rename_i buffer buffers hg
    split
    · left
      simp only
      have hdenied := reportDenial_goes script g hquiet site operation.name
        operation.deniedAction
      split
      · rename_i hboth
        rw [Bool.and_eq_true, Option.isNone_iff_eq_none] at hboth
        exact hdenied.trans (reportDenial_goes script _ hboth.2 site _ _)
      · exact hdenied
    · have ht := transform_transformedBy script (g.withBuffers buffers) buffer
        (.phase operation) (some site)
      generalize transform script.logged (g.withBuffers buffers) buffer operation.phase
        (some site) = r at ht ⊢
      obtain ⟨log, hlog, hcalls⟩ := ht.calls
      have hcall := hcalls (g.withBuffers buffers).standings
      rw [← standings_of_cons hg, ends_removes, ← ht.standings] at hcall
      have hwritten : (if operation.discards then r.globals else
          r.globals.writeOutput r.output).standings = r.globals.standings ∧
          (if operation.discards then r.globals else
            r.globals.writeOutput r.output).world = r.globals.world := by
        split
        · exact ⟨rfl, rfl⟩
        · exact ⟨writeOutput_standings _ _, writeOutput_world _ _⟩
      simp only
      generalize (if operation.discards then r.globals else r.globals.writeOutput r.output) =
        written at hwritten ⊢
      split
      · rename_i hremoves
        rw [hremoves, if_pos rfl] at hcall
        refine .inr ⟨log, buffer.handler, ?_, ?_⟩
        · rw [hwritten.2]
          exact hlog
        · rw [hwritten.1]
          exact hcall
      · rename_i hremoves
        rw [if_neg hremoves] at hcall
        refine .inl ⟨log, ?_, ?_⟩
        · exact (congrArg Logged.log hwritten.2).trans hlog
        · rw [standings_restore, ht.handler, hwritten.1]
          exact hcall

variable {script} in
theorem Leaves.kept [DecidableEq η] {g g' : Globals η ε (Logged η σ)} (h : Leaves script g g')
    (hkept : Kept script.Resolved begun g.standings g.world.log) :
    Kept script.Resolved begun g'.standings g'.world.log := by
  rcases h with ⟨log, hlog, hcalls⟩ | ⟨log, handler, hlog, hcalls⟩
  · rw [hlog]
    exact hkept.calls hcalls
  · rw [hlog]
    exact (hkept.calls hcalls).pop

theorem act_kept [DecidableEq η] (g : Globals η ε (Logged η σ)) (hquiet : g.exception = none)
    (hkept : Kept script.Resolved begun g.standings g.world.log) (call : OutputCall η)
    (hfresh : ∀ handler, call.handler = some handler → handler ∉ begun) :
    Kept script.Resolved (begun ++ call.handler.toList) (act script.logged g call).1.standings
      (act script.logged g call).1.world.log := by
  cases call with
  | start handler chunkSize flags => exact hkept.push hfresh
  | echo data site =>
    have hgoes := writePhpOutput_goes script g hquiet data (some site)
    exact (Leaves.kept (.inl hgoes) hkept).append_none rfl
  | operation operation site =>
    have hleaves := applyOperation_leaves script g hquiet operation site
    exact (hleaves.kept hkept).append_none rfl
  | getContents => exact hkept.append_none rfl
  | getLength => exact hkept.append_none rfl
  | getLevel => exact hkept.append_none rfl

theorem act_quiet (script : Script η ε σ) (g : Globals η ε σ) (hquiet : g.exception = none)
    (call : OutputCall η) : (act script g call).1.exception = none := by
  cases call with
  | echo => rfl
  | start => exact hquiet
  | operation => rfl
  | getContents => exact hquiet
  | getLength => exact hquiet
  | getLevel => exact hquiet

/-- Handlers that are installed only once stay within their protocol over a run. -/
theorem run_kept [DecidableEq η] (calls : List (OutputCall η)) : ∀ {begun : List η}
    (g : Globals η ε (Logged η σ)), g.exception = none →
    Kept script.Resolved begun g.standings g.world.log →
    (begun ++ calls.filterMap OutputCall.handler).Nodup →
    Kept script.Resolved (begun ++ calls.filterMap OutputCall.handler)
      (calls.foldl (fun g call => (act script.logged g call).1) g).standings
      (calls.foldl (fun g call => (act script.logged g call).1) g).world.log := by
  induction calls with
  | nil =>
    intro begun g _ hkept _
    rw [List.filterMap_nil, List.append_nil]
    exact hkept
  | cons call calls ih =>
    intro begun g hquiet hkept hnodup
    have hsplit : begun ++ (call :: calls).filterMap OutputCall.handler =
        (begun ++ call.handler.toList) ++ calls.filterMap OutputCall.handler := by
      cases hhandler : call.handler with
      | none =>
        rw [List.filterMap_cons_none hhandler, Option.toList_none, List.append_nil]
      | some handler =>
        rw [List.filterMap_cons_some hhandler, Option.toList_some, List.append_assoc]
        rfl
    rw [hsplit] at hnodup ⊢
    apply ih _ (act_quiet _ g hquiet call) _ hnodup
    apply act_kept script g hquiet hkept
    intro handler hhandler hmem
    rw [hhandler] at hnodup
    have hbegun := (List.nodup_append.mp hnodup).1
    exact (List.nodup_append.mp hbegun).2.2 handler hmem handler (List.mem_singleton_self _) rfl

theorem flushAll_kept [DecidableEq η] : ∀ (g : Globals η ε (Logged η σ)) {begun : List η},
    Kept script.Resolved begun g.standings g.world.log →
    Kept script.Resolved begun (flushAllOutputBuffers script.logged g).standings
      (flushAllOutputBuffers script.logged g).world.log := by
  intro g
  induction hn : g.outputBuffers.length generalizing g with
  | zero =>
    intro begun hkept
    rw [List.length_eq_zero_iff] at hn
    rw [flushAllOutputBuffers]
    split
    · exact hkept
    · rename_i hg
      rw [hn] at hg
      cases hg
  | succ n ih =>
    intro begun hkept
    rw [flushAllOutputBuffers]
    split
    · exact hkept
    · rename_i buffer buffers hg
      have ht := transform_transformedBy script (g.withBuffers buffers) buffer
        .atEnd none
      have hlength : (transform script.logged (g.withBuffers buffers) buffer
          handlerFinal none).globals.outputBuffers.length = buffers.length :=
        transform_length _ _ _ _
      generalize transform script.logged (g.withBuffers buffers) buffer handlerFinal none =
        r at ht hlength ⊢
      obtain ⟨log, hlog, hcalls⟩ := ht.calls
      have hcall := hcalls (g.withBuffers buffers).standings
      have hends : ends handlerFinal r.threw = true := by
        cases r.threw <;> decide
      rw [← standings_of_cons hg, hends, if_pos rfl, ← ht.standings] at hcall
      have hleft : Kept script.Resolved begun (r.globals.writeOutput r.output).standings
          (r.globals.writeOutput r.output).world.log := by
        rw [writeOutput_standings, writeOutput_world, hlog]
        exact (hkept.calls hcall).pop
      simp only
      split
      · exact hleft
      · apply ih _ _ hleft
        rw [Globals.writeOutput_length, hlength]
        rw [hg, List.length_cons] at hn
        exact Nat.succ.inj hn

/-- Buffers are left only by a handler that threw at the end of the request. -/
theorem flushAll_cut : ∀ (g : Globals η ε (Logged η σ)),
    (flushAllOutputBuffers script.logged g).outputBuffers ≠ [] →
    LastThrew (flushAllOutputBuffers script.logged g).world.log handlerFinal := by
  intro g
  induction hn : g.outputBuffers.length generalizing g with
  | zero =>
    rw [List.length_eq_zero_iff] at hn
    rw [flushAllOutputBuffers]
    split
    · exact fun hleft => absurd hn hleft
    · rename_i hg
      rw [hn] at hg
      cases hg
  | succ n ih =>
    rw [flushAllOutputBuffers]
    split
    · rename_i hg
      exact fun hleft => absurd hg hleft
    · rename_i buffer buffers hg
      have ht := transform_transformedBy script (g.withBuffers buffers) buffer .atEnd none
      have hlength : (transform script.logged (g.withBuffers buffers) buffer
          handlerFinal none).globals.outputBuffers.length = buffers.length :=
        transform_length _ _ _ _
      simp only
      split
      · rename_i hthrew
        intro _
        rw [writeOutput_world]
        exact ht.threw hthrew
      · apply ih
        rw [Globals.writeOutput_length, hlength]
        rw [hg, List.length_cons] at hn
        exact Nat.succ.inj hn

theorem standing_none_of_gone [DecidableEq η] {g : Globals η ε (Logged η σ)} {handler : η}
    (h : ∀ buffer ∈ g.outputBuffers, buffer.handler ≠ some handler) :
    standing handler g.standings = none := by
  rw [standing_eq_none, handlers, Globals.standings, List.filterMap_map]
  intro hmem
  obtain ⟨buffer, hbuffer, heq⟩ := List.mem_filterMap.mp hmem
  exact h buffer hbuffer heq

/-- The second of two handlers fails for every chunk; the first cannot be resolved. -/
def failingScript : Script Bool Unit Unit where
  resolves handler _ _ := handler
  call handler _ data mode _ :=
    ⟨[], if handler && mode &&& handlerFinal == 0 then .threw () else .bytes data, ()⟩
  displayName _ := "handler"
  shown _ _ := none

def failingCalls (site : CallSite) : List (OutputCall Bool) :=
  [.start (some false) 0 handlerDefaultFlags, .start (some true) 2 handlerDefaultFlags,
    .echo [1, 2] site, .echo [3, 4] site, .operation .endFlush site, .operation .flush site]

end Handlers

end Rphp.Stdlib.Output
