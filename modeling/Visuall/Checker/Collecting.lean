import Visuall.Checker.Recording
import Visuall.Checker.Refinement

/-!
# Collecting every error

The language server checks without throwing and reads the errors afterwards.  Here `check` is a member of a checker that
may have checked before, with the flag `throwOnFirstError`.

* `visitStmts` — the visitors with a trace of the statements they come to;
* `statements` — the statements that there are, and those outside the `else` blocks of loops;
* `Traces` — a visitor with a trace does what the visitor does, with one rule for each way to put visitors together;
* `Collects` — every statement is visited and every error is kept;
* `collects_iff` — exactly when.
-/

namespace Visuall.Checker

open Visuall.Ast Visuall.Types

/-! ## A checker -/

/-- `TypeChecker`: the flag, what the first passes have registered, and the state. -/
structure TypeChecker where
  throwOnFirstError : Bool := true
  tables : Tables := {}
  state : State := {}

/-- The end of `check`. -/
def rethrowFirst (throwOnFirstError : Bool) : Check Unit := do
  match (← get).errors with
  | [] => pure ()
  | e :: _ => if throwOnFirstError then throwTypeError e else pure ()

namespace TypeChecker

/-- The tables and the state behind the first pass, in the file scope. -/
def begin (c : TypeChecker) (p : List Stmt) : Tables × State :=
  let (T, scope) := p.foldl register (c.tables, [])
  (T, { c.state with symbols := scope :: c.state.symbols, errors := [] })

/-- `TypeChecker::check`. -/
def check (c : TypeChecker) (p : List Stmt) : Except Stop Unit × State :=
  let (T, σ) := c.begin p
  (do
    checkStmts T {} p
    modify State.exitScope
    rethrowFirst c.throwOnFirstError : Check Unit) σ

end TypeChecker

/-! ## Visitors with a trace -/

/-- A visitor with the statements that it has come to. -/
abbrev Tracing := ExceptT Stop (StateM (State × List Stmt))

/-- A visitor of no statement. -/
def untraced {α : Type} (x : Check α) : Tracing α := fun s => ((x s.1).1, (x s.1).2, s.2)

/-- A statement that is visited. -/
def note (s : Stmt) : Tracing Unit := modify fun t => (t.1, t.2 ++ [s])

/-- `inScope`, with a trace. -/
def traceScope {α : Type} (x : Tracing α) : Tracing α := do
  untraced (modify State.enterScope)
  let a ← x
  untraced (modify State.exitScope)
  return a

section Visit

variable (T : Tables)

mutual

/-- `checkStmt`, with a trace. -/
def visitStmt (C : Context) : Stmt → Tracing Unit
  | .funcDef h body =>
      if h.isExtern then untraced (checkExtern C h)
      else
        let inner := functionContext T C h
        traceScope do
          untraced (declareTypeParams h.typeParams)
          untraced (checkParams T inner h.params)
          visitStmts inner body
          untraced (checkMissingReturn inner h.name body)
  | .initDef params body =>
      traceScope do
        untraced (checkParams T (initContext C) params)
        visitStmts (initContext C) body
  | .classDef h body =>
      traceScope do
        untraced (declare "this".toList (.cls h.name))
        untraced (declareTypeParams h.typeParams)
        untraced (declareSuper h.baseClass)
        visitStmts (classContext C h) body
        untraced (checkOverrides T h)
        untraced (checkInterfaces T h)
  | .ifStmt condition thenBranch elsifBranches elseBranch => do
      let _ ← untraced (checkExpr T C condition)
      let n := narrowing (← untraced get) condition
      traceScope do
        untraced (declareNarrowed n Narrowing.thenType)
        visitStmts C thenBranch
      visitElsifs C elsifBranches
      if elseBranch.isEmpty then untraced (pure ())
      else
        traceScope do
          untraced (declareNarrowed n Narrowing.elseType)
          visitStmts C elseBranch
  | .forStmt var _ iterable body _ => do
      let iterType ← untraced (checkExpr T C iterable)
      traceScope do
        untraced (declare var (elementType iterType))
        visitStmts C body
  | .whileStmt condition body _ => do
      let _ ← untraced (checkExpr T C condition)
      traceScope (visitStmts C body)
  | .withStmt expr asName body => do
      let _ ← untraced (checkExpr T C expr)
      traceScope do
        untraced (declareUnlessEmpty asName .unknown)
        visitStmts C body
  | .tryStmt tryBody catchClauses finallyBody => do
      traceScope (visitStmts C tryBody)
      visitCatches C catchClauses
      if finallyBody.isEmpty then untraced (pure ()) else traceScope (visitStmts C finallyBody)
  | .matchStmt subject cases => do
      let subjectType ← untraced (checkExpr T C subject)
      visitCases C subjectType cases
  | s => untraced (checkStmt T C s)

/-- The statements of a list, each noted before it is visited. -/
def visitStmts (C : Context) : List Stmt → Tracing Unit
  | [] => untraced (pure ())
  | s :: stmts => do
      note s
      visitStmt C s
      visitStmts C stmts

/-- The `elsif` branches. -/
def visitElsifs (C : Context) : List (Expr × List Stmt) → Tracing Unit
  | [] => untraced (pure ())
  | (condition, body) :: branches => do
      let _ ← untraced (checkExpr T C condition)
      traceScope (visitStmts C body)
      visitElsifs C branches

/-- The `catch` clauses. -/
def visitCatches (C : Context) : List (Name × Name × List Stmt) → Tracing Unit
  | [] => untraced (pure ())
  | (exceptionType, varName, body) :: clauses => do
      traceScope do
        untraced (declareUnlessEmpty varName (resolveOrUnknown T C exceptionType))
        visitStmts C body
      visitCatches C clauses

/-- The cases of a `match`. -/
def visitCases (C : Context) (subjectType : Ty) : List (Option Expr × Option Expr × List Stmt) → Tracing Unit
  | [] => untraced (pure ())
  | (pattern, guard, body) :: cases => do
      untraced (checkWith T C pattern (checkPattern subjectType))
      untraced (checkWith T C guard checkGuard)
      traceScope (visitStmts C body)
      visitCases C subjectType cases

end

end Visit

/-! ## The statements of a program -/

mutual

/-- The statements in the blocks of a statement, in order; without `all`, those outside the `else` blocks of loops and
outside extern functions. -/
def statementsIn (all : Bool) : Stmt → List Stmt
  | .funcDef h body => if h.isExtern && !all then [] else statements all body
  | .initDef _ body => statements all body
  | .classDef _ body => statements all body
  | .ifStmt _ thenBranch elsifBranches elseBranch =>
      statements all thenBranch ++ (statementsElsifs all elsifBranches ++ statements all elseBranch)
  | .forStmt _ _ _ body elseBranch => statements all body ++ if all then statements all elseBranch else []
  | .whileStmt _ body elseBranch => statements all body ++ if all then statements all elseBranch else []
  | .withStmt _ _ body => statements all body
  | .tryStmt tryBody catchClauses finallyBody =>
      statements all tryBody ++ (statementsCatches all catchClauses ++ statements all finallyBody)
  | .matchStmt _ cases => statementsCases all cases
  | _ => []

/-- The statements of a list, each with those in its blocks. -/
def statements (all : Bool) : List Stmt → List Stmt
  | [] => []
  | s :: stmts => s :: (statementsIn all s ++ statements all stmts)

def statementsElsifs (all : Bool) : List (Expr × List Stmt) → List Stmt
  | [] => []
  | (_, body) :: branches => statements all body ++ statementsElsifs all branches

def statementsCatches (all : Bool) : List (Name × Name × List Stmt) → List Stmt
  | [] => []
  | (_, _, body) :: clauses => statements all body ++ statementsCatches all clauses

def statementsCases (all : Bool) : List (Option Expr × Option Expr × List Stmt) → List Stmt
  | [] => []
  | (_, _, body) :: cases => statements all body ++ statementsCases all cases

end

mutual

/-- No loop in the statement has an `else` block, and no extern function a body. -/
def bareIn : Stmt → Bool
  | .funcDef h body => if h.isExtern then body.isEmpty else bare body
  | .initDef _ body => bare body
  | .classDef _ body => bare body
  | .ifStmt _ thenBranch elsifBranches elseBranch => bare thenBranch && (bareElsifs elsifBranches && bare elseBranch)
  | .forStmt _ _ _ body elseBranch => bare body && elseBranch.isEmpty
  | .whileStmt _ body elseBranch => bare body && elseBranch.isEmpty
  | .withStmt _ _ body => bare body
  | .tryStmt tryBody catchClauses finallyBody => bare tryBody && (bareCatches catchClauses && bare finallyBody)
  | .matchStmt _ cases => bareCases cases
  | _ => true

/-- No loop has an `else` block, and no extern function a body. -/
def bare : List Stmt → Bool
  | [] => true
  | s :: stmts => bareIn s && bare stmts

def bareElsifs : List (Expr × List Stmt) → Bool
  | [] => true
  | (_, body) :: branches => bare body && bareElsifs branches

def bareCatches : List (Name × Name × List Stmt) → Bool
  | [] => true
  | (_, _, body) :: clauses => bare body && bareCatches clauses

def bareCases : List (Option Expr × Option Expr × List Stmt) → Bool
  | [] => true
  | (_, _, body) :: cases => bare body && bareCases cases

end

/-! ## What a trace is -/

variable {T : Tables} {C : Context} {α β : Type} {x : Check α} {y : Tracing α} {f : α → Check β} {g : α → Tracing β}
  {vs ws : List Stmt} {s : Stmt}

/-- **A visitor with a trace** does what the visitor does, and if that ends it has come to the statements `vs`. -/
def Traces (y : Tracing α) (x : Check α) (vs : List Stmt) : Prop :=
  ∀ σ trace, ∃ us, y (σ, trace) = ((x σ).1, (x σ).2, trace ++ us) ∧ ∀ a, (x σ).1 = .ok a → us = vs

namespace Traces

theorem untraced (x : Check α) : Traces (Checker.untraced x) x [] :=
  fun σ trace => ⟨[], by rw [List.append_nil]; rfl, fun _ _ => rfl⟩

theorem bind (hx : Traces y x vs) (hf : ∀ a, Traces (g a) (f a) ws) : Traces (y >>= g) (x >>= f) (vs ++ ws) := by
  intro σ trace
  obtain ⟨us, hrun, hend⟩ := hx σ trace
  rw [Effect.bind_run, Effect.bind_run, hrun]
  rcases hfirst : x σ with ⟨stop | a, τ⟩
  · exact ⟨us, rfl, fun _ h => by cases h⟩
  · obtain ⟨more, hrun', hend'⟩ := hf a τ (trace ++ us)
    refine ⟨us ++ more, ?_, fun b hb => ?_⟩
    · show g a (τ, trace ++ us) = _
      rw [hrun', List.append_assoc]
    · rw [hend a (by rw [hfirst]), hend' b hb]

/-- A visitor of no statement in front. -/
theorem after (x : Check α) (hf : ∀ a, Traces (g a) (f a) vs) :
    Traces (Checker.untraced x >>= g) (x >>= f) vs := (untraced x).bind hf

/-- A visitor of no statement behind. -/
theorem before (hx : Traces y x vs) (hf : ∀ a, Traces (g a) (f a) []) : Traces (y >>= g) (x >>= f) vs := by
  have h := hx.bind hf
  rwa [List.append_nil] at h

theorem inScope (hx : Traces y x vs) : Traces (traceScope y) (Checker.inScope x) vs :=
  after _ fun _ => hx.before fun a => after _ fun _ => untraced (Pure.pure a)

theorem ite {c : Prop} [Decidable c] {x' : Check α} {y' : Tracing α} (h : Traces y x vs) (h' : Traces y' x' ws) :
    Traces (if c then y else y') (if c then x else x') (if c then vs else ws) := by
  by_cases hc : c
  · rw [if_pos hc, if_pos hc, if_pos hc]
    exact h
  · rw [if_neg hc, if_neg hc, if_neg hc]
    exact h'

/-- A block that is left out when it is empty. -/
theorem unlessEmpty {body : List Stmt} {x : Check Unit} {y : Tracing Unit} (h : Traces y x (statements false body)) :
    Traces (if body.isEmpty then Checker.untraced (Pure.pure ()) else y) (if body.isEmpty then Pure.pure () else x)
      (statements false body) := by
  cases body with
  | nil =>
    rw [statements]
    exact untraced _
  | cons s stmts => exact h

/-- A statement that is visited. -/
theorem noted {x : Check Unit} {y : Tracing Unit} (h : Traces y x vs) : Traces (do note s; y) x (s :: vs) := by
  intro σ trace
  obtain ⟨us, hrun, hend⟩ := h σ (trace ++ [s])
  refine ⟨s :: us, ?_, fun a ha => by rw [hend a ha]⟩
  show y (σ, trace ++ [s]) = _
  rw [hrun, List.append_assoc]
  rfl

end Traces

mutual

theorem visitStmt_traces (C : Context) : (s : Stmt) → Traces (visitStmt T C s) (checkStmt T C s) (statementsIn false s)
  | .funcDef h body => by
      have hbody := visitStmts_traces (functionContext T C h) body
      rw [visitStmt, checkStmt, statementsIn, Bool.not_false, Bool.and_true]
      refine (Traces.untraced _).ite (Traces.inScope ?_)
      exact .after _ fun _ => .after _ fun _ => hbody.before fun _ => .untraced _
  | .initDef params body => by
      rw [visitStmt, checkStmt, statementsIn]
      exact (Traces.after _ fun _ => visitStmts_traces (initContext C) body).inScope
  | .classDef h body => by
      have hbody := visitStmts_traces (classContext C h) body
      rw [visitStmt, checkStmt, statementsIn]
      refine Traces.inScope (.after _ fun _ => .after _ fun _ => .after _ fun _ => ?_)
      exact hbody.before fun _ => .after _ fun _ => .untraced _
  | .ifStmt condition thenBranch elsifBranches elseBranch => by
      have hthen := visitStmts_traces C thenBranch
      have helse := visitStmts_traces C elseBranch
      rw [visitStmt, checkStmt, statementsIn]
      refine .after _ fun _ => .after _ fun σ => ?_
      refine (Traces.after _ fun _ => hthen).inScope.bind fun _ => (visitElsifs_traces C elsifBranches).bind fun _ => ?_
      exact .unlessEmpty (Traces.after _ fun _ => helse).inScope
  | .forStmt var vars iterable body elseBranch => by
      have hbody := visitStmts_traces C body
      rw [visitStmt, checkStmt, statementsIn, if_neg Bool.false_ne_true, List.append_nil]
      exact .after _ fun t => (Traces.after _ fun _ => hbody).inScope
  | .whileStmt condition body elseBranch => by
      have hbody := visitStmts_traces C body
      rw [visitStmt, checkStmt, statementsIn, if_neg Bool.false_ne_true, List.append_nil]
      exact .after _ fun _ => hbody.inScope
  | .withStmt expr asName body => by
      have hbody := visitStmts_traces C body
      rw [visitStmt, checkStmt, statementsIn]
      exact .after _ fun _ => (Traces.after _ fun _ => hbody).inScope
  | .tryStmt tryBody catchClauses finallyBody => by
      have htry := visitStmts_traces C tryBody
      have hfinally := visitStmts_traces C finallyBody
      rw [visitStmt, checkStmt, statementsIn]
      refine htry.inScope.bind fun _ => (visitCatches_traces C catchClauses).bind fun _ => ?_
      exact .unlessEmpty hfinally.inScope
  | .matchStmt subject cases => by
      rw [visitStmt, checkStmt, statementsIn]
      exact .after _ fun t => visitCases_traces C t cases
  | .exprStmt _ | .assignStmt _ _ _ _ _ | .constStmt _ _ _ | .tupleUnpackStmt _ _ | .returnStmt _ | .breakStmt
  | .continueStmt | .passStmt | .throwStmt _ | .assertStmt _ _ | .delStmt _ | .importStmt _ | .fromImportStmt _ _
  | .interfaceDef _ _ | .enumDef _ _ | .yieldStmt _ | .chanSendStmt _ _ => by
      simp only [visitStmt, statementsIn]
      exact .untraced _

theorem visitStmts_traces (C : Context) :
    (stmts : List Stmt) → Traces (visitStmts T C stmts) (checkStmts T C stmts) (statements false stmts)
  | [] => by
      rw [visitStmts, checkStmts, statements]
      exact .untraced _
  | s :: stmts => by
      rw [visitStmts, checkStmts, statements]
      exact ((visitStmt_traces C s).bind fun _ => visitStmts_traces C stmts).noted

theorem visitElsifs_traces (C : Context) : (branches : List (Expr × List Stmt)) →
    Traces (visitElsifs T C branches) (checkElsifs T C branches) (statementsElsifs false branches)
  | [] => by
      rw [visitElsifs, checkElsifs, statementsElsifs]
      exact .untraced _
  | (condition, body) :: branches => by
      have hbody := visitStmts_traces C body
      rw [visitElsifs, checkElsifs, statementsElsifs]
      exact .after _ fun _ => hbody.inScope.bind fun _ => visitElsifs_traces C branches

theorem visitCatches_traces (C : Context) : (clauses : List (Name × Name × List Stmt)) →
    Traces (visitCatches T C clauses) (checkCatches T C clauses) (statementsCatches false clauses)
  | [] => by
      rw [visitCatches, checkCatches, statementsCatches]
      exact .untraced _
  | (exceptionType, varName, body) :: clauses => by
      have hbody := visitStmts_traces C body
      rw [visitCatches, checkCatches, statementsCatches]
      exact (Traces.after _ fun _ => hbody).inScope.bind fun _ => visitCatches_traces C clauses

theorem visitCases_traces (C : Context) (subjectType : Ty) :
    (cases : List (Option Expr × Option Expr × List Stmt)) →
      Traces (visitCases T C subjectType cases) (checkCases T C subjectType cases) (statementsCases false cases)
  | [] => by
      rw [visitCases, checkCases, statementsCases]
      exact .untraced _
  | (pattern, guard, body) :: cases => by
      have hbody := visitStmts_traces C body
      rw [visitCases, checkCases, statementsCases]
      exact .after _ fun _ => .after _ fun _ => hbody.inScope.bind fun _ => visitCases_traces C subjectType cases

end

/-! ## Where every statement is visited -/

/-- A list of statements with some left out, and when none is. -/
structure Covers (some all : List Stmt) (full : Bool) : Prop where
  length_le : some.length ≤ all.length
  eq_iff : some = all ↔ full = true

namespace Covers

variable {as bs as' bs' : List Stmt} {b b' : Bool}

theorem nil : Covers [] [] true := ⟨le_rfl, Iff.rfl.trans (iff_of_true rfl rfl)⟩

theorem append (h : Covers as bs b) (h' : Covers as' bs' b') : Covers (as ++ as') (bs ++ bs') (b && b') := by
  refine ⟨?_, ?_⟩
  · rw [List.length_append, List.length_append]
    exact Nat.add_le_add h.length_le h'.length_le
  · rw [Bool.and_eq_true, ← h.eq_iff, ← h'.eq_iff]
    constructor
    · intro heq
      -- neither part is longer than what it covers, so both are as long
      have hlength := congrArg List.length heq
      rw [List.length_append, List.length_append] at hlength
      have hle := h.length_le
      have hle' := h'.length_le
      exact List.append_inj heq (by omega)
    · rintro ⟨rfl, rfl⟩
      rfl

theorem cons (s : Stmt) (h : Covers as bs b) : Covers (s :: as) (s :: bs) b :=
  ⟨Nat.succ_le_succ h.length_le, (List.cons_inj_right s).trans h.eq_iff⟩

theorem leftOut (body : List Stmt) : Covers [] (statements true body) body.isEmpty := by
  refine ⟨Nat.zero_le _, ?_⟩
  cases body with
  | nil => simp [statements]
  | cons s stmts => simp [statements]

end Covers

mutual

theorem statementsIn_covers : (s : Stmt) → Covers (statementsIn false s) (statementsIn true s) (bareIn s)
  | .funcDef h body => by
      have hbody := statements_covers body
      rw [statementsIn, statementsIn, bareIn]
      cases h.isExtern with
      | true => exact .leftOut body
      | false => exact hbody
  | .initDef params body => by
      rw [statementsIn, statementsIn, bareIn]
      exact statements_covers body
  | .classDef h body => by
      rw [statementsIn, statementsIn, bareIn]
      exact statements_covers body
  | .ifStmt condition thenBranch elsifBranches elseBranch => by
      rw [statementsIn, statementsIn, bareIn]
      exact (statements_covers thenBranch).append ((statementsElsifs_covers elsifBranches).append (statements_covers elseBranch))
  | .forStmt var vars iterable body elseBranch => by
      rw [statementsIn, statementsIn, bareIn]
      exact (statements_covers body).append (.leftOut elseBranch)
  | .whileStmt condition body elseBranch => by
      rw [statementsIn, statementsIn, bareIn]
      exact (statements_covers body).append (.leftOut elseBranch)
  | .withStmt expr asName body => by
      rw [statementsIn, statementsIn, bareIn]
      exact statements_covers body
  | .tryStmt tryBody catchClauses finallyBody => by
      rw [statementsIn, statementsIn, bareIn]
      exact (statements_covers tryBody).append ((statementsCatches_covers catchClauses).append (statements_covers finallyBody))
  | .matchStmt subject cases => by
      rw [statementsIn, statementsIn, bareIn]
      exact statementsCases_covers cases
  | .exprStmt _ | .assignStmt _ _ _ _ _ | .constStmt _ _ _ | .tupleUnpackStmt _ _ | .returnStmt _ | .breakStmt
  | .continueStmt | .passStmt | .throwStmt _ | .assertStmt _ _ | .delStmt _ | .importStmt _ | .fromImportStmt _ _
  | .interfaceDef _ _ | .enumDef _ _ | .yieldStmt _ | .chanSendStmt _ _ => by
      simp only [statementsIn, bareIn]
      exact .nil

theorem statements_covers : (stmts : List Stmt) → Covers (statements false stmts) (statements true stmts) (bare stmts)
  | [] => by
      rw [statements, statements, bare]
      exact .nil
  | s :: stmts => by
      rw [statements, statements, bare]
      exact ((statementsIn_covers s).append (statements_covers stmts)).cons s

theorem statementsElsifs_covers : (branches : List (Expr × List Stmt)) →
    Covers (statementsElsifs false branches) (statementsElsifs true branches) (bareElsifs branches)
  | [] => by
      rw [statementsElsifs, statementsElsifs, bareElsifs]
      exact .nil
  | (_, body) :: branches => by
      rw [statementsElsifs, statementsElsifs, bareElsifs]
      exact (statements_covers body).append (statementsElsifs_covers branches)

theorem statementsCatches_covers : (clauses : List (Name × Name × List Stmt)) →
    Covers (statementsCatches false clauses) (statementsCatches true clauses) (bareCatches clauses)
  | [] => by
      rw [statementsCatches, statementsCatches, bareCatches]
      exact .nil
  | (_, _, body) :: clauses => by
      rw [statementsCatches, statementsCatches, bareCatches]
      exact (statements_covers body).append (statementsCatches_covers clauses)

theorem statementsCases_covers : (cases : List (Option Expr × Option Expr × List Stmt)) →
    Covers (statementsCases false cases) (statementsCases true cases) (bareCases cases)
  | [] => by
      rw [statementsCases, statementsCases, bareCases]
      exact .nil
  | (_, _, body) :: cases => by
      rw [statementsCases, statementsCases, bareCases]
      exact (statements_covers body).append (statementsCases_covers cases)

end

/-! ## Where there is no `else` block to go into -/

theorem recordElse (elseBranch : List Stmt) (h : elseBranch.isEmpty = true) :
    (if true then inScope (recordStmts T true C elseBranch) else pure () : Check Unit) =
      if false then inScope (recordStmts T false C elseBranch) else pure () := by
  rw [List.isEmpty_iff.mp h, recordStmts, recordStmts]
  rfl

mutual

theorem recordStmt_bare (C : Context) : (s : Stmt) → bareIn s = true → recordStmt T true C s = recordStmt T false C s
  | .funcDef h body, hbare => by
      rw [bareIn] at hbare
      rw [recordStmt, recordStmt]
      cases hforeign : h.isExtern with
      | true => rw [if_pos rfl, if_pos rfl]
      | false =>
        rw [hforeign] at hbare
        have hbody := recordStmts_bare (functionContext T C h) body hbare
        dsimp only
        rw [hbody]
  | .initDef params body, hbare => by
      rw [bareIn] at hbare
      rw [recordStmt, recordStmt, recordStmts_bare _ body hbare]
  | .classDef h body, hbare => by
      rw [bareIn] at hbare
      rw [recordStmt, recordStmt, recordStmts_bare _ body hbare]
  | .ifStmt condition thenBranch elsifBranches elseBranch, hbare => by
      rw [bareIn, Bool.and_eq_true, Bool.and_eq_true] at hbare
      rw [recordStmt, recordStmt, recordStmts_bare C thenBranch hbare.1, recordElsifs_bare C elsifBranches hbare.2.1,
        recordStmts_bare C elseBranch hbare.2.2]
  | .forStmt var vars iterable body elseBranch, hbare => by
      rw [bareIn, Bool.and_eq_true] at hbare
      rw [recordStmt, recordStmt, recordStmts_bare C body hbare.1, recordElse elseBranch hbare.2]
  | .whileStmt condition body elseBranch, hbare => by
      rw [bareIn, Bool.and_eq_true] at hbare
      rw [recordStmt, recordStmt, recordStmts_bare C body hbare.1, recordElse elseBranch hbare.2]
  | .withStmt expr asName body, hbare => by
      rw [bareIn] at hbare
      rw [recordStmt, recordStmt, recordStmts_bare C body hbare]
  | .tryStmt tryBody catchClauses finallyBody, hbare => by
      rw [bareIn, Bool.and_eq_true, Bool.and_eq_true] at hbare
      rw [recordStmt, recordStmt, recordStmts_bare C tryBody hbare.1, recordCatches_bare C catchClauses hbare.2.1,
        recordStmts_bare C finallyBody hbare.2.2]
  | .matchStmt subject cases, hbare => by
      rw [bareIn] at hbare
      rw [recordStmt, recordStmt]
      exact congrArg _ (funext fun t => recordCases_bare C t cases hbare)
  | .returnStmt value, _ => by cases value <;> simp only [recordStmt]
  | .exprStmt _, _ | .assignStmt _ _ _ _ _, _ | .constStmt _ _ _, _ | .tupleUnpackStmt _ _, _ | .breakStmt, _
  | .continueStmt, _ | .passStmt, _ | .throwStmt _, _ | .assertStmt _ _, _ | .delStmt _, _ | .importStmt _, _
  | .fromImportStmt _ _, _ | .interfaceDef _ _, _ | .enumDef _ _, _ | .yieldStmt _, _ | .chanSendStmt _ _, _ => by
      simp only [recordStmt]

theorem recordStmts_bare (C : Context) :
    (stmts : List Stmt) → bare stmts = true → recordStmts T true C stmts = recordStmts T false C stmts
  | [], _ => by rw [recordStmts, recordStmts]
  | s :: stmts, hbare => by
      rw [bare, Bool.and_eq_true] at hbare
      rw [recordStmts, recordStmts, recordStmt_bare C s hbare.1, recordStmts_bare C stmts hbare.2]

theorem recordElsifs_bare (C : Context) : (branches : List (Expr × List Stmt)) → bareElsifs branches = true →
    recordElsifs T true C branches = recordElsifs T false C branches
  | [], _ => by rw [recordElsifs, recordElsifs]
  | (condition, body) :: branches, hbare => by
      rw [bareElsifs, Bool.and_eq_true] at hbare
      rw [recordElsifs, recordElsifs, recordStmts_bare C body hbare.1, recordElsifs_bare C branches hbare.2]

theorem recordCatches_bare (C : Context) : (clauses : List (Name × Name × List Stmt)) → bareCatches clauses = true →
    recordCatches T true C clauses = recordCatches T false C clauses
  | [], _ => by rw [recordCatches, recordCatches]
  | (exceptionType, varName, body) :: clauses, hbare => by
      rw [bareCatches, Bool.and_eq_true] at hbare
      rw [recordCatches, recordCatches, recordStmts_bare C body hbare.1, recordCatches_bare C clauses hbare.2]

theorem recordCases_bare (C : Context) (subjectType : Ty) : (cases : List (Option Expr × Option Expr × List Stmt)) →
    bareCases cases = true → recordCases T true C subjectType cases = recordCases T false C subjectType cases
  | [], _ => by rw [recordCases, recordCases]
  | (pattern, guard, body) :: cases, hbare => by
      rw [bareCases, Bool.and_eq_true] at hbare
      rw [recordCases, recordCases, recordStmts_bare C body hbare.1, recordCases_bare C subjectType cases hbare.2]

end

/-! ## The guarantee -/

namespace TypeChecker

/-- The statements that `check` comes to. -/
def trace (c : TypeChecker) (p : List Stmt) : List Stmt :=
  let (T, σ) := c.begin p
  (visitStmts T {} p (σ, [])).2.2

/-- The statements checked one after another, where those that throw record their error as well. -/
def record (c : TypeChecker) (elses : Bool) (p : List Stmt) : Except Stop Unit × State :=
  let (T, σ) := c.begin p
  recordStmts T elses {} p σ

end TypeChecker

/-- **Every error is collected.**  Without the flag, `check` comes back with the scopes as they were, has visited every
statement and has every error of each; with it, `check` throws exactly when there are errors. -/
structure Collects (c : TypeChecker) (p : List Stmt) : Prop where
  returns : ({ c with throwOnFirstError := false }.check p).1 = .ok ()
  visits : c.trace p = statements true p
  scopes : ({ c with throwOnFirstError := false }.check p).2.symbols = c.state.symbols
  complete : ({ c with throwOnFirstError := false }.check p).2.errors = (c.record true p).2.errors
  throws : (∃ e, ({ c with throwOnFirstError := true }.check p).1 = .error (.thrown e)) ↔
    ({ c with throwOnFirstError := true }.check p).2.errors ≠ []

/-- Checking comes to an end, and no `assert`, `del` or `match` on its way has an error of its own. -/
def Untroubled (c : TypeChecker) (p : List Stmt) : Prop :=
  ∃ τ, c.record false p = (.ok (), τ) ∧ ∀ e ∈ τ.errors, e.isThrown = false

theorem rethrowFirst_run (throwOnFirstError : Bool) (σ : State) : rethrowFirst throwOnFirstError σ =
    match σ.errors with
    | [] => (.ok (), σ)
    | e :: _ => (if throwOnFirstError then .error (.thrown e) else .ok (), σ) := by
  rw [rethrowFirst, Effect.get_bind_run]
  cases σ.errors with
  | nil => rfl
  | cons e errs => cases throwOnFirstError <;> rfl

namespace TypeChecker

variable (c : TypeChecker) (p : List Stmt)

/-- `check` is the visit of the statements, and what is done when it comes back. -/
theorem check_run : c.check p =
    match checkStmts (c.begin p).1 {} p (c.begin p).2 with
    | (.ok _, τ) => rethrowFirst c.throwOnFirstError τ.exitScope
    | (.error s, τ) => (.error s, τ) := by
  show (checkStmts (c.begin p).1 {} p >>= fun _ => (modify State.exitScope >>= fun _ => rethrowFirst _) : Check Unit)
    (c.begin p).2 = _
  rw [Effect.bind_run]
  rcases checkStmts (c.begin p).1 {} p (c.begin p).2 with ⟨s | u, τ⟩ <;> rfl

/-- Without the flag `check` comes back where the visit of the statements does. -/
theorem ok_of_check (h : ({ c with throwOnFirstError := false }.check p).1 = .ok ()) :
    ∃ τ, checkStmts (c.begin p).1 {} p (c.begin p).2 = (.ok (), τ) := by
  rw [check_run] at h
  rcases hrun : checkStmts (c.begin p).1 {} p (c.begin p).2 with ⟨s | u, τ⟩
  · have hsame : checkStmts ({ c with throwOnFirstError := false }.begin p).1 {} p
        ({ c with throwOnFirstError := false }.begin p).2 = (.error s, τ) := hrun
    rw [hsame] at h
    cases h
  · exact ⟨τ, rfl⟩

/-- A visit that comes back does what the recording one does, and that has no error that is thrown. -/
theorem record_of_run {τ : State} (h : checkStmts (c.begin p).1 {} p (c.begin p).2 = (.ok (), τ)) :
    c.record false p = (.ok (), τ) ∧ ∀ e ∈ τ.errors, e.isThrown = false := by
  obtain ⟨errs, herrs, hsame, hstops⟩ := (checkStmts_mirrors (T := (c.begin p).1) {} p).run (c.begin p).2
  have hclean : ∀ e ∈ errs, e.isThrown = false := by
    intro e he
    by_contra hthrown
    obtain ⟨s, hs⟩ := hstops ⟨e, he, Bool.eq_true_of_not_eq_false hthrown⟩
    rw [h] at hs
    cases hs
  rw [← hsame hclean, h] at herrs
  have herrs : τ.errors = errs := herrs.trans (List.nil_append errs)
  rw [herrs]
  exact ⟨(hsame hclean).symm.trans h, hclean⟩

theorem run_of_untroubled (h : Untroubled c p) : ∃ τ, checkStmts (c.begin p).1 {} p (c.begin p).2 = (.ok (), τ) := by
  obtain ⟨τ, hrecord, hclean⟩ := h
  obtain ⟨errs, herrs, hsame, -⟩ := (checkStmts_mirrors (T := (c.begin p).1) {} p).run (c.begin p).2
  have hrecord' : recordStmts (c.begin p).1 false {} p (c.begin p).2 = (.ok (), τ) := hrecord
  rw [hrecord'] at herrs
  have herrs : τ.errors = errs := herrs.trans (List.nil_append errs)
  rw [herrs] at hclean
  exact ⟨τ, (hsame hclean).trans hrecord'⟩

/-- The trace of a visit that comes back. -/
theorem trace_of_run {τ : State} (h : checkStmts (c.begin p).1 {} p (c.begin p).2 = (.ok (), τ)) :
    c.trace p = statements false p := by
  obtain ⟨us, hrun, hend⟩ := visitStmts_traces (T := (c.begin p).1) {} p (c.begin p).2 []
  have htrace : c.trace p = us := by
    show (visitStmts (c.begin p).1 {} p ((c.begin p).2, [])).2.2 = us
    rw [hrun]
    rfl
  rw [htrace, hend () (by rw [h])]

/-- A visit that comes back leaves the file scope on the scopes that were there. -/
theorem symbols_of_run {τ : State} (h : checkStmts (c.begin p).1 {} p (c.begin p).2 = (.ok (), τ)) :
    τ.exitScope.symbols = c.state.symbols := by
  have hfollows := checkStmts_follows (T := (c.begin p).1) ∅ {} p
  obtain ⟨errs, rs, -, -, hwalked⟩ := hfollows (c.begin p).2 (List.cons_ne_nil _ _) (Set.empty_subset _)
  rw [h] at hwalked
  exact hwalked.2.1

end TypeChecker

/-- Every error is collected exactly where no loop has an `else` block, checking comes to an end, and no `assert`,
`del` or `match` on its way has an error of its own. -/
theorem collects_iff (c : TypeChecker) (p : List Stmt) : Collects c p ↔ bare p = true ∧ Untroubled c p := by
  constructor
  · intro h
    obtain ⟨τ, hrun⟩ := c.ok_of_check p h.returns
    refine ⟨(statements_covers p).eq_iff.mp ?_, τ, c.record_of_run p hrun⟩
    rw [← c.trace_of_run p hrun, h.visits]
  · rintro ⟨hbare, huntroubled⟩
    obtain ⟨τ, hrun⟩ := c.run_of_untroubled p huntroubled
    have hcheck (b : Bool) : { c with throwOnFirstError := b }.check p = rethrowFirst b τ.exitScope := by
      rw [TypeChecker.check_run]
      show (match checkStmts (c.begin p).1 {} p (c.begin p).2 with
        | (.ok _, τ) => rethrowFirst b τ.exitScope
        | (.error s, τ) => (.error s, τ)) = _
      rw [hrun]
    have hquiet : rethrowFirst false τ.exitScope = (.ok (), τ.exitScope) := by
      rw [rethrowFirst_run]
      cases τ.exitScope.errors <;> rfl
    have hrecord : c.record true p = (.ok (), τ) := by
      rw [← (c.record_of_run p hrun).1]
      exact congrFun (recordStmts_bare {} p hbare) _
    constructor
    case returns => rw [hcheck, hquiet]
    case visits => rw [c.trace_of_run p hrun, (statements_covers p).eq_iff.mpr hbare]
    case scopes =>
      rw [hcheck, hquiet]
      exact c.symbols_of_run p hrun
    case complete =>
      rw [hcheck, hquiet, hrecord]
      rfl
    case throws =>
      rw [hcheck, rethrowFirst_run]
      cases herrors : τ.exitScope.errors with
      | nil => exact iff_of_false (fun ⟨e, he⟩ => by cases he) (fun hne => hne herrors)
      | cons e errs => exact iff_of_true ⟨e, rfl⟩ (by rw [herrors]; exact List.cons_ne_nil _ _)

/-- An assertion of a number, and an undefined variable behind it. -/
def assertedNumber : List Stmt := [.assertStmt (.intLiteral 1) none, .exprStmt (.identifier { name := ['x'] })]

/-- The assertion is thrown, also without the flag, and the variable is never reported; with the flag `check` throws and
there are no errors. -/
theorem assertedNumber_thrown : ¬ Collects {} assertedNumber ∧
    (({} : TypeChecker).check assertedNumber).2.errors = [] := by
  refine ⟨fun h => ?_, rfl⟩
  have hreturns := h.returns
  cases hreturns

end Visuall.Checker
