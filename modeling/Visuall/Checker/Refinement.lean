import Visuall.Checker.Recording

/-!
# The checker walks over the names

The visitors refine the walks: each run of `checkExpr` and `checkStmt` is a walk over the names of the
node, with the reports of the errors it adds.

* `checkExpr_follows`, `checkStmts_follows` — by induction over the tree.
-/

namespace Visuall.Checker

open Visuall.Ast Visuall.Types

variable {W : Set Name} {n : Name} {e : TypeErr}

variable (T : Tables) (C : Context)

theorem checkThis_follows : Follows W [.this] (checkThis C) :=
  (Quiet.errorIf rfl _ W).quiet_bind fun _ => .lookupThis

/-! ## Expressions -/

mutual

/-- **Expressions.**  Checking an expression is a walk over its names. -/
theorem checkExpr_follows (W : Set Name) : (e : Expr) → Follows W (exprNames e) (checkExpr T C e)
  | .intLiteral _ => .pure _
  | .floatLiteral _ => .pure _
  | .stringLiteral _ => .pure _
  | .fstringLiteral _ => .pure _
  | .fstringExpr parts => by
      rw [checkExpr, exprNames]
      exact (Follows.pure _).skipped _
  | .boolLiteral _ => .pure _
  | .nullLiteral => .pure _
  | .identifier name => .lookup name
  | .thisExpr => checkThis_follows C
  | .superExpr => checkSuper_remarks.quiet W
  | .binaryExpr op left right => by
      rw [checkExpr, exprNames]
      exact (checkExpr_follows W left).bind fun lt => (checkExpr_follows W right).bind_quiet fun rt =>
        (binaryResult_remarks (T := T) op lt rt).quiet W
  | .unaryExpr op operand => by
      rw [checkExpr, exprNames]
      exact (checkExpr_follows W operand).bind_quiet fun t => (unaryResult_remarks (T := T) op t).quiet W
  | .callExpr callee args typeArgs => by
      have hargs := checkExprs_follows W args
      have hfirst := checkFirst_follows W args
      have hinput := checkInput_follows W args
      rw [checkExpr, exprNames]
      rcases builtinCall callee with _ | b
      · exact (checkExpr_follows W callee).bind fun calleeType => hargs.bind_quiet fun argTypes =>
          (callResult_remarks callee calleeType argTypes typeArgs).quiet W
      · cases b with
        | collection => exact hargs.bind_quiet fun _ => .pure _
        | isinstance =>
            exact (Quiet.errorIf rfl _ W).quiet_bind fun _ => hfirst.bind_quiet fun _ => .pure _
        | input =>
            exact (Quiet.errorIf rfl _ W).quiet_bind fun _ => hinput.bind_quiet fun _ => .pure _
        | makeChan =>
            refine Follows.skipped ?_ _
            exact (Quiet.errorIf rfl _ W).quiet_bind fun _ => hfirst.bind_quiet fun _ => .pure _
        | len =>
            exact (Quiet.errorIf rfl _ W).quiet_bind fun _ => hargs.bind_quiet fun _ => .pure _
  | .memberExpr object member => by
      rw [checkExpr, exprNames]
      exact (checkExpr_follows W object).bind_quiet fun _ => .pure _
  | .indexExpr object index => by
      rw [checkExpr, exprNames]
      exact (checkExpr_follows W object).bind fun _ => (checkExpr_follows W index).bind_quiet fun _ =>
        .pure _
  | .lambdaExpr params body => by
      rw [checkExpr, exprNames]
      exact (((Follows.declareAll _ params).bind fun _ =>
        checkExpr_follows W body).inScope).bind_quiet fun _ => .pure _
  | .listExpr [] => .pure _
  | .listExpr (first :: rest) => by
      rw [checkExpr, exprNames, exprsNames]
      exact (checkExpr_follows W first).bind fun elemType =>
        (checkElements_follows W elemType rest).bind_quiet fun _ => .pure _
  | .dictExpr [] => .pure _
  | .dictExpr ((key, value) :: rest) => by
      rw [checkExpr, exprNames, entriesNames]
      exact (checkExpr_follows W key).bind fun keyType => (checkExpr_follows W value).bind fun valType =>
        (checkEntries_follows W keyType valType rest).bind_quiet fun _ => .pure _
  | .tupleExpr elements => by
      rw [checkExpr, exprNames]
      exact (checkExprs_follows W elements).bind_quiet fun _ => .pure _
  | .ternaryExpr condition thenExpr elseExpr => by
      rw [checkExpr, exprNames]
      exact (checkExpr_follows W condition).bind fun _ => (checkExpr_follows W thenExpr).bind fun a =>
        (checkExpr_follows W elseExpr).bind_quiet fun b => (unify_remarks a b).quiet W
  | .sliceExpr object start stop step => by
      rw [checkExpr, exprNames]
      exact (checkExpr_follows W object).bind fun _ => (checkOption_follows W start).bind fun _ =>
        (checkOption_follows W stop).bind fun _ => (checkOption_follows W step).bind_quiet fun _ =>
          .pure _
  | .listComprehension body var iterable condition => by
      rw [checkExpr, exprNames]
      refine (checkExpr_follows W iterable).bind fun iterType => Follows.bind_quiet ?_ fun _ => .pure _
      exact ((Follows.declare var _).bind fun _ => (checkOption_follows W condition).bind fun _ =>
        checkExpr_follows W body).inScope
  | .dictComprehension key value var iterable condition => by
      rw [checkExpr, exprNames]
      refine (checkExpr_follows W iterable).bind fun iterType => Follows.bind_quiet ?_ fun _ => .pure _
      exact ((Follows.declare var _).bind fun _ => (checkOption_follows W condition).bind fun _ =>
        (checkExpr_follows W key).bind fun _ => (checkExpr_follows W value).bind_quiet fun _ =>
          .pure _).inScope
  | .spreadExpr operand => by
      rw [checkExpr, exprNames]
      exact checkExpr_follows W operand
  | .dictSpreadExpr operand => by
      rw [checkExpr, exprNames]
      exact checkExpr_follows W operand
  | .walrusExpr target value => by
      rw [checkExpr, exprNames]
      exact (checkExpr_follows W value).bind fun _ => (Follows.redeclare target _).bind_quiet fun _ =>
        .pure _
  | .goExpr callee args => by
      rw [checkExpr, exprNames]
      exact (checkExpr_follows W callee).bind fun _ => (checkExprs_follows W args).bind_quiet fun _ =>
        .pure _
  | .chanRecvExpr channel => by
      rw [checkExpr, exprNames]
      exact (checkExpr_follows W channel).bind_quiet fun t => (receiveResult_remarks (T := T) t).quiet W

theorem checkExprs_follows (W : Set Name) :
    (es : List Expr) → Follows W (exprsNames es) (checkExprs T C es)
  | [] => .pure _
  | e :: es => by
      rw [checkExprs, exprsNames]
      exact (checkExpr_follows W e).bind fun _ => (checkExprs_follows W es).bind_quiet fun _ => .pure _

theorem checkFirst_follows (W : Set Name) :
    (es : List Expr) → Follows W (firstNames es) (checkFirst T C es)
  | [] => .pure _
  | e :: _ => by
      rw [checkFirst, firstNames]
      exact (checkExpr_follows W e).bind_quiet fun _ => .pure _

theorem checkInput_follows (W : Set Name) :
    (es : List Expr) → Follows W (exprsNames es) (checkInput T C es)
  | [] => .pure _
  | e :: es => by
      rw [checkInput, exprsNames]
      exact (checkExpr_follows W e).bind fun _ => (Quiet.errorIf rfl _ W).quiet_bind fun _ =>
        checkInput_follows W es

theorem checkElements_follows (W : Set Name) (elemType : Ty) :
    (es : List Expr) → Follows W (exprsNames es) (checkElements T C elemType es)
  | [] => .pure _
  | e :: es => by
      rw [checkElements, exprsNames]
      exact (checkExpr_follows W e).bind fun t => ((unify_remarks elemType t).quiet W).quiet_bind fun u =>
        checkElements_follows W u es

theorem checkEntries_follows (W : Set Name) (keyType valType : Ty) :
    (es : List (Expr × Expr)) → Follows W (entriesNames es) (checkEntries T C keyType valType es)
  | [] => .pure _
  | (key, value) :: es => by
      rw [checkEntries, entriesNames]
      exact (checkExpr_follows W key).bind fun kt => (checkExpr_follows W value).bind fun vt =>
        ((unify_remarks keyType kt).quiet W).quiet_bind fun k => ((unify_remarks valType vt).quiet W).quiet_bind fun v =>
          checkEntries_follows W k v es

theorem checkOption_follows (W : Set Name) :
    (e : Option Expr) → Follows W (optionNames e) (checkOption T C e)
  | none => .pure _
  | some e => by
      rw [checkOption, optionNames]
      exact (checkExpr_follows W e).bind_quiet fun _ => .pure _

end

/-! ## What a statement makes of its children -/

theorem assignName_follows (ann : Name) (rhsType : Ty) :
    Follows W [.bind n] (assignName T C n ann rhsType) := by
  unfold assignName
  split_ifs
  · refine .isDeclared_bind (.bound (Set.mem_union_right W rfl) (.error rfl)) ?_
    exact (((requireAssignable_remarks rhsType _ rfl rfl).onlyIf _).quiet W).quiet_bind fun _ => .declare n _
  · refine .isDeclared_bind (.bound (Set.mem_union_right W rfl) ?_) (.declare n _)
    refine .get_bind fun σ => ⟨∅, Set.empty_subset _, ?_⟩
    exact (checkReassign_remarks (T := T) _ _).quiet _

theorem checkAssign_follows (target value : Expr) (ann : Name) (pos : Position) :
    Follows W (assignNames pos (exprNames value) target) (checkAssign T C target value ann pos) := by
  have hvalue := checkExpr_follows T C W value
  cases target with
  | identifier id => exact .assign hvalue (fun _ => assignName_follows T C ann _) pos
  | _ => exact hvalue.bind fun _ => (checkExpr_follows T C W _).bind_quiet fun _ => .pure _

theorem declareConst_follows (ann : Name) (rhsType : Ty) :
    Follows W [.const n] (declareConst T C n ann rhsType) := by
  unfold declareConst
  refine .isDeclared_bind (.constAgain (Set.mem_union_right W rfl) rfl) ?_
  exact (((requireAssignable_remarks rhsType _ rfl rfl).onlyIf _).quiet W).quiet_bind fun _ => .declareConst n _

theorem checkGuard_quiet (t : Ty) : Quiet (checkGuard t) := .errorIf rfl _

theorem checkWith_follows {k : Ty → Check Unit} (hk : ∀ t, Quiet (k t)) (e : Option Expr) :
    Follows W (optionNames e) (checkWith T C e k) := by
  cases e with
  | none => exact .pure ()
  | some e =>
      rw [optionNames]
      exact (checkExpr_follows T C W e).bind_quiet fun t => hk t W

theorem declareUnlessEmpty_follows (t : Ty) :
    Follows W (bindUnlessEmpty n) (declareUnlessEmpty n t) := by
  unfold bindUnlessEmpty declareUnlessEmpty
  split_ifs
  · exact .pure ()
  · exact .declare n t

theorem declareTypeParams_follows (typeParams : List Name) :
    Follows W (typeParams.map .bind) (declareTypeParams typeParams) := by
  induction typeParams with
  | nil => exact .pure ()
  | cons tp typeParams ih => exact (Follows.declare tp _).bind fun _ => ih

theorem declareSuper_follows (baseClass : Option Name) :
    Follows W (baseClass.elim [] fun _ => [.bind "super".toList]) (declareSuper baseClass) := by
  cases baseClass with
  | none => exact .pure ()
  | some base => exact .declare _ _

theorem checkParams_follows (params : List Param) :
    Follows W (paramsNames params) (checkParams T C params) := by
  induction params with
  | nil => exact .pure ()
  | cons p params ih =>
      show Follows W ((optionNames p.defaultValue ++ [.bind p.name]) ++ paramsNames params) _
      exact ((checkOption_follows T C W p.defaultValue).bind fun _ => .declare p.name _).bind fun _ =>
        ih

/-- A narrowed name is in scope. -/
theorem declareNarrowed_follows (σ : State) (condition : Expr) (branch : Narrowing → Option Ty) :
    Follows {k | ∃ m, narrowing σ condition = some m ∧ m.name = k} []
      (declareNarrowed (narrowing σ condition) branch) := by
  unfold declareNarrowed
  split
  · exact .pure ()
  · next m hm =>
      split
      · exact .pure ()
      · have hmem : m.name ∈ {k | ∃ m, narrowing σ condition = some m ∧ m.name = k} := ⟨m, hm, rfl⟩
        exact .declare_visible hmem _

/-- A name that is not in scope has no known type. -/
theorem find_of_not_declared {σ : State} (h : σ.isDeclared n = false) : σ.find n = .unknown := by
  have hnone : (σ.symbols.findSome? fun scope => scope.lookup n) = none := by
    rw [List.findSome?_eq_none_iff]
    intro scope hscope
    exact Option.not_isSome_iff_eq_none.mp (List.any_eq_false.mp h scope hscope)
  rw [State.find, hnone]
  rfl

/-- Only names in scope are narrowed: others have no type that is a union. -/
theorem narrowing_visible (σ : State) (condition : Expr) :
    {k | ∃ m, narrowing σ condition = some m ∧ m.name = k} ⊆ σ.known.visible := by
  intro k hk
  obtain ⟨m, hm, rfl⟩ := hk
  unfold narrowing at hm
  split at hm
  · next op id =>
      have hid : σ.find id.name ≠ .unknown ∧ m.name = id.name := by
        split at hm
        · next members hfind =>
            rw [hfind]
            split_ifs at hm
            · cases hm
              exact ⟨by simp, rfl⟩
            · cases hm
              exact ⟨by simp, rfl⟩
        · cases hm
      rw [hid.2]
      show σ.isDeclared id.name = true
      by_contra hdecl
      exact hid.1 (find_of_not_declared (Bool.eq_false_iff.mpr hdecl))
  · cases hm

/-! ## Statements -/

mutual

/-- **Statements.**  Checking a statement is a walk over its names. -/
theorem checkStmt_follows (W : Set Name) (C : Context) :
    (s : Stmt) → Follows W (stmtNames s) (checkStmt T C s)
  | .exprStmt expr => by
      rw [checkStmt, stmtNames]
      exact (checkExpr_follows T C W expr).bind_quiet fun _ => .pure _
  | .assignStmt target value extraTargets ann pos => by
      rw [checkStmt, stmtNames]
      exact (checkAssign_follows T C target value ann pos).skipped _
  | .constStmt name value ann => by
      rw [checkStmt, stmtNames]
      exact (checkExpr_follows T C W value).bind fun _ => declareConst_follows T C ann _
  | .tupleUnpackStmt targets value => by
      rw [checkStmt, stmtNames]
      exact (checkExpr_follows T C W value).bind fun _ => .redeclareAll _ targets
  | .returnStmt none => by
      rw [checkStmt, stmtNames]
      exact (checkReturn_remarks _ _).quiet W
  | .returnStmt (some value) => by
      rw [checkStmt, stmtNames, optionNames]
      exact (checkExpr_follows T C W value).bind_quiet fun t => (checkReturn_remarks true t).quiet W
  | .breakStmt => .pure _
  | .continueStmt => .pure _
  | .passStmt => .pure _
  | .funcDef h body => by
      have hbody := checkStmts_follows W (functionContext T C h) body
      rw [checkStmt, stmtNames]
      split_ifs
      · exact ((checkExtern_remarks (T := T) h).quiet W).skipped _
      · exact ((declareTypeParams_follows _).bind fun _ => (checkParams_follows T _ h.params).bind fun _ =>
          hbody.bind_quiet fun _ => Quiet.errorIf rfl _ W).inScope
  | .initDef params body => by
      rw [checkStmt, stmtNames]
      exact ((checkParams_follows T _ params).bind fun _ =>
        checkStmts_follows W (initContext C) body).inScope
  | .classDef h body => by
      rw [checkStmt, stmtNames]
      exact ((Follows.declare _ _).bind fun _ => (declareTypeParams_follows _).bind fun _ =>
        (declareSuper_follows h.baseClass).bind fun _ =>
        (checkStmts_follows W (classContext C h) body).bind_quiet fun _ =>
          ((checkOverrides_remarks h).bind fun _ => checkInterfaces_remarks h).quiet W).inScope
  | .ifStmt condition thenBranch elsifBranches elseBranch => by
      rw [checkStmt, stmtNames]
      refine (checkExpr_follows T C W condition).bind fun _ => .get_bind fun σ => ?_
      refine ⟨_, narrowing_visible σ condition, ?_⟩
      refine Follows.scope_bind ?_ fun _ => .bind (checkElsifs_follows _ C elsifBranches) fun _ => ?_
      · exact (((declareNarrowed_follows σ condition _).mono Set.subset_union_right).quiet_bind fun _ =>
          checkStmts_follows _ C thenBranch).inScope
      · have helse := ((declareNarrowed_follows σ condition Narrowing.elseType).mono
          (Set.subset_union_right (s := W))).quiet_bind fun _ => checkStmts_follows _ C elseBranch
        cases elseBranch with
        | nil => exact .emptyScope
        | cons s stmts => exact helse.inScope
  | .forStmt var vars iterable body elseBranch => by
      have hbody := checkStmts_follows W C body
      rw [checkStmt, stmtNames]
      refine (checkExpr_follows T C W iterable).bind fun t => ?_
      exact (((Follows.redeclare var _).skipped _).bind fun _ => hbody).inScope.scope_skipped _
  | .whileStmt condition body elseBranch => by
      rw [checkStmt, stmtNames]
      refine (checkExpr_follows T C W condition).bind fun _ => ?_
      exact (checkStmts_follows W C body).inScope.skipped _
  | .withStmt expr asName body => by
      rw [checkStmt, stmtNames]
      exact (checkExpr_follows T C W expr).bind fun _ => ((declareUnlessEmpty_follows _).bind fun _ =>
        checkStmts_follows W C body).inScope
  | .tryStmt tryBody catchClauses finallyBody => by
      have hfinally := checkStmts_follows W C finallyBody
      rw [checkStmt, stmtNames]
      refine Follows.scope_bind (checkStmts_follows W C tryBody).inScope fun _ => ?_
      refine (checkCatches_follows W C catchClauses).bind fun _ => ?_
      cases finallyBody with
      | nil => exact .emptyScope
      | cons s stmts => exact hfinally.inScope
  | .throwStmt expr => by
      rw [checkStmt, stmtNames]
      exact checkOption_follows T C W expr
  | .assertStmt condition message => by
      rw [checkStmt, stmtNames]
      exact (checkExpr_follows T C W condition).bind fun t => ((assertKind_remarks (T := T) _ t rfl).quiet W).quiet_bind fun _ =>
        checkWith_follows T C (fun t => (assertKind_remarks (T := T) _ t rfl).quiet) message
  | .delStmt target => by
      have htarget := checkExpr_follows T C W target
      rw [checkStmt, stmtNames]
      refine ((checkDelTarget_remarks (T := T) target).quiet W).quiet_bind fun _ => ?_
      unfold delNames
      split
      · next name =>
          rw [exprNames] at htarget
          exact (htarget.del name.name).bind_quiet fun _ => .pure _
      · exact htarget.bind_quiet fun _ => .pure _
  | .matchStmt subject cases => by
      rw [checkStmt, stmtNames]
      exact (checkExpr_follows T C W subject).bind fun t => checkCases_follows W C t cases
  | .importStmt module => .declare _ _
  | .fromImportStmt module names => .declareAll _ names
  | .interfaceDef _ _ => .pure _
  | .enumDef name members => by
      rw [checkStmt, stmtNames]
      exact (Follows.pure _).skipped _
  | .yieldStmt value => by
      rw [checkStmt, stmtNames]
      exact checkOption_follows T C W value
  | .chanSendStmt channel value => by
      have hvalue := checkExpr_follows T C W value
      rw [checkStmt, stmtNames]
      refine (checkExpr_follows T C W channel).bind fun t => ?_
      split
      · exact (hvalue.bind_quiet fun u => ((unify_remarks _ u).quiet W).quiet_bind fun _ => .pure _).sent
      · exact .unsent _ rfl

theorem checkStmts_follows (W : Set Name) (C : Context) :
    (stmts : List Stmt) → Follows W (stmtsNames stmts) (checkStmts T C stmts)
  | [] => .pure _
  | s :: stmts => by
      rw [checkStmts, stmtsNames]
      exact (checkStmt_follows W C s).bind fun _ => checkStmts_follows W C stmts

theorem checkElsifs_follows (W : Set Name) (C : Context) :
    (branches : List (Expr × List Stmt)) → Follows W (elsifsNames branches) (checkElsifs T C branches)
  | [] => .pure _
  | (condition, body) :: branches => by
      rw [checkElsifs, elsifsNames]
      refine (checkExpr_follows T C W condition).bind fun _ => ?_
      exact Follows.scope_bind (checkStmts_follows W C body).inScope fun _ =>
        checkElsifs_follows W C branches

theorem checkCatches_follows (W : Set Name) (C : Context) :
    (clauses : List (Name × Name × List Stmt)) →
      Follows W (catchesNames clauses) (checkCatches T C clauses)
  | [] => .pure _
  | (exceptionType, varName, body) :: clauses => by
      rw [checkCatches, catchesNames]
      refine Follows.scope_bind ?_ fun _ => checkCatches_follows W C clauses
      exact ((declareUnlessEmpty_follows _).bind fun _ => checkStmts_follows W C body).inScope

theorem checkCases_follows (W : Set Name) (C : Context) (subjectType : Ty) :
    (cases : List (Option Expr × Option Expr × List Stmt)) →
      Follows W (casesNames cases) (checkCases T C subjectType cases)
  | [] => .pure _
  | (pattern, guard, body) :: cases => by
      rw [checkCases, casesNames]
      refine (checkWith_follows T C (fun t => (checkPattern_remarks (T := T) subjectType t).quiet) pattern).bind fun _ => ?_
      refine (checkWith_follows T C checkGuard_quiet guard).bind fun _ => ?_
      exact Follows.scope_bind (checkStmts_follows W C body).inScope fun _ =>
        checkCases_follows W C subjectType cases

end

end Visuall.Checker
