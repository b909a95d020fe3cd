import Visuall.Checker.Follows

/-!
# Recording instead of throwing

Most visitors record an error and go on; those of `assert`, `del` and `match` throw it.  Here they are next to visitors
that record these errors as well, and that can also go into the `else` blocks of loops.

* `recordStmt`, `recordStmts` — the visitors that record everything;
* `Remarks` — two visitors that do nothing with names, except that the second one records what the first one throws;
* `Mirrors` — two visitors that are built alike, with that exception;
* `checkExpr_plain`, `checkStmts_mirrors` — the visitors are;
* `Mirrors.run` — so they do the same up to the first error that is thrown;
* `Clean` — runs without an error, and their parts.
-/

namespace Visuall.Checker

open Visuall.Ast Visuall.Types

/-! ## Visitors that record -/

/-- The errors that are thrown. -/
def TypeErr.isThrown : TypeErr → Bool
  | .assertCondition _ | .assertMessage _ | .delTarget | .matchPattern _ _ => true
  | _ => false

section Record

variable (T : Tables)

/-- `assertKind`, recorded. -/
def recordKind (k : Kind) (t : Ty) (e : TypeErr) : Check Unit := onlyIf (kind t ≠ k && !isUnknown t) (error e)

/-- `checkPattern`, recorded. -/
def recordPattern (subjectType patternType : Ty) : Check Unit :=
  onlyIf (!isUnknown subjectType && !isUnknown patternType && kind subjectType ≠ kind patternType)
    (error (.matchPattern patternType subjectType))

/-- `checkDelTarget`, recorded. -/
def recordDelTarget : Expr → Check Unit
  | .identifier _ | .indexExpr _ _ | .memberExpr _ _ => pure ()
  | _ => error .delTarget

mutual

/-- A visit that records every error; `elses` tells whether it goes into the `else` blocks of loops. -/
def recordStmt (elses : Bool) (C : Context) : Stmt → Check Unit
  | .exprStmt expr => do
      let _ ← checkExpr T C expr
      pure ()
  | .assignStmt target value _ ann pos => checkAssign T C target value ann pos
  | .constStmt name value ann => do
      let rhsType ← checkExpr T C value
      declareConst T C name ann rhsType
  | .tupleUnpackStmt targets value => do
      let _ ← checkExpr T C value
      declareAll .unknown targets
  | .returnStmt none => checkReturn T C false .void
  | .returnStmt (some value) => do
      let retType ← checkExpr T C value
      checkReturn T C true retType
  | .breakStmt => pure ()
  | .continueStmt => pure ()
  | .passStmt => pure ()
  | .funcDef h body =>
      if h.isExtern then checkExtern C h
      else
        let inner := functionContext T C h
        inScope do
          declareTypeParams h.typeParams
          checkParams T inner h.params
          recordStmts elses inner body
          checkMissingReturn inner h.name body
  | .initDef params body =>
      inScope do
        checkParams T (initContext C) params
        recordStmts elses (initContext C) body
  | .classDef h body =>
      inScope do
        declare "this".toList (.cls h.name)
        declareTypeParams h.typeParams
        declareSuper h.baseClass
        recordStmts elses (classContext C h) body
        checkOverrides T h
        checkInterfaces T h
  | .ifStmt condition thenBranch elsifBranches elseBranch => do
      let _ ← checkExpr T C condition
      let n := narrowing (← get) condition
      inScope do
        declareNarrowed n Narrowing.thenType
        recordStmts elses C thenBranch
      recordElsifs elses C elsifBranches
      if elseBranch.isEmpty then pure ()
      else
        inScope do
          declareNarrowed n Narrowing.elseType
          recordStmts elses C elseBranch
  | .forStmt var _ iterable body elseBranch => do
      let iterType ← checkExpr T C iterable
      inScope do
        declare var (elementType iterType)
        recordStmts elses C body
      if elses then inScope (recordStmts elses C elseBranch) else pure ()
  | .whileStmt condition body elseBranch => do
      let _ ← checkExpr T C condition
      inScope (recordStmts elses C body)
      if elses then inScope (recordStmts elses C elseBranch) else pure ()
  | .withStmt expr asName body => do
      let _ ← checkExpr T C expr
      inScope do
        declareUnlessEmpty asName .unknown
        recordStmts elses C body
  | .tryStmt tryBody catchClauses finallyBody => do
      inScope (recordStmts elses C tryBody)
      recordCatches elses C catchClauses
      if finallyBody.isEmpty then pure () else inScope (recordStmts elses C finallyBody)
  | .throwStmt expr => checkOption T C expr
  | .assertStmt condition message => do
      let condType ← checkExpr T C condition
      recordKind .bool condType (.assertCondition condType)
      checkWith T C message fun msgType => recordKind .str msgType (.assertMessage msgType)
  | .delStmt target => do
      recordDelTarget target
      let _ ← checkExpr T C target
      pure ()
  | .matchStmt subject cases => do
      let subjectType ← checkExpr T C subject
      recordCases elses C subjectType cases
  | .importStmt module => declare (module.takeWhile (· ≠ '.')) .unknown
  | .fromImportStmt _ names => declareAll .unknown names
  | .interfaceDef _ _ => pure ()
  | .enumDef _ _ => pure ()
  | .yieldStmt value => checkOption T C value
  | .chanSendStmt channel value => do
      match ← checkExpr T C channel with
      | .chan elem => do
          let valType ← checkExpr T C value
          let _ ← unify T elem valType
          pure ()
      | t => error (.sendTo t)

/-- The statements of a list. -/
def recordStmts (elses : Bool) (C : Context) : List Stmt → Check Unit
  | [] => pure ()
  | s :: stmts => do
      recordStmt elses C s
      recordStmts elses C stmts

/-- The `elsif` branches. -/
def recordElsifs (elses : Bool) (C : Context) : List (Expr × List Stmt) → Check Unit
  | [] => pure ()
  | (condition, body) :: branches => do
      let _ ← checkExpr T C condition
      inScope (recordStmts elses C body)
      recordElsifs elses C branches

/-- The `catch` clauses. -/
def recordCatches (elses : Bool) (C : Context) : List (Name × Name × List Stmt) → Check Unit
  | [] => pure ()
  | (exceptionType, varName, body) :: clauses => do
      inScope do
        declareUnlessEmpty varName (resolveOrUnknown T C exceptionType)
        recordStmts elses C body
      recordCatches elses C clauses

/-- The cases of a `match`. -/
def recordCases (elses : Bool) (C : Context) (subjectType : Ty) :
    List (Option Expr × Option Expr × List Stmt) → Check Unit
  | [] => pure ()
  | (pattern, guard, body) :: cases => do
      checkWith T C pattern (recordPattern subjectType)
      checkWith T C guard checkGuard
      inScope (recordStmts elses C body)
      recordCases elses C subjectType cases

end

end Record

/-! ## Visitors that are built alike -/

/-- **Two visitors that do nothing with names**, except that the second one records what the first one throws. -/
inductive Remarks (T : Tables) : {α : Type} → Check α → Check α → Prop
  | pure {α : Type} (a : α) : Remarks T (Pure.pure a : Check α) (Pure.pure a)
  | bind {α β : Type} {x y : Check α} {f g : α → Check β} (hx : Remarks T x y) (hf : ∀ a, Remarks T (f a) (g a)) :
      Remarks T (x >>= f) (y >>= g)
  | error (e : TypeErr) (he : e.isThrown = false) (hr : report e = .other) : Remarks T (Checker.error e) (Checker.error e)
  | thrown (e : TypeErr) (he : e.isThrown = true) : Remarks T (throwTypeError e) (Checker.error e)
  | assignable (given expected : Ty) : Remarks T (isAssignable T given expected) (isAssignable T given expected)

/-- A visitor that does nothing with names and throws nothing. -/
abbrev Remark (T : Tables) {α : Type} (x : Check α) : Prop := Remarks T x x

/-- **Two visitors that are built alike**, except that the second one records what the first one throws. -/
inductive Mirrors (T : Tables) : {α : Type} → Check α → Check α → Prop
  | pure {α : Type} (a : α) : Mirrors T (Pure.pure a : Check α) (Pure.pure a)
  | bind {α β : Type} {x y : Check α} {f g : α → Check β} (hx : Mirrors T x y) (hf : ∀ a, Mirrors T (f a) (g a)) :
      Mirrors T (x >>= f) (y >>= g)
  | get : Mirrors T (MonadState.get : Check State) MonadState.get
  | modify (f : State → State) (hf : ∀ σ, (f σ).errors = σ.errors) :
      Mirrors T (modifyThe State f : Check Unit) (modifyThe State f)
  | error (e : TypeErr) (he : e.isThrown = false) : Mirrors T (Checker.error e) (Checker.error e)
  | thrown (e : TypeErr) (he : e.isThrown = true) : Mirrors T (throwTypeError e) (Checker.error e)
  | assignable (given expected : Ty) : Mirrors T (isAssignable T given expected) (isAssignable T given expected)

/-- A visitor that throws nothing. -/
abbrev Plain (T : Tables) {α : Type} (x : Check α) : Prop := Mirrors T x x

variable {T : Tables} {α β : Type} {x y : Check α} {f g : α → Check β} {e : TypeErr} {C : Context} {σ : State}

namespace Remarks

theorem ite {c : Prop} [Decidable c] {x' y' : Check α} (h : Remarks T x y) (h' : Remarks T x' y') :
    Remarks T (if c then x else x') (if c then y else y') := by
  by_cases hc : c
  · rw [if_pos hc, if_pos hc]
    exact h
  · rw [if_neg hc, if_neg hc]
    exact h'

theorem onlyIf {x y : Check Unit} (h : Remarks T x y) (b : Bool) :
    Remarks T (Checker.onlyIf b x) (Checker.onlyIf b y) := h.ite (.pure ())

theorem errorIf (b : Bool) (he : e.isThrown = false) (hr : report e = .other) :
    Remark T (Checker.onlyIf b (Checker.error e)) := (error e he hr).onlyIf b

theorem errorThen (a : α) (he : e.isThrown = false) (hr : report e = .other) :
    Remark T (do Checker.error e; Pure.pure a : Check α) :=
  (error e he hr).bind fun _ => .pure a

theorem forM {ι : Type} {k : ι → Check Unit} (h : ∀ i, Remark T (k i)) (is : List ι) : Remark T (is.forM k) := by
  induction is with
  | nil => exact .pure ()
  | cons i is ih => exact (h i).bind fun _ => ih

theorem mirrors (h : Remarks T x y) : Mirrors T x y := by
  induction h with
  | pure a => exact .pure a
  | bind _ _ ihx ihf => exact ihx.bind ihf
  | error e he => exact .error e he
  | thrown e he => exact .thrown e he
  | assignable given expected => exact .assignable given expected

theorem quiet (h : Remarks T x y) : Quiet x := by
  induction h with
  | pure a => exact .pure a
  | bind _ _ ihx ihf => exact ihx.bind ihf
  | error e _ hr => exact .error hr
  | thrown e => exact .throw _
  | assignable given expected =>
    unfold isAssignable
    split
    · exact .pure _
    · exact .throw _

end Remarks

namespace Mirrors

theorem ite {c : Prop} [Decidable c] {x' y' : Check α} (h : Mirrors T x y) (h' : Mirrors T x' y') :
    Mirrors T (if c then x else x') (if c then y else y') := by
  by_cases hc : c
  · rw [if_pos hc, if_pos hc]
    exact h
  · rw [if_neg hc, if_neg hc]
    exact h'

theorem onlyIf {x y : Check Unit} (b : Bool) (h : Mirrors T x y) :
    Mirrors T (Checker.onlyIf b x) (Checker.onlyIf b y) := h.ite (.pure ())

theorem errorIf (b : Bool) (he : e.isThrown = false) : Plain T (Checker.onlyIf b (Checker.error e)) :=
  (error e he).onlyIf b

theorem errorThen (a : α) (he : e.isThrown = false) :
    Plain T (do Checker.error e; Pure.pure a : Check α) :=
  (error e he).bind fun _ => .pure a

theorem forM {ι : Type} {k : ι → Check Unit} (h : ∀ i, Plain T (k i)) (is : List ι) : Plain T (is.forM k) := by
  induction is with
  | nil => exact .pure ()
  | cons i is ih => exact (h i).bind fun _ => ih

theorem declare (n : Name) (t : Ty) : Plain T (Checker.declare n t) := by
  refine .modify _ fun σ => ?_
  unfold State.declare
  split <;> rfl

theorem declareAll (t : Ty) (names : List Name) : Plain T (Checker.declareAll t names) := by
  induction names with
  | nil => exact .pure ()
  | cons n names ih => exact (declare n t).bind fun _ => ih

theorem isDeclared (n : Name) : Plain T (Checker.isDeclared n) := Mirrors.get.bind fun _ => .pure _

theorem find (n : Name) : Plain T (Checker.find n) := Mirrors.get.bind fun _ => .pure _

theorem inScope (h : Mirrors T x y) : Mirrors T (Checker.inScope x) (Checker.inScope y) :=
  (Mirrors.modify State.enterScope fun _ => rfl).bind fun _ => h.bind fun a =>
    (Mirrors.modify State.exitScope fun _ => rfl).bind fun _ => .pure a

/-- A visitor at whose end nothing is added. -/
theorem bind_pure_right {y : Check Unit} {x : Check Unit} (h : Mirrors T x y) :
    Mirrors T x (do y; Pure.pure ()) := by
  have hsame : (do y; Pure.pure () : Check Unit) = y := bind_pure_unit
  rw [hsame]
  exact h

end Mirrors

/-! ## Helpers -/

theorem lookup_plain (name : Occurrence) : Plain T (lookup name) := by
  refine (Mirrors.isDeclared _).bind fun _ => .ite (.find _) (.ite (.pure _) ?_)
  exact .errorThen _ rfl

theorem requireAssignable_remarks (given expected : Ty) (he : e.isThrown = false) (hr : report e = .other) :
    Remark T (requireAssignable T given expected e) :=
  (Remarks.assignable given expected).bind fun _ => .errorIf _ he hr

theorem unify_remarks (a b : Ty) : Remark T (unify T a b) := by
  unfold unify
  iterate 6 refine .ite (.pure _) ?_
  refine (Remarks.assignable a b).bind fun forth => ?_
  refine .ite (.pure _) ((Remarks.assignable b a).bind fun back => ?_)
  exact .ite (.pure _) (.errorThen _ rfl rfl)

theorem complain_remarks {lt rt : Ty} (he : e.isThrown = false) (hr : report e = .other) : Remark T (complain lt rt e) :=
  (Remarks.errorIf _ he hr).bind fun _ => .pure _

theorem binaryResult_remarks (op : BinOp) (lt rt : Ty) : Remark T (binaryResult op lt rt) := by
  cases op with
  | add => exact .ite (.pure _) (.ite (.pure _) (complain_remarks rfl rfl))
  | sub | mul | div | mod | pow | intDiv => exact .ite (.pure _) (complain_remarks rfl rfl)
  | eq | neq =>
      exact .ite (.pure _) (.ite (.pure _) (.ite (.pure _) ((complain_remarks rfl rfl).bind fun _ => .pure _)))
  | lt | gt | lte | gte => exact .ite (.pure _) (.ite (.pure _) ((complain_remarks rfl rfl).bind fun _ => .pure _))
  | and | or | «in» | notIn => exact .pure _
  | bitAnd | bitOr | bitXor | shl | shr => exact .ite (.pure _) (.ite (.errorThen _ rfl rfl) (complain_remarks rfl rfl))
  | nullCoalesce => exact .pure _

theorem unaryResult_remarks (op : UnaryOp) (t : Ty) : Remark T (unaryResult op t) := by
  cases op with
  | neg => exact .ite (.pure _) (complain_remarks rfl rfl)
  | bitNot => exact .ite (.pure _) (.ite (.errorThen _ rfl rfl) (complain_remarks rfl rfl))
  | not => exact .pure _

theorem checkThis_plain : Plain T (checkThis C) :=
  (Mirrors.errorIf _ rfl).bind fun _ => lookup_plain _

theorem checkSuper_remarks : Remark T (checkSuper T C) := by
  unfold checkSuper
  refine .ite (.errorThen _ rfl rfl) ?_
  split
  · exact .ite (.errorThen _ rfl rfl) (.pure _)
  · exact .errorThen _ rfl rfl

theorem receiveResult_remarks (t : Ty) : Remark T (receiveResult t) := by
  unfold receiveResult
  split
  · exact .pure _
  · exact .errorThen _ rfl rfl

theorem checkBound_remarks (funcName param : Name) (concrete : Ty) : Remark T (checkBound T funcName param concrete) := by
  unfold checkBound
  split
  · exact .errorIf _ rfl rfl
  · exact .pure ()

theorem checkBounds_remarks (funcName : Name) (map : List (Name × Ty)) : Remark T (checkBounds T funcName map) := by
  induction map with
  | nil => exact .pure ()
  | cons entry map ih => exact (checkBound_remarks funcName _ _).bind fun _ => ih

theorem checkArgTypes_remarks (funcName : Name) (pairs : List (Ty × Ty)) :
    Remark T (checkArgTypes T funcName pairs) := by
  induction pairs with
  | nil => exact .pure ()
  | cons pair pairs ih => exact ((requireAssignable_remarks _ _ rfl rfl).onlyIf _).bind fun _ => ih

theorem callFunction_remarks (funcName : Name) (retType : Ty) (paramTypes argTypes : List Ty)
    (typeArgs : List Name) : Remark T (callFunction T C funcName retType paramTypes argTypes typeArgs) := by
  unfold callFunction
  refine .ite ?_ ?_
  · refine (checkBounds_remarks _ _).bind fun _ => (Remarks.errorIf _ rfl rfl).bind fun _ => ?_
    split
    · exact .pure _
    · exact .pure _
  · exact (Remarks.errorIf _ rfl rfl).bind fun _ => (checkArgTypes_remarks _ _).bind fun _ => .pure _

theorem callResult_remarks (callee : Expr) (calleeType : Ty) (argTypes : List Ty) (typeArgs : List Name) :
    Remark T (callResult T C callee calleeType argTypes typeArgs) := by
  unfold callResult
  split
  · exact callFunction_remarks _ _ _ _ _
  · exact .pure _
  · exact .pure _
  · split
    · exact .errorThen _ rfl rfl
    · exact .errorThen _ rfl rfl

/-! ## Expressions -/

mutual

/-- The visitors of expressions throw nothing. -/
theorem checkExpr_plain : (e : Expr) → Plain T (checkExpr T C e)
  | .intLiteral _ => .pure _
  | .floatLiteral _ => .pure _
  | .stringLiteral _ => .pure _
  | .fstringLiteral _ => .pure _
  | .fstringExpr _ => .pure _
  | .boolLiteral _ => .pure _
  | .nullLiteral => .pure _
  | .identifier name => lookup_plain name
  | .thisExpr => checkThis_plain
  | .superExpr => checkSuper_remarks.mirrors
  | .binaryExpr op left right => by
      rw [checkExpr]
      exact (checkExpr_plain left).bind fun lt => (checkExpr_plain right).bind fun rt =>
        (binaryResult_remarks op lt rt).mirrors
  | .unaryExpr op operand => by
      rw [checkExpr]
      exact (checkExpr_plain operand).bind fun t => (unaryResult_remarks op t).mirrors
  | .callExpr callee args typeArgs => by
      have hargs := checkExprs_plain args
      have hfirst := checkFirst_plain args
      have hinput := checkInput_plain args
      rw [checkExpr]
      rcases builtinCall callee with _ | b
      · exact (checkExpr_plain callee).bind fun calleeType => hargs.bind fun argTypes =>
          (callResult_remarks callee calleeType argTypes typeArgs).mirrors
      · cases b with
        | collection => exact hargs.bind fun _ => .pure _
        | isinstance => exact (Mirrors.errorIf _ rfl).bind fun _ => hfirst.bind fun _ => .pure _
        | input => exact (Mirrors.errorIf _ rfl).bind fun _ => hinput.bind fun _ => .pure _
        | makeChan => exact (Mirrors.errorIf _ rfl).bind fun _ => hfirst.bind fun _ => .pure _
        | len => exact (Mirrors.errorIf _ rfl).bind fun _ => hargs.bind fun _ => .pure _
  | .memberExpr object member => by
      rw [checkExpr]
      exact (checkExpr_plain object).bind fun _ => .pure _
  | .indexExpr object index => by
      rw [checkExpr]
      exact (checkExpr_plain object).bind fun _ => (checkExpr_plain index).bind fun _ => .pure _
  | .lambdaExpr params body => by
      rw [checkExpr]
      exact ((Mirrors.declareAll _ params).bind fun _ => checkExpr_plain body).inScope.bind fun _ => .pure _
  | .listExpr [] => .pure _
  | .listExpr (first :: rest) => by
      rw [checkExpr]
      exact (checkExpr_plain first).bind fun elemType => (checkElements_plain elemType rest).bind fun _ => .pure _
  | .dictExpr [] => .pure _
  | .dictExpr ((key, value) :: rest) => by
      rw [checkExpr]
      exact (checkExpr_plain key).bind fun keyType => (checkExpr_plain value).bind fun valType =>
        (checkEntries_plain keyType valType rest).bind fun _ => .pure _
  | .tupleExpr elements => by
      rw [checkExpr]
      exact (checkExprs_plain elements).bind fun _ => .pure _
  | .ternaryExpr condition thenExpr elseExpr => by
      rw [checkExpr]
      exact (checkExpr_plain condition).bind fun _ => (checkExpr_plain thenExpr).bind fun a =>
        (checkExpr_plain elseExpr).bind fun b => (unify_remarks a b).mirrors
  | .sliceExpr object start stop step => by
      rw [checkExpr]
      exact (checkExpr_plain object).bind fun _ => (checkOption_plain start).bind fun _ =>
        (checkOption_plain stop).bind fun _ => (checkOption_plain step).bind fun _ => .pure _
  | .listComprehension body var iterable condition => by
      rw [checkExpr]
      refine (checkExpr_plain iterable).bind fun iterType => Mirrors.bind ?_ fun _ => .pure _
      exact ((Mirrors.declare var _).bind fun _ => (checkOption_plain condition).bind fun _ =>
        checkExpr_plain body).inScope
  | .dictComprehension key value var iterable condition => by
      rw [checkExpr]
      refine (checkExpr_plain iterable).bind fun iterType => Mirrors.bind ?_ fun _ => .pure _
      exact ((Mirrors.declare var _).bind fun _ => (checkOption_plain condition).bind fun _ =>
        (checkExpr_plain key).bind fun _ => (checkExpr_plain value).bind fun _ => .pure _).inScope
  | .spreadExpr operand => by
      rw [checkExpr]
      exact checkExpr_plain operand
  | .dictSpreadExpr operand => by
      rw [checkExpr]
      exact checkExpr_plain operand
  | .walrusExpr target value => by
      rw [checkExpr]
      exact (checkExpr_plain value).bind fun _ => (Mirrors.declare target _).bind fun _ => .pure _
  | .goExpr callee args => by
      rw [checkExpr]
      exact (checkExpr_plain callee).bind fun _ => (checkExprs_plain args).bind fun _ => .pure _
  | .chanRecvExpr channel => by
      rw [checkExpr]
      exact (checkExpr_plain channel).bind fun t => (receiveResult_remarks t).mirrors

theorem checkExprs_plain : (es : List Expr) → Plain T (checkExprs T C es)
  | [] => .pure _
  | e :: es => by
      rw [checkExprs]
      exact (checkExpr_plain e).bind fun _ => (checkExprs_plain es).bind fun _ => .pure _

theorem checkFirst_plain : (es : List Expr) → Plain T (checkFirst T C es)
  | [] => .pure _
  | e :: _ => by
      rw [checkFirst]
      exact (checkExpr_plain e).bind fun _ => .pure _

theorem checkInput_plain : (es : List Expr) → Plain T (checkInput T C es)
  | [] => .pure _
  | e :: es => by
      rw [checkInput]
      exact (checkExpr_plain e).bind fun _ => (Mirrors.errorIf _ rfl).bind fun _ => checkInput_plain es

theorem checkElements_plain (elemType : Ty) : (es : List Expr) → Plain T (checkElements T C elemType es)
  | [] => .pure _
  | e :: es => by
      rw [checkElements]
      exact (checkExpr_plain e).bind fun t => (unify_remarks elemType t).mirrors.bind fun u => checkElements_plain u es

theorem checkEntries_plain (keyType valType : Ty) :
    (es : List (Expr × Expr)) → Plain T (checkEntries T C keyType valType es)
  | [] => .pure _
  | (key, value) :: es => by
      rw [checkEntries]
      exact (checkExpr_plain key).bind fun kt => (checkExpr_plain value).bind fun vt =>
        (unify_remarks keyType kt).mirrors.bind fun k => (unify_remarks valType vt).mirrors.bind fun v =>
          checkEntries_plain k v es

theorem checkOption_plain : (e : Option Expr) → Plain T (checkOption T C e)
  | none => .pure _
  | some e => by
      rw [checkOption]
      exact (checkExpr_plain e).bind fun _ => .pure _

end

/-! ## What a statement makes of its children -/

theorem checkReassign_remarks (existing rhsType : Ty) : Remark T (checkReassign existing rhsType) :=
  ((Remarks.errorIf _ rfl rfl).ite (.error _ rfl rfl)).onlyIf _

theorem assignName_plain (name ann : Name) (rhsType : Ty) : Plain T (assignName T C name ann rhsType) := by
  unfold assignName
  refine .ite ((Mirrors.isDeclared _).bind fun _ => .ite (.error _ rfl) ?_)
    ((Mirrors.isDeclared _).bind fun _ => .ite ?_ (.declare _ _))
  · exact ((requireAssignable_remarks _ _ rfl rfl).onlyIf _).mirrors.bind fun _ => .declare _ _
  · exact (Mirrors.find _).bind fun _ => (checkReassign_remarks _ _).mirrors

theorem checkAssign_plain (target value : Expr) (ann : Name) (pos : Position) :
    Plain T (checkAssign T C target value ann pos) := by
  unfold checkAssign
  split
  · refine Mirrors.get.bind fun σ => .ite ?_ ?_
    · exact (Mirrors.error _ rfl).bind fun _ => (checkExpr_plain value).bind fun _ => .pure _
    · exact (checkExpr_plain value).bind fun _ => assignName_plain _ _ _
  · exact (checkExpr_plain value).bind fun _ => (checkExpr_plain _).bind fun _ => .pure _

theorem declareConst_plain (name ann : Name) (rhsType : Ty) : Plain T (declareConst T C name ann rhsType) := by
  unfold declareConst
  refine (Mirrors.isDeclared _).bind fun _ => .ite (.error _ rfl) ?_
  exact ((requireAssignable_remarks _ _ rfl rfl).onlyIf _).mirrors.bind fun _ => (Mirrors.declare _ _).bind fun _ =>
    .modify _ fun _ => rfl

theorem checkReturn_remarks (hasValue : Bool) (retType : Ty) : Remark T (checkReturn T C hasValue retType) := by
  refine ((Remarks.bind (.assignable _ _) fun ok => ?_).onlyIf _).bind fun _ => .errorIf _ rfl rfl
  exact ((Remarks.errorIf _ rfl rfl).ite (.error _ rfl rfl)).onlyIf _

theorem checkExtern_remarks (h : FuncHeader) : Remark T (checkExtern C h) :=
  (Remarks.errorIf _ rfl rfl).bind fun _ => (Remarks.errorIf _ rfl rfl).bind fun _ => .forM (fun _ => .errorIf _ rfl rfl) _

theorem checkOverride_remarks (child base : MethodInfo) : Remark T (checkOverride child base) :=
  (Remarks.errorIf _ rfl rfl).bind fun _ => (Remarks.forM (fun _ => .errorIf _ rfl rfl) _).bind fun _ => .errorIf _ rfl rfl

theorem checkOverrides_remarks (h : ClassHeader) : Remark T (checkOverrides T h) := by
  unfold checkOverrides
  split
  · exact .pure ()
  · split
    · exact .forM (fun _ => .forM (fun _ => (checkOverride_remarks _ _).onlyIf _) _) _
    · exact .pure ()

/-- What is checked for one interface. -/
theorem checkInterface_remarks (h : ClassHeader) (ifaceName : Name) :
    Remark T (match T.interfaceTable.lookup ifaceName, T.classTable.lookup h.name with
      | some methods, some info => methods.forM fun ifaceMethod =>
          onlyIf (!info.methods.any fun m => m.name = ifaceMethod.name)
            (error (.missingMethod h.name ifaceMethod.name ifaceName))
      | _, _ => pure ()) := by
  split
  · exact .forM (fun _ => .errorIf _ rfl rfl) _
  · exact .pure ()

theorem checkInterfaces_remarks (h : ClassHeader) : Remark T (checkInterfaces T h) :=
  .forM (fun ifaceName => checkInterface_remarks h ifaceName) _

theorem assertKind_remarks (k : Kind) (t : Ty) (he : e.isThrown = true) :
    Remarks T (assertKind k t e) (recordKind k t e) := (Remarks.thrown e he).onlyIf _

theorem checkPattern_remarks (subjectType patternType : Ty) :
    Remarks T (checkPattern subjectType patternType) (recordPattern subjectType patternType) :=
  (Remarks.thrown _ rfl).onlyIf _

theorem checkDelTarget_remarks (target : Expr) : Remarks T (checkDelTarget target) (recordDelTarget target) := by
  cases target with
  | identifier _ => exact .pure ()
  | indexExpr _ _ => exact .pure ()
  | memberExpr _ _ => exact .pure ()
  | _ => exact .thrown _ rfl

theorem checkWith_mirrors {k l : Ty → Check Unit} (h : ∀ t, Mirrors T (k t) (l t)) (e : Option Expr) :
    Mirrors T (checkWith T C e k) (checkWith T C e l) := by
  cases e with
  | none => exact .pure ()
  | some e => exact (checkExpr_plain e).bind h

theorem declareUnlessEmpty_plain (n : Name) (t : Ty) : Plain T (declareUnlessEmpty n t) :=
  Mirrors.ite (.pure ()) (.declare n t)

theorem declareTypeParams_plain (typeParams : List Name) : Plain T (declareTypeParams typeParams) :=
  .forM (fun _ => .declare _ _) _

theorem declareSuper_plain (baseClass : Option Name) : Plain T (declareSuper baseClass) := by
  cases baseClass with
  | none => exact .pure ()
  | some base => exact .declare _ _

theorem checkParams_plain (params : List Param) : Plain T (checkParams T C params) :=
  .forM (fun p => (checkOption_plain p.defaultValue).bind fun _ => .declare _ _) _

theorem declareNarrowed_plain (n : Option Narrowing) (branch : Narrowing → Option Ty) :
    Plain T (declareNarrowed n branch) := by
  unfold declareNarrowed
  split
  · exact .pure ()
  · split
    · exact .pure ()
    · exact .declare _ _

/-! ## Statements -/

mutual

/-- The visitors of statements, and those that record. -/
theorem checkStmt_mirrors (C : Context) : (s : Stmt) → Mirrors T (checkStmt T C s) (recordStmt T false C s)
  | .exprStmt expr => by
      rw [checkStmt, recordStmt]
      exact (checkExpr_plain expr).bind fun _ => .pure _
  | .assignStmt target value extraTargets ann pos => by
      rw [checkStmt, recordStmt]
      exact checkAssign_plain target value ann pos
  | .constStmt name value ann => by
      rw [checkStmt, recordStmt]
      exact (checkExpr_plain value).bind fun _ => declareConst_plain _ _ _
  | .tupleUnpackStmt targets value => by
      rw [checkStmt, recordStmt]
      exact (checkExpr_plain value).bind fun _ => .declareAll _ _
  | .returnStmt none => by
      rw [checkStmt, recordStmt]
      exact (checkReturn_remarks _ _).mirrors
  | .returnStmt (some value) => by
      rw [checkStmt, recordStmt]
      exact (checkExpr_plain value).bind fun t => (checkReturn_remarks true t).mirrors
  | .breakStmt => .pure _
  | .continueStmt => .pure _
  | .passStmt => .pure _
  | .funcDef h body => by
      have hbody := checkStmts_mirrors (functionContext T C h) body
      rw [checkStmt, recordStmt]
      refine .ite (checkExtern_remarks h).mirrors ?_
      exact ((declareTypeParams_plain _).bind fun _ => (checkParams_plain h.params).bind fun _ =>
        hbody.bind fun _ => .errorIf _ rfl).inScope
  | .initDef params body => by
      rw [checkStmt, recordStmt]
      exact ((checkParams_plain params).bind fun _ => checkStmts_mirrors (initContext C) body).inScope
  | .classDef h body => by
      rw [checkStmt, recordStmt]
      exact ((Mirrors.declare _ _).bind fun _ => (declareTypeParams_plain _).bind fun _ =>
        (declareSuper_plain h.baseClass).bind fun _ => (checkStmts_mirrors (classContext C h) body).bind fun _ =>
          ((checkOverrides_remarks h).bind fun _ => checkInterfaces_remarks h).mirrors).inScope
  | .ifStmt condition thenBranch elsifBranches elseBranch => by
      have helse := checkStmts_mirrors C elseBranch
      rw [checkStmt, recordStmt]
      refine (checkExpr_plain condition).bind fun _ => Mirrors.get.bind fun σ => ?_
      refine Mirrors.bind ?_ fun _ => (checkElsifs_mirrors C elsifBranches).bind fun _ => .ite (.pure _) ?_
      · exact ((declareNarrowed_plain _ _).bind fun _ => checkStmts_mirrors C thenBranch).inScope
      · exact ((declareNarrowed_plain _ _).bind fun _ => helse).inScope
  | .forStmt var vars iterable body elseBranch => by
      have hbody := checkStmts_mirrors C body
      rw [checkStmt, recordStmt]
      refine (checkExpr_plain iterable).bind fun t => ?_
      exact ((Mirrors.declare var _).bind fun _ => hbody).inScope.bind_pure_right
  | .whileStmt condition body elseBranch => by
      rw [checkStmt, recordStmt]
      refine (checkExpr_plain condition).bind fun _ => ?_
      exact (checkStmts_mirrors C body).inScope.bind_pure_right
  | .withStmt expr asName body => by
      rw [checkStmt, recordStmt]
      exact (checkExpr_plain expr).bind fun _ => ((declareUnlessEmpty_plain _ _).bind fun _ =>
        checkStmts_mirrors C body).inScope
  | .tryStmt tryBody catchClauses finallyBody => by
      have hfinally := checkStmts_mirrors C finallyBody
      rw [checkStmt, recordStmt]
      refine (checkStmts_mirrors C tryBody).inScope.bind fun _ => ?_
      exact (checkCatches_mirrors C catchClauses).bind fun _ => .ite (.pure _) hfinally.inScope
  | .throwStmt expr => by
      rw [checkStmt, recordStmt]
      exact checkOption_plain expr
  | .assertStmt condition message => by
      rw [checkStmt, recordStmt]
      refine (checkExpr_plain condition).bind fun t => (assertKind_remarks _ t rfl).mirrors.bind fun _ => ?_
      exact checkWith_mirrors (fun t => (assertKind_remarks _ t rfl).mirrors) message
  | .delStmt target => by
      rw [checkStmt, recordStmt]
      exact (checkDelTarget_remarks target).mirrors.bind fun _ => (checkExpr_plain target).bind fun _ => .pure _
  | .matchStmt subject cases => by
      rw [checkStmt, recordStmt]
      exact (checkExpr_plain subject).bind fun t => checkCases_mirrors C t cases
  | .importStmt module => .declare _ _
  | .fromImportStmt module names => .declareAll _ names
  | .interfaceDef _ _ => .pure _
  | .enumDef name members => .pure _
  | .yieldStmt value => by
      rw [checkStmt, recordStmt]
      exact checkOption_plain value
  | .chanSendStmt channel value => by
      have hvalue := checkExpr_plain (T := T) (C := C) value
      rw [checkStmt, recordStmt]
      refine (checkExpr_plain channel).bind fun t => ?_
      cases t with
      | chan elem => exact hvalue.bind fun u => (unify_remarks _ u).mirrors.bind fun _ => .pure _
      | _ => exact .error _ rfl

theorem checkStmts_mirrors (C : Context) :
    (stmts : List Stmt) → Mirrors T (checkStmts T C stmts) (recordStmts T false C stmts)
  | [] => .pure _
  | s :: stmts => by
      rw [checkStmts, recordStmts]
      exact (checkStmt_mirrors C s).bind fun _ => checkStmts_mirrors C stmts

theorem checkElsifs_mirrors (C : Context) :
    (branches : List (Expr × List Stmt)) → Mirrors T (checkElsifs T C branches) (recordElsifs T false C branches)
  | [] => .pure _
  | (condition, body) :: branches => by
      rw [checkElsifs, recordElsifs]
      exact (checkExpr_plain condition).bind fun _ => (checkStmts_mirrors C body).inScope.bind fun _ =>
        checkElsifs_mirrors C branches

theorem checkCatches_mirrors (C : Context) :
    (clauses : List (Name × Name × List Stmt)) → Mirrors T (checkCatches T C clauses) (recordCatches T false C clauses)
  | [] => .pure _
  | (exceptionType, varName, body) :: clauses => by
      rw [checkCatches, recordCatches]
      exact ((declareUnlessEmpty_plain _ _).bind fun _ => checkStmts_mirrors C body).inScope.bind fun _ =>
        checkCatches_mirrors C clauses

theorem checkCases_mirrors (C : Context) (subjectType : Ty) :
    (cases : List (Option Expr × Option Expr × List Stmt)) →
      Mirrors T (checkCases T C subjectType cases) (recordCases T false C subjectType cases)
  | [] => .pure _
  | (pattern, guard, body) :: cases => by
      rw [checkCases, recordCases]
      refine (checkWith_mirrors (fun t => (checkPattern_remarks subjectType t).mirrors) pattern).bind fun _ => ?_
      refine (checkWith_mirrors (fun t => Mirrors.errorIf _ rfl) guard).bind fun _ => ?_
      exact (checkStmts_mirrors C body).inScope.bind fun _ => checkCases_mirrors C subjectType cases

end

/-! ## Runs -/

theorem isAssignable_run (given expected : Ty) (σ : State) : isAssignable T given expected σ =
    match T.isAssignableTo given expected with
    | some b => (.ok b, σ)
    | none => (.error .diverges, σ) := by
  unfold isAssignable
  cases T.isAssignableTo given expected <;> rfl

namespace Mirrors

/-- Where every walk over the base classes ends, a visitor ends. -/
theorem ends (hT : ∀ given expected, T.isAssignableTo given expected ≠ none) (h : Mirrors T x y) :
    ∀ σ, (x σ).1 ≠ .error .diverges := by
  induction h with
  | pure a => exact fun σ => nofun
  | bind hx hf ihx ihf =>
    intro σ
    rw [Effect.bind_run]
    have hxσ := ihx σ
    split
    · next a τ hrun => exact ihf a τ
    · next s τ hrun =>
      rw [hrun] at hxσ
      intro hdiverges
      exact hxσ (congrArg Except.error (Except.error.inj hdiverges))
  | get => exact fun σ => nofun
  | modify f hf => exact fun σ => nofun
  | error e he => exact fun σ => nofun
  | thrown e he => exact fun σ => nofun
  | assignable given expected =>
    intro σ
    obtain ⟨b, hb⟩ := Option.ne_none_iff_exists'.mp (hT given expected)
    rw [isAssignable_run, hb]
    nofun

/-- **What the two do.**  The visitor that records only adds errors.  Where it adds none that the other one throws,
the two do the same, and otherwise the other one stops. -/
theorem run (h : Mirrors T x y) (σ : State) : ∃ errs, (y σ).2.errors = σ.errors ++ errs ∧
    ((∀ e ∈ errs, e.isThrown = false) → x σ = y σ) ∧
    ((∃ e ∈ errs, e.isThrown = true) → ∃ s, (x σ).1 = .error s) := by
  induction h generalizing σ with
  | pure a => exact ⟨[], (List.append_nil _).symm, fun _ => rfl, fun ⟨e, he, _⟩ => absurd he List.not_mem_nil⟩
  | @bind α β x y f g hx hf ihx ihf =>
    obtain ⟨errs, herrs, hsame, hstops⟩ := ihx σ
    rw [Effect.bind_run, Effect.bind_run]
    rcases hrun : y σ with ⟨s | a, τ⟩
    · rw [hrun] at herrs hsame
      refine ⟨errs, herrs, fun hclean => ?_, fun hthrown => ?_⟩
      · rw [hsame hclean]
      · obtain ⟨s', hs'⟩ := hstops hthrown
        rcases hx' : x σ with ⟨_ | b, τ'⟩
        · exact ⟨_, rfl⟩
        · rw [hx'] at hs'
          cases hs'
    · rw [hrun] at herrs hsame
      obtain ⟨more, hmore, hsame', hstops'⟩ := ihf a τ
      have herrs : τ.errors = σ.errors ++ errs := herrs
      refine ⟨errs ++ more, ?_, fun hclean => ?_, fun hthrown => ?_⟩
      · show (g a τ).2.errors = _
        rw [hmore, herrs, List.append_assoc]
      · rw [hsame fun e he => hclean e (List.mem_append_left _ he)]
        exact hsame' fun e he => hclean e (List.mem_append_right _ he)
      · by_cases hfirst : ∃ e ∈ errs, e.isThrown = true
        · obtain ⟨s', hs'⟩ := hstops hfirst
          rcases hx' : x σ with ⟨_ | b, τ'⟩
          · exact ⟨_, rfl⟩
          · rw [hx'] at hs'
            cases hs'
        · have hclean : ∀ e ∈ errs, e.isThrown = false := fun e he =>
            Bool.eq_false_iff.mpr fun hthrown => hfirst ⟨e, he, hthrown⟩
          rw [hsame hclean]
          obtain ⟨e, he, hthrown⟩ := hthrown
          rcases List.mem_append.mp he with he | he
          · exact absurd ⟨e, he, hthrown⟩ hfirst
          · exact hstops' ⟨e, he, hthrown⟩
  | get => exact ⟨[], (List.append_nil _).symm, fun _ => rfl, fun ⟨e, he, _⟩ => absurd he List.not_mem_nil⟩
  | modify f hf =>
    refine ⟨[], ?_, fun _ => rfl, fun ⟨e, he, _⟩ => absurd he List.not_mem_nil⟩
    rw [List.append_nil]
    exact hf σ
  | error e he =>
    refine ⟨[e], rfl, fun _ => rfl, fun ⟨e', he', hthrown⟩ => ?_⟩
    rw [List.mem_singleton.mp he', he] at hthrown
    cases hthrown
  | thrown e he =>
    refine ⟨[e], rfl, fun hclean => ?_, fun _ => ⟨_, rfl⟩⟩
    have hnot := hclean e (List.mem_singleton.mpr rfl)
    rw [he] at hnot
    cases hnot
  | assignable given expected =>
    refine ⟨[], ?_, fun _ => rfl, fun ⟨e, he, _⟩ => absurd he List.not_mem_nil⟩
    rw [List.append_nil, isAssignable_run]
    cases T.isAssignableTo given expected <;> rfl

/-- A visitor only adds errors. -/
theorem grows (h : Mirrors T x y) (σ : State) : ∃ errs, (x σ).2.errors = σ.errors ++ errs := by
  induction h generalizing σ with
  | pure a => exact ⟨[], (List.append_nil _).symm⟩
  | @bind α β x y f g hx hf ihx ihf =>
    obtain ⟨errs, herrs⟩ := ihx σ
    rw [Effect.bind_run]
    rcases hrun : x σ with ⟨s | a, τ⟩
    · rw [hrun] at herrs
      exact ⟨errs, herrs⟩
    · rw [hrun] at herrs
      have herrs : τ.errors = σ.errors ++ errs := herrs
      obtain ⟨more, hmore⟩ := ihf a τ
      refine ⟨errs ++ more, ?_⟩
      show (f a τ).2.errors = _
      rw [hmore, herrs, List.append_assoc]
  | get => exact ⟨[], (List.append_nil _).symm⟩
  | modify f hf =>
    refine ⟨[], ?_⟩
    rw [List.append_nil]
    exact hf σ
  | error e he => exact ⟨[e], rfl⟩
  | thrown e he => exact ⟨[], (List.append_nil _).symm⟩
  | assignable given expected =>
    refine ⟨[], ?_⟩
    rw [List.append_nil, isAssignable_run]
    cases T.isAssignableTo given expected <;> rfl

end Mirrors

/-! ## Runs without an error -/

/-- A run that ends and adds no error. -/
def Clean (x : Check α) (σ : State) (a : α) (τ : State) : Prop := x σ = (.ok a, τ) ∧ τ.errors = σ.errors

/-- Both parts of a run without an error are such runs. -/
theorem clean_of_bind {f' : α → Check β} {b : β} {τ : State} (hx : Mirrors T x y) (hf : ∀ a, Mirrors T (f a) (f' a))
    (h : Clean (x >>= f) σ b τ) : ∃ a υ, Clean x σ a υ ∧ Clean (f a) υ b τ := by
  obtain ⟨a, υ, hfirst, hsecond⟩ := Effect.ok_of_bind_run h.1
  obtain ⟨errs, herrs⟩ := hx.grows σ
  obtain ⟨more, hmore⟩ := (hf a).grows υ
  rw [hfirst] at herrs
  rw [hsecond] at hmore
  have herrs : υ.errors = σ.errors ++ errs := herrs
  have hmore : τ.errors = υ.errors ++ more := hmore
  have hnone : errs = [] ∧ more = [] := by
    have hlength := congrArg List.length (h.2.symm.trans (hmore.trans (congrArg (· ++ more) herrs)))
    simp only [List.length_append] at hlength
    exact ⟨List.eq_nil_of_length_eq_zero (by omega), List.eq_nil_of_length_eq_zero (by omega)⟩
  rw [hnone.1, List.append_nil] at herrs
  rw [hnone.2, List.append_nil] at hmore
  exact ⟨a, υ, ⟨hfirst, herrs⟩, ⟨hsecond, hmore⟩⟩

theorem clean_inScope {a : α} {τ : State} (hx : Mirrors T x y) (h : Clean (inScope x) σ a τ) :
    ∃ υ, Clean x σ.enterScope a υ := by
  have hexit (a : α) : Mirrors T (do modifyThe State State.exitScope; pure a : Check α) _ :=
    (Mirrors.modify State.exitScope fun _ => rfl).bind fun _ => .pure a
  obtain ⟨_, υ, henter, hrest⟩ := clean_of_bind (Mirrors.modify State.enterScope fun _ => rfl)
    (fun _ => hx.bind hexit) h
  cases henter.1
  obtain ⟨a', υ, hbody, hexit'⟩ := clean_of_bind hx hexit hrest
  obtain ⟨_, _, _, hpure⟩ := clean_of_bind (Mirrors.modify (T := T) State.exitScope fun _ => rfl)
    (fun _ => Mirrors.pure a') hexit'
  cases hpure.1
  exact ⟨υ, hbody⟩

/-- What is not reported does not hold. -/
theorem clean_errorIf {b : Bool} {u : Unit} {τ : State} (h : Clean (onlyIf b (error e)) σ u τ) : b = false := by
  cases b with
  | false => rfl
  | true =>
    obtain ⟨hrun, herrors⟩ := h
    cases hrun
    have hlength := congrArg List.length herrors
    simp at hlength

/-- A loop without an error has no turn with one. -/
theorem clean_forM {ι : Type} {k : ι → Check Unit} (hk : ∀ i, Plain T (k i)) {is : List ι} {u : Unit} {τ : State}
    (h : Clean (is.forM k) σ u τ) {i : ι} (hi : i ∈ is) : ∃ σ' τ', Clean (k i) σ' () τ' := by
  induction is generalizing σ with
  | nil => cases hi
  | cons j js ih =>
    obtain ⟨_, υ, hfirst, hrest⟩ := clean_of_bind (hk j) (fun _ => Mirrors.forM hk js) h
    rcases List.mem_cons.mp hi with rfl | hi
    · exact ⟨σ, υ, hfirst⟩
    · exact ih hrest hi

end Visuall.Checker
