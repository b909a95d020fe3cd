import Visuall.Checker.Expressions

/-!
# Checking statements

The statement visitors of `typechecker.cpp` and `check` itself.

* `checkStmt`, `checkStmts` — the visitors;
* `firstPass` — the tables and the file scope, from the declarations at the top level;
* `check` — both passes.
-/

namespace Visuall.Checker

open Visuall.Ast Visuall.Types

/-! ## Returns -/

mutual

/-- `stmtListHasReturn` on one statement. -/
def stmtHasReturn : Stmt → Bool
  | .returnStmt _ => true
  | .ifStmt _ thenBranch _ _ => stmtListHasReturn thenBranch
  | .whileStmt _ body _ => stmtListHasReturn body
  | .forStmt _ _ _ body _ => stmtListHasReturn body
  | _ => false

/-- `stmtListHasReturn`. -/
def stmtListHasReturn : List Stmt → Bool
  | [] => false
  | s :: stmts => stmtHasReturn s || stmtListHasReturn stmts

end

section Visitors

variable (T : Tables) (C : Context)

/-! ## What a node makes of its children -/

/-- The comparison of a declared name with the value assigned to it. -/
def checkReassign (existing rhsType : Ty) : Check Unit :=
  onlyIf (!isUnknown existing && !isUnknown rhsType && !typeEquals existing rhsType) <|
    if isNumeric existing && isNumeric rhsType then
      onlyIf (kind existing = .int && kind rhsType = .float) (error (.cannotAssign rhsType existing))
    else error (.cannotAssign rhsType existing)

/-- `visit(AssignStmt)` with an identifier as its target, behind its value. -/
def assignName (name ann : Name) (rhsType : Ty) : Check Unit := do
  if ann ≠ [] then
    if ← isDeclared name then error (.alreadyDeclared name)
    else
      let annType := resolve T C ann
      onlyIf (!isUnknown rhsType && !isUnknown annType)
        (requireAssignable T rhsType annType (.declaredMismatch annType rhsType))
      declare name annType
  else if ← isDeclared name then checkReassign (← find name) rhsType
  else declare name rhsType

/-- `visit(AssignStmt)`. -/
def checkAssign (target value : Expr) (ann : Name) (pos : Position) : Check Unit :=
  match target with
  | .identifier id => do
      if id.name ∈ (← get).constVars then
        error (.constantReassigned id.name pos)
        let _ ← checkExpr T C value
        pure ()
      else
        let rhsType ← checkExpr T C value
        assignName T C id.name ann rhsType
  | target => do
      let _ ← checkExpr T C value
      let _ ← checkExpr T C target
      pure ()

/-- `constVars_.insert(name)`. -/
def insertConst (name : Name) : Check Unit :=
  modify fun σ => { σ with constVars := name :: σ.constVars }

/-- `visit(ConstStmt)`, behind its value. -/
def declareConst (name ann : Name) (rhsType : Ty) : Check Unit := do
  if ← isDeclared name then error (.constantDeclared name)
  else
    let declType := if ann = [] then rhsType else resolve T C ann
    onlyIf (ann ≠ [] && !isUnknown rhsType)
      (requireAssignable T rhsType declType (.constantMismatch declType rhsType))
    declare name declType
    insertConst name

/-- `visit(ReturnStmt)`, behind its value. -/
def checkReturn (hasValue : Bool) (retType : Ty) : Check Unit := do
  onlyIf (C.hasExplicitReturnType && !isUnknown C.currentReturnType) do
    let ok ← isAssignable T retType C.currentReturnType
    onlyIf (!ok && !isUnknown retType) <|
      if isNumeric retType && isNumeric C.currentReturnType then
        onlyIf (kind C.currentReturnType = .int && kind retType = .float)
          (error (.returnMismatch C.currentReturnType retType))
      else error (.returnMismatch C.currentReturnType retType)
  onlyIf (!C.hasExplicitReturnType && hasValue) (error .unannotatedReturn)

/-- `isCompatible`: the type names allowed in an extern declaration. -/
def isCompatible (t : Name) : Bool :=
  t = [] || t = intName || t = floatName || t = boolName || t = strName || t = "string".toList ||
    t = voidName || (t.length ≥ 2 && t.getLast? = some '*')

/-- `visit(FuncDef)` of an extern function. -/
def checkExtern (h : FuncHeader) : Check Unit := do
  onlyIf (C.functionNestingDepth > 0) (error .nestedExtern)
  onlyIf (h.returnType ≠ [] && !isCompatible h.returnType)
    (error (.externReturnType h.name h.returnType))
  h.params.forM fun p =>
    onlyIf (Param.typeAnnotation p ≠ [] && !isCompatible (Param.typeAnnotation p))
      (error (.externParamType h.name (Param.typeAnnotation p)))

/-- The type parameters of a function or a class. -/
def declareTypeParams (typeParams : List Name) : Check Unit :=
  typeParams.forM fun tp => declare tp (.typeVar tp)

/-- `super`, in a class with a base class. -/
def declareSuper (baseClass : Option Name) : Check Unit :=
  match baseClass with
  | some base => declare "super".toList (.cls base)
  | none => pure ()

/-- The parameters of a function, each behind its default value. -/
def checkParams (params : List Param) : Check Unit :=
  params.forM fun p => do
    checkOption T C p.defaultValue
    declare p.name (resolveOrUnknown T C (Param.typeAnnotation p))

/-- The fields inside a function. -/
def functionContext (h : FuncHeader) : Context :=
  let inner := { C with
    currentTypeParams := C.currentTypeParams ++ h.typeParams
    functionNestingDepth := C.functionNestingDepth + 1 }
  { inner with
    currentReturnType := resolveOrUnknown T inner h.returnType
    hasExplicitReturnType := h.returnType ≠ [] }

/-- The fields inside an `init`. -/
def initContext : Context :=
  { C with
    currentReturnType := .void
    hasExplicitReturnType := false }

/-- The fields inside a class. -/
def classContext (h : ClassHeader) : Context :=
  { C with
    insideClass := true
    currentClassName := h.name
    currentTypeParams := h.typeParams }

/-- The search for a `return` at the end of a function. -/
def checkMissingReturn (function : Name) (body : List Stmt) : Check Unit :=
  onlyIf (C.hasExplicitReturnType && kind C.currentReturnType ≠ .void &&
      !isUnknown C.currentReturnType && !stmtListHasReturn body)
    (error (.missingReturn function C.currentReturnType))

/-- A method against the method of the base class that it overrides. -/
def checkOverride (child base : MethodInfo) : Check Unit := do
  onlyIf (child.paramTypes.length ≠ base.paramTypes.length) (error (.overrideParamCount child.name))
  (child.paramTypes.zip base.paramTypes).forM fun p =>
    onlyIf (!isUnknown p.1 && !isUnknown p.2 && !typeEquals p.1 p.2)
      (error (.overrideParamType child.name p.2 p.1))
  onlyIf (!isUnknown child.returnType && !isUnknown base.returnType &&
      !typeEquals child.returnType base.returnType)
    (error (.overrideReturnType child.name base.returnType child.returnType))

/-- The methods of a class against those of its base class. -/
def checkOverrides (h : ClassHeader) : Check Unit :=
  match h.baseClass with
  | none => pure ()
  | some baseName =>
      match T.classTable.lookup baseName, T.classTable.lookup h.name with
      | some base, some child =>
          child.methods.forM fun childMethod =>
            base.methods.forM fun baseMethod =>
              onlyIf (childMethod.name = baseMethod.name) (checkOverride childMethod baseMethod)
      | _, _ => pure ()

/-- The methods of a class against the interfaces it implements. -/
def checkInterfaces (h : ClassHeader) : Check Unit :=
  h.interfaces.forM fun ifaceName =>
    match T.interfaceTable.lookup ifaceName, T.classTable.lookup h.name with
    | some methods, some info =>
        methods.forM fun ifaceMethod =>
          onlyIf (!info.methods.any fun m => m.name = ifaceMethod.name)
            (error (.missingMethod h.name ifaceMethod.name ifaceName))
    | _, _ => pure ()

/-- What a comparison with `null` says of a name, in the branches behind it. -/
structure Narrowing where
  name : Name
  thenType : Option Ty
  elseType : Option Ty

/-- A union without `null`, if anything is left. -/
def nonNullType (members : List Ty) : Option Ty :=
  match members.filter fun m => kind m ≠ .null with
  | [] => none
  | [t] => some t
  | ts => some (.union ts)

/-- The analysis of the condition in `visit(IfStmt)`. -/
def narrowing (σ : State) : Expr → Option Narrowing
  | .binaryExpr op (.identifier id) .nullLiteral =>
      match σ.find id.name with
      | .union members =>
          if op = .neq then some ⟨id.name, nonNullType members, some .null⟩
          else if op = .eq then some ⟨id.name, some .null, nonNullType members⟩
          else none
      | _ => none
  | _ => none

/-- The declaration of a narrowed name in a branch. -/
def declareNarrowed (n : Option Narrowing) (branch : Narrowing → Option Ty) : Check Unit :=
  match n with
  | none => pure ()
  | some n =>
      match branch n with
      | none => pure ()
      | some t => declare n.name t

/-- A name that may be left out. -/
def declareUnlessEmpty (name : Name) (type : Ty) : Check Unit :=
  if name = [] then pure () else declare name type

/-- An expression behind a pointer that may be null, and what is checked of its type. -/
def checkWith (e : Option Expr) (k : Ty → Check Unit) : Check Unit :=
  match e with
  | none => pure ()
  | some e => do
      let t ← checkExpr T C e
      k t

/-- The condition of an `assert`. -/
def assertKind (k : Kind) (t : Ty) (e : TypeErr) : Check Unit :=
  onlyIf (kind t ≠ k && !isUnknown t) (throwTypeError e)

/-- A match pattern against the subject. -/
def checkPattern (subjectType patternType : Ty) : Check Unit :=
  onlyIf (!isUnknown subjectType && !isUnknown patternType && kind subjectType ≠ kind patternType)
    (throwTypeError (.matchPattern patternType subjectType))

/-- The target of a `del`. -/
def checkDelTarget : Expr → Check Unit
  | .identifier _ | .indexExpr _ _ | .memberExpr _ _ => pure ()
  | _ => throwTypeError .delTarget

/-- A guard. -/
def checkGuard (t : Ty) : Check Unit :=
  onlyIf (!isUnknown t && kind t ≠ .bool) (error (.matchGuard t))

/-! ## The visitors -/

mutual

/-- `checkStmt`. -/
def checkStmt (C : Context) : Stmt → Check Unit
  | .exprStmt expr => do
      let _ ← checkExpr T C expr
      pure ()
  | .assignStmt target value _ ann pos => checkAssign T C target value ann pos
  | .constStmt name value ann => do
      let rhsType ← checkExpr T C value
      declareConst T C name ann rhsType
  | .tupleUnpackStmt targets value => do
      let _ ← checkExpr T C value
      declareAll .unknown targets
  | .returnStmt none => checkReturn T C false .void
  | .returnStmt (some value) => do
      let retType ← checkExpr T C value
      checkReturn T C true retType
  | .breakStmt => pure ()
  | .continueStmt => pure ()
  | .passStmt => pure ()
  | .funcDef h body =>
      if h.isExtern then checkExtern C h
      else
        let inner := functionContext T C h
        inScope do
          declareTypeParams h.typeParams
          checkParams T inner h.params
          checkStmts inner body
          checkMissingReturn inner h.name body
  | .initDef params body =>
      inScope do
        checkParams T (initContext C) params
        checkStmts (initContext C) body
  | .classDef h body =>
      inScope do
        declare "this".toList (.cls h.name)
        declareTypeParams h.typeParams
        declareSuper h.baseClass
        checkStmts (classContext C h) body
        checkOverrides T h
        checkInterfaces T h
  | .ifStmt condition thenBranch elsifBranches elseBranch => do
      let _ ← checkExpr T C condition
      let n := narrowing (← get) condition
      inScope do
        declareNarrowed n Narrowing.thenType
        checkStmts C thenBranch
      checkElsifs C elsifBranches
      if elseBranch.isEmpty then pure ()
      else
        inScope do
          declareNarrowed n Narrowing.elseType
          checkStmts C elseBranch
  | .forStmt var _ iterable body _ => do
      let iterType ← checkExpr T C iterable
      inScope do
        declare var (elementType iterType)
        checkStmts C body
  | .whileStmt condition body _ => do
      let _ ← checkExpr T C condition
      inScope (checkStmts C body)
  | .withStmt expr asName body => do
      let _ ← checkExpr T C expr
      inScope do
        declareUnlessEmpty asName .unknown
        checkStmts C body
  | .tryStmt tryBody catchClauses finallyBody => do
      inScope (checkStmts C tryBody)
      checkCatches C catchClauses
      if finallyBody.isEmpty then pure () else inScope (checkStmts C finallyBody)
  | .throwStmt expr => checkOption T C expr
  | .assertStmt condition message => do
      let condType ← checkExpr T C condition
      assertKind .bool condType (.assertCondition condType)
      checkWith T C message fun msgType => assertKind .str msgType (.assertMessage msgType)
  | .delStmt target => do
      checkDelTarget target
      let _ ← checkExpr T C target
      pure ()
  | .matchStmt subject cases => do
      let subjectType ← checkExpr T C subject
      checkCases C subjectType cases
  | .importStmt module => declare (module.takeWhile (· ≠ '.')) .unknown
  | .fromImportStmt _ names => declareAll .unknown names
  | .interfaceDef _ _ => pure ()
  | .enumDef _ _ => pure ()
  | .yieldStmt value => checkOption T C value
  | .chanSendStmt channel value => do
      match ← checkExpr T C channel with
      | .chan elem => do
          let valType ← checkExpr T C value
          let _ ← unify T elem valType
          pure ()
      | t => error (.sendTo t)

/-- `checkStmtList`. -/
def checkStmts (C : Context) : List Stmt → Check Unit
  | [] => pure ()
  | s :: stmts => do
      checkStmt C s
      checkStmts C stmts

/-- The `elsif` branches. -/
def checkElsifs (C : Context) : List (Expr × List Stmt) → Check Unit
  | [] => pure ()
  | (condition, body) :: branches => do
      let _ ← checkExpr T C condition
      inScope (checkStmts C body)
      checkElsifs C branches

/-- The `catch` clauses. -/
def checkCatches (C : Context) : List (Name × Name × List Stmt) → Check Unit
  | [] => pure ()
  | (exceptionType, varName, body) :: clauses => do
      inScope do
        declareUnlessEmpty varName (resolveOrUnknown T C exceptionType)
        checkStmts C body
      checkCatches C clauses

/-- The cases of a `match`. -/
def checkCases (C : Context) (subjectType : Ty) :
    List (Option Expr × Option Expr × List Stmt) → Check Unit
  | [] => pure ()
  | (pattern, guard, body) :: cases => do
      checkWith T C pattern (checkPattern subjectType)
      checkWith T C guard checkGuard
      inScope (checkStmts C body)
      checkCases C subjectType cases

end

end Visitors

/-! ## The two passes -/

/-- The minimum of arguments: parameters without a default that collect no others. -/
def requiredArgs (params : List Param) : ℕ :=
  params.countP fun p => p.defaultValue.isNone && !p.isVariadic && !p.isKwargs

/-- The type of a function, as it is declared. -/
def headerType (T : Tables) (C : Context) (h : FuncHeader) : Ty :=
  .func h.name (resolveOrUnknown T C h.returnType)
    (h.params.map fun p => resolveOrUnknown T C (Param.typeAnnotation p))

/-- A method, as it is kept for its class or its interface. -/
def methodInfo (T : Tables) (C : Context) (name returnType : Name) (params : List Param) :
    MethodInfo where
  name := name
  returnType := resolveOrUnknown T C returnType
  paramTypes := params.map fun p => resolveOrUnknown T C (Param.typeAnnotation p)

/-- The methods that a class body declares. -/
def bodyMethods (T : Tables) (C : Context) (body : List Stmt) : List MethodInfo :=
  body.filterMap fun s =>
    match s with
    | .funcDef m _ => some (methodInfo T C m.name m.returnType m.params)
    | _ => none

/-- The first pass on one statement: the tables and the file scope so far. -/
def register : Tables × Scope → Stmt → Tables × Scope
  | (T, scope), .funcDef h _ =>
      let C : Context := { currentTypeParams := h.typeParams }
      let T' := { T with funcMinArgs := (h.name, requiredArgs h.params) :: T.funcMinArgs }
      let T' :=
        if h.typeParams = [] then T'
        else
          { T' with
            funcTypeParams := (h.name, h.typeParams) :: T.funcTypeParams
            funcBounds := (h.typeParamBounds.map fun b => (h.name ++ ".".toList ++ b.1, b.2)) ++
              T.funcBounds }
      (T', (h.name, headerType T C h) :: scope)
  | (T, scope), .classDef h body =>
      let C : Context := { currentTypeParams := h.typeParams }
      let info : ClassInfo :=
        { baseClass := h.baseClass.getD []
          extraBases := h.extraBases
          interfaces := h.interfaces
          methods := bodyMethods T C body }
      ({ T with classTable := (h.name, info) :: T.classTable }, (h.name, .cls h.name) :: scope)
  | (T, scope), .interfaceDef name methods =>
      let infos := methods.map fun m => methodInfo T {} m.name m.returnType m.params
      ({ T with interfaceTable := (name, infos) :: T.interfaceTable },
        (name, .interface name) :: scope)
  | (T, scope), .enumDef name members =>
      (T, (members.map fun m => (name ++ "_".toList ++ m, Ty.int)).reverse ++
        (name, .cls name) :: scope)
  | (T, scope), _ => (T, scope)

/-- The first pass of `check`. -/
def firstPass (p : List Stmt) : Tables × Scope := p.foldl register ({}, [])

/-- `check`: how it ends, and the state it ends in. -/
def check (p : List Stmt) : Except Stop Unit × State :=
  let (T, scope) := firstPass p
  (do
    checkStmts T {} p
    modify State.exitScope : Check Unit) { symbols := [scope] }

/-- `check` reports no error. -/
def Accepts (p : List Stmt) : Prop := (check p).1 = .ok () ∧ (check p).2.errors = []

end Visuall.Checker
