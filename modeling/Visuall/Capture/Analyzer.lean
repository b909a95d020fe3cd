import Mathlib
import Visuall.Syntax.Ast

/-!
# The capture analyzer

`src/capture_analyzer.cpp`: the walk over the program that leaves in every lambda expression the list of
variables that it captures.  What the walk leaves is given as the list of the lambda expressions it comes to, in
the order in which it leaves their captures; a lambda expression it does not come to keeps an empty list.
-/

namespace Visuall.Capture

open Visuall.Ast

/-- `CaptureInfo`. -/
structure CaptureInfo where
  name : Name
  byReference : Bool := false
  deriving DecidableEq, Repr

/-- A lambda expression, and the captures left in it. -/
structure Annotation where
  params : List Name
  body : Expr
  captures : List CaptureInfo

/-- `CaptureAnalyzer`: the scope stack and the stack of candidates for capture by reference, innermost
first. -/
structure CaptureAnalyzer where
  scopes : List (List Name) := []
  byRefCandidatesStack : List (List Name) := []

namespace CaptureAnalyzer

variable (A : CaptureAnalyzer)

def pushScope : CaptureAnalyzer := { A with scopes := [] :: A.scopes }

def define (name : Name) : CaptureAnalyzer :=
  match A.scopes with
  | [] => A
  | scope :: scopes => { A with scopes := (name :: scope) :: scopes }

/-- Several names, one after another. -/
def defineAll (names : List Name) : CaptureAnalyzer := names.foldl define A

def isDefined (name : Name) : Bool := A.scopes.any (name ∈ ·)

def isByRefCandidate (name : Name) : Bool := A.byRefCandidatesStack.head?.any (name ∈ ·)

end CaptureAnalyzer

/-- The target of an assignment statement, if it is an identifier. -/
def assignedName : Stmt → Option Name
  | .assignStmt (.identifier id) _ _ _ _ => some id.name
  | _ => none

/-- The variables assigned at least twice in a statement list. -/
def byRefCandidates (stmts : List Stmt) : List Name :=
  let assigned := stmts.filterMap assignedName
  assigned.filter fun name => 2 ≤ assigned.count name

/-- The head of `analyzeStmtList`. -/
def CaptureAnalyzer.pushCandidates (A : CaptureAnalyzer) (stmts : List Stmt) : CaptureAnalyzer :=
  { A with byRefCandidatesStack := byRefCandidates stmts :: A.byRefCandidatesStack }

/-- A scope with its first names, and the head of `analyzeStmtList` in it. -/
def CaptureAnalyzer.enter (A : CaptureAnalyzer) (names : List Name) (stmts : List Stmt) : CaptureAnalyzer :=
  (A.pushScope.defineAll names).pushCandidates stmts

/-- Names in order, each once. -/
def sorted (names : List Name) : List Name := names.dedup.insertionSort (· ≤ ·)

/-- What the walk over an expression adds to `freeVars`, and the lambda expressions it comes to. -/
structure Found where
  freeVars : List Name := []
  lambdas : List Annotation := []

namespace Found

instance : Append Found := ⟨fun f g => ⟨f.freeVars ++ g.freeVars, f.lambdas ++ g.lambdas⟩⟩

@[simp] theorem freeVars_append (f g : Found) : (f ++ g).freeVars = f.freeVars ++ g.freeVars := rfl

@[simp] theorem lambdas_append (f g : Found) : (f ++ g).lambdas = f.lambdas ++ g.lambdas := rfl

/-- Names erased from the set. -/
def erase (f : Found) (names : List Name) : Found := { f with freeVars := f.freeVars.filter (· ∉ names) }

end Found

/-- The captures of a lambda expression, when `names` are left of its body. -/
def CaptureAnalyzer.captures (A : CaptureAnalyzer) (names : List Name) : List CaptureInfo :=
  (sorted (names.filter fun name => A.isDefined name)).map fun name => ⟨name, A.isByRefCandidate name⟩

mutual

/-- `analyzeExpr`. -/
def analyzeExpr (A : CaptureAnalyzer) : Expr → Found
  | .identifier id => { freeVars := [id.name] }
  | .lambdaExpr params body =>
    let found := (analyzeExpr A body).erase params
    { freeVars := found.freeVars.filter fun name => !A.isDefined name
      lambdas := found.lambdas ++ [⟨params, body, A.captures found.freeVars⟩] }
  | .binaryExpr _ left right => analyzeExpr A left ++ analyzeExpr A right
  | .unaryExpr _ operand => analyzeExpr A operand
  | .callExpr callee args _ => analyzeExpr A callee ++ analyzeExprs A args
  | .memberExpr object _ => analyzeExpr A object
  | .indexExpr object index => analyzeExpr A object ++ analyzeExpr A index
  | .ternaryExpr condition thenExpr elseExpr =>
    analyzeExpr A condition ++ (analyzeExpr A thenExpr ++ analyzeExpr A elseExpr)
  | .listExpr elements => analyzeExprs A elements
  | .dictExpr entries => analyzeEntries A entries
  | .tupleExpr elements => analyzeExprs A elements
  | .spreadExpr operand => analyzeExpr A operand
  | .dictSpreadExpr operand => analyzeExpr A operand
  | .walrusExpr _ value => analyzeExpr A value
  | .listComprehension body var iterable condition =>
    analyzeExpr A iterable ++ (analyzeExpr A body ++ analyzeOption A condition).erase [var]
  | .dictComprehension key value var iterable condition =>
    analyzeExpr A iterable ++
      (analyzeExpr A key ++ (analyzeExpr A value ++ analyzeOption A condition)).erase [var]
  | .sliceExpr object start stop step =>
    analyzeExpr A object ++ (analyzeOption A start ++ (analyzeOption A stop ++ analyzeOption A step))
  | .intLiteral _ | .floatLiteral _ | .stringLiteral _ | .fstringLiteral _ | .fstringExpr _ | .boolLiteral _
  | .nullLiteral | .thisExpr | .superExpr | .goExpr _ _ | .chanRecvExpr _ => {}

def analyzeExprs (A : CaptureAnalyzer) : List Expr → Found
  | [] => {}
  | e :: es => analyzeExpr A e ++ analyzeExprs A es

def analyzeEntries (A : CaptureAnalyzer) : List (Expr × Expr) → Found
  | [] => {}
  | (key, value) :: entries => analyzeExpr A key ++ (analyzeExpr A value ++ analyzeEntries A entries)

def analyzeOption (A : CaptureAnalyzer) : Option Expr → Found
  | none => {}
  | some e => analyzeExpr A e

end

/-- The parameters of a function, by name. -/
def paramNames (params : List Param) : List Name := params.map Param.name

/-- The variable of a catch clause, if it has one. -/
def catchNames (varName : Name) : List Name := if varName = [] then [] else [varName]

mutual

/-- `analyzeStmt`: the analyzer behind the statement, and the lambda expressions in it.  What is defined in a
scope ends with it, so a block leaves the analyzer as it was. -/
def analyzeStmt (A : CaptureAnalyzer) : Stmt → CaptureAnalyzer × List Annotation
  | .assignStmt (.identifier id) value _ _ _ => (A.define id.name, (analyzeExpr (A.define id.name) value).lambdas)
  | .assignStmt _ value _ _ _ => (A, (analyzeExpr A value).lambdas)
  | .exprStmt expr => (A, (analyzeExpr A expr).lambdas)
  | .funcDef h body =>
    (A.define h.name, analyzeStmts ((A.define h.name).enter (paramNames h.params) body) body)
  | .classDef h body =>
    (A.define h.name, analyzeStmts ((A.define h.name).enter ["this".toList, "super".toList] body) body)
  | .initDef params body => (A, analyzeStmts (A.enter (paramNames params) body) body)
  | .ifStmt condition thenBranch elsifBranches elseBranch =>
    (A, (analyzeExpr A condition).lambdas ++ (analyzeStmts (A.enter [] thenBranch) thenBranch ++
      (analyzeElsifs A elsifBranches ++ analyzeStmts (A.enter [] elseBranch) elseBranch)))
  | .forStmt var _ iterable body _ =>
    (A, (analyzeExpr A iterable).lambdas ++ analyzeStmts (A.enter [var] body) body)
  | .whileStmt condition body _ =>
    (A, (analyzeExpr A condition).lambdas ++ analyzeStmts (A.enter [] body) body)
  | .returnStmt value => (A, (analyzeOption A value).lambdas)
  | .tryStmt tryBody catchClauses finallyBody =>
    (A, analyzeStmts (A.enter [] tryBody) tryBody ++
      (analyzeCatches A catchClauses ++ analyzeStmts (A.enter [] finallyBody) finallyBody))
  | .throwStmt expr => (A, (analyzeOption A expr).lambdas)
  | .tupleUnpackStmt targets value => (A.defineAll targets, (analyzeExpr A value).lambdas)
  | .constStmt _ _ _ | .breakStmt | .continueStmt | .passStmt | .withStmt _ _ _ | .assertStmt _ _ | .delStmt _
  | .matchStmt _ _ | .importStmt _ | .fromImportStmt _ _ | .interfaceDef _ _ | .enumDef _ _ | .yieldStmt _
  | .chanSendStmt _ _ => (A, [])

/-- The loop of `analyzeStmtList`. -/
def analyzeStmts (A : CaptureAnalyzer) : List Stmt → List Annotation
  | [] => []
  | s :: stmts => (analyzeStmt A s).2 ++ analyzeStmts (analyzeStmt A s).1 stmts

def analyzeElsifs (A : CaptureAnalyzer) : List (Expr × List Stmt) → List Annotation
  | [] => []
  | (condition, body) :: branches =>
    (analyzeExpr A condition).lambdas ++ (analyzeStmts (A.enter [] body) body ++ analyzeElsifs A branches)

def analyzeCatches (A : CaptureAnalyzer) : List (Name × Name × List Stmt) → List Annotation
  | [] => []
  | (_, varName, body) :: clauses =>
    analyzeStmts (A.enter (catchNames varName) body) body ++ analyzeCatches A clauses

end

/-- The functions and classes of the top level, defined before the walk. -/
def topLevelName : Stmt → Option Name
  | .funcDef h _ => some h.name
  | .classDef h _ => some h.name
  | _ => none

/-- `analyze`. -/
def analyze (program : List Stmt) : List Annotation :=
  let A := (({} : CaptureAnalyzer).pushScope.define "print".toList).defineAll (program.filterMap topLevelName)
  analyzeStmts (A.pushCandidates program) program

end Visuall.Capture
