import Visuall.Checker.Assignable

/-!
# The state of the checker

What `TypeChecker` carries through the tree, and the helpers that its visitors are written with.
The tables of the first pass are never written again after it and are a parameter of the visitors; the
fields that a visitor saves, changes and restores are its `Context`; what is left is the `State`.

* `TypeErr` — the errors, without their texts;
* `Check` — a visitor: it may end early with a thrown `TypeError`;
* `declare`, `lookup`, `inScope`, `unify` — the helpers.
-/

namespace Visuall.Checker

open Visuall.Ast Visuall.Types

/-! ## Errors -/

/-- The errors, one constructor a text.  The position is kept where the uses of names and the assignments
are told apart by it. -/
inductive TypeErr
  | undefinedVariable (name : Occurrence)
  | constantReassigned (name : Name) (pos : Position)
  | cannotAssign (given expected : Ty)
  | alreadyDeclared (name : Name)
  | declaredMismatch (declared given : Ty)
  | constantDeclared (name : Name)
  | constantMismatch (expected given : Ty)
  | returnMismatch (expected given : Ty)
  | unannotatedReturn
  | nestedExtern
  | externReturnType (function type : Name)
  | externParamType (function type : Name)
  | missingReturn (function : Name) (type : Ty)
  | overrideParamCount (method : Name)
  | overrideParamType (method : Name) (expected given : Ty)
  | overrideReturnType (method : Name) (expected given : Ty)
  | missingMethod (cls method interface : Name)
  | sendTo (type : Ty)
  | receiveFrom (type : Ty)
  | thisOutsideClass
  | superOutsideClass
  | superWithoutBase
  | badAddition (left right : Ty)
  | badArithmetic (left right : Ty)
  | badFloorDivision (left right : Ty)
  | badComparison (left right : Ty)
  | bitwiseOnFloat
  | badBitwise (left right : Ty)
  | badNegation (type : Ty)
  | complementOfFloat
  | badComplement (type : Ty)
  | isinstanceArity
  | inputArity (got : ℕ)
  | inputArgument (type : Ty)
  | makeChanArity
  | lenArity
  | unsatisfiedBound (type : Ty) (bound param : Name)
  | arity (function : Name) (expected got : ℕ)
  | argumentType (function : Name) (expected given : Ty)
  | notCallable (name : Name)
  | typeNotCallable (type : Ty)
  | matchGuard (type : Ty)
  | assertCondition (type : Ty)
  | assertMessage (type : Ty)
  | delTarget
  | matchPattern (pattern subject : Ty)

/-! ## State and context -/

/-- `SymbolTable::Scope`: a declaration hides the ones behind it with the same name. -/
abbrev Scope := List (Name × Ty)

/-- What only grows or is popped while the tree is visited: the active scopes, innermost first,
`constVars_` and `errors_`. -/
structure State where
  symbols : List Scope := []
  constVars : List Name := []
  errors : List TypeErr := []

/-- The fields that visitors of functions and classes save, change and restore. -/
structure Context where
  insideClass : Bool := false
  currentClassName : Name := []
  currentTypeParams : List Name := []
  currentReturnType : Ty := .void
  hasExplicitReturnType : Bool := false
  functionNestingDepth : ℕ := 0

/-- How a visit ends early: with a thrown `TypeError`, or never. -/
inductive Stop
  | thrown (e : TypeErr)
  | diverges

/-- A visitor. -/
abbrev Check := ExceptT Stop (StateM State)

namespace State

/-- `SymbolTable::isDeclared`. -/
def isDeclared (σ : State) (name : Name) : Bool :=
  σ.symbols.any fun scope => (scope.lookup name).isSome

/-- `SymbolTable::lookup`. -/
def find (σ : State) (name : Name) : Ty :=
  (σ.symbols.findSome? fun scope => scope.lookup name).getD .unknown

/-- `SymbolTable::enterScope`. -/
def enterScope (σ : State) : State := { σ with symbols := [] :: σ.symbols }

/-- `SymbolTable::exitScope`. -/
def exitScope (σ : State) : State := { σ with symbols := σ.symbols.tail }

/-- `SymbolTable::declare`. -/
def declare (σ : State) (name : Name) (type : Ty) : State :=
  match σ.symbols with
  | [] => σ
  | scope :: scopes => { σ with symbols := ((name, type) :: scope) :: scopes }

end State

/-! ## Helpers -/

/-- `isBuiltinFunction`. -/
def builtins : List Name :=
  ["print".toList, "println".toList, "input".toList, "len".toList, "range".toList, "type".toList,
    "isinstance".toList, "int".toList, "float".toList, "str".toList, "bool".toList, "abs".toList,
    "min".toList, "max".toList, "round".toList, "sorted".toList, "reversed".toList,
    "enumerate".toList, "zip".toList, "map".toList, "filter".toList, "make_chan".toList]

/-- `TypeChecker::error`. -/
def error (e : TypeErr) : Check Unit := modify fun σ => { σ with errors := σ.errors ++ [e] }

/-- `if (c) x`. -/
def onlyIf (c : Bool) (x : Check Unit) : Check Unit := if c then x else pure ()

/-- `throw TypeError(…)`. -/
def throwTypeError {α : Type} (e : TypeErr) : Check α := throw (.thrown e)

/-- `declare`. -/
def declare (name : Name) (type : Ty) : Check Unit := modify fun σ => σ.declare name type

/-- `declare`, for each name of a list. -/
def declareAll (type : Ty) : List Name → Check Unit
  | [] => pure ()
  | name :: names => do
      declare name type
      declareAll type names

/-- `symbols_.isDeclared`. -/
def isDeclared (name : Name) : Check Bool := do return (← get).isDeclared name

/-- `symbols_.lookup`. -/
def find (name : Name) : Check Ty := do return (← get).find name

/-- `lookup`. -/
def lookup (name : Occurrence) : Check Ty := do
  if ← isDeclared name.name then find name.name
  else if name.name ∈ builtins then return .unknown
  else
    error (.undefinedVariable name)
    return .unknown

/-- What stands between an `enterScope()` and its `exitScope()`. -/
def inScope {α : Type} (x : Check α) : Check α := do
  modify State.enterScope
  let a ← x
  modify State.exitScope
  return a

variable (T : Tables)

/-- `resolveTypeName`, with the type parameters in scope. -/
def resolve (C : Context) (name : Name) : Ty :=
  resolveTypeName ⟨C.currentTypeParams, T.interfaceTable.map Prod.fst⟩ name

/-- The type of an annotation that may be left out. -/
def resolveOrUnknown (C : Context) ( annotation : Name) : Ty :=
  if annotation = [] then .unknown else resolve T C annotation

/-- `isAssignableTo`, where it may be that it never returns. -/
def isAssignable (given expected : Ty) : Check Bool :=
  match T.isAssignableTo given expected with
  | some b => pure b
  | none => throw .diverges

/-- An error, unless a type is assignable to another. -/
def requireAssignable (given expected : Ty) (e : TypeErr) : Check Unit := do
  let ok ← isAssignable T given expected
  onlyIf (!ok) (error e)

/-- `unify`. -/
def unify (a b : Ty) : Check Ty :=
  if isUnknown a then pure b
  else if isUnknown b then pure a
  else if typeEquals a b then pure a
  else if isNumeric a && isNumeric b then pure (promoteNumeric a b)
  else if kind a = .null || kind b = .null then pure (if kind a = .null then b else a)
  else if kind a = .typeVar || kind b = .typeVar then pure (if kind a = .typeVar then b else a)
  else do
    if ← isAssignable T a b then return b
    else if ← isAssignable T b a then return a
    else
      error (.cannotAssign a b)
      return .unknown

end Visuall.Checker
