import Visuall.Codegen.Values
import Visuall.Syntax.Ast

/-!
# Variables in the code generator

Where `src/codegen.cpp` keeps variables: the stack of scopes, the slots made by `createEntryBlockAlloca`, the
globals of `moduleGlobals_`, the boxes of variables that a lambda captures by reference, and the environments of
closures.  A program is gone through once, in the order in which it is compiled.

* `Item` — what is compiled, as far as it touches variables;
* `Scoping` — the members of `Codegen` that decide where a variable is;
* `codegenBind`, `codegenIdentifier`, … — what each item emits, and what it changes;
* `codegen` — a program, with the code of each item.
-/

namespace Visuall.Codegen.Variables

open Visuall.Ast

/-! ## Programs -/

/-- A variable that a lambda captures. -/
structure Capture where
  name : Name
  byReference : Bool

/-- `collectBoxedVarsFromStmts`: the statements of a list that assign a lambda, each with its captures. -/
def collectBoxedVars (lambdas : List (List Capture)) : List Name :=
  lambdas.flatten.filterMap fun c => if c.byReference then some c.name else none

/-- A function is entered: a `FuncDef`, with the lambdas that the statements of its body assign; a lambda, with
its captures; or a method, an `init` or an instance of a generic function. -/
inductive Entry
  | funcDef (lambdas : List (List Capture))
  | lambda (captures : List Capture)
  | method

/-- How a name is bound.  A variable of a loop, of `catch` or of `with`, a target of an unpacking and a parameter
get a slot of their own, of the type given; a target of an assignment behind the first is `chained`. -/
inductive Form
  | assign (annotated : Option LTy)
  | const (annotated : Option LTy)
  | chained
  | walrus
  | fresh (type : LTy)

/-- What is compiled.  A binding has the LLVM type of the value, and of the declared type of the variable.  A
closure is made by a `capture` of each variable, behind the code of the lambda, and that begins with an `enter` of
each. -/
inductive Item
  | functionBegin (entry : Entry)
  | functionEnd
  | blockBegin
  | blockEnd
  | bind (form : Form) (name : Name) (type declared : LTy)
  | del (name : Name) (declared : LTy)
  | read (name : Name)
  | capture (c : Capture)
  | enter (c : Capture)

/-! ## Where a variable is -/

/-- An alloca: a number, the function it is in, and the type. -/
structure Slot where
  id : ℕ
  function : ℕ
  type : LTy

inductive Cell
  | slot (id : ℕ)
  | global (id : ℕ)
  deriving DecidableEq, Repr

/-- The code for an item, as far as it touches variables.  A slot that is taken for that of a box holds a pointer
to the box.  What is `broken` does not compile: the name is unknown, or the alloca is one of another function. -/
inductive Code
  | store (cells : List (Cell × LTy))
  | newBox (slot : ℕ)
  | storeBox (slot : ℕ)
  | load (cell : Cell) (type : LTy)
  | loadBox (slot : ℕ) (type : LTy)
  | clear (slot : ℕ) (type : LTy)
  | captureValue (slot : ℕ) (type : LTy)
  | captureBox (slot : ℕ)
  | enterValue (slot : ℕ)
  | enterBox (slot : ℕ)
  | nothing
  | broken

/-- The members of `Codegen`.  `scopes` is `scopes_`, the innermost first; `boxedVars` has the type of a boxed
variable where it is known; `returned` tells that an assignment returned before its further targets. -/
structure Scoping where
  scopes : List (List (Name × Slot))
  currentFunction : ℕ
  saved : List (ℕ × Option (Name → Option (Option LTy)))
  boxedVars : Name → Option (Option LTy)
  moduleGlobals : Name → Option (ℕ × LTy)
  slots : ℕ
  globals : ℕ
  functions : ℕ
  returned : Bool

/-- `boxedVars_` with the names that are found, and no types. -/
def boxed (names : List Name) (x : Name) : Option (Option LTy) := if x ∈ names then some none else none

namespace Scoping

/-- At the beginning of the code at top level, which is function `0`; `lambdas` are those that its statements
assign. -/
def initial (lambdas : List (List Capture)) : Scoping where
  scopes := [[]]
  currentFunction := 0
  saved := []
  boxedVars := boxed (collectBoxedVars lambdas)
  moduleGlobals := fun _ => none
  slots := 0
  globals := 0
  functions := 1
  returned := false

variable (σ : Scoping)

/-- `lookupVar`. -/
def lookupVar (x : Name) : Option Slot := σ.scopes.findSome? fun scope => scope.lookup x

/-- The alloca is in another function than the code. -/
def crossFunc (slot : Slot) : Bool := slot.function ≠ σ.currentFunction

/-- `createEntryBlockAlloca` and `declareVar`. -/
def newSlot (x : Name) (type : LTy) : ℕ × Scoping :=
  (σ.slots, { σ with
    slots := σ.slots + 1
    scopes := σ.scopes.modifyHead fun scope => (x, ⟨σ.slots, σ.currentFunction, type⟩) :: scope })

/-- A new `GlobalVariable` in `moduleGlobals_`. -/
def newGlobal (x : Name) (type : LTy) : ℕ × Scoping :=
  (σ.globals, { σ with
    globals := σ.globals + 1
    moduleGlobals := Function.update σ.moduleGlobals x (some (σ.globals, type)) })

/-- The value is stored in a slot of its own. -/
def storeNew (x : Name) (type : LTy) : Code × Scoping :=
  let (s, σ) := σ.newSlot x type
  (.store [(.slot s, type)], σ)

end Scoping

/-! ## The code for an item -/

section Emission

variable (σ : Scoping)

/-- A boxed variable in `codegenAssignStmt`. -/
def codegenAssignBoxed (x : Name) (type : LTy) : Code × Scoping :=
  let σ := { σ with boxedVars := Function.update σ.boxedVars x (some (some type)), returned := true }
  if type = .closure then (.broken, σ)
  else
    match σ.lookupVar x with
    | some slot => (if σ.crossFunc slot then .broken else .storeBox slot.id, σ)
    | none =>
      let (s, σ) := σ.newSlot x .ptr
      (.newBox s, σ)

/-- `codegenAssignStmt` for a name; `moduleInit` tells that the code at top level is `moduleInitFn_`. -/
def codegenAssign (moduleInit : Bool) (annotated : Option LTy) (x : Name) (type : LTy) : Code × Scoping :=
  let allocaTy := annotated.getD type
  match σ.boxedVars x with
  | some _ => codegenAssignBoxed σ x type
  | none =>
    let σ := { σ with returned := false }
    match σ.lookupVar x with
    | some slot =>
      if σ.crossFunc slot then
        -- the global for other functions, and a copy for the rest of this one
        let (global, σ) :=
          match σ.moduleGlobals x with
          | some global => (global, σ)
          | none =>
            let (g, σ) := σ.newGlobal x allocaTy
            ((g, allocaTy), σ)
        let (s, σ) := σ.newSlot x allocaTy
        (.store [(.global global.1, global.2), (.slot s, allocaTy)], { σ with returned := true })
      else if slot.type = allocaTy then (.store [(.slot slot.id, allocaTy)], σ)
      else σ.storeNew x allocaTy
    | none =>
      let (s, σ) := σ.newSlot x allocaTy
      if moduleInit && σ.currentFunction = 0 then
        let (g, σ) := σ.newGlobal x allocaTy
        (.store [(.slot s, allocaTy), (.global g, allocaTy)], σ)
      else (.store [(.slot s, allocaTy)], σ)

/-- A further target in `codegenAssignStmt`. -/
def codegenChained (x : Name) (type : LTy) : Code × Scoping :=
  if σ.returned then (.store [], σ)
  else
    match σ.lookupVar x with
    | some slot =>
      if slot.type = type then (if σ.crossFunc slot then .broken else .store [(.slot slot.id, type)], σ)
      else σ.storeNew x type
    | none => σ.storeNew x type

/-- `visit(WalrusExpr)`. -/
def codegenWalrus (x : Name) (type : LTy) : Code × Scoping :=
  match σ.lookupVar x with
  | some slot => (if σ.crossFunc slot then .broken else .store [(.slot slot.id, slot.type)], σ)
  | none => σ.storeNew x type

/-- The code for a binding. -/
def codegenBind (moduleInit : Bool) (form : Form) (x : Name) (type : LTy) : Code × Scoping :=
  match form with
  | .assign annotated => codegenAssign σ moduleInit annotated x type
  | .const annotated => σ.storeNew x (annotated.getD type)
  | .chained => codegenChained σ x type
  | .walrus => codegenWalrus σ x type
  | .fresh slotType => σ.storeNew x slotType

/-- A name in `codegenDelStmt`. -/
def codegenDel (x : Name) : Code × Scoping :=
  match σ.lookupVar x with
  | some slot => (if σ.crossFunc slot then .broken else .clear slot.id slot.type, σ)
  | none => (.nothing, σ)

/-- The type a boxed variable is read with. -/
def boxType : Option LTy → LTy
  | none | some .closure => .i64
  | some type => type

/-- `codegenIdentifier` for a variable. -/
def codegenIdentifier (x : Name) : Code × Scoping :=
  match σ.lookupVar x with
  | some slot =>
    if σ.crossFunc slot then
      match σ.moduleGlobals x with
      | some (g, type) => (.load (.global g) type, σ)
      | none =>
        let (g, σ) := σ.newGlobal x slot.type
        (.load (.global g) slot.type, σ)
    else
      match σ.boxedVars x with
      | some type => (.loadBox slot.id (boxType type), σ)
      | none => (.load (.slot slot.id) slot.type, σ)
  | none => (.broken, σ)

/-- A captured variable is put into the environment, in `codegenLambdaExpr`. -/
def codegenCapture (c : Capture) : Code × Scoping :=
  match σ.lookupVar c.name with
  | some slot =>
    (if σ.crossFunc slot then .broken
      else if c.byReference then .captureBox slot.id else .captureValue slot.id slot.type, σ)
  | none => (.broken, σ)

/-- A captured variable is taken from the environment, at the beginning of the code of a lambda. -/
def codegenEnter (c : Capture) : Code × Scoping :=
  let (s, σ) := σ.newSlot c.name (if c.byReference then .ptr else .i64)
  (if c.byReference then .enterBox s else .enterValue s, σ)

/-- `boxedVars_` when a function is entered, where it is set anew. -/
def Entry.boxedVars : Entry → Option (Name → Option (Option LTy))
  | .funcDef lambdas => some (boxed (collectBoxedVars lambdas))
  | .lambda captures => some (boxed (collectBoxedVars [captures]))
  | .method => none

def enterFunction (entry : Entry) : Scoping :=
  { σ with
    saved := (σ.currentFunction, entry.boxedVars.map fun _ => σ.boxedVars) :: σ.saved
    currentFunction := σ.functions
    functions := σ.functions + 1
    boxedVars := entry.boxedVars.getD σ.boxedVars
    scopes := [] :: σ.scopes }

def leaveFunction : Scoping :=
  { σ with
    scopes := σ.scopes.tail
    currentFunction := (σ.saved.head?.map Prod.fst).getD 0
    boxedVars := (σ.saved.head?.bind Prod.snd).getD σ.boxedVars
    saved := σ.saved.tail }

/-- The code for an item. -/
def codegenItem (moduleInit : Bool) : Item → Code × Scoping
  | .functionBegin entry => (.nothing, enterFunction σ entry)
  | .functionEnd => (.nothing, leaveFunction σ)
  | .blockBegin => (.nothing, { σ with scopes := [] :: σ.scopes })
  | .blockEnd => (.nothing, { σ with scopes := σ.scopes.tail })
  | .bind form x type _ => codegenBind σ moduleInit form x type
  | .del x _ => codegenDel σ x
  | .read x => codegenIdentifier σ x
  | .capture c => codegenCapture σ c
  | .enter c => codegenEnter σ c

end Emission

/-- A program with the code of each item, from a scoping on. -/
def codegenFrom (moduleInit : Bool) : Scoping → List Item → List (Item × Code)
  | _, [] => []
  | σ, item :: items =>
    (item, (codegenItem σ moduleInit item).1) :: codegenFrom moduleInit (codegenItem σ moduleInit item).2 items

/-- A program with the code of each item; `lambdas` are those that the statements at top level assign. -/
def codegen (moduleInit : Bool) (lambdas : List (List Capture)) (items : List Item) : List (Item × Code) :=
  codegenFrom moduleInit (.initial lambdas) items

end Visuall.Codegen.Variables
