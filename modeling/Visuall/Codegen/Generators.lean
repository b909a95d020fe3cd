import Visuall.Codegen.Values
import Visuall.Lib.Pool
import Visuall.Syntax.Ast

/-!
# Generators, as they are emitted

How `codegenGeneratorFuncLowering`, `codegenGeneratorWrapper` and `codegenYieldStmt` of `src/codegen.cpp` turn a
generator function into one that is resumed.  Locals are allocas of the resume function, numbered as they are made;
those that `declareVar` has seen are saved at a `yield` and restored behind it, in the order in which they were
declared, and the others are not: the flag of a loop with `else`, the index of a `for` loop, the object of `with`,
the exception that a `finally` body holds up.

The emission stops at what does not compile: a name that is not known, and a closure among the variables to save.
The code for the three kinds of iterables is emitted once.  Expressions are opaque, and declare no variables.

* `Stmt`, `codegenStmt` — the statements, and what is emitted for them;
* `step` — the machine that runs the code; `Item` are the points of the code that a branch can lead to;
* `Point` — the blocks behind the `yield`s, to which the resume function dispatches;
* `emitted`, `straight` — the objects of a generator: resumed by its emitted code, or its body run straight through
  and only held up at each `yield`.
-/

namespace Visuall.Codegen.Generators

open Visuall.Ast

/-! ## Statements -/

/-- An exception, and whether it comes out of an invoke. -/
structure Raised (E : Type) where
  exc : E
  invoked : Bool

/-- The outcome of an evaluation in a world `W`. -/
abbrev Outcome (W E α : Type) := W × Except (Raised E) α

/-- An expression, with the variables that it reads. -/
structure Eval (ι W E α : Type) where
  operands : List ι
  run : W → List Value → Outcome W E α

mutual

/-- Statements, with data `D` where the emitted code keeps a value of its own.

* `bind` is an assignment, or with `fresh` another declaration; `type` is the type of the slot, that is of the value
  once it is converted.
* `forStmt` asks for the element at an index before each round, and moves the index on behind it.
* `withStmt` has `__enter__` and `__exit__`. -/
inductive Stmt (W E D : Type)
  | bind (fresh : Bool) (name : Name) (type : LTy) (value : Eval Name W E (BitVec type.width))
  | exprStmt (expr : Eval Name W E Unit)
  | throwStmt (expr : Eval Name W E E)
  | yieldStmt (type : LTy) (value : Eval Name W E (BitVec type.width))
  | ifStmt (condition : Eval Name W E Bool) (thenBranch elseBranch : Block W E D)
  | whileStmt (condition : Eval Name W E Bool) (body elseBranch : Block W E D)
  | forStmt (names : List Name) (iterable : Eval Name W E D)
      (element : D → W → Outcome W E (Option (ℕ → Word))) (advance : D → D) (body elseBranch : Block W E D)
  | matchStmt (subject : Eval Name W E D) (cases : Cases W E D)
  | tryStmt (tryBody : Block W E D) (catchClauses : Clauses W E D) (finallyBody : Block W E D)
  | withStmt (expr : Eval Name W E D) (enter : D → W → Outcome W E Word) (asName : Option Name)
      (exit : D → W → Outcome W E Unit) (body : Block W E D)
  | breakStmt
  | continueStmt
  | returnStmt

inductive Block (W E D : Type)
  | nil
  | cons (s : Stmt W E D) (rest : Block W E D)

/-- The cases of a `match`: the pattern and the guard, of the subject and of variables. -/
inductive Cases (W E D : Type)
  | nil
  | cons (operands : List Name) (test : D → W → List Value → Outcome W E Bool) (body : Block W E D)
      (rest : Cases W E D)

inductive Clauses (W E D : Type)
  | nil
  | cons (takes : E → Bool) (varName : Option Name) (body : Block W E D) (rest : Clauses W E D)

end

variable {W E D : Type}

def Block.isEmpty : Block W E D → Bool
  | .nil => true
  | .cons .. => false

def Clauses.isEmpty : Clauses W E D → Bool
  | .nil => true
  | .cons .. => false

/-- The insert block has a terminator after the statement. -/
def Stmt.terminates (inLoop : Bool) : Stmt W E D → Bool
  | .throwStmt _ | .returnStmt => true
  | .breakStmt | .continueStmt => inLoop
  | _ => false

/-! ## Code -/

/-- An alloca of a declared variable. -/
structure Slot where
  id : ℕ
  type : LTy
  deriving DecidableEq

mutual

/-- The code of a statement: its variables are slots, and the numbers are those of allocas that are not declared.
A `yield` has the state behind it and the slots that are tracked in front of it; the body of a `finally` without
clauses is there twice. -/
inductive Code (W E D : Type)
  | store (slot : Slot) (value : Eval Slot W E (BitVec slot.type.width))
  | expr (e : Eval Slot W E Unit)
  | throw (e : Eval Slot W E E)
  | yield (state : ℕ) (tracked : List Slot) (type : LTy) (value : Eval Slot W E (BitVec type.width))
  | branch (cond : Eval Slot W E Bool) (thenBB elseBB : CodeBlock W E D)
  | whileLoop (flag : Option ℕ) (cond : Eval Slot W E Bool) (body orElse : CodeBlock W E D)
  | forLoop (flag : Option ℕ) (idx : ℕ) (vars : List ℕ) (iterable : Eval Slot W E D)
      (element : D → W → Outcome W E (Option (ℕ → Word))) (advance : D → D) (body orElse : CodeBlock W E D)
  | switch (subject : ℕ) (value : Eval Slot W E D) (cases : CodeCases W E D)
  | tryCatch (body : CodeBlock W E D) (clauses : CodeClauses W E D) (finallyNorm : CodeBlock W E D)
  | tryFinally (savedExc : ℕ) (body finallyNorm finallyClean : CodeBlock W E D)
  | withExit (ctx savedExc : ℕ) (expr : Eval Slot W E D) (enter : D → W → Outcome W E Word) (asVar : Option ℕ)
      (exit : D → W → Outcome W E Unit) (body : CodeBlock W E D)
  | breakTo
  | continueTo
  | ret
  | nothing

inductive CodeBlock (W E D : Type)
  | nil
  | cons (c : Code W E D) (rest : CodeBlock W E D)

inductive CodeCases (W E D : Type)
  | nil
  | cons (operands : List Slot) (test : D → W → List Value → Outcome W E Bool) (body : CodeBlock W E D)
      (rest : CodeCases W E D)

inductive CodeClauses (W E D : Type)
  | nil
  | cons (takes : E → Bool) (var : Option ℕ) (body : CodeBlock W E D) (rest : CodeClauses W E D)

end

/-! ## Emission -/

/-- The members of `Codegen` in a resume function: how many allocas there are, `scopes_`, `genTrackedVars_` and
`genYieldCount_`. -/
structure Emission where
  allocas : ℕ
  scopes : List (List (Name × Slot))
  tracked : List Slot
  yields : ℕ

namespace Emission

variable (G : Emission)

def lookupVar (name : Name) : Option Slot := G.scopes.findSome? fun scope => scope.lookup name

/-- `createEntryBlockAlloca` and `declareVar`, which tracks the alloca. -/
def declareVar (name : Name) (type : LTy) : Emission :=
  { G with
    allocas := G.allocas + 1
    scopes := G.scopes.modifyHead fun scope => (name, ⟨G.allocas, type⟩) :: scope
    tracked := G.tracked ++ [⟨G.allocas, type⟩] }

/-- `createEntryBlockAlloca` alone. -/
def alloca : Emission := { G with allocas := G.allocas + 1 }

def pushScope : Emission := { G with scopes := [] :: G.scopes }

def popScope : Emission := { G with scopes := G.scopes.tail }

/-- A variable that may have no name. -/
def declareOption (name : Option Name) (type : LTy) : Option ℕ × Emission :=
  match name with
  | none => (none, G)
  | some name => (some G.allocas, G.declareVar name type)

/-- The variables of a loop. -/
def declareVars (G : Emission) : List Name → List ℕ × Emission
  | [] => ([], G)
  | name :: names =>
    let (ids, G') := (G.declareVar name .i64).declareVars names
    (G.allocas :: ids, G')

/-- The slots of the variables that an expression reads; a name that is not known does not compile. -/
def resolve (operands : List Name) : Option (List Slot) := operands.mapM G.lookupVar

def resolveEval {α : Type} (e : Eval Name W E α) : Option (Eval Slot W E α) :=
  (G.resolve e.operands).map fun slots => ⟨slots, e.run⟩

/-- The flag of a loop, if there is an else branch. -/
def didBreak (hasElse : Bool) : Option ℕ × Emission :=
  if hasElse then (some G.allocas, G.alloca) else (none, G)

end Emission

/-- What is emitted in a scope of its own. -/
def inScope {α : Type} (f : Emission → Option (α × Emission)) (G : Emission) : Option (α × Emission) :=
  (f G.pushScope).map fun r => (r.1, r.2.popScope)

/-- A closure is among the slots: there is no cast of it to a word. -/
def hasClosure (slots : List Slot) : Bool := slots.any fun s => s.type = .closure

mutual

/-- What is emitted for a statement. -/
def codegenStmt (inLoop : Bool) : Stmt W E D → Emission → Option (Code W E D × Emission)
  | .bind fresh name type value, G => do
    let value ← G.resolveEval value
    match G.lookupVar name with
    | some slot =>
      if slot.type = type ∧ fresh = false then return (.store ⟨slot.id, type⟩ value, G)
      else return (.store ⟨G.allocas, type⟩ value, G.declareVar name type)
    | none => return (.store ⟨G.allocas, type⟩ value, G.declareVar name type)
  | .exprStmt expr, G => do
    let expr ← G.resolveEval expr
    return (.expr expr, G)
  | .throwStmt expr, G => do
    let expr ← G.resolveEval expr
    return (.throw expr, G)
  | .yieldStmt type value, G => do
    let value ← G.resolveEval value
    if hasClosure G.tracked then none
    else return (.yield (G.yields + 1) G.tracked type value, { G with yields := G.yields + 1 })
  | .ifStmt condition thenBranch elseBranch, G => do
    let cond ← G.resolveEval condition
    let (thenBB, G) ← inScope (codegenBlock inLoop thenBranch) G
    let (elseBB, G) ← inScope (codegenBlock inLoop elseBranch) G
    return (.branch cond thenBB elseBB, G)
  | .whileStmt condition body elseBranch, G => do
    let flag := G.didBreak (!elseBranch.isEmpty)
    let cond ← flag.2.resolveEval condition
    let (body, G) ← inScope (codegenBlock true body) flag.2
    let (orElse, G) ← inScope (codegenBlock inLoop elseBranch) G
    return (.whileLoop flag.1 cond body orElse, G)
  | .forStmt names iterable element advance body elseBranch, G => do
    let flag := G.didBreak (!elseBranch.isEmpty)
    let iterable ← flag.2.resolveEval iterable
    let vars := flag.2.alloca.pushScope.declareVars names
    let (body, G) ← codegenBlock true body vars.2
    let (orElse, G) ← inScope (codegenBlock inLoop elseBranch) G.popScope
    return (.forLoop flag.1 flag.2.allocas vars.1 iterable element advance body orElse, G)
  | .matchStmt subject cases, G => do
    let value ← G.resolveEval subject
    let (codes, G') ← codegenCases inLoop cases G.alloca
    return (.switch G.allocas value codes, G')
  | .tryStmt tryBody catchClauses finallyBody, G => do
    if catchClauses.isEmpty then
      if finallyBody.isEmpty then none
      else
        let (body, G') ← inScope (codegenBlock inLoop tryBody) G.alloca
        let (finallyNorm, G') ← inScope (codegenBlock inLoop finallyBody) G'
        let (finallyClean, G') ← inScope (codegenBlock inLoop finallyBody) G'
        return (.tryFinally G.allocas body finallyNorm finallyClean, G')
    else
      let (body, G) ← inScope (codegenBlock inLoop tryBody) G
      let (clauses, G) ← codegenClauses inLoop catchClauses G
      let (finallyNorm, G) ← inScope (codegenBlock inLoop finallyBody) G
      return (.tryCatch body clauses finallyNorm, G)
  | .withStmt expr enter asName exit body, G => do
    let expr ← G.resolveEval expr
    let var := G.alloca.alloca.pushScope.declareOption asName .i64
    let (body, G') ← codegenBlock inLoop body var.2
    return (.withExit G.allocas (G.allocas + 1) expr enter var.1 exit body, G'.popScope)
  | .breakStmt, G => some (if inLoop then .breakTo else .nothing, G)
  | .continueStmt, G => some (if inLoop then .continueTo else .nothing, G)
  | .returnStmt, G => some (.ret, G)

/-- `codegenStmtList`, which stops behind a statement that has ended the block. -/
def codegenBlock (inLoop : Bool) : Block W E D → Emission → Option (CodeBlock W E D × Emission)
  | .nil, G => some (.nil, G)
  | .cons s rest, G => do
    let (c, G) ← codegenStmt inLoop s G
    if s.terminates inLoop then return (.cons c .nil, G)
    else
      let (codes, G) ← codegenBlock inLoop rest G
      return (.cons c codes, G)

def codegenCases (inLoop : Bool) : Cases W E D → Emission → Option (CodeCases W E D × Emission)
  | .nil, G => some (.nil, G)
  | .cons operands test body rest, G => do
    let operands ← G.resolve operands
    let (body, G) ← inScope (codegenBlock inLoop body) G
    let (rest, G) ← codegenCases inLoop rest G
    return (.cons operands test body rest, G)

def codegenClauses (inLoop : Bool) : Clauses W E D → Emission → Option (CodeClauses W E D × Emission)
  | .nil, G => some (.nil, G)
  | .cons takes varName body rest, G => do
    let var := G.pushScope.declareOption varName .ptr
    let (body, G) ← codegenBlock inLoop body var.2
    let (rest, G) ← codegenClauses inLoop rest G.popScope
    return (.cons takes var.1 body rest, G)

end

/-! ## The machine -/

/-- What an alloca holds that is not declared. -/
inductive Hidden (E D : Type)
  | data (d : D)
  | flag (didBreak : Bool)
  | exc (e : E)

/-- The allocas of a frame, as far as they have been written. -/
structure Frame (E D : Type) where
  vars : (s : Slot) → Option (BitVec s.type.width)
  hidden : ℕ → Option (Hidden E D)

namespace Frame

variable (f : Frame E D)

def set (s : Slot) (bits : BitVec s.type.width) : Frame E D :=
  { f with vars := Function.update f.vars s (some bits) }

def setHidden (id : ℕ) (h : Hidden E D) : Frame E D := { f with hidden := Function.update f.hidden id (some h) }

@[simp] theorem set_vars_self (s : Slot) (bits : BitVec s.type.width) : (f.set s bits).vars s = some bits := by
  show Function.update f.vars s (some bits) s = some bits
  rw [Function.update_self]

theorem set_vars_of_ne {s t : Slot} (h : t ≠ s) (bits : BitVec s.type.width) : (f.set s bits).vars t = f.vars t := by
  show Function.update f.vars s (some bits) t = f.vars t
  rw [Function.update_of_ne h]

@[simp] theorem setHidden_hidden_self (id : ℕ) (h : Hidden E D) : (f.setHidden id h).hidden id = some h := by
  show Function.update f.hidden id (some h) id = some h
  rw [Function.update_self]

theorem setHidden_hidden_of_ne {id i : ℕ} (hi : i ≠ id) (h : Hidden E D) :
    (f.setHidden id h).hidden i = f.hidden i := by
  show Function.update f.hidden id (some h) i = f.hidden i
  rw [Function.update_of_ne hi]

/-- A variable of type `i64`. -/
def setWord (id : ℕ) (word : Word) : Frame E D := f.set ⟨id, .i64⟩ word

/-- A variable that holds a pointer. -/
def setPtr (id : ℕ) (word : Word) : Frame E D := f.set ⟨id, .ptr⟩ word

/-- The variables of a loop, from the `i`th component of an element on. -/
def setWords (f : Frame E D) (element : ℕ → Word) : ℕ → List ℕ → Frame E D
  | _, [] => f
  | i, id :: ids => (f.setWord id (element i)).setWords element (i + 1) ids

/-- A flag is cleared in front of a loop that has one. -/
def clear (flag : Option ℕ) : Frame E D := flag.elim f fun id => f.setHidden id (.flag false)

/-- The values of slots, if all have been written. -/
def read (slots : List Slot) : Option (List Value) := slots.mapM fun s => (f.vars s).map (Value.mk s.type)

end Frame

/-- The header of a loop. -/
inductive Header (W E D : Type)
  | whileCond (cond : Eval Slot W E Bool)
  | forCond (idx : ℕ) (vars : List ℕ) (element : D → W → Outcome W E (Option (ℕ → Word))) (advance : D → D)

/-- A landing pad: with clauses; in front of the cleaning copy of a `finally` body; or of `with`. -/
inductive Pad (W E D : Type)
  | catches (clauses : CodeClauses W E D)
  | cleans (savedExc : ℕ) (finallyClean : CodeBlock W E D)
  | exits (ctx savedExc : ℕ) (exit : D → W → Outcome W E Unit)

/-- The points in the code of a function that are still to come, the next one first: the rest of a block, a loop
header, the increment in front of one, the checks of a `match`, the end of a protected body, a call of `__exit__`,
and `resume`. -/
inductive Item (W E D : Type)
  | block (b : CodeBlock W E D)
  | loop (header : Header W E D) (flag : Option ℕ) (body orElse : CodeBlock W E D)
  | inc (idx : ℕ) (advance : D → D)
  | checks (subject : ℕ) (cases : CodeCases W E D)
  | pad (p : Pad W E D)
  | exit (invoked : Bool) (ctx : ℕ) (exit : D → W → Outcome W E Unit)
  | resume (savedExc : ℕ)

abbrev Control (W E D : Type) := List (Item W E D)

structure State (W E D : Type) where
  control : Control W E D
  frame : Frame E D
  world : W

/-- One move.  `unset` reads a variable, and `lost` another alloca, that has not been written. -/
inductive Move (W E D : Type)
  | goes (s : State W E D)
  | yields (word : Word) (state : ℕ) (tracked : List Slot) (s : State W E D)
  | returns (world : W)
  | raises (e : E) (world : W)
  | unset
  | lost

/-- What is taken from an exception, and whether the frames further out have a handler in this world. -/
structure Runtime (W E : Type) where
  msg : E → Word
  handled : W → Bool

/-- The first clause that takes an exception. -/
def CodeClauses.select : CodeClauses W E D → E → Option (Option ℕ × CodeBlock W E D)
  | .nil, _ => none
  | .cons takes var body rest, e => if takes e then some (var, body) else rest.select e

section Machine

variable (R : Runtime W E)

/-- An exception at the landing pads in reach. -/
def land (e : E) : Control W E D → Frame E D → W → Move W E D
  | [], _, w => .raises e w
  | .pad (.catches clauses) :: K, f, w =>
    match clauses.select e with
    | none => .goes ⟨K, f, w⟩
    | some (var, body) => .goes ⟨.block body :: K, var.elim f fun id => f.setPtr id (R.msg e), w⟩
  | .pad (.cleans savedExc finallyClean) :: K, f, w =>
    if R.handled w then
      .goes ⟨.block finallyClean :: .resume savedExc :: K, f.setHidden savedExc (.exc e), w⟩
    else .raises e w
  | .pad (.exits ctx savedExc exit) :: K, f, w =>
    if R.handled w then
      .goes ⟨.exit false ctx exit :: .resume savedExc :: K, f.setHidden savedExc (.exc e), w⟩
    else .raises e w
  | _ :: K, f, w => land e K f w

/-- An exception that is raised; out of a plain call it leaves the function. -/
def unwind (r : Raised E) (K : Control W E D) (f : Frame E D) (w : W) : Move W E D :=
  if r.invoked then land R r.exc K f w else .raises r.exc w

/-- Goes on with what an outcome has, or unwinds. -/
def settle {α : Type} (o : Outcome W E α) (K : Control W E D) (f : Frame E D) (k : α → W → Move W E D) :
    Move W E D :=
  match o with
  | (w, .error r) => unwind R r K f w
  | (w, .ok a) => k a w

/-- Evaluates an expression. -/
def evaluate {α : Type} (operands : List Slot) (run : W → List Value → Outcome W E α) (K : Control W E D)
    (f : Frame E D) (w : W) (k : α → W → Move W E D) : Move W E D :=
  match f.read operands with
  | none => .unset
  | some values => settle R (run w values) K f k

/-- Reads data that the code keeps for itself. -/
def loadData (f : Frame E D) (id : ℕ) (k : D → Move W E D) : Move W E D :=
  match f.hidden id with
  | some (.data d) => k d
  | _ => .lost

/-- The exit block of a loop: behind its else branch if the flag says that the loop was broken. -/
def leaveLoop (flag : Option ℕ) (orElse : CodeBlock W E D) (K : Control W E D) (f : Frame E D) (w : W) :
    Move W E D :=
  match flag with
  | none => .goes ⟨K, f, w⟩
  | some id =>
    match f.hidden id with
    | some (.flag didBreak) => .goes ⟨if didBreak then K else .block orElse :: K, f, w⟩
    | _ => .lost

def breakTo : Control W E D → Frame E D → W → Move W E D
  | [], f, w => .goes ⟨[], f, w⟩
  | .loop _ flag _ orElse :: K, f, w =>
    leaveLoop flag orElse K (flag.elim f fun id => f.setHidden id (.flag true)) w
  | _ :: K, f, w => breakTo K f w

def continueTo : Control W E D → Frame E D → W → Move W E D
  | [], f, w => .goes ⟨[], f, w⟩
  | .loop header flag body orElse :: K, f, w => .goes ⟨.loop header flag body orElse :: K, f, w⟩
  | _ :: K, f, w => continueTo K f w

/-- A value as a word, as `codegenYieldStmt` and `emitGenSaveVars` make it, and back. -/
def saveWord {n : ℕ} (bits : BitVec n) : Word := bits.zeroExtend 64

def restoreWord (n : ℕ) (word : Word) : BitVec n := word.truncate n

/-- One statement, and then `K`. -/
def exec : Code W E D → Control W E D → Frame E D → W → Move W E D
  | .store slot value, K, f, w =>
    evaluate R value.operands value.run K f w fun bits w => .goes ⟨K, f.set slot bits, w⟩
  | .expr e, K, f, w => evaluate R e.operands e.run K f w fun _ w => .goes ⟨K, f, w⟩
  | .throw e, K, f, w => evaluate R e.operands e.run K f w fun exc w => unwind R ⟨exc, true⟩ K f w
  | .yield state tracked _ value, K, f, w =>
    evaluate R value.operands value.run K f w fun bits w => .yields (saveWord bits) state tracked ⟨K, f, w⟩
  | .branch cond thenBB elseBB, K, f, w =>
    evaluate R cond.operands cond.run K f w fun b w =>
      .goes ⟨.block (if b then thenBB else elseBB) :: K, f, w⟩
  | .whileLoop flag cond body orElse, K, f, w =>
    .goes ⟨.loop (.whileCond cond) flag body orElse :: K, f.clear flag, w⟩
  | .forLoop flag idx vars iterable element advance body orElse, K, f, w =>
    evaluate R iterable.operands iterable.run K (f.clear flag) w fun d w =>
      .goes ⟨.loop (.forCond idx vars element advance) flag body orElse :: K,
        (f.clear flag).setHidden idx (.data d), w⟩
  | .switch subject value cases, K, f, w =>
    evaluate R value.operands value.run K f w fun d w =>
      .goes ⟨.checks subject cases :: K, f.setHidden subject (.data d), w⟩
  | .tryCatch body clauses finallyNorm, K, f, w =>
    .goes ⟨.block body :: .pad (.catches clauses) :: .block finallyNorm :: K, f, w⟩
  | .tryFinally savedExc body finallyNorm finallyClean, K, f, w =>
    .goes ⟨.block body :: .pad (.cleans savedExc finallyClean) :: .block finallyNorm :: K, f, w⟩
  | .withExit ctx savedExc expr enter asVar exit body, K, f, w =>
    evaluate R expr.operands expr.run K f w fun d w =>
      settle R (enter d w) K (f.setHidden ctx (.data d)) fun word w =>
        .goes ⟨.block body :: .pad (.exits ctx savedExc exit) :: .exit true ctx exit :: K,
          asVar.elim (f.setHidden ctx (.data d)) fun id => (f.setHidden ctx (.data d)).setWord id word, w⟩
  | .breakTo, K, f, w => breakTo K f w
  | .continueTo, K, f, w => continueTo K f w
  | .ret, _, _, w => .returns w
  | .nothing, K, f, w => .goes ⟨K, f, w⟩

/-- One step from a point of the code. -/
def stepItem : Item W E D → Control W E D → Frame E D → W → Move W E D
  | .block .nil, K, f, w => .goes ⟨K, f, w⟩
  | .block (.cons c rest), K, f, w => exec R c (.block rest :: K) f w
  | .loop (.whileCond cond) flag body orElse, K, f, w =>
    evaluate R cond.operands cond.run K f w fun b w =>
      if b then .goes ⟨.block body :: .loop (.whileCond cond) flag body orElse :: K, f, w⟩
      else leaveLoop flag orElse K f w
  | .loop (.forCond idx vars element advance) flag body orElse, K, f, w =>
    loadData f idx fun d =>
      settle R (element d w) K f fun elem w =>
        match elem with
        | none => leaveLoop flag orElse K f w
        | some elem =>
          .goes ⟨.block body :: .inc idx advance :: .loop (.forCond idx vars element advance) flag body orElse :: K,
            f.setWords elem 0 vars, w⟩
  | .inc idx advance, K, f, w =>
    loadData f idx fun d => .goes ⟨K, f.setHidden idx (.data (advance d)), w⟩
  | .checks _ .nil, K, f, w => .goes ⟨K, f, w⟩
  | .checks subject (.cons operands test body rest), K, f, w =>
    loadData f subject fun d =>
      evaluate R operands (test d) K f w fun b w =>
        .goes ⟨if b then .block body :: K else .checks subject rest :: K, f, w⟩
  | .pad _, K, f, w => .goes ⟨K, f, w⟩
  | .exit invoked ctx exit, K, f, w =>
    loadData f ctx fun d =>
      match exit d w with
      | (w, .error r) => unwind R ⟨r.exc, r.invoked && invoked⟩ K f w
      | (w, .ok _) => .goes ⟨K, f, w⟩
  | .resume savedExc, _, f, w =>
    match f.hidden savedExc with
    | some (.exc e) => .raises e w
    | _ => .lost

def step (s : State W E D) : Move W E D :=
  match s.control with
  | [] => .returns s.world
  | item :: K => stepItem R item K s.frame s.world

/-- Runs to the next `yield` or to the end of the function, if that comes within so many steps. -/
def runFor : ℕ → State W E D → Option (Move W E D)
  | 0, _ => none
  | n + 1, s =>
    match step R s with
    | .goes s => runFor n s
    | move => some move

end Machine

/-! ## Resume points -/

/-- A case of the dispatch: a state, the slots that are restored there, and where the code goes on. -/
structure Point (W E D : Type) where
  state : ℕ
  tracked : List Slot
  control : Control W E D

/-- What is in front of the header again, behind the body of a loop. -/
def Header.increment : Header W E D → Control W E D
  | .whileCond _ => []
  | .forCond idx _ _ advance => [.inc idx advance]

mutual

/-- The points behind the `yield`s of a statement, of which `K` is what follows. -/
def Code.points : Code W E D → Control W E D → List (Point W E D)
  | .yield state tracked _ _, K => [⟨state, tracked, K⟩]
  | .branch _ thenBB elseBB, K => thenBB.points K ++ elseBB.points K
  | .whileLoop flag cond body orElse, K =>
    body.points (.loop (.whileCond cond) flag body orElse :: K) ++ orElse.points K
  | .forLoop flag idx vars _ element advance body orElse, K =>
    body.points (.inc idx advance :: .loop (.forCond idx vars element advance) flag body orElse :: K) ++
      orElse.points K
  | .switch _ _ cases, K => cases.points K
  | .tryCatch body clauses finallyNorm, K =>
    body.points (.pad (.catches clauses) :: .block finallyNorm :: K) ++
      (clauses.points (.block finallyNorm :: K) ++ finallyNorm.points K)
  | .tryFinally savedExc body finallyNorm finallyClean, K =>
    body.points (.pad (.cleans savedExc finallyClean) :: .block finallyNorm :: K) ++
      (finallyNorm.points K ++ finallyClean.points (.resume savedExc :: .block finallyNorm :: K))
  | .withExit ctx savedExc _ _ _ exit body, K =>
    body.points (.pad (.exits ctx savedExc exit) :: .exit true ctx exit :: K)
  | _, _ => []

def CodeBlock.points : CodeBlock W E D → Control W E D → List (Point W E D)
  | .nil, _ => []
  | .cons c rest, K => c.points (.block rest :: K) ++ rest.points K

def CodeCases.points : CodeCases W E D → Control W E D → List (Point W E D)
  | .nil, _ => []
  | .cons _ _ body rest, K => body.points K ++ rest.points K

def CodeClauses.points : CodeClauses W E D → Control W E D → List (Point W E D)
  | .nil, _ => []
  | .cons _ _ body rest, K => body.points K ++ rest.points K

end

/-! ## Generators -/

/-- A generator function. -/
structure Generator (W E D : Type) where
  params : List (Name × LTy)
  body : Block W E D

/-- `codegenGeneratorFuncLowering` in front of the body: the parameters are declared. -/
def entryEmission : List (Name × LTy) → Emission → Emission
  | [], G => G
  | (name, type) :: params, G => entryEmission params (G.declareVar name type)

/-- The resume function: the parameters, and the cases of its dispatch. -/
structure Compiled (W E D : Type) where
  params : List Slot
  points : List (Point W E D)

/-- The resume function of a generator.  The wrapper, too, puts its parameters into words. -/
def Generator.compile (g : Generator W E D) : Option (Compiled W E D) := do
  let G := entryEmission g.params ⟨0, [[]], [], 0⟩
  if hasClosure G.tracked then none
  else
    let (code, _) ← codegenBlock false g.body G
    return ⟨G.tracked, ⟨0, G.tracked, [.block code]⟩ :: code.points []⟩

/-- The fields of a `VisualGenerator` that are read: the state, negative once it is exhausted, and the slots. -/
structure GenContext where
  state : ℤ
  slots : ℕ → Option Word

/-- `emitGenSaveVars`. -/
def saveVars (f : Frame E D) (tracked : List Slot) (slots : ℕ → Option Word) : ℕ → Option Word := fun i =>
  match tracked[i]? with
  | none => slots i
  | some s => (f.vars s).map saveWord

/-- `emitGenRestoreVars`, in the frame of another call. -/
def restoreVars (tracked : List Slot) (slots : ℕ → Option Word) : Frame E D where
  vars s := (tracked.idxOf? s).bind fun i => (slots i).map (restoreWord s.type.width)
  hidden _ := none

/-- What a call of `__visuall_gen_next` ends with. -/
inductive Answer (E : Type)
  | value (word : Word)
  | raised (e : E)
  | undefined
  deriving DecidableEq

/-- `INT64_MIN`. -/
def minWord : Word := BitVec.intMin 64

/-- A generator object as it is emitted.  `raised` is not in the code: it tells that a call has ended with an
exception. -/
structure Object where
  ctx : GenContext
  raised : Bool

/-- The end of the resume function. -/
def Object.exhausted (g : Object) : Object := { g with ctx := { g.ctx with state := -1 } }

/-- What a resume ends with, that was begun in a world. -/
def Object.resumed (g : Object) (w : W) : Move W E D → Answer E × Object × W
  | .yields word state tracked s =>
    (.value word, { g with ctx := ⟨state, saveVars s.frame tracked g.ctx.slots⟩ }, s.world)
  | .returns w => (.value minWord, g.exhausted, w)
  | .raises e w => (.raised e, { g with raised := true }, w)
  | _ => (.undefined, g, w)

section Objects

variable (R : Runtime W E) (C : Compiled W E D)

/-- `__visuall_gen_create` and the wrapper: the slots are cleared, and the parameters are stored. -/
def genCreate (args : (s : Slot) → BitVec s.type.width) : Object where
  ctx := {
    state := 0
    slots := fun i => some ((C.params[i]?).elim 0 fun s => saveWord (args s)) }
  raised := false

/-- Where a call is dispatched to. -/
def dispatch (ctx : GenContext) : Option (Point W E D) := C.points.find? fun p => (p.state : ℤ) = ctx.state

/-- The state of the machine behind the dispatch. -/
def Point.entered (p : Point W E D) (slots : ℕ → Option Word) (w : W) : State W E D :=
  ⟨p.control, restoreVars p.tracked slots, w⟩

/-- `__visuall_gen_next`: an object that is exhausted stays so, and a state without a case is dispatched to the
end. -/
def genNext (n : ℕ) (g : Object) (w : W) : Option (Answer E × Object × W) :=
  if g.ctx.state < 0 then some (.value minWord, g, w)
  else
    match dispatch C g.ctx with
    | none => some (.value minWord, g.exhausted, w)
    | some p => (runFor R n (p.entered g.ctx.slots w)).map (g.resumed w)

/-- Generator objects as they are emitted. -/
def emitted : Pool.Kind ((s : Slot) → BitVec s.type.width) Object W (Answer E) := ⟨genCreate C, genNext R C⟩

/-- The body of a generator that is held up at a `yield`, in its own frame; `none` once it has ended. -/
abbrev Suspended (W E D : Type) := Option (Control W E D × Frame E D)

/-- The body in front of its first statement. -/
def bodyCreate (args : (s : Slot) → BitVec s.type.width) : Suspended W E D :=
  C.points.head?.map fun p => (p.control, ⟨fun s => if s ∈ C.params then some (args s) else none, fun _ => none⟩)

/-- What the body is held up with, that was run on from a world. -/
def heldUp (w : W) : Move W E D → Answer E × Suspended W E D × W
  | .yields word _ _ s => (.value word, some (s.control, s.frame), s.world)
  | .returns w => (.value minWord, none, w)
  | .raises e w => (.raised e, none, w)
  | _ => (.undefined, none, w)

/-- Runs the body on, to its next `yield`. -/
def bodyNext (n : ℕ) : Suspended W E D → W → Option (Answer E × Suspended W E D × W)
  | none, w => some (.value minWord, none, w)
  | some (K, f), w => (runFor R n ⟨K, f, w⟩).map (heldUp w)

/-- Bodies that are run straight through, and only held up at each `yield`. -/
def straight : Pool.Kind ((s : Slot) → BitVec s.type.width) (Suspended W E D) W (Answer E) :=
  ⟨bodyCreate C, bodyNext R⟩

end Objects

end Visuall.Codegen.Generators
