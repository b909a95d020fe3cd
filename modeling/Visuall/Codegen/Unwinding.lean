import Visuall.Lib.Ranked
import Visuall.Syntax.Ast

/-!
# Exceptions and cleanup, as they are emitted

What `codegenTryStmt`, `codegenWithStmt`, `codegenThrowStmt`, `codegenReturnStmt`, `emitCallOrInvoke` and the
visitors of `break` and `continue` emit (`src/codegen.cpp`), for functions that call each other.  A basic block is
what the rest of the function does from there on, and a landing pad is such a block that is given an exception; the
stacks of the code generator are the fields of `Env`.

How an exception moves is the two-phase unwinding that the emitted code is linked with: a landing pad that only
cleans up is entered when some frame further out has a handler, and `resume` goes on in the caller.  The count of
`__cxa_end_catch` calls, the traceback, and generator bodies are left out; a condition or an argument that calls
is a call in front of the statement.

* `Stmt` — the statements;
* `codegenStmt` — the blocks emitted for a statement;
* `Program.run` — what a call of a function does.
-/

namespace Visuall.Codegen.Unwinding

open Visuall.Ast

universe u v w

/-! ## Classes -/

/-- The classes with their bases; the ranks say that there is no cycle. -/
abbrev Hierarchy := Ranked Name

namespace Hierarchy

/-- A class and all that it inherits from. -/
def ancestors (H : Hierarchy) (cls : Name) : List Name := H.reached (H.rank cls) cls

theorem mem_ancestors_iff (H : Hierarchy) {cls c : Name} :
    c ∈ H.ancestors cls ↔ Relation.ReflTransGen H.Step cls c := H.mem_reached_iff _ (Nat.le_refl _)

end Hierarchy

/-- `classBaseMap_` at some point of the compilation: a base for some of the classes. -/
structure BaseMap (H : Hierarchy) where
  base : Name → Option Name
  base_mem : ∀ cls, ∀ b ∈ base cls, b ∈ H.next cls

namespace BaseMap

variable {H : Hierarchy} (B : BaseMap H)

def chainFrom : ℕ → Name → List Name
  | 0, checkType => [checkType]
  | n + 1, checkType => checkType :: (B.base checkType).elim [] (chainFrom n)

/-- The names that a clause compares with: its type and the bases of that. -/
def typeChain (exceptionType : Name) : List Name := B.chainFrom (H.rank exceptionType) exceptionType

theorem self_mem_typeChain (cls : Name) : cls ∈ B.typeChain cls := by
  unfold typeChain
  cases H.rank cls with
  | zero => exact List.mem_singleton.mpr rfl
  | succ n => exact List.mem_cons_self

end BaseMap

/-! ## Statements -/

/-- The forms in which code of the program is called. -/
inductive CallForm
  | function | imported | constructor | method | property | operator | iterator | closure | generator
  deriving DecidableEq

/-- Whether the call goes through `emitCallOrInvoke`. -/
def CallForm.invokes : CallForm → Bool
  | .closure | .generator => false
  | _ => true

/-- A `VisualException`: its message, and its class name, empty for an untyped one. -/
structure VisualException (M : Type*) where
  msg : M
  className : Name
  deriving DecidableEq

/-- Line and column. -/
abbrev Place := ℕ × ℕ

mutual

/-- The statements over a memory `S`, with values `V` and messages `M`.  A list of statements is their sequence,
and an empty one is `skip`.

* `throwStmt` has the class name that `codegenThrowStmt` records, the class of what is thrown, and the message;
  `throwAgain` is the bare `throw`.
* `whileStmt` evaluates `head` in front of each test.
* `tryStmt` has the value of `classBaseMap_` where it stands, and its place.
* `withStmt` has the `__exit__` that `codegenWithStmt` finds, and the one of the object. -/
inductive Stmt (H : Hierarchy) (S : Type u) (V : Type v) (M : Type w)
  | skip
  | seq (first rest : Stmt H S V M)
  | simple (act : S → S)
  | callStmt (form : CallForm) (callee : S → Name) (bind : V → S → S)
  | throwStmt (thrownClassName : Name) (thrown : S → Name) (msgVal : S → M)
  | throwAgain
  | returnStmt (value : S → V)
  | breakStmt
  | continueStmt
  | ifStmt (condition : S → Bool) (thenBranch elseBranch : Stmt H S V M)
  | whileStmt (head : Stmt H S V M) (condition : S → Bool) (body elseBranch : Stmt H S V M)
  | tryStmt (classBaseMap : BaseMap H) (place : Place) (tryBody : Stmt H S V M)
      (catchClauses : Clauses H S V M) (finallyBody : Stmt H S V M)
  | withStmt (exitFn : Option Name) (exit : S → Name) (body : Stmt H S V M)

/-- The catch clauses; an untyped one has the empty type. -/
inductive Clauses (H : Hierarchy) (S : Type u) (V : Type v) (M : Type w)
  | nil
  | cons (exceptionType : Name) (bindVar : M → S → S) (body : Stmt H S V M) (rest : Clauses H S V M)

end

variable {H : Hierarchy} {S : Type u} {V : Type v} {M : Type w}

def Stmt.isEmpty : Stmt H S V M → Bool
  | .skip => true
  | _ => false

def Clauses.isEmpty : Clauses H S V M → Bool
  | .nil => true
  | .cons .. => false

/-! ## What is emitted, and when it stops

`codegenStmtList` stops behind a statement that has ended the block.  `lastExceptionVal_` is a member of the code
generator: what a bare `throw` reads is settled by the order in which the `try` statements are emitted. -/

/-- The insert block has a terminator after the statement. -/
def Stmt.terminates (inLoop : Bool) : Stmt H S V M → Bool
  | .seq first rest => first.terminates inLoop || rest.terminates inLoop
  | .throwStmt .. | .throwAgain | .returnStmt _ => true
  | .breakStmt | .continueStmt => inLoop
  | _ => false

mutual

/-- The place of the `try` whose message `lastExceptionVal_` is once the statement is emitted. -/
def Stmt.lastExceptionVal (inLoop : Bool) : Stmt H S V M → Option Place → Option Place
  | .seq first rest, last =>
    if first.terminates inLoop then first.lastExceptionVal inLoop last
    else rest.lastExceptionVal inLoop (first.lastExceptionVal inLoop last)
  | .ifStmt _ thenBranch elseBranch, last =>
    elseBranch.lastExceptionVal inLoop (thenBranch.lastExceptionVal inLoop last)
  | .whileStmt head _ body elseBranch, last =>
    elseBranch.lastExceptionVal inLoop
      (body.lastExceptionVal true (head.lastExceptionVal inLoop last))
  | .tryStmt _ place tryBody catchClauses finallyBody, last =>
    if catchClauses.isEmpty then
      finallyBody.lastExceptionVal inLoop
        (finallyBody.lastExceptionVal inLoop (tryBody.lastExceptionVal inLoop last))
    else finallyBody.lastExceptionVal inLoop (catchClauses.lastExceptionVal inLoop (some place))
  | .withStmt _ _ body, last => body.lastExceptionVal inLoop last
  | _, last => last

def Clauses.lastExceptionVal (inLoop : Bool) : Clauses H S V M → Option Place → Option Place
  | .nil, last => last
  | .cons _ _ body rest, last => rest.lastExceptionVal inLoop (body.lastExceptionVal inLoop last)

end

/-! ## Blocks -/

/-- A frame while its function runs: the memory, the message that each `try` has caught last, and whether the
frames further out have a handler. -/
structure Machine (S M : Type*) where
  store : S
  excMsg : Place → Option M
  handled : Bool

namespace Machine

variable (m : Machine S M)

def set (s : S) : Machine S M := { m with store := s }

def caught (place : Place) (msg : M) : Machine S M :=
  { m with excMsg := Function.update m.excMsg place (some msg) }

end Machine

/-- Why a run has no result: too few rounds were given, a value was read that is not defined on the path, or the
run was left undecided. -/
inductive Halt
  | rounds
  | undefined
  | undecided
  deriving DecidableEq

/-- How a function is left. -/
inductive Result (S V M : Type*)
  | returned (value : V) (store : S)
  | threw (e : VisualException M) (store : S)
  | halted (why : Halt)
  deriving DecidableEq

/-- What is done from a point of a function on. -/
abbrev Block (S V M : Type*) := Machine S M → Result S V M

/-- A landing pad; `catches` is `false` for one that only cleans up. -/
structure Pad (S V M : Type*) where
  catches : Bool
  block : VisualException M → Block S V M

/-- `loopStack_`, the header and the exit block of each loop, and `landingpadStack_`, innermost first. -/
structure Env (S V M : Type*) where
  loopStack : List (Block S V M × Block S V M)
  landingpadStack : List (Pad S V M)

/-- What the function bodies are run with: what a call of a function does, given whether the frames further out
have a handler; the number of rounds of a loop; the memory of the caller after a call; and the message of a null
pointer. -/
structure Linked (S V M : Type*) where
  call : Name → Bool → S → Result S V M
  rounds : ℕ
  restore : S → S → S
  noMessage : M

/-- An exception that leaves the function. -/
def resume (e : VisualException M) : Block S V M := fun m => .threw e m.store

namespace Env

variable (env : Env S V M)

def inLoop : Bool := !env.loopStack.isEmpty

/-- The innermost landing pad has a clause. -/
def catches : Bool := env.landingpadStack.head?.any Pad.catches

def push (pad : Pad S V M) : Env S V M := { env with landingpadStack := pad :: env.landingpadStack }

def pushLoop (condBB exitBB : Block S V M) : Env S V M :=
  { env with loopStack := (condBB, exitBB) :: env.loopStack }

/-- An exception raised where the landing pads of the function are in reach. -/
def unwind (e : VisualException M) : Block S V M := fun m =>
  match env.landingpadStack with
  | [] => resume e m
  | pad :: _ => if pad.catches || m.handled then pad.block e m else resume e m

end Env

/-! ## Emission -/

section Emission

variable (L : Linked S V M)

/-- A call, which is an invoke if it goes through `emitCallOrInvoke` and there is a landing pad. -/
def codegenCall (invokes : Bool) (env : Env S V M) (callee : Name) (bind : V → S → S) (normalBB : Block S V M) :
    Block S V M := fun m =>
  match L.call callee (m.handled || (invokes && env.catches)) m.store with
  | .returned v s => normalBB (m.set (bind v (L.restore m.store s)))
  | .threw e s =>
    if invokes then env.unwind e (m.set (L.restore m.store s)) else resume e (m.set (L.restore m.store s))
  | .halted why => .halted why

/-- The header of a loop, which is branched to at most `n` times. -/
def codegenLoop (head : Block S V M → Block S V M) (condition : S → Bool)
    (body : Block S V M → Block S V M) (elseBB : Block S V M) : ℕ → Block S V M
  | 0 => fun _ => .halted .rounds
  | n + 1 => head fun m =>
    if condition m.store then body (codegenLoop head condition body elseBB n) m else elseBB m

/-- The call of `__exit__`, if a function for it is found. -/
def codegenExit (invokes : Bool) (env : Env S V M) (exitFn : Option Name) (next : Block S V M) : Block S V M :=
  match exitFn with
  | none => next
  | some callee => codegenCall L invokes env callee (fun _ s => s) next

/-- A bare `throw`: the message is the one in `lastExceptionVal_`, and the exception has no class. -/
def codegenThrowAgain (env : Env S V M) (last : Option Place) : Block S V M := fun m =>
  match last with
  | none => env.unwind ⟨L.noMessage, []⟩ m
  | some place =>
    match m.excMsg place with
    | none => .halted .undefined
    | some msg => env.unwind ⟨msg, []⟩ m

mutual

/-- The blocks of a statement; `last` is the place that `lastExceptionVal_` stands for in front of it, and `next` is
what is emitted behind it. -/
def codegenStmt : Stmt H S V M → Env S V M → Option Place → Block S V M → Block S V M
  | .skip, _, _, next => next
  | .seq first rest, env, last, next =>
    codegenStmt first env last (codegenStmt rest env (first.lastExceptionVal env.inLoop last) next)
  | .simple act, _, _, next => fun m => next (m.set (act m.store))
  | .callStmt form callee bind, env, _, next => fun m =>
    codegenCall L form.invokes env (callee m.store) bind next m
  | .throwStmt thrownClassName _ msgVal, env, _, _ => fun m =>
    env.unwind ⟨msgVal m.store, thrownClassName⟩ m
  | .throwAgain, env, last, _ => codegenThrowAgain L env last
  | .returnStmt value, _, _, _ => fun m => .returned (value m.store) m.store
  | .breakStmt, env, _, next =>
    match env.loopStack with
    | [] => next
    | (_, exitBB) :: _ => exitBB
  | .continueStmt, env, _, next =>
    match env.loopStack with
    | [] => next
    | (condBB, _) :: _ => condBB
  | .ifStmt condition thenBranch elseBranch, env, last, mergeBB => fun m =>
    if condition m.store then codegenStmt thenBranch env last mergeBB m
    else codegenStmt elseBranch env (thenBranch.lastExceptionVal env.inLoop last) mergeBB m
  | .whileStmt head condition body elseBranch, env, last, afterBB =>
    let headLast := head.lastExceptionVal env.inLoop last
    let elseBB := codegenStmt elseBranch env (body.lastExceptionVal true headLast) afterBB
    codegenLoop (codegenStmt head env last) condition
      (fun condBB => codegenStmt body (env.pushLoop condBB afterBB) headLast condBB) elseBB L.rounds
  | .tryStmt classBaseMap place tryBody catchClauses finallyBody, env, last, exitBB =>
    if catchClauses.isEmpty then
      let bodyLast := tryBody.lastExceptionVal env.inLoop last
      let finallyNormBB := codegenStmt finallyBody env bodyLast exitBB
      let finallyCleanBB := fun e =>
        codegenStmt finallyBody env (finallyBody.lastExceptionVal env.inLoop bodyLast) (resume e)
      codegenStmt tryBody (env.push ⟨false, finallyCleanBB⟩) last finallyNormBB
    else
      let finallyNormBB :=
        codegenStmt finallyBody env (catchClauses.lastExceptionVal env.inLoop (some place)) exitBB
      let lpadBB := fun e m =>
        codegenClauses catchClauses classBaseMap env (some place) e finallyNormBB (m.caught place e.msg)
      codegenStmt tryBody (env.push ⟨true, lpadBB⟩) last finallyNormBB
  | .withStmt exitFn _ body, env, last, exitBB =>
    let finallyNormBB := codegenExit L true env exitFn exitBB
    let finallyClnBB := fun e => codegenExit L false env exitFn (resume e)
    codegenStmt body (env.push ⟨false, finallyClnBB⟩) last finallyNormBB

/-- The clauses, tried one after the other; behind the last one is `catch.exit`. -/
def codegenClauses : Clauses H S V M → BaseMap H → Env S V M → Option Place → VisualException M →
    Block S V M → Block S V M
  | .nil, _, _, _, _, catchExitBB => catchExitBB
  | .cons exceptionType bindVar body rest, B, env, last, e, catchExitBB => fun m =>
    if exceptionType = [] ∨ e.className ∈ B.typeChain exceptionType then
      codegenStmt body env last catchExitBB (m.set (bindVar e.msg m.store))
    else codegenClauses rest B env (body.lastExceptionVal env.inLoop last) e catchExitBB m

end

end Emission

/-! ## Programs -/

/-- The functions of a program; `lastException` is what `lastExceptionVal_` stands for when the body of a function
is begun, and `noValue` is what a function returns that ends without `return`. -/
structure Program (H : Hierarchy) (S V M : Type*) where
  body : Name → Stmt H S V M
  lastException : Name → Option Place
  noValue : V
  restore : S → S → S
  noMessage : M

namespace Program

variable (P : Program H S V M) (rounds : ℕ)

/-- What a call of a function does, with calls nested at most `depth` deep and as many rounds of each loop. -/
def run : ℕ → Name → Bool → S → Result S V M
  | 0 => fun _ _ _ => .halted .rounds
  | depth + 1 => fun name handled s =>
    codegenStmt ⟨run depth, rounds, P.restore, P.noMessage⟩ (P.body name) ⟨[], []⟩ (P.lastException name)
      (fun m => .returned P.noValue m.store) ⟨s, fun _ => none, handled⟩

end Program

end Visuall.Codegen.Unwinding
