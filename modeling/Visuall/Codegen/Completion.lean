import Visuall.Codegen.Unwinding

/-!
# How statements complete

A statement ends normally, or is left by `break`, `continue`, `return` or an exception.  `complete` runs it up to
there without blocks and landing pads, in a `Dialect`: where the emitted code goes another way than the language
says, the dialect settles which of the two is taken, or that the run stops undecided unless a condition holds under
which they are the same.

* `complete` — how a statement completes;
* `Program.meaning` — what a call of a function does in a dialect;
* `codegenStmt_eq` — the emitted blocks do what the statement does in the dialect `emitted`;
* `Program.run_eq_meaning` — and so what a program does is its meaning there.
-/

namespace Visuall.Codegen.Unwinding

open Visuall.Ast

universe u v w

variable {H : Hierarchy} {S : Type u} {V : Type v} {M : Type w}

/-! ## Dialects -/

/-- Which way is taken: that of the emitted code, that of the language, or only where both are the same. -/
inductive Mode
  | emitted
  | meant
  | checked
  deriving DecidableEq

/-- * `cleanup`: whether a `finally` body or `__exit__` runs;
* `deliver`: whether an exception gets to the next landing pad of the function;
* `select`: which class and message an exception has, and which clause takes it. -/
structure Dialect where
  cleanup : Mode
  deliver : Mode
  select : Mode

/-- The dialect of the emitted code. -/
def emitted : Dialect := ⟨.emitted, .emitted, .emitted⟩

/-- How a statement is left; `left` is an exception that has passed the landing pads of the function. -/
inductive Outcome (V : Type v) (M : Type w)
  | normal
  | broke
  | continued
  | returned (value : V)
  | raised (e : VisualException M)
  | left (e : VisualException M)
  | halted (why : Halt)

abbrev Completion (S : Type u) (V : Type v) (M : Type w) := Machine S M × Outcome V M

abbrev Run (S : Type u) (V : Type v) (M : Type w) := Machine S M → Completion S V M

/-- What is around a statement: the innermost landing pad, if it has a clause, whether there is a loop, and the
exception of the clause that the statement stands in. -/
structure Context (M : Type w) where
  pad : Option Bool
  inLoop : Bool
  caught : Option (VisualException M)

/-- The emitted way or the meant way; `agree` is a condition under which they are the same. -/
def Mode.choose (mode : Mode) (agree : Prop) [Decidable agree] (m : Machine S M)
    (emitted meant : Completion S V M) : Completion S V M :=
  match mode with
  | .emitted => emitted
  | .meant => meant
  | .checked => if agree then emitted else (m, .halted .undecided)

/-! ## Ways to go on -/

/-- Goes on where the completion is normal. -/
def andThen (r : Completion S V M) (k : Run S V M) : Completion S V M :=
  match r with
  | (m, .normal) => k m
  | r => r

/-- Goes on with the handler where an exception is raised, and with `other` elsewhere. -/
def handle (r : Completion S V M) (pad : VisualException M → Run S V M)
    (other : Completion S V M → Completion S V M) : Completion S V M :=
  match r with
  | (m, .raised e) => pad e m
  | r => other r

/-- Goes on behind the body of a loop. -/
def again (r : Completion S V M) (k : Run S V M) : Completion S V M :=
  match r with
  | (m, .normal) => k m
  | (m, .continued) => k m
  | (m, .broke) => (m, .normal)
  | r => r

def loopRun (head : Run S V M) (condition : S → Bool) (body orElse : Run S V M) : ℕ → Run S V M
  | 0 => fun m => (m, .halted .rounds)
  | n + 1 => fun m =>
    andThen (head m) fun m =>
      if condition m.store then again (body m) (loopRun head condition body orElse n) else orElse m

section Ways

variable (D : Dialect) (ctx : Context M)

/-- An exception on its way out of a place that the code emits without the landing pads in reach: it leaves the
function; it is meant to go to the next landing pad.  They are the same where the function has none. -/
def escape (e : VisualException M) : Run S V M := fun m =>
  D.deliver.choose (ctx.pad = none) m (m, if ctx.pad = none then .raised e else .left e) (m, .raised e)

/-- A cleaning landing pad: entered only if a frame further out has a handler; meant to be entered always. -/
def cleanupPad (trivial : Bool) (final : Run S V M) (e : VisualException M) : Run S V M := fun m =>
  D.cleanup.choose (trivial ∨ m.handled) m
    (if m.handled then andThen (final m) (escape D ctx e) else escape D ctx e m)
    (andThen (final m) (escape D ctx e))

/-- A protected body or a clause is left otherwise: the code branches past the cleanup; the cleanup is meant to run,
and then what was pending.  They are the same where there is nothing to clean up. -/
def leave (trivial : Bool) (final : Run S V M) : Completion S V M → Completion S V M
  | (m, .normal) => final m
  | (m, .left e) => (m, .left e)
  | (m, .halted why) => (m, .halted why)
  | (m, pending) => D.cleanup.choose trivial m (m, pending) (andThen (final m) fun m => (m, pending))

variable (L : Linked S V M)

/-- A call; an exception out of one that is not an invoke passes the landing pads. -/
def callRun (invokes : Bool) (callee : Name) (bind : V → S → S) : Run S V M := fun m =>
  match L.call callee (m.handled || (invokes && ctx.pad.any id)) m.store with
  | .returned v s => (m.set (bind v (L.restore m.store s)), .normal)
  | .threw e s =>
    if invokes then (m.set (L.restore m.store s), .raised e)
    else escape D ctx e (m.set (L.restore m.store s))
  | .halted why => (m, .halted why)

/-- The call of `__exit__`: of the function found, if there is one; meant to be the one of the object. -/
def exitRun (invokes : Bool) (exitFn : Option Name) (exit : Name) : Run S V M := fun m =>
  D.cleanup.choose (exitFn = some exit) m
    (exitFn.elim (m, .normal) fun callee => callRun D ctx L invokes callee (fun _ s => s) m)
    (callRun D ctx L invokes exit (fun _ s => s) m)

/-- A bare `throw`: of the message in `lastExceptionVal_`, without a class; in a clause, meant to be of the
exception that the clause has caught.  They are the same where that message is still the one and the exception has
no class. -/
def throwAgainRun [DecidableEq M] (last : Option Place) : Run S V M := fun m =>
  let thrown : Completion S V M :=
    match last with
    | none => (m, .raised ⟨L.noMessage, []⟩)
    | some place => (m, (m.excMsg place).elim (.halted .undefined) fun msg => .raised ⟨msg, []⟩)
  match ctx.caught with
  | none => thrown
  | some e =>
    D.select.choose (e.className = [] ∧ last.bind m.excMsg = some e.msg) m thrown (m, .raised e)

/-- A clause: the code compares the class of the exception with the type of the clause and the bases of that; the
clause is meant for its type and all that inherits from it.  They are the same for the class itself and for classes
of which neither inherits from the other. -/
def clauseRun (B : BaseMap H) (exceptionType className : Name) (takes : Run S V M) (rest : Run S V M) : Run S V M :=
  fun m =>
  D.select.choose
    (exceptionType = [] ∨ exceptionType = className ∨
      className ∉ B.typeChain exceptionType ∧ exceptionType ∉ H.ancestors className) m
    (if exceptionType = [] ∨ className ∈ B.typeChain exceptionType then takes m else rest m)
    (if exceptionType = [] ∨ exceptionType ∈ H.ancestors className then takes m else rest m)

end Ways

/-! ## Statements -/

section Complete

variable [DecidableEq M] (D : Dialect) (L : Linked S V M)

mutual

/-- How a statement completes; `last` is the place that `lastExceptionVal_` stands for in front of it. -/
def complete : Stmt H S V M → Context M → Option Place → Run S V M
  | .skip, _, _ => fun m => (m, .normal)
  | .seq first rest, ctx, last => fun m =>
    andThen (complete first ctx last m) (complete rest ctx (first.lastExceptionVal ctx.inLoop last))
  | .simple act, _, _ => fun m => (m.set (act m.store), .normal)
  | .callStmt form callee bind, ctx, _ => fun m => callRun D ctx L form.invokes (callee m.store) bind m
  | .throwStmt thrownClassName thrown msgVal, _, _ => fun m =>
    -- the class that is recorded comes from the form of the expression
    D.select.choose (thrownClassName = thrown m.store) m (m, .raised ⟨msgVal m.store, thrownClassName⟩)
      (m, .raised ⟨msgVal m.store, thrown m.store⟩)
  | .throwAgain, ctx, last => throwAgainRun D ctx L last
  | .returnStmt value, _, _ => fun m => (m, .returned (value m.store))
  | .breakStmt, ctx, _ => fun m => (m, if ctx.inLoop then .broke else .normal)
  | .continueStmt, ctx, _ => fun m => (m, if ctx.inLoop then .continued else .normal)
  | .ifStmt condition thenBranch elseBranch, ctx, last => fun m =>
    if condition m.store then complete thenBranch ctx last m
    else complete elseBranch ctx (thenBranch.lastExceptionVal ctx.inLoop last) m
  | .whileStmt head condition body elseBranch, ctx, last =>
    let headLast := head.lastExceptionVal ctx.inLoop last
    loopRun (complete head ctx last) condition (complete body { ctx with inLoop := true } headLast)
      (complete elseBranch ctx (body.lastExceptionVal true headLast)) L.rounds
  | .tryStmt classBaseMap place tryBody catchClauses finallyBody, ctx, last => fun m =>
    let bodyLast := tryBody.lastExceptionVal ctx.inLoop last
    if catchClauses.isEmpty then
      handle (complete tryBody { ctx with pad := some false } last m)
        (cleanupPad D ctx finallyBody.isEmpty
          (complete finallyBody ctx (finallyBody.lastExceptionVal ctx.inLoop bodyLast)))
        (leave D finallyBody.isEmpty (complete finallyBody ctx bodyLast))
    else
      let final :=
        complete finallyBody ctx (catchClauses.lastExceptionVal ctx.inLoop (some place))
      handle (complete tryBody { ctx with pad := some true } last m)
        (fun e m => leave D finallyBody.isEmpty final
          (completeClauses catchClauses classBaseMap { ctx with caught := some e } (some place) e
            (m.caught place e.msg)))
        (leave D finallyBody.isEmpty final)
  | .withStmt exitFn exit body, ctx, last => fun m =>
    handle (complete body { ctx with pad := some false } last m)
      (cleanupPad D ctx false (exitRun D ctx L false exitFn (exit m.store)))
      (leave D false (exitRun D ctx L true exitFn (exit m.store)))

/-- The clauses; where none takes the exception the code goes on behind the statement, and the exception is meant to
go on. -/
def completeClauses : Clauses H S V M → BaseMap H → Context M → Option Place → VisualException M → Run S V M
  | .nil, _, _, _, e => fun m => D.select.choose False m (m, .normal) (m, .raised e)
  | .cons exceptionType bindVar body rest, B, ctx, last, e =>
    clauseRun D B exceptionType e.className
      (fun m => complete body ctx last (m.set (bindVar e.msg m.store)))
      (completeClauses rest B ctx (body.lastExceptionVal ctx.inLoop last) e)

end

end Complete

/-! ## Programs -/

/-- How a function is left when its body completes so. -/
def leaveFunction (noValue : V) : Completion S V M → Result S V M
  | (m, .normal) => .returned noValue m.store
  | (m, .returned v) => .returned v m.store
  | (m, .raised e) => .threw e m.store
  | (m, .left e) => .threw e m.store
  | (_, .broke) => .halted .undefined
  | (_, .continued) => .halted .undefined
  | (_, .halted why) => .halted why

/-- What a call of a function does in a dialect. -/
def Program.meaning [DecidableEq M] (P : Program H S V M) (rounds : ℕ) (D : Dialect) :
    ℕ → Name → Bool → S → Result S V M
  | 0 => fun _ _ _ => .halted .rounds
  | depth + 1 => fun name handled s =>
    leaveFunction P.noValue
      (complete D ⟨P.meaning rounds D depth, rounds, P.restore, P.noMessage⟩ (P.body name) ⟨none, false, none⟩
        (P.lastException name) ⟨s, fun _ => none, handled⟩)

/-! ## The emitted blocks -/

section Blocks

/-- What the blocks around a statement do when it completes so. -/
def finish (env : Env S V M) (next : Block S V M) : Completion S V M → Result S V M
  | (m, .normal) => next m
  | (m, .broke) => env.loopStack.head?.elim (.halted .undefined) fun loop => loop.2 m
  | (m, .continued) => env.loopStack.head?.elim (.halted .undefined) fun loop => loop.1 m
  | (m, .returned v) => .returned v m.store
  | (m, .raised e) => env.unwind e m
  | (m, .left e) => resume e m
  | (_, .halted why) => .halted why

/-- The context tells what the code generator keeps on its stacks. -/
structure Env.Within (env : Env S V M) (ctx : Context M) : Prop where
  pad : ctx.pad = env.landingpadStack.head?.map Pad.catches
  inLoop : ctx.inLoop = env.inLoop

variable {env : Env S V M} {ctx : Context M} {next next' : Block S V M} {L : Linked S V M}

theorem Env.Within.push (h : env.Within ctx) (pad : Pad S V M) :
    (env.push pad).Within { ctx with pad := some pad.catches } := ⟨rfl, h.inLoop⟩

theorem Env.Within.pushLoop (h : env.Within ctx) (condBB exitBB : Block S V M) :
    (env.pushLoop condBB exitBB).Within { ctx with inLoop := true } := ⟨h.pad, rfl⟩

theorem Env.Within.catching (h : env.Within ctx) (e : VisualException M) :
    env.Within { ctx with caught := some e } := ⟨h.pad, h.inLoop⟩

theorem Env.Within.catches (h : env.Within ctx) : ctx.pad.any id = env.catches := by
  rw [h.pad, Env.catches]
  cases env.landingpadStack with
  | nil => rfl
  | cons pad pads => rfl

theorem Env.Within.unwind (h : env.Within ctx) (hpad : ctx.pad = none) (e : VisualException M) :
    env.unwind e = resume e := by
  rw [h.pad] at hpad
  funext m
  unfold Env.unwind
  cases hstack : env.landingpadStack with
  | nil => rfl
  | cons pad pads =>
    rw [hstack] at hpad
    cases hpad

theorem finish_andThen {k : Run S V M} (h : ∀ m, next' m = finish env next (k m)) (r : Completion S V M) :
    finish env next' r = finish env next (andThen r k) := by
  obtain ⟨m, o⟩ := r
  cases o with
  | normal => exact h m
  | _ => rfl

theorem finish_escape (h : env.Within ctx) (e : VisualException M) (m : Machine S M) :
    finish env next (escape emitted ctx e m) = resume e m := by
  show finish env next (m, if ctx.pad = none then .raised e else .left e) = _
  by_cases hpad : ctx.pad = none
  · rw [if_pos hpad]
    show env.unwind e m = _
    rw [h.unwind hpad]
  · rw [if_neg hpad]
    rfl

/-- A block emitted in front of `resume`. -/
theorem finish_resume (h : env.Within ctx) (e : VisualException M) (r : Completion S V M) :
    finish env (resume e) r = finish env next (andThen r (escape emitted ctx e)) :=
  finish_andThen (fun m => (finish_escape h e m).symm) r

theorem codegenCall_eq (h : env.Within ctx) (invokes : Bool) (callee : Name) (bind : V → S → S)
    (m : Machine S M) :
    codegenCall L invokes env callee bind next m
      = finish env next (callRun emitted ctx L invokes callee bind m) := by
  unfold codegenCall callRun
  rw [h.catches]
  cases L.call callee (m.handled || (invokes && env.catches)) m.store with
  | returned v s => rfl
  | halted why => rfl
  | threw e s =>
    cases invokes with
    | true => rfl
    | false => exact (finish_escape h e _).symm

theorem codegenExit_eq (h : env.Within ctx) (invokes : Bool) (exitFn : Option Name) (exit : Name)
    (m : Machine S M) :
    codegenExit L invokes env exitFn next m
      = finish env next (exitRun emitted ctx L invokes exitFn exit m) := by
  cases exitFn with
  | none => rfl
  | some callee =>
    exact codegenCall_eq h invokes callee (fun _ s => s) m

theorem throwAgainRun_eq [DecidableEq M] (last : Option Place) (m : Machine S M) :
    throwAgainRun emitted ctx L last m = last.elim (m, .raised ⟨L.noMessage, []⟩) fun place =>
      (m, (m.excMsg place).elim (.halted .undefined) fun msg => .raised ⟨msg, []⟩) := by
  unfold throwAgainRun
  cases ctx.caught <;> cases last <;> rfl

theorem codegenThrowAgain_eq [DecidableEq M] (last : Option Place) (m : Machine S M) :
    codegenThrowAgain L env last m = finish env next (throwAgainRun emitted ctx L last m) := by
  rw [throwAgainRun_eq]
  cases last with
  | none => rfl
  | some place =>
    unfold codegenThrowAgain
    dsimp only [Option.elim_some]
    cases m.excMsg place with
    | none => rfl
    | some msg => rfl

/-- The body of a protected statement, emitted under its landing pad. -/
theorem finish_push {pad : Pad S V M} {padRun : VisualException M → Run S V M} {trivial : Bool}
    {final : Run S V M} (hnext : ∀ m, next' m = finish env next (final m))
    (hpad : ∀ e m, (if pad.catches || m.handled then pad.block e m else resume e m)
      = finish env next (padRun e m)) (r : Completion S V M) :
    finish (env.push pad) next' r = finish env next (handle r padRun (leave emitted trivial final)) := by
  obtain ⟨m, o⟩ := r
  cases o with
  | normal => exact hnext m
  | raised e => exact hpad e m
  | _ => rfl

/-- The landing pad of a statement without clauses. -/
theorem finish_cleanupPad (h : env.Within ctx) {trivial : Bool} {block : VisualException M → Block S V M}
    {final : Run S V M} (hblock : ∀ e m, block e m = finish env (resume e) (final m))
    (e : VisualException M) (m : Machine S M) :
    (if false || m.handled then block e m else resume e m)
      = finish env next (cleanupPad emitted ctx trivial final e m) := by
  show _ = finish env next
    (if m.handled then andThen (final m) (escape emitted ctx e) else escape emitted ctx e m)
  rw [Bool.false_or]
  cases m.handled with
  | true => exact (hblock e m).trans (finish_resume h e _)
  | false => exact (finish_escape h e m).symm

theorem finish_leave {trivial : Bool} {final : Run S V M} (hnext : ∀ m, next' m = finish env next (final m))
    (r : Completion S V M) : finish env next' r = finish env next (leave emitted trivial final r) := by
  obtain ⟨m, o⟩ := r
  cases o with
  | normal => exact hnext m
  | _ => rfl

/-- The header of a loop. -/
theorem codegenLoop_eq {head body : Block S V M → Block S V M} {condition : S → Bool} {elseBB exitBB : Block S V M}
    {headRun bodyRun elseRun : Run S V M}
    (hhead : ∀ next m, head next m = finish env next (headRun m))
    (hbody : ∀ condBB m, body condBB m = finish (env.pushLoop condBB exitBB) condBB (bodyRun m))
    (helse : ∀ m, elseBB m = finish env exitBB (elseRun m)) (n : ℕ) (m : Machine S M) :
    codegenLoop head condition body elseBB n m
      = finish env exitBB (loopRun headRun condition bodyRun elseRun n m) := by
  induction n generalizing m with
  | zero => rfl
  | succ n ih =>
    show head _ m = _
    rw [hhead]
    apply finish_andThen
    intro m
    by_cases hc : condition m.store
    · rw [if_pos hc, if_pos hc, hbody]
      obtain ⟨m', o⟩ := bodyRun m
      cases o with
      | normal => exact ih m'
      | continued => exact ih m'
      | _ => rfl
    · rw [if_neg hc, if_neg hc]
      exact helse m

end Blocks

section Correct

variable [DecidableEq M] (L : Linked S V M)

mutual

/-- **The emitted blocks do what the statement does in the dialect `emitted`**, whatever is emitted around it. -/
theorem codegenStmt_eq : ∀ (s : Stmt H S V M) {env : Env S V M} {ctx : Context M} (last : Option Place)
    (next : Block S V M) (m : Machine S M), env.Within ctx →
      codegenStmt L s env last next m = finish env next (complete emitted L s ctx last m)
  | .skip, _, _, _, _, _, _ => rfl
  | .simple _, _, _, _, _, _, _ => rfl
  | .throwStmt .., _, _, _, _, _, _ => rfl
  | .returnStmt _, _, _, _, _, _, _ => rfl
  | .throwAgain, _, _, last, _, m, _ => codegenThrowAgain_eq last m
  | .callStmt form callee bind, _, _, _, _, m, h => codegenCall_eq h form.invokes (callee m.store) bind m
  | .seq first rest, env, ctx, last, next, m, h => by
    show codegenStmt L first env last _ m = finish env next (andThen _ _)
    rw [codegenStmt_eq first last _ m h]
    apply finish_andThen
    intro m
    rw [h.inLoop]
    exact codegenStmt_eq rest _ next m h
  | .breakStmt, env, ctx, last, next, m, h => by
    show _ = finish env next (m, if ctx.inLoop then .broke else .normal)
    rw [h.inLoop]
    unfold codegenStmt Env.inLoop finish
    cases env.loopStack with
    | nil => rfl
    | cons loop loops => rfl
  | .continueStmt, env, ctx, last, next, m, h => by
    show _ = finish env next (m, if ctx.inLoop then .continued else .normal)
    rw [h.inLoop]
    unfold codegenStmt Env.inLoop finish
    cases env.loopStack with
    | nil => rfl
    | cons loop loops => rfl
  | .ifStmt condition thenBranch elseBranch, env, ctx, last, next, m, h => by
    show (if condition m.store then _ else _) = finish env next (if condition m.store then _ else _)
    by_cases hc : condition m.store
    · rw [if_pos hc, if_pos hc]
      exact codegenStmt_eq thenBranch last next m h
    · rw [if_neg hc, if_neg hc, h.inLoop]
      exact codegenStmt_eq elseBranch _ next m h
  | .whileStmt head condition body elseBranch, env, ctx, last, next, m, h => by
    apply codegenLoop_eq
    · intro next m
      exact codegenStmt_eq head last next m h
    · intro condBB m
      rw [h.inLoop]
      exact codegenStmt_eq body _ condBB m (h.pushLoop condBB next)
    · intro m
      rw [h.inLoop]
      exact codegenStmt_eq elseBranch _ next m h
  | .tryStmt B place tryBody catchClauses finallyBody, env, ctx, last, next, m, h => by
    unfold codegenStmt complete
    by_cases hc : catchClauses.isEmpty
    · simp only [hc, if_true]
      rw [codegenStmt_eq tryBody last _ m (h.push _)]
      apply finish_push
      · intro m
        rw [h.inLoop]
        exact codegenStmt_eq finallyBody _ next m h
      · intro e m
        apply finish_cleanupPad h
        intro e m
        rw [h.inLoop]
        exact codegenStmt_eq finallyBody _ (resume e) m h
    · simp only [hc, Bool.false_eq_true, if_false]
      rw [← h.inLoop]
      have hfinal : ∀ m, codegenStmt L finallyBody env _ next m = finish env next _ := fun m =>
        codegenStmt_eq finallyBody (catchClauses.lastExceptionVal ctx.inLoop (some place)) next m h
      show codegenStmt L tryBody _ last _ m = _
      rw [codegenStmt_eq tryBody last _ m (h.push _)]
      apply finish_push hfinal
      intro e m
      show codegenClauses L catchClauses B env (some place) e _ (m.caught place e.msg) = _
      rw [codegenClauses_eq catchClauses B (some place) e _ _ (h.catching e)]
      exact finish_leave hfinal _
  | .withStmt exitFn exit body, env, ctx, last, next, m, h => by
    show codegenStmt L body _ last _ m = _
    rw [codegenStmt_eq body last _ m (h.push _)]
    apply finish_push
    · intro m'
      exact codegenExit_eq h true exitFn (exit m.store) m'
    · intro e m'
      apply finish_cleanupPad h
      intro e m'
      exact codegenExit_eq h false exitFn (exit m.store) m'

theorem codegenClauses_eq : ∀ (clauses : Clauses H S V M) {env : Env S V M} {ctx : Context M} (B : BaseMap H)
    (last : Option Place) (e : VisualException M) (next : Block S V M) (m : Machine S M), env.Within ctx →
      codegenClauses L clauses B env last e next m
        = finish env next (completeClauses emitted L clauses B ctx last e m)
  | .nil, _, _, _, _, _, _, _, _ => rfl
  | .cons exceptionType bindVar body rest, env, ctx, B, last, e, next, m, h => by
    show (if _ then _ else _) = finish env next (if _ then _ else _)
    by_cases hc : exceptionType = [] ∨ e.className ∈ B.typeChain exceptionType
    · rw [if_pos hc, if_pos hc]
      exact codegenStmt_eq body last next _ h
    · rw [if_neg hc, if_neg hc, h.inLoop]
      exact codegenClauses_eq rest B _ e next m h

end

/-- **What a program does is its meaning in the dialect `emitted`.** -/
theorem Program.run_eq_meaning (P : Program H S V M) (rounds depth : ℕ) :
    P.run rounds depth = P.meaning rounds emitted depth := by
  induction depth with
  | zero => rfl
  | succ depth ih =>
    funext name handled s
    have hw : (⟨[], []⟩ : Env S V M).Within ⟨none, false, none⟩ := ⟨rfl, rfl⟩
    show codegenStmt ⟨P.run rounds depth, rounds, P.restore, P.noMessage⟩ _ _ _ _ _ = _
    rw [codegenStmt_eq _ _ _ _ _ hw, ih]
    show _ = leaveFunction P.noValue (complete emitted _ _ _ _ _)
    obtain ⟨m, o⟩ := complete emitted ⟨P.meaning rounds emitted depth, rounds, P.restore, P.noMessage⟩
      (P.body name) ⟨none, false, none⟩ (P.lastException name) ⟨s, fun _ => none, handled⟩
    cases o <;> rfl

end Correct

end Visuall.Codegen.Unwinding
