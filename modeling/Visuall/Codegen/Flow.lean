import Visuall.Codegen.Builder

/-!
# Structured control flow: meaning and lowering

Function bodies built from `if`, `while` and `match`, from `break`, `continue` and `return`, and from opaque
expressions and simple statements: what they mean, and the blocks that `codegenStmtList` emits for them.

Both are written with one combinator for each statement form.  The meaning of a list is a `Run`, what is
emitted for it an `Emitter`; the syntax enters only in `exec` and in `codegenStmt`.
-/

namespace Visuall.Codegen

variable {E S V W : Type*}

/-- The statements.  A case of a `match` is its pattern, which the wildcard lacks, its guard and its body; a
missing else branch is an empty one. -/
inductive Stmt (E S : Type*)
  | simple (s : S)
  | ifStmt (condition : E) (thenBranch : List (Stmt E S)) (elsifBranches : List (E × List (Stmt E S)))
      (elseBranch : List (Stmt E S))
  | whileStmt (condition : E) (body elseBranch : List (Stmt E S))
  | matchStmt (subject : E) (cases : List (Option E × Option E × List (Stmt E S)))
  | breakStmt
  | continueStmt
  | returnStmt (value : E)

/-! ## Which bodies -/

mutual

/-- `break` and `continue` stand inside loops, and every `match` has a case. -/
def Stmt.wellFormed (inLoop : Bool) : Stmt E S → Bool
  | .simple _ | .returnStmt _ => true
  | .breakStmt | .continueStmt => inLoop
  | .ifStmt _ thenBranch elsifBranches elseBranch =>
    wellFormedList inLoop thenBranch && wellFormedElsifs inLoop elsifBranches &&
      wellFormedList inLoop elseBranch
  | .whileStmt _ body elseBranch => wellFormedList true body && wellFormedList inLoop elseBranch
  | .matchStmt _ cases => !cases.isEmpty && wellFormedCases inLoop cases

def wellFormedList (inLoop : Bool) : List (Stmt E S) → Bool
  | [] => true
  | s :: stmts => s.wellFormed inLoop && wellFormedList inLoop stmts

def wellFormedElsifs (inLoop : Bool) : List (E × List (Stmt E S)) → Bool
  | [] => true
  | (_, body) :: elsifs => wellFormedList inLoop body && wellFormedElsifs inLoop elsifs

def wellFormedCases (inLoop : Bool) : List (Option E × Option E × List (Stmt E S)) → Bool
  | [] => true
  | (_, _, body) :: cases => wellFormedList inLoop body && wellFormedCases inLoop cases

end

/-! ## Meaning -/

/-- What the opaque parts do to a world `W`.  An evaluation has a value, or leaves the function by an
exception; so does a simple statement that gives `false`. -/
structure Primitives (E S V W : Type*) where
  eval : E → W → W × Option V
  perform : S → W → W × Bool
  truthy : V → Bool
  same : V → V → Bool
  truncate : V → V

/-- The world, and the effects so far. -/
abbrev Sys (E S W : Type*) := W × List (E ⊕ S)

namespace Primitives

variable (p : Primitives E S V W)

/-- Evaluates an expression, which is an effect. -/
def evaluate (e : E) (x : Sys E S W) : Sys E S W × Option V :=
  (((p.eval e x.1).1, x.2 ++ [.inl e]), (p.eval e x.1).2)

/-- Performs a simple statement, which is an effect. -/
def performs (s : S) (x : Sys E S W) : Sys E S W × Bool :=
  (((p.perform s x.1).1, x.2 ++ [.inr s]), (p.perform s x.1).2)

end Primitives

/-- How a list of statements ends. -/
inductive Result (V : Type*)
  | normal
  | broke
  | continued
  | returned (v : V)
  | unwound
  | outOfFuel
  deriving DecidableEq, Repr

/-- What a list of statements does. -/
abbrev Run (E S V W : Type*) := Sys E S W → Sys E S W × Result V

section Runs

variable (p : Primitives E S V W)

/-- Nothing. -/
def skipRun : Run E S V W := fun x => (x, .normal)

/-- One thing after another. -/
def seqRun (f g : Run E S V W) : Run E S V W := fun x =>
  match f x with
  | (y, .normal) => g y
  | r => r

/-- A simple statement. -/
def simpleRun (s : S) : Run E S V W := fun x =>
  match p.performs s x with
  | (y, true) => (y, .normal)
  | (y, false) => (y, .unwound)

/-- What follows the evaluation of `e`, given its value. -/
def valueRun (e : E) (k : V → Run E S V W) : Run E S V W := fun x =>
  match p.evaluate e x with
  | (y, some v) => k v y
  | (y, none) => (y, .unwound)

/-- What follows a condition. -/
def condRun (e : E) (yes no : Run E S V W) : Run E S V W :=
  valueRun p e fun v => if p.truthy v then yes else no

/-- The branches of an `if`: the body of the first whose condition holds, else the else branch. -/
def branchesRun (orElse : Run E S V W) : List (E × Run E S V W) → Run E S V W
  | [] => orElse
  | (cond, body) :: rest => condRun p cond body (branchesRun orElse rest)

/-- The rounds of a loop.  It ends normally when its condition fails. -/
def loopRun (cond : E) (body : Run E S V W) : ℕ → Run E S V W
  | 0 => fun x => (x, .outOfFuel)
  | n + 1 => condRun p cond
      (fun x =>
        match body x with
        | (y, .normal) | (y, .continued) => loopRun cond body n y
        | r => r)
      skipRun

/-- A loop with its else branch, which runs when the condition ended the loop. -/
def whileRun (n : ℕ) (cond : E) (body orElse : Run E S V W) : Run E S V W := fun x =>
  match loopRun p cond body n x with
  | (y, .normal) => orElse y
  | (y, .broke) => (y, .normal)
  | r => r

/-- What follows the test of a pattern against the subject `v`.  The wildcard always matches. -/
def patternRun (v : V) (pattern : Option E) (yes no : Run E S V W) : Run E S V W :=
  match pattern with
  | none => yes
  | some e => valueRun p e fun u => if p.same v u then yes else no

/-- What follows a guard. -/
def guardRun (guard : Option E) (yes no : Run E S V W) : Run E S V W :=
  match guard with
  | none => yes
  | some e => condRun p e yes no

/-- The cases of a `match`: the body of the first whose pattern test and guard succeed. -/
def casesRun (v : V) : List (Option E × Option E × Run E S V W) → Run E S V W
  | [] => skipRun
  | (pattern, guard, body) :: rest =>
    patternRun p v pattern (guardRun p guard body (casesRun v rest)) (casesRun v rest)

mutual

/-- What a statement does, when each loop has fuel for `n` rounds. -/
def exec (n : ℕ) : Stmt E S → Run E S V W
  | .simple s => simpleRun p s
  | .ifStmt cond thenBranch elsifs elseBranch =>
    branchesRun p (execList n elseBranch) ((cond, execList n thenBranch) :: execElsifs n elsifs)
  | .whileStmt cond body elseBranch => whileRun p n cond (execList n body) (execList n elseBranch)
  | .matchStmt subject cases => valueRun p subject fun v => casesRun p v (execCases n cases)
  | .breakStmt => fun x => (x, .broke)
  | .continueStmt => fun x => (x, .continued)
  | .returnStmt value => valueRun p value fun v x => (x, .returned v)

def execList (n : ℕ) : List (Stmt E S) → Run E S V W
  | [] => skipRun
  | s :: stmts => seqRun (exec n s) (execList n stmts)

def execElsifs (n : ℕ) : List (E × List (Stmt E S)) → List (E × Run E S V W)
  | [] => []
  | (cond, body) :: elsifs => (cond, execList n body) :: execElsifs n elsifs

def execCases (n : ℕ) : List (Option E × Option E × List (Stmt E S)) →
    List (Option E × Option E × Run E S V W)
  | [] => []
  | (pattern, guard, body) :: cases => (pattern, guard, execList n body) :: execCases n cases

end

/-! ### Jumps stay in their loops -/

variable {p}

/-- The run ends neither in a `break` nor in a `continue`. -/
def NoJump (g : Run E S V W) : Prop := ∀ x, (g x).2 ≠ .broke ∧ (g x).2 ≠ .continued

theorem noJump_skipRun : NoJump (skipRun : Run E S V W) := fun _ => ⟨nofun, nofun⟩

theorem NoJump.seqRun {f g : Run E S V W} (hf : NoJump f) (hg : NoJump g) : NoJump (seqRun f g) := by
  intro x
  have hx := hf x
  unfold Codegen.seqRun
  rcases hf' : f x with ⟨y, result⟩
  rw [hf'] at hx
  cases result with
  | normal => exact hg y
  | _ => exact hx

theorem noJump_valueRun (e : E) {k : V → Run E S V W} (hk : ∀ v, NoJump (k v)) : NoJump (valueRun p e k) := by
  intro x
  unfold valueRun
  rcases p.evaluate e x with ⟨y, _ | v⟩
  · exact ⟨nofun, nofun⟩
  · exact hk v y

theorem noJump_condRun (e : E) {yes no : Run E S V W} (hyes : NoJump yes) (hno : NoJump no) :
    NoJump (condRun p e yes no) := by
  refine noJump_valueRun e fun v => ?_
  split
  · exact hyes
  · exact hno

theorem noJump_branchesRun {orElse : Run E S V W} (horElse : NoJump orElse) {branches : List (E × Run E S V W)}
    (h : ∀ q ∈ branches, NoJump q.2) : NoJump (branchesRun p orElse branches) := by
  induction branches with
  | nil => exact horElse
  | cons q rest ih =>
    exact noJump_condRun q.1 (h q List.mem_cons_self) (ih fun q' hq' => h q' (List.mem_cons_of_mem _ hq'))

/-- The rounds of a loop take up every `continue`. -/
theorem loopRun_ne_continued (cond : E) (g : Run E S V W) (k : ℕ) :
    ∀ x, (loopRun p cond g k x).2 ≠ .continued := by
  induction k with
  | zero => exact fun x => nofun
  | succ k ih =>
    intro x
    rw [loopRun, condRun, valueRun]
    rcases p.evaluate cond x with ⟨y, _ | v⟩
    · exact nofun
    · simp only
      split
      · beta_reduce
        rcases g y with ⟨z, result⟩
        cases result with
        | normal => exact ih z
        | continued => exact ih z
        | _ => exact nofun
      · exact nofun

/-- And the loop takes up every `break`. -/
theorem noJump_whileRun (n : ℕ) (cond : E) (body : Run E S V W) {orElse : Run E S V W} (h : NoJump orElse) :
    NoJump (whileRun p n cond body orElse) := by
  intro x
  have hcontinued := loopRun_ne_continued (p := p) cond body n x
  unfold whileRun
  rcases hl : loopRun p cond body n x with ⟨y, result⟩
  rw [hl] at hcontinued
  cases result with
  | normal => exact h y
  | continued => exact absurd rfl hcontinued
  | _ => exact ⟨nofun, nofun⟩

theorem noJump_casesRun (v : V) {cases : List (Option E × Option E × Run E S V W)}
    (h : ∀ q ∈ cases, NoJump q.2.2) : NoJump (casesRun p v cases) := by
  induction cases with
  | nil => exact noJump_skipRun
  | cons q rest ih =>
    obtain ⟨pattern, guard, body⟩ := q
    have hbody : NoJump body := h _ List.mem_cons_self
    have hrest : NoJump (casesRun p v rest) := ih fun q' hq' => h q' (List.mem_cons_of_mem _ hq')
    have hguard : NoJump (guardRun p guard body (casesRun p v rest)) := by
      cases guard with
      | none => exact hbody
      | some e => exact noJump_condRun e hbody hrest
    cases pattern with
    | none => exact hguard
    | some e =>
      refine noJump_valueRun e fun u => ?_
      split
      · exact hguard
      · exact hrest

mutual

theorem noJump_exec (n : ℕ) : ∀ s : Stmt E S, s.wellFormed false = true → NoJump (exec p n s)
  | .simple s, _ => fun x => by
    rw [exec, simpleRun]
    rcases p.performs s x with ⟨y, _ | _⟩ <;> exact ⟨nofun, nofun⟩
  | .ifStmt _ thenBranch elsifs elseBranch, h => by
    simp only [Stmt.wellFormed, Bool.and_eq_true] at h
    refine noJump_branchesRun (noJump_execList n elseBranch h.2) fun q hq => ?_
    rcases List.mem_cons.mp hq with rfl | hq
    · exact noJump_execList n thenBranch h.1.1
    · exact noJump_execElsifs n elsifs h.1.2 q hq
  | .whileStmt cond body elseBranch, h => by
    simp only [Stmt.wellFormed, Bool.and_eq_true] at h
    exact noJump_whileRun n cond _ (noJump_execList n elseBranch h.2)
  | .matchStmt subject cases, h => by
    simp only [Stmt.wellFormed, Bool.and_eq_true] at h
    exact noJump_valueRun subject fun v => noJump_casesRun v (noJump_execCases n cases h.2)
  | .breakStmt, h => by cases h
  | .continueStmt, h => by cases h
  | .returnStmt value, _ => noJump_valueRun value fun _ _ => ⟨nofun, nofun⟩

theorem noJump_execList (n : ℕ) : ∀ stmts : List (Stmt E S), wellFormedList false stmts = true →
    NoJump (execList p n stmts)
  | [], _ => noJump_skipRun
  | s :: stmts, h => by
    simp only [wellFormedList, Bool.and_eq_true] at h
    exact (noJump_exec n s h.1).seqRun (noJump_execList n stmts h.2)

theorem noJump_execElsifs (n : ℕ) : ∀ elsifs : List (E × List (Stmt E S)),
    wellFormedElsifs false elsifs = true → ∀ q ∈ execElsifs p n elsifs, NoJump q.2
  | [], _ => fun _ hq => absurd hq List.not_mem_nil
  | (_, body) :: elsifs, h => fun q hq => by
    simp only [wellFormedElsifs, Bool.and_eq_true] at h
    rcases List.mem_cons.mp hq with rfl | hq
    · exact noJump_execList n body h.1
    · exact noJump_execElsifs n elsifs h.2 q hq

theorem noJump_execCases (n : ℕ) : ∀ cases : List (Option E × Option E × List (Stmt E S)),
    wellFormedCases false cases = true → ∀ q ∈ execCases p n cases, NoJump q.2.2
  | [], _ => fun _ hq => absurd hq List.not_mem_nil
  | (_, _, body) :: cases, h => fun q hq => by
    simp only [wellFormedCases, Bool.and_eq_true] at h
    rcases List.mem_cons.mp hq with rfl | hq
    · exact noJump_execList n body h.1
    · exact noJump_execCases n cases h.2 q hq

end

end Runs

/-! ## Lowering -/

/-- What the emission of a return depends on: whether the function is the user's `main`, which returns an i32,
and whether the resume function of a generator is being emitted (`genContext_` is set). -/
structure Target where
  isMain : Bool := false
  genContext : Bool := false

/-- What emits a list of statements. -/
abbrev Emitter (E S : Type*) := Builder E S → Builder E S

/-- `toBool(codegenExpr(*cond))`, whose result is register `B.regs + 1`. -/
def codegenCond (cond : E) (B : Builder E S) : Builder E S :=
  (B.emitDef (.eval · cond)).emitDef (.toBool · B.regs)

/-- One statement after another, unless the first has terminated the block. -/
def codegenSeq (f g : Emitter E S) : Emitter E S := fun B => if (f B).terminated then f B else g (f B)

/-- A conditional branch, with the insertion point on its first target. -/
def emitCondBr (condVal trueBB falseBB : ℕ) (B : Builder E S) : Builder E S :=
  (B.emit (.condBr condVal trueBB falseBB)).setInsertPoint trueBB

/-- A block created without the function is inserted into it, and the insertion point set to it. -/
def enterBlock (bb : ℕ) (B : Builder E S) : Builder E S := (B.place bb).setInsertPoint bb

/-- A branch of an `if` from its `CreateCondBr` on, and what is emitted for the branches after it, if there
are any; their block (`if.else` or `elsif.else`) is placed when this branch is done. -/
def codegenBranch (condVal thenBB mergeBB : ℕ) (body : Emitter E S) (next : Option (Emitter E S)) :
    Emitter E S := fun B =>
  match next with
  | none => (body (emitCondBr condVal thenBB mergeBB B)).brUnlessTerminated mergeBB
  | some next =>
    let nextBB := B.count
    let B := body (emitCondBr condVal thenBB nextBB (B.createBlock false))
    next (enterBlock nextBB (B.brUnlessTerminated mergeBB))

/-- The `elsif` and `else` branches of an `if`; `none` when it has neither. -/
def codegenElsifs (mergeBB : ℕ) (orElse : Option (Emitter E S)) :
    List (E × Emitter E S) → Option (Emitter E S)
  | [] => orElse.map fun body B => (body B).brUnlessTerminated mergeBB
  | (cond, body) :: rest => some fun B =>
    codegenBranch (B.regs + 1) B.count mergeBB body (codegenElsifs mergeBB orElse rest)
      ((codegenCond cond B).createBlock true)

/-- `codegenIfStmt`. -/
def codegenIf (cond : E) (thenBranch : Emitter E S) (elsifs : List (E × Emitter E S))
    (orElse : Option (Emitter E S)) : Emitter E S := fun B =>
  let thenBB := B.count
  let mergeBB := B.count + 1
  enterBlock mergeBB
    (codegenBranch (B.regs + 1) thenBB mergeBB thenBranch (codegenElsifs mergeBB orElse elsifs)
      (((codegenCond cond B).createBlock true).createBlock false))

/-- The three blocks of a loop: its header, which is entered, its body and its exit. -/
def loopHeader (B : Builder E S) : Builder E S :=
  ((((B.createBlock true).createBlock true).createBlock true).emit (.br B.count)).setInsertPoint B.count

/-- The header and the body of a loop, up to the exit block. -/
def codegenLoop (cond : E) (body : Emitter E S) (didBreak : Option ℕ) : Emitter E S := fun B =>
  let condBB := B.count
  let bodyBB := B.count + 1
  let exitBB := B.count + 2
  let B := emitCondBr (B.regs + 1) bodyBB exitBB (codegenCond cond (loopHeader B))
  let B := (body (B.pushLoop condBB exitBB didBreak)).popLoop
  (B.brUnlessTerminated condBB).setInsertPoint exitBB

/-- The test of the flag in the exit block, and the else branch. -/
def codegenLoopElse (didBreak : ℕ) (orElse : Emitter E S) : Emitter E S := fun B =>
  let elseBB := B.count
  let afterBB := B.count + 1
  let didBreakVal := B.regs
  let B := ((B.createBlock true).createBlock true).emitDef (.load · didBreak)
  let B := (B.emit (.condBr didBreakVal afterBB elseBB)).setInsertPoint elseBB
  ((orElse B).brUnlessTerminated afterBB).setInsertPoint afterBB

/-- `codegenWhileStmt`. -/
def codegenWhile (cond : E) (body : Emitter E S) (orElse : Option (Emitter E S)) : Emitter E S := fun B =>
  match orElse with
  | none => codegenLoop cond body none B
  | some orElse =>
    let didBreak := B.slots
    let B := B.createEntryBlockAlloca.emit (.storeBit didBreak false)
    codegenLoopElse didBreak orElse (codegenLoop cond body (some didBreak) B)

/-- The branch on a pattern: `emitPatternCmp` and a conditional branch, or a branch for the wildcard. -/
def codegenTest (subject : ℕ) (pattern : Option E) (hitBB missBB : ℕ) : Emitter E S := fun B =>
  match pattern with
  | none => B.emit (.br hitBB)
  | some e =>
    (((B.emitDef (.load · subject)).emitDef (.eval · e)).emitDef
      (.patternCmp · B.regs (B.regs + 1))).emit (.condBr (B.regs + 2) hitBB missBB)

/-- The pattern test and the guard of a case. -/
def codegenCheck (subject : ℕ) (pattern guard : Option E) (bodyBB missBB : ℕ) : Emitter E S := fun B =>
  match guard with
  | none => codegenTest subject pattern bodyBB missBB B
  | some e =>
    let guardBB := B.count
    let B := (codegenTest subject pattern guardBB missBB (B.createBlock true)).setInsertPoint guardBB
    (codegenCond e B).emit (.condBr (B.regs + 1) bodyBB missBB)

/-- A case: its check, and its body. -/
def codegenCase (subject bodyBB missBB mergeBB : ℕ) (pattern guard : Option E) (body : Emitter E S) :
    Emitter E S := fun B =>
  (body ((codegenCheck subject pattern guard bodyBB missBB B).setInsertPoint bodyBB)).brUnlessTerminated
    mergeBB

/-- The chain of cases.  The blocks of the bodies are created one after another, the next one being
`bodyBB`. -/
def codegenCases (subject mergeBB : ℕ) : List (Option E × Option E × Emitter E S) → ℕ → Emitter E S
  | [], _ => fun B => B
  | (pattern, guard, body) :: rest, bodyBB => fun B =>
    if rest.isEmpty then codegenCase subject bodyBB mergeBB mergeBB pattern guard body B
    else
      let missBB := B.count
      let B := codegenCase subject bodyBB missBB mergeBB pattern guard body (B.createBlock true)
      codegenCases subject mergeBB rest (bodyBB + 1) (B.setInsertPoint missBB)

/-- `codegenMatchStmt`. -/
def codegenMatch (subject : E) (cases : List (Option E × Option E × Emitter E S)) : Emitter E S := fun B =>
  if cases.isEmpty then B
  else
    let slot := B.slots
    let B := (B.emitDef (.eval · subject)).createAlloca.emit (.storeValue slot B.regs)
    let mergeBB := B.count
    enterBlock mergeBB
      (codegenCases slot mergeBB cases (mergeBB + 1)
        (Builder.createBlocks cases.length (B.createBlock false)))

/-- `visit(const ast::BreakStmt&)`. -/
def codegenBreak : Emitter E S := fun B =>
  match B.loopStack with
  | [] => B
  | (_, exitBB) :: _ =>
    match B.loopElseAllocas.head?.join with
    | some didBreak => (B.emit (.storeBit didBreak true)).emit (.br exitBB)
    | none => B.emit (.br exitBB)

/-- `visit(const ast::ContinueStmt&)`. -/
def codegenContinue : Emitter E S := fun B =>
  match B.loopStack with
  | [] => B
  | (condBB, _) :: _ => B.emit (.br condBB)

/-- `codegenReturnStmt`, of a value, in a function that does not return void. -/
def codegenReturn (T : Target) (value : E) : Emitter E S := fun B =>
  let B := B.emit (.call "__visuall_traceback_pop")
  if T.genContext then B.emit .retSentinel
  else
    let B := if T.isMain then B.emit (.call "__visuall_gc_shutdown") else B
    let val := B.regs
    let B := B.emitDef (.eval · value)
    if T.isMain then (B.emitDef (.trunc · val)).emit (.ret (val + 1)) else B.emit (.ret val)

mutual

/-- `codegenStmt`. -/
def codegenStmt (T : Target) : Stmt E S → Emitter E S
  | .simple s => fun B => B.emit (.perform s)
  | .ifStmt cond thenBranch elsifs elseBranch =>
    codegenIf cond (codegenStmtList T thenBranch) (codegenElsifList T elsifs)
      (if elseBranch.isEmpty then none else some (codegenStmtList T elseBranch))
  | .whileStmt cond body elseBranch =>
    codegenWhile cond (codegenStmtList T body)
      (if elseBranch.isEmpty then none else some (codegenStmtList T elseBranch))
  | .matchStmt subject cases => codegenMatch subject (codegenCaseList T cases)
  | .breakStmt => codegenBreak
  | .continueStmt => codegenContinue
  | .returnStmt value => codegenReturn T value

/-- `codegenStmtList`. -/
def codegenStmtList (T : Target) : List (Stmt E S) → Emitter E S
  | [] => fun B => B
  | s :: stmts => codegenSeq (codegenStmt T s) (codegenStmtList T stmts)

def codegenElsifList (T : Target) : List (E × List (Stmt E S)) → List (E × Emitter E S)
  | [] => []
  | (cond, body) :: elsifs => (cond, codegenStmtList T body) :: codegenElsifList T elsifs

def codegenCaseList (T : Target) : List (Option E × Option E × List (Stmt E S)) →
    List (Option E × Option E × Emitter E S)
  | [] => []
  | (pattern, guard, body) :: cases => (pattern, guard, codegenStmtList T body) :: codegenCaseList T cases

end

/-- The new function: its entry block, and the call that pushes it on the traceback.  The loop stacks are what
the members of `Codegen` hold when the function is reached. -/
def entry (loopStack : List (ℕ × ℕ)) (loopElseAllocas : List (Option ℕ)) : Builder E S :=
  Builder.emit
    { count := 1, code := fun _ => [], layout := [0], insertPoint := 0, allocas := [], regs := 0, slots := 0,
      loopStack := loopStack, loopElseAllocas := loopElseAllocas }
    (.call "__visuall_traceback_push")

/-- The implicit return, if the body has not terminated its last block. -/
def implicitReturn (T : Target) : Emitter E S := fun B =>
  if B.terminated then B
  else
    let B := B.emit (.call "__visuall_traceback_pop")
    let B := if T.isMain then B.emit (.call "__visuall_gc_shutdown") else B
    B.emit .retNull

/-- `codegenFuncDef`, from the entry block on. -/
def codegenFuncDef (T : Target) (body : List (Stmt E S)) (loopStack : List (ℕ × ℕ))
    (loopElseAllocas : List (Option ℕ)) : Builder E S :=
  implicitReturn T (codegenStmtList T body (entry loopStack loopElseAllocas))

end Visuall.Codegen
