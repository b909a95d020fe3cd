import Visuall.Lib.Brackets
import Visuall.Codegen.Delivery

/-!
# Catch regions

The calls of `__cxa_begin_catch` and `__cxa_end_catch` that `codegenTryStmt` emits, as brackets which are appended to a
record in memory: the landing pad begins a region, `catch.exit` ends it, and so does the block behind the last typed
clause.

* `withCatchCalls` — the statements with these calls;
* `Throughout` — what holds of every `try` that a run comes to;
* `RegionsBalanced` — what is claimed of each;
* `CaughtAndDone` — when it holds;
* `regions_balanced_iff` — in every run of a program, the one is the other.
-/

namespace Visuall.Codegen.Unwinding

open Visuall.Ast Brackets

universe u v w

variable {H : Hierarchy} {S : Type u} {V : Type v} {M : Type w}

/-! ## The calls -/

/-- A memory, and the calls so far: beginning to catch an exception with this message, and ending. -/
abbrev Recorded (S : Type u) (M : Type w) := S × List (Bracket M)

def beginCatch (msg : M) (s : Recorded S M) : Recorded S M := (s.1, s.2 ++ [.opening msg])

def endCatch (s : Recorded S M) : Recorded S M := (s.1, s.2 ++ [.closing])

mutual

/-- The statement with the calls that its code has. -/
def Stmt.withCatchCalls : Stmt H S V M → Stmt H (Recorded S M) V M
  | .skip => .skip
  | .seq first rest => .seq first.withCatchCalls rest.withCatchCalls
  | .simple act => .simple fun s => (act s.1, s.2)
  | .callStmt form callee bind => .callStmt form (fun s => callee s.1) fun v s => (bind v s.1, s.2)
  | .throwStmt thrownClassName thrown msgVal =>
    .throwStmt thrownClassName (fun s => thrown s.1) fun s => msgVal s.1
  | .throwAgain => .throwAgain
  | .returnStmt value => .returnStmt fun s => value s.1
  | .breakStmt => .breakStmt
  | .continueStmt => .continueStmt
  | .ifStmt condition thenBranch elseBranch =>
    .ifStmt (fun s => condition s.1) thenBranch.withCatchCalls elseBranch.withCatchCalls
  | .whileStmt head condition body elseBranch =>
    .whileStmt head.withCatchCalls (fun s => condition s.1) body.withCatchCalls elseBranch.withCatchCalls
  | .tryStmt classBaseMap place tryBody catchClauses finallyBody =>
    .tryStmt classBaseMap place tryBody.withCatchCalls
      (if catchClauses.isEmpty then .nil else catchClauses.withCatchCalls) finallyBody.withCatchCalls
  | .withStmt exitFn exit body => .withStmt exitFn (fun s => exit s.1) body.withCatchCalls

/-- The landing pad calls `__cxa_begin_catch` in front of the clauses.  A clause whose end is reached goes to
`catch.exit`, which calls `__cxa_end_catch`; where no clause takes the exception, the block behind the last one calls it
and goes there too. -/
def Clauses.withCatchCalls : Clauses H S V M → Clauses H (Recorded S M) V M
  | .nil => .cons [] beginCatch (.seq (.simple endCatch) (.simple endCatch)) .nil
  | .cons exceptionType bindVar body rest =>
    .cons exceptionType (fun msg s => beginCatch msg (bindVar msg s.1, s.2))
      (.seq body.withCatchCalls (.simple endCatch)) rest.withCatchCalls

end

/-- The functions of a program with the calls that their code has. -/
def Program.withCatchCalls (P : Program H S V M) : Program H (Recorded S M) V M where
  body name := (P.body name).withCatchCalls
  lastException := P.lastException
  noValue := P.noValue
  restore s s' := (P.restore s.1 s'.1, s'.2)
  noMessage := P.noMessage

theorem isEmpty_withCatchCalls (clauses : Clauses H S V M) : clauses.withCatchCalls.isEmpty = false := by
  cases clauses <;> rfl

theorem terminates_withCatchCalls (inLoop : Bool) :
    ∀ s : Stmt H S V M, s.withCatchCalls.terminates inLoop = s.terminates inLoop
  | .seq first rest => by
    show (_ || _) = (_ || _)
    rw [terminates_withCatchCalls inLoop first, terminates_withCatchCalls inLoop rest]
  | .skip | .simple _ | .callStmt .. | .throwStmt .. | .throwAgain | .returnStmt _ | .breakStmt | .continueStmt
  | .ifStmt .. | .whileStmt .. | .tryStmt .. | .withStmt .. => rfl

mutual

theorem lastExceptionVal_withCatchCalls (inLoop : Bool) :
    ∀ (s : Stmt H S V M) (last : Option Place), s.withCatchCalls.lastExceptionVal inLoop last = s.lastExceptionVal inLoop last
  | .seq first rest, last => by
    show (if _ then _ else _) = if _ then _ else _
    rw [terminates_withCatchCalls, lastExceptionVal_withCatchCalls inLoop first, lastExceptionVal_withCatchCalls inLoop rest]
  | .ifStmt _ thenBranch elseBranch, last => by
    show elseBranch.withCatchCalls.lastExceptionVal inLoop _ = _
    rw [lastExceptionVal_withCatchCalls inLoop thenBranch, lastExceptionVal_withCatchCalls inLoop elseBranch]
    rfl
  | .whileStmt head _ body elseBranch, last => by
    show elseBranch.withCatchCalls.lastExceptionVal inLoop _ = _
    rw [lastExceptionVal_withCatchCalls inLoop head, lastExceptionVal_withCatchCalls true body,
      lastExceptionVal_withCatchCalls inLoop elseBranch]
    rfl
  | .tryStmt B place tryBody catchClauses finallyBody, last => by
    unfold Stmt.withCatchCalls Stmt.lastExceptionVal
    by_cases hempty : catchClauses.isEmpty
    · have hnil : (Clauses.nil : Clauses H (Recorded S M) V M).isEmpty = true := rfl
      rw [if_pos hempty, if_pos hempty, if_pos hnil]
      rw [lastExceptionVal_withCatchCalls inLoop tryBody, lastExceptionVal_withCatchCalls inLoop finallyBody,
        lastExceptionVal_withCatchCalls inLoop finallyBody]
    · rw [if_neg hempty, if_neg hempty, if_neg (by rw [isEmpty_withCatchCalls]; exact Bool.false_ne_true)]
      rw [lastExceptionVal_withCatchCalls_clauses inLoop catchClauses, lastExceptionVal_withCatchCalls inLoop finallyBody]
  | .withStmt _ _ body, last => lastExceptionVal_withCatchCalls inLoop body last
  | .skip, _ | .simple _, _ | .callStmt .., _ | .throwStmt .., _ | .throwAgain, _ | .returnStmt _, _ | .breakStmt, _
  | .continueStmt, _ => rfl

theorem lastExceptionVal_withCatchCalls_clauses (inLoop : Bool) :
    ∀ (clauses : Clauses H S V M) (last : Option Place),
      clauses.withCatchCalls.lastExceptionVal inLoop last = clauses.lastExceptionVal inLoop last
  | .nil, _ => rfl
  | .cons _ _ body rest, last => by
    show rest.withCatchCalls.lastExceptionVal inLoop (if _ then body.withCatchCalls.lastExceptionVal inLoop last
      else body.withCatchCalls.lastExceptionVal inLoop last) = _
    rw [ite_self, lastExceptionVal_withCatchCalls inLoop body, lastExceptionVal_withCatchCalls_clauses inLoop rest]
    rfl

end

/-! ## Every `try` of a run -/

section Throughout

/-- What holds of a completion that is normal. -/
def afterNormal (r : Completion S V M) (after : Machine S M → Prop) : Prop :=
  match r with
  | (m, .normal) => after m
  | _ => True

/-- What holds behind a protected body. -/
def afterBody (r : Completion S V M) (pad : VisualException M → Machine S M → Prop) (after : Machine S M → Prop) : Prop :=
  match r with
  | (m, .raised e) => pad e m
  | (m, .normal) => after m
  | _ => True

/-- What holds behind the body of a loop, where there is a next round. -/
def afterRound (r : Completion S V M) (after : Machine S M → Prop) : Prop :=
  match r with
  | (m, .normal) => after m
  | (m, .continued) => after m
  | _ => True

/-- What holds all through a loop, if it does of its parts. -/
def loopThroughout (headRun : Run S V M) (condition : S → Bool) (bodyRun : Run S V M)
    (head body orElse : Machine S M → Prop) : ℕ → Machine S M → Prop
  | 0, _ => True
  | n + 1, m => head m ∧ afterNormal (headRun m) fun m =>
    if condition m.store then body m ∧ afterRound (bodyRun m) (loopThroughout headRun condition bodyRun head body orElse n)
    else orElse m

variable [DecidableEq M] (L : Linked (Recorded S M) V M) (K : Name → Bool → Recorded S M → Prop)

/-- What holds of a call, where `K` tells what holds of the function that is called. -/
def callThroughout (invokes : Bool) (ctx : Context M) (callee : Name) (m : Machine (Recorded S M) M) : Prop :=
  K callee (m.handled || (invokes && ctx.pad.any id)) m.store

def exitThroughout (invokes : Bool) (ctx : Context M) (exitFn : Option Name) (m : Machine (Recorded S M) M) : Prop :=
  exitFn.elim True fun callee => callThroughout K invokes ctx callee m

/-- How the code of a statement completes, its calls recorded: `codegenStmt_eq`. -/
abbrev recordedRun (s : Stmt H S V M) (ctx : Context M) (last : Option Place) : Run (Recorded S M) V M :=
  complete emitted L s.withCatchCalls ctx last

/-- The body of a clause is begun. -/
def enterClause (e : VisualException M) (bindVar : M → S → S) (m : Machine (Recorded S M) M) : Machine (Recorded S M) M :=
  m.set (beginCatch e.msg (bindVar e.msg m.store.1, m.store.2))

variable (φ : Stmt H S V M → Context M → Option Place → Machine (Recorded S M) M → Prop)

mutual

/-- Every `try` with clauses that the run of a statement comes to has a property where it is begun. -/
def Throughout : Stmt H S V M → Context M → Option Place → Machine (Recorded S M) M → Prop
  | .seq first rest, ctx, last => fun m =>
    Throughout first ctx last m ∧
      afterNormal (recordedRun L first ctx last m) (Throughout rest ctx (first.lastExceptionVal ctx.inLoop last))
  | .callStmt form callee _, ctx, _ => fun m => callThroughout K form.invokes ctx (callee m.store.1) m
  | .ifStmt condition thenBranch elseBranch, ctx, last => fun m =>
    if condition m.store.1 then Throughout thenBranch ctx last m
    else Throughout elseBranch ctx (thenBranch.lastExceptionVal ctx.inLoop last) m
  | .whileStmt head condition body elseBranch, ctx, last =>
    let headLast := head.lastExceptionVal ctx.inLoop last
    loopThroughout (recordedRun L head ctx last) (fun s => condition s.1) (recordedRun L body { ctx with inLoop := true } headLast)
      (Throughout head ctx last) (Throughout body { ctx with inLoop := true } headLast)
      (Throughout elseBranch ctx (body.lastExceptionVal true headLast)) L.rounds
  | .tryStmt classBaseMap place tryBody catchClauses finallyBody, ctx, last => fun m =>
    if catchClauses.isEmpty then
      let bodyLast := tryBody.lastExceptionVal ctx.inLoop last
      Throughout tryBody { ctx with pad := some false } last m ∧
        afterBody (recordedRun L tryBody { ctx with pad := some false } last m)
          (fun _ m => m.handled → Throughout finallyBody ctx (finallyBody.lastExceptionVal ctx.inLoop bodyLast) m)
          (Throughout finallyBody ctx bodyLast)
    else
      let final := Throughout finallyBody ctx (catchClauses.lastExceptionVal ctx.inLoop (some place))
      (Throughout tryBody { ctx with pad := some true } last m ∧
        afterBody (recordedRun L tryBody { ctx with pad := some true } last m)
          (fun e m =>
            ThroughoutClauses catchClauses classBaseMap { ctx with caught := some e } (some place) e (m.caught place e.msg) ∧
              afterNormal (completeClauses emitted L catchClauses.withCatchCalls classBaseMap { ctx with caught := some e }
                (some place) e (m.caught place e.msg)) final)
          final) ∧
        φ (.tryStmt classBaseMap place tryBody catchClauses finallyBody) ctx last m
  | .withStmt exitFn _ body, ctx, last => fun m =>
    Throughout body { ctx with pad := some false } last m ∧
      afterBody (recordedRun L body { ctx with pad := some false } last m)
        (fun _ m => m.handled → exitThroughout K false ctx exitFn m) (exitThroughout K true ctx exitFn)
  | _, _, _ => fun _ => True

def ThroughoutClauses : Clauses H S V M → BaseMap H → Context M → Option Place → VisualException M →
    Machine (Recorded S M) M → Prop
  | .nil, _, _, _, _ => fun _ => True
  | .cons exceptionType bindVar body rest, B, ctx, last, e => fun m =>
    if exceptionType = [] ∨ e.className ∈ B.typeChain exceptionType then
      Throughout body ctx last (enterClause e bindVar m)
    else ThroughoutClauses rest B ctx (body.lastExceptionVal ctx.inLoop last) e m

end

end Throughout

/-! ## What is claimed, and when it holds -/

/-- The first clause that takes an exception, and the place that `lastExceptionVal_` stands for in front of its body. -/
def Clauses.taken (B : BaseMap H) (className : Name) (inLoop : Bool) :
    Clauses H S V M → Option Place → Option ((M → S → S) × Stmt H S V M × Option Place)
  | .nil, _ => none
  | .cons exceptionType bindVar body rest, last =>
    if exceptionType = [] ∨ className ∈ B.typeChain exceptionType then some (bindVar, body, last)
    else rest.taken B className inLoop (body.lastExceptionVal inLoop last)

section Claimed

variable [DecidableEq M] (L : Linked (Recorded S M) V M)

/-- **What is claimed of a `try`**: when control leaves it, in whichever way, every `__cxa_begin_catch` that has been called
since has been followed by one `__cxa_end_catch` of its own, and the exceptions that are being caught are those that were. -/
def RegionsBalanced (s : Stmt H S V M) (ctx : Context M) (last : Option Place) (m : Machine (Recorded S M) M) : Prop :=
  ∀ m' o, recordedRun L s ctx last m = (m', o) → (∀ why, o ≠ .halted why) →
    ∃ calls, m'.store.2 = m.store.2 ++ calls ∧ Nested calls ∧ ∀ stack, pending stack calls = stack

/-- Control leaves the statement. -/
def Leaves (s : Stmt H S V M) (ctx : Context M) (last : Option Place) (m : Machine (Recorded S M) M) : Prop :=
  ∀ why, (recordedRun L s ctx last m).2 ≠ .halted why

/-- If the body of the `try` raises an exception, then a clause takes it, and the end of that clause is reached. -/
def CaughtAndDone : Stmt H S V M → Context M → Option Place → Machine (Recorded S M) M → Prop
  | .tryStmt classBaseMap place tryBody catchClauses finallyBody, ctx, last, m =>
    ∀ m' e, recordedRun L tryBody { ctx with pad := some true } last m = (m', .raised e) →
      Leaves L (.tryStmt classBaseMap place tryBody catchClauses finallyBody) ctx last m →
        ∃ bindVar body bodyLast, catchClauses.taken classBaseMap e.className ctx.inLoop (some place) =
            some (bindVar, body, bodyLast) ∧
          (recordedRun L body { ctx with caught := some e } bodyLast
            (enterClause e bindVar (m'.caught place e.msg))).2 = .normal
  | _, _, _, _ => True

end Claimed

/-! ## Balance -/

/-- The calls that have been made are nested, unless the run comes to no end. -/
def Balances (m : Machine (Recorded S M) M) (r : Completion (Recorded S M) V M) : Prop :=
  (∃ why, r.2 = .halted why) ∨ ∃ calls, Nested calls ∧ r.1.store.2 = m.store.2 ++ calls

/-- Runs from where `T` holds make nested calls. -/
def Calm (T : Machine (Recorded S M) M → Prop) (f : Run (Recorded S M) V M) : Prop := ∀ m, T m → Balances m (f m)

section Balance

variable {m : Machine (Recorded S M) M} {m' : Machine (Recorded S M) M} {r : Completion (Recorded S M) V M}
  {T T' : Machine (Recorded S M) M → Prop} {f k : Run (Recorded S M) V M}

theorem Balances.of_store (h : r.1.store.2 = m.store.2) : Balances m r :=
  .inr ⟨[], .nil, h.trans (List.append_nil _).symm⟩

theorem Balances.halted (m m' : Machine (Recorded S M) M) (why : Halt) :
    Balances m ((m', .halted why) : Completion (Recorded S M) V M) := .inl ⟨why, rfl⟩

/-- What follows makes nested calls too. -/
theorem Balances.trans {o : Outcome V M} (h : Balances m (m', o)) (ho : ∀ why, o ≠ .halted why) (hr : Balances m' r) :
    Balances m r := by
  rcases h with ⟨why, hwhy⟩ | ⟨calls, hcalls, hstore⟩
  · exact absurd hwhy (ho why)
  · rcases hr with hhalted | ⟨calls', hcalls', hstore'⟩
    · exact .inl hhalted
    · refine .inr ⟨calls ++ calls', hcalls.append hcalls', ?_⟩
      rw [hstore', ← List.append_assoc]
      exact congrArg (· ++ calls') hstore

theorem Balances.outcome {o o' : Outcome V M} (h : Balances m (m', o)) (ho : ∀ why, o ≠ .halted why) :
    Balances m (m', o') := h.trans ho (.of_store rfl)

theorem Calm.andThen (hf : Calm T f) (hk : Calm T' k) :
    Calm (fun m => T m ∧ afterNormal (f m) T') fun m => andThen (f m) k := by
  rintro m ⟨hT, hafter⟩
  have hfirst := hf m hT
  show Balances m (Unwinding.andThen (f m) k)
  generalize f m = r at hfirst hafter ⊢
  obtain ⟨m', o⟩ := r
  cases o with
  | normal => exact hfirst.trans (fun _ => nofun) (hk m' hafter)
  | _ => exact hfirst

theorem Calm.loop {head body orElse : Run (Recorded S M) V M} {condition : Recorded S M → Bool}
    {Th Tb Te : Machine (Recorded S M) M → Prop} (hhead : Calm Th head) (hbody : Calm Tb body) (helse : Calm Te orElse) (n : ℕ) :
    Calm (loopThroughout head condition body Th Tb Te n) (loopRun head condition body orElse n) := by
  induction n with
  | zero => exact fun m _ => .halted m m .rounds
  | succ n ih =>
    apply hhead.andThen
    intro m hm
    show Balances m (if condition m.store then again (body m) (loopRun head condition body orElse n) else orElse m)
    by_cases hc : condition m.store
    · rw [if_pos hc] at hm ⊢
      obtain ⟨hTb, hround⟩ := hm
      have hfirst := hbody m hTb
      generalize body m = r at hfirst hround ⊢
      obtain ⟨m', o⟩ := r
      cases o with
      | normal => exact hfirst.trans (fun _ => nofun) (ih m' hround)
      | continued => exact hfirst.trans (fun _ => nofun) (ih m' hround)
      | broke => exact hfirst.outcome fun _ => nofun
      | _ => exact hfirst
    · rw [if_neg hc] at hm ⊢
      exact helse m hm

/-- What happens behind a protected body, where all ways out of it make nested calls. -/
theorem Calm.handle {Tp : VisualException M → Machine (Recorded S M) M → Prop} {pad : VisualException M → Run (Recorded S M) V M}
    {trivial : Bool} (hf : Calm T f) (hpad : ∀ e, Calm (Tp e) (pad e)) (hk : Calm T' k) :
    Calm (fun m => T m ∧ afterBody (f m) Tp T') fun m => handle (f m) pad (leave emitted trivial k) := by
  rintro m ⟨hT, hafter⟩
  have hfirst := hf m hT
  show Balances m (Unwinding.handle (f m) pad (leave emitted trivial k))
  generalize f m = r at hfirst hafter ⊢
  obtain ⟨m', o⟩ := r
  cases o with
  | normal => exact hfirst.trans (fun _ => nofun) (hk m' hafter)
  | raised e => exact hfirst.trans (fun _ => nofun) (hpad e m' hafter)
  | _ => exact hfirst

theorem Calm.cleanupPad {ctx : Context M} {trivial : Bool} (hk : Calm T k) (e : VisualException M) :
    Calm (fun m => m.handled → T m) (cleanupPad emitted ctx trivial k e) := by
  intro m hm
  show Balances m (if m.handled then Unwinding.andThen (k m) (escape emitted ctx e) else escape emitted ctx e m)
  by_cases hh : m.handled
  · rw [if_pos hh]
    have hfirst := hk m (hm hh)
    generalize k m = r at hfirst ⊢
    obtain ⟨m', o⟩ := r
    cases o with
    | normal => exact hfirst.trans (fun _ => nofun) (.of_store rfl)
    | _ => exact hfirst
  · rw [if_neg hh]
    exact .of_store rfl

end Balance

section Calls

variable {L : Linked (Recorded S M) V M} {K : Name → Bool → Recorded S M → Prop}

/-- Functions of which `K` holds make nested calls. -/
def CalleesCalm (L : Linked (Recorded S M) V M) (K : Name → Bool → Recorded S M → Prop) : Prop :=
  ∀ callee handled s, K callee handled s →
    match L.call callee handled s with
    | .returned _ s' | .threw _ s' => ∃ calls, Nested calls ∧ (L.restore s s').2 = s.2 ++ calls
    | .halted _ => True

theorem calm_call (hL : CalleesCalm L K) (invokes : Bool) (ctx : Context M) (callee : Name)
    (bind : V → Recorded S M → Recorded S M) (hbind : ∀ v s, (bind v s).2 = s.2) :
    Calm (callThroughout K invokes ctx callee) (callRun emitted ctx L invokes callee bind) := by
  intro m hm
  have hcall := hL callee _ m.store hm
  unfold callRun
  generalize L.call callee (m.handled || (invokes && ctx.pad.any id)) m.store = r at hcall ⊢
  cases r with
  | returned v s =>
    obtain ⟨calls, hcalls, hstore⟩ := hcall
    exact .inr ⟨calls, hcalls, (hbind v _).trans hstore⟩
  | threw e s =>
    obtain ⟨calls, hcalls, hstore⟩ := hcall
    cases invokes with
    | true => exact .inr ⟨calls, hcalls, hstore⟩
    | false => exact .inr ⟨calls, hcalls, hstore⟩
  | halted why => exact .halted m m why

theorem calm_exit (hL : CalleesCalm L K) (invokes : Bool) (ctx : Context M) (exitFn : Option Name) (exit : Name) :
    Calm (exitThroughout K invokes ctx exitFn) (exitRun emitted ctx L invokes exitFn exit) := by
  cases exitFn with
  | none => exact fun m _ => .of_store rfl
  | some callee => exact calm_call hL invokes ctx callee _ fun _ _ => rfl

end Calls

/-! ## The code of a `try` -/

section Clauses

variable [DecidableEq M] {L : Linked (Recorded S M) V M} {ctx : Context M} {B : BaseMap H} {e : VisualException M}

omit [DecidableEq M] in
theorem lastExceptionVal_clause (inLoop : Bool) (body : Stmt H S V M) (last : Option Place) :
    (Stmt.seq body.withCatchCalls (.simple endCatch)).lastExceptionVal inLoop last = body.lastExceptionVal inLoop last := by
  show (if _ then _ else body.withCatchCalls.lastExceptionVal inLoop last) = _
  rw [ite_self, lastExceptionVal_withCatchCalls]

/-- The region is ended behind the body of the clause that takes the exception; where none does, it is ended twice. -/
theorem completeClauses_eq : ∀ (clauses : Clauses H S V M) (last : Option Place) (m : Machine (Recorded S M) M),
    completeClauses emitted L clauses.withCatchCalls B ctx last e m =
      match clauses.taken B e.className ctx.inLoop last with
      | none => (m.set (endCatch (endCatch (beginCatch e.msg m.store))), .normal)
      | some (bindVar, body, bodyLast) =>
        andThen (recordedRun L body ctx bodyLast (enterClause e bindVar m)) fun m => (m.set (endCatch m.store), .normal)
  | .nil, _, _ => rfl
  | .cons exceptionType bindVar body rest, last, m => by
    show (if exceptionType = [] ∨ e.className ∈ B.typeChain exceptionType then _
      else completeClauses emitted L rest.withCatchCalls B ctx _ e m) = _
    unfold Clauses.taken
    by_cases htakes : exceptionType = [] ∨ e.className ∈ B.typeChain exceptionType
    · rw [if_pos htakes, if_pos htakes]
      rfl
    · rw [if_neg htakes, if_neg htakes, lastExceptionVal_clause]
      exact completeClauses_eq rest _ m

/-- A `try` with clauses. -/
theorem complete_catch {L : Linked S V M} {clauses : Clauses H S V M} (hclauses : clauses.isEmpty = false) (place : Place)
    (tryBody finallyBody : Stmt H S V M) (ctx : Context M) (last : Option Place) :
    complete emitted L (.tryStmt B place tryBody clauses finallyBody) ctx last = fun m =>
      let final := complete emitted L finallyBody ctx (clauses.lastExceptionVal ctx.inLoop (some place))
      handle (complete emitted L tryBody { ctx with pad := some true } last m)
        (fun e m => leave emitted finallyBody.isEmpty final
          (completeClauses emitted L clauses B { ctx with caught := some e } (some place) e (m.caught place e.msg)))
        (leave emitted finallyBody.isEmpty final) := by
  funext m
  show (if clauses.isEmpty then _ else _) = _
  rw [if_neg (by rw [hclauses]; exact Bool.false_ne_true)]

/-- A `try` without clauses. -/
theorem complete_finally {L : Linked S V M} {clauses : Clauses H S V M} (hclauses : clauses.isEmpty = true) (place : Place)
    (tryBody finallyBody : Stmt H S V M) (ctx : Context M) (last : Option Place) :
    complete emitted L (.tryStmt B place tryBody clauses finallyBody) ctx last = fun m =>
      let bodyLast := tryBody.lastExceptionVal ctx.inLoop last
      handle (complete emitted L tryBody { ctx with pad := some false } last m)
        (cleanupPad emitted ctx finallyBody.isEmpty
          (complete emitted L finallyBody ctx (finallyBody.lastExceptionVal ctx.inLoop bodyLast)))
        (leave emitted finallyBody.isEmpty (complete emitted L finallyBody ctx bodyLast)) := by
  funext m
  show (if clauses.isEmpty then _ else _) = _
  rw [if_pos hclauses]

theorem recordedRun_catch {clauses : Clauses H S V M} (hclauses : clauses.isEmpty = false) (place : Place)
    (tryBody finallyBody : Stmt H S V M) (ctx : Context M) (last : Option Place) :
    recordedRun L (.tryStmt B place tryBody clauses finallyBody) ctx last = fun m =>
      let final := recordedRun L finallyBody ctx (clauses.lastExceptionVal ctx.inLoop (some place))
      handle (recordedRun L tryBody { ctx with pad := some true } last m)
        (fun e m => leave emitted finallyBody.withCatchCalls.isEmpty final
          (completeClauses emitted L clauses.withCatchCalls B { ctx with caught := some e } (some place) e
            (m.caught place e.msg)))
        (leave emitted finallyBody.withCatchCalls.isEmpty final) := by
  have hcalls : (Stmt.tryStmt B place tryBody clauses finallyBody).withCatchCalls =
      .tryStmt B place tryBody.withCatchCalls clauses.withCatchCalls finallyBody.withCatchCalls := by
    show Stmt.tryStmt B place _ (if clauses.isEmpty then _ else _) _ = _
    rw [if_neg (by rw [hclauses]; exact Bool.false_ne_true)]
  rw [recordedRun, hcalls, complete_catch (isEmpty_withCatchCalls clauses), lastExceptionVal_withCatchCalls_clauses]

theorem recordedRun_finally {clauses : Clauses H S V M} (hclauses : clauses.isEmpty = true) (place : Place)
    (tryBody finallyBody : Stmt H S V M) (ctx : Context M) (last : Option Place) :
    recordedRun L (.tryStmt B place tryBody clauses finallyBody) ctx last = fun m =>
      let bodyLast := tryBody.lastExceptionVal ctx.inLoop last
      handle (recordedRun L tryBody { ctx with pad := some false } last m)
        (cleanupPad emitted ctx finallyBody.withCatchCalls.isEmpty
          (recordedRun L finallyBody ctx (finallyBody.lastExceptionVal ctx.inLoop bodyLast)))
        (leave emitted finallyBody.withCatchCalls.isEmpty (recordedRun L finallyBody ctx bodyLast)) := by
  have hcalls : (Stmt.tryStmt B place tryBody clauses finallyBody).withCatchCalls =
      .tryStmt B place tryBody.withCatchCalls .nil finallyBody.withCatchCalls := by
    show Stmt.tryStmt B place _ (if clauses.isEmpty then _ else _) _ = _
    rw [if_pos hclauses]
  rw [recordedRun, hcalls, complete_finally rfl, lastExceptionVal_withCatchCalls]
  funext m
  dsimp only
  rw [lastExceptionVal_withCatchCalls]

end Clauses

/-! ## Runs that keep to the condition -/

/-- A clause whose end is reached has made nested calls, and so has the region around it. -/
theorem Balances.enclose {e : VisualException M} {bindVar : M → S → S} {m m' : Machine (Recorded S M) M} {o : Outcome V M}
    (h : Balances (enterClause e bindVar m) (m', o)) (ho : ∀ why, o ≠ .halted why) (o' : Outcome V M) :
    Balances m (m'.set (endCatch m'.store), o') := by
  rcases h with ⟨why, hwhy⟩ | ⟨calls, hcalls, hstore⟩
  · exact absurd hwhy (ho why)
  · refine .inr ⟨_, hcalls.enclose e.msg, ?_⟩
    show m'.store.2 ++ [.closing] = m.store.2 ++ (.opening e.msg :: (calls ++ [.closing]))
    rw [show m'.store.2 = m.store.2 ++ [.opening e.msg] ++ calls from hstore, List.append_assoc, List.append_assoc]
    rfl

section Kept

variable [DecidableEq M] {L : Linked (Recorded S M) V M} {K : Name → Bool → Recorded S M → Prop}

/-- The pad of a `try` with clauses. -/
theorem calm_pad {clauses : Clauses H S V M} {B : BaseMap H} {ctx : Context M} {last : Option Place} {e : VisualException M}
    (trivial : Bool) {T : Machine (Recorded S M) M → Prop} {final : Run (Recorded S M) V M} (hfinal : Calm T final)
    {bindVar : M → S → S} {body : Stmt H S V M} {bodyLast : Option Place}
    (htaken : clauses.taken B e.className ctx.inLoop last = some (bindVar, body, bodyLast)) {m : Machine (Recorded S M) M}
    (hbody : Balances (enterClause e bindVar m) (recordedRun L body ctx bodyLast (enterClause e bindVar m)))
    (hdone : (recordedRun L body ctx bodyLast (enterClause e bindVar m)).2 = .normal)
    (hafter : afterNormal (completeClauses emitted L clauses.withCatchCalls B ctx last e m) T) :
    Balances m (leave emitted trivial final (completeClauses emitted L clauses.withCatchCalls B ctx last e m)) := by
  rw [completeClauses_eq, htaken] at hafter ⊢
  dsimp only at hafter ⊢
  generalize recordedRun L body ctx bodyLast (enterClause e bindVar m) = r at hbody hdone hafter ⊢
  obtain ⟨m', o⟩ := r
  obtain rfl : o = .normal := hdone
  have hregion := hbody.enclose (fun _ => nofun) .normal
  exact hregion.trans (fun _ => nofun) (hfinal _ hafter)

mutual

/-- **A run that keeps to the condition makes nested calls.** -/
theorem calm_stmt (hL : CalleesCalm L K) : ∀ (s : Stmt H S V M) (ctx : Context M) (last : Option Place),
    Calm (Throughout L K (CaughtAndDone L) s ctx last) (recordedRun L s ctx last)
  | .skip, _, _ => fun m _ => .of_store rfl
  | .simple _, _, _ => fun m _ => .of_store rfl
  | .throwStmt .., _, _ => fun m _ => .of_store rfl
  | .returnStmt _, _, _ => fun m _ => .of_store rfl
  | .breakStmt, _, _ => fun m _ => .of_store rfl
  | .continueStmt, _, _ => fun m _ => .of_store rfl
  | .throwAgain, _, last => fun m _ => .of_store (by
    show (throwAgainRun emitted _ L last m).1.store.2 = m.store.2
    rw [throwAgainRun_eq]
    cases last <;> rfl)
  | .callStmt form callee bind, ctx, _ => fun m hm =>
    calm_call hL form.invokes ctx (callee m.store.1) (fun v s => (bind v s.1, s.2)) (fun _ _ => rfl) m hm
  | .seq first rest, ctx, last => by
    show Calm _ fun m => andThen (recordedRun L first ctx last m) (complete emitted L rest.withCatchCalls ctx _)
    rw [lastExceptionVal_withCatchCalls]
    exact (calm_stmt hL first ctx last).andThen (calm_stmt hL rest ctx _)
  | .ifStmt condition thenBranch elseBranch, ctx, last => by
    intro m hm
    show Balances m (if condition m.store.1 then recordedRun L thenBranch ctx last m
      else complete emitted L elseBranch.withCatchCalls ctx _ m)
    unfold Throughout at hm
    by_cases hc : condition m.store.1
    · rw [if_pos hc] at hm ⊢
      exact calm_stmt hL thenBranch ctx last m hm
    · rw [if_neg hc] at hm ⊢
      rw [lastExceptionVal_withCatchCalls]
      exact calm_stmt hL elseBranch ctx _ m hm
  | .whileStmt head condition body elseBranch, ctx, last => by
    show Calm _ (loopRun (recordedRun L head ctx last) _ (complete emitted L body.withCatchCalls _ _)
      (complete emitted L elseBranch.withCatchCalls ctx _) L.rounds)
    rw [lastExceptionVal_withCatchCalls, lastExceptionVal_withCatchCalls]
    exact (calm_stmt hL head ctx last).loop (calm_stmt hL body _ _) (calm_stmt hL elseBranch ctx _) L.rounds
  | .withStmt exitFn exit body, ctx, last => fun m hm =>
    (calm_stmt hL body { ctx with pad := some false } last).handle
      (fun e => (calm_exit hL false ctx exitFn (exit m.store.1)).cleanupPad e)
      (calm_exit hL true ctx exitFn (exit m.store.1)) m hm
  | .tryStmt B place tryBody catchClauses finallyBody, ctx, last => by
    have hfinal := calm_stmt hL finallyBody ctx
    cases hclauses : catchClauses.isEmpty with
    | true =>
      intro m hm
      rw [recordedRun_finally hclauses]
      unfold Throughout at hm
      rw [if_pos hclauses] at hm
      exact (calm_stmt hL tryBody { ctx with pad := some false } last).handle (fun e => (hfinal _).cleanupPad e) (hfinal _) m hm
    | false =>
      intro m hm
      unfold Throughout at hm
      rw [if_neg (by rw [hclauses]; exact Bool.false_ne_true)] at hm
      obtain ⟨⟨hbody, hafter⟩, htry⟩ := hm
      by_cases hleaves : Leaves L (.tryStmt B place tryBody catchClauses finallyBody) ctx last m
      · have hdone := fun m' e hrun => htry m' e hrun hleaves
        have hfirst := calm_stmt hL tryBody { ctx with pad := some true } last m hbody
        rw [recordedRun_catch hclauses]
        dsimp only
        generalize recordedRun L tryBody { ctx with pad := some true } last m = r at hfirst hafter hdone ⊢
        obtain ⟨m', o⟩ := r
        cases o with
        | normal => exact hfirst.trans (fun _ => nofun) (hfinal _ m' hafter)
        | raised e =>
          obtain ⟨bindVar, body, bodyLast, htaken, hnormal⟩ := hdone m' e rfl
          have hinside : catchClauses.taken B e.className (Context.mk ctx.pad ctx.inLoop (some e)).inLoop (some place) =
            some (bindVar, body, bodyLast) := htaken
          have hclause := calm_taken hL catchClauses B { ctx with caught := some e } (some place) e _ hafter.1 hinside
          have hpad := calm_pad finallyBody.withCatchCalls.isEmpty (hfinal _) hinside hclause hnormal hafter.2
          exact hfirst.trans (fun _ => nofun) hpad
        | _ => exact hfirst
      · obtain ⟨why, hwhy⟩ := not_forall.mp hleaves
        exact .inl ⟨why, not_not.mp hwhy⟩

theorem calm_taken (hL : CalleesCalm L K) : ∀ (clauses : Clauses H S V M) (B : BaseMap H) (ctx : Context M)
    (last : Option Place) (e : VisualException M) (m : Machine (Recorded S M) M),
      ThroughoutClauses L K (CaughtAndDone L) clauses B ctx last e m →
        ∀ {bindVar : M → S → S} {body : Stmt H S V M} {bodyLast : Option Place},
          clauses.taken B e.className ctx.inLoop last = some (bindVar, body, bodyLast) →
            Balances (enterClause e bindVar m) (recordedRun L body ctx bodyLast (enterClause e bindVar m))
  | .nil, _, _, _, _, _, _, _, _, _, h => by cases h
  | .cons exceptionType bindVar body rest, B, ctx, last, e, m, hm, _, _, _, h => by
    unfold Clauses.taken at h
    unfold ThroughoutClauses at hm
    by_cases htakes : exceptionType = [] ∨ e.className ∈ B.typeChain exceptionType
    · rw [if_pos htakes] at h hm
      cases h
      exact calm_stmt hL body ctx last _ hm
    · rw [if_neg htakes] at h hm
      exact calm_taken hL rest B ctx _ e m hm h

end

/-! ## The condition is exact -/

omit [DecidableEq M] in
theorem Balances.excess {m m' : Machine (Recorded S M) M} {o : Outcome V M}
    (h : Balances m (m', o)) (ho : ∀ why, o ≠ .halted why) : excess m'.store.2 = excess m.store.2 := by
  rcases h with ⟨why, hwhy⟩ | ⟨calls, hcalls, hstore⟩
  · exact absurd hwhy (ho why)
  · rw [show m'.store.2 = m.store.2 ++ calls from hstore, excess_append, hcalls.excess_eq, add_zero]

theorem Balances.regions {s : Stmt H S V M} {ctx : Context M} {last : Option Place} {m : Machine (Recorded S M) M}
    (h : Balances m (recordedRun L s ctx last m)) : RegionsBalanced L s ctx last m := by
  intro m' o hrun ho
  rw [hrun] at h
  rcases h with ⟨why, hwhy⟩ | ⟨calls, hcalls, hstore⟩
  · exact absurd hwhy (ho why)
  · exact ⟨calls, hstore, hcalls, hcalls.pending_eq⟩

theorem RegionsBalanced.excess {s : Stmt H S V M} {ctx : Context M} {last : Option Place} {m m' : Machine (Recorded S M) M}
    {o : Outcome V M} (h : RegionsBalanced L s ctx last m) (hrun : recordedRun L s ctx last m = (m', o))
    (ho : ∀ why, o ≠ .halted why) : excess m'.store.2 = excess m.store.2 := by
  obtain ⟨calls, hstore, hcalls, _⟩ := h m' o hrun ho
  rw [hstore, excess_append, hcalls.excess_eq, add_zero]

/-- **The condition on a `try`** is that its regions are balanced, if those inside are. -/
theorem regionsBalanced_iff {B : BaseMap H} {place : Place} {tryBody finallyBody : Stmt H S V M} {clauses : Clauses H S V M}
    (hL : CalleesCalm L K) (hclauses : clauses.isEmpty = false) (ctx : Context M) (last : Option Place)
    (m : Machine (Recorded S M) M)
    (hbody : Throughout L K (CaughtAndDone L) tryBody { ctx with pad := some true } last m)
    (hafter : afterBody (recordedRun L tryBody { ctx with pad := some true } last m)
      (fun e m =>
        ThroughoutClauses L K (CaughtAndDone L) clauses B { ctx with caught := some e } (some place) e (m.caught place e.msg) ∧
          afterNormal (completeClauses emitted L clauses.withCatchCalls B { ctx with caught := some e } (some place) e
            (m.caught place e.msg))
            (Throughout L K (CaughtAndDone L) finallyBody ctx (clauses.lastExceptionVal ctx.inLoop (some place))))
      (Throughout L K (CaughtAndDone L) finallyBody ctx (clauses.lastExceptionVal ctx.inLoop (some place)))) :
    RegionsBalanced L (.tryStmt B place tryBody clauses finallyBody) ctx last m ↔
      CaughtAndDone L (.tryStmt B place tryBody clauses finallyBody) ctx last m := by
  constructor
  · intro hbalanced m' e hrun hleaves
    have hfirst := calm_stmt hL tryBody _ last m hbody
    rw [hrun] at hfirst hafter
    obtain ⟨hinside, hfinal⟩ := hafter
    have hbegun : excess m'.store.2 = excess m.store.2 := hfirst.excess fun _ => nofun
    have hwhole : recordedRun L (.tryStmt B place tryBody clauses finallyBody) ctx last m =
        leave emitted finallyBody.withCatchCalls.isEmpty
          (recordedRun L finallyBody ctx (clauses.lastExceptionVal ctx.inLoop (some place)))
          (completeClauses emitted L clauses.withCatchCalls B { ctx with caught := some e } (some place) e
            (m'.caught place e.msg)) := by
      rw [recordedRun_catch hclauses]
      dsimp only
      rw [hrun]
      rfl
    unfold Leaves at hleaves
    rw [hwhole] at hleaves
    cases htaken : clauses.taken B e.className (Context.mk ctx.pad ctx.inLoop (some e)).inLoop (some place) with
    | none =>
      -- the region is ended twice
      rw [completeClauses_eq, htaken] at hwhole hleaves hfinal
      have hlast := calm_stmt hL finallyBody ctx _ _ hfinal
      have hsame := hbalanced.excess hwhole hleaves
      have hended := hlast.excess hleaves
      have htwice : excess (m'.store.2 ++ [.opening e.msg] ++ [.closing] ++ [.closing]) = excess m.store.2 - 1 := by
        rw [excess_closing, excess_closing, excess_opening, hbegun]
        omega
      have hover : excess m.store.2 = excess m.store.2 - 1 := hsame.symm.trans (hended.trans htwice)
      omega
    | some clause =>
      obtain ⟨bindVar, body, bodyLast⟩ := clause
      refine ⟨bindVar, body, bodyLast, rfl, ?_⟩
      have hclause := calm_taken hL clauses B { ctx with caught := some e } (some place) e _ hinside htaken
      rw [completeClauses_eq, htaken] at hwhole hleaves
      dsimp only at hwhole hleaves
      generalize recordedRun L body (Context.mk ctx.pad ctx.inLoop (some e)) bodyLast
        (enterClause e bindVar (m'.caught place e.msg)) = r at hclause hwhole hleaves ⊢
      obtain ⟨m₂, o₂⟩ := r
      -- the region is not ended where the end of the clause is not reached
      have hunended : (∀ why, o₂ ≠ .halted why) → excess m₂.store.2 ≠ excess m.store.2 := by
        intro ho heq
        have hopen : excess (m'.store.2 ++ [.opening e.msg]) = excess m.store.2 + 1 := by rw [excess_opening, hbegun]
        have hover : excess m.store.2 = excess m.store.2 + 1 := heq.symm.trans ((hclause.excess ho).trans hopen)
        omega
      cases o₂ with
      | normal => rfl
      | halted why => exact absurd rfl (hleaves why)
      | _ => exact absurd (hbalanced.excess hwhole hleaves) (hunended fun _ => nofun)
  · intro hdone
    refine Balances.regions (calm_stmt hL _ ctx last m ?_)
    unfold Throughout
    rw [if_neg (by rw [hclauses]; exact Bool.false_ne_true)]
    exact ⟨⟨hbody, hafter⟩, hdone⟩

mutual

/-- In every run of a statement, all regions are balanced where the condition holds all through. -/
theorem throughout_eq (hL : CalleesCalm L K) : ∀ (s : Stmt H S V M) (ctx : Context M) (last : Option Place),
    Throughout L K (RegionsBalanced L) s ctx last = Throughout L K (CaughtAndDone L) s ctx last
  | .skip, _, _ | .simple _, _, _ | .throwStmt .., _, _ | .returnStmt _, _, _ | .breakStmt, _, _ | .continueStmt, _, _
  | .throwAgain, _, _ | .callStmt .., _, _ => rfl
  | .seq first rest, ctx, last => by
    unfold Throughout
    rw [throughout_eq hL first, throughout_eq hL rest]
  | .ifStmt condition thenBranch elseBranch, ctx, last => by
    unfold Throughout
    rw [throughout_eq hL thenBranch, throughout_eq hL elseBranch]
  | .whileStmt head condition body elseBranch, ctx, last => by
    unfold Throughout
    simp only [throughout_eq hL head, throughout_eq hL body, throughout_eq hL elseBranch]
  | .withStmt exitFn exit body, ctx, last => by
    unfold Throughout
    rw [throughout_eq hL body]
  | .tryStmt B place tryBody catchClauses finallyBody, ctx, last => by
    unfold Throughout
    rw [throughout_eq hL tryBody, throughout_eq hL tryBody]
    simp only [throughout_eq hL finallyBody, throughoutClauses_eq hL catchClauses]
    funext m
    cases hclauses : catchClauses.isEmpty with
    | true => rfl
    | false =>
      refine propext (and_congr_right ?_)
      rintro ⟨hbody, hafter⟩
      exact regionsBalanced_iff hL hclauses ctx last m hbody hafter

theorem throughoutClauses_eq (hL : CalleesCalm L K) : ∀ (clauses : Clauses H S V M) (B : BaseMap H) (ctx : Context M)
    (last : Option Place) (e : VisualException M),
      ThroughoutClauses L K (RegionsBalanced L) clauses B ctx last e = ThroughoutClauses L K (CaughtAndDone L) clauses B ctx last e
  | .nil, _, _, _, _ => rfl
  | .cons exceptionType bindVar body rest, B, ctx, last, e => by
    unfold ThroughoutClauses
    rw [throughout_eq hL body, throughoutClauses_eq hL rest]

end

end Kept

/-! ## Programs -/

namespace Program

variable [DecidableEq M] (P : Program H S V M) (rounds : ℕ)

/-- What the functions of a program are run with, their calls recorded. -/
def linked (depth : ℕ) : Linked (Recorded S M) V M :=
  ⟨P.withCatchCalls.meaning rounds emitted depth, rounds, P.withCatchCalls.restore, P.noMessage⟩

/-- Every `try` with clauses that a call of a function comes to has a property where it is begun. -/
def Throughout (φ : Linked (Recorded S M) V M → Stmt H S V M → Context M → Option Place → Machine (Recorded S M) M → Prop) :
    ℕ → Name → Bool → Recorded S M → Prop
  | 0 => fun _ _ _ => True
  | depth + 1 => fun name handled s =>
    Unwinding.Throughout (P.linked rounds depth) (Throughout φ depth) (φ (P.linked rounds depth)) (P.body name)
      ⟨none, false, none⟩ (P.lastException name) ⟨s, fun _ => none, handled⟩

/-- Functions that keep to the condition make nested calls. -/
theorem calleesCalm (depth : ℕ) : CalleesCalm (P.linked rounds depth) (P.Throughout rounds CaughtAndDone depth) := by
  induction depth with
  | zero => exact fun _ _ _ _ => trivial
  | succ depth ih =>
    intro callee handled s h
    have hcalm := calm_stmt ih (P.body callee) ⟨none, false, none⟩ (P.lastException callee) ⟨s, fun _ => none, handled⟩ h
    have hcall : (P.linked rounds (depth + 1)).call callee handled s =
        leaveFunction P.noValue (recordedRun (P.linked rounds depth) (P.body callee) ⟨none, false, none⟩
          (P.lastException callee) ⟨s, fun _ => none, handled⟩) := rfl
    rw [hcall]
    generalize recordedRun (P.linked rounds depth) (P.body callee) ⟨none, false, none⟩ (P.lastException callee)
      ⟨s, fun _ => none, handled⟩ = r at hcalm ⊢
    obtain ⟨m, o⟩ := r
    cases o with
    | broke => trivial
    | continued => trivial
    | halted why => trivial
    | _ => exact hcalm.resolve_left (by rintro ⟨why, hwhy⟩; cases hwhy)

/-- **Catch regions are balanced** in exactly those runs in which every exception that a landing pad gets is taken by a
clause, and the end of that clause is reached: by no `break`, `continue`, `return` or exception is a clause left. -/
theorem regions_balanced_iff (depth : ℕ) (name : Name) (handled : Bool) (s : Recorded S M) :
    P.Throughout rounds RegionsBalanced depth name handled s ↔ P.Throughout rounds CaughtAndDone depth name handled s := by
  have heq : P.Throughout rounds RegionsBalanced depth = P.Throughout rounds CaughtAndDone depth := by
    induction depth with
    | zero => rfl
    | succ depth ih =>
      funext name handled s
      unfold Throughout
      rw [ih, throughout_eq (P.calleesCalm rounds depth)]
  rw [heq]

end Program

/-- What is thrown in a `try` is caught, and the clause is as given. -/
def catchingWith (exceptionType : Name) (body : Stmt classes ℕ ℕ Name) : Program classes ℕ ℕ Name :=
  counting fun _ =>
    .tryStmt classBases (1, 0) (.throwStmt [] (fun _ => []) fun _ => ['x']) (.cons exceptionType (fun _ s => s) body .nil) .skip

/-- `return` in a clause leaves the exception being caught. -/
theorem not_regions_balanced_return :
    ¬ (catchingWith [] (.returnStmt fun s => s)).Throughout 0 RegionsBalanced 1 ['m'] false (0, []) := by
  rintro ⟨_, htry⟩
  obtain ⟨calls, hstore, hcalls, _⟩ := htry _ _ rfl fun _ => nofun
  have hopen : calls = [.opening ['x']] := hstore.symm
  rw [hopen] at hcalls
  exact absurd hcalls.excess_eq (by decide)

end Visuall.Codegen.Unwinding
