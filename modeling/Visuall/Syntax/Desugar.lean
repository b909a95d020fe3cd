import Visuall.Syntax.Ast
import Visuall.Lexer.Token
import Visuall.Lib.Effect

/-!
# Desugaring

`cloneExpr`, and the two places of `parser.cpp` that copy expressions with it: chained comparisons
(`Parser::parseComparison`) and augmented assignments (`Parser::parseExpressionStatement`).  What they
build is evaluated by an arbitrary `Machine`, any way to evaluate the tree from left to right with a
short-circuiting `and`, and the source operands that are evaluated are noted.

* `Chain`, `Chain.toExpr` — the tree built for a comparison, with its operands as leaves;
* `Machine.runChain_forget` — noting the operands changes nothing in what the machine does;
* `desugaring_once_iff` — when every operand is evaluated once: exactly when nothing is copied.
-/

namespace Visuall.Ast

mutual

/-- `cloneExpr`.  An `FStringExpr` has no case and falls through to the null literal, and the type
arguments of a call are not copied. -/
def cloneExpr : Expr → Expr
  | .intLiteral value => .intLiteral value
  | .floatLiteral value => .floatLiteral value
  | .stringLiteral value => .stringLiteral value
  | .fstringLiteral raw => .fstringLiteral raw
  | .boolLiteral value => .boolLiteral value
  | .nullLiteral => .nullLiteral
  | .identifier name => .identifier name
  | .thisExpr => .thisExpr
  | .superExpr => .superExpr
  | .binaryExpr op left right => .binaryExpr op (cloneExpr left) (cloneExpr right)
  | .unaryExpr op operand => .unaryExpr op (cloneExpr operand)
  | .callExpr callee args _ => .callExpr (cloneExpr callee) (cloneExprs args) []
  | .memberExpr object member => .memberExpr (cloneExpr object) member
  | .indexExpr object index => .indexExpr (cloneExpr object) (cloneExpr index)
  | .listExpr elements => .listExpr (cloneExprs elements)
  | .dictExpr entries => .dictExpr (cloneEntries entries)
  | .tupleExpr elements => .tupleExpr (cloneExprs elements)
  | .ternaryExpr condition thenExpr elseExpr =>
      .ternaryExpr (cloneExpr condition) (cloneExpr thenExpr) (cloneExpr elseExpr)
  | .lambdaExpr params body => .lambdaExpr params (cloneExpr body)
  | .sliceExpr object start stop step =>
      .sliceExpr (cloneExpr object) (cloneOption start) (cloneOption stop) (cloneOption step)
  | .listComprehension body var iterable condition =>
      .listComprehension (cloneExpr body) var (cloneExpr iterable) (cloneOption condition)
  | .dictComprehension key value var iterable condition =>
      .dictComprehension (cloneExpr key) (cloneExpr value) var (cloneExpr iterable)
        (cloneOption condition)
  | .spreadExpr operand => .spreadExpr (cloneExpr operand)
  | .dictSpreadExpr operand => .dictSpreadExpr (cloneExpr operand)
  | .walrusExpr target value => .walrusExpr target (cloneExpr value)
  | .goExpr callee args => .goExpr (cloneExpr callee) (cloneExprs args)
  | .chanRecvExpr channel => .chanRecvExpr (cloneExpr channel)
  | .fstringExpr _ => .nullLiteral

/-- `cloneExpr` on each expression of a list. -/
def cloneExprs : List Expr → List Expr
  | [] => []
  | e :: es => cloneExpr e :: cloneExprs es

/-- `cloneExpr` on the entries of a dictionary. -/
def cloneEntries : List (Expr × Expr) → List (Expr × Expr)
  | [] => []
  | (key, value) :: entries => (cloneExpr key, cloneExpr value) :: cloneEntries entries

/-- `cloneExpr` behind a pointer that may be null. -/
def cloneOption : Option Expr → Option Expr
  | none => none
  | some e => some (cloneExpr e)

end

/-! ## What the parser builds -/

/-- The operators that `parseComparison` chains. -/
def comparisonOps : List BinOp := [.eq, .neq, .lt, .gt, .lte, .gte, .in, .notIn]

/-- The loop of `parseComparison` over the operators from the second on: `left` is the operand before
them. -/
def comparisonChain (result left : Expr) : List (BinOp × Expr) → Expr
  | [] => result
  | (op, right) :: more =>
    let rightOperand := if more.isEmpty then right else cloneExpr right
    comparisonChain (.binaryExpr .and result (.binaryExpr op left rightOperand)) right more

/-- What `parseComparison` builds of the operands and operators it has collected: the first operand and
the others, each with the operator before it. -/
def comparisonExpr (first : Expr) : List (BinOp × Expr) → Expr
  | [] => first
  | [(op, right)] => .binaryExpr op first right
  | (op, second) :: more =>
    comparisonChain (.binaryExpr op first (cloneExpr second)) second more

/-- The table `augOps` of `parseExpressionStatement`. -/
def augOps : List (TokenType × BinOp) :=
  [(.plusEq, .add), (.minusEq, .sub), (.starEq, .mul), (.slashEq, .div), (.doubleSlashEq, .intDiv),
   (.percentEq, .mod), (.doubleStarEq, .pow), (.ampEq, .bitAnd), (.pipeEq, .bitOr),
   (.caretEq, .bitXor), (.lshiftEq, .shl), (.rshiftEq, .shr)]

/-- The value assigned by `target op= rhs`. -/
def augmentedValue (target : Expr) (op : BinOp) (rhs : Expr) : Expr :=
  .binaryExpr op (cloneExpr target) rhs

/-! ## Chains -/

/-- The tree built for a comparison, over its operands. -/
inductive Chain (α : Type)
  | operand (a : α)
  | compare (op : BinOp) (left right : Chain α)
  | conj (left right : Chain α)

namespace Chain

variable {α : Type}

/-- The expression a chain stands for. -/
def toExpr (f : α → Expr) : Chain α → Expr
  | operand a => f a
  | compare op left right => .binaryExpr op (left.toExpr f) (right.toExpr f)
  | conj left right => .binaryExpr .and (left.toExpr f) (right.toExpr f)

/-- The operands of a chain, from left to right. -/
def operands : Chain α → List α
  | operand a => [a]
  | compare _ left right => left.operands ++ right.operands
  | conj left right => left.operands ++ right.operands

/-- Whether the operators of a chain are among `comparisonOps`. -/
def Compares : Chain α → Prop
  | operand _ => True
  | compare op left right => op ∈ comparisonOps ∧ left.Compares ∧ right.Compares
  | conj left right => left.Compares ∧ right.Compares

/-- `comparisonChain`, over operands. -/
def extend (clone : α → α) (result : Chain α) (left : α) : List (BinOp × α) → Chain α
  | [] => result
  | (op, right) :: more =>
    extend clone
      (conj result (compare op (operand left) (operand (if more.isEmpty then right else clone right))))
      right more

/-- `comparisonExpr`, over operands. -/
def ofOperands (clone : α → α) (first : α) : List (BinOp × α) → Chain α
  | [] => operand first
  | [(op, right)] => compare op (operand first) (operand right)
  | (op, second) :: more =>
    extend clone (compare op (operand first) (operand (clone second))) second more

variable {clone : α → α} {f : α → Expr} {result : Chain α} {left first : α}
  {more : List (BinOp × α)}

theorem extend_toExpr (hclone : ∀ a, f (clone a) = cloneExpr (f a)) :
    (extend clone result left more).toExpr f =
      comparisonChain (result.toExpr f) (f left) (more.map fun p => (p.1, f p.2)) := by
  induction more generalizing result left with
  | nil => rfl
  | cons p more ih =>
      rw [extend, ih, List.map_cons, comparisonChain]
      cases more with
      | nil => rfl
      | cons q more => simp [toExpr, hclone]

/-- A chain of operands stands for what the parser builds of their expressions. -/
theorem ofOperands_toExpr (hclone : ∀ a, f (clone a) = cloneExpr (f a)) :
    (ofOperands clone first more).toExpr f =
      comparisonExpr (f first) (more.map fun p => (p.1, f p.2)) := by
  cases more with
  | nil => rfl
  | cons p more =>
      cases more with
      | nil => rfl
      | cons q more =>
          rw [ofOperands, extend_toExpr hclone]
          · simp [toExpr, hclone, comparisonExpr]
          · simp

theorem extend_compares (hresult : result.Compares) (hops : ∀ p ∈ more, p.1 ∈ comparisonOps) :
    (extend clone result left more).Compares := by
  induction more generalizing result left with
  | nil => exact hresult
  | cons p more ih =>
      refine ih ⟨hresult, hops p List.mem_cons_self, trivial, trivial⟩ ?_
      exact fun q hq => hops q (List.mem_cons_of_mem _ hq)

theorem ofOperands_compares (hops : ∀ p ∈ more, p.1 ∈ comparisonOps) :
    (ofOperands clone first more).Compares := by
  cases more with
  | nil => trivial
  | cons p more =>
      have hp := hops p List.mem_cons_self
      cases more with
      | nil => exact ⟨hp, trivial, trivial⟩
      | cons q more =>
          exact extend_compares ⟨hp, trivial, trivial⟩ fun r hr => hops r (List.mem_cons_of_mem _ hr)

/-- Extending a chain puts operands behind its own. -/
theorem operands_prefix_extend (clone : α → α) (result : Chain α) (left : α)
    (more : List (BinOp × α)) : result.operands <+: (extend clone result left more).operands := by
  induction more generalizing result left with
  | nil => exact List.prefix_rfl
  | cons p more ih =>
      rw [extend]
      refine List.IsPrefix.trans ?_ (ih _ _)
      exact List.prefix_append _ _

end Chain

/-! ## Machines -/

/-- A computation that may change a state and may throw. -/
abbrev Effect (σ ε α : Type) := ExceptT ε (StateM σ) α

/-- A way to evaluate expressions: from left to right, with a short-circuiting `and`, and with whatever
effects calls, channel operations and so on have.  `assign` stores as code generation does: an
assignment evaluates its value first, then the parts of its target. -/
structure Machine (σ ε V : Type) where
  eval : Expr → Effect σ ε V
  truthy : V → Bool
  apply : BinOp → V → V → Effect σ ε V
  getMember : V → Name → Effect σ ε V
  getIndex : V → V → Effect σ ε V
  setName : Name → V → Effect σ ε Unit
  setMember : V → Name → V → Effect σ ε Unit
  setIndex : V → V → V → Effect σ ε Unit
  eval_and : ∀ left right, eval (.binaryExpr .and left right) = do
    let v ← eval left
    if truthy v then eval right else pure v
  eval_binary : ∀ op left right, op ≠ .and → op ≠ .or → op ≠ .nullCoalesce →
    eval (.binaryExpr op left right) = do
      let a ← eval left
      let b ← eval right
      apply op a b
  eval_member : ∀ object member, eval (.memberExpr object member) = do
    let v ← eval object
    getMember v member
  eval_index : ∀ object index, eval (.indexExpr object index) = do
    let a ← eval object
    let b ← eval index
    getIndex a b

/-- An assignable target. -/
inductive Place
  | name (name : Occurrence)
  | member (object : Expr) (member : Name)
  | index (object index : Expr)

/-- The target as an expression. -/
def Place.toExpr : Place → Expr
  | name x => .identifier x
  | member object m => .memberExpr object m
  | index object i => .indexExpr object i

namespace Machine

variable {σ ε V : Type} (M : Machine σ ε V)

/-- An assignment to a place. -/
def assign (place : Place) (value : Expr) : Effect σ ε Unit := do
  let v ← M.eval value
  match place with
  | .name x => M.setName x.name v
  | .member object m => do
    let o ← M.eval object
    M.setMember o m v
  | .index object i => do
    let o ← M.eval object
    let j ← M.eval i
    M.setIndex o j v

/-! ## Noting what is evaluated -/

/-- An effect with a list of notes beside its state. -/
abbrev Noted (σ ε α : Type) := Effect (σ × List ℕ) ε α

/-- An effect that leaves the notes alone. -/
def silently {α : Type} (x : Effect σ ε α) : Noted σ ε α :=
  fun s => ((x s.1).1, ((x s.1).2, s.2))

/-- Evaluating the operand with a number, which is noted. -/
def operand (n : ℕ) (e : Expr) : Noted σ ε V :=
  fun s => ((M.eval e s.1).1, ((M.eval e s.1).2, s.2 ++ [n]))

/-- What an effect does, without its notes. -/
def forget {α : Type} (x : Noted σ ε α) (s : σ) : Except ε α × σ :=
  ((x (s, [])).1, (x (s, [])).2.1)

/-- What an effect notes. -/
def notes {α : Type} (x : Noted σ ε α) (s : σ) : List ℕ := (x (s, [])).2.2

/-- Evaluating a chain over numbered operands. -/
def runChain : Chain (ℕ × Expr) → Noted σ ε V
  | .operand a => M.operand a.1 a.2
  | .compare op left right => do
    let a ← runChain left
    let b ← runChain right
    silently (M.apply op a b)
  | .conj left right => do
    let v ← runChain left
    if M.truthy v then runChain right else pure v

/-- The intended conjunction, from the value of the operand before: each operand is evaluated once, and
none after a comparison that does not hold. -/
def conjunction (v : V) : List (BinOp × ℕ × Expr) → Noted σ ε V
  | [] => pure v
  | [(op, n, e)] => do
    let w ← M.operand n e
    silently (M.apply op v w)
  | (op, n, e) :: more => do
    let w ← M.operand n e
    let c ← silently (M.apply op v w)
    if M.truthy c then conjunction w more else pure c

/-- The copy of a place, read: its parts are noted as the object (0) and the index (1). -/
def readCopy : Place → Noted σ ε V
  | .name x => silently (M.eval (.identifier x))
  | .member object m => do
    let o ← M.operand 0 (cloneExpr object)
    silently (M.getMember o m)
  | .index object i => do
    let o ← M.operand 0 (cloneExpr object)
    let j ← M.operand 1 (cloneExpr i)
    silently (M.getIndex o j)

/-- A store to a place, its parts noted likewise. -/
def write (v : V) : Place → Noted σ ε Unit
  | .name x => silently (M.setName x.name v)
  | .member object m => do
    let o ← M.operand 0 object
    silently (M.setMember o m v)
  | .index object i => do
    let o ← M.operand 0 object
    let j ← M.operand 1 i
    silently (M.setIndex o j v)

/-- The assignment built of `place op= rhs`, the parts of the place noted. -/
def runAugmented (place : Place) (op : BinOp) (rhs : Expr) : Noted σ ε Unit := do
  let a ← M.readCopy place
  let b ← silently (M.eval rhs)
  let v ← silently (M.apply op a b)
  M.write v place

/-- The intended update: the parts of the place are evaluated once. -/
def update (op : BinOp) (rhs : Expr) : Place → Noted σ ε Unit
  | .name x => do
    let a ← silently (M.eval (.identifier x))
    let b ← silently (M.eval rhs)
    let v ← silently (M.apply op a b)
    silently (M.setName x.name v)
  | .member object m => do
    let o ← M.operand 0 object
    let a ← silently (M.getMember o m)
    let b ← silently (M.eval rhs)
    let v ← silently (M.apply op a b)
    silently (M.setMember o m v)
  | .index object i => do
    let o ← M.operand 0 object
    let j ← M.operand 1 i
    let a ← silently (M.getIndex o j)
    let b ← silently (M.eval rhs)
    let v ← silently (M.apply op a b)
    silently (M.setIndex o j v)

/-! ## Notes change nothing -/

section Run

variable {α β : Type} {ρ : Type}

/-- A noted effect that does what another effect does. -/
def Notes (x : Noted σ ε α) (y : Effect σ ε α) : Prop :=
  ∀ s l, (x (s, l)).1 = (y s).1 ∧ (x (s, l)).2.1 = (y s).2

theorem Notes.silently (x : Effect σ ε α) : Notes (Machine.silently x) x := fun _ _ => ⟨rfl, rfl⟩

theorem Notes.operand (n : ℕ) (e : Expr) : Notes (M.operand n e) (M.eval e) := fun _ _ => ⟨rfl, rfl⟩

theorem Notes.pure (a : α) : Notes (Pure.pure a : Noted σ ε α) (Pure.pure a) := fun _ _ => ⟨rfl, rfl⟩

theorem Notes.bind {x : Noted σ ε α} {y : Effect σ ε α} {f : α → Noted σ ε β} {g : α → Effect σ ε β}
    (hx : Notes x y) (hf : ∀ a, Notes (f a) (g a)) : Notes (x >>= f) (y >>= g) := by
  intro s l
  obtain ⟨hval, hst⟩ := hx s l
  rw [Effect.bind_run, Effect.bind_run]
  rcases hxs : x (s, l) with ⟨r, s', l'⟩
  rcases hys : y s with ⟨r', t⟩
  rw [hxs, hys] at hval hst
  dsimp only at hval hst
  subst hval hst
  cases r with
  | ok a => exact hf a s' l'
  | error e => exact ⟨rfl, rfl⟩

theorem Notes.forget {x : Noted σ ε α} {y : Effect σ ε α} (h : Notes x y) (s : σ) :
    Machine.forget x s = y s := by
  obtain ⟨hval, hst⟩ := h s []
  exact Prod.ext hval hst

/-- What an effect notes is among some numbers, in their order. -/
def NotesWithin (x : Noted σ ε α) (ns : List ℕ) : Prop :=
  ∀ s l, ∃ p : List ℕ, p.Sublist ns ∧ (x (s, l)).2.2 = l ++ p

theorem NotesWithin.silently (x : Effect σ ε α) : NotesWithin (Machine.silently x) [] :=
  fun _ l => ⟨[], List.Sublist.refl _, (List.append_nil l).symm⟩

theorem NotesWithin.operand (n : ℕ) (e : Expr) : NotesWithin (M.operand n e) [n] :=
  fun _ _ => ⟨[n], List.Sublist.refl _, rfl⟩

theorem NotesWithin.bind {x : Noted σ ε α} {f : α → Noted σ ε β} {ns ms : List ℕ}
    (hx : NotesWithin x ns) (hf : ∀ a, NotesWithin (f a) ms) : NotesWithin (x >>= f) (ns ++ ms) := by
  intro s l
  obtain ⟨p, hp, hnotes⟩ := hx s l
  rw [Effect.bind_run]
  rcases hxs : x (s, l) with ⟨r, s', l'⟩
  rw [hxs] at hnotes
  dsimp only at hnotes
  cases r with
  | error e => exact ⟨p, hp.trans (List.sublist_append_left ns ms), hnotes⟩
  | ok a =>
      obtain ⟨q, hq, hnotes'⟩ := hf a s' l'
      exact ⟨p ++ q, hp.append hq, by rw [hnotes', hnotes, List.append_assoc]⟩

/-- What is noted at most once in the numbers is noted at most once. -/
theorem NotesWithin.count_le_one {x : Noted σ ε α} {ns : List ℕ} (h : NotesWithin x ns)
    (hns : ns.Nodup) (s : σ) (n : ℕ) : (notes x s).count n ≤ 1 := by
  obtain ⟨p, hp, hnotes⟩ := h s []
  rw [notes, hnotes, List.nil_append]
  exact List.nodup_iff_count_le_one.mp (hns.sublist hp) n

end Run

theorem comparisonOps_strict : ∀ op ∈ comparisonOps, op ≠ .and ∧ op ≠ .or ∧ op ≠ .nullCoalesce := by
  decide

theorem augOps_strict : ∀ p ∈ augOps, p.2 ≠ .and ∧ p.2 ≠ .or ∧ p.2 ≠ .nullCoalesce := by decide

theorem runChain_notes {c : Chain (ℕ × Expr)} (h : c.Compares) :
    Notes (M.runChain c) (M.eval (c.toExpr Prod.snd)) := by
  induction c with
  | operand a => exact Notes.operand M a.1 a.2
  | compare op left right ihl ihr =>
      obtain ⟨hop, hl, hr⟩ := h
      obtain ⟨hand, hor, hnull⟩ := comparisonOps_strict op hop
      rw [Chain.toExpr, M.eval_binary op _ _ hand hor hnull]
      exact (ihl hl).bind fun a => (ihr hr).bind fun b => Notes.silently _
  | conj left right ihl ihr =>
      obtain ⟨hl, hr⟩ := h
      rw [Chain.toExpr, M.eval_and]
      refine (ihl hl).bind fun v => ?_
      split_ifs
      · exact ihr hr
      · exact Notes.pure v

theorem readCopy_notes (place : Place) :
    Notes (M.readCopy place) (M.eval (cloneExpr place.toExpr)) := by
  cases place with
  | name x => exact Notes.silently _
  | member object m =>
      rw [Place.toExpr, cloneExpr, M.eval_member]
      exact (Notes.operand M 0 _).bind fun o => Notes.silently _
  | index object i =>
      rw [Place.toExpr, cloneExpr, M.eval_index]
      exact (Notes.operand M 0 _).bind fun o => (Notes.operand M 1 _).bind fun j => Notes.silently _

theorem runAugmented_notes {op : BinOp} (hop : op ∈ augOps.map Prod.snd) (place : Place) (rhs : Expr) :
    Notes (M.runAugmented place op rhs) (M.assign place (augmentedValue place.toExpr op rhs)) := by
  obtain ⟨p, hp, rfl⟩ := List.mem_map.mp hop
  obtain ⟨hand, hor, hnull⟩ := augOps_strict p hp
  unfold assign augmentedValue runAugmented
  rw [M.eval_binary p.2 _ _ hand hor hnull]
  simp only [bind_assoc]
  refine (M.readCopy_notes place).bind fun a => (Notes.silently _).bind fun b =>
    (Notes.silently _).bind fun v => ?_
  cases place with
  | name x => exact Notes.silently _
  | member object m => exact (Notes.operand M 0 _).bind fun o => Notes.silently _
  | index object i =>
      exact (Notes.operand M 0 _).bind fun o => (Notes.operand M 1 _).bind fun j => Notes.silently _

end Machine

/-! ## Once -/

/-- The operands of a comparison, numbered from `n` on. -/
def numbered (n : ℕ) : List (BinOp × Expr) → List (BinOp × ℕ × Expr)
  | [] => []
  | (op, e) :: more => (op, n, e) :: numbered (n + 1) more

/-- The chain that the parser builds, over its operands numbered from 0. -/
def chainOf (first : Expr) (more : List (BinOp × Expr)) : Chain (ℕ × Expr) :=
  .ofOperands (fun a => (a.1, cloneExpr a.2)) (0, first) (numbered 1 more)

theorem numbered_map (n : ℕ) (more : List (BinOp × Expr)) :
    (numbered n more).map (fun p => (p.1, p.2.2)) = more := by
  induction more generalizing n with
  | nil => rfl
  | cons p more ih => rw [numbered, List.map_cons, ih]

theorem chainOf_toExpr (first : Expr) (more : List (BinOp × Expr)) :
    (chainOf first more).toExpr Prod.snd = comparisonExpr first more := by
  rw [chainOf, Chain.ofOperands_toExpr (f := Prod.snd) (fun _ => rfl), numbered_map]

theorem numbered_ops {n : ℕ} {more : List (BinOp × Expr)} (h : ∀ p ∈ more, p.1 ∈ comparisonOps) :
    ∀ p ∈ numbered n more, p.1 ∈ comparisonOps := by
  induction more generalizing n with
  | nil => simp [numbered]
  | cons p more ih =>
      intro q hq
      rcases List.mem_cons.mp hq with rfl | hq
      · exact h p List.mem_cons_self
      · exact ih (fun r hr => h r (List.mem_cons_of_mem _ hr)) q hq

/-- A machine evaluates a comparison as it should: each operand at most once, to what the intended
conjunction gives. -/
def ComparedOnce {σ ε V : Type} (M : Machine σ ε V) (first : Expr) (more : List (BinOp × Expr))
    (s : σ) : Prop :=
  (∀ n, (Machine.notes (M.runChain (chainOf first more)) s).count n ≤ 1) ∧
    M.eval (comparisonExpr first more) s =
      Machine.forget (M.operand 0 first >>= fun v => M.conjunction v (numbered 1 more)) s

/-- A machine updates a place as it should: each part of the place is evaluated at most once, and the
place gets what the intended update gives. -/
def UpdatedOnce {σ ε V : Type} (M : Machine σ ε V) (place : Place) (op : BinOp) (rhs : Expr)
    (s : σ) : Prop :=
  (∀ n, (Machine.notes (M.runAugmented place op rhs) s).count n ≤ 1) ∧
    M.assign place (augmentedValue place.toExpr op rhs) s = Machine.forget (M.update op rhs place) s

/-- A machine in which every evaluation succeeds and nothing has an effect. -/
def constant : Machine Unit Unit Unit where
  eval _ := pure ()
  truthy _ := true
  apply _ _ _ := pure ()
  getMember _ _ := pure ()
  getIndex _ _ := pure ()
  setName _ _ := pure ()
  setMember _ _ _ := pure ()
  setIndex _ _ _ := pure ()
  eval_and _ _ := rfl
  eval_binary _ _ _ _ _ _ := rfl
  eval_member _ _ := rfl
  eval_index _ _ := rfl

/-- In the constant machine every operand of a chain is evaluated as often as it stands there. -/
theorem constant_runChain (c : Chain (ℕ × Expr)) (l : List ℕ) :
    constant.runChain c ((), l) = (.ok (), ((), l ++ c.operands.map Prod.fst)) := by
  induction c generalizing l with
  | operand a => rfl
  | compare op left right ihl ihr =>
      rw [Machine.runChain, Effect.bind_run, ihl]
      show (constant.runChain right >>= _) _ = _
      rw [Effect.bind_run, ihr, Chain.operands, List.map_append, ← List.append_assoc]
      rfl
  | conj left right ihl ihr =>
      rw [Machine.runChain, Effect.bind_run, ihl]
      show constant.runChain right _ = _
      rw [ihr, Chain.operands, List.map_append, List.append_assoc]

/-- A chain of two comparisons or more holds its second operand twice. -/
theorem second_twice (first : Expr) (p q : BinOp × Expr) (more : List (BinOp × Expr)) :
    2 ≤ (((chainOf first (p :: q :: more)).operands).map Prod.fst).count 1 := by
  obtain ⟨op, second⟩ := p
  obtain ⟨op', third⟩ := q
  obtain ⟨rest, hrest⟩ := Chain.operands_prefix_extend (fun a : ℕ × Expr => (a.1, cloneExpr a.2))
    (.conj (.compare op (.operand (0, first)) (.operand (1, cloneExpr second)))
      (.compare op' (.operand (1, second))
        (.operand (if (numbered 3 more).isEmpty then (2, third) else (2, cloneExpr third)))))
    (2, third) (numbered 3 more)
  have hchain : (chainOf first ((op, second) :: (op', third) :: more)).operands = _ := hrest.symm
  rw [hchain]
  simp only [Chain.operands, List.map_append, List.count_append]
  simp
  omega

/-- One comparison evaluates both operands once. -/
theorem comparedOnce_single {σ ε V : Type} (M : Machine σ ε V) (first second : Expr) {op : BinOp}
    (hop : op ∈ comparisonOps) (s : σ) : ComparedOnce M first [(op, second)] s := by
  constructor
  · have hwithin : Machine.NotesWithin (M.runChain (chainOf first [(op, second)])) ([0] ++ ([1] ++ [])) :=
      (Machine.NotesWithin.operand M 0 first).bind fun a =>
        (Machine.NotesWithin.operand M 1 second).bind fun b => Machine.NotesWithin.silently _
    exact hwithin.count_le_one (by decide) s
  · have hcompares : (chainOf first [(op, second)]).Compares :=
      Chain.ofOperands_compares (numbered_ops (by simpa using hop))
    have hnotes := M.runChain_notes hcompares
    rw [chainOf_toExpr] at hnotes
    rw [← hnotes.forget]
    rfl

/-- An update of a name evaluates no part of its target. -/
theorem updatedOnce_name {σ ε V : Type} (M : Machine σ ε V) (x : Occurrence) {op : BinOp}
    (hop : op ∈ augOps.map Prod.snd) (rhs : Expr) (s : σ) : UpdatedOnce M (.name x) op rhs s := by
  have hsame : M.runAugmented (.name x) op rhs = M.update op rhs (.name x) := rfl
  constructor
  · have hwithin : Machine.NotesWithin (M.runAugmented (.name x) op rhs) ([] ++ ([] ++ ([] ++ []))) :=
      (Machine.NotesWithin.silently _).bind fun a => (Machine.NotesWithin.silently _).bind fun b =>
        (Machine.NotesWithin.silently _).bind fun v => Machine.NotesWithin.silently _
    exact hwithin.count_le_one (by decide) s
  · rw [← (M.runAugmented_notes hop (.name x) rhs).forget, hsame]

/-- **When everything is evaluated once.**  A chained comparison evaluates each operand at most once and
to the intended value, on every machine and in every state, exactly when it has one comparison; an
augmented assignment does so with the parts of its target exactly when the target is a name. -/
theorem desugaring_once_iff (first : Expr) (more : List (BinOp × Expr)) (place : Place) (op : BinOp) (rhs : Expr) :
    (more ≠ [] → (∀ p ∈ more, p.1 ∈ comparisonOps) →
      ((∀ (σ ε V : Type) (M : Machine σ ε V) (s : σ), ComparedOnce M first more s) ↔
        more.length = 1)) ∧
    (op ∈ augOps.map Prod.snd →
      ((∀ (σ ε V : Type) (M : Machine σ ε V) (s : σ), UpdatedOnce M place op rhs s) ↔
        ∃ x, place = .name x)) := by
  constructor
  · intro hne hops
    constructor
    · intro hall
      obtain ⟨hcount, -⟩ := hall Unit Unit Unit constant ()
      match more, hne with
      | [_], _ => rfl
      | p :: q :: more, _ =>
          have htwice := second_twice first p q more
          have hone := hcount 1
          rw [Machine.notes, constant_runChain] at hone
          simp only [List.nil_append] at hone
          omega
    · intro hlen σ ε V M s
      obtain ⟨⟨op, second⟩, rfl⟩ := List.length_eq_one_iff.mp hlen
      exact comparedOnce_single M first second (hops _ List.mem_cons_self) s
  · intro hop
    constructor
    · intro hall
      obtain ⟨hcount, -⟩ := hall Unit Unit Unit constant ()
      cases place with
      | name x => exact ⟨x, rfl⟩
      | member object m =>
          have hnotes : Machine.notes (constant.runAugmented (.member object m) op rhs) () = [0, 0] := rfl
          exact absurd (hnotes ▸ hcount 0) (by decide)
      | index object i =>
          have hnotes : Machine.notes (constant.runAugmented (.index object i) op rhs) () =
            [0, 1, 0, 1] := rfl
          exact absurd (hnotes ▸ hcount 0) (by decide)
    · rintro ⟨x, rfl⟩ σ ε V M s
      exact updatedOnce_name M x hop rhs s

/-- A single comparison of a call with a literal, and an update of a name. -/
theorem desugaring_once_single :
    ComparedOnce constant (.callExpr (.identifier ['f']) [] []) [(.lt, .intLiteral 3)] () ∧
      UpdatedOnce constant (.name ['x']) .add (.intLiteral 1) () :=
  have hboth := desugaring_once_iff (.callExpr (.identifier ['f']) [] []) [(.lt, .intLiteral 3)] (.name ['x']) .add
    (.intLiteral 1)
  ⟨(hboth.1 (by decide) (by decide)).mpr rfl _ _ _ _ _, (hboth.2 (by decide)).mpr ⟨['x'], rfl⟩ _ _ _ _ _⟩

/-- `1 < f() < 3`: the call is evaluated twice. -/
theorem middle_operand_twice :
    ¬ ComparedOnce constant (.intLiteral 1)
        [(.lt, .callExpr (.identifier ['f']) [] []), (.lt, .intLiteral 3)] () := by
  rintro ⟨hcount, -⟩
  have hnotes : Machine.notes (constant.runChain (chainOf (.intLiteral 1)
      [(.lt, .callExpr (.identifier ['f']) [] []), (.lt, .intLiteral 3)])) () = [0, 1, 1, 2] := rfl
  exact absurd (hnotes ▸ hcount 1) (by decide)

end Visuall.Ast
