import Visuall.Parser.Statements
import Visuall.Lib.Lockstep

/-!
# Trees without positions

Of two token lists with the same types and lexemes, the productions build the same trees, apart from the positions
in them.

* `unplaced` — a tree without positions;
* `Steady` — what the productions call keeps to this;
* `parseExpression_same` — and so do they.
-/

namespace Visuall.Ast

mutual

/-- The tree with the position of every identifier forgotten. -/
def unplaced : Expr → Expr
  | .intLiteral value => .intLiteral value
  | .floatLiteral value => .floatLiteral value
  | .stringLiteral value => .stringLiteral value
  | .fstringLiteral raw => .fstringLiteral raw
  | .fstringExpr parts => .fstringExpr (unplacedParts parts)
  | .boolLiteral value => .boolLiteral value
  | .nullLiteral => .nullLiteral
  | .identifier id => .identifier id.name
  | .thisExpr => .thisExpr
  | .superExpr => .superExpr
  | .binaryExpr op left right => .binaryExpr op (unplaced left) (unplaced right)
  | .unaryExpr op operand => .unaryExpr op (unplaced operand)
  | .callExpr callee args typeArgs => .callExpr (unplaced callee) (unplacedList args) typeArgs
  | .memberExpr object member => .memberExpr (unplaced object) member
  | .indexExpr object index => .indexExpr (unplaced object) (unplaced index)
  | .lambdaExpr params body => .lambdaExpr params (unplaced body)
  | .listExpr elements => .listExpr (unplacedList elements)
  | .dictExpr entries => .dictExpr (unplacedEntries entries)
  | .tupleExpr elements => .tupleExpr (unplacedList elements)
  | .ternaryExpr condition thenExpr elseExpr =>
      .ternaryExpr (unplaced condition) (unplaced thenExpr) (unplaced elseExpr)
  | .sliceExpr object start stop step =>
      .sliceExpr (unplaced object) (unplacedOption start) (unplacedOption stop) (unplacedOption step)
  | .listComprehension body var iterable condition =>
      .listComprehension (unplaced body) var (unplaced iterable) (unplacedOption condition)
  | .dictComprehension key value var iterable condition =>
      .dictComprehension (unplaced key) (unplaced value) var (unplaced iterable) (unplacedOption condition)
  | .spreadExpr operand => .spreadExpr (unplaced operand)
  | .dictSpreadExpr operand => .dictSpreadExpr (unplaced operand)
  | .walrusExpr target value => .walrusExpr target (unplaced value)
  | .goExpr callee args => .goExpr (unplaced callee) (unplacedList args)
  | .chanRecvExpr channel => .chanRecvExpr (unplaced channel)

def unplacedList : List Expr → List Expr
  | [] => []
  | e :: es => unplaced e :: unplacedList es

def unplacedEntries : List (Expr × Expr) → List (Expr × Expr)
  | [] => []
  | (key, value) :: entries => (unplaced key, unplaced value) :: unplacedEntries entries

def unplacedParts : List (Name ⊕ Expr) → List (Name ⊕ Expr)
  | [] => []
  | .inl literal :: parts => .inl literal :: unplacedParts parts
  | .inr e :: parts => .inr (unplaced e) :: unplacedParts parts

def unplacedOption : Option Expr → Option Expr
  | none => none
  | some e => some (unplaced e)

end

/-- The same tree, apart from positions. -/
def Same (e e' : Expr) : Prop := unplaced e = unplaced e'

theorem Same.refl (e : Expr) : Same e e := rfl

theorem unplacedList_same {es es' : List Expr} (h : List.Forall₂ Same es es') : unplacedList es = unplacedList es' := by
  induction h with
  | nil => rfl
  | cons he _ ih => rw [unplacedList, unplacedList, he, ih]

theorem unplacedOption_same {e e' : Option Expr} (h : Option.Rel Same e e') : unplacedOption e = unplacedOption e' := by
  cases h with
  | some h => exact congrArg some h
  | none => rfl

/-- Keys and values that are the same. -/
def SameEntry (p p' : Expr × Expr) : Prop := Same p.1 p'.1 ∧ Same p.2 p'.2

theorem unplacedEntries_same {es es' : List (Expr × Expr)} (h : List.Forall₂ SameEntry es es') :
    unplacedEntries es = unplacedEntries es' := by
  induction h with
  | nil => rfl
  | cons he _ ih => rw [unplacedEntries, unplacedEntries, he.1, he.2, ih]

/-- The parts of a comprehension behind its body. -/
def SameParts (p p' : Name × Expr × Option Expr) : Prop := p.1 = p'.1 ∧ Same p.2.1 p'.2.1 ∧ Option.Rel Same p.2.2 p'.2.2

theorem SameParts.listComprehension {body body' : Expr} {p p' : Name × Expr × Option Expr} (hp : SameParts p p')
    (hbody : Same body body') :
    Same (.listComprehension body p.1 p.2.1 p.2.2) (.listComprehension body' p'.1 p'.2.1 p'.2.2) := by
  unfold Same
  rw [unplaced, unplaced, hbody, hp.1, hp.2.1, unplacedOption_same hp.2.2]

theorem SameParts.dictComprehension {e e' : Expr × Expr} {p p' : Name × Expr × Option Expr} (hp : SameParts p p')
    (he : SameEntry e e') :
    Same (.dictComprehension e.1 e.2 p.1 p.2.1 p.2.2) (.dictComprehension e'.1 e'.2 p'.1 p'.2.1 p'.2.2) := by
  unfold Same
  rw [unplaced, unplaced, he.1, he.2, hp.1, hp.2.1, unplacedOption_same hp.2.2]

mutual

/-- Copies of the same tree are the same. -/
theorem unplaced_cloneExpr : (e : Expr) → unplaced (cloneExpr e) = cloneExpr (unplaced e)
  | .intLiteral _ => rfl
  | .floatLiteral _ => rfl
  | .stringLiteral _ => rfl
  | .fstringLiteral _ => rfl
  | .fstringExpr _ => by simp only [cloneExpr, unplaced]
  | .boolLiteral _ => rfl
  | .nullLiteral => rfl
  | .identifier _ => rfl
  | .thisExpr => rfl
  | .superExpr => rfl
  | .binaryExpr _ left right => by simp only [cloneExpr, unplaced, unplaced_cloneExpr left, unplaced_cloneExpr right]
  | .unaryExpr _ operand => by simp only [cloneExpr, unplaced, unplaced_cloneExpr operand]
  | .callExpr callee args _ => by simp only [cloneExpr, unplaced, unplaced_cloneExpr callee, unplaced_cloneExprs args]
  | .memberExpr object _ => by simp only [cloneExpr, unplaced, unplaced_cloneExpr object]
  | .indexExpr object index => by simp only [cloneExpr, unplaced, unplaced_cloneExpr object, unplaced_cloneExpr index]
  | .lambdaExpr _ body => by simp only [cloneExpr, unplaced, unplaced_cloneExpr body]
  | .listExpr elements => by simp only [cloneExpr, unplaced, unplaced_cloneExprs elements]
  | .dictExpr entries => by simp only [cloneExpr, unplaced, unplaced_cloneEntries entries]
  | .tupleExpr elements => by simp only [cloneExpr, unplaced, unplaced_cloneExprs elements]
  | .ternaryExpr condition thenExpr elseExpr => by
      simp only [cloneExpr, unplaced, unplaced_cloneExpr condition, unplaced_cloneExpr thenExpr,
        unplaced_cloneExpr elseExpr]
  | .sliceExpr object start stop step => by
      simp only [cloneExpr, unplaced, unplaced_cloneExpr object, unplaced_cloneOption start, unplaced_cloneOption stop,
        unplaced_cloneOption step]
  | .listComprehension body _ iterable condition => by
      simp only [cloneExpr, unplaced, unplaced_cloneExpr body, unplaced_cloneExpr iterable,
        unplaced_cloneOption condition]
  | .dictComprehension key value _ iterable condition => by
      simp only [cloneExpr, unplaced, unplaced_cloneExpr key, unplaced_cloneExpr value, unplaced_cloneExpr iterable,
        unplaced_cloneOption condition]
  | .spreadExpr operand => by simp only [cloneExpr, unplaced, unplaced_cloneExpr operand]
  | .dictSpreadExpr operand => by simp only [cloneExpr, unplaced, unplaced_cloneExpr operand]
  | .walrusExpr _ value => by simp only [cloneExpr, unplaced, unplaced_cloneExpr value]
  | .goExpr callee args => by simp only [cloneExpr, unplaced, unplaced_cloneExpr callee, unplaced_cloneExprs args]
  | .chanRecvExpr channel => by simp only [cloneExpr, unplaced, unplaced_cloneExpr channel]

theorem unplaced_cloneExprs : (es : List Expr) → unplacedList (cloneExprs es) = cloneExprs (unplacedList es)
  | [] => rfl
  | e :: es => by simp only [cloneExprs, unplacedList, unplaced_cloneExpr e, unplaced_cloneExprs es]

theorem unplaced_cloneEntries : (entries : List (Expr × Expr)) →
    unplacedEntries (cloneEntries entries) = cloneEntries (unplacedEntries entries)
  | [] => rfl
  | (key, value) :: entries => by
      simp only [cloneEntries, unplacedEntries, unplaced_cloneExpr key, unplaced_cloneExpr value,
        unplaced_cloneEntries entries]

theorem unplaced_cloneOption : (e : Option Expr) → unplacedOption (cloneOption e) = cloneOption (unplacedOption e)
  | none => rfl
  | some e => by simp only [cloneOption, unplacedOption, unplaced_cloneExpr e]

end

theorem Same.clone {e e' : Expr} (h : Same e e') : Same (cloneExpr e) (cloneExpr e') := by
  unfold Same
  rw [unplaced_cloneExpr, unplaced_cloneExpr, h]

theorem Same.binary {op : BinOp} {l l' r r' : Expr} (hl : Same l l') (hr : Same r r') :
    Same (.binaryExpr op l r) (.binaryExpr op l' r') := by
  unfold Same
  rw [unplaced, unplaced, hl, hr]

/-- An operator and what follows it. -/
def SameOperand (p p' : BinOp × Expr) : Prop := p.1 = p'.1 ∧ Same p.2 p'.2

theorem comparisonChain_same {more more' : List (BinOp × Expr)} (h : List.Forall₂ SameOperand more more')
    {result result' left left' : Expr} (hresult : Same result result') (hleft : Same left left') :
    Same (comparisonChain result left more) (comparisonChain result' left' more') := by
  induction h generalizing result result' left left' with
  | nil => exact hresult
  | @cons p p' more more' hp hmore ih =>
      obtain ⟨op, right⟩ := p
      obtain ⟨op', right'⟩ := p'
      obtain ⟨rfl, hright⟩ := hp
      have hempty : more.isEmpty = more'.isEmpty := by cases hmore <;> rfl
      refine ih (hresult.binary (hleft.binary ?_)) hright
      rw [hempty]
      cases more'.isEmpty with
      | true => exact hright
      | false => exact hright.clone

theorem comparisonExpr_same {first first' : Expr} {more more' : List (BinOp × Expr)} (hfirst : Same first first')
    (h : List.Forall₂ SameOperand more more') : Same (comparisonExpr first more) (comparisonExpr first' more') := by
  cases h with
  | nil => exact hfirst
  | @cons p p' more more' hp hmore =>
      obtain ⟨op, second⟩ := p
      obtain ⟨op', second'⟩ := p'
      obtain ⟨rfl, hsecond⟩ := hp
      cases hmore with
      | nil => exact hfirst.binary hsecond
      | cons hq hmore => exact comparisonChain_same (.cons hq hmore) (hfirst.binary hsecond.clone) hsecond

end Visuall.Ast

namespace Visuall.Parser

open Visuall.Ast Visuall.Descent Descent.Parser

/-- Tokens that stand for the same. -/
def SameKind (t t' : Token) : Prop := t.kind = t'.kind

theorem SameKind.type {t t' : Token} (h : SameKind t t') : t.type = t'.type := congrArg Prod.fst h

theorem SameKind.lexeme {t t' : Token} (h : SameKind t t') : t.lexeme = t'.lexeme := congrArg Prod.snd h

theorem sameKind_of_kinds {ts ts' : List Token} (h : ts.map Token.kind = ts'.map Token.kind) :
    List.Forall₂ SameKind ts ts' := by
  have heq : List.Forall₂ Eq (ts.map Token.kind) (ts'.map Token.kind) := by
    rw [List.forall₂_eq_eq_eq, h]
  rw [List.forall₂_map_left_iff, List.forall₂_map_right_iff] at heq
  exact heq

section Helpers

variable {ts ts' : List Token} (h : List.Forall₂ SameKind ts ts') {α : Type}
include h

theorem current_same : Lockstep ts ts' SameKind current current := by
  refine Lockstep.index.bind fun i i' hi => ?_
  subst hi
  exact Lockstep.token h i

theorem previous_same : Lockstep ts ts' SameKind previous previous := by
  refine Lockstep.index.bind fun i i' hi => ?_
  subst hi
  cases i with
  | zero => exact Lockstep.ofExcept .error
  | succ i => exact Lockstep.token h i

theorem isAtEnd_same : Lockstep ts ts' Eq isAtEnd isAtEnd :=
  (current_same h).bind fun _ _ ht => Lockstep.pure (by rw [ht.type])

theorem advance_same : Lockstep ts ts' SameKind advance advance := by
  refine Lockstep.test (isAtEnd_same h) (previous_same h) (Lockstep.index.bind fun i i' hi => ?_)
  subst hi
  exact (Lockstep.moveTo (i + 1)).bind fun _ _ _ => previous_same h

theorem check_same (type : TokenType) : Lockstep ts ts' Eq (check type) (check type) :=
  Lockstep.test (isAtEnd_same h) (Lockstep.pure rfl)
    ((current_same h).bind fun _ _ ht => Lockstep.pure (by rw [ht.type]))

theorem matchToken_same (type : TokenType) : Lockstep ts ts' Eq (matchToken type) (matchToken type) :=
  Lockstep.test (check_same h type) ((advance_same h).bind fun _ _ _ => Lockstep.pure rfl) (Lockstep.pure rfl)

theorem checking_same {R : α → α → Prop} {type : TokenType} {p p' q q' : Parse α} (hp : Lockstep ts ts' R p p')
    (hq : Lockstep ts ts' R q q') :
    Lockstep ts ts' R (do if ← check type then p else q) (do if ← check type then p' else q') :=
  Lockstep.test (check_same h type) hp hq

theorem matching_same {R : α → α → Prop} {type : TokenType} {p p' q q' : Parse α} (hp : Lockstep ts ts' R p p')
    (hq : Lockstep ts ts' R q q') :
    Lockstep ts ts' R (do if ← matchToken type then p else q) (do if ← matchToken type then p' else q') :=
  Lockstep.test (matchToken_same h type) hp hq

theorem matchAny_same (types : List (TokenType × α)) : Lockstep ts ts' Eq (matchAny types) (matchAny types) := by
  induction types with
  | nil => exact Lockstep.pure rfl
  | cons p types ih => exact Lockstep.test (matchToken_same h p.1) (Lockstep.pure rfl) ih

theorem error_same {R : α → α → Prop} {msg msg' : String} : Lockstep ts ts' R (error msg) (error msg') :=
  (current_same h).bind fun _ _ _ => Lockstep.throw _ _

theorem expect_same (type : TokenType) (msg : String) : Lockstep ts ts' SameKind (expect type msg) (expect type msg) :=
  Lockstep.test (check_same h type) (advance_same h) (error_same h)

theorem finish_same {R : α → α → Prop} {node node' : α} (hnode : R node node') :
    Lockstep ts ts' R (finish node) (finish node') :=
  (previous_same h).bind fun _ _ _ => Lockstep.pure hnode

theorem nextIs_same (type : TokenType) : Lockstep ts ts' Eq (nextIs type) (nextIs type) := by
  intro i
  refine ⟨rfl, .ok ?_⟩
  by_cases hi : i + 1 < ts.length
  · have hi' : i + 1 < ts'.length := h.length_eq ▸ hi
    have htype : ts[i + 1].type = ts'[i + 1].type := (h.get hi hi').type
    rw [List.getElem?_eq_getElem hi, List.getElem?_eq_getElem hi', Option.any_some, Option.any_some, htype]
  · have hi' : ¬ i + 1 < ts'.length := h.length_eq ▸ hi
    rw [List.getElem?_eq_none (not_lt.mp hi), List.getElem?_eq_none (not_lt.mp hi')]

omit h in
theorem restore_same (ts ts' : List Token) {R : α → α → Prop} (saved : ℕ) {a a' : α} (ha : R a a') :
    Lockstep ts ts' R (do moveTo saved; return a : Parse α) (do moveTo saved; return a' : Parse α) :=
  (Lockstep.moveTo saved).bind fun _ _ _ => Lockstep.pure ha

/-- A token of a type is taken, or both end early. -/
theorem expecting_same {β : Type} {R : β → β → Prop} {type : TokenType} {msg : String} {f f' : Token → Parse β}
    (hf : ∀ t t', SameKind t t' → Lockstep ts ts' R (f t) (f' t')) :
    Lockstep ts ts' R (expect type msg >>= f) (expect type msg >>= f') :=
  (expect_same h type msg).bind hf

omit h in
theorem rel_snoc {R : α → α → Prop} {l l' : List α} {a a' : α} (hl : List.Forall₂ R l l') (ha : R a a') :
    List.Forall₂ R (l ++ [a]) (l' ++ [a']) := List.rel_append hl (.cons ha .nil)

theorem commaSeparated_same {R : α → α → Prop} {item item' : Parse α} (hitem : Lockstep ts ts' R item item') :
    Lockstep ts ts' (List.Forall₂ R) (commaSeparated item) (commaSeparated item') := by
  refine hitem.bind fun first first' hfirst => ?_
  refine Lockstep.loop (List.Forall₂ R) h.length_eq (.cons hfirst .nil) fun items items' hitems => ?_
  refine matching_same h ?_ (Lockstep.pure (.done hitems))
  exact hitem.bind fun _ _ hnext => Lockstep.pure (.again (rel_snoc hitems hnext))

theorem parseMore_same {R : α → α → Prop} {item item' : Parse α} (close : TokenType) {first first' : α}
    (hitem : Lockstep ts ts' R item item') (hfirst : R first first') :
    Lockstep ts ts' (List.Forall₂ R) (parseMore item close first) (parseMore item' close first') := by
  refine Lockstep.loop (List.Forall₂ R) h.length_eq (.cons hfirst .nil) fun items items' hitems => ?_
  refine matching_same h ?_ (Lockstep.pure (.done hitems))
  refine checking_same h (Lockstep.pure (.done hitems)) ?_
  exact hitem.bind fun _ _ hnext => Lockstep.pure (.again (rel_snoc hitems hnext))

end Helpers

/-- What productions call builds the same trees. -/
structure Steady (ts ts' : List Token) (N : Nested) : Prop where
  expression : Lockstep ts ts' Same N.expression N.expression
  orExpr : Lockstep ts ts' Same N.orExpr N.orExpr
  notExpr : Lockstep ts ts' Same N.notExpr N.notExpr
  unary : Lockstep ts ts' Same N.unary N.unary

section Productions

variable {ts ts' : List Token} {N : Nested} (h : List.Forall₂ SameKind ts ts') (hN : Steady ts ts' N)
include h hN

theorem parseArguments_same : Lockstep ts ts' (List.Forall₂ Same) (parseArguments N) (parseArguments N) := by
  refine checking_same h (expecting_same h fun _ _ _ => Lockstep.pure .nil) ?_
  refine (commaSeparated_same h hN.expression).bind fun args args' hargs => ?_
  exact expecting_same h fun _ _ _ => Lockstep.pure hargs

theorem parseComprehension_same (close : TokenType) (msg : String) :
    Lockstep ts ts' SameParts (parseComprehension N close msg) (parseComprehension N close msg) := by
  refine (advance_same h).bind fun _ _ _ => ?_
  refine expecting_same h fun var var' hvar => expecting_same h fun _ _ _ => ?_
  refine hN.orExpr.bind fun iterable iterable' hiterable => ?_
  refine matching_same h ?_ ?_
  · refine hN.orExpr.bind fun condition condition' hcondition => ?_
    exact expecting_same h fun _ _ _ => Lockstep.pure ⟨hvar.lexeme, hiterable, .some hcondition⟩
  · exact expecting_same h fun _ _ _ => Lockstep.pure ⟨hvar.lexeme, hiterable, .none⟩

theorem parseParenthesized_same : Lockstep ts ts' Same (parseParenthesized N) (parseParenthesized N) := by
  refine matching_same h (finish_same h rfl) ?_
  refine hN.expression.bind fun first first' hfirst => ?_
  refine matching_same h ?_ (expecting_same h fun _ _ _ => Lockstep.pure hfirst)
  refine checking_same h ?_ ?_
  · refine expecting_same h fun _ _ _ => finish_same h ?_
    exact congrArg Expr.tupleExpr (unplacedList_same (.cons hfirst .nil))
  · refine (commaSeparated_same h hN.expression).bind fun elements elements' helements => ?_
    refine expecting_same h fun _ _ _ => finish_same h ?_
    exact congrArg Expr.tupleExpr (unplacedList_same (.cons hfirst helements))

theorem parseList_same : Lockstep ts ts' Same (parseList N) (parseList N) := by
  refine checking_same h ((advance_same h).bind fun _ _ _ => finish_same h rfl) ?_
  refine hN.expression.bind fun first first' hfirst => ?_
  refine checking_same h ?_ ?_
  · refine (parseComprehension_same h hN _ _).bind fun p p' hp => ?_
    exact finish_same h (hp.listComprehension hfirst)
  · refine (parseMore_same h _ hN.expression hfirst).bind fun elements elements' helements => ?_
    refine expecting_same h fun _ _ _ => finish_same h ?_
    exact congrArg Expr.listExpr (unplacedList_same helements)

theorem parseEntry_same : Lockstep ts ts' SameEntry (parseEntry N) (parseEntry N) := by
  refine hN.expression.bind fun key key' hkey => expecting_same h fun _ _ _ => ?_
  exact hN.expression.bind fun value value' hvalue => Lockstep.pure ⟨hkey, hvalue⟩

theorem parseDict_same : Lockstep ts ts' Same (parseDict N) (parseDict N) := by
  refine checking_same h ((advance_same h).bind fun _ _ _ => finish_same h rfl) ?_
  refine (parseEntry_same h hN).bind fun first first' hfirst => ?_
  refine checking_same h ?_ ?_
  · refine (parseComprehension_same h hN _ _).bind fun p p' hp => ?_
    exact finish_same h (hp.dictComprehension hfirst)
  · refine (parseMore_same h _ (parseEntry_same h hN) hfirst).bind fun entries entries' hentries => ?_
    refine expecting_same h fun _ _ _ => finish_same h ?_
    exact congrArg Expr.dictExpr (unplacedEntries_same hentries)

theorem parsePrimary_same : Lockstep ts ts' Same (parsePrimary N) (parsePrimary N) := by
  refine (current_same h).bind fun tok tok' htok => ?_
  refine matching_same h ?_ ?_
  · refine (previous_same h).bind fun t t' ht => ?_
    rw [ht.lexeme]
    cases stoll t'.lexeme with
    | ok value => exact finish_same h rfl
    | error e => cases e <;> exact Lockstep.throw _ _
  refine matching_same h ?_ ?_
  · refine (previous_same h).bind fun t t' ht => ?_
    rw [ht.lexeme]
    cases N.stod t'.lexeme with
    | none => exact finish_same h rfl
    | some e => cases e <;> exact Lockstep.throw _ _
  refine matching_same h ?_ ?_
  · refine (previous_same h).bind fun t t' ht => ?_
    rw [ht.lexeme]
    exact finish_same h rfl
  refine matching_same h ?_ ?_
  · refine (previous_same h).bind fun t t' ht => ?_
    rw [ht.lexeme]
    refine Lockstep.bind (R := Same) (Lockstep.ofExcept ?_) fun e e' he => finish_same h he
    cases parseFString N t'.lexeme with
    | ok e => exact .ok rfl
    | error e => exact .error
  refine matching_same h ?_ ?_
  · refine (previous_same h).bind fun t t' ht => ?_
    rw [ht.lexeme]
    exact finish_same h rfl
  refine matching_same h (finish_same h rfl) ?_
  refine matching_same h ?_ ?_
  · exact hN.unary.bind fun e e' he => finish_same h (congrArg Expr.spreadExpr he)
  refine matching_same h ?_ ?_
  · exact hN.unary.bind fun e e' he => finish_same h (congrArg Expr.dictSpreadExpr he)
  refine matching_same h (finish_same h rfl) ?_
  refine matching_same h (finish_same h rfl) ?_
  refine matching_same h ?_ ?_
  · refine (previous_same h).bind fun t t' ht => ?_
    rw [ht.lexeme]
    exact finish_same h rfl
  refine matching_same h (parseParenthesized_same h hN) ?_
  refine matching_same h (parseList_same h hN) ?_
  refine matching_same h (parseDict_same h hN) ?_
  exact (current_same h).bind fun _ _ _ => error_same h

omit hN in
theorem parseTypeArgs_same (first : Name) : Lockstep ts ts' Eq (parseTypeArgs first) (parseTypeArgs first) := by
  refine Lockstep.loop Eq h.length_eq rfl fun typeArgs typeArgs' htypeArgs => ?_
  subst htypeArgs
  refine matching_same h ?_ (Lockstep.pure (.done rfl))
  refine checking_same h ?_ (Lockstep.pure (.done rfl))
  exact (advance_same h).bind fun next next' hnext => Lockstep.pure (.again (by rw [hnext.lexeme]))

/-- The type arguments and the arguments of a generic call. -/
def SameCall (p p' : List Name × List Expr) : Prop := p.1 = p'.1 ∧ List.Forall₂ Same p.2 p'.2

theorem parseGenericCall_same : Lockstep ts ts' (Option.Rel SameCall) (parseGenericCall N) (parseGenericCall N) := by
  refine Lockstep.index.bind fun saved saved' hsaved => ?_
  subst hsaved
  have hback := restore_same ts ts' (R := Option.Rel SameCall) saved .none
  refine (advance_same h).bind fun _ _ _ => checking_same h ?_ hback
  refine (advance_same h).bind fun first first' hfirst => ?_
  rw [hfirst.lexeme]
  refine (parseTypeArgs_same h _).bind fun p p' hp => ?_
  subst hp
  refine Lockstep.ite ?_ hback
  refine matching_same h (checking_same h ?_ hback) hback
  refine (advance_same h).bind fun _ _ _ => ?_
  exact (parseArguments_same h hN).bind fun args args' hargs => Lockstep.pure (.some ⟨rfl, hargs⟩)

theorem parseBound_same (ends : List TokenType) :
    Lockstep ts ts' (Option.Rel Same) (parseBound N ends) (parseBound N ends) := by
  refine (current_same h).bind fun tok tok' htok => ?_
  rw [htok.type]
  exact Lockstep.ite (Lockstep.pure .none) (hN.expression.bind fun e e' he => Lockstep.pure (.some he))

theorem parseIndex_same {expr expr' : Expr} (hexpr : Same expr expr') :
    Lockstep ts ts' Same (parseIndex N expr) (parseIndex N expr') := by
  have hslice : ∀ {start start' stop stop' step step' : Option Expr}, Option.Rel Same start start' →
      Option.Rel Same stop stop' → Option.Rel Same step step' →
      Same (.sliceExpr expr start stop step) (.sliceExpr expr' start' stop' step') := by
    intro start start' stop stop' step step' hstart hstop hstep
    unfold Same
    rw [unplaced, unplaced, hexpr, unplacedOption_same hstart, unplacedOption_same hstop, unplacedOption_same hstep]
  refine (previous_same h).bind fun _ _ _ => ?_
  refine (parseBound_same h hN _).bind fun start start' hstart => ?_
  refine checking_same h ?_ ?_
  · refine (advance_same h).bind fun _ _ _ => ?_
    refine (parseBound_same h hN _).bind fun stop stop' hstop => ?_
    refine matching_same h ?_ ?_
    · refine (parseBound_same h hN _).bind fun step step' hstep => ?_
      exact expecting_same h fun _ _ _ => Lockstep.pure (hslice hstart hstop hstep)
    · exact expecting_same h fun _ _ _ => Lockstep.pure (hslice hstart hstop .none)
  · cases hstart with
    | none => exact error_same h
    | some hstart =>
      refine expecting_same h fun _ _ _ => Lockstep.pure ?_
      unfold Same
      rw [unplaced, unplaced, hexpr, hstart]

omit hN in
theorem parseMember_same : Lockstep ts ts' Eq parseMember parseMember :=
  matching_same h (Lockstep.pure rfl) (expecting_same h fun _ _ ht => Lockstep.pure ht.lexeme)

theorem parsePostfix_same : Lockstep ts ts' Same (parsePostfix N) (parsePostfix N) := by
  have hcall : ∀ {e e' : Expr} {args args' : List Expr} (typeArgs : List Name), Same e e' → List.Forall₂ Same args args' →
      Same (.callExpr e args typeArgs) (.callExpr e' args' typeArgs) := by
    intro e e' args args' typeArgs he hargs
    unfold Same
    rw [unplaced, unplaced, he, unplacedList_same hargs]
  refine (parsePrimary_same h hN).bind fun expr expr' hexpr => ?_
  refine Lockstep.loop Same h.length_eq hexpr fun e e' he => ?_
  refine matching_same h ?_ ?_
  · exact (parseArguments_same h hN).bind fun args args' hargs => Lockstep.pure (.again (hcall [] he hargs))
  refine matching_same h ?_ ?_
  · refine (parseMember_same h).bind fun member member' hmember => ?_
    subst hmember
    exact Lockstep.pure (.again (congrArg (Expr.memberExpr · member) he))
  refine checking_same h ?_ ?_
  · refine (parseGenericCall_same h hN).bind fun r r' hr => ?_
    cases hr with
    | none => exact Lockstep.pure (.done he)
    | @some p p' hp =>
      obtain ⟨typeArgs, args⟩ := p
      obtain ⟨typeArgs', args'⟩ := p'
      obtain ⟨rfl, hargs⟩ := hp
      exact Lockstep.pure (.again (hcall typeArgs he hargs))
  refine matching_same h ?_ (Lockstep.pure (.done he))
  exact (parseIndex_same h hN he).bind fun _ _ hnext => Lockstep.pure (.again hnext)

theorem parsePower_same : Lockstep ts ts' Same (parsePower N) (parsePower N) := by
  refine (parsePostfix_same h hN).bind fun base base' hbase => ?_
  refine matching_same h ?_ (Lockstep.pure hbase)
  exact hN.unary.bind fun e e' he => Lockstep.pure (hbase.binary he)

theorem parseUnary_same : Lockstep ts ts' Same (parseUnary N) (parseUnary N) := by
  refine matching_same h ?_ ?_
  · exact hN.unary.bind fun e e' he => Lockstep.pure (congrArg (Expr.unaryExpr .neg) he)
  refine matching_same h ?_ ?_
  · exact hN.unary.bind fun e e' he => Lockstep.pure (congrArg (Expr.unaryExpr .bitNot) he)
  refine matching_same h ?_ (parsePower_same h hN)
  exact hN.unary.bind fun e e' he => Lockstep.pure (congrArg Expr.chanRecvExpr he)

omit hN in
theorem parseBinary_same (ops : List (TokenType × BinOp)) {operand : Parse Expr}
    (hoperand : Lockstep ts ts' Same operand operand) :
    Lockstep ts ts' Same (parseBinary ops operand) (parseBinary ops operand) := by
  refine hoperand.bind fun left left' hleft => ?_
  refine Lockstep.loop Same h.length_eq hleft fun l l' hl => ?_
  refine (matchAny_same h ops).bind fun r r' hr => ?_
  subst hr
  cases r with
  | none => exact Lockstep.pure (.done hl)
  | some op => exact hoperand.bind fun right right' hright => Lockstep.pure (.again (hl.binary hright))

omit hN in
theorem tryMatchCompOp_same : Lockstep ts ts' Eq tryMatchCompOp tryMatchCompOp := by
  refine (matchAny_same h _).bind fun r r' hr => ?_
  subst hr
  cases r with
  | some op => exact Lockstep.pure rfl
  | none =>
    refine checking_same h (Lockstep.test (nextIs_same h _) ?_ (Lockstep.pure rfl)) (Lockstep.pure rfl)
    exact (advance_same h).bind fun _ _ _ => (advance_same h).bind fun _ _ _ => Lockstep.pure rfl

theorem parseAddSub_same : Lockstep ts ts' Same (parseAddSub N) (parseAddSub N) :=
  parseBinary_same h _ (parseBinary_same h _ (parseUnary_same h hN))

theorem parseComparison_same : Lockstep ts ts' Same (parseComparison N) (parseComparison N) := by
  refine (parseAddSub_same h hN).bind fun first first' hfirst => ?_
  refine Lockstep.bind (R := List.Forall₂ SameOperand) ?_ fun more more' hmore =>
    Lockstep.pure (comparisonExpr_same hfirst hmore)
  refine Lockstep.loop (List.Forall₂ SameOperand) h.length_eq .nil fun more more' hmore => ?_
  refine (tryMatchCompOp_same h).bind fun r r' hr => ?_
  subst hr
  cases r with
  | none => exact Lockstep.pure (.done hmore)
  | some op =>
    exact (parseAddSub_same h hN).bind fun right right' hright => Lockstep.pure (.again (rel_snoc hmore ⟨rfl, hright⟩))

theorem parseBitOr_same : Lockstep ts ts' Same (parseBitOr N) (parseBitOr N) :=
  parseBinary_same h _ (parseBinary_same h _ (parseBinary_same h _ (parseBinary_same h _ (parseComparison_same h hN))))

theorem parseNot_same : Lockstep ts ts' Same (parseNot N) (parseNot N) := by
  refine matching_same h ?_ (parseBitOr_same h hN)
  exact hN.notExpr.bind fun e e' he => Lockstep.pure (congrArg (Expr.unaryExpr .not) he)

theorem parseOr_same : Lockstep ts ts' Same (parseOr N) (parseOr N) :=
  parseBinary_same h _ (parseBinary_same h _ (parseNot_same h hN))

theorem parseNullCoalesce_same : Lockstep ts ts' Same (parseNullCoalesce N) (parseNullCoalesce N) := by
  refine (parseOr_same h hN).bind fun left left' hleft => ?_
  refine Lockstep.loop Same h.length_eq hleft fun l l' hl => ?_
  refine matching_same h ?_ (Lockstep.pure (.done hl))
  refine (parseOr_same h hN).bind fun right right' hright => ?_
  exact (finish_same h (hl.binary hright)).bind fun node node' hnode => Lockstep.pure (.again hnode)

theorem parseTernary_same : Lockstep ts ts' Same (parseTernary N) (parseTernary N) := by
  refine (parseNullCoalesce_same h hN).bind fun expr expr' hexpr => ?_
  refine matching_same h ?_ (Lockstep.pure hexpr)
  refine (parseNullCoalesce_same h hN).bind fun _ _ _ => expecting_same h fun _ _ _ => ?_
  exact (parseNullCoalesce_same h hN).bind fun _ _ _ => Lockstep.throw _ _

/-- **The same tree of the same tokens**, apart from positions. -/
theorem parseExpression_same : Lockstep ts ts' Same (parseExpression N) (parseExpression N) := by
  refine checking_same h ?_ (parseTernary_same h hN)
  refine Lockstep.index.bind fun saved saved' hsaved => ?_
  subst hsaved
  refine (advance_same h).bind fun param param' hparam => ?_
  rw [hparam.lexeme]
  refine matching_same h ?_ ?_
  · exact hN.expression.bind fun e e' he => Lockstep.pure (congrArg (Expr.lambdaExpr [param'.lexeme]) he)
  refine matching_same h ?_ ?_
  · exact hN.expression.bind fun e e' he => finish_same h (congrArg (Expr.walrusExpr param'.lexeme) he)
  exact (Lockstep.moveTo saved).bind fun _ _ _ => parseTernary_same h hN

end Productions

/-- The ties keep to it. -/
theorem nested_steady {ts ts' : List Token} (h : List.Forall₂ SameKind ts ts') (stod : Name → Option NumberError)
    (interpolation : Name → Except (Halt Thrown) Expr) (n : ℕ) : Steady ts ts' (nested stod interpolation n) := by
  induction n with
  | zero => exact ⟨Lockstep.ofExcept .error, Lockstep.ofExcept .error, Lockstep.ofExcept .error, Lockstep.ofExcept .error⟩
  | succ n ih => exact ⟨parseExpression_same h ih, parseOr_same h ih, parseNot_same h ih, parseUnary_same h ih⟩

end Visuall.Parser
