import Visuall.Parser.Statements

/-!
# What `cloneExpr` copies

`cloneExpr` has a case for each class of nodes but `FStringExpr`, and the case of `CallExpr` leaves the type arguments
out.

* `nodes`, `Copied` — the nodes of a tree, and what is copied of a single node;
* `cloneExpr_iff` — when a copy is the tree it was made of;
* `cloneExpr_cloneExpr` — a copy of a copy is always.
-/

namespace Visuall.Ast

mutual

/-- The nodes of a tree, from the outside in. -/
def nodes : Expr → List Expr
  | .intLiteral value => [.intLiteral value]
  | .floatLiteral value => [.floatLiteral value]
  | .stringLiteral value => [.stringLiteral value]
  | .fstringLiteral raw => [.fstringLiteral raw]
  | .fstringExpr parts => .fstringExpr parts :: nodesOfParts parts
  | .boolLiteral value => [.boolLiteral value]
  | .nullLiteral => [.nullLiteral]
  | .identifier name => [.identifier name]
  | .thisExpr => [.thisExpr]
  | .superExpr => [.superExpr]
  | .binaryExpr op left right => .binaryExpr op left right :: (nodes left ++ nodes right)
  | .unaryExpr op operand => .unaryExpr op operand :: nodes operand
  | .callExpr callee args typeArgs => .callExpr callee args typeArgs :: (nodes callee ++ nodesOfList args)
  | .memberExpr object member => .memberExpr object member :: nodes object
  | .indexExpr object index => .indexExpr object index :: (nodes object ++ nodes index)
  | .lambdaExpr params body => .lambdaExpr params body :: nodes body
  | .listExpr elements => .listExpr elements :: nodesOfList elements
  | .dictExpr entries => .dictExpr entries :: nodesOfEntries entries
  | .tupleExpr elements => .tupleExpr elements :: nodesOfList elements
  | .ternaryExpr condition thenExpr elseExpr =>
      .ternaryExpr condition thenExpr elseExpr :: (nodes condition ++ nodes thenExpr ++ nodes elseExpr)
  | .sliceExpr object start stop step =>
      .sliceExpr object start stop step ::
        (nodes object ++ nodesOfOption start ++ nodesOfOption stop ++ nodesOfOption step)
  | .listComprehension body var iterable condition =>
      .listComprehension body var iterable condition :: (nodes body ++ nodes iterable ++ nodesOfOption condition)
  | .dictComprehension key value var iterable condition =>
      .dictComprehension key value var iterable condition ::
        (nodes key ++ nodes value ++ nodes iterable ++ nodesOfOption condition)
  | .spreadExpr operand => .spreadExpr operand :: nodes operand
  | .dictSpreadExpr operand => .dictSpreadExpr operand :: nodes operand
  | .walrusExpr target value => .walrusExpr target value :: nodes value
  | .goExpr callee args => .goExpr callee args :: (nodes callee ++ nodesOfList args)
  | .chanRecvExpr channel => .chanRecvExpr channel :: nodes channel

def nodesOfList : List Expr → List Expr
  | [] => []
  | e :: es => nodes e ++ nodesOfList es

def nodesOfEntries : List (Expr × Expr) → List Expr
  | [] => []
  | (key, value) :: entries => nodes key ++ nodes value ++ nodesOfEntries entries

def nodesOfParts : List (Name ⊕ Expr) → List Expr
  | [] => []
  | .inl _ :: parts => nodesOfParts parts
  | .inr e :: parts => nodes e ++ nodesOfParts parts

def nodesOfOption : Option Expr → List Expr
  | none => []
  | some e => nodes e

end

/-- A node with a case in `cloneExpr` that copies all there is beside its children. -/
def Copied : Expr → Prop
  | .fstringExpr _ => False
  | .callExpr _ _ typeArgs => typeArgs = []
  | _ => True

/-- Nodes that are all copied. -/
def CopiedAll (es : List Expr) : Prop := ∀ n ∈ es, Copied n

@[simp] theorem copiedAll_nil : CopiedAll [] := fun _ h => absurd h List.not_mem_nil

@[simp] theorem copiedAll_cons {e : Expr} {es : List Expr} : CopiedAll (e :: es) ↔ Copied e ∧ CopiedAll es :=
  List.forall_mem_cons

@[simp] theorem copiedAll_append {es fs : List Expr} : CopiedAll (es ++ fs) ↔ CopiedAll es ∧ CopiedAll fs :=
  List.forall_mem_append

mutual

theorem cloneExpr_eq : (e : Expr) → (cloneExpr e = e ↔ CopiedAll (nodes e))
  | .intLiteral _ => by simp [cloneExpr, nodes, Copied]
  | .floatLiteral _ => by simp [cloneExpr, nodes, Copied]
  | .stringLiteral _ => by simp [cloneExpr, nodes, Copied]
  | .fstringLiteral _ => by simp [cloneExpr, nodes, Copied]
  | .fstringExpr _ => by simp [cloneExpr, nodes, Copied]
  | .boolLiteral _ => by simp [cloneExpr, nodes, Copied]
  | .nullLiteral => by simp [cloneExpr, nodes, Copied]
  | .identifier _ => by simp [cloneExpr, nodes, Copied]
  | .thisExpr => by simp [cloneExpr, nodes, Copied]
  | .superExpr => by simp [cloneExpr, nodes, Copied]
  | .binaryExpr _ left right => by simp [cloneExpr, nodes, Copied, cloneExpr_eq left, cloneExpr_eq right]
  | .unaryExpr _ operand => by simp [cloneExpr, nodes, Copied, cloneExpr_eq operand]
  | .callExpr callee args typeArgs => by
      simp [cloneExpr, nodes, Copied, cloneExpr_eq callee, cloneExprs_eq args]
      tauto
  | .memberExpr object _ => by simp [cloneExpr, nodes, Copied, cloneExpr_eq object]
  | .indexExpr object index => by simp [cloneExpr, nodes, Copied, cloneExpr_eq object, cloneExpr_eq index]
  | .lambdaExpr _ body => by simp [cloneExpr, nodes, Copied, cloneExpr_eq body]
  | .listExpr elements => by simp [cloneExpr, nodes, Copied, cloneExprs_eq elements]
  | .dictExpr entries => by simp [cloneExpr, nodes, Copied, cloneEntries_eq entries]
  | .tupleExpr elements => by simp [cloneExpr, nodes, Copied, cloneExprs_eq elements]
  | .ternaryExpr condition thenExpr elseExpr => by
      simp [cloneExpr, nodes, Copied, cloneExpr_eq condition, cloneExpr_eq thenExpr, cloneExpr_eq elseExpr]
  | .sliceExpr object start stop step => by
      simp [cloneExpr, nodes, Copied, cloneExpr_eq object, cloneOption_eq start, cloneOption_eq stop,
        cloneOption_eq step]
  | .listComprehension body _ iterable condition => by
      simp [cloneExpr, nodes, Copied, cloneExpr_eq body, cloneExpr_eq iterable, cloneOption_eq condition]
  | .dictComprehension key value _ iterable condition => by
      simp [cloneExpr, nodes, Copied, cloneExpr_eq key, cloneExpr_eq value, cloneExpr_eq iterable,
        cloneOption_eq condition]
  | .spreadExpr operand => by simp [cloneExpr, nodes, Copied, cloneExpr_eq operand]
  | .dictSpreadExpr operand => by simp [cloneExpr, nodes, Copied, cloneExpr_eq operand]
  | .walrusExpr _ value => by simp [cloneExpr, nodes, Copied, cloneExpr_eq value]
  | .goExpr callee args => by simp [cloneExpr, nodes, Copied, cloneExpr_eq callee, cloneExprs_eq args]
  | .chanRecvExpr channel => by simp [cloneExpr, nodes, Copied, cloneExpr_eq channel]

theorem cloneExprs_eq : (es : List Expr) → (cloneExprs es = es ↔ CopiedAll (nodesOfList es))
  | [] => by simp [cloneExprs, nodesOfList]
  | e :: es => by simp [cloneExprs, nodesOfList, cloneExpr_eq e, cloneExprs_eq es]

theorem cloneEntries_eq : (entries : List (Expr × Expr)) →
    (cloneEntries entries = entries ↔ CopiedAll (nodesOfEntries entries))
  | [] => by simp [cloneEntries, nodesOfEntries]
  | (key, value) :: entries => by
      simp [cloneEntries, nodesOfEntries, cloneExpr_eq key, cloneExpr_eq value, cloneEntries_eq entries, and_assoc]

theorem cloneOption_eq : (e : Option Expr) → (cloneOption e = e ↔ CopiedAll (nodesOfOption e))
  | none => by simp [cloneOption, nodesOfOption]
  | some e => by simp [cloneOption, nodesOfOption, cloneExpr_eq e]

end

/-- **When a copy is faithful**: when no node of the tree is an `FStringExpr` or a call with type arguments. -/
theorem cloneExpr_iff (e : Expr) : cloneExpr e = e ↔ ∀ n ∈ nodes e, Copied n := cloneExpr_eq e

/-- `identity<int>(42)` is parsed to a call with a type argument; its copy has none. -/
theorem generic_call_loses :
    ∃ e, (Parser.run (fun _ => none) "" [⟨.identifier, "identity".toList, ⟨1, 1⟩⟩, ⟨.lt, "<".toList, ⟨1, 9⟩⟩,
        ⟨.identifier, "int".toList, ⟨1, 10⟩⟩, ⟨.gt, ">".toList, ⟨1, 13⟩⟩, ⟨.lparen, "(".toList, ⟨1, 14⟩⟩,
        ⟨.intLiteral, "42".toList, ⟨1, 15⟩⟩, ⟨.rparen, ")".toList, ⟨1, 17⟩⟩, ⟨.endOfFile, [], ⟨1, 18⟩⟩]).map
          Parser.ParseRun.result = .ok (.ok [.exprStmt e]) ∧ cloneExpr e ≠ e := by
  refine ⟨.callExpr (.identifier ⟨"identity".toList, ⟨1, 1⟩⟩) [.intLiteral 42] ["int".toList], rfl, ?_⟩
  rw [cloneExpr]
  intro h
  injection h with _ _ htypes
  exact List.cons_ne_nil _ _ htypes.symm

end Visuall.Ast
