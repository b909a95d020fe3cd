import Visuall.Lexer.Token
import Visuall.Lib.Split

/-!
# The syntax tree

The nodes of `include/ast.h`.  Names, literals and annotations are texts (lists of characters); a
pointer that may be null is an `Option`, an annotation that may be empty is the empty text.  Of the
source positions those are kept that tell the uses of names and the assignments apart.
-/

namespace Visuall.Ast

/-- A text: a name, a literal or an annotation. -/
abbrev Name := List Char

/-- `BinOp`. -/
inductive BinOp
  | add | sub | mul | div | intDiv | mod | pow
  | eq | neq | lt | gt | lte | gte
  | and | or | in | notIn
  | bitAnd | bitOr | bitXor | shl | shr
  | nullCoalesce
  deriving DecidableEq, Repr

/-- `UnaryOp`. -/
inductive UnaryOp
  | neg | not | bitNot
  deriving DecidableEq, Repr

/-- An identifier where it occurs: its name, and the line and column of the node. -/
structure Occurrence where
  name : Name
  pos : Position := ⟨0, 0⟩
  deriving DecidableEq, Repr

instance : Coe Name Occurrence := ⟨fun name => { name }⟩

/-- The expression nodes.  The parts of an `FStringExpr` are literal texts and expressions; the value of
a float is kept as its text. -/
inductive Expr
  | intLiteral (value : ℤ)
  | floatLiteral (value : Name)
  | stringLiteral (value : Name)
  | fstringLiteral (raw : Name)
  | fstringExpr (parts : List (Name ⊕ Expr))
  | boolLiteral (value : Bool)
  | nullLiteral
  | identifier (name : Occurrence)
  | thisExpr
  | superExpr
  | binaryExpr (op : BinOp) (left right : Expr)
  | unaryExpr (op : UnaryOp) (operand : Expr)
  | callExpr (callee : Expr) (args : List Expr) (typeArgs : List Name)
  | memberExpr (object : Expr) (member : Name)
  | indexExpr (object index : Expr)
  | lambdaExpr (params : List Name) (body : Expr)
  | listExpr (elements : List Expr)
  | dictExpr (entries : List (Expr × Expr))
  | tupleExpr (elements : List Expr)
  | ternaryExpr (condition thenExpr elseExpr : Expr)
  | sliceExpr (object : Expr) (start stop step : Option Expr)
  | listComprehension (body : Expr) (var : Name) (iterable : Expr) (condition : Option Expr)
  | dictComprehension (key value : Expr) (var : Name) (iterable : Expr) (condition : Option Expr)
  | spreadExpr (operand : Expr)
  | dictSpreadExpr (operand : Expr)
  | walrusExpr (target : Name) (value : Expr)
  | goExpr (callee : Expr) (args : List Expr)
  | chanRecvExpr (channel : Expr)

/-- `Param`. -/
structure Param where
  name : Name
  typeAnnotation : Name := []
  defaultValue : Option Expr := none
  isVariadic : Bool := false
  isKwargs : Bool := false

/-- `MethodSignature`. -/
structure MethodSignature where
  name : Name
  params : List Param
  returnType : Name

/-- What a `FuncDef` holds besides its body. -/
structure FuncHeader where
  name : Name
  typeParams : List Name := []
  typeParamBounds : List (Name × Name) := []
  params : List Param
  returnType : Name := []
  decorators : List Expr := []
  isExtern : Bool := false
  externLibName : Name := []
  isVariadicCFunc : Bool := false

/-- What a `ClassDef` holds besides its body. -/
structure ClassHeader where
  name : Name
  baseClass : Option Name := none
  extraBases : List Name := []
  interfaces : List Name := []
  typeParams : List Name := []
  typeParamBounds : List (Name × Name) := []

/-- The statement nodes.  A catch clause is its exception type, its variable and its body, a match case its
pattern, its guard and its body. -/
inductive Stmt
  | exprStmt (expr : Expr)
  | assignStmt (target value : Expr) (extraTargets : List Expr) ( typeAnnotation : Name)
      (pos : Position := ⟨0, 0⟩)
  | constStmt (name : Name) (value : Expr) ( typeAnnotation : Name)
  | tupleUnpackStmt (targets : List Name) (value : Expr)
  | returnStmt (value : Option Expr)
  | breakStmt
  | continueStmt
  | passStmt
  | funcDef (header : FuncHeader) (body : List Stmt)
  | initDef (params : List Param) (body : List Stmt)
  | classDef (header : ClassHeader) (body : List Stmt)
  | ifStmt (condition : Expr) (thenBranch : List Stmt) (elsifBranches : List (Expr × List Stmt))
      (elseBranch : List Stmt)
  | forStmt (var : Name) (vars : List Name) (iterable : Expr) (body elseBranch : List Stmt)
  | whileStmt (condition : Expr) (body elseBranch : List Stmt)
  | withStmt (expr : Expr) (asName : Name) (body : List Stmt)
  | tryStmt (tryBody : List Stmt) (catchClauses : List (Name × Name × List Stmt))
      (finallyBody : List Stmt)
  | throwStmt (expr : Option Expr)
  | assertStmt (condition : Expr) (message : Option Expr)
  | delStmt (target : Expr)
  | matchStmt (subject : Expr) (cases : List (Option Expr × Option Expr × List Stmt))
  | importStmt (module : Name)
  | fromImportStmt (module : Name) (names : List Name)
  | interfaceDef (name : Name) (methods : List MethodSignature)
  | enumDef (name : Name) (members : List Name)
  | yieldStmt (value : Option Expr)
  | chanSendStmt (channel value : Expr)

end Visuall.Ast
