import Visuall.Checker.Expressions

/-!
# What a program does with names

The uses and the bindings of names, in the order in which a program comes by them, with the blocks that
are scopes of their own.  This is stated over the syntax, whatever the checker makes of it; the parts
that its visitors do not go into are marked.

* `NameAct`, `exprNames`, `stmtNames`, `programNames` — what there is in a program;
* `Env`, `Moment`, `moments` — each of it with the bindings in whose scope it stands.
-/

namespace Visuall.Checker

open Visuall.Ast

/-- What is done with a name.  `assign` is an assignment to it, with what its value does: the name is bound
unless it is in scope.  `rebind` is the target of another form that gives a name a new value in the
innermost scope, `bind` any other binding there. -/
inductive NameAct
  | use (name : Occurrence)
  | this
  | bind (name : Name)
  | rebind (name : Name)
  | assign (name : Name) (pos : Position) (value : List NameAct)
  | const (name : Name)
  | del (name : Name)
  /-- A block, whose bindings end with it. -/
  | scope (body : List NameAct)
  /-- A part that no visitor goes into. -/
  | skipped (body : List NameAct)
  /-- The value of a send, which is not checked unless the channel is one. -/
  | sent (body : List NameAct)

namespace NameAct

mutual

/-- The names bound in the scope where an act stands. -/
def binds : NameAct → List Name
  | .bind name | .rebind name | .const name => [name]
  | .assign name _ value => bindsAll value ++ [name]
  | .skipped body | .sent body => bindsAll body
  | .use _ | .this | .del _ | .scope _ => []

/-- The names bound by several acts. -/
def bindsAll : List NameAct → List Name
  | [] => []
  | a :: as => binds a ++ bindsAll as

end

end NameAct

/-! ## Programs -/

section Syntax

mutual

/-- The names of an expression. -/
def exprNames : Expr → List NameAct
  | .intLiteral _ | .floatLiteral _ | .stringLiteral _ | .fstringLiteral _ => []
  | .fstringExpr parts => [.skipped (partsNames parts)]
  | .boolLiteral _ | .nullLiteral => []
  | .identifier name => [.use name]
  | .thisExpr => [.this]
  | .superExpr => []
  | .binaryExpr _ left right => exprNames left ++ exprNames right
  | .unaryExpr _ operand => exprNames operand
  | .callExpr callee args _ =>
      match builtinCall callee with
      -- The second argument of `isinstance` is the name of a type.
      | some .isinstance => firstNames args
      | some .makeChan => firstNames args ++ [.skipped (restNames args)]
      | some _ => exprsNames args
      | none => exprNames callee ++ exprsNames args
  | .memberExpr object _ => exprNames object
  | .indexExpr object index => exprNames object ++ exprNames index
  | .lambdaExpr params body => [.scope (params.map .bind ++ exprNames body)]
  | .listExpr elements => exprsNames elements
  | .dictExpr entries => entriesNames entries
  | .tupleExpr elements => exprsNames elements
  | .ternaryExpr condition thenExpr elseExpr =>
      exprNames condition ++ (exprNames thenExpr ++ exprNames elseExpr)
  | .sliceExpr object start stop step =>
      exprNames object ++ (optionNames start ++ (optionNames stop ++ optionNames step))
  | .listComprehension body var iterable condition =>
      exprNames iterable ++ [.scope (.bind var :: (optionNames condition ++ exprNames body))]
  | .dictComprehension key value var iterable condition =>
      exprNames iterable ++
        [.scope (.bind var :: (optionNames condition ++ (exprNames key ++ exprNames value)))]
  | .spreadExpr operand => exprNames operand
  | .dictSpreadExpr operand => exprNames operand
  | .walrusExpr target value => exprNames value ++ [.rebind target]
  | .goExpr callee args => exprNames callee ++ exprsNames args
  | .chanRecvExpr channel => exprNames channel

/-- The names of the expressions of a list. -/
def exprsNames : List Expr → List NameAct
  | [] => []
  | e :: es => exprNames e ++ exprsNames es

/-- The names of the first expression of a list. -/
def firstNames : List Expr → List NameAct
  | [] => []
  | e :: _ => exprNames e

/-- The names of the other expressions of a list. -/
def restNames : List Expr → List NameAct
  | [] => []
  | _ :: es => exprsNames es

/-- The names of the parts of an f-string. -/
def partsNames : List (Name ⊕ Expr) → List NameAct
  | [] => []
  | .inl _ :: parts => partsNames parts
  | .inr e :: parts => exprNames e ++ partsNames parts

/-- The names of the entries of a dictionary. -/
def entriesNames : List (Expr × Expr) → List NameAct
  | [] => []
  | (key, value) :: entries => exprNames key ++ (exprNames value ++ entriesNames entries)

/-- The names behind a pointer that may be null. -/
def optionNames : Option Expr → List NameAct
  | none => []
  | some e => exprNames e

end

/-- An assignment to a target, with what its value does. -/
def assignNames (pos : Position) (value : List NameAct) : Expr → List NameAct
  | .identifier name => [.assign name.name pos value]
  | target => value ++ exprNames target

/-- The target of a `del`. -/
def delNames : Expr → List NameAct
  | .identifier name => [.use name, .del name.name]
  | target => exprNames target

/-- The parameters of a function, each behind its default value. -/
def paramsNames (params : List Param) : List NameAct :=
  params.flatMap fun p => optionNames p.defaultValue ++ [.bind p.name]

/-- A name that may be left out. -/
def bindUnlessEmpty (name : Name) : List NameAct := if name = [] then [] else [.bind name]

/-- The names an enum declares. -/
def enumNames (name : Name) (members : List Name) : List Name :=
  name :: members.map fun m => name ++ "_".toList ++ m

mutual

/-- The names of a statement. -/
def stmtNames : Stmt → List NameAct
  | .exprStmt expr => exprNames expr
  | .assignStmt target value extraTargets _ pos =>
      assignNames pos (exprNames value) target ++
        [.skipped (extraTargets.flatMap (assignNames pos []))]
  | .constStmt name value _ => exprNames value ++ [.const name]
  | .tupleUnpackStmt targets value => exprNames value ++ targets.map .rebind
  | .returnStmt value => optionNames value
  | .breakStmt | .continueStmt | .passStmt => []
  | .funcDef h body =>
      if h.isExtern then [.skipped [.scope (paramsNames h.params)]]
      else [.scope (h.typeParams.map .bind ++ (paramsNames h.params ++ stmtsNames body))]
  | .initDef params body => [.scope (paramsNames params ++ stmtsNames body)]
  | .classDef h body =>
      [.scope (.bind "this".toList :: (h.typeParams.map .bind ++
        ((h.baseClass.elim [] fun _ => [.bind "super".toList]) ++ stmtsNames body)))]
  | .ifStmt condition thenBranch elsifBranches elseBranch =>
      exprNames condition ++ (.scope (stmtsNames thenBranch) ::
        (elsifsNames elsifBranches ++ [.scope (stmtsNames elseBranch)]))
  | .forStmt var vars iterable body elseBranch =>
      exprNames iterable ++
        [.scope (.rebind var :: .skipped (vars.map .rebind) :: stmtsNames body),
          .skipped [.scope (stmtsNames elseBranch)]]
  | .whileStmt condition body elseBranch =>
      exprNames condition ++
        [.scope (stmtsNames body), .skipped [.scope (stmtsNames elseBranch)]]
  | .withStmt expr asName body =>
      exprNames expr ++ [.scope (bindUnlessEmpty asName ++ stmtsNames body)]
  | .tryStmt tryBody catchClauses finallyBody =>
      .scope (stmtsNames tryBody) ::
        (catchesNames catchClauses ++ [.scope (stmtsNames finallyBody)])
  | .throwStmt expr => optionNames expr
  | .assertStmt condition message => exprNames condition ++ optionNames message
  | .delStmt target => delNames target
  | .matchStmt subject cases => exprNames subject ++ casesNames cases
  | .importStmt module => [.bind (module.takeWhile (· ≠ '.'))]
  | .fromImportStmt _ names => names.map .bind
  | .interfaceDef _ _ => []
  | .enumDef name members => [.skipped ((enumNames name members).map .bind)]
  | .yieldStmt value => optionNames value
  | .chanSendStmt channel value => exprNames channel ++ [.sent (exprNames value)]

/-- The names of a block. -/
def stmtsNames : List Stmt → List NameAct
  | [] => []
  | s :: stmts => stmtNames s ++ stmtsNames stmts

/-- The names of the `elsif` branches. -/
def elsifsNames : List (Expr × List Stmt) → List NameAct
  | [] => []
  | (condition, body) :: branches =>
      exprNames condition ++ (.scope (stmtsNames body) :: elsifsNames branches)

/-- The names of the `catch` clauses. -/
def catchesNames : List (Name × Name × List Stmt) → List NameAct
  | [] => []
  | (_, varName, body) :: clauses =>
      .scope (bindUnlessEmpty varName ++ stmtsNames body) :: catchesNames clauses

/-- The names of the cases of a `match`. -/
def casesNames : List (Option Expr × Option Expr × List Stmt) → List NameAct
  | [] => []
  | (pattern, guard, body) :: cases =>
      optionNames pattern ++ (optionNames guard ++ (.scope (stmtsNames body) :: casesNames cases))

end

/-- The names that the top level declares throughout the file. -/
def topLevelNames (p : List Stmt) : List Name :=
  p.flatMap fun s =>
    match s with
    | .funcDef h _ => [h.name]
    | .classDef h _ => [h.name]
    | .interfaceDef name _ => [name]
    | .enumDef name members => enumNames name members
    | _ => []

end Syntax

/-! ## Scopes -/

/-- The bindings in scope, latest first, each with whether it is a const; and the names of all consts
declared so far, in scope or not. -/
structure Env where
  bindings : List (Name × Bool) := []
  consts : List Name := []

namespace Env

/-- A name is declared in an enclosing scope. -/
def Declares (E : Env) (name : Name) : Prop := name ∈ E.bindings.map Prod.fst

/-- The binding that a name refers to is a const. -/
def IsConst (E : Env) (name : Name) : Prop := E.bindings.lookup name = some true

/-- A const of this name is declared in an enclosing scope. -/
def HasConst (E : Env) (name : Name) : Prop := (name, true) ∈ E.bindings

instance (E : Env) (name : Name) : Decidable (E.Declares name) :=
  inferInstanceAs (Decidable (name ∈ E.bindings.map Prod.fst))

instance (E : Env) (name : Name) : Decidable (E.IsConst name) :=
  inferInstanceAs (Decidable (E.bindings.lookup name = some true))

instance (E : Env) (name : Name) : Decidable (E.HasConst name) :=
  inferInstanceAs (Decidable ((name, true) ∈ E.bindings))

/-- A binding more. -/
def bind (E : Env) (name : Name) (isConst : Bool) : Env :=
  { E with bindings := (name, isConst) :: E.bindings }

/-- Bindings of the names that are not in scope yet. -/
def bindMissing (E : Env) (names : List Name) : Env :=
  names.foldl (fun E name => if E.Declares name then E else E.bind name false) E

end Env

namespace NameAct

mutual

/-- The bindings in scope behind an act. -/
def after (E : Env) : NameAct → Env
  | .bind name | .rebind name => E.bind name false
  | .assign name _ value => (afterAll E value).bindMissing [name]
  | .const name => { E.bind name true with consts := name :: E.consts }
  | .scope body => { E with consts := (afterAll E body).consts }
  | .skipped body => E.bindMissing (bindsAll body)
  | .sent body => { E.bindMissing (bindsAll body) with consts := (afterAll E body).consts }
  | .use _ | .this | .del _ => E

/-- The bindings in scope behind several acts. -/
def afterAll (E : Env) : List NameAct → Env
  | [] => E
  | a :: as => afterAll (after E a) as

end

end NameAct

/-- An act where it stands: whether a part that no visitor goes into is around it, and the bindings in
scope. -/
structure Moment where
  hidden : Bool
  env : Env
  act : NameAct

mutual

/-- An act and the acts inside it, where they stand. -/
def momentsOf (hidden : Bool) (E : Env) : NameAct → List Moment
  | .scope body => momentsAll hidden E body
  | .skipped body => ⟨hidden, E, .skipped body⟩ :: momentsAll true E body
  | .sent body => ⟨hidden, E, .sent body⟩ :: momentsAll hidden E body
  | .assign name pos value => ⟨hidden, E, .assign name pos value⟩ :: momentsAll hidden E value
  | .use name => [⟨hidden, E, .use name⟩]
  | .this => [⟨hidden, E, .this⟩]
  | .bind name => [⟨hidden, E, .bind name⟩]
  | .rebind name => [⟨hidden, E, .rebind name⟩]
  | .const name => [⟨hidden, E, .const name⟩]
  | .del name => [⟨hidden, E, .del name⟩]

/-- Acts one behind the other, where they stand. -/
def momentsAll (hidden : Bool) (E : Env) : List NameAct → List Moment
  | [] => []
  | a :: as => momentsOf hidden E a ++ momentsAll hidden (a.after E) as

end

/-- The bindings throughout the file. -/
def fileEnv (p : List Stmt) : Env := { bindings := (topLevelNames p).map fun name => (name, false) }

/-- What a program does with names, where it stands. -/
def moments (p : List Stmt) : List Moment := momentsAll false (fileEnv p) (stmtsNames p)

end Visuall.Checker
