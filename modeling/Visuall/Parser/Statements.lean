import Visuall.Parser.Expressions
import Visuall.Lexer.Tokenize

/-!
# Statements

The statement productions of `src/parser.cpp`, the recovery of `Parser::parse`, and the parser as a whole:
`Nested` is tied with a number of turns, and interpolations are lexed and parsed with a bound on how deep they
are nested.

* `parseStatement`, `parseBlock` — and the productions that they call;
* `nested`, `interpolations` — the ties;
* `run`, `ParseRun.result` — what `Parser::parse` records, and what it returns or throws.
-/

namespace Visuall.Parser

open Visuall.Ast Visuall.Descent Visuall.Lexer Descent.Parser

variable (N : Nested)

/-! ## Parts of statements -/

/-- Items up to a `DEDENT` or the end: `while (!check(DEDENT) && !isAtEnd())`. -/
def untilDedent {α : Type} (item : Parse α) : Parse (List α) :=
  loop (fun items => do
    if ← check .dedent then return .done items
    else if ← isAtEnd then return .done items
    else
      let next ← item
      return .again (items ++ [next])) []

/-- A statement of a block, and the newlines behind it. -/
def parseLine : Parse Stmt := do
  let stmt ← N.statement
  skipNewlines
  return stmt

def parseBlock : Parse (List Stmt) := do
  if ← check .ellipsis then
    let _ ← advance
    let _ ← matchToken .newline
    return [.passStmt]
  else
    let _ ← expect .newline "Expected newline before indented block"
    skipNewlines
    let _ ← expect .indent "Expected indented block"
    skipNewlines
    let body ← untilDedent (parseLine N)
    let _ ← expect .dedent "Expected end of indented block"
    return body

/-- `:` and a block. -/
def parseBody (msg : String) : Parse (List Stmt) := do
  let _ ← expect .colon msg
  parseBlock N

/-- A name after a token, if that is there. -/
def parseName (msg : String) : Parse Name := do return (← expect .identifier msg).lexeme

/-- An annotation after `:`, if there is one. -/
def parseAnnotation (type : TokenType) : Parse Name := do
  if ← matchToken type then parseTypeAnnotation N
  else return []

/-- One parameter, or `...`. -/
def parseParam : Parse (Option Param) := do
  if ← matchToken .ellipsis then
    if ← check .rparen then return none
    else error "C variadic '...' must be the last parameter in the list"
  else
    let (isVariadic, isKwargs, name) ← (do
      if ← matchToken .doubleStar then
        return (false, true, ← parseName "Expected parameter name after '**'")
      else if ← matchToken .star then
        return (true, false, ← parseName "Expected parameter name after '*'")
      else return (false, false, ← parseName "Expected parameter name") : Parse (Bool × Bool × Name))
    let annotation ← parseAnnotation N .colon
    if ← matchToken .assign then
      let defaultValue ← parseExpression N
      return some ⟨name, annotation, some defaultValue, isVariadic, isKwargs⟩
    else return some ⟨name, annotation, none, isVariadic, isKwargs⟩

/-- The parameters, and whether `...` stands behind them. -/
def parseParams : Parse (List Param × Bool) :=
  loop (fun params => do
    match ← parseParam N with
    | none => return .done (params, true)
    | some p =>
      if ← matchToken .comma then return .again (params ++ [p])
      else return .done (params ++ [p], false)) []

def parseParamList : Parse (List Param × Bool) := do
  let _ ← expect .lparen "Expected '(' for parameter list"
  if ← check .rparen then
    let _ ← expect .rparen "Expected ')' after parameters"
    return ([], false)
  else
    let params ← parseParams N
    let _ ← expect .rparen "Expected ')' after parameters"
    return params

/-- A type parameter and its bound. -/
def parseTypeParam : Parse (Name × Option Name) := do
  let tp ← parseName "Expected type parameter"
  if ← matchToken .colon then return (tp, some (← parseName "Expected bound type"))
  else return (tp, none)

/-- `typeParamBounds[tp] = bound`, one after another. -/
def bounds (params : List (Name × Option Name)) : List (Name × Name) :=
  params.foldl (fun l p =>
    match p.2 with
    | none => l
    | some bound => l.filter (·.1 ≠ p.1) ++ [(p.1, bound)]) []

/-- The type parameters between `<` and `>`, if there are any. -/
def parseTypeParams : Parse (List (Name × Option Name)) := do
  if ← matchToken .lt then
    let params ← commaSeparated parseTypeParam
    let _ ← expect .gt "Expected '>' after type parameters"
    return params
  else return []

/-- Whether a decorator is `@extern`, and the library it names. -/
def externDecorator : Expr → Option (Option Name)
  | .identifier id => if id.name = "extern".toList then some none else none
  | .callExpr (.identifier callee) [.stringLiteral lib] _ =>
    if callee.name = "extern".toList then some (some lib) else none
  | _ => none

/-! ## Definitions -/

def parseFuncDef (decorators : List Expr) : Parse Stmt := do
  let externs := decorators.filterMap externDecorator
  let _ ← advance
  let name ← parseName "Expected function name"
  let typeParams ← parseTypeParams
  let (params, isVariadicC) ← parseParamList N
  let returnType ← parseAnnotation N .arrow
  let header : FuncHeader :=
    { name
      typeParams := typeParams.map Prod.fst
      typeParamBounds := bounds typeParams
      params
      returnType
      decorators
      isExtern := !externs.isEmpty
      externLibName := ((externs.filterMap id).getLast?).getD []
      isVariadicCFunc := isVariadicC }
  if !externs.isEmpty then
    if ← matchToken .colon then
      let _ ← expect .ellipsis "Expected '...' body for extern function"
      let _ ← matchToken .newline
      finish (.funcDef header [])
    else finish (.funcDef header [])
  else
    let body ← parseBody N "Expected ':' after function signature"
    finish (.funcDef header body)

def parseInitDef : Parse Stmt := do
  let _ ← advance
  let (params, _) ← parseParamList N
  let body ← parseBody N "Expected ':' after init signature"
  finish (.initDef params body)

/-- The names behind the first base class, each after a comma. -/
def parseExtraBases (trailing : Bool) : Parse (List Name) :=
  loop (fun bases => do
    if ← matchToken .comma then
      let tok ← current
      if trailing && tok.type == .rparen then return .done bases
      else
        let base ← parseName "Expected base class name"
        return .again (bases ++ [base])
    else return .done bases) []

/-- The base classes, with `extends` or in parentheses. -/
def parseBases : Parse (Option Name × List Name) := do
  if ← matchToken .kwExtends then
    let baseClass ← parseName "Expected base class name"
    let extraBases ← parseExtraBases false
    return (some baseClass, extraBases)
  else if ← matchToken .lparen then
    if ← check .rparen then
      let _ ← expect .rparen "Expected ')' after base classes"
      return (none, [])
    else
      let baseClass ← parseName "Expected base class name"
      let extraBases ← parseExtraBases true
      let _ ← expect .rparen "Expected ')' after base classes"
      return (some baseClass, extraBases)
  else return (none, [])

def parseClassDef : Parse Stmt := do
  let _ ← advance
  let name ← parseName "Expected class name"
  let typeParams ← parseTypeParams
  let (baseClass, extraBases) ← parseBases
  let interfaces ← (do
    if ← matchToken .kwImplements then commaSeparated (parseName "Expected interface name")
    else return [] : Parse (List Name))
  let body ← parseBody N "Expected ':' after class header"
  let header : ClassHeader :=
    { name, baseClass, extraBases, interfaces
      typeParams := typeParams.map Prod.fst
      typeParamBounds := bounds typeParams }
  finish (.classDef header body)

/-- The members of an enum.  At the end of the file `check(END_OF_FILE)` is false. -/
def parseMembers : Parse (List Name) :=
  loop (fun members => do
    if ← check .dedent then return .done members
    else
      skipNewlines
      if ← check .dedent then return .done members
      else
        let member ← parseName "Expected enum member name"
        skipNewlines
        return .again (members ++ [member])) []

def parseEnumDef : Parse Stmt := do
  let _ ← advance
  let name ← parseName "Expected enum name"
  let _ ← expect .colon "Expected ':' after enum name"
  let _ ← expect .newline "Expected newline after ':'"
  let _ ← expect .indent "Expected indented block for enum body"
  let members ← parseMembers
  let _ ← expect .dedent "Expected dedent after enum body"
  finish (.enumDef name members)

/-- A method of an interface. -/
def parseMethod : Parse MethodSignature := do
  let _ ← expect .kwDefine "Expected method declaration in interface"
  let name ← parseName "Expected method name"
  let (params, _) ← parseParamList N
  let returnType ← parseAnnotation N .arrow
  let _ ← matchToken .newline
  skipNewlines
  return ⟨name, params, returnType⟩

def parseInterfaceDef : Parse Stmt := do
  let _ ← advance
  let name ← parseName "Expected interface name"
  let _ ← expect .colon "Expected ':' after interface name"
  let _ ← expect .newline "Expected newline before indented block"
  skipNewlines
  let _ ← expect .indent "Expected indented block"
  skipNewlines
  let methods ← untilDedent (parseMethod N)
  let _ ← expect .dedent "Expected end of interface block"
  finish (.interfaceDef name methods)

/-! ## Control flow -/

/-- The `elsif` branches. -/
def parseElsifs : Parse (List (Expr × List Stmt)) := do
  skipNewlines
  loop (fun elsifs => do
    if ← check .kwElsif then
      let _ ← advance
      let condition ← parseExpression N
      let body ← parseBody N "Expected ':' after elsif condition"
      skipNewlines
      return .again (elsifs ++ [(condition, body)])
    else return .done elsifs) []

/-- A block behind a keyword, if that is there. -/
def parseBranch (keyword : TokenType) (msg : String) : Parse (List Stmt) := do
  if ← matchToken keyword then parseBody N msg
  else return []

def parseIfStmt : Parse Stmt := do
  let _ ← advance
  let condition ← parseExpression N
  let thenBranch ← parseBody N "Expected ':' after if condition"
  let elsifBranches ← parseElsifs N
  let elseBranch ← parseBranch N .kwElse "Expected ':' after else"
  finish (.ifStmt condition thenBranch elsifBranches elseBranch)

/-- The loop variables after the first. -/
def parseExtraVars : Parse (List Name) :=
  loop (fun vars => do
    if ← matchToken .comma then
      let var ← parseName "Expected identifier in for-loop variable list"
      return .again (vars ++ [var])
    else return .done vars) []

def parseForStmt : Parse Stmt := do
  let _ ← advance
  let firstVar ← parseName "Expected loop variable"
  let extraVars ← parseExtraVars
  let _ ← expect .kwIn "Expected 'in' in for loop"
  let iterable ← parseExpression N
  let body ← parseBody N "Expected ':' after for header"
  let elseBranch ← parseBranch N .kwElse "Expected ':' after 'else'"
  finish (.forStmt firstVar (if extraVars = [] then [] else firstVar :: extraVars) iterable body elseBranch)

def parseWhileStmt : Parse Stmt := do
  let _ ← advance
  let condition ← parseExpression N
  let body ← parseBody N "Expected ':' after while condition"
  let elseBranch ← parseBranch N .kwElse "Expected ':' after 'else'"
  finish (.whileStmt condition body elseBranch)

/-- An expression, unless the statement ends.  At the end of the file `check(END_OF_FILE)` is false. -/
def parseOptional : Parse (Option Expr) := do
  if ← check .newline then return none
  else if ← check .dedent then return none
  else return some (← parseExpression N)

def parseReturnStmt : Parse Stmt := do
  let _ ← advance
  finish (.returnStmt (← parseOptional N))

def parseYieldStmt : Parse Stmt := do
  let _ ← advance
  finish (.yieldStmt (← parseOptional N))

/-- A catch clause after `catch`: the exception type, the variable and the block. -/
def parseCatch : Parse (Name × Name × List Stmt) := do
  if ← check .identifier then
    let exceptionType ← advance
    let tok ← current
    if tok.type == .kwAs || (tok.type == .identifier && tok.lexeme == "as".toList) then
      let _ ← advance
      let varName ← parseName "Expected variable name after 'as'"
      let body ← parseBody N "Expected ':' after catch"
      return (exceptionType.lexeme, varName, body)
    else
      let body ← parseBody N "Expected ':' after catch"
      return (exceptionType.lexeme, [], body)
  else
    let body ← parseBody N "Expected ':' after catch"
    return ([], [], body)

/-- The catch clauses. -/
def parseCatches : Parse (List (Name × Name × List Stmt)) := do
  skipNewlines
  loop (fun catches => do
    if ← check .kwCatch then
      let _ ← advance
      let clause ← parseCatch N
      skipNewlines
      return .again (catches ++ [clause])
    else return .done catches) []

def parseTryStmt : Parse Stmt := do
  let _ ← advance
  let tryBody ← parseBody N "Expected ':' after try"
  let catchClauses ← parseCatches N
  let finallyBody ← parseBranch N .kwFinally "Expected ':' after finally"
  finish (.tryStmt tryBody catchClauses finallyBody)

def parseThrowStmt : Parse Stmt := do
  let _ ← advance
  let tok ← current
  if tok.type == .newline || tok.type == .dedent || tok.type == .endOfFile then finish (.throwStmt none)
  else finish (.throwStmt (some (← parseExpression N)))

def parseAssertStmt : Parse Stmt := do
  let _ ← advance
  let condition ← parseExpression N
  if ← matchToken .comma then finish (.assertStmt condition (some (← parseExpression N)))
  else finish (.assertStmt condition none)

def parseDelStmt : Parse Stmt := do
  let _ ← advance
  finish (.delStmt (← parseExpression N))

def parseWithStmt : Parse Stmt := do
  let _ ← advance
  let expr ← parseExpression N
  let asName ← (do
    if ← matchToken .kwAs then parseName "Expected variable name after 'as' in with statement"
    else return [] : Parse Name)
  let body ← parseBody N "Expected ':' after with expression"
  finish (.withStmt expr asName body)

/-- The pattern of a case; `_` is none. -/
def parsePattern : Parse (Option Expr) := do
  let tok ← current
  if tok.type == .identifier && tok.lexeme == "_".toList then
    let _ ← advance
    return none
  else return some (← parseNullCoalesce N)

/-- A case of a match. -/
def parseCase : Parse (Option Expr × Option Expr × List Stmt) := do
  let _ ← expect .kwCase "Expected 'case' in match body"
  let pattern ← parsePattern N
  let guard ← (do
    if ← matchToken .kwIf then return some (← parseExpression N)
    else return none : Parse (Option Expr))
  let body ← parseBody N "Expected ':' after case pattern"
  skipNewlines
  return (pattern, guard, body)

def parseMatchStmt : Parse Stmt := do
  let _ ← advance
  let subject ← parseExpression N
  let _ ← expect .colon "Expected ':' after match expression"
  let _ ← expect .newline "Expected newline after match:"
  skipNewlines
  let _ ← expect .indent "Expected indented block for match"
  skipNewlines
  let cases ← untilDedent (parseCase N)
  let _ ← expect .dedent "Expected end of match block"
  finish (.matchStmt subject cases)

/-! ## Simple statements -/

def parseImportStmt : Parse Stmt := do
  let _ ← advance
  let first ← parseName "Expected module name"
  let module ← loop (fun module => do
    if ← matchToken .dot then
      let next ← parseName "Expected module name after '.'"
      return .again (module ++ '.' :: next)
    else return .done module) first
  finish (.importStmt module)

def parseFromImportStmt : Parse Stmt := do
  let _ ← advance
  let module ← parseName "Expected module name"
  let _ ← expect .kwImport "Expected 'import' after module name"
  let names ← commaSeparated (parseName "Expected import name")
  finish (.fromImportStmt module names)

def parseBreakStmt : Parse Stmt := do
  let _ ← advance
  return .breakStmt

def parseContinueStmt : Parse Stmt := do
  let _ ← advance
  return .continueStmt

def parseConstDecl : Parse Stmt := do
  let _ ← advance
  let name ← parseName "Expected constant name"
  let annotation ← parseAnnotation N .colon
  let _ ← expect .assign "Expected '=' in const declaration"
  let value ← parseExpression N
  finish (.constStmt name value annotation)

def parseGoStmt : Parse Stmt := do
  let _ ← advance
  match ← parseExpression N with
  | .callExpr callee args _ => finish (.exprStmt (.goExpr callee args))
  | callee => finish (.exprStmt (.goExpr callee []))

def parseDecorated : Parse Stmt := do
  let decorators ← loop (fun decorators => do
    if ← check .atSign then
      let _ ← advance
      let expr ← parseExpression N
      let _ ← matchToken .newline
      skipNewlines
      return .again (decorators ++ [expr])
    else return .done decorators) []
  if ← check .kwDefine then parseFuncDef N decorators
  else error "Expected 'define' after decorator(s)"

/-- The targets of a chained assignment after the first, and the value: `=` is already taken. -/
def parseChain : Parse (List Expr × Expr) := do
  let value ← parseExpression N
  loop (fun (targets, value) => do
    if ← matchToken .assign then
      let next ← parseExpression N
      return .again (targets ++ [value], next)
    else return .done (targets, value)) ([], value)

/-- The name of an identifier. -/
def identifierName : Expr → Option Name
  | .identifier id => some id.name
  | _ => none

/-- An expression statement, from behind the expression and an annotation without a value. -/
def parseAssignment (pos : Position) (expr : Expr) : Parse Stmt := do
  if ← matchToken .comma then
    match identifierName expr with
    | none => error "Expected identifier in unpacking target"
    | some first =>
      let more ← commaSeparated (parseName "Expected identifier in unpacking target")
      let _ ← expect .assign "Expected '=' after unpacking targets"
      let value ← parseExpression N
      finish (.tupleUnpackStmt (first :: more) value)
  else
    match ← matchAny augOps with
    | some op =>
      let rhs ← parseExpression N
      finish (.assignStmt expr (augmentedValue expr op rhs) [] [] pos)
    | none =>
      if ← matchToken .assign then
        let (extraTargets, value) ← parseChain N
        -- `a = b = v`: the first target, and the others in order
        finish (.assignStmt expr value extraTargets [] pos)
      else finish (.exprStmt expr)

def parseExpressionStatement : Parse Stmt := do
  let tok ← current
  let expr ← parseExpression N
  if ← matchToken .kwSend then finish (.chanSendStmt expr (← parseExpression N))
  else if (identifierName expr).isSome then
    if ← matchToken .colon then
      let annotation ← parseTypeAnnotation N
      if ← matchToken .assign then
        let value ← parseExpression N
        finish (.assignStmt expr value [] annotation tok.pos)
      else parseAssignment N tok.pos expr
    else parseAssignment N tok.pos expr
  else parseAssignment N tok.pos expr

def parseStatement : Parse Stmt := do
  skipNewlines
  let t ← current
  match t.type with
  | .kwDefine => parseFuncDef N []
  | .kwInit => parseInitDef N
  | .kwClass => parseClassDef N
  | .kwInterface => parseInterfaceDef N
  | .kwEnum => parseEnumDef
  | .kwYield => parseYieldStmt N
  | .kwGo => parseGoStmt N
  | .kwIf => parseIfStmt N
  | .kwFor => parseForStmt N
  | .kwWhile => parseWhileStmt N
  | .kwReturn => parseReturnStmt N
  | .kwTry => parseTryStmt N
  | .kwThrow => parseThrowStmt N
  | .kwAssert => parseAssertStmt N
  | .kwDel => parseDelStmt N
  | .kwWith => parseWithStmt N
  | .kwMatch => parseMatchStmt N
  | .kwImport => parseImportStmt
  | .kwFrom => parseFromImportStmt
  | .kwBreak => parseBreakStmt
  | .kwContinue => parseContinueStmt
  | .kwConst => parseConstDecl N
  | .atSign => parseDecorated N
  | .ellipsis => do
    let _ ← advance
    finish .passStmt
  | _ => parseExpressionStatement N

/-! ## The parser -/

/-- What may be called with `n` turns left: no more than a token is taken in each. -/
def nested (stod : Name → Option NumberError) (interpolation : Name → Except (Halt Thrown) Expr) : ℕ → Nested
  | 0 =>
    { stod, interpolation
      expression := ofExcept (.error .exhausted)
      orExpr := ofExcept (.error .exhausted)
      notExpr := ofExcept (.error .exhausted)
      unary := ofExcept (.error .exhausted)
      typeAnnotation := ofExcept (.error .exhausted)
      statement := ofExcept (.error .exhausted) }
  | n + 1 =>
    let N := nested stod interpolation n
    { stod, interpolation
      expression := parseExpression N
      orExpr := parseOr N
      notExpr := parseNot N
      unary := parseUnary N
      typeAnnotation := parseTypeAnnotation N
      statement := parseStatement N }

variable (stod : Name → Option NumberError) (filename : String)

/-- The text of an interpolation lexed and parsed, with interpolations in it no deeper than the first argument
says. -/
def interpolations : ℕ → Name → Except (Halt Thrown) Expr
  | 0, _ => .error .exhausted
  | depth + 1, exprText =>
    match tokenize exprText filename with
    | .error e => .error (.thrown (.lex e))
    | .ok ts => (parseExpression (nested stod (interpolations depth) ts.length) ts 0).1

/-- What `Parser::parse` has when its loop ends: the statements, `errors_`, and an exception that it does not
catch. -/
structure ParseRun where
  statements : List Stmt
  errors : List ParseError
  uncaught : Option Thrown

/-- The loop of `parse`. -/
def parseLoop : Parse ParseRun := do
  skipNewlines
  loop (fun (stmts, errors) => do
    if ← isAtEnd then return .done ⟨stmts, errors, none⟩
    else
      match ← (parseStatement N).attempt with
      | .ok stmt =>
        -- the end of the statement is set from here where the production has left it unset
        let _ ← previous
        skipNewlines
        return .again (stmts ++ [stmt], errors)
      | .error (.parse e) =>
        synchronize
        skipNewlines
        return .again (stmts, errors ++ [e])
      | .error e => return .done ⟨stmts, errors, some e⟩) ([], [])

/-- How deep interpolations may be nested in a token list: each is shorter than the one around it. -/
def depthBound (ts : List Token) : ℕ := (ts.map fun t => t.lexeme.length).sum

/-- A run of `parse` up to the end of its loop. -/
def run (ts : List Token) : Except (Halt Thrown) ParseRun :=
  (parseLoop (nested stod (interpolations stod filename (depthBound ts)) ts.length) ts 0).1

/-- What `parse` returns or throws: the first error, if any was recorded. -/
def ParseRun.result (r : ParseRun) : Except Thrown (List Stmt) :=
  match r.uncaught, r.errors with
  | some e, _ => .error e
  | none, e :: _ => .error (.parse e)
  | none, [] => .ok r.statements

end Visuall.Parser
