import Visuall.Parser.Cursor
import Visuall.Syntax.Desugar

/-!
# Expressions

The expression productions of `src/parser.cpp`, under their own names, and the annotations.  A production takes
what it may call once it has taken a token as a parameter, `Nested`.

* `parseExpression`, …, `parsePrimary` — from the loosest to the tightest;
* `parseTypeAnnotation`.
-/

namespace Visuall.Parser

open Visuall.Ast Visuall.Descent Descent.Parser

/-! ## Literals -/

/-- The two exceptions of `std::stoll` and `std::stod`. -/
inductive NumberError
  | outOfRange
  | invalidArgument
  deriving DecidableEq, Repr

/-- `isspace`. -/
def isSpace (c : Char) : Bool := c == ' ' || (9 ≤ c.toNat && c.toNat ≤ 13)

/-- The value of decimal digits. -/
def decimal (digits : List Char) : ℕ := digits.foldl (fun n c => 10 * n + (c.toNat - '0'.toNat)) 0

/-- `std::stoll`. -/
def stoll (text : Name) : Except NumberError ℤ :=
  let text := text.dropWhile isSpace
  let negative := text.head? == some '-'
  let digits := (if negative || text.head? == some '+' then text.tail else text).takeWhile (·.isDigit)
  let value : ℤ := if negative then -(decimal digits : ℤ) else decimal digits
  if digits = [] then .error .invalidArgument
  else if value < -2 ^ 63 ∨ 2 ^ 63 ≤ value then .error .outOfRange
  else .ok value

/-- What an escape sequence in an f-string stands for. -/
def fstringEscape : Char → List Char
  | 'n' => ['\n']
  | 't' => ['\t']
  | '\\' => ['\\']
  | '\'' => ['\'']
  | '"' => ['"']
  | '\x7b' => ['\x7b']
  | '\x7d' => ['\x7d']
  | next => ['\\', next]

/-- A literal part, unless it is empty. -/
def flushLiteral (currentLiteral : Name) : List (Name ⊕ Name) :=
  if currentLiteral = [] then [] else [.inl currentLiteral]

/-- The loop over the content of an f-string: the literal texts and the texts of the interpolations.  Inside
braces the text so far is at hand. -/
def fstringParts : Name → Option Name → List Char → List (Name ⊕ Name)
  | currentLiteral, none, [] => flushLiteral currentLiteral
  | _, some exprText, [] => [.inr exprText]
  | _, some exprText, c :: content =>
    if c = '\x7d' then .inr exprText :: fstringParts [] none content
    else fstringParts [] (some (exprText ++ [c])) content
  | currentLiteral, none, '\\' :: next :: content =>
    fstringParts (currentLiteral ++ fstringEscape next) none content
  | currentLiteral, none, c :: content =>
    if c = '\x7b' then flushLiteral currentLiteral ++ fstringParts [] (some []) content
    else fstringParts (currentLiteral ++ [c]) none content

/-- `raw.substr(2, raw.size() - 3)`, which throws when there are not two characters to leave out. -/
def fstringContent (raw : Name) : Except (Halt Thrown) Name :=
  if raw.length < 2 then .error (.thrown .outOfRange) else .ok ((raw.drop 2).take (raw.length - 3))

/-! ## Productions -/

/-- What a production calls once it has taken a token, how `std::stod` fails, and the expression that the text of
an interpolation is lexed and parsed to. -/
structure Nested where
  stod : Name → Option NumberError
  interpolation : Name → Except (Halt Thrown) Expr
  expression : Parse Expr
  orExpr : Parse Expr
  notExpr : Parse Expr
  unary : Parse Expr
  typeAnnotation : Parse Name
  statement : Parse Stmt

variable (N : Nested)

/-- The parts of an f-string, whose interpolations are parsed one after another. -/
def parseParts : List (Name ⊕ Name) → Except (Halt Thrown) (List (Name ⊕ Expr))
  | [] => .ok []
  | .inl literal :: parts => do return .inl literal :: (← parseParts parts)
  | .inr exprText :: parts => do
    let e ← N.interpolation exprText
    return .inr e :: (← parseParts parts)

/-- An f-string, from its raw lexeme. -/
def parseFString (raw : Name) : Except (Halt Thrown) Expr := do
  let content ← fstringContent raw
  return .fstringExpr (← parseParts N (fstringParts [] none content))

/-- The expressions up to `)`, if there are any, and the `)`. -/
def parseArguments : Parse (List Expr) := do
  if ← check .rparen then
    let _ ← expect .rparen "Expected ')' after arguments"
    return []
  else
    let args ← commaSeparated N.expression
    let _ ← expect .rparen "Expected ')' after arguments"
    return args

/-- A list or dictionary comprehension, from `for` on: the variable, the iterable and the condition. -/
def parseComprehension (close : TokenType) (msg : String) : Parse (Name × Expr × Option Expr) := do
  let _ ← advance
  let var ← expect .identifier "Expected loop variable in comprehension"
  let _ ← expect .kwIn "Expected 'in' in comprehension"
  let iterable ← N.orExpr
  if ← matchToken .kwIf then
    let condition ← N.orExpr
    let _ ← expect close msg
    return (var.lexeme, iterable, some condition)
  else
    let _ ← expect close msg
    return (var.lexeme, iterable, none)

/-- Items after the first, up to a trailing comma. -/
def parseMore {α : Type} (item : Parse α) (close : TokenType) (first : α) : Parse (List α) :=
  loop (fun items => do
    if ← matchToken .comma then
      if ← check close then return .done items
      else
        let next ← item
        return .again (items ++ [next])
    else return .done items) [first]

/-- What follows `(`. -/
def parseParenthesized : Parse Expr := do
  if ← matchToken .rparen then finish (.tupleExpr [])
  else
    let first ← N.expression
    if ← matchToken .comma then
      if ← check .rparen then
        let _ ← expect .rparen "Expected ')' to close tuple"
        finish (.tupleExpr [first])
      else
        let elements ← commaSeparated N.expression
        let _ ← expect .rparen "Expected ')' to close tuple"
        finish (.tupleExpr (first :: elements))
    else
      let _ ← expect .rparen "Expected ')'"
      return first

/-- What follows `[`. -/
def parseList : Parse Expr := do
  if ← check .rbracket then
    let _ ← advance
    finish (.listExpr [])
  else
    let first ← N.expression
    if ← check .kwFor then
      let (var, iterable, condition) ← parseComprehension N .rbracket "Expected ']' after list comprehension"
      finish (.listComprehension first var iterable condition)
    else
      let elements ← parseMore N.expression .rbracket first
      let _ ← expect .rbracket "Expected ']'"
      finish (.listExpr elements)

/-- A key and its value. -/
def parseEntry : Parse (Expr × Expr) := do
  let key ← N.expression
  let _ ← expect .colon "Expected ':' in dict entry"
  let value ← N.expression
  return (key, value)

/-- What follows `{`. -/
def parseDict : Parse Expr := do
  if ← check .rbrace then
    let _ ← advance
    finish (.dictExpr [])
  else
    let first ← parseEntry N
    if ← check .kwFor then
      let (var, iterable, condition) ← parseComprehension N .rbrace "Expected '\x7d' after dict comprehension"
      finish (.dictComprehension first.1 first.2 var iterable condition)
    else
      let entries ← parseMore (parseEntry N) .rbrace first
      let _ ← expect .rbrace "Expected '\x7d'"
      finish (.dictExpr entries)

def parsePrimary : Parse Expr := do
  let tok ← current
  if ← matchToken .intLiteral then
    match stoll (← previous).lexeme with
    | .ok value => finish (.intLiteral value)
    | .error .outOfRange => errorAt tok "Integer literal is too large"
    | .error .invalidArgument => errorAt tok "Invalid integer literal"
  else if ← matchToken .floatLiteral then
    let t ← previous
    match N.stod t.lexeme with
    | none => finish (.floatLiteral t.lexeme)
    | some .outOfRange => errorAt tok "Float literal is too large"
    | some .invalidArgument => errorAt tok "Invalid float literal"
  else if ← matchToken .stringLiteral then finish (.stringLiteral (← previous).lexeme)
  else if ← matchToken .fstringLiteral then
    let t ← previous
    finish (← ofExcept (parseFString N t.lexeme))
  else if ← matchToken .boolLiteral then finish (.boolLiteral ((← previous).lexeme == "true".toList))
  else if ← matchToken .nullLiteral then finish .nullLiteral
  else if ← matchToken .star then finish (.spreadExpr (← N.unary))
  else if ← matchToken .doubleStar then finish (.dictSpreadExpr (← N.unary))
  else if ← matchToken .kwThis then finish .thisExpr
  else if ← matchToken .kwSuper then finish .superExpr
  else if ← matchToken .identifier then finish (.identifier ⟨(← previous).lexeme, tok.pos⟩)
  else if ← matchToken .lparen then parseParenthesized N
  else if ← matchToken .lbracket then parseList N
  else if ← matchToken .lbrace then parseDict N
  else error ("Expected expression, got '" ++ .ofList (← current).lexeme ++ "'")

/-- The type arguments of a generic call, after the first, and whether they are all identifiers. -/
def parseTypeArgs (first : Name) : Parse (List Name × Bool) :=
  loop (fun typeArgs => do
    if ← matchToken .comma then
      if ← check .identifier then
        let next ← advance
        return .again (typeArgs ++ [next.lexeme])
      else return .done (typeArgs, false)
    else return .done (typeArgs, true)) [first]

/-- `<T1, T2>(args)` after an expression: the type arguments and the arguments, or nothing taken. -/
def parseGenericCall : Parse (Option (List Name × List Expr)) := do
  let saved ← index
  let _ ← advance
  if ← check .identifier then
    let first ← advance
    let (typeArgs, isGenericCall) ← parseTypeArgs first.lexeme
    if isGenericCall then
      if ← matchToken .gt then
        if ← check .lparen then
          let _ ← advance
          let args ← parseArguments N
          return some (typeArgs, args)
        else
          moveTo saved
          return none
      else
        moveTo saved
        return none
    else
      moveTo saved
      return none
  else
    moveTo saved
    return none

/-- A bound of a slice, unless one of the given tokens follows. -/
def parseBound (ends : List TokenType) : Parse (Option Expr) := do
  let tok ← current
  if ends.contains tok.type then return none
  else return some (← N.expression)

/-- What follows `[` after an expression: an index or a slice. -/
def parseIndex (expr : Expr) : Parse Expr := do
  let _ ← previous
  let startExpr ← parseBound N [.colon, .rbracket]
  if ← check .colon then
    let _ ← advance
    let stopExpr ← parseBound N [.colon, .rbracket]
    if ← matchToken .colon then
      let stepExpr ← parseBound N [.rbracket]
      let _ ← expect .rbracket "Expected ']' after slice"
      return .sliceExpr expr startExpr stopExpr stepExpr
    else
      let _ ← expect .rbracket "Expected ']' after slice"
      return .sliceExpr expr startExpr stopExpr none
  else
    match startExpr with
    | none => error "Expected expression in index"
    | some startExpr =>
      let _ ← expect .rbracket "Expected ']' after index"
      return .indexExpr expr startExpr

/-- A member name; `init` is one. -/
def parseMember : Parse Name := do
  if ← matchToken .kwInit then return "init".toList
  else return (← expect .identifier "Expected member name").lexeme

def parsePostfix : Parse Expr := do
  let expr ← parsePrimary N
  loop (fun expr => do
    if ← matchToken .lparen then
      let args ← parseArguments N
      return .again (.callExpr expr args [])
    else if ← matchToken .dot then
      let member ← parseMember
      return .again (.memberExpr expr member)
    else if ← check .lt then
      match ← parseGenericCall N with
      | some (typeArgs, args) => return .again (.callExpr expr args typeArgs)
      | none => return .done expr
    else if ← matchToken .lbracket then
      let expr ← parseIndex N expr
      return .again expr
    else return .done expr) expr

def parsePower : Parse Expr := do
  let base ← parsePostfix N
  if ← matchToken .doubleStar then return .binaryExpr .pow base (← N.unary)
  else return base

def parseUnary : Parse Expr := do
  if ← matchToken .minus then return .unaryExpr .neg (← N.unary)
  else if ← matchToken .tilde then return .unaryExpr .bitNot (← N.unary)
  else if ← matchToken .kwSend then return .chanRecvExpr (← N.unary)
  else parsePower N

/-- A chain of left-associative operators. -/
def parseBinary (ops : List (TokenType × BinOp)) (operand : Parse Expr) : Parse Expr := do
  let left ← operand
  loop (fun left => do
    match ← matchAny ops with
    | some op =>
      let right ← operand
      return .again (.binaryExpr op left right)
    | none => return .done left) left

def parseMulDiv : Parse Expr :=
  parseBinary [(.star, .mul), (.slash, .div), (.doubleSlash, .intDiv), (.percent, .mod)] (parseUnary N)

def parseAddSub : Parse Expr := parseBinary [(.plus, .add), (.minus, .sub)] (parseMulDiv N)

/-- `tryMatchCompOp`. -/
def tryMatchCompOp : Parse (Option BinOp) := do
  match ← matchAny [(.eq, .eq), (.neq, .neq), (.lt, .lt), (.gt, .gt), (.lte, .lte), (.gte, .gte), (.kwIn, .in)] with
  | some op => return some op
  | none =>
    if ← check .kwNot then
      if ← nextIs .kwIn then
        let _ ← advance
        let _ ← advance
        return some .notIn
      else return none
    else return none

def parseComparison : Parse Expr := do
  let first ← parseAddSub N
  let more ← loop (fun more => do
    match ← tryMatchCompOp with
    | some op =>
      let right ← parseAddSub N
      return .again (more ++ [(op, right)])
    | none => return .done more) []
  return comparisonExpr first more

def parseShift : Parse Expr := parseBinary [(.lshift, .shl), (.rshift, .shr)] (parseComparison N)

def parseBitAnd : Parse Expr := parseBinary [(.amp, .bitAnd)] (parseShift N)

def parseBitXor : Parse Expr := parseBinary [(.caret, .bitXor)] (parseBitAnd N)

def parseBitOr : Parse Expr := parseBinary [(.pipe, .bitOr)] (parseBitXor N)

def parseNot : Parse Expr := do
  if ← matchToken .kwNot then return .unaryExpr .not (← N.notExpr)
  else parseBitOr N

def parseAnd : Parse Expr := parseBinary [(.kwAnd, .and)] (parseNot N)

def parseOr : Parse Expr := parseBinary [(.kwOr, .or)] (parseAnd N)

def parseNullCoalesce : Parse Expr := do
  let left ← parseOr N
  loop (fun left => do
    if ← matchToken .doubleQuestion then
      let right ← parseOr N
      let node ← finish (.binaryExpr .nullCoalesce left right)
      return .again node
    else return .done left) left

/-- The node of a conditional expression takes over the three parts; then the line of `cond`, which is null, is
read. -/
def parseTernary : Parse Expr := do
  let expr ← parseNullCoalesce N
  if ← matchToken .kwIf then
    let _ ← parseNullCoalesce N
    let _ ← expect .kwElse "Expected 'else' in ternary expression"
    let _ ← parseNullCoalesce N
    Descent.Parser.throw .nullPointer
  else return expr

def parseExpression : Parse Expr := do
  if ← check .identifier then
    let saved ← index
    let param ← advance
    if ← matchToken .arrow then return .lambdaExpr [param.lexeme] (← N.expression)
    else if ← matchToken .walrus then finish (.walrusExpr param.lexeme (← N.expression))
    else
      moveTo saved
      parseTernary N
  else parseTernary N

/-! ## Annotations -/

/-- Annotations with commas between them, as one text. -/
def parseTypeList : Parse Name := do
  let types ← commaSeparated N.typeAnnotation
  return (types.intersperse ",".toList).flatten

/-- An annotation of a function, or nothing taken. -/
def parseFunctionType : Parse (Option Name) := do
  let savedPos ← index
  let _ ← advance
  let types ← (do if ← check .rparen then return [] else parseTypeList N : Parse Name)
  if ← matchToken .rparen then
    if ← matchToken .arrow then
      let result ← N.typeAnnotation
      return some ("(".toList ++ types ++ ")->".toList ++ result)
    else
      moveTo savedPos
      return none
  else
    moveTo savedPos
    return none

/-- The type arguments in brackets, if there are any. -/
def parseTypeBrackets : Parse Name := do
  if ← matchToken .lbracket then
    let types ← parseTypeList N
    let _ ← expect .rbracket "Expected ']' in type annotation"
    return "[".toList ++ types ++ "]".toList
  else return []

/-- What may follow a name and its type arguments. -/
def parseTypeSuffix : Parse Name := do
  let union ← (do if ← matchToken .pipe then return '|' :: (← N.typeAnnotation) else return [] : Parse Name)
  let nullable ← (do if ← matchToken .question then return "|null".toList else return [] : Parse Name)
  let pointer ← (do if ← matchToken .star then return "*".toList else return [] : Parse Name)
  return union ++ nullable ++ pointer

/-- A name, its type arguments and what follows. -/
def parseNamedType : Parse Name := do
  let base ← (do
    if ← matchToken .nullLiteral then return "null".toList
    else return (← expect .identifier "Expected type name").lexeme : Parse Name)
  let brackets ← parseTypeBrackets N
  let suffix ← parseTypeSuffix N
  return base ++ brackets ++ suffix

/-- `chan` and its element, or a named type. -/
def parseChanType : Parse Name := do
  if ← matchToken .kwChan then return "chan[".toList ++ (← N.typeAnnotation) ++ "]".toList
  else parseNamedType N

def parseTypeAnnotation : Parse Name := do
  if ← matchToken .question then return (← N.typeAnnotation) ++ "|null".toList
  else if ← check .lparen then
    match ← parseFunctionType N with
    | some type => return type
    | none => parseChanType N
  else parseChanType N

end Visuall.Parser
