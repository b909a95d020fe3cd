import Mathlib

/-!
# Tokens

The data of the lexer (`include/token.h`, `include/lexer.h`, `include/diagnostic.h`): token types, tokens,
lexer errors, and the cursor into the source text.

A source text and a lexeme are `std::string`s of bytes; both are lists of characters here, one
character a byte.
-/

namespace Visuall

/-- `TokenType`. -/
inductive TokenType
  | intLiteral | floatLiteral | stringLiteral | fstringLiteral | boolLiteral | nullLiteral
  | identifier | error
  | kwDefine | kwInit | kwClass | kwIf | kwElsif | kwElse | kwFor | kwWhile | kwIn | kwReturn
  | kwBreak | kwContinue | kwPass | kwAnd | kwOr | kwNot | kwTrue | kwFalse | kwNull | kwImport
  | kwFrom | kwTry | kwCatch | kwFinally | kwThrow | kwThis | kwLambda | kwExtends | kwImplements
  | kwInterface | kwSuper | kwAssert | kwDel | kwWith | kwAs | kwMatch | kwCase | kwEnum | kwYield
  | kwGo | kwChan | kwConst
  | kwSend | plus | minus | star | slash | doubleSlash | percent | doubleStar | assign | eq | neq
  | lt | gt | lte | gte | arrow | dot
  | plusEq | minusEq | starEq | slashEq | doubleSlashEq | percentEq | doubleStarEq | ampEq | pipeEq
  | caretEq | lshiftEq | rshiftEq
  | amp | pipe | caret | tilde | lshift | rshift
  | lparen | rparen | lbracket | rbracket | lbrace | rbrace | comma | colon | ellipsis | atSign
  | question | doubleQuestion | walrus
  | newline | indent | dedent | endOfFile
  deriving DecidableEq, Repr

/-- A line and a column, both counted from 1. -/
structure Position where
  line : ℕ
  column : ℕ
  deriving DecidableEq, Repr

/-- `Token`. -/
structure Token where
  type : TokenType
  lexeme : List Char
  pos : Position
  deriving DecidableEq, Repr

namespace Token

/-- What a token stands for, wherever it is. -/
def kind (t : Token) : TokenType × List Char := (t.type, t.lexeme)

@[simp] theorem kind_mk (type : TokenType) (lexeme : List Char) (pos : Position) :
    (Token.mk type lexeme pos).kind = (type, lexeme) := rfl

end Token

/-- The two classes of lexer errors. -/
inductive LexErrorClass
  | lexError | indentationError
  deriving DecidableEq, Repr

/-- `LexError` and `IndentationError`: a diagnostic of severity error, with no hint and no source
line. -/
structure LexError where
  cls : LexErrorClass
  message : String
  filename : String
  pos : Position
  deriving DecidableEq, Repr

/-- `Diagnostic::what`: the diagnostic in the form `filename:line:col: error: message`. -/
def LexError.what (e : LexError) : String :=
  e.filename ++ ":" ++ toString e.pos.line ++ ":" ++ toString e.pos.column ++ ": error: " ++ e.message

/-! ## The cursor -/

namespace Position

/-- The position after a character (`Lexer::advance`). -/
def after (p : Position) (c : Char) : Position :=
  if c = '\n' then ⟨p.line + 1, 1⟩ else ⟨p.line, p.column + 1⟩

/-- The position after a text. -/
def afterText (p : Position) (text : List Char) : Position := text.foldl after p

@[simp] theorem afterText_nil (p : Position) : p.afterText [] = p := rfl

@[simp] theorem afterText_cons (p : Position) (c : Char) (text : List Char) :
    p.afterText (c :: text) = (p.after c).afterText text := rfl

theorem afterText_append (p : Position) (a b : List Char) :
    p.afterText (a ++ b) = (p.afterText a).afterText b := by
  simp [afterText]

end Position

/-- `pos_`, `line_` and `column_`; `pos_` is kept as the text that is left. -/
structure Cursor where
  rest : List Char
  pos : Position
  deriving DecidableEq, Repr

namespace Cursor

/-- `advance`, from a cursor that is not at the end. -/
def advance (c : Cursor) : Cursor :=
  match c.rest with
  | [] => c
  | x :: rest => ⟨rest, c.pos.after x⟩

/-- The cursor once it has advanced to a later point of its text. -/
def moveTo (c : Cursor) (rest : List Char) : Cursor :=
  ⟨rest, c.pos.afterText (c.rest.take (c.rest.length - rest.length))⟩

@[simp] theorem moveTo_rest (c : Cursor) (rest : List Char) : (c.moveTo rest).rest = rest := rfl

theorem moveTo_append (p : Position) (passed rest : List Char) :
    (Cursor.mk (passed ++ rest) p).moveTo rest = ⟨rest, p.afterText passed⟩ := by
  simp [moveTo]

end Cursor

end Visuall
