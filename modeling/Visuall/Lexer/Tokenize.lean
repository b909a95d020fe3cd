import Visuall.Lexer.Scanner

/-!
# The tokenizer

`Lexer::normalizeIndentation`, `Lexer::handleIndentation` and `Lexer::tokenize`.  The state of the lexer
is explicit, one round of the main loop is the function `LexState.round`, and the loop is its iteration:
a round changes nothing once the text is at its end.
-/

namespace Visuall.Lexer

/-! ## Normalization -/

/-- The loop of `normalizeIndentation`, from its `atLineStart` and `spaces`. -/
def normalizeFrom : Bool → ℕ → List Char → List Char
  | _, _, [] => []
  | true, spaces, c :: text =>
    if c = ' ' then
      if spaces + 1 = 4 then '\t' :: normalizeFrom true 0 text
      else normalizeFrom true (spaces + 1) text
    else if c = '\t' then
      -- a stray one or two spaces stay in front of the tab, three become a tab
      if spaces ≤ 2 then List.replicate spaces ' ' ++ '\t' :: normalizeFrom true 0 text
      else '\t' :: '\t' :: normalizeFrom true 0 text
    else if 0 < spaces then '\t' :: c :: normalizeFrom false 0 text
    else c :: normalizeFrom false 0 text
  | false, spaces, c :: text =>
    if c = '\n' then c :: normalizeFrom true 0 text
    else c :: normalizeFrom false spaces text

/-- `normalizeIndentation`. -/
def normalizeIndentation (source : List Char) : List Char := normalizeFrom true 0 source

/-! ## The state -/

/-- The members of `Lexer` and the locals of `tokenize`: the top of `indentStack` comes first, and the
latest of `tokens` and of `errors`. -/
structure LexState where
  filename : String
  cursor : Cursor
  atLineStart : Bool
  indentStack : List ℕ
  tokens : List Token
  errors : List LexError
  firstError : Option LexError
  deriving DecidableEq

/-- The constructor, and the state in which `tokenize` starts. -/
def initial (source : List Char) (filename : String) : LexState where
  filename := filename
  cursor := ⟨normalizeIndentation source, ⟨1, 1⟩⟩
  atLineStart := true
  indentStack := [0]
  tokens := []
  errors := []
  firstError := none

namespace LexState

/-- `indentStack_.top()`. -/
def top (L : LexState) : ℕ := L.indentStack.headD 0

/-- `tokens.push_back(makeToken(..))`. -/
def push (L : LexState) (type : TokenType) (lexeme : List Char) (pos : Position) : LexState :=
  { L with tokens := ⟨type, lexeme, pos⟩ :: L.tokens }

/-- The cursor moves on to the given rest of its text. -/
def moveTo (L : LexState) (rest : List Char) : LexState :=
  { L with cursor := L.cursor.moveTo rest }

/-! ## Indentation -/

/-- The loop that pops the levels deeper than `tabCount`, with a `DEDENT` for each. -/
def popLevels (tabCount : ℕ) (pos : Position) : List ℕ → List Token → List ℕ × List Token
  | level :: stack, tokens =>
    if tabCount < level then popLevels tabCount pos stack (⟨.dedent, "<DEDENT>".toList, pos⟩ :: tokens)
    else (level :: stack, tokens)
  | [], tokens => ([], tokens)

/-- The state with the levels deeper than `tabCount` popped. -/
def dedent (L : LexState) (tabCount : ℕ) (pos : Position) : LexState :=
  let popped := popLevels tabCount pos L.indentStack L.tokens
  { L with indentStack := popped.1, tokens := popped.2 }

/-- The comparison of a line's tabs with the current level, with the error it throws. -/
def indentTo (L : LexState) (tabCount : ℕ) (pos : Position) : LexState × Option LexError :=
  if L.top < tabCount then
    ({ L with indentStack := tabCount :: L.indentStack }.push .indent "<INDENT>".toList pos, none)
  else
    let L := L.dedent tabCount pos
    if tabCount = L.top then (L, none)
    else (L, some ⟨.lexError, "inconsistent indentation level", L.filename, pos⟩)

/-- `handleIndentation`, with the error it throws. -/
def handleIndentation (L : LexState) : LexState × Option LexError :=
  let start := L.cursor
  let L := L.moveTo (start.rest.dropWhile (· == '\t'))
  match L.cursor.rest with
  | [] => (L, none)
  | c :: _ =>
    if c = ' ' then
      (L, some ⟨.indentationError, "Visuall uses tabs for indentation, not spaces", L.filename,
        L.cursor.pos⟩)
    else if c = '\n' then (L, none)
    -- taken for a comment-only line, also when code follows a block comment
    else if c = '#' then (L, none)
    else L.indentTo (start.rest.takeWhile (· == '\t')).length start.pos

/-! ## Pieces -/

/-- Step 3: a newline at the cursor. -/
def newline (L : LexState) (rest : List Char) : LexState :=
  let emit : Bool := match L.tokens with
    | [] => false
    | t :: _ => t.type != .newline && t.type != .indent && t.type != .dedent
  let L' := if emit then L.push .newline "\\n".toList L.cursor.pos else L
  { L'.moveTo rest with atLineStart := true }

/-- The error that a failing sub-lexer throws, for a token that starts at the cursor. -/
def thrown (L : LexState) (f : Failure) : LexError :=
  ⟨.lexError, f.message, L.filename,
    match f.origin with
    | none => L.cursor.pos
    | some origin => (L.cursor.moveTo origin).pos⟩

/-- The rest of a round, on the piece found at the cursor: the state, and the error thrown. -/
def consume (L : LexState) : Piece → LexState × Option LexError
  | .skip rest => (L.moveTo rest, none)
  | .newline rest => (L.newline rest, none)
  | .token type lexeme rest => ((L.push type lexeme L.cursor.pos).moveTo rest, none)
  | .unexpected c rest =>
    ({ (L.push .error [c] L.cursor.pos).moveTo rest with
        errors := ⟨.lexError, "Unexpected character '" ++ c.toString ++ "'", L.filename,
          L.cursor.pos⟩ :: L.errors },
      none)
  | .failure f => (L.moveTo f.rest, some (L.thrown f))

/-! ## The main loop -/

/-- A round up to its end or to the error it throws. -/
def attempt (L : LexState) : LexState × Option LexError :=
  if L.atLineStart then
    match handleIndentation { L with atLineStart := false } with
    | (L, some e) => (L, some e)
    | (L, none) =>
      match L.cursor.rest with
      | [] => (L, none)
      | c :: text => if c = '\n' then (L, none) else L.consume (scanPiece (c :: text))
  else L.consume (scanPiece L.cursor.rest)

/-- The two `catch` clauses of a round that began at `start`. -/
def recover (L : LexState) (start : Cursor) (e : LexError) : LexState :=
  match e.cls with
  | .indentationError =>
    { (L.push .error "<indent-error>".toList e.pos).moveTo (L.cursor.rest.dropWhile (· != '\n')) with
        errors := ⟨.lexError, e.what, e.filename, e.pos⟩ :: L.errors
        firstError := L.firstError <|> some e }
  | .lexError =>
    { L.push .error "<lex-error>".toList e.pos with
        cursor := if L.cursor.rest.length = start.rest.length then L.cursor.advance else L.cursor
        errors := e :: L.errors
        firstError := L.firstError <|> some e }

/-- The guard against rounds that take nothing; a round that skips, or has read a token, does not get
to it or has moved. -/
def guardProgress (L : LexState) (start : Cursor) : LexState :=
  if L.cursor = start then { L with cursor := L.cursor.advance } else L

/-- One round of the main loop, if the text is not at its end. -/
def round (L : LexState) : LexState :=
  match L.cursor.rest with
  | [] => L
  | _ :: _ =>
    match L.attempt with
    | (L', none) => L'
    | (L', some e) => (L'.recover L.cursor e).guardProgress L.cursor

/-- The main loop: a round takes a character or leaves the line start, so twice the length of the text
is enough. -/
def mainLoop (L : LexState) : LexState := round^[2 * L.cursor.rest.length + 1] L

/-- Step 10: the open levels are closed and the stream is ended. -/
def flush (L : LexState) : LexState := (L.dedent 0 L.cursor.pos).push .endOfFile [] L.cursor.pos

end LexState

/-- The state in which `tokenize` ends. -/
def finalState (source : List Char) (filename : String) : LexState :=
  (initial source filename).mainLoop.flush

/-- `tokenize`: the token stream, or the first error thrown. -/
def tokenize (source : List Char) (filename : String) : Except LexError (List Token) :=
  match (finalState source filename).firstError with
  | some e => .error e
  | none => .ok (finalState source filename).tokens.reverse

end Visuall.Lexer
