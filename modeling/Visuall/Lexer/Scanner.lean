import Visuall.Lexer.Token

/-!
# Scanning one piece of text

The sub-lexers of `lexer.cpp`, each a function of the text at the cursor: comments, strings with their
escapes, f-strings, numbers, words and operators; and `scanPiece`, which picks among them the way the
main loop does (2. to 9. of `Lexer::tokenize`).  A sub-lexer gives what it read and the text that is
left; one that throws gives the message, where it reports the error, and where it stopped.
-/

namespace Visuall.Lexer

/-! ## Characters -/

/-- `isdigit`. -/
def isDigit (c : Char) : Bool := '0' ≤ c && c ≤ '9'

/-- `isalpha` in the C locale. -/
def isAlpha (c : Char) : Bool := ('a' ≤ c && c ≤ 'z') || ('A' ≤ c && c ≤ 'Z')

/-- `isalnum(c) || c == '_'`. -/
def isWordChar (c : Char) : Bool := isAlpha c || isDigit c || c == '_'

/-- `isdigit(c) || c == '_'`. -/
def isDigitOrSeparator (c : Char) : Bool := isDigit c || c == '_'

/-- `isxdigit`. -/
def isXDigit (c : Char) : Bool := isDigit c || ('a' ≤ c && c ≤ 'f') || ('A' ≤ c && c ≤ 'F')

/-- The white space inside a line. -/
def isBlank (c : Char) : Bool := c == ' ' || c == '\t' || c == '\r'

/-- Where and why a sub-lexer throws: `origin` is the text from the position it reports (`none` for
the start of the token), `rest` the text where the cursor stands. -/
structure Failure where
  message : String
  origin : Option (List Char)
  rest : List Char
  deriving DecidableEq, Repr

/-! ## Comments -/

/-- `skipSingleLineComment`. -/
def skipSingleLineComment (text : List Char) : List Char := text.dropWhile (· != '\n')

/-- `skipMultiLineComment`: the text after the closing `###`. -/
def skipMultiLineComment : List Char → Option (List Char)
  | [] => none
  | c :: text =>
    if ['#', '#', '#'].isPrefixOf (c :: text) then some (text.drop 2) else skipMultiLineComment text

/-! ## String literals -/

/-- The value of a hexadecimal digit. -/
def hexDigit (c : Char) : ℕ :=
  if isDigit c then c.toNat - '0'.toNat
  else if 'a' ≤ c && c ≤ 'f' then c.toNat - 'a'.toNat + 10
  else c.toNat - 'A'.toNat + 10

/-- `strtoul(hex, nullptr, 16)` on hexadecimal digits. -/
def hexValue (digits : List Char) : ℕ := digits.foldl (fun n c => 16 * n + hexDigit c) 0

/-- The bytes of the UTF-8 encoding, as the branches of `lexString` write them. -/
def utf8Bytes (code : ℕ) : List Char :=
  if code ≤ 0x7F then [Char.ofNat code]
  else if code ≤ 0x7FF then
    [Char.ofNat (0xC0 ||| code >>> 6), Char.ofNat (0x80 ||| code &&& 0x3F)]
  else if code ≤ 0xFFFF then
    [Char.ofNat (0xE0 ||| code >>> 12), Char.ofNat (0x80 ||| code >>> 6 &&& 0x3F),
      Char.ofNat (0x80 ||| code &&& 0x3F)]
  else
    [Char.ofNat (0xF0 ||| code >>> 18), Char.ofNat (0x80 ||| code >>> 12 &&& 0x3F),
      Char.ofNat (0x80 ||| code >>> 6 &&& 0x3F), Char.ofNat (0x80 ||| code &&& 0x3F)]

/-- The digits of `\u` and `\U`: exactly `n` hexadecimal digits. -/
def hexDigits (n : ℕ) (message : String) (text : List Char) :
    Except Failure (List Char × List Char) :=
  if ((text.take n).takeWhile isXDigit).length = n then .ok (text.take n, text.drop n)
  else .error ⟨message, some (text.drop ((text.take n).takeWhile isXDigit).length),
    text.drop ((text.take n).takeWhile isXDigit).length⟩

/-- The code point an escape gives, unless it is out of range or a surrogate half. -/
def scalarBytes (code : ℕ) (rest : List Char) : Except Failure (List Char × List Char) :=
  if 0x10FFFF < code then
    .error ⟨"invalid unicode escape: codepoint U+" ++ toString code ++ " exceeds U+10FFFF",
      some rest, rest⟩
  else if 0xD800 ≤ code ∧ code ≤ 0xDFFF then
    .error ⟨"invalid unicode escape: surrogate codepoint U+" ++ toString code ++
      " is not a valid character", some rest, rest⟩
  else .ok (utf8Bytes code, rest)

/-- The `switch` over the character after a backslash: the bytes it stands for, and the text left. -/
def lexEscape (esc : Char) (text : List Char) : Except Failure (List Char × List Char) :=
  match esc with
  | 'n' => .ok (['\n'], text)
  | 't' => .ok (['\t'], text)
  | 'r' => .ok (['\r'], text)
  | '\\' => .ok (['\\'], text)
  | '\'' => .ok (['\''], text)
  | '"' => .ok (['"'], text)
  | '0' => .ok (['\x00'], text)
  | 'a' => .ok (['\x07'], text)
  | 'b' => .ok (['\x08'], text)
  | 'f' => .ok (['\x0c'], text)
  | 'v' => .ok (['\x0b'], text)
  | 'e' => .ok (['\x1b'], text)
  | 'x' =>
    let digits := (text.take 2).takeWhile isXDigit
    if digits = [] then
      .error ⟨"malformed hex escape: expected hex digit(s) after \\x", some text, text⟩
    else .ok ([Char.ofNat (hexValue digits)], text.drop digits.length)
  | 'u' => do
    let (digits, rest) ←
      hexDigits 4 "malformed unicode escape: expected 4 hex digits after \\u" text
    scalarBytes (hexValue digits) rest
  | 'U' => do
    let (digits, rest) ←
      hexDigits 8 "malformed unicode escape: expected 8 hex digits after \\U" text
    scalarBytes (hexValue digits) rest
  | _ => .ok (['\\', esc], text)

/-- The error of a string that is not closed on its line. -/
def unterminatedString (rest : List Char) : Failure := ⟨"Unterminated string literal", none, rest⟩

/-- The loop of `lexString`; every round takes a character, so the length of the text is fuel
enough. -/
def stringBody (delimiter : Char) : ℕ → List Char → Except Failure (List Char × List Char)
  | 0, text => .error (unterminatedString text)
  | _ + 1, [] => .error (unterminatedString [])
  | fuel + 1, c :: text =>
    if c = delimiter then .ok ([], text)
    else if c = '\n' then .error (unterminatedString (c :: text))
    else if c = '\\' then
      match text with
      | [] => .error (unterminatedString [])
      | esc :: text => do
        let (bytes, text) ← lexEscape esc text
        let (value, rest) ← stringBody delimiter fuel text
        pure (bytes ++ value, rest)
    else do
      let (value, rest) ← stringBody delimiter fuel text
      pure (c :: value, rest)

/-- `lexString`, after the opening quote: the value and the text after the closing quote. -/
def lexString (delimiter : Char) (text : List Char) : Except Failure (List Char × List Char) :=
  stringBody delimiter (text.length + 1) text

/-! ## F-strings -/

/-- The error of an f-string that is not closed on its line. -/
def unterminatedFString (rest : List Char) : Failure := ⟨"Unterminated f-string literal", none, rest⟩

/-- The error of an interpolation that is not closed: reported at its brace. -/
def unclosedBrace (brace rest : List Char) : Failure := ⟨"Unclosed '\x7b' in f-string", some brace, rest⟩

/-- The loop of `lexFString`; inside braces, `brace` is the text from the open one.  The closing quote
is part of the lexeme. -/
def fstringBody (delimiter : Char) :
    Option (List Char) → List Char → Except Failure (List Char × List Char)
  | none, [] => .error (unterminatedFString [])
  | some brace, [] => .error (unclosedBrace brace [])
  | some brace, c :: text =>
    if c = '\x7d' then do
      let (raw, rest) ← fstringBody delimiter none text
      pure (c :: raw, rest)
    else if c = '\n' ∨ c = delimiter then .error (unclosedBrace brace (c :: text))
    else do
      let (raw, rest) ← fstringBody delimiter (some brace) text
      pure (c :: raw, rest)
  | none, c :: text =>
    if c = delimiter then .ok ([c], text)
    else if c = '\n' then .error (unterminatedFString (c :: text))
    else if c = '\\' then
      match text with
      | [] => .error (unterminatedFString [])
      | esc :: text => do
        let (raw, rest) ← fstringBody delimiter none text
        pure (c :: esc :: raw, rest)
    else if c = '\x7b' then do
      let (raw, rest) ← fstringBody delimiter (some (c :: text)) text
      pure (c :: raw, rest)
    else do
      let (raw, rest) ← fstringBody delimiter none text
      pure (c :: raw, rest)

/-- `lexFString`, after the `f` and the opening quote: the raw lexeme and the text left. -/
def lexFString (delimiter : Char) (text : List Char) : Except Failure (List Char × List Char) := do
  let (raw, rest) ← fstringBody delimiter none text
  pure ('f' :: delimiter :: raw, rest)

/-! ## Numbers -/

/-- A run of digits: the digits with the separators stripped. -/
def digitsOf (text : List Char) : List Char := (text.takeWhile isDigitOrSeparator).filter (· != '_')

/-- The text after a run of digits. -/
def afterDigits (text : List Char) : List Char := text.dropWhile isDigitOrSeparator

/-- The exponent of a number, and its end: `value` is what was read of it. -/
def lexExponent (isFloat : Bool) (value text : List Char) :
    Except Failure (TokenType × List Char × List Char) :=
  match text with
  | e :: text =>
    if e = 'e' ∨ e = 'E' then
      let sign := (text.take 1).filter (fun s => s == '+' || s == '-')
      let text := text.drop sign.length
      if text.head?.any isDigit then
        .ok (.floatLiteral, value ++ e :: sign ++ text.takeWhile isDigit, text.dropWhile isDigit)
      else .error ⟨"Invalid numeric literal: expected digit after exponent", none, text⟩
    else .ok (if isFloat then .floatLiteral else .intLiteral, value, e :: text)
  | [] => .ok (if isFloat then .floatLiteral else .intLiteral, value, [])

/-- `lexNumber`, after the first digit. -/
def lexNumber (first : Char) (text : List Char) :
    Except Failure (TokenType × List Char × List Char) :=
  let value := first :: digitsOf text
  match afterDigits text with
  | '.' :: d :: rest =>
    if isDigit d then
      let value := value ++ '.' :: digitsOf (d :: rest)
      if ['.'].isPrefixOf (afterDigits (d :: rest)) then
        .error ⟨"Malformed numeric literal", none, afterDigits (d :: rest)⟩
      else lexExponent true value (afterDigits (d :: rest))
    else lexExponent false value ('.' :: d :: rest)
  | rest => lexExponent false value rest

/-! ## Words -/

/-- The `keywords` table. -/
def keywords : List (List Char × TokenType) :=
  [("define".toList, .kwDefine), ("init".toList, .kwInit), ("class".toList, .kwClass),
   ("if".toList, .kwIf), ("elsif".toList, .kwElsif), ("else".toList, .kwElse),
   ("for".toList, .kwFor), ("while".toList, .kwWhile), ("in".toList, .kwIn),
   ("return".toList, .kwReturn), ("break".toList, .kwBreak), ("continue".toList, .kwContinue),
   ("pass".toList, .kwPass), ("and".toList, .kwAnd), ("or".toList, .kwOr), ("not".toList, .kwNot),
   ("true".toList, .kwTrue), ("false".toList, .kwFalse), ("null".toList, .kwNull),
   ("import".toList, .kwImport), ("from".toList, .kwFrom), ("try".toList, .kwTry),
   ("catch".toList, .kwCatch), ("finally".toList, .kwFinally), ("throw".toList, .kwThrow),
   ("this".toList, .kwThis), ("extends".toList, .kwExtends), ("implements".toList, .kwImplements),
   ("interface".toList, .kwInterface), ("super".toList, .kwSuper), ("assert".toList, .kwAssert),
   ("del".toList, .kwDel), ("with".toList, .kwWith), ("as".toList, .kwAs), ("match".toList, .kwMatch),
   ("case".toList, .kwCase), ("enum".toList, .kwEnum), ("yield".toList, .kwYield),
   ("go".toList, .kwGo), ("chan".toList, .kwChan), ("const".toList, .kwConst)]

/-- The type of a word: its keyword type, with `true`, `false` and `null` as literals. -/
def wordType (word : List Char) : TokenType :=
  match keywords.lookup word with
  | some .kwTrue | some .kwFalse => .boolLiteral
  | some .kwNull => .nullLiteral
  | some kw => kw
  | none => .identifier

/-! ## Operators -/

/-- The operators and delimiters of `lexOperator`, for each first character in the order its case tries
them. -/
def operators : List (List Char × TokenType) :=
  [(['+', '='], .plusEq), (['+'], .plus),
   (['-', '>'], .arrow), (['-', '='], .minusEq), (['-'], .minus),
   (['*', '*', '='], .doubleStarEq), (['*', '*'], .doubleStar), (['*', '='], .starEq), (['*'], .star),
   (['/', '/', '='], .doubleSlashEq), (['/', '/'], .doubleSlash), (['/', '='], .slashEq),
   (['/'], .slash),
   (['%', '='], .percentEq), (['%'], .percent),
   (['=', '='], .eq), (['='], .assign),
   (['!', '='], .neq),
   (['<', '<', '='], .lshiftEq), (['<', '<'], .lshift), (['<', '-'], .kwSend), (['<', '='], .lte),
   (['<'], .lt),
   (['>', '>', '='], .rshiftEq), (['>', '>'], .rshift), (['>', '='], .gte), (['>'], .gt),
   (['('], .lparen), ([')'], .rparen), (['['], .lbracket), ([']'], .rbracket),
   (['\x7b'], .lbrace), (['\x7d'], .rbrace), ([','], .comma),
   ([':', '='], .walrus), ([':'], .colon), (['~'], .tilde),
   (['&', '='], .ampEq), (['&'], .amp), (['|', '='], .pipeEq), (['|'], .pipe),
   (['^', '='], .caretEq), (['^'], .caret),
   (['.', '.', '.'], .ellipsis), (['.'], .dot), (['@'], .atSign),
   (['?', '?'], .doubleQuestion), (['?'], .question)]

/-- The operator a text begins with. -/
def lexOperator (text : List Char) : Option (List Char × TokenType) :=
  operators.find? (fun op => op.1.isPrefixOf text)

/-! ## Pieces -/

/-- What a round of the main loop finds at the cursor, with the text after it: white space or a
comment, a newline, a token, a character no token begins with, or text on which a sub-lexer throws. -/
inductive Piece
  | skip (rest : List Char)
  | newline (rest : List Char)
  | token (type : TokenType) (lexeme rest : List Char)
  | unexpected (c : Char) (rest : List Char)
  | failure (f : Failure)
  deriving DecidableEq

/-- The comment after its first `#`. -/
def scanComment : List Char → Piece
  | '#' :: '#' :: text =>
    match skipMultiLineComment text with
    | some rest => .skip rest
    | none => .failure ⟨"Unterminated multi-line comment", none, []⟩
  | text => .skip (skipSingleLineComment text)

/-- The literal a sub-lexer reads, as a piece. -/
def literal (type : TokenType) : Except Failure (List Char × List Char) → Piece
  | .ok (lexeme, rest) => .token type lexeme rest
  | .error f => .failure f

/-- The number `lexNumber` reads, as a piece. -/
def numeral : Except Failure (TokenType × List Char × List Char) → Piece
  | .ok (type, lexeme, rest) => .token type lexeme rest
  | .error f => .failure f

/-- Whether a text begins with a quote. -/
def startsWithQuote (text : List Char) : Bool := ['"'].isPrefixOf text || ['\''].isPrefixOf text

/-- Steps 2 to 9 of the main loop, on the text at the cursor. -/
def scanPiece : List Char → Piece
  | [] => .skip []
  | c :: text =>
    if isBlank c then .skip (text.dropWhile isBlank)
    else if c = '\n' then .newline text
    else if c = '#' then scanComment text
    else if c = 'f' ∧ startsWithQuote text then
      literal .fstringLiteral (lexFString (text.headD '"') text.tail)
    else if c = '"' ∨ c = '\'' then literal .stringLiteral (lexString c text)
    else if isDigit c then numeral (lexNumber c text)
    else if isAlpha c ∨ c = '_' then
      .token (wordType (c :: text.takeWhile isWordChar)) (c :: text.takeWhile isWordChar)
        (text.dropWhile isWordChar)
    else
      match lexOperator (c :: text) with
      | some op => .token op.2 op.1 ((c :: text).drop op.1.length)
      | none => .unexpected c text

end Visuall.Lexer
