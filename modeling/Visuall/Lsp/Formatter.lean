import Visuall.Lib.Lines
import Visuall.Lib.Split

/-!
# The formatter

`Formatter::format` of `formatter.cpp`.  A byte of the text is a character.

* `normalizeLine` — what the first phase does to a line: `stripTrailingWhitespace`, `normalizeIndentation`,
  `normalizeOperators`, `normalizeCommas`;
* `layOut` — the blank lines in front of definitions;
* `clean` — the blank lines at the start of blocks, and of several in a row;
* `format` — all of it.
-/

namespace Visuall.Lsp

/-- A line, without its newline. -/
abbrev Line := List Char

/-! ## Lines -/

/-- A space or a tab. -/
def isIndentChar (c : Char) : Bool := c == ' ' || c == '\t'

/-- White space inside a line. -/
def isSpaceChar (c : Char) : Bool := c == ' ' || c == '\t' || c == '\r'

def isBlank (line : Line) : Bool := line.all isSpaceChar

def isComment (line : Line) : Bool := ['#', '#'].isPrefixOf (line.dropWhile isIndentChar)

def isClassDef (line : Line) : Bool := "class ".toList.isPrefixOf line

def isTopLevelDef (line : Line) : Bool :=
  "define ".toList.isPrefixOf line || "class ".toList.isPrefixOf line || "interface ".toList.isPrefixOf line

def stripTrailingWhitespace (line : Line) : Line := line.rdropWhile isSpaceChar

/-- The tabs that an indentation becomes; four spaces are one, and so are those that are left over. -/
def tabsFor (ws : List Char) : ℕ :=
  ws.count '\t' + ws.count ' ' / 4 + if 0 < ws.count ' ' % 4 then 1 else 0

def normalizeIndentation (line : Line) : Line :=
  let content := line.dropWhile isIndentChar
  if content = [] then []
  else List.replicate (tabsFor (line.takeWhile isIndentChar)) '\t' ++ content

/-! ## Operators -/

/-- A character that is an operator or begins one. -/
def isOperatorChar (c : Char) : Bool :=
  ['+', '-', '*', '/', '%', '=', '!', '<', '>', '|', '&', '^'].contains c

/-- The operators of two characters, apart from the arrow. -/
def isCompound (c d : Char) : Bool :=
  [('=', '='), ('!', '='), ('<', '='), ('>', '='), ('*', '*'), ('/', '/'), ('+', '='), ('-', '='), ('*', '='),
    ('/', '='), ('%', '='), ('&', '='), ('|', '='), ('^', '='), ('<', '<'), ('>', '>')].contains (c, d)

/-- `isalnum` in the C locale, and the other characters after which an operator is binary. -/
def endsOperand (c : Char) : Bool := c.isAlphanum || [')', ']', '\'', '"', '_'].contains c

def isQuote (c : Char) : Bool := c == '"' || c == '\''

/-- `if (!result.empty() && result.back() != ' ') result += ' '`. -/
def spaced (result : List Char) : List Char :=
  if result.getLast?.all (· == ' ') then result else result ++ [' ']

/-- `if (i < line.size() && line[i] != ' ' …) result += ' '`. -/
def gap (stops rest : List Char) : List Char := if rest.head?.all stops.contains then [] else [' ']

/-- An operator of one character. -/
def operator (result : List Char) (c : Char) (rest : List Char) : List Char :=
  if c = '=' then spaced result ++ [c] ++ gap [' ', '='] rest
  else if result.getLast?.any endsOperand then spaced result ++ [c] ++ gap [' '] rest
  else result ++ [c]

/-- The loop of `normalizeOperators`; inside of a string, `delim` is its quote. -/
def operatorsLoop (result : List Char) (delim : Option Char) : List Char → List Char
  | [] => result
  | c :: rest =>
    match delim with
    | some d =>
      if c = '\\' then
        match rest with
        | c₁ :: rest => operatorsLoop (result ++ [c, c₁]) delim rest
        | [] => result ++ [c]
      else operatorsLoop (result ++ [c]) (if c = d then none else delim) rest
    | none =>
      if isQuote c then operatorsLoop (result ++ [c]) (some c) rest
      else if c = '#' ∧ rest.head? = some '#' then result ++ c :: rest
      else if isOperatorChar c then
        match rest with
        | c₁ :: rest₁ =>
          if c = '-' ∧ c₁ = '>' then operatorsLoop (spaced result ++ [c, c₁] ++ gap [' '] rest₁) none rest₁
          else if isCompound c c₁ then operatorsLoop (spaced result ++ [c, c₁] ++ gap [' ', '\n'] rest₁) none rest₁
          else operatorsLoop (operator result c (c₁ :: rest₁)) none (c₁ :: rest₁)
        | [] => operator result c []
      else operatorsLoop (result ++ [c]) none rest

theorem operatorsLoop_nil (result : List Char) (delim : Option Char) : operatorsLoop result delim [] = result := by
  rw [operatorsLoop.eq_def]

def normalizeOperators (line : Line) : Line :=
  operatorsLoop (line.takeWhile isIndentChar) none (line.dropWhile isIndentChar)

/-! ## Commas -/

/-- The loop of `normalizeCommas`; with `skip`, it passes the spaces that follow the first one behind a comma. -/
def commasLoop (result : List Char) (delim : Option Char) (skip : Bool) : List Char → List Char
  | [] => result
  | c :: rest =>
    match delim with
    | some d =>
      if c = '\\' then
        match rest with
        | c₁ :: rest => commasLoop (result ++ [c, c₁]) delim false rest
        | [] => result ++ [c]
      else commasLoop (result ++ [c]) (if c = d then none else delim) false rest
    | none =>
      if skip ∧ c = ' ' then commasLoop result none true rest
      else if isQuote c then commasLoop (result ++ [c]) (some c) false rest
      else if c = '#' ∧ rest.head? = some '#' then result ++ c :: rest
      else if c = ',' then
        let result := result.rdropWhile (· == ' ') ++ [c]
        if rest.head?.all (· == '\n') then commasLoop result none false rest
        else commasLoop (result ++ [' ']) none true rest
      else commasLoop (result ++ [c]) none false rest

theorem commasLoop_nil (result : List Char) (delim : Option Char) (skip : Bool) :
    commasLoop result delim skip [] = result := by
  rw [commasLoop.eq_def]

def normalizeCommas (line : Line) : Line := commasLoop [] none false line

/-- A line in the first phase. -/
def normalizeLine (line : Line) : Line :=
  let line := normalizeIndentation (stripTrailingWhitespace line)
  if !isComment line && !isBlank line then normalizeCommas (normalizeOperators line) else line

/-! ## Blank lines -/

/-- A line in the second phase. -/
def layOutStep (result : List Line) (line : Line) : List Line :=
  if result = [] ∧ isBlank line then result
  else if isClassDef line ∧ result ≠ [] then result.rdropWhile isBlank ++ [[], [], line]
  else if isTopLevelDef line ∧ result.getLast?.any (fun last => !isBlank last && !isComment last) then
    result ++ [[], line]
  else result ++ [line]

/-- The second phase. -/
def layOut (lines : List Line) : List Line := (lines.foldl layOutStep []).rdropWhile isBlank

/-- The line before the current one ends with `:`. -/
def opensBlock (prev : Line) : Bool := (stripTrailingWhitespace prev).getLast? == some ':'

/-- The loop of the third phase; `prev` is the line before. -/
def cleanLoop (prev : Option Line) (cleaned : List Line) : List Line → List Line
  | [] => cleaned
  | line :: rest =>
    if isBlank line ∧ prev.any opensBlock then cleanLoop (some line) cleaned rest
    else if isBlank line ∧ rest.head?.any (!isBlank ·) ∧ prev.isSome ∧ cleaned.getLast?.any isBlank then
      cleanLoop (some line) cleaned rest
    else cleanLoop (some line) (cleaned ++ [line]) rest

/-- The third phase. -/
def clean (lines : List Line) : List Line := cleanLoop none [] lines

/-! ## The whole text -/

/-- `std::getline` up to the end of the text: behind the last newline there is no line. -/
def getLines (source : List Char) : List Line :=
  if (lines source).getLast? = some [] then (lines source).dropLast else lines source

/-- The text of the lines, with a newline at the end. -/
def rebuild (cleaned : List Line) : List Char :=
  let output := joinWith '\n' cleaned
  if output.getLast?.all (· == '\n') then output else output ++ ['\n']

/-- `Formatter::format`. -/
def format (source : List Char) : List Char := rebuild (clean (layOut ((getLines source).map normalizeLine)))

end Visuall.Lsp
