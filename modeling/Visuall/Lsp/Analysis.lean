import Visuall.Parser.Interpolation
import Visuall.Checker.Statements

/-!
# Diagnostics of a document

`DocumentStore::reanalyze` (`tools/visuall-lsp/src/document_store.cpp`): the lexer, the parser and the type
checker one after the other, each in a `try` of its own, and the diagnostics they leave.  The symbols and the
scopes of the document are left out.

The tree of the parser holds no positions, so where the type checker reports an error, and its text, is a
parameter; so is the text of an exception of the standard library.

* `Report`, `diagnosticOf`, `stageError` — the diagnostic of an error, and of an exception;
* `reanalyze` — the three stages;
* `recorded` — what the stages record; `Shown` — when a diagnostic shows it;
* `reanalyze_shows_iff` — exactly when nothing recorded is lost.
-/

namespace Visuall.Lsp

open Visuall.Ast Visuall.Lexer Visuall.Parser Visuall.Checker Visuall.Descent

/-! ## Diagnostics -/

/-- What is read of an error of the compiler: `line`, `col`, `endLine`, `endCol` and `what()`. -/
structure Report where
  line : ℤ
  col : ℤ
  endLine : ℤ
  endCol : ℤ
  what : String
  deriving DecidableEq, Repr

/-- `lsp::Diagnostic`. -/
structure Diagnostic where
  startLine : ℤ := 0
  startCol : ℤ := 0
  endLine : ℤ := 0
  endCol : ℤ := 0
  severity : ℤ := 1
  source : String := "visuall"
  message : String
  deriving DecidableEq, Repr

/-- `\s`. -/
def isSpace (c : Char) : Bool := c ∈ [' ', '\t', '\n', '\x0b', '\x0c', '\r']

/-- `^(?:Lex|Parse|Type|Indentation)Error:\s*`, replaced by nothing. -/
def dropErrorPrefix (msg : List Char) : List Char :=
  match ["LexError:", "ParseError:", "TypeError:", "IndentationError:"].find?
      (fun name => name.toList.isPrefixOf msg) with
  | some name => (msg.drop name.toList.length).dropWhile isSpace
  | none => msg

/-- `:\d+`, at the front of a text that is read from its end. -/
def dropNumber (text : List Char) : Option (List Char) :=
  match text.dropWhile isDigit with
  | ':' :: rest => if text.head?.any isDigit then some rest else none
  | _ => none

/-- Whether `\s+at\s+\S+:\d+:\d+$` matches at the front of a text. -/
def isPositionSuffix (text : List Char) : Bool :=
  text.head?.any isSpace &&
    match text.dropWhile isSpace with
    | 'a' :: 't' :: rest =>
      rest.head?.any isSpace && (rest.dropWhile isSpace).all (fun c => !isSpace c) &&
        match dropNumber (rest.dropWhile isSpace).reverse >>= dropNumber with
        | some (_ :: _) => true
        | _ => false
    | _ => false

/-- The text without the first match. -/
def dropPositionSuffix : List Char → List Char
  | [] => []
  | c :: text => if isPositionSuffix (c :: text) then [] else c :: dropPositionSuffix text

/-- `stripErrorPrefix`. -/
def stripErrorPrefix (msg : String) : String := String.ofList (dropPositionSuffix (dropErrorPrefix msg.toList))

/-- The diagnostic of a recorded error; lines and columns count from 0 there. -/
def diagnosticOf (e : Report) : Diagnostic :=
  let startLine := if 0 < e.line then e.line - 1 else 0
  let startCol := if 0 < e.col then e.col - 1 else 0
  { startLine, startCol
    endLine := if 0 < e.endLine then e.endLine - 1 else startLine
    endCol := if 0 < e.endLine then e.endCol - 1 else startCol + 1
    message := stripErrorPrefix e.what }

/-- The diagnostic of an exception, which has no position. -/
def stageError (stage what : String) : Diagnostic := { message := stage ++ what }

/-! ## Errors of the stages -/

def lexReport (e : LexError) : Report := ⟨e.pos.line, e.pos.column, 0, 0, e.what⟩

def parseReport (filename : String) (e : ParseError) : Report where
  line := e.pos.line
  col := e.pos.column
  endLine := 0
  endCol := 0
  what := filename ++ ":" ++ toString e.pos.line ++ ":" ++ toString e.pos.column ++ ": error: " ++ e.message

/-- The reports of the errors that the type checker has recorded, the `i`-th by `report i`. -/
def typeReports (report : ℕ → TypeErr → Report) (errors : List TypeErr) : List Report := errors.mapIdx report

/-! ## The stages -/

/-- How `reanalyze` may fail to return: an access outside the tokens, the use of a null pointer, or a loop that
does not end. -/
inductive Crash
  | outside
  | nullPointer
  | diverges
  deriving DecidableEq, Repr

/-- What `reanalyze` stores in a document. -/
structure Analyzed where
  tokens : List Token
  ast : Option (List Stmt)
  diagnostics : List Diagnostic

variable (stod : Name → Option NumberError) (library : String) (report : ℕ → TypeErr → Report)

/-- Stage 1.  When the lexer throws, no tokens are stored. -/
def lexStage (content : List Char) (filename : String) : List Token × List Diagnostic :=
  match tokenize content filename with
  | .ok tokens => (tokens, (finalState content filename).errors.reverse.map fun e => diagnosticOf (lexReport e))
  | .error e => ([], [stageError "Lexer error: " e.what])

/-- The text of what is thrown. -/
def thrownWhat (filename : String) : Thrown → String
  | .parse e => (parseReport filename e).what
  | .lex e => e.what
  | .outOfRange => library
  | .nullPointer => ""

/-- Stage 2, on whatever tokens are stored. -/
def parseStage (filename : String) (tokens : List Token) : Except Crash (Option (List Stmt) × List Diagnostic) :=
  match run stod filename tokens with
  | .error .outside => .error .outside
  | .error .exhausted => .error .diverges
  | .error (.thrown e) => .ok (none, [stageError "Parser error: " (thrownWhat library filename e)])
  | .ok r =>
    match r.result with
    | .ok program => .ok (some program, r.errors.map fun e => diagnosticOf (parseReport filename e))
    | .error .nullPointer => .error .nullPointer
    | .error e => .ok (none, [stageError "Parser error: " (thrownWhat library filename e)])

/-- Stage 3. -/
def checkStage (program : List Stmt) : Except Crash (List Diagnostic) :=
  match Checker.check program with
  | (.ok (), σ) => .ok ((typeReports report σ.errors).map diagnosticOf)
  | (.error .diverges, _) => .error .diverges
  | (.error (.thrown e), σ) => .ok [stageError "Type error: " (report σ.errors.length e).what]

/-- `reanalyze`, on the content and the file name of a document. -/
def reanalyze (content : List Char) (filename : String) : Except Crash Analyzed := do
  let (tokens, lexed) := lexStage content filename
  let (ast, parsed) ← parseStage stod library filename tokens
  let checked ← (match ast with
    | some program => checkStage report program
    | none => pure [] : Except Crash (List Diagnostic))
  return ⟨tokens, ast, lexed ++ parsed ++ checked⟩

/-! ## What is recorded, and what is shown -/

def lexErrors (content : List Char) (filename : String) : List Report :=
  (finalState content filename).errors.reverse.map lexReport

/-- The loop of `parse` on the stored tokens, if it ends. -/
def parsed (content : List Char) (filename : String) : Option ParseRun :=
  (run stod filename (lexStage content filename).1).toOption

def parseErrors (content : List Char) (filename : String) : List Report :=
  match parsed stod content filename with
  | some r => r.errors.map (parseReport filename)
  | none => []

/-- The program that the type checker is run on. -/
def program (content : List Char) (filename : String) : Option (List Stmt) :=
  match parsed stod content filename with
  | some r => r.result.toOption
  | none => none

def typeErrors (content : List Char) (filename : String) : List Report :=
  match program stod content filename with
  | some p => typeReports report (Checker.check p).2.errors
  | none => []

/-- Every error that one of the stages has recorded. -/
def recorded (content : List Char) (filename : String) : List Report :=
  lexErrors content filename ++ parseErrors stod content filename ++ typeErrors stod report content filename

/-- Where an error is shown. -/
def Report.start (e : Report) : ℤ × ℤ :=
  (if 0 < e.line then e.line - 1 else 0, if 0 < e.col then e.col - 1 else 0)

def Diagnostic.start (d : Diagnostic) : ℤ × ℤ := (d.startLine, d.startCol)

@[simp] theorem diagnosticOf_start (e : Report) : (diagnosticOf e).start = e.start := rfl

@[simp] theorem stageError_start (stage what : String) : (stageError stage what).start = (0, 0) := rfl

/-- A diagnostic shows an error at its position. -/
def Shown (ds : List Diagnostic) (e : Report) : Prop := ∃ d ∈ ds, d.start = e.start

/-- `reanalyze` returns, and every recorded error is shown. -/
def LosesNothing (content : List Char) (filename : String) : Prop :=
  ∃ d, reanalyze stod library report content filename = .ok d ∧
    ∀ e ∈ recorded stod report content filename, Shown d.diagnostics e

/-- An error at the first character, or where the lexer has recorded one. -/
def Covered (content : List Char) (filename : String) (e : Report) : Prop :=
  e.start = (0, 0) ∨ ∃ l ∈ lexErrors content filename, l.start = e.start

/-- No stage throws away what it has recorded: the lexer throws nothing; the parser uses no null pointer, and
the errors it records are where the diagnostic of its exception is, or one of the lexer; the type checker ends,
and so are its errors when it throws. -/
structure Keeps (content : List Char) (filename : String) : Prop where
  lexer : (finalState content filename).firstError = none
  pointer : ∀ r ∈ parsed stod content filename, r.uncaught ≠ some .nullPointer
  parser : ∀ e ∈ parseErrors stod content filename, Covered content filename e
  ends : ∀ p ∈ program stod content filename, (Checker.check p).1 ≠ .error .diverges
  checker : ∀ p ∈ program stod content filename, ∀ e, (Checker.check p).1 = .error (.thrown e) →
    ∀ e ∈ typeErrors stod report content filename, Covered content filename e

/-! ## The parser's result -/

theorem result_ok {r : ParseRun} {p : List Stmt} (h : r.result = .ok p) : r.uncaught = none ∧ r.errors = [] := by
  obtain ⟨stmts, errors, uncaught⟩ := r
  cases uncaught with
  | some e => cases h
  | none =>
    cases errors with
    | cons e errors => cases h
    | nil => exact ⟨rfl, rfl⟩

theorem result_nullPointer_iff {r : ParseRun} :
    r.result = .error .nullPointer ↔ r.uncaught = some .nullPointer := by
  obtain ⟨stmts, errors, uncaught⟩ := r
  cases uncaught with
  | some e => simp [ParseRun.result]
  | none => cases errors <;> simp [ParseRun.result]

/-! ## The diagnostics of each stage -/

section Stages

variable {stod : Name → Option NumberError} {library : String} {report : ℕ → TypeErr → Report}
  {content : List Char} {filename : String} {e : Report} {es : List Report} {ds : List Diagnostic}

theorem shown_of_mem (h : e ∈ es) : Shown (es.map diagnosticOf) e :=
  ⟨diagnosticOf e, List.mem_map_of_mem h, rfl⟩

theorem Shown.append_left (h : Shown ds e) (more : List Diagnostic) : Shown (ds ++ more) e := by
  obtain ⟨d, hd, hstart⟩ := h
  exact ⟨d, List.mem_append_left more hd, hstart⟩

theorem Shown.append_right (h : Shown ds e) (more : List Diagnostic) : Shown (more ++ ds) e := by
  obtain ⟨d, hd, hstart⟩ := h
  exact ⟨d, List.mem_append_right more hd, hstart⟩

/-- With the diagnostic of an exception behind those of the lexer, the errors that are covered are shown. -/
theorem shown_iff_covered (stage what : String) :
    Shown ((lexErrors content filename).map diagnosticOf ++ [stageError stage what]) e ↔
      Covered content filename e := by
  constructor
  · intro ⟨d, hd, hstart⟩
    rcases List.mem_append.mp hd with hd | hd
    · obtain ⟨l, hl, rfl⟩ := List.mem_map.mp hd
      exact .inr ⟨l, hl, hstart⟩
    · rw [List.mem_singleton.mp hd] at hstart
      exact .inl hstart.symm
  · intro h
    rcases h with h | ⟨l, hl, hstart⟩
    · exact ⟨stageError stage what, by simp, h.symm⟩
    · exact ⟨diagnosticOf l, List.mem_append_left _ (List.mem_map_of_mem hl), hstart⟩

/-- The first stage keeps nothing but an entry without a position when the lexer throws. -/
theorem lexStage_throws {e : LexError} (h : (finalState content filename).firstError = some e) :
    (lexStage content filename).1 = [] := by
  rw [lexStage, tokenize, h]

theorem lexStage_ok (h : (finalState content filename).firstError = none) :
    ∃ tokens, Ended tokens ∧
      lexStage content filename = (tokens, (lexErrors content filename).map diagnosticOf) := by
  have htokens : tokenize content filename = .ok (finalState content filename).tokens.reverse := by
    rw [tokenize, h]
  refine ⟨_, tokenize_ended htokens, ?_⟩
  rw [lexStage, htokens, lexErrors, List.map_map]
  rfl

variable (library report) in
/-- The second stage on the tokens of the first. -/
theorem reanalyze_of_parsed {r : ParseRun} (h : (finalState content filename).firstError = none)
    (hr : parsed stod content filename = some r) :
    reanalyze stod library report content filename =
      match r.result with
      | .ok p => checkStage report p >>= fun checked =>
          .ok ⟨(lexStage content filename).1, some p, (lexErrors content filename).map diagnosticOf ++ checked⟩
      | .error .nullPointer => .error .nullPointer
      | .error e => .ok ⟨(lexStage content filename).1, none,
          (lexErrors content filename).map diagnosticOf ++
            [stageError "Parser error: " (thrownWhat library filename e)]⟩ := by
  obtain ⟨tokens, -, hstage⟩ := lexStage_ok h
  have hrun : run stod filename tokens = .ok r := by
    rw [parsed, hstage] at hr
    cases hrun : run stod filename tokens with
    | error e =>
      rw [hrun] at hr
      cases hr
    | ok r' =>
      rw [hrun] at hr
      cases hr
      rfl
  rw [reanalyze, hstage]
  simp only [parseStage, hrun]
  cases hresult : r.result with
  | ok p =>
    rw [(result_ok hresult).2]
    simp only [List.map_nil, bind, Except.bind, pure, Except.pure, List.append_nil]
  | error e => cases e <;> simp [bind, Except.bind, pure, Except.pure]

/-- A lexer that throws leaves no tokens, and the parser reads the first. -/
theorem reanalyze_throws {e : LexError} (h : (finalState content filename).firstError = some e) :
    reanalyze stod library report content filename = .error .outside := by
  rw [reanalyze, ← Prod.mk.eta (p := lexStage content filename), lexStage_throws h]
  rfl

variable (stod) in
theorem parsed_ok (h : (finalState content filename).firstError = none) :
    ∃ r, parsed stod content filename = some r := by
  obtain ⟨tokens, hended, hstage⟩ := lexStage_ok h
  obtain ⟨r, hr, -⟩ := run_ended stod filename hended
  exact ⟨r, by rw [parsed, hstage, hr]; rfl⟩

theorem lexer_shown (h : e ∈ lexErrors content filename) (more : List Diagnostic) :
    Shown ((lexErrors content filename).map diagnosticOf ++ more) e :=
  (shown_of_mem h).append_left more

/-! ## One lemma for each way to end -/

/-- The type checker is run, and ends. -/
theorem losesNothing_checked {p : List Stmt} {σ : State} (d : Analyzed)
    (hd : reanalyze stod library report content filename = .ok d)
    (hdiagnostics : d.diagnostics = (lexErrors content filename).map diagnosticOf ++
      (typeReports report σ.errors).map diagnosticOf)
    (hp : program stod content filename = some p) (hparse : parseErrors stod content filename = [])
    (hσ : (Checker.check p).2 = σ) : LosesNothing stod library report content filename := by
  refine ⟨d, hd, ?_⟩
  intro e he
  rw [recorded, hparse, List.append_nil] at he
  rw [hdiagnostics]
  rcases List.mem_append.mp he with he | he
  · exact lexer_shown he _
  · rw [typeErrors, hp] at he
    rw [← hσ]
    exact (shown_of_mem he).append_right _

/-- A stage ends with an exception, and the stages before it have recorded errors of the lexer only. -/
theorem losesNothing_stageError_iff {stage what : String} (es : List Report) (d : Analyzed)
    (hd : reanalyze stod library report content filename = .ok d)
    (hdiagnostics : d.diagnostics = (lexErrors content filename).map diagnosticOf ++ [stageError stage what])
    (hrecorded : recorded stod report content filename = lexErrors content filename ++ es) :
    LosesNothing stod library report content filename ↔ ∀ e ∈ es, Covered content filename e := by
  constructor
  · intro ⟨d', hd', hall⟩ e he
    rw [hd] at hd'
    cases hd'
    have hshown := hall e (by rw [hrecorded]; exact List.mem_append_right _ he)
    rw [hdiagnostics] at hshown
    exact (shown_iff_covered stage what).mp hshown
  · intro hcovered
    refine ⟨d, hd, ?_⟩
    intro e he
    rw [hrecorded] at he
    rw [hdiagnostics]
    rcases List.mem_append.mp he with he | he
    · exact lexer_shown he _
    · exact (shown_iff_covered stage what).mpr (hcovered e he)

theorem not_losesNothing {c : Crash} (h : reanalyze stod library report content filename = .error c) :
    ¬ LosesNothing stod library report content filename := by
  intro ⟨d, hd, _⟩
  rw [h] at hd
  cases hd

/-- The parser returns a program. -/
theorem losesNothing_program_iff {r : ParseRun} {p : List Stmt}
    (hlexer : (finalState content filename).firstError = none) (hr : parsed stod content filename = some r)
    (hresult : r.result = .ok p) :
    LosesNothing stod library report content filename ↔ Keeps stod report content filename := by
  have hrun := reanalyze_of_parsed library report hlexer hr
  have hparse : parseErrors stod content filename = r.errors.map (parseReport filename) := by
    rw [parseErrors, hr]
  have hprogram : program stod content filename = r.result.toOption := by
    rw [program, hr]
  obtain ⟨huncaught, herrors⟩ := result_ok hresult
  rw [herrors, List.map_nil] at hparse
  rw [hresult] at hrun hprogram
  have hkeeps : Keeps stod report content filename ↔ (Checker.check p).1 ≠ .error .diverges ∧
      ∀ e, (Checker.check p).1 = .error (.thrown e) →
        ∀ e ∈ typeErrors stod report content filename, Covered content filename e := by
    constructor
    · intro h
      exact ⟨h.ends p hprogram, h.checker p hprogram⟩
    · intro ⟨hends, hchecker⟩
      refine ⟨hlexer, fun r' hr' => ?_, fun e he => ?_, fun p' hp' => ?_, fun p' hp' => ?_⟩
      · rw [hr] at hr'
        cases hr'
        simp [huncaught]
      · rw [hparse] at he
        cases he
      · rw [hprogram] at hp'
        cases hp'
        exact hends
      · rw [hprogram] at hp'
        cases hp'
        exact hchecker
  rw [hkeeps]
  rcases hcheck : Checker.check p with ⟨(_ | _) | _, σ⟩
  · rename_i e
    simp only [checkStage, hcheck] at hrun
    have hiff := losesNothing_stageError_iff (typeErrors stod report content filename) _ hrun rfl
      (by rw [recorded, hparse, List.append_nil])
    rw [hiff]
    constructor
    · intro h
      exact ⟨by simp, fun _ _ => h⟩
    · intro h
      exact h.2 e rfl
  · simp only [checkStage, hcheck] at hrun
    constructor
    · intro h
      exact absurd h (not_losesNothing hrun)
    · intro h
      exact absurd rfl h.1
  · simp only [checkStage, hcheck] at hrun
    have hall := losesNothing_checked (σ := σ) _ hrun rfl hprogram hparse (by rw [hcheck])
    constructor
    · intro _
      exact ⟨by simp, fun e he => by cases he⟩
    · intro _
      exact hall

/-- The parser throws, or uses a null pointer. -/
theorem losesNothing_exception_iff {r : ParseRun} {e : Thrown}
    (hlexer : (finalState content filename).firstError = none) (hr : parsed stod content filename = some r)
    (hresult : r.result = .error e) :
    LosesNothing stod library report content filename ↔ Keeps stod report content filename := by
  have hrun := reanalyze_of_parsed library report hlexer hr
  have hprogram : program stod content filename = r.result.toOption := by
    rw [program, hr]
  rw [hresult] at hrun hprogram
  by_cases hnull : e = .nullPointer
  · rw [hnull] at hrun hresult
    constructor
    · intro h
      exact absurd h (not_losesNothing hrun)
    · intro h
      exact absurd (result_nullPointer_iff.mp hresult) (h.pointer r hr)
  · have hthrown : reanalyze stod library report content filename =
        .ok ⟨(lexStage content filename).1, none, (lexErrors content filename).map diagnosticOf ++
          [stageError "Parser error: " (thrownWhat library filename e)]⟩ := by
      rw [hrun]
      cases e with
      | nullPointer => exact absurd rfl hnull
      | _ => rfl
    have hnone : program stod content filename = none := hprogram
    have hrecorded : recorded stod report content filename =
        lexErrors content filename ++ parseErrors stod content filename := by
      rw [recorded, typeErrors, hnone, List.append_nil]
    rw [losesNothing_stageError_iff _ _ hthrown rfl hrecorded]
    constructor
    · intro h
      refine ⟨hlexer, fun r' hr' => ?_, h, fun p hp => ?_, fun p hp => ?_⟩
      · rw [hr] at hr'
        cases hr'
        intro hpointer
        have := result_nullPointer_iff.mpr hpointer
        rw [hresult] at this
        cases this
        exact hnull rfl
      · rw [hnone] at hp
        cases hp
      · rw [hnone] at hp
        cases hp
    · intro h
      exact h.parser

end Stages

/-! ## When nothing is lost -/

/-- **Exactly when no error is lost.**  For every content, file name and positions of the type errors:
`reanalyze` returns with a diagnostic at the position of every recorded error exactly when no stage throws away
what it has recorded. -/
theorem reanalyze_shows_iff (content : List Char) (filename : String) :
    LosesNothing stod library report content filename ↔ Keeps stod report content filename := by
  cases hlexer : (finalState content filename).firstError with
  | some e =>
    constructor
    · intro h
      exact absurd h (not_losesNothing (reanalyze_throws hlexer))
    · intro h
      rw [h.lexer] at hlexer
      cases hlexer
  | none =>
    obtain ⟨r, hr⟩ := parsed_ok stod hlexer
    cases hresult : r.result with
    | ok p => exact losesNothing_program_iff hlexer hr hresult
    | error e => exact losesNothing_exception_iff hlexer hr hresult

/-- A string that is not closed: the lexer throws, and the parser reads a token that is not there. -/
theorem unclosed_string_outside :
    ¬ LosesNothing (fun _ => none) "stoll" (fun _ _ => ⟨1, 1, 0, 0, ""⟩) "x = \"a".toList "a.vsl" :=
  not_losesNothing (c := .outside) (by rfl)

end Visuall.Lsp
