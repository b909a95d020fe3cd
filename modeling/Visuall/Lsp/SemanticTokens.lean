import Visuall.Lsp.EditorPositions

/-!
# Semantic tokens

`LspServer::handleSemanticTokens`: five numbers for every highlighted token, its line and column relative to the
one before.  The widths of `int` and `uint32_t` are left out, as in the lexer.

* `handleSemanticTokens` — the server; `decode` — the client, which adds the numbers up;
* `decode_emit` — the client finds the line, the column and the length of the lexeme of every token;
* `decoded_ordered` — the ranges follow one another and do not overlap;
* `semanticTokens_exact_iff` — exactly when they are the ranges of the tokens in the editor.
-/

namespace Visuall.Lsp.SemanticTokens

open Visuall.Lexer

/-! ## The server -/

/-- `SemanticTokenType`. -/
inductive SemanticTokenType
  | keyword
  | function
  | «class»
  | parameter
  | variable
  | string
  | number
  | comment
  | type
  deriving DecidableEq

/-- The index in the legend. -/
def SemanticTokenType.index : SemanticTokenType → ℤ
  | .keyword => 0
  | .function => 1
  | .class => 2
  | .parameter => 3
  | .variable => 4
  | .string => 5
  | .number => 6
  | .comment => 7
  | .type => 8

/-- `MOD_DEFAULT_LIB`. -/
def modDefaultLib : ℤ := 2

/-- `classifyToken`. -/
def classifyToken : TokenType → Option SemanticTokenType
  | .kwDefine | .kwClass | .kwInit | .kwIf | .kwElsif | .kwElse | .kwFor | .kwWhile | .kwIn | .kwReturn | .kwBreak
  | .kwContinue | .kwPass | .kwAnd | .kwOr | .kwNot | .kwTrue | .kwFalse | .kwNull | .kwImport | .kwFrom | .kwTry
  | .kwCatch | .kwFinally | .kwThrow | .kwThis | .kwExtends | .kwImplements | .kwInterface | .kwSuper | .kwYield
  | .kwGo | .kwChan | .kwSend | .kwMatch | .kwCase | .kwEnum | .kwDel | .kwWith | .kwAssert | .kwLambda | .kwAs =>
    some .keyword
  | .stringLiteral | .fstringLiteral => some .string
  | .intLiteral | .floatLiteral => some .number
  | .boolLiteral | .nullLiteral => some .keyword
  | _ => none

/-- What is read of a `SymbolInfo`. -/
structure SymbolInfo where
  name : List Char
  symbolKind : ℤ
  defLine : ℤ
  defCol : ℤ

/-- What is read of a `Document`; of the tree, whether there is one. -/
structure Document where
  tokens : List Token
  ast : Bool
  symbols : List SymbolInfo

/-- The `switch` over the kinds of symbols. -/
def kindType (symbolKind : ℤ) : SemanticTokenType :=
  if symbolKind = 12 then .function
  else if symbolKind = 5 then .class
  else if symbolKind = 6 then .function
  else if symbolKind = 9 then .function
  else .variable

/-- The first symbol that is defined where the token stands. -/
def symbolAt (symbols : List SymbolInfo) (tok : Token) : Option SymbolInfo :=
  symbols.find? fun s => s.defLine + 1 == tok.pos.line && s.defCol + 1 == tok.pos.column && s.name == tok.lexeme

/-- The type of an identifier, by the symbols and by the token behind it. -/
def identifierType (doc : Document) (tok : Token) (next : Option Token) : SemanticTokenType :=
  match symbolAt doc.symbols tok with
  | some s => kindType s.symbolKind
  | none => if next.any (·.type == .colon) then .parameter else .variable

/-- The semantic type of a token, unless it is not highlighted. -/
def semType (doc : Document) (tok : Token) (next : Option Token) : Option SemanticTokenType :=
  if tok.type = .newline ∨ tok.type = .indent ∨ tok.type = .dedent ∨ tok.type = .endOfFile ∨ tok.lexeme = [] then none
  else
    match classifyToken tok.type with
    | some sem => some sem
    | none => if tok.type = .identifier ∧ doc.ast = true then some (identifierType doc tok next) else none

/-- The loop over the tokens. -/
def emit (doc : Document) (prevLine prevCol : ℤ) : List Token → List ℤ
  | [] => []
  | tok :: rest =>
    match semType doc tok rest.head? with
    | none => emit doc prevLine prevCol rest
    | some sem =>
      let lspLine : ℤ := tok.pos.line - 1
      let lspCol : ℤ := tok.pos.column - 1
      let length : ℤ := tok.lexeme.length
      let deltaLine := lspLine - prevLine
      let deltaCol := if deltaLine = 0 then lspCol - prevCol else lspCol
      let modifiers := if sem = .keyword then modDefaultLib else 0
      deltaLine :: deltaCol :: length :: sem.index :: modifiers :: emit doc lspLine lspCol rest

/-- `handleSemanticTokens`: the `data` of the result. -/
def handleSemanticTokens : Option Document → List ℤ
  | none => []
  | some doc => emit doc 0 0 doc.tokens

/-! ## The client -/

/-- The ranges that the numbers stand for, behind a position. -/
def decodeFrom (line character : ℕ) : List ℤ → List Span
  | deltaLine :: deltaStart :: length :: _ :: _ :: data =>
    let start : Position := ⟨line + deltaLine.toNat, if deltaLine = 0 then character + deltaStart.toNat else deltaStart.toNat⟩
    ⟨start, ⟨start.line, start.character + length.toNat⟩⟩ :: decodeFrom start.line start.character data
  | _ => []

/-- The ranges of the data. -/
def decode (data : List ℤ) : List Span := decodeFrom 0 0 data

/-- The tokens that are highlighted. -/
def shown (doc : Document) : List Token → List Token
  | [] => []
  | tok :: rest => if (semType doc tok rest.head?).isSome then tok :: shown doc rest else shown doc rest

/-- A position in front of another one. -/
def Before (p q : Position) : Prop := p.line < q.line ∨ p.line = q.line ∧ p.character < q.character

instance : DecidableRel Before := fun p q => inferInstanceAs (Decidable (p.line < q.line ∨ _))

/-- The ranges are not empty, and each ends where the later ones begin, or before. -/
def Ordered (spans : List Span) : Prop :=
  (∀ s ∈ spans, Before s.start s.stop) ∧ spans.Pairwise fun s s' => Before s.start s'.start ∧ s.stop.Le s'.start

/-! ## What the client finds -/

section Decoding

variable {doc : Document} {tok : Token} {next : Option Token} {ts : List Token}

theorem classifyToken_scanned {type : TokenType} (h : classifyToken type ≠ none) : Scanned type := by
  cases type <;> first | decide | exact absurd rfl h

/-- A highlighted token is read by a sub-lexer, and its lexeme is not empty. -/
theorem scanned_of_semType (h : (semType doc tok next).isSome) : Scanned tok.type ∧ tok.lexeme ≠ [] := by
  unfold semType at h
  split at h
  · cases h
  · next hskip =>
      refine ⟨?_, fun hempty => hskip (.inr (.inr (.inr (.inr hempty))))⟩
      cases hclass : classifyToken tok.type with
      | some sem => exact classifyToken_scanned (by rw [hclass]; exact Option.some_ne_none _)
      | none =>
          rw [hclass] at h
          dsimp only at h
          split at h
          · next hident =>
              rw [hident.1]
              decide
          · cases h

theorem shown_sublist (doc : Document) (ts : List Token) : (shown doc ts).Sublist ts := by
  induction ts with
  | nil => exact .slnil
  | cons tok rest ih =>
      rw [shown]
      split
      · exact ih.cons_cons tok
      · exact ih.cons tok

theorem scanned_of_shown (h : tok ∈ shown doc ts) : Scanned tok.type ∧ tok.lexeme ≠ [] := by
  induction ts with
  | nil => cases h
  | cons t rest ih =>
      rw [shown] at h
      split at h
      · next hsome =>
          rcases List.mem_cons.mp h with rfl | h
          · exact scanned_of_semType hsome
          · exact ih h
      · exact ih h

/-- A token is behind a position, which counts from 0. -/
def Behind (line character : ℕ) (t : Token) : Prop :=
  1 ≤ t.pos.column ∧ (line + 1 < t.pos.line ∨ line + 1 = t.pos.line ∧ character + 1 ≤ t.pos.column)

/-- **Decoding what was emitted.** -/
theorem decode_emit (doc : Document) {line character : ℕ} (hbehind : ∀ t ∈ shown doc ts, Behind line character t)
    (hordered : (shown doc ts).Pairwise fun t t' => 1 ≤ t'.pos.column ∧ Upto t.pos t'.pos) :
    decodeFrom line character (emit doc line character ts) = (shown doc ts).map lexemeSpan := by
  induction ts generalizing line character with
  | nil => rfl
  | cons tok rest ih =>
      rw [shown] at *
      rw [emit]
      cases hsem : semType doc tok rest.head? with
      | none =>
          rw [hsem] at hbehind hordered
          exact ih hbehind hordered
      | some sem =>
          rw [hsem] at hbehind hordered
          simp only [Option.isSome_some, if_true] at hbehind hordered ⊢
          obtain ⟨htok, -⟩ := List.forall_mem_cons.mp hbehind
          obtain ⟨hnext, hrest⟩ := List.pairwise_cons.mp hordered
          obtain ⟨hcol, hline⟩ := htok
          have hstart : (⟨line + ((tok.pos.line : ℤ) - 1 - line).toNat,
              if ((tok.pos.line : ℤ) - 1 - line) = 0 then
                character + (if ((tok.pos.line : ℤ) - 1 - line) = 0 then ((tok.pos.column : ℤ) - 1) - character else (tok.pos.column : ℤ) - 1).toNat
              else (if ((tok.pos.line : ℤ) - 1 - line) = 0 then ((tok.pos.column : ℤ) - 1) - character else (tok.pos.column : ℤ) - 1).toNat⟩ : Position) =
              ⟨tok.pos.line - 1, tok.pos.column - 1⟩ := by
            split_ifs with hsame
            · rw [Position.mk.injEq]
              omega
            · rw [Position.mk.injEq]
              omega
          have hcast : ((tok.pos.line : ℤ) - 1) = ((tok.pos.line - 1 : ℕ) : ℤ) ∧ ((tok.pos.column : ℤ) - 1) = ((tok.pos.column - 1 : ℕ) : ℤ) := by
            omega
          rw [decodeFrom, hstart, List.map_cons, hcast.1, hcast.2, ih ?_ hrest]
          · rfl
          · intro t ht
            obtain ⟨hcol', hupto⟩ := hnext t ht
            refine ⟨hcol', ?_⟩
            show tok.pos.line - 1 + 1 < t.pos.line ∨ tok.pos.line - 1 + 1 = t.pos.line ∧ tok.pos.column - 1 + 1 ≤ t.pos.column
            unfold Upto at hupto
            omega

end Decoding

/-! ## Exactness -/

section Exact

variable {source : List Char} {filename : String} {tokens : List Token}

/-- The highlighted tokens of a document stand one behind the other, each written in the normalized text. -/
theorem shown_placed (h : tokenize source filename = .ok tokens) (doc : Document) :
    (∀ t ∈ shown doc tokens, ∃ before after, Written (Lexer.normalizeIndentation source) t before after) ∧
      (shown doc tokens).Pairwise fun t t' => Upto (endOf (Lexer.normalizeIndentation source) t) t'.pos := by
  obtain ⟨n, hplaced⟩ := tokens_placed h
  have hsub := shown_sublist doc tokens
  constructor
  · intro t ht
    obtain ⟨before, after, hw, -⟩ := hplaced.written t (List.mem_reverse.mpr (hsub.subset ht)) (scanned_of_shown ht).1
    exact ⟨before, after, hw⟩
  · have hordered := (List.pairwise_reverse.mp hplaced.ordered).sublist hsub
    exact hordered.imp_of_mem fun ht ht' hup => hup (scanned_of_shown ht').1 (scanned_of_shown ht).1

/-- The client finds the line, the column and the length of the lexeme of every highlighted token. -/
theorem decode_handleSemanticTokens (h : tokenize source filename = .ok tokens) (ast : Bool) (symbols : List SymbolInfo) :
    decode (handleSemanticTokens (some ⟨tokens, ast, symbols⟩)) = (shown ⟨tokens, ast, symbols⟩ tokens).map lexemeSpan := by
  obtain ⟨hwritten, hordered⟩ := shown_placed h ⟨tokens, ast, symbols⟩
  refine decode_emit ⟨tokens, ast, symbols⟩ (fun t ht => ?_) (hordered.imp_of_mem fun ht ht' hup => ?_)
  · obtain ⟨before, after, hw⟩ := hwritten t ht
    obtain ⟨hline, hcol⟩ := hw.one_le
    refine ⟨hcol, ?_⟩
    omega
  · obtain ⟨before, after, hw⟩ := hwritten _ ht'
    exact ⟨hw.one_le.2, (upto_afterText _ _).trans hup⟩

/-- **The ranges follow one another** and do not overlap, whether they are exact or not. -/
theorem decoded_ordered (h : tokenize source filename = .ok tokens) (ast : Bool) (symbols : List SymbolInfo) :
    Ordered (decode (handleSemanticTokens (some ⟨tokens, ast, symbols⟩))) := by
  obtain ⟨hwritten, hordered⟩ := shown_placed h ⟨tokens, ast, symbols⟩
  rw [decode_handleSemanticTokens h]
  constructor
  · refine List.forall_mem_map.mpr fun t ht => .inr ⟨rfl, ?_⟩
    exact Nat.lt_add_of_pos_right (List.length_pos_iff.mpr (scanned_of_shown ht).2)
  · refine List.pairwise_map.mpr (hordered.imp_of_mem fun {t t'} ht ht' hup => ?_)
    obtain ⟨before, after, hw⟩ := hwritten t ht
    obtain ⟨before', after', hw'⟩ := hwritten t' ht'
    obtain ⟨hline, hcol⟩ := hw.one_le
    obtain ⟨hline', hcol'⟩ := hw'.one_le
    obtain ⟨c, s, hspelled, -⟩ := hw.spells.head
    have hpos : 0 < (spelling (Lexer.normalizeIndentation source) t).length := by
      rw [hspelled]
      exact Nat.succ_pos _
    have hle := hw.spells.length_le
    show (t.pos.line - 1 < t'.pos.line - 1 ∨ t.pos.line - 1 = t'.pos.line - 1 ∧ t.pos.column - 1 < t'.pos.column - 1) ∧
      (t.pos.line - 1 < t'.pos.line - 1 ∨ t.pos.line - 1 = t'.pos.line - 1 ∧ t.pos.column - 1 + t.lexeme.length ≤ t'.pos.column - 1)
    by_cases hone : '\n' ∈ spelling (Lexer.normalizeIndentation source) t
    · have hlt : t.pos.line < (endOf (Lexer.normalizeIndentation source) t).line := line_lt_afterText hone t.pos
      have hlater : t.pos.line < t'.pos.line := by
        rcases hup with hup | ⟨hup, -⟩
        · exact hlt.trans hup
        · exact hup ▸ hlt
      omega
    · have hend : endOf (Lexer.normalizeIndentation source) t =
          ⟨t.pos.line, t.pos.column + (spelling (Lexer.normalizeIndentation source) t).length⟩ :=
        afterText_of_notMem hone t.pos
      rw [hend] at hup
      have hup' : t.pos.line < t'.pos.line ∨
          t.pos.line = t'.pos.line ∧ t.pos.column + (spelling (Lexer.normalizeIndentation source) t).length ≤ t'.pos.column := hup
      omega

/-- **Exactness of the semantic tokens.**  The ranges that the client decodes follow one another, do not overlap and are
those of the highlighted tokens in the editor exactly if the server counts each of these tokens as the editor does. -/
theorem semanticTokens_exact_iff (source : List Char) (filename : String) (tokens : List Token)
    (h : tokenize source filename = .ok tokens) (ast : Bool) (symbols : List SymbolInfo) :
    (Ordered (decode (handleSemanticTokens (some ⟨tokens, ast, symbols⟩))) ∧
      decode (handleSemanticTokens (some ⟨tokens, ast, symbols⟩)) = (shown ⟨tokens, ast, symbols⟩ tokens).map (editorSpan source)) ↔
    ∀ t ∈ shown ⟨tokens, ast, symbols⟩ tokens, Faithful source t := by
  have hiff : ∀ t ∈ shown ⟨tokens, ast, symbols⟩ tokens, (lexemeSpan t = editorSpan source t ↔ Faithful source t) := fun t ht => by
    obtain ⟨before, after, hw⟩ := (shown_placed h ⟨tokens, ast, symbols⟩).1 t ht
    rw [eq_comm, editorSpan_iff hw]
  rw [decode_handleSemanticTokens h, List.map_inj_left]
  constructor
  · rintro ⟨-, hall⟩ t ht
    exact (hiff t ht).mp (hall t ht)
  · intro hall
    refine ⟨?_, fun t ht => (hiff t ht).mpr (hall t ht)⟩
    rw [← decode_handleSemanticTokens h]
    exact decoded_ordered h ast symbols

end Exact

/-- The tokens of a text, if it tokenizes. -/
def tokensOf (source : List Char) : List Token := (tokenize source "f").toOption.getD []

/-- A line without strings. -/
theorem semanticTokens_exact_instance :
    (Ordered (decode (handleSemanticTokens (some ⟨tokensOf "if a:\n\tb = 10\n".toList, true, []⟩))) ∧
      decode (handleSemanticTokens (some ⟨tokensOf "if a:\n\tb = 10\n".toList, true, []⟩)) =
        (shown ⟨tokensOf "if a:\n\tb = 10\n".toList, true, []⟩ (tokensOf "if a:\n\tb = 10\n".toList)).map (editorSpan "if a:\n\tb = 10\n".toList)) ↔
    ∀ t ∈ shown ⟨tokensOf "if a:\n\tb = 10\n".toList, true, []⟩ (tokensOf "if a:\n\tb = 10\n".toList),
      Faithful "if a:\n\tb = 10\n".toList t :=
  semanticTokens_exact_iff _ "f" _ (by decide +kernel) true []

/-- The range of a string leaves out as many characters at its end as it has quotes. -/
theorem string_range_short : decode (handleSemanticTokens (some ⟨tokensOf "a = \"b\"\n".toList, true, []⟩)) ≠
    (shown ⟨tokensOf "a = \"b\"\n".toList, true, []⟩ (tokensOf "a = \"b\"\n".toList)).map (editorSpan "a = \"b\"\n".toList) := by
  decide +kernel

end Visuall.Lsp.SemanticTokens
