import Visuall.Lexer.Tokenize

/-!
# Rounds of the main loop

What every round does whatever it meets: the sub-lexers take a part of the text from its front, so the
cursor moves forward over the text and its position stays the position of what it has passed; a round
takes a character or leaves the line start, so the main loop ends.
-/

namespace Visuall.Lexer

/-! ## The text a sub-lexer leaves -/

/-- The text that is left where a sub-lexer ends or throws. -/
def restOf {α : Type} : Except Failure (α × List Char) → List Char
  | .ok p => p.2
  | .error f => f.rest

@[simp] theorem restOf_ok {α : Type} (a : α) (rest : List Char) :
    restOf (.ok (a, rest) : Except Failure (α × List Char)) = rest := rfl

@[simp] theorem restOf_error {α : Type} (f : Failure) :
    restOf (.error f : Except Failure (α × List Char)) = f.rest := rfl

/-- A sub-lexer that goes on with the text another one left. -/
theorem restOf_bind_suffix {α β : Type} {text : List Char} {x : Except Failure (α × List Char)}
    {f : α × List Char → Except Failure (β × List Char)} (hx : restOf x <:+ text)
    (hf : ∀ a rest, x = .ok (a, rest) → restOf (f (a, rest)) <:+ rest) :
    restOf (x >>= f) <:+ text := by
  cases x with
  | error e => exact hx
  | ok p => exact (hf p.1 p.2 rfl).trans hx

theorem hexDigits_suffix (n : ℕ) (message : String) (text : List Char) :
    restOf (hexDigits n message text) <:+ text := by
  unfold hexDigits
  split
  · exact List.drop_suffix _ _
  · exact List.drop_suffix _ _

theorem scalarBytes_rest (code : ℕ) (rest : List Char) : restOf (scalarBytes code rest) = rest := by
  unfold scalarBytes
  split_ifs <;> rfl

theorem lexEscape_suffix (esc : Char) (text : List Char) : restOf (lexEscape esc text) <:+ text := by
  unfold lexEscape
  split
  case h_13 =>
    dsimp only
    split
    · exact List.suffix_rfl
    · exact List.drop_suffix _ _
  case h_14 | h_15 =>
    refine restOf_bind_suffix (hexDigits_suffix _ _ _) ?_
    intro digits rest _
    rw [scalarBytes_rest]
  all_goals exact List.suffix_rfl

/-- Going on with a value keeps where a sub-lexer stops. -/
theorem restOf_map_pair {α β : Type} (x : Except Failure (α × List Char)) (g : α → β) :
    restOf (x >>= fun p => pure (g p.1, p.2)) = restOf x := by
  cases x with
  | error e => rfl
  | ok p => rfl

theorem stringBody_suffix (delimiter : Char) (fuel : ℕ) (text : List Char) :
    restOf (stringBody delimiter fuel text) <:+ text := by
  induction fuel generalizing text with
  | zero => exact List.suffix_rfl
  | succ fuel ih =>
      cases text with
      | nil => exact List.suffix_rfl
      | cons c text =>
          unfold stringBody
          split_ifs with hd hn hb
          · exact List.suffix_cons c text
          · exact List.suffix_rfl
          · cases text with
            | nil => exact List.nil_suffix
            | cons esc text =>
                refine List.IsSuffix.trans ?_ ((List.suffix_cons esc text).trans (List.suffix_cons c _))
                refine restOf_bind_suffix (lexEscape_suffix esc text) ?_
                intro bytes rest _
                show restOf (stringBody delimiter fuel rest >>= fun p => pure (bytes ++ p.1, p.2)) <:+ rest
                rw [restOf_map_pair _ (bytes ++ ·)]
                exact ih rest
          · show restOf (stringBody delimiter fuel text >>= fun p => pure (c :: p.1, p.2)) <:+ c :: text
            rw [restOf_map_pair _ (c :: ·)]
            exact (ih text).trans (List.suffix_cons c text)

theorem fstringBody_suffix (delimiter : Char) (brace : Option (List Char)) (text : List Char) :
    restOf (fstringBody delimiter brace text) <:+ text := by
  -- what a round takes goes in front of the raw lexeme and moves no end
  have hmap : ∀ (x : Except Failure (List Char × List Char)) (g : List Char → List Char),
      restOf (x >>= fun p => pure (g p.1, p.2)) = restOf x := fun x g => restOf_map_pair x g
  induction brace, text using fstringBody.induct delimiter with
  | case1 => exact List.suffix_rfl
  | case2 => exact List.suffix_rfl
  | case3 brace text ih =>
      show restOf (fstringBody delimiter (some brace) ('\x7d' :: text)) <:+ _
      rw [fstringBody, if_pos rfl]
      exact (hmap _ ('\x7d' :: ·)).symm ▸ ih.trans (List.suffix_cons _ _)
  | case4 brace c text hc hstop =>
      rw [fstringBody, if_neg hc, if_pos hstop]
      exact List.suffix_rfl
  | case5 brace c text hc hstop ih =>
      rw [fstringBody, if_neg hc, if_neg hstop]
      exact (hmap _ (c :: ·)).symm ▸ ih.trans (List.suffix_cons _ _)
  | case6 text =>
      unfold fstringBody
      rw [if_pos rfl]
      exact List.suffix_cons _ _
  | case7 text hd =>
      unfold fstringBody
      rw [if_neg hd, if_pos rfl]
      exact List.suffix_rfl
  | case8 hd hn =>
      unfold fstringBody
      rw [if_neg hd, if_neg hn, if_pos rfl]
      exact List.nil_suffix
  | case9 esc text hd hn ih =>
      unfold fstringBody
      rw [if_neg hd, if_neg hn, if_pos rfl]
      exact (hmap _ ('\\' :: esc :: ·)).symm ▸
        ih.trans ((List.suffix_cons _ _).trans (List.suffix_cons _ _))
  | case10 text hd hn hb ih =>
      show restOf (fstringBody delimiter none ('\x7b' :: text)) <:+ _
      unfold fstringBody
      rw [if_neg hd, if_neg hn, if_neg hb, if_pos rfl]
      exact (hmap _ ('\x7b' :: ·)).symm ▸ ih.trans (List.suffix_cons _ _)
  | case11 c text hd hn hb hc ih =>
      unfold fstringBody
      rw [if_neg hd, if_neg hn, if_neg hb, if_neg hc]
      exact (hmap _ (c :: ·)).symm ▸ ih.trans (List.suffix_cons _ _)

theorem skipMultiLineComment_suffix {text rest : List Char}
    (h : skipMultiLineComment text = some rest) : rest <:+ text := by
  induction text with
  | nil => simp [skipMultiLineComment] at h
  | cons c text ih =>
      unfold skipMultiLineComment at h
      split_ifs at h with hclose
      · rw [Option.some.injEq] at h
        exact h ▸ (List.drop_suffix 2 text).trans (List.suffix_cons c text)
      · exact (ih h).trans (List.suffix_cons c text)

/-- The text a number leaves. -/
def numberRest : Except Failure (TokenType × List Char × List Char) → List Char
  | .ok p => p.2.2
  | .error f => f.rest

theorem lexExponent_suffix (isFloat : Bool) (value text : List Char) :
    numberRest (lexExponent isFloat value text) <:+ text := by
  unfold lexExponent
  cases text with
  | nil => exact List.suffix_rfl
  | cons e text =>
      dsimp only
      split_ifs
      · exact (List.dropWhile_suffix _).trans ((List.drop_suffix _ _).trans (List.suffix_cons e text))
      · exact (List.drop_suffix _ _).trans (List.suffix_cons e text)
      all_goals exact List.suffix_rfl

/-- A number is an integer or a float. -/
theorem lexExponent_type {isFloat : Bool} {value text : List Char} {p : TokenType × List Char × List Char}
    (h : lexExponent isFloat value text = .ok p) : p.1 = .intLiteral ∨ p.1 = .floatLiteral := by
  unfold lexExponent at h
  cases text with
  | nil =>
      rw [← Except.ok.inj h]
      cases isFloat <;> simp
  | cons e text =>
      dsimp only at h
      split_ifs at h
      all_goals
        rw [← Except.ok.inj h]
        simp

theorem lexNumber_type {first : Char} {text : List Char} {p : TokenType × List Char × List Char}
    (h : lexNumber first text = .ok p) : p.1 = .intLiteral ∨ p.1 = .floatLiteral := by
  unfold lexNumber at h
  dsimp only at h
  split at h
  · split_ifs at h
    · exact lexExponent_type h
    · exact lexExponent_type h
  · exact lexExponent_type h

theorem afterDigits_suffix (text : List Char) : afterDigits text <:+ text :=
  List.dropWhile_suffix _

theorem lexNumber_suffix (first : Char) (text : List Char) :
    numberRest (lexNumber first text) <:+ text := by
  have hrest := afterDigits_suffix text
  unfold lexNumber
  dsimp only
  split
  case h_1 d rest heq =>
    rw [heq] at hrest
    -- the fraction is part of what follows the first run of digits
    have hfraction : afterDigits (d :: rest) <:+ text :=
      (afterDigits_suffix _).trans ((List.suffix_cons _ _).trans hrest)
    split_ifs
    · exact hfraction
    · exact (lexExponent_suffix _ _ _).trans hfraction
    · exact (lexExponent_suffix _ _ _).trans hrest
  case h_2 => exact (lexExponent_suffix _ _ _).trans hrest

/-! ## Pieces take text from the front -/

/-- The text left after a piece, or where its sub-lexer stopped. -/
def Piece.rest : Piece → List Char
  | .skip rest | .newline rest | .token _ _ rest | .unexpected _ rest => rest
  | .failure f => f.rest

theorem scanComment_suffix (text : List Char) : (scanComment text).rest <:+ text := by
  unfold scanComment
  split
  case h_1 text =>
    split
    case h_1 rest h =>
      exact (skipMultiLineComment_suffix h).trans ((List.suffix_cons _ _).trans (List.suffix_cons _ _))
    case h_2 => exact List.nil_suffix
  case h_2 => exact List.dropWhile_suffix _

@[simp] theorem literal_rest (type : TokenType) (x : Except Failure (List Char × List Char)) :
    (literal type x).rest = restOf x := by
  cases x <;> rfl

@[simp] theorem numeral_rest (x : Except Failure (TokenType × List Char × List Char)) :
    (numeral x).rest = numberRest x := by
  cases x <;> rfl

theorem lexFString_suffix (delimiter : Char) (text : List Char) :
    restOf (lexFString delimiter text) <:+ text := by
  have h := restOf_map_pair (fstringBody delimiter none text) ('f' :: delimiter :: ·)
  exact (h ▸ fstringBody_suffix delimiter none text :)

theorem operators_ne_nil : ∀ op ∈ operators, op.1 ≠ [] := by decide

/-- Every piece takes at least the character at the cursor. -/
theorem scanPiece_suffix (c : Char) (text : List Char) : (scanPiece (c :: text)).rest <:+ text := by
  unfold scanPiece
  dsimp only
  split_ifs
  · exact List.dropWhile_suffix _
  · exact List.suffix_rfl
  · exact scanComment_suffix text
  · rw [literal_rest]
    exact (lexFString_suffix _ _).trans (List.tail_suffix text)
  · rw [literal_rest]
    exact stringBody_suffix _ _ _
  · rw [numeral_rest]
    exact lexNumber_suffix _ _
  · exact List.dropWhile_suffix _
  · split
    case h_1 op hop =>
      obtain ⟨d, lexeme, hlexeme⟩ := List.exists_cons_of_ne_nil
        (operators_ne_nil op (List.mem_of_find?_eq_some hop))
      show (c :: text).drop op.1.length <:+ text
      rw [hlexeme]
      exact List.drop_suffix lexeme.length text
    case h_2 => exact List.suffix_rfl

/-- What a token is read as. -/
inductive Reads : List Char → TokenType → List Char → List Char → Prop
  | fstring {delimiter : Char} {text lexeme rest : List Char}
      (h : lexFString delimiter text = .ok (lexeme, rest)) :
      Reads ('f' :: delimiter :: text) .fstringLiteral lexeme rest
  | string {delimiter : Char} {text lexeme rest : List Char} (h : lexString delimiter text = .ok (lexeme, rest)) :
      Reads (delimiter :: text) .stringLiteral lexeme rest
  | number {c : Char} {type : TokenType} {text lexeme rest : List Char}
      (h : lexNumber c text = .ok (type, lexeme, rest)) : Reads (c :: text) type lexeme rest
  | word {c : Char} {text : List Char} (h : isAlpha c = true ∨ c = '_') :
      Reads (c :: text) (wordType (c :: text.takeWhile isWordChar)) (c :: text.takeWhile isWordChar)
        (text.dropWhile isWordChar)
  | operator {lexeme rest : List Char} {type : TokenType} (h : (lexeme, type) ∈ operators) :
      Reads (lexeme ++ rest) type lexeme rest

/-- A word has a type of its own or one of the table. -/
theorem wordType_cases (word : List Char) :
    wordType word = .boolLiteral ∨ wordType word = .nullLiteral ∨ wordType word = .identifier ∨
      ∃ kw ∈ keywords, wordType word = kw.2 := by
  unfold wordType
  split
  · exact .inl rfl
  · exact .inl rfl
  · exact .inr (.inl rfl)
  · rename_i kw _ _ _ hkw
    obtain ⟨l₁, l₂, hl, -⟩ := List.lookup_eq_some_iff.mp hkw
    exact .inr (.inr (.inr ⟨(word, kw), by rw [hl]; simp, rfl⟩))
  · exact .inr (.inr (.inl rfl))

/-- **Tokens.**  Each is read by one of the sub-lexers. -/
theorem scanPiece_reads {text lexeme rest : List Char} {type : TokenType}
    (h : scanPiece text = .token type lexeme rest) : Reads text type lexeme rest := by
  cases text with
  | nil => cases h
  | cons c text =>
      unfold scanPiece at h
      dsimp only at h
      split_ifs at h with _ _ _ hf _ _ hword
      · unfold scanComment at h
        split at h
        · split at h <;> cases h
        · cases h
      · obtain ⟨rfl, hquote⟩ := hf
        cases text with
        | nil => simp [startsWithQuote] at hquote
        | cons delimiter text =>
            cases hx : lexFString delimiter text with
            | ok p =>
                simp only [List.headD_cons, List.tail_cons, hx] at h
                cases h
                exact .fstring hx
            | error f =>
                simp only [List.headD_cons, List.tail_cons, hx] at h
                cases h
      · cases hx : lexString c text with
        | ok p =>
            rw [hx] at h
            cases h
            exact .string hx
        | error f =>
            rw [hx] at h
            cases h
      · cases hx : lexNumber c text with
        | ok p =>
            rw [hx] at h
            cases h
            exact .number hx
        | error f =>
            rw [hx] at h
            cases h
      · cases h
        exact .word hword
      · split at h
        · rename_i op hop
          cases h
          have hprefix : op.1.isPrefixOf (c :: text) = true := by
            simpa using List.find?_some hop
          obtain ⟨rest, hrest⟩ := List.isPrefixOf_iff_prefix.mp hprefix
          rw [← hrest, List.drop_left]
          exact .operator (List.mem_of_find?_eq_some hop)
        · cases h

end Visuall.Lexer

namespace Visuall.Cursor

/-! ## The cursor moves forward -/

/-- A cursor further on in the text of another, at the position of the text between them. -/
def Ahead (c c' : Cursor) : Prop :=
  ∃ passed, c.rest = passed ++ c'.rest ∧ c'.pos = c.pos.afterText passed

theorem Ahead.refl (c : Cursor) : c.Ahead c := ⟨[], rfl, rfl⟩

theorem Ahead.trans {a b c : Cursor} (hab : a.Ahead b) (hbc : b.Ahead c) : a.Ahead c := by
  obtain ⟨p, hp, hpos⟩ := hab
  obtain ⟨q, hq, hpos'⟩ := hbc
  refine ⟨p ++ q, ?_, ?_⟩
  · rw [hp, hq, List.append_assoc]
  · rw [hpos', hpos, Position.afterText_append]

theorem Ahead.suffix {a b : Cursor} (h : a.Ahead b) : b.rest <:+ a.rest := by
  obtain ⟨p, hp, -⟩ := h
  exact ⟨p, hp.symm⟩

theorem ahead_moveTo {c : Cursor} {rest : List Char} (h : rest <:+ c.rest) :
    c.Ahead (c.moveTo rest) := by
  obtain ⟨passed, hpassed⟩ := h
  obtain ⟨text, pos⟩ := c
  subst hpassed
  exact ⟨passed, rfl, by rw [moveTo_append]⟩

theorem ahead_advance (c : Cursor) : c.Ahead c.advance := by
  obtain ⟨text, pos⟩ := c
  cases text with
  | nil => exact Ahead.refl _
  | cons x text => exact ⟨[x], rfl, rfl⟩

theorem advance_rest (c : Cursor) : c.advance.rest = c.rest.tail := by
  obtain ⟨text, pos⟩ := c
  cases text <;> rfl

end Visuall.Cursor

namespace Visuall.Lexer.LexState

/-! ## What the parts of a round leave alone -/

@[simp] theorem moveTo_cursor (L : LexState) (rest : List Char) :
    (L.moveTo rest).cursor = L.cursor.moveTo rest := rfl

@[simp] theorem push_cursor (L : LexState) (type : TokenType) (lexeme : List Char) (pos : Position) :
    (L.push type lexeme pos).cursor = L.cursor := rfl

@[simp] theorem dedent_cursor (L : LexState) (tabCount : ℕ) (pos : Position) :
    (L.dedent tabCount pos).cursor = L.cursor := rfl

@[simp] theorem dedent_atLineStart (L : LexState) (tabCount : ℕ) (pos : Position) :
    (L.dedent tabCount pos).atLineStart = L.atLineStart := rfl

theorem indentTo_cursor (L : LexState) (tabCount : ℕ) (pos : Position) :
    (L.indentTo tabCount pos).1.cursor = L.cursor := by
  unfold indentTo
  dsimp only
  split_ifs <;> rfl

theorem indentTo_atLineStart (L : LexState) (tabCount : ℕ) (pos : Position) :
    (L.indentTo tabCount pos).1.atLineStart = L.atLineStart := by
  unfold indentTo
  dsimp only
  split_ifs <;> rfl

theorem handleIndentation_cursor (L : LexState) :
    L.handleIndentation.1.cursor = L.cursor.moveTo (L.cursor.rest.dropWhile (· == '\t')) := by
  unfold handleIndentation
  dsimp only
  split
  · rfl
  · split_ifs
    · rfl
    · rfl
    · rfl
    · exact indentTo_cursor _ _ _

theorem handleIndentation_atLineStart (L : LexState) :
    L.handleIndentation.1.atLineStart = L.atLineStart := by
  unfold handleIndentation
  dsimp only
  split
  · rfl
  · split_ifs
    · rfl
    · rfl
    · rfl
    · exact indentTo_atLineStart _ _ _

theorem handleIndentation_ahead (L : LexState) : L.cursor.Ahead L.handleIndentation.1.cursor := by
  rw [handleIndentation_cursor]
  exact Cursor.ahead_moveTo (List.dropWhile_suffix _)

/-- An `IndentationError` is thrown at a space. -/
theorem handleIndentation_space {L : LexState} {e : LexError} (h : L.handleIndentation.2 = some e)
    (hcls : e.cls = .indentationError) :
    ∃ text, L.handleIndentation.1.cursor.rest = ' ' :: text := by
  rw [handleIndentation_cursor, Cursor.moveTo_rest]
  unfold handleIndentation at h
  dsimp only [moveTo_cursor, Cursor.moveTo_rest] at h
  split at h
  · cases h
  · rename_i c text heq
    split_ifs at h with hspace
    · exact ⟨text, hspace ▸ heq⟩
    · unfold indentTo at h
      dsimp only at h
      split_ifs at h
      rw [Option.some.injEq] at h
      rw [← h] at hcls
      cases hcls

theorem newline_cursor (L : LexState) (rest : List Char) :
    (L.newline rest).cursor = L.cursor.moveTo rest := by
  unfold newline
  dsimp only
  split_ifs <;> rfl

theorem consume_cursor (L : LexState) (p : Piece) : (L.consume p).1.cursor = L.cursor.moveTo p.rest := by
  cases p with
  | newline rest => exact newline_cursor L rest
  | _ => rfl

/-- What a failing sub-lexer throws is no `IndentationError`. -/
theorem consume_error {L : LexState} {p : Piece} {e : LexError} (h : (L.consume p).2 = some e) :
    ∃ f, p = .failure f ∧ e = L.thrown f := by
  cases p with
  | failure f => exact ⟨f, rfl, (Option.some.inj h).symm⟩
  | _ => cases h

/-! ## Rounds -/

/-- The state before the piece of a round is scanned: at a line start, the indentation comes first. -/
def settle (L : LexState) : LexState × Option LexError :=
  if L.atLineStart then handleIndentation { L with atLineStart := false } else (L, none)

/-- **What a round does.**  Its indentation throws; or a blank line or the end of the text ends it; or
it consumes the piece at the cursor. -/
theorem attempt_cases (L : LexState) (hrest : L.cursor.rest ≠ []) :
    (∃ e, L.settle.2 = some e ∧ L.attempt = L.settle) ∨
    (L.settle.2 = none ∧ L.atLineStart = true ∧
      (L.settle.1.cursor.rest = [] ∨ ∃ text, L.settle.1.cursor.rest = '\n' :: text) ∧
      L.attempt = L.settle) ∨
    (L.settle.2 = none ∧ ∃ c text, L.settle.1.cursor.rest = c :: text ∧
      (L.atLineStart = true → c ≠ '\n') ∧ L.attempt = L.settle.1.consume (scanPiece (c :: text))) := by
  unfold attempt settle
  by_cases hstart : L.atLineStart = true
  · simp only [if_pos hstart]
    rcases handleIndentation { L with atLineStart := false } with ⟨M, _ | e⟩
    · right
      dsimp only
      rcases hM : M.cursor.rest with _ | ⟨c, text⟩
      · exact .inl ⟨rfl, hstart, .inl rfl, rfl⟩
      · by_cases hc : c = '\n'
        · exact .inl ⟨rfl, hstart, .inr ⟨text, by rw [hc]⟩, by simp [hc]⟩
        · exact .inr ⟨rfl, c, text, rfl, fun _ => hc, by simp [hc]⟩
    · exact .inl ⟨e, rfl, rfl⟩
  · obtain ⟨c, text, hct⟩ := List.exists_cons_of_ne_nil hrest
    simp only [if_neg hstart]
    exact .inr (.inr ⟨trivial, c, text, hct, fun h => absurd h hstart, by rw [hct]⟩)

theorem settle_ahead (L : LexState) : L.cursor.Ahead L.settle.1.cursor := by
  unfold settle
  split_ifs
  · exact handleIndentation_ahead { L with atLineStart := false }
  · exact Cursor.Ahead.refl _

@[simp] theorem settle_atLineStart (L : LexState) : L.settle.1.atLineStart = false := by
  unfold settle
  split_ifs with h
  · exact handleIndentation_atLineStart _
  · exact Bool.eq_false_iff.mpr h

/-- A piece taken at the cursor leads the cursor forward, by a character at least. -/
theorem consume_ahead {M : LexState} {c : Char} {text : List Char} (h : M.cursor.rest = c :: text) :
    M.cursor.Ahead (M.consume (scanPiece (c :: text))).1.cursor ∧
      (M.consume (scanPiece (c :: text))).1.cursor.rest.length < M.cursor.rest.length := by
  have hsuffix := scanPiece_suffix c text
  rw [consume_cursor]
  constructor
  · refine Cursor.ahead_moveTo ?_
    rw [h]
    exact hsuffix.trans (List.suffix_cons c text)
  · rw [Cursor.moveTo_rest, h, List.length_cons]
    exact Nat.lt_succ_of_le hsuffix.length_le

theorem attempt_ahead (L : LexState) (hrest : L.cursor.rest ≠ []) :
    L.cursor.Ahead L.attempt.1.cursor := by
  rcases L.attempt_cases hrest with ⟨e, _, h⟩ | ⟨_, _, _, h⟩ | ⟨_, c, text, hct, _, h⟩
  · rw [h]
    exact L.settle_ahead
  · rw [h]
    exact L.settle_ahead
  · rw [h]
    exact L.settle_ahead.trans (consume_ahead hct).1

theorem guardProgress_ahead (L : LexState) (start : Cursor) :
    L.cursor.Ahead (L.guardProgress start).cursor := by
  unfold guardProgress
  split_ifs
  · exact Cursor.ahead_advance _
  · exact Cursor.Ahead.refl _

/-! ## The main loop ends -/

/-- What the main loop has left to do: a round takes a character or leaves the line start. -/
def size (L : LexState) : ℕ := 2 * L.cursor.rest.length + if L.atLineStart then 1 else 0

theorem size_le (L : LexState) : L.size ≤ 2 * L.cursor.rest.length + 1 := by
  unfold size
  split_ifs <;> omega

theorem size_of_start {L : LexState} (h : L.atLineStart = true) :
    L.size = 2 * L.cursor.rest.length + 1 := by
  simp [size, h]

theorem size_of_not_start {L : LexState} (h : L.atLineStart = false) :
    L.size = 2 * L.cursor.rest.length := by
  simp [size, h]

@[simp] theorem recover_atLineStart (L : LexState) (start : Cursor) (e : LexError) :
    (L.recover start e).atLineStart = L.atLineStart := by
  unfold recover
  split <;> rfl

@[simp] theorem guardProgress_atLineStart (L : LexState) (start : Cursor) :
    (L.guardProgress start).atLineStart = L.atLineStart := by
  unfold guardProgress
  split_ifs <;> rfl

/-- A round that throws is not at a line start when it recovers. -/
theorem attempt_throws {L : LexState} {e : LexError} (hrest : L.cursor.rest ≠ [])
    (h : L.attempt.2 = some e) : L.attempt.1.atLineStart = false ∧
      (e.cls = .indentationError → ∃ text, L.attempt.1.cursor.rest = ' ' :: text) := by
  rcases L.attempt_cases hrest with ⟨e', he', hL⟩ | ⟨hnone, _, _, hL⟩ | ⟨_, c, text, hct, _, hL⟩
  · rw [hL] at h ⊢
    refine ⟨L.settle_atLineStart, fun hcls => ?_⟩
    unfold settle at h ⊢
    split_ifs at h ⊢ with hstart
    exact handleIndentation_space h hcls
  · rw [hL, hnone] at h
    cases h
  · rw [hL] at h ⊢
    obtain ⟨f, hf, he⟩ := consume_error h
    refine ⟨?_, fun hcls => ?_⟩
    · rw [hf]
      exact L.settle_atLineStart
    · rw [he] at hcls
      cases hcls

/-- Recovery gets past the start of the round. -/
theorem recover_lt {M : LexState} {start : Cursor} {e : LexError} (hstart : start.rest ≠ [])
    (hahead : start.Ahead M.cursor)
    (hspace : e.cls = .indentationError → ∃ text, M.cursor.rest = ' ' :: text) :
    (M.recover start e).cursor.rest.length < start.rest.length := by
  have hle : M.cursor.rest.length ≤ start.rest.length := hahead.suffix.length_le
  have hpos : 0 < start.rest.length := List.length_pos_iff.mpr hstart
  unfold recover
  split
  · rename_i hcls
    obtain ⟨text, htext⟩ := hspace hcls
    show (M.cursor.rest.dropWhile (· != '\n')).length < start.rest.length
    rw [htext, List.length_cons] at hle
    have hskip : (List.dropWhile (· != '\n') (' ' :: text)).length ≤ text.length := by
      rw [List.dropWhile_cons_of_pos (by decide)]
      exact (List.dropWhile_suffix _).length_le
    rw [htext]
    omega
  · show (if M.cursor.rest.length = start.rest.length then M.cursor.advance else M.cursor).rest.length < _
    split_ifs with hsame
    · rw [Cursor.advance_rest, List.length_tail]
      omega
    · omega

theorem round_of_ne {L : LexState} (hrest : L.cursor.rest ≠ []) : L.round = match L.attempt with
    | (L', none) => L'
    | (L', some e) => (L'.recover L.cursor e).guardProgress L.cursor := by
  unfold round
  split
  · contradiction
  · rfl

/-- A round brings the main loop nearer to its end. -/
theorem round_size {L : LexState} (hrest : L.cursor.rest ≠ []) : L.round.size < L.size := by
  have hsettle := L.settle_ahead.suffix.length_le
  rw [round_of_ne hrest]
  rcases hattempt : L.attempt with ⟨M, _ | e⟩
  · dsimp only
    rcases L.attempt_cases hrest with ⟨e, he, h⟩ | ⟨_, hstart, _, h⟩ | ⟨_, c, text, hct, _, h⟩
    · rw [← h, hattempt] at he
      cases he
    · have hM : M = L.settle.1 := by rw [← h, hattempt]
      rw [hM, size_of_start hstart, size_of_not_start L.settle_atLineStart]
      omega
    · have hM : M = (L.settle.1.consume (scanPiece (c :: text))).1 := by rw [← h, hattempt]
      have hlt := (consume_ahead hct).2
      have hle := M.size_le
      rw [← hM] at hlt
      unfold size at hle ⊢
      omega
  · dsimp only
    have hM : M = L.attempt.1 := by rw [hattempt]
    obtain ⟨hstart, hspace⟩ := attempt_throws (e := e) hrest (by rw [hattempt])
    rw [← hM] at hstart hspace
    have hlt := recover_lt hrest (hM ▸ L.attempt_ahead hrest) hspace
    have hguard := (guardProgress_ahead (M.recover L.cursor e) L.cursor).suffix.length_le
    rw [size_of_not_start (by simpa using hstart)]
    unfold size
    omega

theorem round_of_end {L : LexState} (h : L.cursor.rest = []) : L.round = L := by
  unfold round
  rw [h]

/-- As many rounds as the size of a state bring the text to its end. -/
theorem rounds_end (n : ℕ) (L : LexState) (h : L.size ≤ n) : (round^[n] L).cursor.rest = [] := by
  induction n generalizing L with
  | zero =>
      have hlen : L.cursor.rest.length = 0 := by
        unfold size at h
        omega
      exact List.eq_nil_of_length_eq_zero hlen
  | succ n ih =>
      by_cases hrest : L.cursor.rest = []
      · rw [Function.iterate_fixed (round_of_end hrest)]
        exact hrest
      · rw [Function.iterate_succ_apply]
        have := round_size hrest
        exact ih _ (by omega)

/-- **The main loop ends**, at the end of the text. -/
theorem mainLoop_end (L : LexState) : L.mainLoop.cursor.rest = [] :=
  rounds_end _ L L.size_le

/-! ## Rounds that do not throw -/

@[simp] theorem newline_firstError (L : LexState) (rest : List Char) :
    (L.newline rest).firstError = L.firstError := by
  unfold newline
  dsimp only
  split_ifs <;> rfl

@[simp] theorem consume_firstError (L : LexState) (p : Piece) :
    (L.consume p).1.firstError = L.firstError := by
  cases p with
  | newline rest => exact newline_firstError L rest
  | _ => rfl

@[simp] theorem indentTo_firstError (L : LexState) (tabCount : ℕ) (pos : Position) :
    (L.indentTo tabCount pos).1.firstError = L.firstError := by
  unfold indentTo
  dsimp only
  split_ifs <;> rfl

@[simp] theorem handleIndentation_firstError (L : LexState) :
    L.handleIndentation.1.firstError = L.firstError := by
  unfold handleIndentation
  dsimp only
  split
  · rfl
  · split_ifs
    · rfl
    · rfl
    · rfl
    · exact indentTo_firstError _ _ _

@[simp] theorem settle_firstError (L : LexState) : L.settle.1.firstError = L.firstError := by
  unfold settle
  split_ifs
  · exact handleIndentation_firstError _
  · rfl

theorem attempt_firstError {L : LexState} (hrest : L.cursor.rest ≠ []) :
    L.attempt.1.firstError = L.firstError := by
  rcases L.attempt_cases hrest with ⟨e, _, h⟩ | ⟨_, _, _, h⟩ | ⟨_, c, text, _, _, h⟩
  · rw [h, settle_firstError]
  · rw [h, settle_firstError]
  · rw [h, consume_firstError, settle_firstError]

theorem guardProgress_firstError (L : LexState) (start : Cursor) :
    (L.guardProgress start).firstError = L.firstError := by
  unfold guardProgress
  split_ifs <;> rfl

theorem recover_firstError (L : LexState) (start : Cursor) (e : LexError) :
    (L.recover start e).firstError = (L.firstError <|> some e) := by
  unfold recover
  split <;> rfl

/-- After a round no error has been thrown exactly when none was before and the round throws none;
then the round is what it attempts. -/
theorem round_ok {L : LexState} (hrest : L.cursor.rest ≠ []) (h : L.round.firstError = none) :
    L.firstError = none ∧ L.attempt.2 = none ∧ L.round = L.attempt.1 := by
  have hattempt := attempt_firstError hrest
  rw [round_of_ne hrest] at h ⊢
  rcases hL : L.attempt with ⟨M, _ | e⟩
  · rw [hL] at h hattempt
    exact ⟨hattempt.symm.trans h, rfl, rfl⟩
  · rw [hL] at h
    rw [guardProgress_firstError, recover_firstError] at h
    cases hM : M.firstError with
    | none => simp [hM] at h
    | some e' => simp [hM] at h

/-- A round forgets no error. -/
theorem firstError_of_round {L : LexState} (h : L.round.firstError = none) : L.firstError = none := by
  by_cases hrest : L.cursor.rest = []
  · rwa [round_of_end hrest] at h
  · exact (round_ok hrest h).1

theorem firstError_of_rounds {L : LexState} (n : ℕ) (h : (round^[n] L).firstError = none) :
    L.firstError = none := by
  induction n generalizing L with
  | zero => exact h
  | succ n ih =>
      rw [Function.iterate_succ_apply] at h
      exact firstError_of_round (ih h)

/-- If the main loop ends without an error, none is thrown in any of its rounds. -/
theorem firstError_rounds {L : LexState} (h : L.mainLoop.firstError = none) (n : ℕ) :
    (round^[n] L).firstError = none := by
  set m := 2 * L.cursor.rest.length + 1 with hm
  have hend : (round^[m] L).cursor.rest = [] := L.mainLoop_end
  -- past its end the loop changes nothing, and before it no error is lost
  rcases Nat.le_total n m with hle | hle
  · refine firstError_of_rounds (m - n) ?_
    rw [← Function.iterate_add_apply, Nat.sub_add_cancel hle]
    exact h
  · rw [← Nat.sub_add_cancel hle, Function.iterate_add_apply,
      Function.iterate_fixed (round_of_end hend)]
    exact h

/-- **Rule for rounds that do not throw.**  What leaving the line start, handling an indentation and
consuming a piece preserve, a round preserves. -/
theorem round_preserves {I : LexState → Prop} {L : LexState}
    (hstart : I L → I { L with atLineStart := false })
    (hindent : ∀ M : LexState, I M → M.handleIndentation.2 = none → I M.handleIndentation.1)
    (hpiece : ∀ (M : LexState) (c : Char) (text : List Char), M.atLineStart = false →
      M.cursor.rest = c :: text → (M.consume (scanPiece (c :: text))).2 = none → I M →
      I (M.consume (scanPiece (c :: text))).1)
    (hL : I L) (h : L.round.firstError = none) : I L.round := by
  by_cases hrest : L.cursor.rest = []
  · rwa [round_of_end hrest]
  · obtain ⟨_, hnone, hround⟩ := round_ok hrest h
    have hsettle : L.settle.2 = none → I L.settle.1 := by
      unfold settle
      split_ifs
      · exact hindent _ (hstart hL)
      · exact fun _ => hL
    rw [hround]
    rcases L.attempt_cases hrest with ⟨e, he, h'⟩ | ⟨hs, _, _, h'⟩ | ⟨hs, c, text, hct, _, h'⟩
    · rw [h', he] at hnone
      cases hnone
    · rw [h']
      exact hsettle hs
    · rw [h'] at hnone ⊢
      exact hpiece _ c text L.settle_atLineStart hct hnone (hsettle hs)

end Visuall.Lexer.LexState
