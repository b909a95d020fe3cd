import Visuall.Parser.Recovery
import Visuall.Lexer.Positions

/-!
# From a text to its statements

The tokens of a text end with `END_OF_FILE`, and its f-strings are no longer than it is, so interpolations are
nested no deeper than a text is long.

* `tokenize_ended`, `fstring_length` — what the lexer promises;
* `nested_ready`, `interpolations_ends` — the ties of the parser;
* `run_ended` — the loop of `parse` ends, without an access outside the tokens;
* `recovers_iff` — when it ends with a program or with the first error that it has recorded.
-/

namespace Visuall.Parser

open Visuall.Ast Visuall.Descent Visuall.Lexer Descent.Parser

/-! ## The tokens of a text -/

theorem tokenize_ended {source : List Char} {filename : String} {tokens : List Token}
    (h : tokenize source filename = .ok tokens) : Ended tokens := by
  obtain ⟨-, htokens⟩ := mainLoop_firstError h
  rw [htokens]
  exact ⟨_, List.getLast?_reverse, rfl⟩

/-- Normalization writes no more than it reads. -/
theorem normalizeFrom_length (atLineStart : Bool) (spaces : ℕ) (text : List Char) :
    (normalizeFrom atLineStart spaces text).length ≤ spaces + text.length := by
  induction text generalizing atLineStart spaces with
  | nil => cases atLineStart <;> simp [normalizeFrom]
  | cons c text ih =>
    have h₁ := ih true 0
    have h₂ := ih true (spaces + 1)
    have h₃ := ih false 0
    have h₄ := ih false spaces
    cases atLineStart with
    | true =>
      simp only [normalizeFrom]
      split_ifs <;> simp only [List.length_append, List.length_replicate, List.length_cons] <;> omega
    | false =>
      simp only [normalizeFrom]
      split_ifs <;> simp only [List.length_cons] <;> omega

/-- A sub-lexer that puts what it has taken in front of what another one reads. -/
theorem length_of_bind {x : Except Failure (List Char × List Char)} (taken : List Char) {raw rest : List Char}
    {n : ℕ} (h : (x >>= fun p => pure (taken ++ p.1, p.2)) = .ok (raw, rest))
    (hle : ∀ raw rest, x = .ok (raw, rest) → raw.length ≤ n) : raw.length ≤ n + taken.length := by
  obtain ⟨p, hp, hpure⟩ := Effect.ok_of_bind h
  cases hpure
  have := hle p.1 p.2 hp
  rw [List.length_append]
  omega

/-- What an f-string is made of is taken from the text. -/
theorem fstringBody_length {delimiter : Char} {brace : Option (List Char)} {text raw rest : List Char}
    (h : fstringBody delimiter brace text = .ok (raw, rest)) : raw.length ≤ text.length := by
  induction brace, text using fstringBody.induct delimiter generalizing raw rest with
  | case1 => cases h
  | case2 => cases h
  | case3 brace text ih =>
    rw [fstringBody, if_pos rfl] at h
    exact length_of_bind ['\x7d'] h fun _ _ => ih
  | case4 brace c text hc hstop =>
    rw [fstringBody, if_neg hc, if_pos hstop] at h
    cases h
  | case5 brace c text hc hstop ih =>
    rw [fstringBody, if_neg hc, if_neg hstop] at h
    exact length_of_bind [c] h fun _ _ => ih
  | case6 text =>
    unfold fstringBody at h
    rw [if_pos rfl] at h
    cases h
    simp
  | case7 text hd =>
    unfold fstringBody at h
    rw [if_neg hd, if_pos rfl] at h
    cases h
  | case8 hd hn =>
    unfold fstringBody at h
    rw [if_neg hd, if_neg hn, if_pos rfl] at h
    cases h
  | case9 esc text hd hn ih =>
    unfold fstringBody at h
    rw [if_neg hd, if_neg hn, if_pos rfl] at h
    exact length_of_bind ['\\', esc] h fun _ _ => ih
  | case10 text hd hn hb ih =>
    unfold fstringBody at h
    rw [if_neg hd, if_neg hn, if_neg hb, if_pos rfl] at h
    exact length_of_bind ['\x7b'] h fun _ _ => ih
  | case11 c text hd hn hb hc ih =>
    unfold fstringBody at h
    rw [if_neg hd, if_neg hn, if_neg hb, if_neg hc] at h
    exact length_of_bind [c] h fun _ _ => ih

theorem keywords_not_fstring : ∀ kw ∈ keywords, kw.2 ≠ .fstringLiteral := by decide

theorem operators_not_fstring : ∀ op ∈ operators, op.2 ≠ .fstringLiteral := by decide

/-- An f-string is read from its own text. -/
theorem scanPiece_fstring_length {text lexeme rest : List Char} {type : TokenType}
    (h : scanPiece text = .token type lexeme rest) (htype : type = .fstringLiteral) :
    lexeme.length ≤ text.length := by
  cases scanPiece_reads h with
  | @fstring delimiter text _ _ hread =>
    obtain ⟨p, hp, hpure⟩ := Effect.ok_of_bind hread
    cases hpure
    have := fstringBody_length hp
    simpa using this
  | string hread => cases htype
  | number hread => rcases lexNumber_type hread with rfl | rfl <;> cases htype
  | word hword =>
    rcases wordType_cases _ with hw | hw | hw | ⟨kw, hkw, hw⟩
    · rw [hw] at htype
      cases htype
    · rw [hw] at htype
      cases htype
    · rw [hw] at htype
      cases htype
    · rw [hw] at htype
      exact absurd htype (keywords_not_fstring kw hkw)
  | operator hop => exact absurd htype (operators_not_fstring _ hop)

/-- The text that is left and the f-strings read are no longer than a text. -/
structure Short (n : ℕ) (L : LexState) : Prop where
  rest : L.cursor.rest.length ≤ n
  tokens : ∀ t ∈ L.tokens, t.type = .fstringLiteral → t.lexeme.length ≤ n

namespace Short

variable {n : ℕ} {L M : LexState}

/-- Moving the cursor forward and adding tokens that are no f-strings. -/
theorem of_ahead (h : Short n L) (hcursor : L.cursor.Ahead M.cursor)
    (htokens : ∀ t ∈ M.tokens, t ∈ L.tokens ∨ t.type ≠ .fstringLiteral) : Short n M where
  rest := hcursor.suffix.length_le.trans h.rest
  tokens := by
    intro t ht htype
    rcases htokens t ht with ht | ht
    · exact h.tokens t ht htype
    · exact absurd htype ht

theorem handleIndentation (h : Short n L) : Short n L.handleIndentation.1 := by
  refine h.of_ahead L.handleIndentation_ahead ?_
  intro t ht
  rcases L.handleIndentation_tokens t ht with ht | ht | ht
  · exact .inl ht
  · exact .inr (by simp [ht])
  · exact .inr (by simp [ht])

theorem consume {c : Char} {rest : List Char} (hrest : L.cursor.rest = c :: rest) (h : Short n L) :
    Short n (L.consume (scanPiece (c :: rest))).1 := by
  have hahead := (LexState.consume_ahead hrest).1
  have hpush {M : LexState} {t : Token} (hM : L.cursor.Ahead M.cursor) (htokens : M.tokens = t :: L.tokens)
      (ht : t.type = .fstringLiteral → t.lexeme.length ≤ n) : Short n M := by
    refine ⟨hM.suffix.length_le.trans h.rest, ?_⟩
    intro t' ht' htype
    rw [htokens] at ht'
    rcases List.mem_cons.mp ht' with rfl | ht'
    · exact ht htype
    · exact h.tokens t' ht' htype
  cases hp : scanPiece (c :: rest) with
  | newline rest' =>
    rw [hp] at hahead
    refine h.of_ahead hahead ?_
    show ∀ t ∈ (L.newline rest').tokens, t ∈ L.tokens ∨ t.type ≠ .fstringLiteral
    unfold LexState.newline
    dsimp only
    split_ifs
    · intro t ht
      rcases List.mem_cons.mp ht with rfl | ht
      · exact .inr (show TokenType.newline ≠ .fstringLiteral by decide)
      · exact .inl ht
    · exact fun t ht => .inl ht
  | token type lexeme rest' =>
    rw [hp] at hahead
    refine hpush (t := ⟨type, lexeme, L.cursor.pos⟩) hahead rfl fun htype => ?_
    have := scanPiece_fstring_length hp htype
    rw [← hrest] at this
    exact this.trans h.rest
  | unexpected x rest' =>
    rw [hp] at hahead
    exact hpush (t := ⟨.error, [x], L.cursor.pos⟩) hahead rfl fun htype => by cases htype
  | skip rest' =>
    rw [hp] at hahead
    exact h.of_ahead hahead fun t ht => .inl ht
  | failure f =>
    rw [hp] at hahead
    exact h.of_ahead hahead fun t ht => .inl ht

theorem round (h : Short n L) (hok : L.round.firstError = none) : Short n L.round :=
  LexState.round_preserves (I := Short n) (fun h => ⟨h.rest, h.tokens⟩) (fun _ hM _ => hM.handleIndentation)
    (fun _ _ _ _ hrest _ hM => hM.consume hrest) h hok

theorem rounds (h : Short n L) (hok : ∀ k, (LexState.round^[k] L).firstError = none) (k : ℕ) :
    Short n (LexState.round^[k] L) := by
  induction k with
  | zero => exact h
  | succ k ih =>
    have hk := hok (k + 1)
    rw [Function.iterate_succ_apply'] at hk ⊢
    exact ih.round hk

end Short

/-- An f-string is no longer than the text it is read from. -/
theorem fstring_length {source : List Char} {filename : String} {tokens : List Token}
    (h : tokenize source filename = .ok tokens) :
    ∀ t ∈ tokens, t.type = .fstringLiteral → t.lexeme.length ≤ source.length := by
  obtain ⟨hok, htokens⟩ := mainLoop_firstError h
  have hlength : (normalizeIndentation source).length ≤ source.length := by
    have := normalizeFrom_length true 0 source
    rwa [Nat.zero_add] at this
  have hshort : Short source.length (initial source filename).mainLoop :=
    Short.rounds (L := initial source filename) ⟨hlength, fun t ht => by cases ht⟩
      (LexState.firstError_rounds hok) _
  intro t ht htype
  rw [htokens, List.mem_reverse] at ht
  rcases List.mem_cons.mp ht with rfl | ht
  · cases htype
  · rcases LexState.popLevels_tokens _ _ _ _ t ht with ht | ht
    · exact hshort.tokens t ht htype
    · rw [ht] at htype
      cases htype

/-! ## The ties -/

variable {ts : List Token} {stod : Name → Option NumberError} {filename : String}
  {interpolation : Name → Except (Halt Thrown) Expr}

/-- As many turns as there are tokens left are enough. -/
theorem nested_ready (h : Ended ts)
    (hinterpolation : ∀ t ∈ ts, t.type = .fstringLiteral → ∀ text : Name, text.length < t.lexeme.length →
      ∀ h, interpolation text = .error h → ∃ e, h = .thrown e) :
    ∀ n b, ts.length ≤ b + n → Ready ts b (nested stod interpolation n) := by
  intro n
  induction n with
  | zero =>
    intro b hb
    exact ⟨hinterpolation, .of_length_le hb, .of_length_le hb, .of_length_le hb, .of_length_le hb,
      .of_length_le hb, .of_length_le hb⟩
  | succ n ih =>
    intro b hb
    have hN := ih (b + 1) (by omega)
    exact ⟨hinterpolation, parseExpression_consumes h hN, parseOr_consumes h hN, parseNot_consumes h hN,
      parseUnary_consumes h hN, parseTypeAnnotation_consumes h hN, parseStatement_consumes h hN⟩

/-- An interpolation ends with an expression or an exception when its text is shorter than the bound. -/
theorem interpolations_ends : ∀ {depth : ℕ} {text : Name}, text.length < depth →
    ∀ h, interpolations stod filename depth text = .error h → ∃ e, h = .thrown e := by
  intro depth
  induction depth with
  | zero =>
    intro text hlt
    omega
  | succ depth ih =>
    intro text hlt h hh
    rw [interpolations] at hh
    cases htokens : tokenize text filename with
    | error e =>
      rw [htokens] at hh
      cases hh
      exact ⟨_, rfl⟩
    | ok ts =>
      rw [htokens] at hh
      have hended := tokenize_ended htokens
      have hready : Ready ts 1 (nested stod (interpolations stod filename depth) ts.length) := by
        refine nested_ready hended ?_ ts.length 1 (by omega)
        intro t ht htype text' hlt'
        have := fstring_length htokens t ht htype
        exact ih (by omega)
      exact (parseExpression_consumes hended hready 0 le_rfl hended.length_pos).error h hh

/-! ## The loop of `parse` -/

theorem current_quiet : Quiet current := Quiet.index.bind fun _ => Quiet.token _

theorem previous_quiet : Quiet previous := Quiet.index.bind fun i => by
  cases i with
  | zero => exact Quiet.outside
  | succ i => exact Quiet.token i

theorem isAtEnd_quiet : Quiet isAtEnd := current_quiet.bind fun _ => Quiet.pure _

theorem advance_quiet : Quiet advance :=
  isAtEnd_quiet.bind fun _ => Quiet.ite previous_quiet
    (Quiet.index.bind fun _ => (Quiet.moveTo _).bind fun _ => previous_quiet)

theorem check_quiet (type : TokenType) : Quiet (check type) :=
  isAtEnd_quiet.bind fun _ => Quiet.ite (Quiet.pure _) (current_quiet.bind fun _ => Quiet.pure _)

theorem skipNewlines_quiet : Quiet skipNewlines :=
  Quiet.loop (fun _ => (check_quiet _).bind fun _ =>
    Quiet.ite (advance_quiet.bind fun _ => Quiet.pure _) (Quiet.pure _)) ()

theorem synchronize_quiet : Quiet synchronize :=
  Quiet.loop (fun _ => isAtEnd_quiet.bind fun _ => Quiet.ite (Quiet.pure _)
    (current_quiet.bind fun _ => advance_quiet.bind fun _ => Quiet.ite (Quiet.pure _) (Quiet.pure _))) ()

/-- Nothing gets out of the loop of `parse` but what the loop ends with. -/
theorem parseLoop_quiet (N : Nested) : Quiet (parseLoop N) := by
  refine skipNewlines_quiet.bind fun _ => Quiet.loop (fun p => ?_) _
  refine isAtEnd_quiet.bind fun _ => Quiet.ite (Quiet.pure _) ((Quiet.attempt _).bind fun r => ?_)
  match r with
  | .ok stmt => exact previous_quiet.bind fun _ => skipNewlines_quiet.bind fun _ => Quiet.pure _
  | .error (.parse e) => exact synchronize_quiet.bind fun _ => skipNewlines_quiet.bind fun _ => Quiet.pure _
  | .error (.lex e) => exact Quiet.pure _
  | .error .outOfRange => exact Quiet.pure _
  | .error .nullPointer => exact Quiet.pure _

theorem length_le_depthBound {t : Token} (ht : t ∈ ts) : t.lexeme.length ≤ depthBound ts :=
  List.single_le_sum (fun _ _ => Nat.zero_le _) _ (List.mem_map_of_mem ht)

variable (stod filename) in
/-- What `parse` ties its productions to. -/
def tied (ts : List Token) : Nested := nested stod (interpolations stod filename (depthBound ts)) ts.length

variable (stod filename) in
theorem tied_ready (h : Ended ts) : Ready ts 1 (tied stod filename ts) := by
  refine nested_ready h ?_ ts.length 1 (by omega)
  intro t ht _ text hlt
  have := length_le_depthBound ht
  exact interpolations_ends (by omega)

variable (stod filename) in
/-- **The loop of `parse` ends** on a list that ends with `END_OF_FILE`: it reads no token outside it, and its
turns suffice. -/
theorem run_ended (h : Ended ts) : ∃ r, run stod filename ts = .ok r ∧ LoopEnds (tied stod filename ts) ts r := by
  have hwithin := parseLoop_ends h (tied_ready stod filename h)
  have hquiet := parseLoop_quiet (tied stod filename ts) ts 0
  cases hrun : (parseLoop (tied stod filename ts) ts 0).1 with
  | ok r => exact ⟨r, hrun, hwithin.ok r hrun⟩
  | error e =>
    obtain ⟨e, rfl⟩ := hwithin.error e hrun
    exact absurd hrun (hquiet e)

theorem run_nil (stod : Name → Option NumberError) (filename : String) :
    run stod filename [] = .error .outside := rfl

/-! ## Recovery -/

/-- What `parse` is to do with a list of tokens: it ends with a program exactly when it has recorded no error, else
with the first one recorded; and after each error that it catches it goes on further in the list. -/
structure Recovers (stod : Name → Option NumberError) (filename : String) (ts : List Token) : Prop where
  result : ∃ r, run stod filename ts = .ok r ∧ ((∃ stmts, r.result = .ok stmts) ↔ r.errors = []) ∧
    ∀ e errors, r.errors = e :: errors → r.result = .error (.parse e)
  further : ∀ i e j k, Begins (tied stod filename ts) ts i → Caught (tied stod filename ts) ts i e j k → i < k

/-- **When `parse` recovers**: when each statement that it comes to throws nothing but a `ParseError`. -/
theorem recovers_iff (stod : Name → Option NumberError) (filename : String) (h : Ended ts) :
    Recovers stod filename ts ↔
      ∀ i, Begins (tied stod filename ts) ts i → Live ts i → Calm (tied stod filename ts) ts i := by
  obtain ⟨r, hrun, hends⟩ := run_ended stod filename h
  constructor
  · intro hrecovers
    obtain ⟨r', hrun', hprogram, hfirst⟩ := hrecovers.result
    cases hrun.symm.trans hrun'
    rcases hends with ⟨-, hcalm⟩ | ⟨e, huncaught, he, -⟩
    · exact hcalm
    · -- what left the loop is thrown, whatever was recorded
      have hresult : r.result = .error e := by
        rw [ParseRun.result, huncaught]
      cases herrors : r.errors with
      | nil =>
        obtain ⟨stmts, hok⟩ := hprogram.mpr herrors
        cases hresult.symm.trans hok
      | cons e' errors =>
        cases hresult.symm.trans (hfirst e' errors herrors)
        cases he
  · intro hcalm
    refine ⟨⟨r, hrun, ?_⟩, fun i e j k _ hcaught => (caught_further h (tied_ready stod filename h) hcaught).1⟩
    rcases hends with ⟨hnone, -⟩ | ⟨_, _, _, i, hbegins, hlive, hnot⟩
    · rw [ParseRun.result, hnone]
      cases r.errors with
      | nil => exact ⟨⟨fun _ => rfl, fun _ => ⟨_, rfl⟩⟩, fun _ _ h => by cases h⟩
      | cons e errors =>
        refine ⟨⟨?_, fun h => by cases h⟩, fun e' errors' h => ?_⟩
        · rintro ⟨_, h⟩
          cases h
        · cases h
          rfl
    · exact absurd (hcalm i hbegins hlive) hnot

/-- `x`, on a line of its own. -/
def nameLine : List Token :=
  [⟨.identifier, ['x'], ⟨1, 1⟩⟩, ⟨.newline, "\\n".toList, ⟨1, 2⟩⟩, ⟨.endOfFile, [], ⟨2, 1⟩⟩]

/-- It is parsed, and nothing is thrown there. -/
theorem recovers_name : Recovers (fun _ => none) "" nameLine ∧
    ∀ i, Begins (tied (fun _ => none) "" nameLine) nameLine i → Live nameLine i →
      Calm (tied (fun _ => none) "" nameLine) nameLine i := by
  have hended : Ended nameLine := ⟨⟨.endOfFile, [], ⟨2, 1⟩⟩, rfl, rfl⟩
  have hrecovers : Recovers (fun _ => none) "" nameLine :=
    ⟨⟨⟨[.exprStmt (.identifier ⟨['x'], ⟨1, 1⟩⟩)], [], none⟩, rfl, ⟨fun _ => rfl, fun _ => ⟨_, rfl⟩⟩, fun _ _ h => by cases h⟩,
      fun _ _ _ _ _ hcaught => (caught_further hended (tied_ready _ _ hended) hcaught).1⟩
  exact ⟨hrecovers, (recovers_iff (fun _ => none) "" hended).mp hrecovers⟩

/-- `x if y else z`. -/
def conditionalLine : List Token :=
  [⟨.identifier, ['x'], ⟨1, 1⟩⟩, ⟨.kwIf, "if".toList, ⟨1, 3⟩⟩, ⟨.identifier, ['y'], ⟨1, 6⟩⟩,
    ⟨.kwElse, "else".toList, ⟨1, 8⟩⟩, ⟨.identifier, ['z'], ⟨1, 13⟩⟩, ⟨.endOfFile, [], ⟨1, 14⟩⟩]

/-- The program ends at a null pointer, and no error is recorded. -/
theorem conditional_not_recovered : Ended conditionalLine ∧ ¬ Recovers (fun _ => none) "" conditionalLine := by
  refine ⟨⟨⟨.endOfFile, [], ⟨1, 14⟩⟩, rfl, rfl⟩, ?_⟩
  rintro ⟨⟨r, hrun, hprogram, -⟩, -⟩
  have hrun' : run (fun _ => none) "" conditionalLine = .ok ⟨[], [], some .nullPointer⟩ := rfl
  cases hrun.symm.trans hrun'
  obtain ⟨stmts, hok⟩ := hprogram.mpr rfl
  cases hok

end Visuall.Parser
