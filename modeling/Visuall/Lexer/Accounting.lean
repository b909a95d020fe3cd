import Visuall.Lexer.Rounds

/-!
# How many tokens there are

Before it closes the open levels, `tokenize` asserts that it has no more than `2 * size + 1` tokens.  A character pays
for two: a tab for the `INDENT` and the `DEDENT` of its level, any other character for a token and for what is thrown
there.

* `weight` — the tokens, the open levels, and two for each character that is left;
* `round_weight` — no round adds to it;
* `tokens_bounded` — the assertion.
-/

namespace Visuall.Lexer.LexState

/-- What is spent and what is still to be spent: every open level is a `DEDENT` to come. -/
def weight (L : LexState) : ℕ := L.tokens.length + L.indentStack.length + 2 * L.cursor.rest.length

/-- A level that is popped becomes a token. -/
theorem popLevels_length (tabCount : ℕ) (pos : Position) (stack : List ℕ) (tokens : List Token) :
    (popLevels tabCount pos stack tokens).2.length + (popLevels tabCount pos stack tokens).1.length =
      tokens.length + stack.length := by
  induction stack generalizing tokens with
  | nil => rfl
  | cons level stack ih =>
      rw [popLevels]
      split_ifs
      · rw [ih, List.length_cons, List.length_cons]
        omega
      · rfl

/-- A level is opened by a tab at least, and an error leaves tokens and levels as many as they were. -/
theorem indentTo_length (L : LexState) (tabCount : ℕ) (pos : Position) :
    (L.indentTo tabCount pos).1.tokens.length + (L.indentTo tabCount pos).1.indentStack.length ≤
        L.tokens.length + L.indentStack.length + 2 * tabCount ∧
      ((L.indentTo tabCount pos).2 ≠ none →
        (L.indentTo tabCount pos).1.tokens.length + (L.indentTo tabCount pos).1.indentStack.length =
          L.tokens.length + L.indentStack.length) := by
  have hpop := popLevels_length tabCount pos L.indentStack L.tokens
  unfold indentTo
  dsimp only
  split_ifs with hdeeper
  · refine ⟨?_, fun h => absurd rfl h⟩
    show (L.tokens.length + 1) + (L.indentStack.length + 1) ≤ _
    omega
  · exact ⟨by show (popLevels _ _ _ _).2.length + (popLevels _ _ _ _).1.length ≤ _; omega, fun h => absurd rfl h⟩
  · exact ⟨by show (popLevels _ _ _ _).2.length + (popLevels _ _ _ _).1.length ≤ _; omega, fun _ => hpop⟩

theorem handleIndentation_length (L : LexState) :
    L.handleIndentation.1.weight ≤ L.weight ∧
      (L.handleIndentation.2 ≠ none →
        L.handleIndentation.1.tokens.length + L.handleIndentation.1.indentStack.length =
          L.tokens.length + L.indentStack.length) := by
  have htabs : (L.cursor.rest.takeWhile (· == '\t')).length + (L.cursor.rest.dropWhile (· == '\t')).length =
      L.cursor.rest.length := by
    rw [← List.length_append, List.takeWhile_append_dropWhile]
  have hcursor := handleIndentation_cursor L
  unfold weight
  rw [hcursor, Cursor.moveTo_rest]
  unfold handleIndentation
  dsimp only
  split
  · refine ⟨?_, fun h => absurd rfl h⟩
    show L.tokens.length + L.indentStack.length + _ ≤ _
    omega
  · split_ifs
    · exact ⟨by show L.tokens.length + L.indentStack.length + _ ≤ _; omega, fun _ => rfl⟩
    · exact ⟨by show L.tokens.length + L.indentStack.length + _ ≤ _; omega, fun _ => rfl⟩
    · exact ⟨by show L.tokens.length + L.indentStack.length + _ ≤ _; omega, fun _ => rfl⟩
    · obtain ⟨hle, herror⟩ := indentTo_length (L.moveTo (L.cursor.rest.dropWhile (· == '\t')))
        (L.cursor.rest.takeWhile (· == '\t')).length L.cursor.pos
      refine ⟨?_, herror⟩
      change _ ≤ L.tokens.length + L.indentStack.length + _ at hle
      omega

theorem settle_length (L : LexState) :
    L.settle.1.weight ≤ L.weight ∧
      (L.settle.2 ≠ none →
        L.settle.1.tokens.length + L.settle.1.indentStack.length = L.tokens.length + L.indentStack.length) := by
  unfold settle
  split_ifs
  · exact handleIndentation_length { L with atLineStart := false }
  · exact ⟨le_rfl, fun _ => rfl⟩

/-- A piece takes a character, and is at most one token; one that throws is none. -/
theorem consume_length {L : LexState} {c : Char} {text : List Char} (hrest : L.cursor.rest = c :: text) :
    (L.consume (scanPiece (c :: text))).1.weight < L.weight ∧
      ((L.consume (scanPiece (c :: text))).2 ≠ none →
        (L.consume (scanPiece (c :: text))).1.weight + 2 ≤ L.weight) := by
  have hshorter := (scanPiece_suffix c text).length_le
  have hlen : L.cursor.rest.length = text.length + 1 := by rw [hrest, List.length_cons]
  have hcursor := consume_cursor L (scanPiece (c :: text))
  unfold weight
  rw [hcursor, Cursor.moveTo_rest, hlen]
  cases hp : scanPiece (c :: text) with
  | newline rest =>
      rw [hp] at hshorter
      refine ⟨?_, fun h => absurd rfl h⟩
      show (L.newline rest).tokens.length + (L.newline rest).indentStack.length + 2 * rest.length < _
      change rest.length ≤ _ at hshorter
      unfold newline
      dsimp only
      split_ifs
      · show L.tokens.length + 1 + L.indentStack.length + 2 * rest.length < _
        omega
      · show L.tokens.length + L.indentStack.length + 2 * rest.length < _
        omega
  | skip rest =>
      rw [hp] at hshorter
      refine ⟨?_, fun h => absurd rfl h⟩
      change rest.length ≤ _ at hshorter
      show L.tokens.length + L.indentStack.length + 2 * rest.length < _
      omega
  | token type lexeme rest =>
      rw [hp] at hshorter
      refine ⟨?_, fun h => absurd rfl h⟩
      change rest.length ≤ _ at hshorter
      show L.tokens.length + 1 + L.indentStack.length + 2 * rest.length < _
      omega
  | unexpected x rest =>
      rw [hp] at hshorter
      refine ⟨?_, fun h => absurd rfl h⟩
      change rest.length ≤ _ at hshorter
      show L.tokens.length + 1 + L.indentStack.length + 2 * rest.length < _
      omega
  | failure f =>
      rw [hp] at hshorter
      change f.rest.length ≤ _ at hshorter
      have hle : L.tokens.length + L.indentStack.length + 2 * f.rest.length + 2 ≤
          L.tokens.length + L.indentStack.length + 2 * (text.length + 1) := by omega
      exact ⟨by show L.tokens.length + L.indentStack.length + 2 * f.rest.length < _; omega, fun _ => hle⟩

theorem recover_ahead (L : LexState) (start : Cursor) (e : LexError) : L.cursor.Ahead (L.recover start e).cursor := by
  unfold recover
  split
  · exact Cursor.ahead_moveTo (List.dropWhile_suffix _)
  · show L.cursor.Ahead (if L.cursor.rest.length = start.rest.length then L.cursor.advance else L.cursor)
    split_ifs
    · exact Cursor.ahead_advance _
    · exact Cursor.Ahead.refl _

/-- An `ERROR` token for what was thrown. -/
theorem recover_length (L : LexState) (start : Cursor) (e : LexError) :
    (L.recover start e).tokens.length + (L.recover start e).indentStack.length =
      L.tokens.length + L.indentStack.length + 1 := by
  unfold recover
  split
  · show L.tokens.length + 1 + L.indentStack.length = _
    omega
  · show L.tokens.length + 1 + L.indentStack.length = _
    omega

theorem guardProgress_weight (L : LexState) (start : Cursor) : (L.guardProgress start).weight ≤ L.weight := by
  have hle := (guardProgress_ahead L start).suffix.length_le
  have hsame : (L.guardProgress start).tokens = L.tokens ∧ (L.guardProgress start).indentStack = L.indentStack := by
    unfold guardProgress
    split_ifs <;> exact ⟨rfl, rfl⟩
  unfold weight
  rw [hsame.1, hsame.2]
  omega

/-- **A round spends no more than it takes.** -/
theorem round_weight (L : LexState) : L.round.weight ≤ L.weight := by
  by_cases hrest : L.cursor.rest = []
  · rw [round_of_end hrest]
  · obtain ⟨hsettle, hthrown⟩ := L.settle_length
    rw [round_of_ne hrest]
    rcases hattempt : L.attempt with ⟨M, _ | e⟩
    · dsimp only
      rcases L.attempt_cases hrest with ⟨_, _, h⟩ | ⟨_, _, _, h⟩ | ⟨_, c, text, hct, _, h⟩
      · rw [show M = L.settle.1 by rw [← h, hattempt]]
        exact hsettle
      · rw [show M = L.settle.1 by rw [← h, hattempt]]
        exact hsettle
      · rw [show M = (L.settle.1.consume (scanPiece (c :: text))).1 by rw [← h, hattempt]]
        exact (consume_length hct).1.le.trans hsettle
    · dsimp only
      refine (guardProgress_weight _ _).trans ?_
      have hM : M = L.attempt.1 := by rw [hattempt]
      have hspace := (attempt_throws (e := e) hrest (by rw [hattempt])).2
      rw [← hM] at hspace
      have htokens := recover_length M L.cursor e
      have hlt := recover_lt hrest (hM ▸ L.attempt_ahead hrest) hspace
      rcases L.attempt_cases hrest with ⟨e', he', h⟩ | ⟨hnone, _, _, h⟩ | ⟨_, c, text, hct, _, h⟩
      · -- the indentation throws: tokens and levels are as many as before
        have hlength := hthrown (by rw [he']; exact fun h => by cases h)
        rw [show M = L.settle.1 by rw [← h, hattempt]] at htokens hlt ⊢
        unfold weight
        omega
      · rw [← h, hattempt] at hnone
        cases hnone
      · -- the piece throws: it has taken a character
        have hpiece := (consume_length hct).2 (by rw [← h, hattempt]; exact fun h => by cases h)
        rw [← show M = (L.settle.1.consume (scanPiece (c :: text))).1 by rw [← h, hattempt]] at hpiece
        have hrecover := (recover_ahead M L.cursor e).suffix.length_le
        unfold weight at *
        omega

theorem rounds_weight (L : LexState) (n : ℕ) : (round^[n] L).weight ≤ L.weight := by
  induction n with
  | zero => exact le_rfl
  | succ n ih =>
      rw [Function.iterate_succ_apply']
      exact (round_weight _).trans ih

end Visuall.Lexer.LexState

namespace Visuall.Lexer

open LexState

/-- **The main loop ends, and the assertion holds there**: whatever the text, and whatever is thrown. -/
theorem tokens_bounded (source : List Char) (filename : String) :
    (∃ n, (LexState.round^[n] (initial source filename)).cursor.rest = []) ∧
      ∀ n, (LexState.round^[n] (initial source filename)).cursor.rest = [] →
        (LexState.round^[n] (initial source filename)).tokens.length ≤ (normalizeIndentation source).length * 2 + 1 := by
  refine ⟨⟨_, (initial source filename).mainLoop_end⟩, fun n hend => ?_⟩
  have hweight := rounds_weight (initial source filename) n
  have hstart : (initial source filename).weight = 1 + 2 * (normalizeIndentation source).length := by
    show 0 + 1 + 2 * (normalizeIndentation source).length = _
    omega
  unfold weight at hweight
  unfold weight at hstart
  omega

end Visuall.Lexer
