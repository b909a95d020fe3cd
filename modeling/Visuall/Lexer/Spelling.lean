import Visuall.Lexer.Positions
import Visuall.Lib.Effect

/-!
# How tokens are written

The text of a token as it stands in the normalized text, which for strings and numbers is not the lexeme,
and the order in which the tokens stand there.

* `fstringBody_verbatim`, `lexNumber_spelled`, `lexString_spelled` — what the lexeme keeps of the text;
* `scanPiece_spelled` — the text that is taken for a token;
* `Placed`, `tokens_placed` — the tokens of a text that tokenizes stand one behind the other.
-/

namespace Visuall.Lexer

/-! ## What a lexeme keeps of the text -/

section Literals

variable {text lexeme rest value : List Char} {type : TokenType}

/-- Something in front of what a sub-lexer reads. -/
theorem prepended {x : Except Failure (List Char × List Char)} {raw : List Char} (front : List Char)
    (hx : ∀ raw rest, x = .ok (raw, rest) → text = raw ++ rest)
    (h : (x >>= fun p => pure (front ++ p.1, p.2)) = .ok (raw, rest)) : front ++ text = raw ++ rest := by
  cases hp : x with
  | error f =>
      rw [hp] at h
      cases h
  | ok p =>
      rw [hp] at h
      cases h
      rw [hx p.1 p.2 hp, List.append_assoc]

/-- The raw text of an f-string is kept. -/
theorem fstringBody_verbatim (delimiter : Char) (brace : Option (List Char)) (text : List Char) :
    ∀ raw rest, fstringBody delimiter brace text = .ok (raw, rest) → text = raw ++ rest := by
  induction brace, text using fstringBody.induct delimiter with
  | case1 =>
      intro raw rest h
      cases h
  | case2 brace =>
      intro raw rest h
      cases h
  | case3 brace text ih =>
      intro raw rest h
      rw [fstringBody, if_pos rfl] at h
      exact prepended ['\x7d'] ih h
  | case4 brace c text hc hstop =>
      intro raw rest h
      rw [fstringBody, if_neg hc, if_pos hstop] at h
      cases h
  | case5 brace c text hc hstop ih =>
      intro raw rest h
      rw [fstringBody, if_neg hc, if_neg hstop] at h
      exact prepended [c] ih h
  | case6 text =>
      intro raw rest h
      unfold fstringBody at h
      rw [if_pos rfl] at h
      cases h
      rfl
  | case7 text hd =>
      intro raw rest h
      unfold fstringBody at h
      rw [if_neg hd, if_pos rfl] at h
      cases h
  | case8 hd hn =>
      intro raw rest h
      unfold fstringBody at h
      rw [if_neg hd, if_neg hn, if_pos rfl] at h
      cases h
  | case9 esc text hd hn ih =>
      intro raw rest h
      unfold fstringBody at h
      rw [if_neg hd, if_neg hn, if_pos rfl] at h
      exact prepended ['\\', esc] ih h
  | case10 text hd hn hb ih =>
      intro raw rest h
      unfold fstringBody at h
      rw [if_neg hd, if_neg hn, if_neg hb, if_pos rfl] at h
      exact prepended ['\x7b'] ih h
  | case11 c text hd hn hb hc ih =>
      intro raw rest h
      unfold fstringBody at h
      rw [if_neg hd, if_neg hn, if_neg hb, if_neg hc] at h
      exact prepended [c] ih h

theorem lexFString_spelled {delimiter : Char} (h : lexFString delimiter text = .ok (lexeme, rest)) :
    'f' :: delimiter :: text = lexeme ++ rest :=
  prepended ['f', delimiter] (fstringBody_verbatim delimiter none text) h

/-- The text without the separators. -/
def withoutSeparators (s : List Char) : List Char := s.filter (· != '_')

theorem withoutSeparators_append (s t : List Char) : withoutSeparators (s ++ t) = withoutSeparators s ++ withoutSeparators t :=
  List.filter_append ..

theorem withoutSeparators_self {s : List Char} (h : '_' ∉ s) : withoutSeparators s = s := by
  rw [withoutSeparators, List.filter_eq_self]
  exact fun c hc => by simpa using ne_of_mem_of_not_mem hc h

theorem digits_append (text : List Char) : text = text.takeWhile isDigitOrSeparator ++ afterDigits text :=
  List.takeWhile_append_dropWhile.symm

theorem separator_notMem_digits (text : List Char) : '_' ∉ text.takeWhile isDigit := fun h =>
  absurd (List.mem_takeWhile_imp h) (by decide)

/-- The sign of an exponent is in front of its digits. -/
theorem sign_append (text : List Char) : text = (text.take 1).filter (fun s => s == '+' || s == '-') ++
    text.drop ((text.take 1).filter fun s => s == '+' || s == '-').length := by
  cases text with
  | nil => rfl
  | cons c text =>
      rw [List.take_succ_cons, List.take_zero, List.filter_cons]
      split
      · rfl
      · rfl

theorem lexExponent_spelled {isFloat : Bool} {front s : List Char}
    (h : lexExponent isFloat (front ++ withoutSeparators s) text = .ok (type, lexeme, rest)) :
    ∃ t, s ++ text = t ++ rest ∧ lexeme = front ++ withoutSeparators t := by
  unfold lexExponent at h
  split at h
  · next e text =>
      split at h
      · next he =>
          have hsign := sign_append text
          have hnot : '_' ∉ (text.take 1).filter fun s => s == '+' || s == '-' := fun hmem =>
            absurd (List.mem_filter.mp hmem).2 (by decide)
          dsimp only at h
          generalize (text.take 1).filter (fun s => s == '+' || s == '-') = sign at h hsign hnot
          generalize text.drop sign.length = text' at h hsign
          split at h
          · cases h
            refine ⟨s ++ e :: sign ++ text'.takeWhile isDigit, ?_, ?_⟩
            · rw [hsign, List.append_assoc, List.append_assoc, List.cons_append, List.takeWhile_append_dropWhile]
            · have hexponent : '_' ∉ e :: sign ++ text'.takeWhile isDigit := by
                rw [List.mem_append, List.mem_cons]
                rintro ((heq | hmem) | hmem)
                · rcases he with rfl | rfl <;> exact absurd heq (by decide)
                · exact hnot hmem
                · exact separator_notMem_digits text' hmem
              rw [List.append_assoc s, withoutSeparators_append, withoutSeparators_self hexponent, ← List.append_assoc, ← List.append_assoc]
          · cases h
      · cases h
        exact ⟨s, rfl, rfl⟩
  · cases h
    exact ⟨s, rfl, rfl⟩

/-- The value of a number is its text without the separators. -/
theorem lexNumber_spelled {c : Char} (h : lexNumber c text = .ok (type, lexeme, rest)) :
    ∃ t, text = t ++ rest ∧ lexeme = c :: withoutSeparators t := by
  have hint : c :: digitsOf text = [c] ++ withoutSeparators (text.takeWhile isDigitOrSeparator) := rfl
  unfold lexNumber at h
  rw [hint] at h
  rw [digits_append text]
  generalize text.takeWhile isDigitOrSeparator = s at h
  dsimp only at h
  split at h
  · next d text' hdot =>
      rw [hdot]
      split at h
      · split at h
        · cases h
        · have hfraction : [c] ++ withoutSeparators s ++ '.' :: digitsOf (d :: text') =
              [c] ++ withoutSeparators (s ++ '.' :: (d :: text').takeWhile isDigitOrSeparator) := by
            rw [withoutSeparators_append, List.append_assoc]
            rfl
          rw [hfraction] at h
          obtain ⟨t, ht, hlexeme⟩ := lexExponent_spelled h
          refine ⟨t, ?_, hlexeme⟩
          rw [← ht, List.append_assoc, List.cons_append, ← digits_append]
      · exact lexExponent_spelled h
  · exact lexExponent_spelled h

theorem utf8Bytes_length (code : ℕ) : (utf8Bytes code).length ≤ 4 := by
  unfold utf8Bytes
  split_ifs <;> simp

/-- A code point escape has at least four digits, and stands for at most four bytes. -/
theorem codePoint_spelled {n : ℕ} {message : String} {bytes : List Char} (hn : 4 ≤ n)
    (h : (hexDigits n message text >>= fun p => scalarBytes (hexValue p.1) p.2) = .ok (bytes, rest)) :
    ∃ used, text = used ++ rest ∧ bytes.length ≤ used.length + 2 := by
  obtain ⟨p, hp, hscalar⟩ := Effect.ok_of_bind h
  unfold hexDigits at hp
  split at hp
  · next hlen =>
      cases hp
      unfold scalarBytes at hscalar
      split_ifs at hscalar
      cases hscalar
      refine ⟨text.take n, (List.take_append_drop n text).symm, ?_⟩
      have htake := (List.takeWhile_prefix isXDigit (l := text.take n)).length_le
      exact (utf8Bytes_length _).trans (by omega)
  · cases hp

/-- An escape stands for no more bytes than it is written with, the backslash and the character behind it counted. -/
theorem lexEscape_spelled {esc : Char} {bytes : List Char} (h : lexEscape esc text = .ok (bytes, rest)) :
    ∃ used, text = used ++ rest ∧ bytes.length ≤ used.length + 2 := by
  unfold lexEscape at h
  split at h
  case h_13 =>
    dsimp only at h
    split_ifs at h
    cases h
    have hprefix := (List.takeWhile_prefix isXDigit (l := text.take 2)).trans (List.take_prefix 2 text)
    exact ⟨(text.take 2).takeWhile isXDigit, (List.prefix_iff_eq_append.mp hprefix).symm, by simp⟩
  case h_14 => exact codePoint_spelled le_rfl h
  case h_15 => exact codePoint_spelled (by decide) h
  all_goals
    cases h
    exact ⟨[], rfl, by simp⟩

/-- A string is written with at least one character more than its value has, the closing quote. -/
theorem stringBody_spelled {delimiter : Char} {fuel : ℕ} (h : stringBody delimiter fuel text = .ok (value, rest)) :
    ∃ used, text = used ++ rest ∧ value.length < used.length := by
  induction fuel generalizing text value with
  | zero => cases h
  | succ fuel ih =>
      cases text with
      | nil => cases h
      | cons c text =>
          unfold stringBody at h
          split_ifs at h with hd hn hb
          · cases h
            exact ⟨[c], rfl, Nat.zero_lt_one⟩
          · cases text with
            | nil => cases h
            | cons esc text =>
                obtain ⟨⟨bytes, text'⟩, hesc, hrest⟩ := Effect.ok_of_bind h
                obtain ⟨⟨value', rest'⟩, hbody, hpure⟩ := Effect.ok_of_bind hrest
                cases hpure
                obtain ⟨used, rfl, hlen⟩ := lexEscape_spelled hesc
                obtain ⟨used', rfl, hlen'⟩ := ih hbody
                refine ⟨c :: esc :: (used ++ used'), by simp, ?_⟩
                simp only [List.length_append, List.length_cons]
                omega
          · obtain ⟨⟨value', rest'⟩, hbody, hpure⟩ := Effect.ok_of_bind h
            cases hpure
            obtain ⟨used', rfl, hlen'⟩ := ih hbody
            exact ⟨c :: used', rfl, Nat.succ_lt_succ hlen'⟩

end Literals

/-! ## The text of a token -/

/-- The types of the tokens that a sub-lexer reads. -/
def Scanned (type : TokenType) : Prop := type ∉ [.error, .newline, .indent, .dedent, .endOfFile]

instance : DecidablePred Scanned := fun _ => inferInstanceAs (Decidable (_ ∉ _))

/-- The text of a token is not empty, begins with no white space, and the lexeme is no longer. -/
structure Spells (type : TokenType) (lexeme spelled : List Char) : Prop where
  scanned : Scanned type
  head : ∃ c s, spelled = c :: s ∧ c ≠ ' ' ∧ c ≠ '\t' ∧ c ≠ '\n'
  length_le : lexeme.length ≤ spelled.length

theorem keywords_scanned : ∀ kw ∈ keywords, Scanned kw.2 := by decide

theorem operators_scanned : ∀ op ∈ operators, Scanned op.2 := by decide

theorem reads_scanned {text lexeme rest : List Char} {type : TokenType} (h : Reads text type lexeme rest) : Scanned type := by
  cases h with
  | fstring _ => decide
  | string _ => decide
  | number hread => rcases lexNumber_type hread with rfl | rfl <;> decide
  | word _ =>
      rcases wordType_cases (_ :: List.takeWhile isWordChar _) with h | h | h | ⟨kw, hkw, h⟩
      · rw [h]
        decide
      · rw [h]
        decide
      · rw [h]
        decide
      · rw [h]
        exact keywords_scanned kw hkw
  | operator hop => exact operators_scanned _ hop

/-- **The text of a token.** -/
theorem scanPiece_spelled {text lexeme rest : List Char} {type : TokenType} (h : scanPiece text = .token type lexeme rest) :
    ∃ spelled, text = spelled ++ rest ∧ Spells type lexeme spelled := by
  cases text with
  | nil => cases h
  | cons c text =>
      have hhead : c ≠ ' ' ∧ c ≠ '\t' ∧ c ≠ '\n' := by
        unfold scanPiece at h
        dsimp only at h
        split_ifs at h with hblank hn
        all_goals
          refine ⟨?_, ?_, hn⟩
          · rintro rfl
            exact hblank rfl
          · rintro rfl
            exact hblank rfl
      have hspelled : ∃ spelled, c :: text = spelled ++ rest ∧ lexeme.length ≤ spelled.length ∧ spelled ≠ [] := by
        have hreads := scanPiece_reads h
        generalize c :: text = t at hreads
        cases hreads with
        | fstring hread =>
            refine ⟨lexeme, lexFString_spelled hread, le_rfl, ?_⟩
            rintro rfl
            obtain ⟨p, -, hpure⟩ := Effect.ok_of_bind hread
            cases hpure
        | @string delimiter text _ _ hread =>
            obtain ⟨used, rfl, hlen⟩ := stringBody_spelled hread
            exact ⟨delimiter :: used, rfl, by rw [List.length_cons]; omega, List.cons_ne_nil _ _⟩
        | @number c _ text _ _ hread =>
            obtain ⟨s, rfl, rfl⟩ := lexNumber_spelled hread
            exact ⟨c :: s, rfl, Nat.succ_le_succ (List.length_filter_le _ _), List.cons_ne_nil _ _⟩
        | @word c text hword =>
            exact ⟨c :: text.takeWhile isWordChar, by simp, le_rfl, List.cons_ne_nil _ _⟩
        | operator hop => exact ⟨lexeme, rfl, le_rfl, operators_ne_nil _ hop⟩
      obtain ⟨spelled, htext, hlen, hne⟩ := hspelled
      obtain ⟨d, s, rfl⟩ := List.exists_cons_of_ne_nil hne
      obtain ⟨rfl, -⟩ := List.cons.inj htext
      exact ⟨_, htext, reads_scanned (scanPiece_reads h), ⟨c, s, rfl, hhead⟩, hlen⟩

/-! ## The order of the tokens -/

/-- The tokens, the latest first, stand one behind the other in the text, all in front of an offset. -/
inductive Placed (text : List Char) : ℕ → List Token → Prop
  | nil : Placed text 0 []
  | later {n m : ℕ} {ts : List Token} (h : Placed text n ts) (hle : n ≤ m) : Placed text m ts
  | other {n : ℕ} {ts : List Token} {t : Token} (h : Placed text n ts) (ht : ¬ Scanned t.type) : Placed text n (t :: ts)
  | token {n : ℕ} {ts : List Token} {t : Token} {before spelled after : List Char} (h : Placed text n ts) (hn : n ≤ before.length)
      (htext : text = before ++ (spelled ++ after)) (hscan : scanPiece (spelled ++ after) = .token t.type t.lexeme after)
      (hpos : t.pos = Position.afterText ⟨1, 1⟩ before) : Placed text (before.length + spelled.length) (t :: ts)

theorem Placed.others {text : List Char} {n : ℕ} {ts added : List Token} (h : Placed text n ts)
    (hadded : ∀ t ∈ added, ¬ Scanned t.type) : Placed text n (added ++ ts) := by
  induction added with
  | nil => exact h
  | cons t added ih =>
      obtain ⟨ht, hrest⟩ := List.forall_mem_cons.mp hadded
      exact .other (ih hrest) ht

/-- The cursor counts in the text, and the tokens stand in front of it. -/
def Tracked (text : List Char) (L : LexState) : Prop :=
  ∃ passed, text = passed ++ L.cursor.rest ∧ L.cursor.pos = Position.afterText ⟨1, 1⟩ passed ∧ Placed text passed.length L.tokens

namespace LexState

variable {text : List Char} {L : LexState}

/-- Moving the cursor forward and adding tokens that no sub-lexer reads. -/
theorem tracked_of_ahead {M : LexState} (h : Tracked text L) (hcursor : L.cursor.Ahead M.cursor)
    (htokens : ∃ added, M.tokens = added ++ L.tokens ∧ ∀ t ∈ added, ¬ Scanned t.type) : Tracked text M := by
  obtain ⟨passed, htext, hpos, hplaced⟩ := h
  obtain ⟨more, hmore, hpos'⟩ := hcursor
  obtain ⟨added, heq, hadded⟩ := htokens
  refine ⟨passed ++ more, ?_, ?_, ?_⟩
  · rw [htext, hmore, List.append_assoc]
  · rw [hpos', hpos, Position.afterText_append]
  · rw [heq]
    exact .later (hplaced.others hadded) (by rw [List.length_append]; omega)

/-- Popping levels adds `DEDENT`s in front. -/
theorem popLevels_added (tabCount : ℕ) (pos : Position) (stack : List ℕ) (tokens : List Token) :
    ∃ added, (popLevels tabCount pos stack tokens).2 = added ++ tokens ∧ ∀ t ∈ added, ¬ Scanned t.type := by
  induction stack, tokens using popLevels.induct tabCount pos with
  | case1 level stack tokens hlt ih =>
      rw [popLevels, if_pos hlt]
      obtain ⟨added, heq, hadded⟩ := ih
      refine ⟨added ++ [⟨.dedent, "<DEDENT>".toList, pos⟩], by rw [heq, List.append_assoc]; rfl, ?_⟩
      rw [List.forall_mem_append, List.forall_mem_singleton]
      exact ⟨hadded, show ¬ Scanned .dedent by decide⟩
  | case2 level stack tokens hle =>
      rw [popLevels, if_neg hle]
      exact ⟨[], rfl, List.forall_mem_nil _⟩
  | case3 tokens => exact ⟨[], rfl, List.forall_mem_nil _⟩

theorem handleIndentation_added (L : LexState) :
    ∃ added, L.handleIndentation.1.tokens = added ++ L.tokens ∧ ∀ t ∈ added, ¬ Scanned t.type := by
  unfold handleIndentation
  dsimp only
  split
  · exact ⟨[], rfl, List.forall_mem_nil _⟩
  · split_ifs
    · exact ⟨[], rfl, List.forall_mem_nil _⟩
    · exact ⟨[], rfl, List.forall_mem_nil _⟩
    · exact ⟨[], rfl, List.forall_mem_nil _⟩
    · unfold indentTo
      dsimp only
      split_ifs
      · exact ⟨[_], rfl, List.forall_mem_singleton.mpr (show ¬ Scanned .indent by decide)⟩
      all_goals exact popLevels_added _ _ _ _

theorem handleIndentation_tracked (h : Tracked text L) : Tracked text L.handleIndentation.1 :=
  tracked_of_ahead h L.handleIndentation_ahead L.handleIndentation_added

theorem consume_tracked {c : Char} {rest : List Char} (hrest : L.cursor.rest = c :: rest) (h : Tracked text L) :
    Tracked text (L.consume (scanPiece (c :: rest))).1 := by
  have hahead := (consume_ahead hrest).1
  cases hp : scanPiece (c :: rest) with
  | newline rest' =>
      rw [hp] at hahead
      refine tracked_of_ahead h hahead ?_
      show ∃ added, (L.newline rest').tokens = added ++ L.tokens ∧ ∀ t ∈ added, ¬ Scanned t.type
      unfold newline
      dsimp only
      split_ifs
      · exact ⟨[_], rfl, List.forall_mem_singleton.mpr (show ¬ Scanned .newline by decide)⟩
      · exact ⟨[], rfl, List.forall_mem_nil _⟩
  | token type lexeme rest' =>
      obtain ⟨passed, htext, hpos, hplaced⟩ := h
      obtain ⟨spelled, hspelled, -⟩ := scanPiece_spelled hp
      refine ⟨passed ++ spelled, ?_, ?_, ?_⟩
      · show text = passed ++ spelled ++ rest'
        rw [htext, hrest, hspelled, List.append_assoc]
      · show (L.cursor.moveTo rest').pos = _
        have hcursor : L.cursor = ⟨spelled ++ rest', L.cursor.pos⟩ := by rw [← hspelled, ← hrest]
        rw [hcursor, Cursor.moveTo_append, hpos, Position.afterText_append]
      · rw [List.length_append]
        refine .token hplaced le_rfl ?_ (hspelled ▸ hp) hpos
        rw [htext, hrest, hspelled]
  | unexpected x rest' =>
      rw [hp] at hahead
      exact tracked_of_ahead h hahead ⟨[_], rfl, List.forall_mem_singleton.mpr (show ¬ Scanned .error by decide)⟩
  | skip rest' =>
      rw [hp] at hahead
      exact tracked_of_ahead h hahead ⟨[], rfl, List.forall_mem_nil _⟩
  | failure f =>
      rw [hp] at hahead
      exact tracked_of_ahead h hahead ⟨[], rfl, List.forall_mem_nil _⟩

theorem round_tracked (h : Tracked text L) (hok : L.round.firstError = none) : Tracked text L.round :=
  round_preserves (I := Tracked text) (fun h => h) (fun _ hM _ => handleIndentation_tracked hM)
    (fun _ _ _ _ hrest _ hM => consume_tracked hrest hM) h hok

theorem rounds_tracked (h : Tracked text L) (hok : ∀ n, (round^[n] L).firstError = none) (n : ℕ) :
    Tracked text (round^[n] L) := by
  induction n with
  | zero => exact h
  | succ n ih =>
      have hn := hok (n + 1)
      rw [Function.iterate_succ_apply'] at hn ⊢
      exact round_tracked ih hn

end LexState

/-- **The tokens of a text that tokenizes** stand one behind the other in the normalized text. -/
theorem tokens_placed {source : List Char} {filename : String} {tokens : List Token}
    (h : tokenize source filename = .ok tokens) : ∃ n, Placed (normalizeIndentation source) n tokens.reverse := by
  obtain ⟨hok, htokens⟩ := mainLoop_firstError h
  have htracked : Tracked (normalizeIndentation source) (initial source filename).mainLoop :=
    LexState.rounds_tracked (L := initial source filename) ⟨[], rfl, rfl, .nil⟩ (LexState.firstError_rounds hok) _
  obtain ⟨passed, -, -, hplaced⟩ := htracked
  obtain ⟨added, heq, hadded⟩ := LexState.popLevels_added 0 (initial source filename).mainLoop.cursor.pos
    (initial source filename).mainLoop.indentStack (initial source filename).mainLoop.tokens
  refine ⟨passed.length, ?_⟩
  rw [htokens, List.reverse_reverse]
  refine .other ?_ (show ¬ Scanned .endOfFile by decide)
  show Placed _ _ (LexState.popLevels _ _ _ _).2
  rw [heq]
  exact hplaced.others hadded

/-! ## Where a token is written -/

/-- The text from a position on. -/
def textAt (text : List Char) (pos : Position) : List Char :=
  (joinWith '\n' ((lines text).drop (pos.line - 1))).drop (pos.column - 1)

/-- The text of a token. -/
def spelling (text : List Char) (t : Token) : List Char :=
  match scanPiece (textAt text t.pos) with
  | .token _ _ after => (textAt text t.pos).take ((textAt text t.pos).length - after.length)
  | _ => []

/-- The position behind a token. -/
def endOf (text : List Char) (t : Token) : Position := t.pos.afterText (spelling text t)

/-- No later in the text. -/
def Upto (p q : Position) : Prop := p.line < q.line ∨ p.line = q.line ∧ p.column ≤ q.column

section Written

variable {text before after : List Char} {t : Token}

theorem joinWith_lines (text : List Char) : joinWith '\n' (lines text) = text := by
  induction text with
  | nil => rfl
  | cons c text ih =>
      by_cases hc : c = '\n'
      · rw [hc, lines_newline, joinWith_cons (lines_ne_nil text), ih]
        rfl
      · rw [lines_cons hc]
        obtain ⟨l, ls, hl⟩ := lines_eq_cons text
        rw [hl] at ih ⊢
        rw [List.modifyHead_cons]
        cases ls with
        | nil => rw [← ih, joinWith_singleton, joinWith_singleton]
        | cons m ls => rw [← ih, joinWith_cons_cons, joinWith_cons_cons, List.cons_append]

/-- The text behind a part of it is at the position behind that part. -/
theorem textAt_afterText (before rest : List Char) : textAt (before ++ rest) (Position.afterText ⟨1, 1⟩ before) = rest := by
  obtain ⟨l, ls, hl⟩ := lines_eq_cons rest
  have hne := List.length_pos_iff.mpr (lines_ne_nil before)
  have hrest : joinWith '\n' (l :: ls) = rest := hl ▸ joinWith_lines rest
  have hdrop : (lines (before ++ rest)).drop ((lines before).length - 1) = ((lines before).getLastD [] ++ l) :: ls := by
    rw [lines_append, hl, List.drop_append_of_le_length (by rw [List.length_dropLast]), List.drop_eq_nil_of_le (by rw [List.length_dropLast])]
    rfl
  rw [textAt, afterText_start]
  show (joinWith '\n' ((lines (before ++ rest)).drop ((lines before).length - 1))).drop ((lines before).getLastD []).length = rest
  rw [hdrop]
  cases ls with
  | nil => rw [joinWith_singleton, List.drop_left, ← hrest, joinWith_singleton]
  | cons m ls => rw [joinWith_cons_cons, List.append_assoc, List.drop_left, ← hrest, joinWith_cons_cons]

/-- The token stands behind a part of the text. -/
structure Written (text : List Char) (t : Token) (before after : List Char) : Prop where
  text_eq : text = before ++ (spelling text t ++ after)
  pos : t.pos = Position.afterText ⟨1, 1⟩ before
  spells : Spells t.type t.lexeme (spelling text t)

theorem written_of_scan {spelled : List Char} (htext : text = before ++ (spelled ++ after))
    (hscan : scanPiece (spelled ++ after) = .token t.type t.lexeme after) (hpos : t.pos = Position.afterText ⟨1, 1⟩ before) :
    Written text t before after ∧ spelling text t = spelled := by
  have hat : textAt text t.pos = spelled ++ after := by rw [htext, hpos, textAt_afterText]
  have hspelling : spelling text t = spelled := by
    rw [spelling, hat, hscan]
    simp
  obtain ⟨spelled', heq, hspells⟩ := scanPiece_spelled hscan
  obtain rfl := List.append_cancel_right heq
  exact ⟨⟨hspelling ▸ htext, hpos, hspelling ▸ hspells⟩, hspelling⟩

theorem Written.endOf (h : Written text t before after) : endOf text t = Position.afterText ⟨1, 1⟩ (before ++ spelling text t) := by
  rw [Lexer.endOf, h.pos, Position.afterText_append]

theorem Written.one_le (h : Written text t before after) : 1 ≤ t.pos.line ∧ 1 ≤ t.pos.column := by
  have hpos := h.pos
  rw [afterText_start] at hpos
  rw [hpos]
  exact ⟨List.length_pos_iff.mpr (lines_ne_nil before), Nat.le_add_left _ _⟩

theorem Upto.trans {p q r : Position} (hpq : Upto p q) (hqr : Upto q r) : Upto p r := by
  unfold Upto at *
  omega

theorem upto_afterText (p : Position) (s : List Char) : Upto p (p.afterText s) := by
  induction s generalizing p with
  | nil => exact .inr ⟨rfl, le_rfl⟩
  | cons c s ih =>
      have hstep : Upto p (p.after c) := by
        unfold Position.after
        split
        · exact .inl (Nat.lt_succ_self _)
        · exact .inr ⟨rfl, Nat.le_succ _⟩
      exact hstep.trans (ih _)

/-- Behind a text on one line. -/
theorem afterText_of_notMem {s : List Char} (h : '\n' ∉ s) (p : Position) : p.afterText s = ⟨p.line, p.column + s.length⟩ := by
  induction s generalizing p with
  | nil => rfl
  | cons c s ih =>
      obtain ⟨hc, hs⟩ := not_or.mp (List.mem_cons.not.mp h)
      rw [Position.afterText_cons, ih hs, Position.after, if_neg (Ne.symm hc), List.length_cons, Nat.add_right_comm, Nat.add_assoc]

/-- Behind a text with a newline. -/
theorem line_lt_afterText {s : List Char} (h : '\n' ∈ s) (p : Position) : p.line < (p.afterText s).line := by
  obtain ⟨a, b, rfl⟩ := List.append_of_mem h
  have hbefore : p.line ≤ (p.afterText a).line := by
    rcases upto_afterText p a with hlt | ⟨heq, -⟩
    · exact hlt.le
    · exact heq.le
  have hafter := upto_afterText ((p.afterText a).after '\n') b
  rw [Position.afterText_append, Position.afterText_cons]
  have hstep : ((p.afterText a).after '\n').line = (p.afterText a).line + 1 := rfl
  rcases hafter with hlt | ⟨heq, -⟩
  · omega
  · omega

/-- Every token of a sub-lexer is written in front of the offset. -/
theorem Placed.written {n : ℕ} {ts : List Token} (h : Placed text n ts) :
    ∀ t ∈ ts, Scanned t.type → ∃ before after, Written text t before after ∧ (before ++ spelling text t).length ≤ n := by
  induction h with
  | nil => exact List.forall_mem_nil _
  | later _ hle ih =>
      intro t ht hs
      obtain ⟨before, after, hw, hlen⟩ := ih t ht hs
      exact ⟨before, after, hw, hlen.trans hle⟩
  | other _ hnot ih =>
      refine List.forall_mem_cons.mpr ⟨fun hs => absurd hs hnot, ih⟩
  | token _ hn htext hscan hpos ih =>
      obtain ⟨hw, hspelling⟩ := written_of_scan htext hscan hpos
      refine List.forall_mem_cons.mpr ⟨fun _ => ⟨_, _, hw, ?_⟩, fun t ht hs => ?_⟩
      · rw [hspelling, List.length_append]
      · obtain ⟨before, after, hw', hlen⟩ := ih t ht hs
        exact ⟨before, after, hw', by omega⟩

/-- A token ends where the next one begins, or before. -/
theorem Placed.ordered {n : ℕ} {ts : List Token} (h : Placed text n ts) :
    ts.Pairwise fun later earlier => Scanned later.type → Scanned earlier.type → Upto (Lexer.endOf text earlier) later.pos := by
  induction h with
  | nil => exact .nil
  | later _ _ ih => exact ih
  | other _ hnot ih => exact .cons (fun _ _ hs => absurd hs hnot) ih
  | @token n ts t before spelled after hplaced hn htext hscan hpos ih =>
      refine .cons (fun earlier hmem _ hs => ?_) ih
      obtain ⟨before', after', hw, hlen⟩ := hplaced.written earlier hmem hs
      have hprefix : before' ++ spelling text earlier <+: before := by
        have hfront : before' ++ spelling text earlier <+: text := ⟨after', by rw [List.append_assoc]; exact hw.text_eq.symm⟩
        exact List.prefix_of_prefix_length_le hfront ⟨spelled ++ after, htext.symm⟩ (hlen.trans hn)
      obtain ⟨gap, rfl⟩ := hprefix
      rw [hw.endOf, hpos, Position.afterText_append _ _ gap]
      exact upto_afterText _ gap

end Written

end Visuall.Lexer
