import Visuall.Lexer.Rounds
import Visuall.Lexer.Indentation
import Visuall.Lib.Lines

/-!
# Positions

Where the tokens stand in the source.  The cursor counts in the normalized text, so a token that is its
own text stands at its position there; normalization rewrites the indentation of a line and nothing else,
so it stands at its position in the source too when the indentation keeps its length.
-/

namespace Visuall.Lexer

/-- A text contains a lexeme at a position. -/
def StandsAt (text lexeme : List Char) (pos : Position) : Prop :=
  ∃ line, (lines text)[pos.line - 1]? = some line ∧ lexeme <+: line.drop (pos.column - 1)

instance (text lexeme : List Char) (pos : Position) : Decidable (StandsAt text lexeme pos) :=
  match h : (lines text)[pos.line - 1]? with
  | none => .isFalse (by rintro ⟨line, hline, -⟩; rw [h] at hline; cases hline)
  | some line => decidable_of_iff (lexeme <+: line.drop (pos.column - 1))
      ⟨fun hl => ⟨line, h, hl⟩, fun ⟨line', hline', hl⟩ => by rw [h] at hline'; cases hline'; exact hl⟩

/-- The tokens whose lexeme is their text: identifiers, keywords, operators and delimiters. -/
def Verbatim (type : TokenType) : Prop :=
  type ∉ [.intLiteral, .floatLiteral, .stringLiteral, .fstringLiteral, .error, .newline, .indent,
    .dedent, .endOfFile]

instance : DecidablePred Verbatim := fun _ => inferInstanceAs (Decidable (_ ∉ _))

/-! ## Normalization line by line -/

/-- Normalization rewrites the indentation of the lines: at a line start, `ws` is what was read of the
indentation before the pending spaces and `ws'` what was written for it. -/
theorem normalizeFrom_reindents (atLineStart : Bool) (spaces : ℕ) (text : List Char) :
    (atLineStart = true → ∀ ws ws', IsIndent ws → IsIndent ws' → ws'.length ≤ ws.length →
      List.Forall₂ Reindented (lines (ws ++ List.replicate spaces ' ' ++ text))
        (lines (ws' ++ normalizeFrom true spaces text))) ∧
    (atLineStart = false → ∃ l ls ls', lines text = l :: ls ∧
      lines (normalizeFrom false spaces text) = l :: ls' ∧ List.Forall₂ Reindented ls ls') := by
  induction text generalizing atLineStart spaces with
  | nil =>
      refine ⟨fun _ ws ws' hws hws' hle => ?_, fun _ => ⟨[], [], [], rfl, rfl, .nil⟩⟩
      have hspaces := hws.append (.spaces spaces)
      simp only [List.append_nil, normalizeFrom]
      rw [lines_of_notMem hspaces.newline_notMem, lines_of_notMem hws'.newline_notMem]
      refine .cons ⟨_, _, [], (List.append_nil _).symm, (List.append_nil _).symm, hspaces, hws', ?_, ?_⟩ .nil
      · simp only [List.length_append, List.length_replicate]
        omega
      · simp
  | cons c text ih =>
      constructor
      · intro _ ws ws' hws hws' hle
        -- the indentation goes on with `c`, having read `r` and written `w` for it
        have hmore : ∀ n r w, r ++ List.replicate n ' ' = ws ++ List.replicate spaces ' ' ++ [c] →
            IsIndent r → IsIndent w → (ws' ++ w).length ≤ r.length →
            List.Forall₂ Reindented (lines (ws ++ List.replicate spaces ' ' ++ c :: text))
              (lines (ws' ++ (w ++ normalizeFrom true n text))) := by
          intro n r w hr hir hiw hlen
          have := (ih true n).1 rfl r (ws' ++ w) hir (hws'.append hiw) hlen
          rw [hr] at this
          simpa only [List.append_assoc, List.singleton_append] using this
        -- the indentation ends before `c`, with `w` written for the pending spaces
        have hdone : ∀ w, IsIndent w → (ws' ++ w).length ≤ (ws ++ List.replicate spaces ' ').length →
            c ≠ ' ' → c ≠ '\t' →
            List.Forall₂ Reindented (lines (ws ++ List.replicate spaces ' ' ++ c :: text))
              (lines (ws' ++ (w ++ c :: normalizeFrom false 0 text))) := by
          intro w hiw hlen hs ht
          obtain ⟨l, ls, ls', hl, hl', hls⟩ := (ih false 0).2 rfl
          have hindent := hws.append (.spaces spaces)
          have hindent' := hws'.append hiw
          rw [← List.append_assoc]
          by_cases hn : c = '\n'
          · rw [hn, lines_append_of_notMem hindent.newline_notMem (lines_newline _),
              lines_append_of_notMem hindent'.newline_notMem (lines_newline _), hl, hl']
            exact .cons ⟨_, _, [], rfl, rfl, hindent, hindent', hlen, by simp⟩
              (.cons (.refl l) hls)
          · rw [lines_append_of_notMem hindent.newline_notMem (by rw [lines_cons hn, hl]; rfl),
              lines_append_of_notMem hindent'.newline_notMem (by rw [lines_cons hn, hl']; rfl)]
            exact .cons ⟨_, _, c :: l, rfl, rfl, hindent, hindent', hlen, by simp [hs, ht]⟩ hls
        simp only [normalizeFrom]
        split_ifs with hs h4 ht h2 h0
        · refine hmore 0 (ws ++ List.replicate spaces ' ' ++ [' ']) ['\t'] (by simp [hs]) ?_ .tab ?_
          · exact (hws.append (.spaces spaces)).append (.spaces 1)
          · simp only [List.length_append, List.length_replicate, List.length_singleton]
            omega
        · refine hmore (spaces + 1) ws [] ?_ hws .nil (by simpa using hle)
          rw [hs, List.replicate_succ', List.append_assoc]
        · have := hmore 0 (ws ++ List.replicate spaces ' ' ++ ['\t'])
            (List.replicate spaces ' ' ++ ['\t']) (by simp [ht])
            ((hws.append (.spaces spaces)).append .tab) ((IsIndent.spaces spaces).append .tab)
            (by
              simp only [List.length_append, List.length_replicate, List.length_singleton]
              omega)
          simpa only [List.append_assoc, List.singleton_append] using this
        · refine hmore 0 (ws ++ List.replicate spaces ' ' ++ ['\t']) ['\t', '\t'] (by simp [ht])
            ((hws.append (.spaces spaces)).append .tab) (IsIndent.tab.append .tab) ?_
          simp only [List.length_append, List.length_replicate, List.length_cons, List.length_nil]
          omega
        · refine hdone ['\t'] .tab ?_ hs ht
          simp only [List.length_append, List.length_replicate, List.length_singleton]
          omega
        · refine hdone [] .nil ?_ hs ht
          simp only [List.length_append, List.length_replicate, List.length_nil]
          omega
      · intro _
        simp only [normalizeFrom]
        split_ifs with hn
        · have := (ih true 0).1 rfl [] [] .nil .nil le_rfl
          rw [hn, lines_newline, lines_newline]
          exact ⟨[], _, _, rfl, rfl, by simpa using this⟩
        · obtain ⟨l, ls, ls', hl, hl', hls⟩ := (ih false spaces).2 rfl
          refine ⟨c :: l, ls, ls', ?_, ?_, hls⟩
          · rw [lines_cons hn, hl]
            rfl
          · rw [lines_cons hn, hl']
            rfl

/-- Every line of the normalized text is the line of the source behind another indentation. -/
theorem normalizeIndentation_reindents (source : List Char) :
    List.Forall₂ Reindented (lines source) (lines (normalizeIndentation source)) := by
  have := (normalizeFrom_reindents true 0 source).1 rfl [] [] .nil .nil le_rfl
  simpa [normalizeIndentation] using this

/-! ## Positions and lines -/

/-- The position after a text is behind its last line. -/
theorem afterText_start (text : List Char) :
    Position.afterText ⟨1, 1⟩ text = ⟨(lines text).length, ((lines text).getLastD []).length + 1⟩ := by
  induction text using List.reverseRecOn with
  | nil => rfl
  | append_singleton text c ih =>
      rw [Position.afterText_append, ih, lines_append]
      have hne := List.length_pos_iff.mpr (lines_ne_nil text)
      by_cases hc : c = '\n'
      · simp [hc, Position.afterText, Position.after]
        omega
      · rw [lines_of_notMem (a := [c]) (by simpa using Ne.symm hc)]
        simp [Position.afterText, Position.after, hc]
        omega

/-- A text contains what it has after a part of it, at the position after that part. -/
theorem standsAt_afterText {before lexeme after : List Char} (h : '\n' ∉ lexeme) :
    StandsAt (before ++ (lexeme ++ after)) lexeme (Position.afterText ⟨1, 1⟩ before) := by
  obtain ⟨l, ls, hl⟩ := lines_eq_cons after
  have hne := List.length_pos_iff.mpr (lines_ne_nil before)
  refine ⟨(lines before).getLastD [] ++ (lexeme ++ l), ?_, ?_⟩
  · rw [lines_append before, lines_append_of_notMem h hl, afterText_start]
    rw [List.getElem?_append_right (by simp)]
    simp
  · rw [afterText_start]
    simp

/-! ## Tokens that are their own text -/

theorem operators_no_space : ∀ op ∈ operators, ' ' ∉ op.1 ∧ '\t' ∉ op.1 ∧ '\n' ∉ op.1 := by decide

theorem not_wordChar_space : isWordChar ' ' = false ∧ isWordChar '\t' = false ∧
    isWordChar '\n' = false := by decide

theorem wordChar_of_first {c : Char} (h : isAlpha c = true ∨ c = '_') : isWordChar c = true := by
  rcases h with h | h <;> simp [isWordChar, h]

/-- A token that is its own text is the text at the cursor, and holds no white space. -/
theorem scanPiece_verbatim {text lexeme rest : List Char} {type : TokenType}
    (h : scanPiece text = .token type lexeme rest) (hv : Verbatim type) :
    text = lexeme ++ rest ∧ lexeme ≠ [] ∧ ' ' ∉ lexeme ∧ '\t' ∉ lexeme ∧ '\n' ∉ lexeme := by
  cases scanPiece_reads h with
  | fstring hread => exact absurd hv (by decide)
  | string hread => exact absurd hv (by decide)
  | number hread =>
      rcases lexNumber_type hread with rfl | rfl
      · exact absurd hv (by decide)
      · exact absurd hv (by decide)
  | @word c text hword =>
      have hall : ∀ x ∈ c :: text.takeWhile isWordChar, isWordChar x = true := by
        intro x hx
        rcases List.mem_cons.mp hx with rfl | hx
        · exact wordChar_of_first hword
        · exact List.mem_takeWhile_imp hx
      obtain ⟨hs, ht, hn⟩ := not_wordChar_space
      have hnot {s : Char} (hspace : isWordChar s = false) : s ∉ c :: text.takeWhile isWordChar := by
        intro hx
        rw [hall _ hx] at hspace
        cases hspace
      exact ⟨by simp, List.cons_ne_nil _ _, hnot hs, hnot ht, hnot hn⟩
  | operator hop => exact ⟨rfl, operators_ne_nil _ hop, operators_no_space _ hop⟩

/-! ## The invariant of the main loop -/

/-- The cursor counts in the text, and the tokens that are their own text stand at their positions. -/
structure Located (text : List Char) (L : LexState) : Prop where
  cursor : ∃ passed, text = passed ++ L.cursor.rest ∧ L.cursor.pos = Position.afterText ⟨1, 1⟩ passed
  tokens : ∀ t ∈ L.tokens, Verbatim t.type →
    StandsAt text t.lexeme t.pos ∧ t.lexeme ≠ [] ∧ ' ' ∉ t.lexeme ∧ '\t' ∉ t.lexeme

namespace LexState

variable {text : List Char} {L : LexState}

/-- Moving the cursor forward and adding tokens that are not their own text. -/
theorem located_of_ahead {M : LexState} (h : Located text L) (hcursor : L.cursor.Ahead M.cursor)
    (htokens : ∀ t ∈ M.tokens, t ∈ L.tokens ∨ ¬ Verbatim t.type) : Located text M where
  cursor := by
    obtain ⟨passed, htext, hpos⟩ := h.cursor
    obtain ⟨more, hmore, hpos'⟩ := hcursor
    refine ⟨passed ++ more, ?_, ?_⟩
    · rw [htext, hmore, List.append_assoc]
    · rw [hpos', hpos, Position.afterText_append]
  tokens := by
    intro t ht hv
    rcases htokens t ht with ht | ht
    · exact h.tokens t ht hv
    · exact absurd hv ht

/-- Popping levels adds `DEDENT`s only. -/
theorem popLevels_tokens (tabCount : ℕ) (pos : Position) (stack : List ℕ) (tokens : List Token) :
    ∀ t ∈ (popLevels tabCount pos stack tokens).2, t ∈ tokens ∨ t.type = .dedent := by
  induction stack, tokens using popLevels.induct tabCount pos with
  | case1 level stack tokens hlt ih =>
      rw [popLevels, if_pos hlt]
      intro t ht
      rcases ih t ht with ht | ht
      · rcases List.mem_cons.mp ht with rfl | ht
        · exact .inr rfl
        · exact .inl ht
      · exact .inr ht
  | case2 level stack tokens hle =>
      rw [popLevels, if_neg hle]
      exact fun t ht => .inl ht
  | case3 tokens => exact fun t ht => .inl ht

/-- Handling an indentation adds `INDENT`s and `DEDENT`s only. -/
theorem handleIndentation_tokens (L : LexState) :
    ∀ t ∈ L.handleIndentation.1.tokens, t ∈ L.tokens ∨ t.type = .indent ∨ t.type = .dedent := by
  unfold handleIndentation
  dsimp only
  split
  · exact fun t ht => .inl ht
  · split_ifs
    · exact fun t ht => .inl ht
    · exact fun t ht => .inl ht
    · exact fun t ht => .inl ht
    · unfold indentTo
      dsimp only
      split_ifs
      · intro t ht
        rcases List.mem_cons.mp ht with rfl | ht
        · exact .inr (.inl rfl)
        · exact .inl ht
      all_goals
        intro t ht
        rcases popLevels_tokens _ _ _ _ t ht with ht | ht
        · exact .inl ht
        · exact .inr (.inr ht)

theorem handleIndentation_located (h : Located text L) : Located text L.handleIndentation.1 := by
  refine located_of_ahead h L.handleIndentation_ahead ?_
  intro t ht
  rcases L.handleIndentation_tokens t ht with ht | ht | ht
  · exact .inl ht
  · exact .inr (by rw [ht]; decide)
  · exact .inr (by rw [ht]; decide)

theorem consume_located {c : Char} {rest : List Char} (hrest : L.cursor.rest = c :: rest)
    (h : Located text L) : Located text (L.consume (scanPiece (c :: rest))).1 := by
  have hahead := (consume_ahead hrest).1
  cases hp : scanPiece (c :: rest) with
  | newline rest' =>
      rw [hp] at hahead
      refine located_of_ahead h hahead ?_
      show ∀ t ∈ (L.newline rest').tokens, t ∈ L.tokens ∨ ¬ Verbatim t.type
      unfold newline
      dsimp only
      split_ifs
      · intro t ht
        rcases List.mem_cons.mp ht with rfl | ht
        · exact .inr (show ¬ Verbatim .newline by decide)
        · exact .inl ht
      · exact fun t ht => .inl ht
  | token type lexeme rest' =>
      rw [hp] at hahead
      obtain ⟨passed, htext, hpos⟩ := h.cursor
      refine ⟨(located_of_ahead (M := L.moveTo rest') h hahead fun t ht => .inl ht).cursor, ?_⟩
      intro t ht hv
      rcases List.mem_cons.mp ht with rfl | ht
      · obtain ⟨heq, hne, hs, ht, hn⟩ := scanPiece_verbatim hp hv
        refine ⟨?_, hne, hs, ht⟩
        show StandsAt text lexeme L.cursor.pos
        rw [htext, hrest, heq, hpos]
        exact standsAt_afterText hn
      · exact h.tokens t ht hv
  | unexpected x rest' =>
      rw [hp] at hahead
      refine located_of_ahead h hahead ?_
      intro t ht
      rcases List.mem_cons.mp ht with rfl | ht
      · exact .inr (show ¬ Verbatim .error by decide)
      · exact .inl ht
  | skip rest' =>
      rw [hp] at hahead
      exact located_of_ahead h hahead fun t ht => .inl ht
  | failure f =>
      rw [hp] at hahead
      exact located_of_ahead h hahead fun t ht => .inl ht

theorem round_located (h : Located text L) (hok : L.round.firstError = none) :
    Located text L.round :=
  round_preserves (I := Located text) (fun h => ⟨h.cursor, h.tokens⟩)
    (fun _ hM _ => handleIndentation_located hM) (fun _ _ _ _ hrest _ hM => consume_located hrest hM)
    h hok

theorem rounds_located (h : Located text L) (hok : ∀ n, (round^[n] L).firstError = none) (n : ℕ) :
    Located text (round^[n] L) := by
  induction n with
  | zero => exact h
  | succ n ih =>
      have hn := hok (n + 1)
      rw [Function.iterate_succ_apply'] at hn ⊢
      exact round_located ih hn

end LexState

/-- The tokens of a text that tokenizes stand at their positions in the normalized text. -/
theorem tokens_located {source : List Char} {filename : String} {tokens : List Token}
    (h : tokenize source filename = .ok tokens) :
    ∀ t ∈ tokens, Verbatim t.type → StandsAt (normalizeIndentation source) t.lexeme t.pos ∧
      t.lexeme ≠ [] ∧ ' ' ∉ t.lexeme ∧ '\t' ∉ t.lexeme := by
  obtain ⟨hok, htokens⟩ := mainLoop_firstError h
  have hlocated : Located (normalizeIndentation source) (initial source filename).mainLoop :=
    LexState.rounds_located (L := initial source filename)
      ⟨⟨[], rfl, rfl⟩, by simp [initial]⟩ (LexState.firstError_rounds hok) _
  intro t ht hv
  rw [htokens, List.mem_reverse] at ht
  rcases List.mem_cons.mp ht with rfl | ht
  · exact absurd hv (show ¬ Verbatim .endOfFile by decide)
  · rcases LexState.popLevels_tokens _ _ _ _ t ht with ht | ht
    · exact hlocated.tokens t ht hv
    · rw [ht] at hv
      exact absurd hv (by decide)

/-! ## Positions in the source -/

/-- Normalization keeps the length of a line (counted from 1). -/
def Kept (source : List Char) (line : ℕ) : Prop :=
  ((lines source)[line - 1]?).map List.length =
    ((lines (normalizeIndentation source))[line - 1]?).map List.length

instance (source : List Char) (line : ℕ) : Decidable (Kept source line) :=
  inferInstanceAs (Decidable (_ = _))

/-- Only an indentation is in front of a position. -/
def FirstOnLine (text : List Char) (pos : Position) : Prop :=
  ∀ line ∈ (lines text)[pos.line - 1]?, IsIndent (line.take (pos.column - 1))

section Reindented

variable {l l' lexeme ws text : List Char} {k : ℕ}

theorem head_of_front {c : Char} (hne : lexeme ≠ []) (h : lexeme <+: c :: text) : c ∈ lexeme := by
  obtain ⟨d, lexeme, rfl⟩ := List.exists_cons_of_ne_nil hne
  rw [(List.cons_prefix_cons.mp h).1]
  exact List.mem_cons_self

/-- A lexeme without white space does not begin inside an indentation. -/
theorem indent_le_of_front (hws : IsIndent ws) (hne : lexeme ≠ []) (hs : ' ' ∉ lexeme)
    (ht : '\t' ∉ lexeme) (h : lexeme <+: (ws ++ text).drop k) : ws.length ≤ k := by
  by_contra hk
  have hlt : k < ws.length := by omega
  rw [List.drop_append_of_le_length hlt.le, List.drop_eq_getElem_cons hlt] at h
  have hmem := head_of_front hne h
  rcases hws _ (List.getElem_mem hlt) with hc | hc
  · exact hs (hc ▸ hmem)
  · exact ht (hc ▸ hmem)

/-- In a line that keeps its length, a lexeme stands where it stands in the normalized line. -/
theorem front_of_reindented (h : Reindented l l') (hlen : l.length = l'.length) (hne : lexeme ≠ [])
    (hs : ' ' ∉ lexeme) (ht : '\t' ∉ lexeme) (hfront : lexeme <+: l'.drop k) : lexeme <+: l.drop k := by
  obtain ⟨ws, ws', content, rfl, rfl, _, hws', _, _⟩ := h
  have hk := indent_le_of_front hws' hne hs ht hfront
  have hsame : ws.length = ws'.length := by simpa using hlen
  rw [List.drop_append, List.drop_eq_nil_of_le hk, List.nil_append] at hfront
  rwa [List.drop_append, List.drop_eq_nil_of_le (by omega), List.nil_append, hsame]

/-- The first lexeme of a line that loses length stands elsewhere in the source. -/
theorem not_front_of_reindented (h : Reindented l l') (hlen : l.length ≠ l'.length) (hne : lexeme ≠ [])
    (hs : ' ' ∉ lexeme) (ht : '\t' ∉ lexeme) (hfront : lexeme <+: l'.drop k)
    (hfirst : IsIndent (l'.take k)) : ¬ lexeme <+: l.drop k := by
  obtain ⟨ws, ws', content, rfl, rfl, hws, hws', hle, hcontent⟩ := h
  have hk := indent_le_of_front hws' hne hs ht hfront
  have hlt : ws'.length < ws.length := by
    simp only [List.length_append] at hlen
    omega
  -- the lexeme begins right behind the new indentation
  have hkeq : k = ws'.length := by
    by_contra hkne
    obtain ⟨c, rest, rfl⟩ : ∃ c rest, content = c :: rest := by
      refine List.exists_cons_of_ne_nil ?_
      intro hnil
      rw [hnil, List.append_nil, List.drop_eq_nil_of_le hk] at hfront
      exact hne (List.prefix_nil.mp hfront)
    have hblank := hcontent (fun heq => by rw [heq] at hlt; omega) c rfl
    have hmem : c ∈ (ws' ++ c :: rest).take k := by
      rw [List.take_append, List.take_of_length_le hk]
      obtain ⟨m, hm⟩ : ∃ m, k - ws'.length = m + 1 := ⟨k - ws'.length - 1, by omega⟩
      rw [hm, List.take_succ_cons]
      simp
    rcases hfirst c hmem with hc | hc
    · exact hblank.1 hc
    · exact hblank.2 hc
  intro hfront'
  have := indent_le_of_front hws hne hs ht hfront'
  omega

end Reindented

/-- **Where the tokens stand in the source.**  For every source text that tokenizes and every token that
is its own text: on a line that keeps its length under normalization the token stands at its position in
the source, and the first token of a line stands there only if the line keeps its length. -/
theorem token_positions (source : List Char) (filename : String) (tokens : List Token)
    (h : tokenize source filename = .ok tokens) :
    ∀ t ∈ tokens, Verbatim t.type →
      (Kept source t.pos.line → StandsAt source t.lexeme t.pos) ∧
      (FirstOnLine (normalizeIndentation source) t.pos →
        (StandsAt source t.lexeme t.pos ↔ Kept source t.pos.line)) := by
  intro t ht hv
  obtain ⟨⟨l', hl', hfront⟩, hne, hs, htab⟩ := tokens_located h t ht hv
  have hlines := normalizeIndentation_reindents source
  have hlt := (List.getElem?_eq_some_iff.mp hl').1
  have hlt' : t.pos.line - 1 < (lines source).length := by rwa [hlines.length_eq]
  obtain ⟨l, hl⟩ : ∃ l, (lines source)[t.pos.line - 1]? = some l :=
    ⟨_, List.getElem?_eq_getElem hlt'⟩
  have hreindented : Reindented l l' := by
    have := hlines.get hlt' hlt
    rw [List.get_eq_getElem, List.get_eq_getElem] at this
    obtain ⟨_, heq⟩ := List.getElem?_eq_some_iff.mp hl
    obtain ⟨_, heq'⟩ := List.getElem?_eq_some_iff.mp hl'
    rwa [heq, heq'] at this
  have hkept : Kept source t.pos.line ↔ l.length = l'.length := by
    simp [Kept, hl, hl']
  have hstands : StandsAt source t.lexeme t.pos ↔ t.lexeme <+: l.drop (t.pos.column - 1) := by
    simp [StandsAt, hl]
  rw [hkept, hstands]
  refine ⟨fun hlen => front_of_reindented hreindented hlen hne hs htab hfront, fun hfirst => ⟨?_, ?_⟩⟩
  · intro hstands
    by_contra hlen
    exact not_front_of_reindented hreindented hlen hne hs htab hfront (hfirst l' hl') hstands
  · intro hlen
    exact front_of_reindented hreindented hlen hne hs htab hfront

/-- A text indented with tabs. -/
theorem token_positions_tabs :
    (tokenize "if a:\n\tb = 1\n".toList "f").isOk = true ∧
      ∀ t ∈ (tokenize "if a:\n\tb = 1\n".toList "f").toOption.getD [], Verbatim t.type →
        (Kept "if a:\n\tb = 1\n".toList t.pos.line →
          StandsAt "if a:\n\tb = 1\n".toList t.lexeme t.pos) ∧
        (FirstOnLine (normalizeIndentation "if a:\n\tb = 1\n".toList) t.pos →
          (StandsAt "if a:\n\tb = 1\n".toList t.lexeme t.pos ↔
            Kept "if a:\n\tb = 1\n".toList t.pos.line)) :=
  ⟨by decide +kernel, token_positions _ "f" _ (by decide +kernel)⟩

/-- A line indented with four spaces: its token is reported at column 2 and is at column 5. -/
theorem spaces_shift_positions :
    ¬ ∀ t ∈ (tokenize "if a:\n    b\n".toList "f").toOption.getD [],
      Verbatim t.type → StandsAt "if a:\n    b\n".toList t.lexeme t.pos := by
  decide +kernel

end Visuall.Lexer
