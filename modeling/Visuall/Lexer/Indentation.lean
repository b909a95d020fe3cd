import Visuall.Lexer.Rounds
import Visuall.Lib.Run

/-!
# Indentation

The brackets of the token stream and the stack of levels behind them.

* `Bracketed` — the invariant of the main loop: each open level has an `INDENT` that no `DEDENT`
  closed yet;
* `Watched` — a run together with the depth of the last line that holds code;
* `tokenize_bracketed_iff` — a stream is well bracketed, and the top of the stack is that depth after
  every round exactly when no round begins a `Misjudged` line.
-/

namespace Visuall.Lexer

/-! ## Brackets -/

/-- The `INDENT`s among some tokens. -/
def indents (tokens : List Token) : ℕ := tokens.countP (·.type == .indent)

/-- The `DEDENT`s among some tokens. -/
def dedents (tokens : List Token) : ℕ := tokens.countP (·.type == .dedent)

/-- A stream whose `INDENT`s and `DEDENT`s are brackets, with one `END_OF_FILE`, at its end. -/
structure WellBracketed (tokens : List Token) : Prop where
  nested : ∀ p, p <+: tokens → dedents p ≤ indents p
  closed : dedents tokens = indents tokens
  ended : ∃ body eof, tokens = body ++ [eof] ∧ eof.type = .endOfFile ∧ ∀ t ∈ body, t.type ≠ .endOfFile

/-- A stack of levels, top first: strictly increasing from its bottom, which is 0. -/
structure Layered (stack : List ℕ) : Prop where
  increasing : stack.Pairwise (· > ·)
  bottom : stack.getLast? = some 0

/-- The stacks passed through while levels are popped are layered too. -/
theorem Layered.suffix {stack s : List ℕ} (h : Layered stack) (hs : s <:+ stack) (hne : s ≠ []) :
    Layered s where
  increasing := h.increasing.sublist hs.sublist
  bottom := by
    obtain ⟨p, rfl⟩ := hs
    rw [← h.bottom, List.getLast?_append_of_ne_nil p hne]

theorem Layered.singleton : Layered [0] := ⟨List.pairwise_singleton _ _, rfl⟩

/-- A level over the top makes a layered stack. -/
theorem Layered.cons {stack : List ℕ} {level : ℕ} (h : Layered stack) (hlevel : stack.headD 0 < level) :
    Layered (level :: stack) := by
  cases stack with
  | nil => cases h.bottom
  | cons top stack =>
      refine ⟨List.pairwise_cons.mpr ⟨?_, h.increasing⟩, h.bottom⟩
      intro x hx
      rcases List.mem_cons.mp hx with rfl | hx
      · exact hlevel
      · exact (List.rel_of_pairwise_cons h.increasing hx).trans hlevel

/-- Levels and tokens (both latest first) in the main loop: every level over the bottom is an `INDENT`
that no `DEDENT` has closed. -/
structure Bracketed (stack : List ℕ) (tokens : List Token) : Prop where
  layered : Layered stack
  balance : indents tokens + 1 = dedents tokens + stack.length
  nested : ∀ p, p <:+ tokens → dedents p ≤ indents p
  unended : ∀ t ∈ tokens, t.type ≠ .endOfFile

/-- The types that only the main loop and the indentation give. -/
def Structural (type : TokenType) : Prop :=
  type = .newline ∨ type = .indent ∨ type = .dedent ∨ type = .endOfFile

namespace Bracketed

variable {stack : List ℕ} {tokens : List Token} {level : ℕ} {lexeme : List Char} {pos : Position}

theorem start : Bracketed [0] [] where
  layered := Layered.singleton
  balance := rfl
  nested := by
    intro p hp
    rw [List.suffix_nil.mp hp]
    exact le_rfl
  unended := by simp

/-- A token that is no bracket and no end. -/
theorem push (h : Bracketed stack tokens) {t : Token} (hi : t.type ≠ .indent) (hd : t.type ≠ .dedent)
    (he : t.type ≠ .endOfFile) : Bracketed stack (t :: tokens) where
  layered := h.layered
  balance := by
    have := h.balance
    simpa [indents, dedents, hi, hd] using this
  nested := by
    intro p hp
    rcases List.suffix_cons_iff.mp hp with rfl | hp
    · simpa [indents, dedents, hi, hd] using h.nested tokens List.suffix_rfl
    · exact h.nested p hp
  unended := by
    intro u hu
    rcases List.mem_cons.mp hu with rfl | hu
    · exact he
    · exact h.unended u hu

theorem indent (h : Bracketed stack tokens) (hlevel : stack.headD 0 < level) :
    Bracketed (level :: stack) (⟨.indent, lexeme, pos⟩ :: tokens) where
  layered := h.layered.cons hlevel
  balance := by
    have := h.balance
    simp [indents, dedents] at this ⊢
    omega
  nested := by
    intro p hp
    rcases List.suffix_cons_iff.mp hp with rfl | hp
    · have := h.nested tokens List.suffix_rfl
      simp [indents, dedents] at this ⊢
      omega
    · exact h.nested p hp
  unended := by
    intro u hu
    rcases List.mem_cons.mp hu with rfl | hu
    · exact TokenType.noConfusion
    · exact h.unended u hu

theorem pop (h : Bracketed (level :: stack) tokens) (hlevel : 0 < level) :
    Bracketed stack (⟨.dedent, lexeme, pos⟩ :: tokens) := by
  have hne : stack ≠ [] := by
    intro hnil
    have := h.layered.bottom
    rw [hnil, List.getLast?_singleton, Option.some.injEq] at this
    omega
  have hlen : 0 < stack.length := List.length_pos_iff.mpr hne
  have hbalance := h.balance
  refine ⟨h.layered.suffix (List.suffix_cons level stack) hne, ?_, ?_, ?_⟩
  · simp [indents, dedents] at hbalance ⊢
    omega
  · intro p hp
    rcases List.suffix_cons_iff.mp hp with rfl | hp
    · simp [indents, dedents] at hbalance ⊢
      omega
    · exact h.nested p hp
  · intro u hu
    rcases List.mem_cons.mp hu with rfl | hu
    · exact TokenType.noConfusion
    · exact h.unended u hu

theorem popLevels (tabCount : ℕ) (pos : Position) (h : Bracketed stack tokens) :
    Bracketed (LexState.popLevels tabCount pos stack tokens).1
      (LexState.popLevels tabCount pos stack tokens).2 := by
  induction stack, tokens using LexState.popLevels.induct tabCount pos with
  | case1 level stack tokens hlt ih =>
      rw [LexState.popLevels, if_pos hlt]
      exact ih (h.pop (by omega))
  | case2 level stack tokens hle =>
      rw [LexState.popLevels, if_neg hle]
      exact h
  | case3 tokens => exact h

end Bracketed

/-- Popping ends at a level that is not deeper. -/
theorem LexState.popLevels_top (tabCount : ℕ) (pos : Position) (stack : List ℕ) (tokens : List Token) :
    (LexState.popLevels tabCount pos stack tokens).1.headD 0 ≤ tabCount := by
  induction stack, tokens using LexState.popLevels.induct tabCount pos with
  | case1 level stack tokens hlt ih =>
      rw [LexState.popLevels, if_pos hlt]
      exact ih
  | case2 level stack tokens hle =>
      rw [LexState.popLevels, if_neg hle]
      exact Nat.le_of_not_lt hle
  | case3 tokens => exact Nat.zero_le _

/-! ## The types of pieces -/

theorem keywords_not_structural : ∀ kw ∈ keywords, ¬ Structural kw.2 := by
  unfold Structural
  decide

theorem operators_not_structural : ∀ op ∈ operators, ¬ Structural op.2 := by
  unfold Structural
  decide

theorem wordType_not_structural (word : List Char) : ¬ Structural (wordType word) := by
  rcases wordType_cases word with h | h | h | ⟨kw, hkw, h⟩
  · simp [h, Structural]
  · simp [h, Structural]
  · simp [h, Structural]
  · rw [h]
    exact keywords_not_structural kw hkw

/-- No piece of text is a newline token, a bracket or the end. -/
theorem scanPiece_not_structural {text lexeme rest : List Char} {type : TokenType}
    (h : scanPiece text = .token type lexeme rest) : ¬ Structural type := by
  cases scanPiece_reads h with
  | fstring hread => simp [Structural]
  | string hread => simp [Structural]
  | number hread => rcases lexNumber_type hread with rfl | rfl <;> simp [Structural]
  | word hword => exact wordType_not_structural _
  | operator hop => exact operators_not_structural _ hop

/-! ## The invariant of the main loop -/

namespace LexState

/-- Indenting to a level keeps the brackets. -/
theorem indentTo_bracketed {L : LexState} {tabCount : ℕ} {pos : Position}
    (h : Bracketed L.indentStack L.tokens) :
    Bracketed (L.indentTo tabCount pos).1.indentStack (L.indentTo tabCount pos).1.tokens := by
  unfold indentTo
  dsimp only
  split_ifs with hlt
  · exact h.indent hlt
  · exact h.popLevels tabCount pos
  · exact h.popLevels tabCount pos

theorem handleIndentation_bracketed {L : LexState} (h : Bracketed L.indentStack L.tokens) :
    Bracketed L.handleIndentation.1.indentStack L.handleIndentation.1.tokens := by
  unfold handleIndentation
  dsimp only
  split
  · exact h
  · split_ifs
    · exact h
    · exact h
    · exact h
    · exact indentTo_bracketed h

theorem consume_bracketed {L : LexState} {text : List Char} (h : Bracketed L.indentStack L.tokens) :
    Bracketed (L.consume (scanPiece text)).1.indentStack (L.consume (scanPiece text)).1.tokens := by
  cases hp : scanPiece text with
  | newline rest =>
      show Bracketed (L.newline rest).indentStack (L.newline rest).tokens
      unfold newline
      dsimp only
      split_ifs
      · exact h.push TokenType.noConfusion TokenType.noConfusion TokenType.noConfusion
      · exact h
  | token type lexeme rest =>
      have htype := scanPiece_not_structural hp
      exact h.push (fun h => htype (.inr (.inl h))) (fun h => htype (.inr (.inr (.inl h))))
        (fun h => htype (.inr (.inr (.inr h))))
  | unexpected c rest => exact h.push TokenType.noConfusion TokenType.noConfusion TokenType.noConfusion
  | skip rest => exact h
  | failure f => exact h

theorem round_bracketed {L : LexState} (h : Bracketed L.indentStack L.tokens)
    (hok : L.round.firstError = none) : Bracketed L.round.indentStack L.round.tokens :=
  round_preserves (I := fun L => Bracketed L.indentStack L.tokens) id
    (fun _ hM _ => handleIndentation_bracketed hM) (fun _ _ _ _ _ _ hM => consume_bracketed hM) h hok

theorem rounds_bracketed {L : LexState} (h : Bracketed L.indentStack L.tokens)
    (hok : ∀ n, (round^[n] L).firstError = none) (n : ℕ) :
    Bracketed (round^[n] L).indentStack (round^[n] L).tokens := by
  induction n with
  | zero => exact h
  | succ n ih =>
      have hn := hok (n + 1)
      rw [Function.iterate_succ_apply'] at hn ⊢
      exact round_bracketed ih hn

/-- Flushing closes the brackets. -/
theorem flush_wellBracketed {L : LexState} (h : Bracketed L.indentStack L.tokens) :
    WellBracketed L.flush.tokens.reverse := by
  have hpop := h.popLevels 0 L.cursor.pos
  have htop := popLevels_top 0 L.cursor.pos L.indentStack L.tokens
  show WellBracketed (List.reverse (_ :: (popLevels 0 L.cursor.pos L.indentStack L.tokens).2))
  revert hpop htop
  rcases popLevels 0 L.cursor.pos L.indentStack L.tokens with ⟨stack, tokens⟩
  dsimp only
  intro hpop htop
  -- only the bottom level is left
  have hlen : stack.length = 1 := by
    cases stack with
    | nil => cases hpop.layered.bottom
    | cons top stack =>
        cases stack with
        | nil => rfl
        | cons level stack =>
            have := List.rel_of_pairwise_cons hpop.layered.increasing List.mem_cons_self
            simp at htop
            omega
  have hbalance := hpop.balance
  have hcounts : dedents tokens = indents tokens := by omega
  rw [List.reverse_cons]
  refine ⟨?_, ?_, tokens.reverse, _, rfl, rfl, ?_⟩
  · intro p hp
    rcases List.prefix_concat_iff.mp hp with rfl | hp
    · simp [indents, dedents] at hcounts ⊢
      omega
    · have := hpop.nested p.reverse (by
        rw [← List.reverse_prefix, List.reverse_reverse]
        exact hp)
      simpa [indents, dedents] using this
  · simpa [indents, dedents] using hcounts
  · intro t ht
    exact hpop.unended t (List.mem_reverse.mp ht)

end LexState

/-! ## The lines -/

/-- The tab depth of a line. -/
def tabDepth (line : List Char) : ℕ := (line.takeWhile (· == '\t')).length

/-- What follows the tabs of a line. -/
def afterTabs (line : List Char) : List Char := line.dropWhile (· == '\t')

/-- Whether a text holds, before the newline that ends its first line, anything but white space and
comments. -/
def hasCodeWithin : ℕ → List Char → Bool
  | 0, _ => false
  | fuel + 1, text =>
    match scanPiece text with
    | .skip rest => hasCodeWithin fuel rest
    | .newline _ => false
    | _ => true

/-- Whether the line at the front of a text is neither blank nor comment-only. -/
def hasCode (text : List Char) : Bool := hasCodeWithin text.length text

theorem hasCodeWithin_eq {fuel : ℕ} {text : List Char} (h : text.length ≤ fuel) :
    hasCodeWithin fuel text = hasCode text := by
  induction fuel using Nat.strong_induction_on generalizing text with
  | _ fuel ih =>
    cases text with
    | nil =>
        -- nothing is left to find, whatever the fuel
        have hnil : ∀ n, hasCodeWithin n [] = false := by
          intro n
          induction n with
          | zero => rfl
          | succ n ihn => exact ihn
        rw [hnil fuel]
        rfl
    | cons c text =>
        obtain ⟨fuel, rfl⟩ : ∃ n, fuel = n + 1 := ⟨fuel - 1, by simp at h; omega⟩
        have hlen := (scanPiece_suffix c text).length_le
        simp only [List.length_cons] at h
        unfold hasCode
        simp only [List.length_cons, hasCodeWithin]
        cases hp : scanPiece (c :: text) with
        | skip rest =>
            rw [hp] at hlen
            have hrest : rest.length ≤ text.length := hlen
            dsimp only
            rw [ih fuel (Nat.lt_succ_self fuel) (by omega)]
            by_cases heq : text.length < fuel + 1
            · exact (ih text.length heq hrest).symm
            · omega
        | _ => rfl

theorem hasCode_of_ne_nil {text : List Char} (h : text ≠ []) :
    hasCode text = match scanPiece text with
      | .skip rest => hasCode rest
      | .newline _ => false
      | _ => true := by
  obtain ⟨c, text, rfl⟩ := List.exists_cons_of_ne_nil h
  have hlen := (scanPiece_suffix c text).length_le
  rw [hasCode, List.length_cons, hasCodeWithin]
  cases hp : scanPiece (c :: text) with
  | skip rest =>
      rw [hp] at hlen
      exact hasCodeWithin_eq hlen
  | _ => rfl

/-- Blanks in front of a line hold no code. -/
theorem hasCode_dropWhile_isBlank (text : List Char) :
    hasCode (text.dropWhile isBlank) = hasCode text := by
  cases text with
  | nil => rfl
  | cons c text =>
      by_cases hc : isBlank c = true
      · rw [List.dropWhile_cons_of_pos hc, hasCode_of_ne_nil (List.cons_ne_nil c text)]
        simp [scanPiece, hc]
      · rw [List.dropWhile_cons_of_neg hc]

/-- A character that is no white space and begins no comment is code. -/
theorem hasCode_cons {c : Char} {text : List Char} (hblank : isBlank c = false) (hn : c ≠ '\n')
    (hh : c ≠ '#') : hasCode (c :: text) = true := by
  rw [hasCode_of_ne_nil (List.cons_ne_nil c text)]
  unfold scanPiece
  simp only [hblank, hn, hh, if_false, Bool.false_eq_true]
  split_ifs
  · cases lexFString (text.headD '"') text.tail <;> rfl
  · cases lexString c text <;> rfl
  · cases lexNumber c text <;> rfl
  · rfl
  · cases lexOperator (c :: text) <;> rfl

/-- The tabs in front of a line hold no code. -/
theorem hasCode_afterTabs (line : List Char) : hasCode (afterTabs line) = hasCode line := by
  -- both lines begin with the same text once all white space is dropped
  rw [← hasCode_dropWhile_isBlank line, ← hasCode_dropWhile_isBlank (afterTabs line)]
  congr 1
  unfold afterTabs
  induction line with
  | nil => rfl
  | cons c line ih =>
      by_cases hc : c = '\t'
      · subst hc
        rw [List.dropWhile_cons_of_pos (by decide), ih, List.dropWhile_cons_of_pos (by decide)]
      · rw [List.dropWhile_cons_of_neg (by simpa using hc)]

/-! ## Lines and levels -/

/-- A state of the main loop, with the tab depth of the last line begun that is neither blank nor
comment-only. -/
structure Watched where
  lexer : LexState
  lastDepth : ℕ

namespace Watched

/-- The state in which `tokenize` starts. -/
def start (source : List Char) (filename : String) : Watched := ⟨initial source filename, 0⟩

/-- A round; at a line start it begins a line. -/
def round (w : Watched) : Watched where
  lexer := w.lexer.round
  lastDepth :=
    if w.lexer.atLineStart && hasCode w.lexer.cursor.rest then tabDepth w.lexer.cursor.rest
    else w.lastDepth

/-- A line start that the round misjudges: the line is not at the current level, and after its tabs it
begins with a block comment that code follows, or with a carriage return that no code follows. -/
def Misjudged (w : Watched) : Prop :=
  w.lexer.atLineStart = true ∧ tabDepth w.lexer.cursor.rest ≠ w.lexer.top ∧
    (((afterTabs w.lexer.cursor.rest).head? = some '#' ∧ hasCode w.lexer.cursor.rest = true) ∨
     ((afterTabs w.lexer.cursor.rest).head? = some '\r' ∧ hasCode w.lexer.cursor.rest = false))

end Watched

namespace LexState

/-- Whether the indentation of a line is compared with the levels. -/
def Compared (line : List Char) : Prop :=
  ∃ c text, afterTabs line = c :: text ∧ c ≠ '\n' ∧ c ≠ '#'

theorem indentTo_top {L : LexState} {tabCount : ℕ} {pos : Position}
    (h : (L.indentTo tabCount pos).2 = none) : (L.indentTo tabCount pos).1.top = tabCount := by
  unfold indentTo at h ⊢
  dsimp only at h ⊢
  split_ifs at h ⊢ with hlt heq
  · rfl
  · exact heq.symm

/-- A line that is compared begins, after its tabs, with no space. -/
theorem not_space_of_compared {L : LexState} {c : Char} {text : List Char}
    (h : L.handleIndentation.2 = none) (hline : afterTabs L.cursor.rest = c :: text) : c ≠ ' ' := by
  unfold handleIndentation at h
  dsimp only [moveTo_cursor, Cursor.moveTo_rest] at h
  rw [show L.cursor.rest.dropWhile (· == '\t') = c :: text from hline] at h
  intro hc
  simp [hc] at h

theorem handleIndentation_top_of_compared {L : LexState} (h : L.handleIndentation.2 = none)
    (hline : Compared L.cursor.rest) : L.handleIndentation.1.top = tabDepth L.cursor.rest := by
  obtain ⟨c, text, hct, hn, hh⟩ := hline
  have hspace := not_space_of_compared h hct
  unfold handleIndentation at h ⊢
  dsimp only [moveTo_cursor, Cursor.moveTo_rest] at h ⊢
  rw [show L.cursor.rest.dropWhile (· == '\t') = c :: text from hct] at h ⊢
  simp only [hspace, hn, hh, if_false] at h ⊢
  exact indentTo_top h

theorem handleIndentation_top_of_not_compared {L : LexState} (h : L.handleIndentation.2 = none)
    (hline : ¬ Compared L.cursor.rest) : L.handleIndentation.1.top = L.top := by
  unfold handleIndentation at h ⊢
  dsimp only [moveTo_cursor, Cursor.moveTo_rest] at h ⊢
  split at h
  · rfl
  · rename_i c text hct
    split_ifs at h with hspace hn hh
    · simp [hn, top, moveTo]
    · simp [hh, top, moveTo]
    · exact absurd ⟨c, text, hct, hn, hh⟩ hline

theorem consume_indentStack (L : LexState) (p : Piece) :
    (L.consume p).1.indentStack = L.indentStack := by
  cases p with
  | newline rest =>
      show (L.newline rest).indentStack = L.indentStack
      unfold newline
      dsimp only
      split_ifs <;> rfl
  | _ => rfl

/-- The top of the stack after a round is the top once the indentation is handled. -/
theorem round_top {L : LexState} (hrest : L.cursor.rest ≠ []) (hok : L.round.firstError = none) :
    L.settle.2 = none ∧ L.round.top = L.settle.1.top := by
  obtain ⟨_, hnone, hround⟩ := round_ok hrest hok
  rw [hround]
  rcases L.attempt_cases hrest with ⟨e, he, h⟩ | ⟨hs, _, _, h⟩ | ⟨hs, c, text, _, _, h⟩
  · rw [h, he] at hnone
    cases hnone
  · rw [h]
    exact ⟨hs, rfl⟩
  · rw [h]
    exact ⟨hs, by rw [top, top, consume_indentStack]⟩

end LexState

namespace Watched

@[simp] theorem rounds_lexer (w : Watched) (n : ℕ) :
    (round^[n] w).lexer = LexState.round^[n] w.lexer := by
  induction n generalizing w with
  | zero => rfl
  | succ n ih =>
      rw [Function.iterate_succ_apply, Function.iterate_succ_apply, ih]
      rfl

/-- A line whose indentation is compared and that holds no code begins with a carriage return. -/
theorem carriageReturn_of_compared {line : List Char} {c : Char} {text : List Char}
    (hline : afterTabs line = c :: text) (hspace : c ≠ ' ') (hn : c ≠ '\n') (hh : c ≠ '#')
    (hcode : hasCode line = false) : c = '\r' := by
  have htab : c ≠ '\t' := by
    have := List.head?_dropWhile_not (· == '\t') line
    intro hc
    rw [show line.dropWhile (· == '\t') = c :: text from hline, hc] at this
    simp at this
  by_contra hr
  have hblank : isBlank c = false := by simp [isBlank, hspace, htab, hr]
  rw [← hasCode_afterTabs, hline, hasCode_cons hblank hn hh] at hcode
  cases hcode

/-- A line that holds code and whose indentation is not compared begins with a comment. -/
theorem hash_of_not_compared {line : List Char} (hline : ¬ LexState.Compared line)
    (hcode : hasCode line = true) : (afterTabs line).head? = some '#' := by
  rw [← hasCode_afterTabs] at hcode
  cases hct : afterTabs line with
  | nil =>
      rw [hct] at hcode
      cases hcode
  | cons c text =>
      have hn : c ≠ '\n' := by
        intro hc
        rw [hct, hc, hasCode_of_ne_nil (List.cons_ne_nil _ _)] at hcode
        simp [scanPiece, isBlank] at hcode
      have hh : c = '#' := by
        by_contra hh
        exact hline ⟨c, text, hct, hn, hh⟩
      rw [hh]
      rfl

/-- A round from a state whose top is the last depth keeps that exactly when it misjudges no line. -/
theorem round_top_iff {w : Watched} (hok : w.round.lexer.firstError = none)
    (h : w.lexer.top = w.lastDepth) : w.round.lexer.top = w.round.lastDepth ↔ ¬ w.Misjudged := by
  by_cases hrest : w.lexer.cursor.rest = []
  · have hround : w.lexer.round = w.lexer := LexState.round_of_end hrest
    simp [round, hround, Misjudged, hrest, h, hasCode, hasCodeWithin, afterTabs]
  · obtain ⟨hs, htop⟩ := LexState.round_top hrest hok
    rw [show w.round.lexer = w.lexer.round from rfl, htop]
    by_cases hstart : w.lexer.atLineStart = true
    · -- the indentation of the line is handled
      rw [LexState.settle, if_pos hstart] at hs ⊢
      set line := w.lexer.cursor.rest with hline
      have hlast : w.round.lastDepth = if hasCode line then tabDepth line else w.lastDepth := by
        simp [round, hstart, hline]
      by_cases hcompared : LexState.Compared line
      · rw [LexState.handleIndentation_top_of_compared hs hcompared, hlast]
        obtain ⟨c, text, hct, hn, hh⟩ := hcompared
        have hspace : c ≠ ' ' := LexState.not_space_of_compared hs hct
        cases hcode : hasCode line with
        | true => simp [Misjudged, hstart, ← hline, hcode, hct, hh]
        | false =>
            have hr := carriageReturn_of_compared hct hspace hn hh hcode
            simp [Misjudged, hstart, ← hline, hcode, hct, hr, h]
      · rw [LexState.handleIndentation_top_of_not_compared hs hcompared, hlast]
        cases hcode : hasCode line with
        | true =>
            have hh := hash_of_not_compared hcompared hcode
            have htop' : LexState.top { w.lexer with atLineStart := false } = w.lexer.top := rfl
            simp [Misjudged, hstart, ← hline, hcode, hh, htop', eq_comm]
        | false =>
            have hr : (afterTabs line).head? ≠ some '\r' := by
              intro hr
              cases hct : afterTabs line with
              | nil => simp [hct] at hr
              | cons c text =>
                  rw [hct, List.head?_cons, Option.some.injEq] at hr
                  exact hcompared ⟨c, text, hct, by rw [hr]; decide, by rw [hr]; decide⟩
            have htop' : LexState.top { w.lexer with atLineStart := false } = w.lexer.top := rfl
            simp [Misjudged, ← hline, hcode, hr, htop', h]
    · have hlast : w.round.lastDepth = w.lastDepth := by simp [round, hstart]
      rw [LexState.settle, if_neg hstart, hlast]
      simp [Misjudged, hstart, h]

end Watched

/-! ## The stream of a text that tokenizes -/

theorem mainLoop_firstError {source : List Char} {filename : String} {tokens : List Token}
    (h : tokenize source filename = .ok tokens) :
    (initial source filename).mainLoop.firstError = none ∧
      tokens = (initial source filename).mainLoop.flush.tokens.reverse := by
  unfold tokenize at h
  split at h
  · cases h
  · rename_i hnone
    exact ⟨hnone, (Except.ok.inj h).symm⟩

/-- **Exactly when the stream and the stack are as they should be.**  For every source text that
tokenizes: the stream is well bracketed and, after every round of the main loop, the stack is layered
and its top is the depth of the last line that is neither blank nor comment-only, exactly when no round
begins a misjudged line. -/
theorem tokenize_bracketed_iff (source : List Char) (filename : String) (tokens : List Token)
    (h : tokenize source filename = .ok tokens) :
    (WellBracketed tokens ∧ ∀ n, Layered (Watched.round^[n] (.start source filename)).lexer.indentStack ∧
      (Watched.round^[n] (.start source filename)).lexer.top =
        (Watched.round^[n] (.start source filename)).lastDepth) ↔
    ∀ n, ¬ (Watched.round^[n] (.start source filename)).Misjudged := by
  obtain ⟨hok, htokens⟩ := mainLoop_firstError h
  have hrounds := LexState.firstError_rounds hok
  have hbracketed := LexState.rounds_bracketed (L := initial source filename) Bracketed.start hrounds
  have hstream : WellBracketed tokens := by
    rw [htokens]
    exact LexState.flush_wellBracketed (hbracketed _)
  have hlayered : ∀ n,
      Layered (Watched.round^[n] (.start source filename)).lexer.indentStack := by
    intro n
    rw [Watched.rounds_lexer]
    exact (hbracketed n).layered
  have htop : (∀ n, (Watched.round^[n] (.start source filename)).lexer.top =
      (Watched.round^[n] (.start source filename)).lastDepth) ↔
      ∀ n, ¬ (Watched.round^[n] (.start source filename)).Misjudged := by
    refine Run.forall_iterate_iff (J := fun w : Watched => w.lexer.top = w.lastDepth) rfl ?_
    intro n hn
    have hnext := Watched.rounds_lexer (.start source filename) (n + 1)
    rw [Function.iterate_succ_apply'] at hnext ⊢
    refine Watched.round_top_iff ?_ hn
    rw [hnext]
    exact hrounds (n + 1)
  rw [← htop]
  exact ⟨fun hall n => (hall.2 n).2, fun hall => ⟨hstream, fun n => ⟨hlayered n, hall n⟩⟩⟩

/-- Two nested lines, and a blank line between them. -/
theorem tokenize_bracketed_nested :
    (WellBracketed ((tokenize "a\n\tb\n\n\t\tc".toList "f").toOption.getD []) ∧
      ∀ n, Layered (Watched.round^[n] (.start "a\n\tb\n\n\t\tc".toList "f")).lexer.indentStack ∧
        (Watched.round^[n] (.start "a\n\tb\n\n\t\tc".toList "f")).lexer.top =
          (Watched.round^[n] (.start "a\n\tb\n\n\t\tc".toList "f")).lastDepth) ↔
    ∀ n, ¬ (Watched.round^[n] (.start "a\n\tb\n\n\t\tc".toList "f")).Misjudged :=
  tokenize_bracketed_iff _ _ _ (by decide +kernel)

/-- Code after a block comment at the start of a deeper line: the line is taken for comment-only, and the
stack keeps its level. -/
theorem block_comment_hides_indentation :
    (tokenize "x\n\t### c ### y".toList "f").isOk = true ∧
    ¬ ∀ n, (Watched.round^[n] (.start "x\n\t### c ### y".toList "f")).lexer.top =
        (Watched.round^[n] (.start "x\n\t### c ### y".toList "f")).lastDepth := by
  refine ⟨by decide +kernel, fun hall => ?_⟩
  have h : (Watched.round^[3] (.start "x\n\t### c ### y".toList "f")).lexer.top ≠
      (Watched.round^[3] (.start "x\n\t### c ### y".toList "f")).lastDepth := by
    decide +kernel
  exact h (hall 3)

end Visuall.Lexer
