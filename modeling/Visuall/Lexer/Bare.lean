import Visuall.Lexer.Rounds

/-!
# The lexer without positions

Types and lexemes of the tokens depend on the text only, not on positions, file names and diagnostics.
This is the machine that is left without them: it stops at the first error.

* `Bare`, `Bare.step` — its state, and a round of the main loop;
* `Ends b out` — what comes out of it, in the order in which it goes;
* `ends_outcome` — what `tokenize` gives, positions aside, is what comes out.
-/

namespace Visuall.Lexer

/-- The state of the lexer without positions: the text that is left, `atLineStart`, the levels and what
the tokens stand for, latest first. -/
@[ext] structure Bare where
  rest : List Char
  atLineStart : Bool
  stack : List ℕ
  kinds : List (TokenType × List Char)
  deriving DecidableEq

namespace Bare

/-- The state in which the main loop starts on a normalized text. -/
def start (text : List Char) : Bare := ⟨text, true, [0], []⟩

/-- The levels deeper than `tabCount` are popped, with a `DEDENT` for each. -/
def popLevels (tabCount : ℕ) : List ℕ → List (TokenType × List Char) →
    List ℕ × List (TokenType × List Char)
  | level :: stack, kinds =>
    if tabCount < level then popLevels tabCount stack ((.dedent, "<DEDENT>".toList) :: kinds)
    else (level :: stack, kinds)
  | [], kinds => ([], kinds)

/-- The comparison of a line's tabs with the current level. -/
def indentTo (b : Bare) (tabCount : ℕ) : Option Bare :=
  if b.stack.headD 0 < tabCount then
    some { b with
      stack := tabCount :: b.stack
      kinds := (.indent, "<INDENT>".toList) :: b.kinds }
  else
    let popped := popLevels tabCount b.stack b.kinds
    if tabCount = popped.1.headD 0 then some { b with stack := popped.1, kinds := popped.2 } else none

/-- The state behind the tabs of a line. -/
def afterTabs (b : Bare) : Bare :=
  { b with rest := b.rest.dropWhile (· == '\t'), atLineStart := false }

/-- What comes before the piece of a round: at a line start, the indentation. -/
def settle (b : Bare) : Option Bare :=
  if b.atLineStart then
    match b.afterTabs.rest with
    | [] => some b.afterTabs
    | c :: _ =>
      if c = ' ' then none
      else if c = '\n' then some b.afterTabs
      else if c = '#' then some b.afterTabs
      else b.afterTabs.indentTo (b.rest.takeWhile (· == '\t')).length
  else some b

/-- The last token does not end a line. -/
def emitsNewline (b : Bare) : Bool :=
  match b.kinds with
  | [] => false
  | k :: _ => k.1 != .newline && k.1 != .indent && k.1 != .dedent

/-- A newline at the cursor. -/
def newline (b : Bare) (rest : List Char) : Bare :=
  { b with
    rest := rest
    atLineStart := true
    kinds := if b.emitsNewline then (.newline, "\\n".toList) :: b.kinds else b.kinds }

/-- A piece at the cursor. -/
def consume (b : Bare) : Piece → Option Bare
  | .skip rest => some { b with rest := rest }
  | .newline rest => some (b.newline rest)
  | .token type lexeme rest => some { b with rest := rest, kinds := (type, lexeme) :: b.kinds }
  | .unexpected c rest => some { b with rest := rest, kinds := (.error, [c]) :: b.kinds }
  | .failure _ => none

/-- One round of the main loop, unless it throws. -/
def step (b : Bare) : Option Bare :=
  b.settle.bind fun b' =>
    match b'.rest with
    | [] => some b'
    | c :: text =>
      if b.atLineStart = true ∧ c = '\n' then some b' else b'.consume (scanPiece (c :: text))

/-- What the token stream stands for at the end of the text. -/
def flush (b : Bare) : List (TokenType × List Char) :=
  ((.endOfFile, []) :: (popLevels 0 b.stack b.kinds).2).reverse

end Bare

/-- What comes out of the machine: what the tokens stand for, or nothing where it throws. -/
inductive Ends : Bare → Option (List (TokenType × List Char)) → Prop
  | done {b} : b.rest = [] → Ends b (some b.flush)
  | throws {b} : b.rest ≠ [] → b.step = none → Ends b none
  | next {b b' out} : b.rest ≠ [] → b.step = some b' → Ends b' out → Ends b out

theorem Ends.unique {b : Bare} {out out' : Option (List (TokenType × List Char))} (h : Ends b out)
    (h' : Ends b out') : out = out' := by
  induction h with
  | done hrest =>
      cases h' with
      | done => rfl
      | throws hne => exact absurd hrest hne
      | next hne => exact absurd hrest hne
  | throws hne hstep =>
      cases h' with
      | done hrest => exact absurd hrest hne
      | throws => rfl
      | next _ hstep' =>
          rw [hstep] at hstep'
          cases hstep'
  | next hne hstep _ ih =>
      cases h' with
      | done hrest => exact absurd hrest hne
      | throws _ hstep' =>
          rw [hstep] at hstep'
          cases hstep'
      | next _ hstep' hends =>
          rw [hstep] at hstep'
          cases hstep'
          exact ih hends

/-! ## The lexer is this machine -/

namespace LexState

/-- A state without its positions. -/
def bare (L : LexState) : Bare :=
  ⟨L.cursor.rest, L.atLineStart, L.indentStack, L.tokens.map Token.kind⟩

theorem popLevels_bare (tabCount : ℕ) (pos : Position) (stack : List ℕ) (tokens : List Token) :
    ((popLevels tabCount pos stack tokens).1, (popLevels tabCount pos stack tokens).2.map Token.kind) =
      Bare.popLevels tabCount stack (tokens.map Token.kind) := by
  induction stack generalizing tokens with
  | nil => rfl
  | cons level stack ih =>
      unfold popLevels Bare.popLevels
      split_ifs
      · exact ih _
      · rfl

/-- A part of a round without its positions, or nothing where it throws. -/
def unlessThrown : LexState × Option LexError → Option Bare
  | (L, none) => some L.bare
  | (_, some _) => none

theorem indentTo_bare (L : LexState) (tabCount : ℕ) (pos : Position) :
    unlessThrown (L.indentTo tabCount pos) = L.bare.indentTo tabCount := by
  have hpop := popLevels_bare tabCount pos L.indentStack L.tokens
  unfold indentTo Bare.indentTo
  show unlessThrown (if L.indentStack.headD 0 < tabCount then _ else _) =
    if L.indentStack.headD 0 < tabCount then _ else _
  by_cases hlt : L.indentStack.headD 0 < tabCount
  · rw [if_pos hlt, if_pos hlt]
    rfl
  · rw [if_neg hlt, if_neg hlt]
    show unlessThrown (if tabCount = (popLevels tabCount pos L.indentStack L.tokens).1.headD 0 then _
      else _) = (if tabCount = (Bare.popLevels tabCount L.indentStack (L.tokens.map Token.kind)).1.headD 0
      then some ⟨_, _, (Bare.popLevels tabCount L.indentStack (L.tokens.map Token.kind)).1,
        (Bare.popLevels tabCount L.indentStack (L.tokens.map Token.kind)).2⟩ else none)
    rw [← hpop]
    dsimp only
    split_ifs
    · rfl
    · rfl

theorem handleIndentation_bare (L : LexState) :
    unlessThrown (handleIndentation { L with atLineStart := false }) =
      Bare.settle { L.bare with atLineStart := true } := by
  unfold handleIndentation Bare.settle
  rw [if_pos rfl]
  dsimp only [moveTo_cursor, Cursor.moveTo_rest]
  show unlessThrown (match L.cursor.rest.dropWhile (· == '\t') with | [] => _ | c :: _ => _) =
    match L.cursor.rest.dropWhile (· == '\t') with | [] => _ | c :: _ => _
  split
  · rfl
  · split_ifs
    · rfl
    · rfl
    · rfl
    · exact indentTo_bare _ _ _

theorem settle_bare (L : LexState) : unlessThrown L.settle = L.bare.settle := by
  unfold settle
  by_cases hstart : L.atLineStart = true
  · rw [if_pos hstart, handleIndentation_bare]
    congr 1
    exact Bare.ext rfl hstart.symm rfl rfl
  · rw [if_neg hstart]
    unfold Bare.settle
    exact (if_neg hstart).symm

theorem newline_bare (L : LexState) (rest : List Char) : (L.newline rest).bare = L.bare.newline rest := by
  rcases L with ⟨filename, cursor, atLineStart, stack, _ | ⟨t, tokens⟩, errors, firstError⟩
  · rfl
  · cases hemit : t.type != .newline && t.type != .indent && t.type != .dedent with
    | true => simp [newline, Bare.newline, Bare.emitsNewline, bare, Token.kind, push, moveTo, hemit]
    | false => simp [newline, Bare.newline, Bare.emitsNewline, bare, Token.kind, moveTo, hemit]

theorem consume_bare (L : LexState) (p : Piece) : unlessThrown (L.consume p) = L.bare.consume p := by
  cases p with
  | newline rest => exact congrArg some (newline_bare L rest)
  | _ => rfl

/-- **A round and a step.** -/
theorem attempt_bare (L : LexState) : unlessThrown L.attempt = L.bare.step := by
  have hsettle := settle_bare L
  unfold attempt Bare.step
  by_cases hstart : L.atLineStart = true
  · unfold settle at hsettle
    rw [if_pos hstart] at hsettle ⊢
    rcases hindent : handleIndentation { L with atLineStart := false } with ⟨M, _ | e⟩
    · rw [hindent] at hsettle
      rw [← hsettle]
      show unlessThrown (match M.cursor.rest with | [] => _ | c :: text => _) =
        match M.cursor.rest with | [] => _ | c :: text => _
      split
      · rfl
      · rename_i c text hrest
        have hstart' : L.bare.atLineStart = true := hstart
        by_cases hc : c = '\n'
        · rw [if_pos hc, if_pos ⟨hstart', hc⟩]
          rfl
        · rw [if_neg hc, if_neg fun h => hc h.2]
          exact consume_bare M _
    · rw [hindent] at hsettle
      rw [← hsettle]
      rfl
  · unfold settle at hsettle
    rw [if_neg hstart] at hsettle ⊢
    rw [← hsettle]
    show unlessThrown (L.consume (scanPiece L.cursor.rest)) =
      match L.cursor.rest with | [] => _ | c :: text => _
    split
    · rename_i hrest
      have hbare : L.bare.rest = [] := hrest
      rw [hrest]
      exact congrArg some (Bare.ext hbare.symm rfl rfl rfl)
    · rename_i c text hrest
      have hstart' : ¬ L.bare.atLineStart = true := hstart
      rw [hrest, if_neg fun h => hstart' h.1]
      exact consume_bare L _

theorem round_bare {L : LexState} (hrest : L.cursor.rest ≠ []) (hok : L.firstError = none) :
    L.bare.step = if L.round.firstError = none then some L.round.bare else none := by
  have hattempt := attempt_bare L
  by_cases h : L.round.firstError = none
  · obtain ⟨_, hnone, hround⟩ := round_ok hrest h
    rw [if_pos h, ← hattempt, hround]
    rcases hL : L.attempt with ⟨M, _ | e⟩
    · rfl
    · rw [hL] at hnone
      cases hnone
  · rw [if_neg h, ← hattempt]
    rcases hL : L.attempt with ⟨M, _ | e⟩
    · have hM : M.firstError = none := by
        have hfirst := attempt_firstError hrest
        rw [hL] at hfirst
        exact hfirst.trans hok
      have hround : L.round = M := by
        unfold round
        split
        · contradiction
        · rw [hL]
      rw [hround] at h
      exact absurd hM h
    · rfl

/-- As many rounds as the size of a state, or more, are the main loop. -/
theorem mainLoop_eq {L : LexState} {n : ℕ} (hn : L.size ≤ n) : round^[n] L = L.mainLoop := by
  have hsame : ∀ m, L.size ≤ m → round^[m] L = round^[L.size] L := by
    intro m hm
    rw [← Nat.sub_add_cancel hm, Function.iterate_add_apply,
      Function.iterate_fixed (round_of_end (rounds_end _ L le_rfl))]
  exact (hsame n hn).trans (hsame _ L.size_le).symm

theorem mainLoop_round {L : LexState} (hrest : L.cursor.rest ≠ []) : L.round.mainLoop = L.mainLoop := by
  rw [← mainLoop_eq (Nat.le_of_lt (round_size hrest)), ← Function.iterate_succ_apply]
  exact mainLoop_eq (Nat.le_succ _)

/-- What comes out of the main loop. -/
def outcome (L : LexState) : Option (List (TokenType × List Char)) :=
  if L.mainLoop.firstError = none then some L.mainLoop.bare.flush else none

theorem ends_outcome (L : LexState) (hok : L.firstError = none) : Ends L.bare L.outcome := by
  generalize hsize : L.size = n
  induction n using Nat.strong_induction_on generalizing L with
  | _ n ih =>
      by_cases hrest : L.cursor.rest = []
      · have hloop : L.mainLoop = L := Function.iterate_fixed (round_of_end hrest) _
        unfold outcome
        rw [hloop, if_pos hok]
        exact .done hrest
      · have hstep := round_bare hrest hok
        by_cases h : L.round.firstError = none
        · rw [if_pos h] at hstep
          have hout : L.round.outcome = L.outcome := by
            unfold outcome
            rw [mainLoop_round hrest]
          rw [← hout]
          exact .next hrest hstep (ih _ (hsize ▸ round_size hrest) L.round h rfl)
        · rw [if_neg h] at hstep
          have hloop : L.mainLoop.firstError ≠ none := by
            rw [← mainLoop_round hrest]
            exact fun hnone => h (firstError_of_rounds _ hnone)
          unfold outcome
          rw [if_neg hloop]
          exact .throws hrest hstep

theorem flush_bare (L : LexState) : L.flush.tokens.reverse.map Token.kind = L.bare.flush := by
  have hpop := popLevels_bare 0 L.cursor.pos L.indentStack L.tokens
  unfold Bare.flush
  show (List.map Token.kind (List.reverse (_ :: (popLevels 0 L.cursor.pos L.indentStack L.tokens).2))) =
    List.reverse (_ :: (Bare.popLevels 0 L.indentStack (L.tokens.map Token.kind)).2)
  rw [← hpop, List.map_reverse]
  rfl

end LexState

/-- What `tokenize` gives, positions aside: what the tokens stand for, or nothing where it fails. -/
def outcome (source : List Char) (filename : String) : Option (List (TokenType × List Char)) :=
  (tokenize source filename).toOption.map fun tokens => tokens.map Token.kind

/-- **What `tokenize` gives comes out of the machine.** -/
theorem ends_outcome (source : List Char) (filename : String) :
    Ends (.start (normalizeIndentation source)) (outcome source filename) := by
  have hends := (initial source filename).ends_outcome rfl
  have hout : outcome source filename = (initial source filename).outcome := by
    unfold outcome tokenize LexState.outcome
    have hfirst : (finalState source filename).firstError = (initial source filename).mainLoop.firstError :=
      rfl
    rw [hfirst]
    cases (initial source filename).mainLoop.firstError with
    | none =>
        rw [if_pos rfl, ← LexState.flush_bare]
        rfl
    | some e =>
        rw [if_neg (by simp)]
        rfl
  rw [hout]
  exact hends

end Visuall.Lexer
