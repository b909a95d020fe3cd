import Visuall.Lexer.Respacing

/-!
# White space around a line

White space behind a line changes no token of it, and white space in front of it only through indentation.

* `Padded` — a piece of a text, and that piece where white space stands behind the text;
* `scanPiece_padded`, `ends_padded` — nothing else is read, step by step;
* `Unindented`, `outcome_unindented` — a line whose indentation opens no level has the tokens of what is left when white
  space is taken away.
-/

namespace Visuall.Lexer

/-- Nothing but white space. -/
def Blank (text : List Char) : Prop := ∀ c ∈ text, isBlank c = true

theorem Blank.parted {more : List Char} (h : Blank more) : Parted more := fun c hc =>
  h c (List.mem_of_mem_head? hc)

theorem Blank.dropWhile {more : List Char} (h : Blank more) : more.dropWhile isBlank = [] :=
  List.dropWhile_eq_nil_iff.mpr h

section Runs

variable {p : Char → Bool} (hp : [' ', '\t', '\r'].any p = false) (text : List Char) {more : List Char} (hmore : Parted more)
include hp hmore

/-- A run of characters in a text does not go on in the white space behind it. -/
theorem takeWhile_parted : (text ++ more).takeWhile p = text.takeWhile p := by
  have hnone : more.takeWhile p = [] := by
    cases more with
    | nil => rfl
    | cons c more => exact List.takeWhile_cons_of_neg (Bool.eq_false_iff.mp (hmore.head_not hp c rfl))
  induction text with
  | nil => exact hnone
  | cons c text ih => rw [List.cons_append, List.takeWhile_cons, List.takeWhile_cons, ih]

theorem dropWhile_parted : (text ++ more).dropWhile p = text.dropWhile p ++ more := by
  have hall : more.dropWhile p = more := by
    cases more with
    | nil => rfl
    | cons c more => exact List.dropWhile_cons_of_neg (Bool.eq_false_iff.mp (hmore.head_not hp c rfl))
  induction text with
  | nil => exact hall
  | cons c text ih =>
      rw [List.cons_append, List.dropWhile_cons, List.dropWhile_cons, ih]
      split_ifs
      · rfl
      · rfl

end Runs

/-! ## Numbers -/

/-- A number, and the number where something stands behind the text. -/
inductive NumberPadded (more : List Char) : Except Failure (TokenType × List Char × List Char) →
    Except Failure (TokenType × List Char × List Char) → Prop
  | ok {type : TokenType} {lexeme rest : List Char} :
      NumberPadded more (.ok (type, lexeme, rest)) (.ok (type, lexeme, rest ++ more))
  | error {f f' : Failure} : NumberPadded more (.error f) (.error f')

/-- White space is no sign. -/
theorem sign_padded (text : List Char) {more : List Char} (hmore : Parted more) :
    ((text ++ more).take 1).filter (fun s => s == '+' || s == '-') = (text.take 1).filter (fun s => s == '+' || s == '-') := by
  cases text with
  | nil =>
      cases more with
      | nil => rfl
      | cons c more =>
          have hnot := hmore.head_not (p := fun s => s == '+' || s == '-') rfl c rfl
          exact List.filter_cons_of_neg (p := fun s => s == '+' || s == '-') (Bool.eq_false_iff.mp hnot)
  | cons s text => rfl

theorem lexExponent_padded (isFloat : Bool) (value text : List Char) {more : List Char} (hmore : Parted more) :
    NumberPadded more (lexExponent isFloat value text) (lexExponent isFloat value (text ++ more)) := by
  cases text with
  | nil =>
      rw [List.nil_append, lexExponent_parted isFloat value hmore]
      exact @NumberPadded.ok _ _ _ []
  | cons e text =>
      rw [List.cons_append]
      unfold lexExponent
      dsimp only
      by_cases he : e = 'e' ∨ e = 'E'
      · have hlength : ((text.take 1).filter (fun s => s == '+' || s == '-')).length ≤ text.length :=
          (List.length_filter_le _ _).trans (List.length_take_le' _ _)
        rw [if_pos he, if_pos he, sign_padded text hmore]
        generalize (text.take 1).filter (fun s => s == '+' || s == '-') = sign at hlength
        rw [List.drop_append_of_le_length hlength]
        cases htext : text.drop sign.length with
        | nil =>
            -- no digit, and white space is none
            have hnot : ¬ more.head?.any isDigit = true := by
              cases more with
              | nil => exact Bool.false_ne_true
              | cons c more => simpa using hmore.head_not (p := isDigit) rfl c rfl
            rw [List.nil_append, if_neg hnot]
            exact .error
        | cons d ds =>
            rw [List.cons_append]
            by_cases hd : isDigit d = true
            · rw [if_pos (by simpa using hd), if_pos (by simpa using hd), ← List.cons_append,
                takeWhile_parted rfl _ hmore, dropWhile_parted rfl _ hmore]
              exact .ok
            · rw [if_neg (by simpa using hd), if_neg (by simpa using hd)]
              exact .error
      · rw [if_neg he, if_neg he]
        exact @NumberPadded.ok _ _ _ (e :: text)

theorem lexNumber_padded (c : Char) (text : List Char) {more : List Char} (hmore : Parted more) :
    NumberPadded more (lexNumber c text) (lexNumber c (text ++ more)) := by
  have hdigits : ∀ l, digitsOf (l ++ more) = digitsOf l := fun l => by
    rw [digitsOf, takeWhile_parted rfl l hmore, digitsOf]
  have hafter : ∀ l, afterDigits (l ++ more) = afterDigits l ++ more := fun l => dropWhile_parted rfl l hmore
  by_cases hfraction : ∃ d rest, afterDigits text = '.' :: d :: rest ∧ isDigit d = true
  · obtain ⟨d, rest, hdot, hd⟩ := hfraction
    have hdot' : afterDigits (text ++ more) = '.' :: d :: (rest ++ more) := by
      rw [hafter, hdot]
      rfl
    have hprefix : ['.'].isPrefixOf (afterDigits (d :: rest) ++ more) = ['.'].isPrefixOf (afterDigits (d :: rest)) :=
      isPrefixOf_parted rfl _ hmore
    rw [lexNumber_fraction hdot hd, lexNumber_fraction hdot' hd, ← List.cons_append, hafter, hprefix, hdigits, hdigits]
    split_ifs
    · exact .error
    · exact lexExponent_padded _ _ _ hmore
  · have hwhole : ∀ d rest, afterDigits text = '.' :: d :: rest → isDigit d = false := fun d rest hdot =>
      Bool.eq_false_iff.mpr fun hd => hfraction ⟨d, rest, hdot, hd⟩
    have hwhole' : ∀ d rest, afterDigits (text ++ more) = '.' :: d :: rest → isDigit d = false := by
      intro d rest hdot
      rw [hafter] at hdot
      -- the dot, or the digit, would stand in the white space
      cases htext : afterDigits text with
      | nil =>
          rw [htext, List.nil_append] at hdot
          have := hmore.head_not (p := (· == '.')) rfl '.' (by rw [hdot]; rfl)
          exact absurd this (by decide)
      | cons c' after =>
          rw [htext, List.cons_append] at hdot
          obtain ⟨rfl, hd⟩ := List.cons.inj hdot
          cases after with
          | nil => exact hmore.head_not rfl d (by rw [show more = d :: rest from hd]; rfl)
          | cons d' after =>
              obtain ⟨rfl, -⟩ := List.cons.inj hd
              exact hwhole _ _ htext
    rw [lexNumber_whole hwhole, lexNumber_whole hwhole', hdigits, hafter]
    exact lexExponent_padded _ _ _ hmore

/-! ## Comments -/

theorem skipMultiLineComment_blank {more : List Char} (hmore : Blank more) : skipMultiLineComment more = none := by
  induction more with
  | nil => rfl
  | cons c more ih =>
      have hc : c ≠ '#' := by
        rintro rfl
        exact absurd (hmore '#' List.mem_cons_self) (by decide)
      rw [skipMultiLineComment, if_neg, ih fun d hd => hmore d (List.mem_cons_of_mem _ hd)]
      intro hprefix
      obtain ⟨t, ht⟩ := List.isPrefixOf_iff_prefix.mp hprefix
      exact hc (List.cons.inj ht).1.symm

theorem skipMultiLineComment_padded (text : List Char) {more : List Char} (hmore : Blank more) :
    skipMultiLineComment (text ++ more) = (skipMultiLineComment text).map (· ++ more) := by
  induction text with
  | nil => exact skipMultiLineComment_blank hmore
  | cons c text ih =>
      have hprefix := @isPrefixOf_parted ['#', '#', '#'] rfl (c :: text) _ hmore.parted
      rw [List.cons_append] at hprefix ⊢
      rw [skipMultiLineComment, skipMultiLineComment, hprefix, ih]
      split_ifs with h
      · obtain ⟨t, ht⟩ := List.isPrefixOf_iff_prefix.mp h
        have htext : text = '#' :: '#' :: t := (List.cons.inj ht).2.symm
        rw [htext]
        rfl
      · rfl

/-! ## Pieces -/

/-- A piece, and the piece where white space stands behind the text. -/
inductive Padded : Piece → Piece → Prop
  | skip {rest more : List Char} : Blank more → Padded (.skip rest) (.skip (rest ++ more))
  | token {type : TokenType} {lexeme rest more : List Char} : Blank more →
      Padded (.token type lexeme rest) (.token type lexeme (rest ++ more))
  | unexpected {c : Char} {rest more : List Char} : Blank more → Padded (.unexpected c rest) (.unexpected c (rest ++ more))
  | failure {f f' : Failure} : Padded (.failure f) (.failure f')

theorem blank_nil : Blank [] := fun _ h => absurd h List.not_mem_nil

theorem Blank.line {more : List Char} (h : Blank more) : '\n' ∉ more := fun hn => absurd (h _ hn) (by decide)

/-- A comment of one line leaves nothing of it. -/
theorem scanComment_line {text : List Char} (hline : '\n' ∉ text) (h : ∀ t, text ≠ '#' :: '#' :: t) :
    scanComment text = .skip [] := by
  have hskip : skipSingleLineComment text = [] := by
    refine List.dropWhile_eq_nil_iff.mpr fun c hc => ?_
    have hne : c ≠ '\n' := fun hn => hline (hn ▸ hc)
    simpa using hne
  unfold scanComment
  split
  · exact absurd rfl (h _)
  · rw [hskip]

theorem scanComment_closed {text rest : List Char} (h : skipMultiLineComment text = some rest) :
    scanComment ('#' :: '#' :: text) = .skip rest := by
  simp only [scanComment, h]

theorem scanComment_open {text : List Char} (h : skipMultiLineComment text = none) :
    scanComment ('#' :: '#' :: text) = .failure ⟨"Unterminated multi-line comment", none, []⟩ := by
  simp only [scanComment, h]

theorem scanComment_padded {text more : List Char} (hline : '\n' ∉ text) (hmore : Blank more) :
    Padded (scanComment text) (scanComment (text ++ more)) := by
  have hhash : ∀ t, more ≠ '#' :: t := by
    rintro t rfl
    exact absurd (hmore '#' List.mem_cons_self) (by decide)
  have hlines : '\n' ∉ text ++ more := List.not_mem_append hline hmore.line
  have hcomment : (∀ t, text ≠ '#' :: '#' :: t) → (∀ t, text ++ more ≠ '#' :: '#' :: t) →
      Padded (scanComment text) (scanComment (text ++ more)) := by
    intro h h'
    rw [scanComment_line hline h, scanComment_line hlines h']
    exact .skip blank_nil
  match text with
  | [] => exact hcomment (fun t h => by cases h) fun t h => hhash _ h
  | [x] => exact hcomment (fun t h => by cases h) fun t h => hhash _ (List.cons.inj h).2
  | x :: y :: text =>
      by_cases hxy : x = '#' ∧ y = '#'
      · obtain ⟨rfl, rfl⟩ := hxy
        have hmulti := skipMultiLineComment_padded text hmore
        show Padded (scanComment ('#' :: '#' :: text)) (scanComment ('#' :: '#' :: (text ++ more)))
        cases hskip : skipMultiLineComment text with
        | some rest =>
            rw [hskip] at hmulti
            rw [scanComment_closed hskip, scanComment_closed hmulti]
            exact .skip hmore
        | none =>
            rw [hskip] at hmulti
            rw [scanComment_open hskip, scanComment_open hmulti]
            exact .failure
      · exact hcomment (fun t h => hxy ⟨(List.cons.inj h).1, (List.cons.inj (List.cons.inj h).2).1⟩)
          fun t h => hxy ⟨(List.cons.inj h).1, (List.cons.inj (List.cons.inj h).2).1⟩

theorem scanPiece_blank {c : Char} (text : List Char) (h : isBlank c = true) :
    scanPiece (c :: text) = .skip (text.dropWhile isBlank) := by
  unfold scanPiece
  exact if_pos h

/-- **No piece reads what stands behind a line**, if that is white space. -/
theorem scanPiece_padded {c : Char} {text more : List Char} (hline : '\n' ∉ c :: text) (hquote : '"' ∉ c :: text)
    (hsingle : '\'' ∉ c :: text) (hmore : Blank more) :
    Padded (scanPiece (c :: text)) (scanPiece (c :: text ++ more)) := by
  have hn : c ≠ '\n' := fun hc => hline (hc ▸ List.mem_cons_self)
  have hnquote : ¬ (c = '"' ∨ c = '\'') := by
    rintro (rfl | rfl)
    · exact hquote List.mem_cons_self
    · exact hsingle List.mem_cons_self
  by_cases hblank : isBlank c = true
  · rw [List.cons_append, scanPiece_blank _ hblank, scanPiece_blank _ hblank, List.dropWhile_append]
    split_ifs with hall
    · rw [hmore.dropWhile, List.isEmpty_iff.mp hall]
      exact @Padded.skip [] [] blank_nil
    · exact .skip hmore
  by_cases hhash : c = '#'
  · subst hhash
    exact scanComment_padded (fun h => hline (List.mem_cons_of_mem _ h)) hmore
  by_cases hdigit : isDigit c = true
  · rw [List.cons_append, scanPiece_number _ hdigit, scanPiece_number _ hdigit]
    have hnumber := lexNumber_padded c text hmore.parted
    generalize lexNumber c text = x at hnumber
    generalize lexNumber c (text ++ more) = y at hnumber
    cases hnumber with
    | ok => exact .token hmore
    | error => exact .failure
  by_cases hword : isAlpha c = true ∨ c = '_'
  · have hnot : ∀ d l, text ++ more = d :: l → ¬ (d = '"' ∨ d = '\'') := by
      intro d l hl hd
      have hmem : d ∈ text ++ more := hl ▸ List.mem_cons_self
      rcases List.mem_append.mp hmem with hmem | hmem
      · rcases hd with rfl | rfl
        · exact hquote (List.mem_cons_of_mem _ hmem)
        · exact hsingle (List.mem_cons_of_mem _ hmem)
      · have hblank := hmore d hmem
        rcases hd with rfl | rfl
        · cases hblank
        · cases hblank
    have hf : ¬ (c = 'f' ∧ startsWithQuote text = true) := by
      rintro ⟨-, h⟩
      cases text with
      | nil => cases h
      | cons d text => exact hnot d (text ++ more) rfl (quote_of_startsWithQuote h)
    have hf' : ¬ (c = 'f' ∧ startsWithQuote (text ++ more) = true) := by
      rintro ⟨-, h⟩
      cases hl : text ++ more with
      | nil =>
          rw [hl] at h
          cases h
      | cons d l =>
          rw [hl] at h
          exact hnot d l hl (quote_of_startsWithQuote h)
    rw [List.cons_append, scanPiece_word hword hf, scanPiece_word hword hf', takeWhile_parted rfl _ hmore.parted,
      dropWhile_parted rfl _ hmore.parted]
    exact .token hmore
  · have hother : isOther c = true := isOther_iff.mpr ⟨hblank, hn, hhash, hnquote, hdigit, hword⟩
    rw [List.cons_append, scanPiece_other _ hother, scanPiece_other _ hother, ← List.cons_append,
      lexOperator_parted _ hmore.parted]
    cases hop : lexOperator (c :: text) with
    | none => exact .unexpected hmore
    | some op =>
        have hprefix : op.1.isPrefixOf (c :: text) = true := by simpa using List.find?_some hop
        dsimp only
        rw [List.drop_append_of_le_length (List.isPrefixOf_iff_prefix.mp hprefix).length_le]
        exact .token hmore

/-! ## Lines -/

/-- In the middle of a line without quotes. -/
structure Bare.Unquoted (b : Bare) : Prop where
  inside : b.atLineStart = false
  line : '\n' ∉ b.rest
  quote : '"' ∉ b.rest
  single : '\'' ∉ b.rest

theorem Bare.Unquoted.of_suffix {b : Bare} (h : b.Unquoted) {rest : List Char} (hrest : rest <:+ b.rest)
    (kinds : List (TokenType × List Char)) : ({ b with rest, kinds } : Bare).Unquoted :=
  ⟨h.inside, fun hn => h.line (hrest.subset hn), fun hq => h.quote (hrest.subset hq), fun hs => h.single (hrest.subset hs)⟩

/-- A step, and the step where white space stands behind the line. -/
theorem Bare.Unquoted.step {b : Bare} (h : b.Unquoted) (hne : b.rest ≠ []) {more : List Char} (hmore : Blank more) :
    (b.step = none → ({ b with rest := b.rest ++ more } : Bare).step = none) ∧
      ∀ b', b.step = some b' → b'.Unquoted ∧ ∃ more', Blank more' ∧
        ({ b with rest := b.rest ++ more } : Bare).step = some { b' with rest := b'.rest ++ more' } := by
  obtain ⟨c, text, hrest⟩ := List.exists_cons_of_ne_nil hne
  have hpadded := scanPiece_padded (hrest ▸ h.line) (hrest ▸ h.quote) (hrest ▸ h.single) hmore
  have hsuffix := (scanPiece_suffix c text).trans (List.suffix_cons c text)
  have hstep := step_inside h.inside hrest
  have hstep' : ({ b with rest := b.rest ++ more } : Bare).step =
      ({ b with rest := b.rest ++ more } : Bare).consume (scanPiece (c :: text ++ more)) :=
    step_inside (b := { b with rest := b.rest ++ more }) h.inside (by rw [hrest]; rfl)
  rw [hstep, hstep']
  generalize scanPiece (c :: text) = p at hpadded hsuffix
  generalize scanPiece (c :: text ++ more) = p' at hpadded
  rw [← hrest] at hsuffix
  cases hpadded with
  | skip hmore' =>
      refine ⟨(fun hnone => by cases hnone), fun b' hb' => ?_⟩
      cases hb'
      exact ⟨h.of_suffix hsuffix _, _, hmore', rfl⟩
  | token hmore' =>
      refine ⟨(fun hnone => by cases hnone), fun b' hb' => ?_⟩
      cases hb'
      exact ⟨h.of_suffix hsuffix _, _, hmore', rfl⟩
  | unexpected hmore' =>
      refine ⟨(fun hnone => by cases hnone), fun b' hb' => ?_⟩
      cases hb'
      exact ⟨h.of_suffix hsuffix _, _, hmore', rfl⟩
  | failure => exact ⟨fun _ => rfl, (fun b' hb' => by cases hb')⟩

/-- White space that is left is nothing. -/
theorem ends_blank {b : Bare} (h : b.atLineStart = false) (hblank : Blank b.rest) : Ends b (some b.flush) := by
  cases hrest : b.rest with
  | nil => exact .done hrest
  | cons c rest =>
      have hskip : rest.dropWhile isBlank = [] := by
        rw [hrest] at hblank
        exact Blank.dropWhile fun d hd => hblank d (List.mem_cons_of_mem _ hd)
      have hstep : b.step = some { b with rest := [] } := by
        rw [Bare.step_inside h hrest, scanPiece_blank _ (hblank c (hrest ▸ List.mem_cons_self)), hskip]
        rfl
      exact .next (hrest ▸ List.cons_ne_nil _ _) hstep (.done rfl)

/-- **White space behind a line** changes nothing that comes out of it. -/
theorem ends_padded {b : Bare} {out : Option (List (TokenType × List Char))} (h : Ends b out) (hb : b.Unquoted)
    {more : List Char} (hmore : Blank more) : Ends { b with rest := b.rest ++ more } out := by
  induction h generalizing more with
  | @done b hrest =>
      have hends := ends_blank (b := { b with rest := b.rest ++ more }) hb.inside (by rw [hrest]; exact hmore)
      exact hends
  | @throws b hne hstep => exact .throws (List.append_ne_nil_of_left_ne_nil hne _) ((hb.step hne hmore).1 hstep)
  | @next b b' out hne hstep _ ih =>
      obtain ⟨hb', more', hmore', hstep'⟩ := (hb.step hne hmore).2 b' hstep
      exact .next (List.append_ne_nil_of_left_ne_nil hne _) hstep' (ih hb' hmore')

/-- White space in front of what is left changes nothing either. -/
theorem ends_skipped {b : Bare} (h : b.atLineStart = false) {out : Option (List (TokenType × List Char))} :
    Ends b out ↔ Ends { b with rest := b.rest.dropWhile isBlank } out := by
  cases hrest : b.rest with
  | nil =>
      have hsame : ({ b with rest := ([] : List Char).dropWhile isBlank } : Bare) = b := Bare.ext hrest.symm rfl rfl rfl
      rw [hsame]
  | cons c rest =>
      by_cases hblank : isBlank c = true
      · have hstep : b.step = some { b with rest := (c :: rest).dropWhile isBlank } := by
          rw [Bare.step_inside h hrest, scanPiece_blank _ hblank, List.dropWhile_cons_of_pos hblank]
          rfl
        constructor
        · intro hends
          cases hends with
          | done hnil => cases hrest.symm.trans hnil
          | throws _ hnone => cases hstep.symm.trans hnone
          | next _ hsome hends =>
              cases hstep.symm.trans hsome
              exact hends
        · exact fun hends => .next (hrest ▸ List.cons_ne_nil _ _) hstep hends
      · have hsame : ({ b with rest := (c :: rest).dropWhile isBlank } : Bare) = b :=
          Bare.ext (by rw [List.dropWhile_cons_of_neg hblank, hrest]) rfl rfl rfl
        rw [hsame]

/-- Normalization changes white space only. -/
theorem dropWhile_normalizeFrom {text : List Char} (hline : '\n' ∉ text) (atLineStart : Bool) (spaces : ℕ) :
    (normalizeFrom atLineStart spaces text).dropWhile isBlank = text.dropWhile isBlank := by
  cases atLineStart with
  | false => rw [normalizeFrom_false_last hline]
  | true =>
      induction text generalizing spaces with
      | nil => rfl
      | cons c text ih =>
          have hline' : '\n' ∉ text := fun hn => hline (List.mem_cons_of_mem _ hn)
          have htab : ∀ l, ('\t' :: l).dropWhile isBlank = l.dropWhile isBlank := fun l => rfl
          rw [normalizeFrom]
          split_ifs with hspace hfour htabc hfew
          · subst hspace
            rw [htab, ih hline']
            rfl
          · subst hspace
            rw [ih hline']
            rfl
          · subst htabc
            have hspaces : Blank (List.replicate spaces ' ') := fun d hd => by rw [List.eq_of_mem_replicate hd]; rfl
            rw [List.dropWhile_append_of_pos hspaces, htab, ih hline']
            rfl
          · subst htabc
            rw [htab, htab, ih hline']
            rfl
          · rw [htab, normalizeFrom_false_last hline']
          · rw [normalizeFrom_false_last hline']

theorem dropWhile_tabs (text : List Char) : (text.dropWhile (· == '\t')).dropWhile isBlank = text.dropWhile isBlank := by
  induction text with
  | nil => rfl
  | cons c text ih =>
      by_cases hc : c = '\t'
      · subst hc
        exact ih
      · rw [List.dropWhile_cons_of_neg (by simpa using hc)]

theorem newline_notMem_normalize {text : List Char} (hline : '\n' ∉ text) : '\n' ∉ normalizeIndentation text := by
  intro hn
  rcases mem_normalizeFrom hn with h | h | h
  · exact hline h
  · cases h
  · cases h

/-- The indentation of a line leaves it alone: it opens no level and throws nothing. -/
def Unindented (text : List Char) : Prop :=
  ∃ rest, (Bare.start (normalizeIndentation text)).settle = some ⟨rest, false, [0], []⟩

/-- **White space around a line.**  A line that is not indented has the tokens, positions aside, of the text without
it. -/
theorem outcome_unindented {left text right : List Char} (hleft : Blank left) (hright : Blank right)
    (hhead : ∀ c ∈ text.head?, isBlank c = false) (hline : '\n' ∉ text) (hquote : '"' ∉ text) (hsingle : '\'' ∉ text)
    (hunindented : Unindented (left ++ text ++ right)) (filename : String) :
    outcome (left ++ text ++ right) filename = outcome text filename := by
  have hlines : '\n' ∉ left ++ text ++ right := List.not_mem_append (List.not_mem_append hleft.line hline) hright.line
  obtain ⟨rest, hsettle⟩ := hunindented
  have hrest := (Bare.settle_inside hsettle).2
  -- the text, in the middle of its line
  have htext : Ends ⟨text, false, [0], []⟩ (outcome text filename) := by
    have hends := ends_outcome text filename
    have hnone : ∀ c ∈ text.head?, c ≠ ' ' ∧ c ≠ '\t' := fun c hc => ne_of_not_blank (hhead c hc)
    rw [normalizeIndentation_line hline hnone] at hends
    exact (ends_start_iff hnone hline).mp hends
  -- what is left of the whole line in front of it
  have hskipped : rest.dropWhile isBlank = (text ++ right).dropWhile isBlank := by
    rw [show rest = _ from hrest, dropWhile_tabs, normalizeIndentation, dropWhile_normalizeFrom hlines, List.append_assoc,
      List.dropWhile_append_of_pos hleft]
  have hpadded := ends_padded htext ⟨rfl, hline, hquote, hsingle⟩ hright
  have houter := (ends_skipped rfl).mp ((ends_settled hsettle (newline_notMem_normalize hlines)).mp
    (ends_outcome (left ++ text ++ right) filename))
  rw [show (⟨rest, false, [0], []⟩ : Bare).rest = rest from rfl, hskipped] at houter
  cases text with
  | nil =>
      rw [List.nil_append, hright.dropWhile] at houter
      exact houter.unique htext
  | cons c text =>
      have hc : ¬ isBlank c = true := by
        rw [hhead c rfl]
        exact Bool.false_ne_true
      rw [List.cons_append, List.dropWhile_cons_of_neg hc] at houter
      exact houter.unique hpadded

/-- A line that is indented begins with an `INDENT`, or is rejected. -/
theorem outcome_indented {text : List Char} (hline : '\n' ∉ text) (h : ¬ Unindented text) (filename : String) :
    outcome text filename = none ∨ ∃ kinds, outcome text filename = some ((.indent, "<INDENT>".toList) :: kinds) := by
  have hnormal := newline_notMem_normalize hline
  have hends := ends_outcome text filename
  cases hsettle : (Bare.start (normalizeIndentation text)).settle with
  | none =>
      have hne : normalizeIndentation text ≠ [] := fun hnil => by
        rw [hnil] at hsettle
        cases hsettle
      exact .inl (hends.unique (.throws hne (by rw [Bare.step, hsettle]; rfl)))
  | some b =>
      rcases Bare.settle_line hnormal hsettle with ⟨hstack, hkinds⟩ | hkinds
      · refine absurd ⟨b.rest, ?_⟩ h
        rw [hsettle]
        exact congrArg some (Bare.ext rfl (Bare.settle_inside hsettle).1 hstack hkinds)
      · cases hout : outcome text filename with
        | none => exact .inl rfl
        | some kinds =>
            obtain ⟨more, hmore⟩ := ((ends_settled hsettle hnormal).mp hends).kinds hout
            rw [hkinds] at hmore
            exact .inr ⟨more, congrArg some hmore.symm⟩

end Visuall.Lexer
