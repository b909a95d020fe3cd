import Visuall.Lsp.FormatterBlanks

/-!
# The formatter, run again

* `isClassDef_normalizeLine` — the lines of the source that become class definitions;
* `getLines_rebuild` — the lines of a formatted text;
* `format_idempotent_iff` — the texts that the formatter does not change any more once it has run.
-/

namespace Visuall.Lsp

/-! ## Class definitions -/

/-- Behind a word, there is a space or the formatter puts one. -/
def endsWord (rest : List Char) : Bool :=
  rest.head?.any isOperatorChar || (rest.head? == some ' ' && (rest.dropWhile (· == ' ')).head? != some ',')

/-- The line becomes one that begins with `class `. -/
def opensClass (line : Line) : Bool :=
  (indentOf line).isEmpty && "class".toList.isPrefixOf (contentOf line) && endsWord ((contentOf line).drop 5)

/-- A character of a word. -/
def isWordChar (c : Char) : Bool :=
  endsOperand c && c != ' ' && c != ',' && c != '#' && !isQuote c && !isOperatorChar c

section Words

variable {a : Atom} {as : List Atom} {c : Char} {back : Option Char} {w : List Char}

/-- Both loops behind the character `back`. -/
def spaceOut (back : Option Char) (as : List Atom) : List Atom := commaAtoms 0 false (operatorAtoms back as)

theorem isSpaced_head (h : a.isSpaced back) : isOperatorChar a.head := by
  cases a with
  | space | comma | literal | comment | other => cases h
  | assign => rfl
  | pair c d isPair => exact pair_first isPair
  | sign c isSign => exact isSign.1

/-- Behind an operand, every operator is binary. -/
theorem isSpaced_operand (hback : back.any endsOperand) (h : isOperatorChar a.head) : a.isSpaced back := by
  cases a with
  | space | comma | comment => cases h
  | literal d closed s quote body => exact (Bool.false_ne_true ((operator_chars h).1.symm.trans quote)).elim
  | assign | pair => rfl
  | sign c isSign => exact hback
  | other c isOther => exact (Bool.false_ne_true (isOther.2.2.2.2.symm.trans h)).elim

theorem head_comma : a.head = ',' ↔ a = .comma := by
  constructor
  · intro h
    cases a with
    | comma => rfl
    | space | assign => exact absurd h (by decide)
    | comment s => exact absurd h (show '#' ≠ ',' by decide)
    | literal d closed s quote body =>
        rw [show d = ',' from h] at quote
        cases quote
    | pair c d isPair => exact absurd h (operator_chars (pair_first isPair)).2.2.1
    | sign c isSign => exact absurd h (operator_chars isSign.1).2.2.1
    | other c isOther => exact absurd h isOther.2.1
  · rintro rfl
    rfl

/-- An atom that begins with a character of a word is that character. -/
theorem text_word (h : isWordChar a.head) : a.text = [a.head] ∧ a.last = a.head := by
  cases a with
  | space | comma | comment | assign => cases h
  | literal d closed s quote body =>
      simp only [isWordChar, Atom.head, quote, Bool.not_true, Bool.and_false, Bool.false_and] at h
      cases h
  | pair c d isPair =>
      simp only [isWordChar, Atom.head, pair_first isPair, Bool.not_true, Bool.and_false] at h
      cases h
  | sign | other => exact ⟨rfl, rfl⟩

theorem spaceOut_word (h : isWordChar a.head) (back : Option Char) (as : List Atom) :
    spaceOut back (a :: as) = a :: spaceOut (some a.head) as := by
  have hnot : isOperatorChar a.head = false := by
    simp only [isWordChar, Bool.and_eq_true, Bool.not_eq_true'] at h
    exact h.2
  have hne : a ≠ .space ∧ a ≠ .comma := by
    constructor <;> rintro rfl <;> cases h
  rw [spaceOut, operatorAtoms, if_neg fun hspaced => Bool.false_ne_true (hnot.symm.trans (isSpaced_head hspaced)),
    commaAtoms_atom hne, (text_word h).2]
  rfl

/-- Spaces in front of an atom stay, unless it is a comma. -/
theorem head?_commaAtoms (pend : ℕ) (as : List Atom) :
    (texts (commaAtoms (pend + 1) false (operatorAtoms (some ' ') as))).head? = some ' ' ↔
      ((texts as).dropWhile (· == ' ')).head? ≠ some ',' := by
  induction as generalizing pend with
  | nil => exact iff_of_true rfl (by decide)
  | cons a as ih =>
      by_cases hspace : a = .space
      · subst hspace
        exact ih (pend + 1)
      obtain ⟨bs, hbs⟩ := operatorAtoms_first (a := a) (.inl rfl) as
      have hhead : ((texts (a :: as)).dropWhile (· == ' ')).head? = some a.head := by
        rw [texts_cons, Atom.text, List.cons_append, List.dropWhile_cons_of_neg]
        · rfl
        · exact fun h => hspace (eq_space (isSpace_iff.mpr (beq_iff_eq.mp h)))
      rw [hbs, hhead]
      by_cases hcomma : a = .comma
      · subst hcomma
        exact iff_of_false (fun h => absurd (show some ',' = some ' ' from h) (by decide)) fun h => h rfl
      · rw [commaAtoms_atom ⟨hspace, hcomma⟩]
        exact iff_of_true rfl fun h => hcomma (head_comma.mp (Option.some_injective _ h))

/-- What a word has behind it. -/
theorem head?_spaceOut (hback : back.any endsOperand) (as : List Atom) :
    (texts (spaceOut back as)).head? = some ' ' ↔ endsWord (texts as) := by
  cases as with
  | nil => exact iff_of_false (fun h => by cases h) (by decide)
  | cons a as =>
      have hends : endsWord (texts (a :: as)) = (isOperatorChar a.head ||
          (a.head == ' ' && ((texts (a :: as)).dropWhile (· == ' ')).head? != some ',')) := rfl
      rw [hends]
      by_cases hop : isOperatorChar a.head
      · have hne : a ≠ .space ∧ a ≠ .comma := by
          constructor <;> rintro rfl <;> cases hop
        have hlead : leadSpace back = [.space] := by
          refine if_neg fun hall => ?_
          cases back with
          | none => cases hback
          | some c =>
              rw [beq_iff_eq.mp hall] at hback
              cases hback
        rw [spaceOut, operatorAtoms, if_pos (isSpaced_operand hback hop), hlead, hop, Bool.true_or]
        show (texts (commaAtoms 1 false (a :: _))).head? = some ' ' ↔ _
        rw [commaAtoms_atom hne]
        exact iff_of_true rfl rfl
      · rw [spaceOut, operatorAtoms, if_neg fun hspaced => hop (isSpaced_head hspaced), Bool.eq_false_iff.mpr hop, Bool.false_or]
        by_cases hspace : a = .space
        · subst hspace
          refine (head?_commaAtoms 0 as).trans ?_
          rw [texts_cons]
          exact bne_iff_ne.symm
        · obtain ⟨bs, hbs⟩ := commaAtoms_first hspace (operatorAtoms (some a.last) as)
          have hhead : a.head ≠ ' ' := fun h => hspace (eq_space (isSpace_iff.mpr h))
          rw [hbs, beq_eq_false_iff_ne.mpr hhead]
          exact iff_of_false (fun h => hhead (Option.some_injective _ h)) Bool.false_ne_true

/-- The first character stays, or a space or a comma comes instead. -/
theorem head?_spaceOut_cons (back : Option Char) (a : Atom) (as : List Atom) :
    ∃ c, (texts (spaceOut back (a :: as))).head? = some c ∧ (c = a.head ∨ c = ' ' ∨ c = ',') := by
  have hspaces : ∀ pend bs, ∃ c, (texts (commaAtoms (pend + 1) false bs)).head? = some c ∧ (c = ' ' ∨ c = ',') := by
    intro pend bs
    induction bs generalizing pend with
    | nil => exact ⟨' ', rfl, .inl rfl⟩
    | cons b bs ih =>
        by_cases hspace : b = .space
        · subst hspace
          exact ih (pend + 1)
        by_cases hcomma : b = .comma
        · subst hcomma
          exact ⟨',', by rw [commaAtoms, texts_cons]; rfl, .inr rfl⟩
        · rw [commaAtoms_atom ⟨hspace, hcomma⟩]
          exact ⟨' ', rfl, .inl rfl⟩
  have hfirst : ∀ bs, ∃ c, (texts (commaAtoms 0 false (a :: bs))).head? = some c ∧ (c = a.head ∨ c = ' ' ∨ c = ',') := by
    intro bs
    by_cases hspace : a = .space
    · subst hspace
      obtain ⟨c, hc, heq⟩ := hspaces 0 bs
      exact ⟨c, hc, .inr heq⟩
    · obtain ⟨cs, hcs⟩ := commaAtoms_first hspace bs
      rw [hcs]
      exact ⟨a.head, rfl, .inl rfl⟩
  rw [spaceOut, operatorAtoms]
  split
  · rw [leadSpace]
    split
    · exact hfirst _
    · obtain ⟨c, hc, heq⟩ := hspaces 0 (a :: if as.head?.all Atom.isSpace then operatorAtoms (some a.last) as
        else .space :: operatorAtoms (some ' ') as)
      exact ⟨c, hc, .inr heq⟩
  · exact hfirst _

theorem prefix_word (hw : ∀ c ∈ w, isWordChar c) (hback : back.any endsOperand ∨ w ≠ []) (as : List Atom) :
    w ++ [' '] <+: texts (spaceOut back as) ↔ w <+: texts as ∧ endsWord ((texts as).drop w.length) := by
  induction w generalizing back as with
  | nil =>
      rw [List.nil_append, List.length_nil, List.drop_zero, ← head?_spaceOut (hback.resolve_right fun h => h rfl),
        and_iff_right List.nil_prefix]
      cases texts (spaceOut back as) with
      | nil => exact iff_of_false (by decide) (by decide)
      | cons c s => simp [eq_comm]
  | cons c w ih =>
      obtain ⟨hc, hw⟩ := List.forall_mem_cons.mp hw
      cases as with
      | nil => exact iff_of_false (fun h => absurd (List.prefix_nil.mp h) (List.cons_ne_nil _ _)) fun h =>
          absurd (List.prefix_nil.mp h.1) (List.cons_ne_nil _ _)
      | cons a as =>
          by_cases hhead : a.head = c
          · have hword : isWordChar a.head := hhead ▸ hc
            have hends : (some a.head).any endsOperand := by
              simp only [isWordChar, Bool.and_eq_true] at hword
              exact hword.1.1.1.1.1
            rw [spaceOut_word hword, texts_cons, texts_cons, (text_word hword).1, hhead]
            simp only [List.cons_append, List.nil_append, List.cons_prefix_cons, true_and, List.length_cons, List.drop_succ_cons]
            rw [← hhead]
            exact ih hw (.inl hends) as
          · refine iff_of_false (fun h => ?_) fun h => hhead (List.cons_prefix_cons.mp h.1).1.symm
            obtain ⟨d, hd, heq⟩ := head?_spaceOut_cons back a as
            obtain ⟨t, ht⟩ := h
            rw [← ht] at hd
            have hcd : c = d := Option.some_injective _ hd
            rcases heq with rfl | rfl | rfl
            · exact hhead hcd.symm
            · subst hcd
              cases hc
            · subst hcd
              cases hc

theorem isWordChar_class : ∀ c ∈ "class".toList, isWordChar c := by
  intro c hc
  fin_cases hc <;> rfl

/-- The class definitions, read off the source. -/
theorem isClassDef_normalizeLine {line : Line} (hline : '\n' ∉ line) (h : contentOf line ≠ []) :
    isClassDef (normalizeLine line) = opensClass line := by
  have hs := content_solid h
  have hws : ∀ c ∈ indentOf line, isIndentChar c := fun c hc => List.mem_takeWhile_imp hc
  obtain ⟨a, as, htexts, hchain, _⟩ := exists_first hs (contentOf_newline hline)
  rw [normalizeLine_strip, normalizeLine_indent _ hws hs, opensClass]
  by_cases hempty : indentOf line = []
  · rw [hempty]
    show isClassDef (if _ then contentOf line else normalizeCommas (normalizeOperators (contentOf line))) = _
    rw [← htexts, normalize_texts hchain]
    split
    · obtain ⟨t, ht⟩ := List.isPrefixOf_iff_prefix.mp ‹_›
      rw [← ht]
      rfl
    · rw [Bool.eq_iff_iff, isClassDef, List.isPrefixOf_iff_prefix, List.isEmpty_nil, Bool.true_and, Bool.and_eq_true,
        List.isPrefixOf_iff_prefix]
      exact prefix_word isWordChar_class (.inr (by decide)) (a :: as)
  · obtain ⟨n, hn⟩ : ∃ n, tabsFor (indentOf line) = n + 1 :=
      ⟨_, (Nat.succ_pred_eq_of_pos ((tabsFor_pos hws).mpr hempty)).symm⟩
    rw [List.isEmpty_eq_false_iff.mpr hempty, hn, ← htexts]
    split
    · rfl
    · rw [← texts_tabs, ← texts_append, normalize_texts (chain_tabs _ hchain), respace_behind_tabs, texts_append, texts_tabs]
      rfl

end Words

/-! ## The lines of a text -/

section Texts

variable {line l : Line} {ls ms : List Line} {s source : List Char} {b : Block} {bs blocks : List Block}

theorem newline_notMem_getLines (h : l ∈ getLines source) : '\n' ∉ l := by
  rw [getLines] at h
  split at h
  · exact newline_notMem_lines (List.mem_of_mem_dropLast h)
  · exact newline_notMem_lines h

/-- The lines of a text that ends with a line that is not empty. -/
theorem getLines_rebuild (h : ∀ l ∈ ls, '\n' ∉ l) (hlast : ∀ l ∈ ls.getLast?, l ≠ []) : getLines (rebuild ls) = ls := by
  rcases List.eq_nil_or_concat' ls with rfl | ⟨ms, p, rfl⟩
  · rfl
  have hp : p ≠ [] := hlast p List.getLast?_concat
  have hnewline : '\n' ∉ p := h p (List.mem_append_right _ List.mem_cons_self)
  have hne : ms ++ [p] ≠ [] := List.append_ne_nil_of_right_ne_nil _ (List.cons_ne_nil _ _)
  have hback : (joinWith '\n' (ms ++ [p])).getLast? = p.getLast? := by
    cases ms with
    | nil => rfl
    | cons m ms =>
        rw [joinWith_append (List.cons_ne_nil _ _) (List.cons_ne_nil _ _), List.getLast?_append_of_ne_nil _ (List.cons_ne_nil _ _)]
        exact List.getLast?_cons_of_ne_nil hp
  have hrebuild : rebuild (ms ++ [p]) = joinWith '\n' (ms ++ [p] ++ [[]]) := by
    rw [joinWith_append hne (List.cons_ne_nil _ _), rebuild, if_neg fun hall => ?_]
    · rfl
    · rw [hback, List.getLast?_eq_some_getLast hp] at hall
      exact hnewline (beq_iff_eq.mp hall ▸ List.getLast_mem hp)
  have hlines : lines (rebuild (ms ++ [p])) = ms ++ [p] ++ [[]] := by
    rw [hrebuild]
    refine lines_joinWith (List.append_ne_nil_of_left_ne_nil hne _) fun l hl => ?_
    rcases List.mem_append.mp hl with hl | hl
    · exact h l hl
    · rw [List.mem_singleton.mp hl]
      exact List.not_mem_nil
  rw [getLines, hlines, List.getLast?_concat, if_pos rfl, List.dropLast_concat]

theorem contentOf_blank (h : isBlank line) : contentOf line = [] := by
  have hnil : stripTrailingWhitespace line = [] := List.rdropWhile_eq_nil_iff.mpr (List.all_eq_true.mp h)
  rw [contentOf, hnil]
  rfl

theorem isBlank_normalizeLine (hline : '\n' ∉ line) : isBlank (normalizeLine line) = isBlank line := by
  cases h : isBlank line with
  | true =>
      rw [normalizeLine_empty (contentOf_blank h)]
      rfl
  | false =>
      have hne := contentOf_ne_nil h
      have hlast := (getLast?_normalizeLine hline hne).1
      rw [List.getLast?_eq_some_getLast hne] at hlast
      refine List.all_eq_false.mpr ⟨_, List.mem_of_getLast? hlast, ?_⟩
      rw [(content_solid hne).last _ (List.getLast?_eq_some_getLast hne)]
      exact Bool.false_ne_true

theorem newline_notMem_normalizeLine (hline : '\n' ∉ line) : '\n' ∉ normalizeLine line := by
  by_cases h : contentOf line = []
  · rw [normalizeLine_empty h]
    exact List.not_mem_nil
  · exact (getLast?_normalizeLine hline h).2

theorem normalizeLine_of_blank (hline : '\n' ∉ line) (h : isBlank (normalizeLine line)) : normalizeLine line = [] := by
  rw [isBlank_normalizeLine hline] at h
  exact normalizeLine_empty (contentOf_blank h)

theorem opensBlock_normalizeLine (hline : '\n' ∉ line) (h : contentOf line ≠ []) :
    opensBlock (normalizeLine line) = opensBlock line := by
  have hlast := (getLast?_normalizeLine hline h).1
  have hstrip : (stripTrailingWhitespace line).getLast? = (contentOf line).getLast? := by
    obtain ⟨t, ht⟩ : contentOf line <:+ stripTrailingWhitespace line := List.dropWhile_suffix _
    rw [← ht, List.getLast?_append_of_ne_nil _ h]
  rw [opensBlock, opensBlock, hstrip, strip_of_last, hlast]
  rw [hlast]
  exact (content_solid h).last

/-! ## Blank lines of the source -/

/-- Between two lines there are at most two blank lines, and at most one at the start of a block; in front of a class
definition there are as many as there are. -/
def BlanksStay (ls : List Line) : Prop := ∀ before prev blanks line after,
  ls = before ++ prev :: (blanks ++ line :: after) → isBlank prev = false → (∀ l ∈ blanks, isBlank l) → isBlank line = false →
    opensClass line ∨ blanks.length ≤ if opensBlock prev then 1 else 2

theorem blanksStay_iff (h : ∀ l ∈ ls, '\n' ∉ l) : BlanksStay ls ↔ BlanksOk (ls.map normalizeLine) := by
  constructor
  · intro hstay before prev n line after heq hprev hline
    obtain ⟨before, ls₁, rfl, rfl, heq₁⟩ := List.map_eq_append_iff.mp heq
    obtain ⟨prev, ls₂, rfl, rfl, heq₂⟩ := List.map_eq_cons_iff.mp heq₁
    obtain ⟨blanks, ls₃, rfl, hblanks, heq₃⟩ := List.map_eq_append_iff.mp heq₂
    obtain ⟨line, after, rfl, rfl, rfl⟩ := List.map_eq_cons_iff.mp heq₃
    have hnprev : '\n' ∉ prev := h prev (by simp)
    have hnline : '\n' ∉ line := h line (by simp)
    have hlength : blanks.length = n := by simpa using congrArg List.length hblanks
    rw [isBlank_normalizeLine hnprev] at hprev
    rw [isBlank_normalizeLine hnline] at hline
    have := hstay before prev blanks line after rfl hprev (fun l hl => ?_) hline
    · rwa [GapOk, isClassDef_normalizeLine hnline (contentOf_ne_nil hline), opensBlock_normalizeLine hnprev (contentOf_ne_nil hprev),
        ← hlength]
    · have hempty : normalizeLine l = [] := List.eq_of_mem_replicate (hblanks ▸ List.mem_map_of_mem hl)
      rw [← isBlank_normalizeLine (h l (by simp [hl])), hempty]
      rfl
  · intro hok before prev blanks line after heq hprev hblanks hline
    subst heq
    have hnprev : '\n' ∉ prev := h prev (by simp)
    have hnline : '\n' ∉ line := h line (by simp)
    have hempty : blanks.map normalizeLine = List.replicate blanks.length [] :=
      List.map_eq_replicate_iff.mpr fun l hl => normalizeLine_empty (contentOf_blank (hblanks l hl))
    have := hok (before.map normalizeLine) (normalizeLine prev) blanks.length (normalizeLine line) (after.map normalizeLine)
      (by rw [List.map_append, List.map_cons, List.map_append, List.map_cons, hempty])
      ((isBlank_normalizeLine hnprev).trans hprev) ((isBlank_normalizeLine hnline).trans hline)
    rwa [GapOk, isClassDef_normalizeLine hnline (contentOf_ne_nil hline),
      opensBlock_normalizeLine hnprev (contentOf_ne_nil hprev)] at this

/-! ## The second run -/

/-- The blocks with other lines. -/
def mapLines (f : Line → Line) (bs : List Block) : List Block := bs.map fun b => (b.1, f b.2)

theorem map_unroll (bs : List Block) : (unroll bs).map normalizeLine = unroll (mapLines normalizeLine bs) := by
  induction bs with
  | nil => rfl
  | cons b bs ih =>
      rw [unroll_cons, List.map_append, List.map_replicate, List.map_cons, ih]
      exact (unroll_cons (b.1, normalizeLine b.2) _).symm

theorem regap_lines (g : Line → Block → ℕ) (p : Line) (bs : List Block) : (regap g p bs).map Prod.snd = bs.map Prod.snd := by
  induction bs generalizing p with
  | nil => rfl
  | cons b bs ih => rw [regap, List.map_cons, List.map_cons, ih]

theorem spacing_lines (bs : List Block) : (spacing bs).map Prod.snd = bs.map Prod.snd := by
  cases bs with
  | nil => rfl
  | cons b bs => exact congrArg (b.2 :: ·) (regap_lines newGap b.2 bs)

theorem spacing_solids (h : Solids bs) : Solids (spacing bs) := by
  cases bs with
  | nil => exact h
  | cons b bs =>
      obtain ⟨hb, hbs⟩ := List.forall_mem_cons.mp h
      exact List.forall_mem_cons.mpr ⟨hb, regap_solids newGap b.2 hbs⟩

/-- The second run on the blocks: every line is normalized, and the gaps are what they are. -/
theorem spacing_idem_iff (b : Block) (bs : List Block) :
    spacing (mapLines normalizeLine (spacing (b :: bs))) = spacing (b :: bs) ↔
      (∀ c ∈ b :: bs, normalizeLine c.2 = c.2) ∧ GapsOk b.2 bs := by
  have hlines : (spacing (b :: bs)).map Prod.snd = (b :: bs).map Prod.snd := spacing_lines _
  by_cases hfix : ∀ c ∈ b :: bs, normalizeLine c.2 = c.2
  · have hsame : mapLines normalizeLine (spacing (b :: bs)) = spacing (b :: bs) := by
      refine (List.map_congr_left fun c hc => ?_).trans (List.map_id _)
      have hmem : c.2 ∈ (b :: bs).map Prod.snd := hlines ▸ List.mem_map_of_mem hc
      obtain ⟨d, hd, heq⟩ := List.mem_map.mp hmem
      exact Prod.ext rfl (heq ▸ hfix d hd)
    rw [hsame, and_iff_right hfix, ← regap_idem_iff]
    exact List.cons_inj_right _
  · refine iff_of_false (fun heq => hfix ?_) fun h => hfix h.1
    have hmap : ((b :: bs).map Prod.snd).map normalizeLine = (b :: bs).map Prod.snd := by
      have hsnd := congrArg (List.map Prod.snd) heq
      rw [spacing_lines, mapLines, List.map_map] at hsnd
      rw [← hlines, List.map_map]
      exact hsnd
    have hall := List.map_eq_map_iff.mp (hmap.trans (List.map_id _).symm)
    exact fun c hc => hall c.2 (List.mem_map_of_mem hc)

/-- The lines of a formatted text. -/
theorem getLines_spacing (hsolid : Solids bs) (h : ∀ b ∈ bs, '\n' ∉ b.2) :
    getLines (rebuild (unroll (spacing bs))) = unroll (spacing bs) := by
  refine getLines_rebuild (fun l hl => ?_) fun l hl => ?_
  · obtain ⟨c, hc, hl⟩ := List.mem_flatMap.mp hl
    rcases List.mem_append.mp hl with hl | hl
    · rw [List.eq_of_mem_replicate hl]
      exact List.not_mem_nil
    · have hmem : c.2 ∈ bs.map Prod.snd := spacing_lines bs ▸ List.mem_map_of_mem hc
      obtain ⟨d, hd, heq⟩ := List.mem_map.mp hmem
      rw [List.mem_singleton.mp hl, ← heq]
      exact h d hd
  · cases bs with
    | nil => cases hl
    | cons b bs =>
        obtain ⟨p, hlast, hp⟩ := getLast?_unroll _ _ (spacing_solids hsolid)
        have hlp : some p = some l := hlast.symm.trans hl
        cases hlp
        exact ne_nil_of_solid hp

/-- The formatter changes nothing in its own output just when no operator opens a line behind an indentation and no blank
line is to be left out any more. -/
theorem format_idempotent_iff (source : List Char) : format (format source) = format source ↔
    (∀ line ∈ getLines source, opensWithOperator line = false) ∧ BlanksStay (getLines source) := by
  have hnewline : ∀ line ∈ getLines source, '\n' ∉ line := fun line hline => newline_notMem_getLines hline
  rw [blanksStay_iff hnewline]
  have hblanks : ∀ l ∈ (getLines source).map normalizeLine, isBlank l = true → l = [] := by
    intro l hl hblank
    obtain ⟨line, hline, rfl⟩ := List.mem_map.mp hl
    exact normalizeLine_of_blank (hnewline line hline) hblank
  obtain ⟨blocks, m, hblocks, hsolid⟩ := exists_blocks hblanks
  have hfirst : format source = rebuild (unroll (spacing blocks)) := by
    rw [format, hblocks, clean_layOut hsolid]
  have hfrom : ∀ b ∈ blocks, ∃ line ∈ getLines source, normalizeLine line = b.2 := by
    intro b hb
    refine List.mem_map.mp (hblocks ▸ List.mem_append_left _ (List.mem_flatMap.mpr ⟨b, hb, ?_⟩))
    exact List.mem_append_right _ List.mem_cons_self
  have hnew : ∀ b ∈ blocks, '\n' ∉ b.2 := by
    intro b hb
    obtain ⟨line, hline, heq⟩ := hfrom b hb
    exact heq ▸ newline_notMem_normalizeLine (hnewline line hline)
  have hspaced : ∀ c ∈ mapLines normalizeLine (spacing blocks), isBlank c.2 = false ∧ '\n' ∉ c.2 := by
    intro c hc
    obtain ⟨d, hd, rfl⟩ := List.mem_map.mp hc
    have hmem : d.2 ∈ blocks.map Prod.snd := spacing_lines blocks ▸ List.mem_map_of_mem hd
    obtain ⟨b, hb, heq⟩ := List.mem_map.mp hmem
    have hd' : '\n' ∉ d.2 := heq ▸ hnew b hb
    exact ⟨(isBlank_normalizeLine hd').trans (spacing_solids hsolid d hd), newline_notMem_normalizeLine hd'⟩
  have hsolid' : Solids (mapLines normalizeLine (spacing blocks)) := fun c hc => (hspaced c hc).1
  have hsecond : format (format source) = rebuild (unroll (spacing (mapLines normalizeLine (spacing blocks)))) := by
    have hclean := clean_layOut hsolid' 0
    rw [List.replicate_zero, List.append_nil] at hclean
    rw [hfirst, format, getLines_spacing hsolid hnew, map_unroll, hclean]
  have hiff : format (format source) = format source ↔ spacing (mapLines normalizeLine (spacing blocks)) = spacing blocks := by
    rw [hsecond, hfirst]
    refine ⟨fun heq => ?_, fun heq => by rw [heq]⟩
    have hlines := congrArg getLines heq
    rw [getLines_spacing hsolid hnew, getLines_spacing hsolid' fun c hc => (hspaced c hc).2] at hlines
    exact unroll_inj (m := 0) (n := 0) (spacing_solids hsolid') (spacing_solids hsolid) (by rw [hlines])
  have hfixed : (∀ c ∈ blocks, normalizeLine c.2 = c.2) ↔ ∀ line ∈ getLines source, opensWithOperator line = false := by
    constructor
    · intro h line hline
      refine (normalizeLine_idem_iff line (hnewline line hline)).mp ?_
      have hmem : normalizeLine line ∈ unroll blocks ++ List.replicate m [] := hblocks ▸ List.mem_map_of_mem hline
      have hcases : normalizeLine line = [] ∨ ∃ c ∈ blocks, normalizeLine line = c.2 := by
        rcases List.mem_append.mp hmem with hmem | hmem
        · obtain ⟨c, hc, hmem⟩ := List.mem_flatMap.mp hmem
          rcases List.mem_append.mp hmem with hmem | hmem
          · exact .inl (List.eq_of_mem_replicate hmem)
          · exact .inr ⟨c, hc, List.mem_singleton.mp hmem⟩
        · exact .inl (List.eq_of_mem_replicate hmem)
      rcases hcases with heq | ⟨c, hc, heq⟩
      · rw [heq]
        rfl
      · rw [heq, h c hc]
    · intro h c hc
      obtain ⟨line, hline, heq⟩ := hfrom c hc
      rw [← heq]
      exact (normalizeLine_idem_iff line (hnewline line hline)).mpr (h line hline)
  rw [hiff, ← hfixed, hblocks]
  cases blocks with
  | nil =>
      refine iff_of_true rfl ⟨fun c hc => absurd hc List.not_mem_nil, fun before prev n line after heq hprev _ => ?_⟩
      have hmem : prev ∈ unroll [] ++ List.replicate m [] := heq ▸ List.mem_append_right _ List.mem_cons_self
      rw [List.eq_of_mem_replicate hmem] at hprev
      cases hprev
  | cons b bs => rw [spacing_idem_iff, blanksOk_iff hsolid]

/-- The space in front of the operator is taken for a tab by the second run. -/
theorem format_operator_line : format (format "\t= x".toList) ≠ format "\t= x".toList := by decide

end Texts

end Visuall.Lsp
