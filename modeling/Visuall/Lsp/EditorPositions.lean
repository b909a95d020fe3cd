import Visuall.Lexer.Spelling
import Visuall.Lsp.Sync

/-!
# Positions of tokens in the editor

The server keeps a document as bytes, and its lexer counts lines by newlines and columns by bytes of the
normalized text.  The editor counts UTF-16 code units, in the text as it is, and a line ends at `\n`, `\r\n` or
`\r`.  A byte is a character here, as in the lexer.

* `editorPos` — the position behind a text;
* `docFront`, `editorSpan` — the text in front of a token in the document, and where the editor shows it;
* `editorPos_iff` — exactly when the editor counts as the server does.
-/

namespace Visuall.Lsp

open Visuall.Lexer

/-! ## The editor -/

/-- The code units that a byte of a text adds: none behind the first of a character, and two for a character of
four bytes. -/
def unitsOf (b : Char) : ℕ :=
  if b.toNat < 0x80 then 1
  else if b.toNat < 0xC0 then 0
  else if b.toNat < 0xF0 then 1
  else 2

/-- The code units of bytes. -/
def units (s : List Char) : ℕ := (s.map unitsOf).sum

/-- The bytes that a text has beyond its code units. -/
def surplus (s : List Char) : ℤ := (s.length : ℤ) - units s

/-- The lines of the editor. -/
def editorLines : List Char → List (List Char)
  | [] => [[]]
  | [c] => if c = '\n' ∨ c = '\r' then [[], []] else [[c]]
  | c :: d :: text =>
    if c = '\r' ∧ d = '\n' then [] :: editorLines text
    else if c = '\n' ∨ c = '\r' then [] :: editorLines (d :: text)
    else (editorLines (d :: text)).modifyHead (c :: ·)

/-- The position behind a text. -/
def editorPos (text : List Char) : Position :=
  ⟨(editorLines text).length - 1, units ((editorLines text).getLastD [])⟩

section Units

variable {s t : List Char}

@[simp] theorem units_nil : units [] = 0 := rfl

theorem units_append (s t : List Char) : units (s ++ t) = units s + units t := by
  rw [units, List.map_append, List.sum_append]
  rfl

end Units

/-! ## Lines of the server and of the editor -/

section Lines

variable {text : List Char}

theorem editorLines_ne_nil (text : List Char) : editorLines text ≠ [] := by
  induction text using editorLines.induct with
  | case1 => exact List.cons_ne_nil _ _
  | case2 c h =>
      rw [editorLines, if_pos h]
      exact List.cons_ne_nil _ _
  | case3 c h =>
      rw [editorLines, if_neg h]
      exact List.cons_ne_nil _ _
  | case4 c d text h ih =>
      rw [editorLines, if_pos h]
      exact List.cons_ne_nil _ _
  | case5 c d text h h' ih =>
      rw [editorLines, if_neg h, if_pos h']
      exact List.cons_ne_nil _ _
  | case6 c d text h h' ih =>
      rw [editorLines, if_neg h, if_neg h']
      simpa using ih

theorem noLoneCr_cons {c : Char} (h : c ≠ '\r') (text : List Char) : noLoneCr (c :: text) = noLoneCr text := by
  have hc : (c != '\r') = true := by simpa using h
  cases text with
  | nil => exact hc
  | cons d text => rw [noLoneCr, hc, Bool.true_or, Bool.true_and]

theorem getLastD_cons_of_ne {a : List Char} {ls : List (List Char)} (h : ls ≠ []) : (a :: ls).getLastD [] = ls.getLastD [] := by
  obtain ⟨l, ls, rfl⟩ := List.exists_cons_of_ne_nil h
  rfl

theorem getLastD_modifyHead {f : List Char → List Char} {ls : List (List Char)} (h : ls ≠ []) :
    (ls.modifyHead f).getLastD [] = if ls.length = 1 then f (ls.getLastD []) else ls.getLastD [] := by
  match ls, h with
  | [l], _ => rfl
  | l :: m :: ls, _ => rfl

/-- The editor has no fewer lines, and as many exactly if no carriage return stands alone; then the last lines are
equal. -/
theorem editorLines_spec (text : List Char) : (lines text).length ≤ (editorLines text).length ∧
    ((editorLines text).length = (lines text).length ↔ noLoneCr text = true) ∧
    (noLoneCr text = true → (editorLines text).getLastD [] = (lines text).getLastD []) := by
  induction text using editorLines.induct with
  | case1 => decide
  | case2 c h =>
      rw [editorLines, if_pos h]
      rcases h with rfl | rfl <;> decide
  | case3 c h =>
      obtain ⟨hn, hr⟩ := not_or.mp h
      rw [editorLines, if_neg h, noLoneCr_cons hr, lines_cons hn, lines_nil]
      exact ⟨le_rfl, ⟨fun _ => rfl, fun _ => rfl⟩, fun _ => rfl⟩
  | case4 c d text h ih =>
      obtain ⟨hle, hiff, hlast⟩ := ih
      rw [editorLines, if_pos h]
      obtain ⟨rfl, rfl⟩ := h
      have hlines : lines ('\r' :: '\n' :: text) = ['\r'] :: lines text := by
        rw [lines_cons (by decide), lines_newline]
        rfl
      have hcr : noLoneCr ('\r' :: '\n' :: text) = noLoneCr text := by
        rw [noLoneCr, noLoneCr_cons (by decide)]
        rfl
      rw [hlines, hcr, List.length_cons, List.length_cons, getLastD_cons_of_ne (editorLines_ne_nil text),
        getLastD_cons_of_ne (lines_ne_nil text)]
      exact ⟨Nat.succ_le_succ hle, Nat.succ_inj.trans hiff, hlast⟩
  | case5 c d text h h' ih =>
      obtain ⟨hle, hiff, hlast⟩ := ih
      rw [editorLines, if_neg h, if_pos h', List.length_cons, getLastD_cons_of_ne (editorLines_ne_nil _)]
      rcases h' with rfl | rfl
      · rw [lines_newline, noLoneCr_cons (by decide), List.length_cons, getLastD_cons_of_ne (lines_ne_nil _)]
        exact ⟨Nat.succ_le_succ hle, Nat.succ_inj.trans hiff, hlast⟩
      · have hcr : noLoneCr ('\r' :: d :: text) = false := by
          have hd : (d == '\n') = false := by simpa using fun hd => h ⟨rfl, hd⟩
          rw [noLoneCr, hd]
          rfl
        rw [lines_cons (by decide), List.length_modifyHead, hcr]
        exact ⟨hle.trans (Nat.le_succ _), ⟨fun heq => by omega, fun h => Bool.noConfusion h⟩, fun h => Bool.noConfusion h⟩
  | case6 c d text h h' ih =>
      obtain ⟨hle, hiff, hlast⟩ := ih
      obtain ⟨hn, hr⟩ := not_or.mp h'
      rw [editorLines, if_neg h, if_neg h', noLoneCr_cons hr, lines_cons hn, List.length_modifyHead, List.length_modifyHead,
        getLastD_modifyHead (editorLines_ne_nil _), getLastD_modifyHead (lines_ne_nil _)]
      exact ⟨hle, hiff, fun hcr => by rw [hiff.mpr hcr, hlast hcr]⟩

/-- **Where the editor counts as the server does**: a text with so many lines, and so many code units in the last. -/
theorem editorPos_iff {line character : ℕ} (hline : (lines text).length = line + 1) :
    editorPos text = ⟨line, character⟩ ↔ noLoneCr text = true ∧ units ((lines text).getLastD []) = character := by
  obtain ⟨hle, hiff, hlast⟩ := editorLines_spec text
  rw [editorPos, Position.mk.injEq]
  constructor
  · rintro ⟨hl, hc⟩
    have hcr := hiff.mp (by omega)
    exact ⟨hcr, hlast hcr ▸ hc⟩
  · rintro ⟨hcr, hc⟩
    exact ⟨by rw [hiff.mpr hcr, hline]; rfl, (hlast hcr).symm ▸ hc⟩

end Lines

/-! ## Tokens in the document -/

/-- A line of the document. -/
def sourceLine (source : List Char) (line : ℕ) : List Char := (lines source).getD (line - 1) []

/-- The line as the lexer reads it. -/
def lexedLine (source : List Char) (line : ℕ) : List Char := sourceLine (Lexer.normalizeIndentation source) line

/-- What stands on its line in front of a place that the lexer counts in the normalized text; normalization only
drops white space at the front of a line. -/
def lineFront (source : List Char) (pos : Visuall.Position) : List Char :=
  (sourceLine source pos.line).take
    (pos.column - 1 + ((sourceLine source pos.line).length - (lexedLine source pos.line).length))

/-- What stands in the document in front of it. -/
def docFront (source : List Char) (pos : Visuall.Position) : List Char :=
  ((lines source).take (pos.line - 1)).flatMap (· ++ ['\n']) ++ lineFront source pos

/-- A range on the screen. -/
structure Span where
  start : Position
  stop : Position
  deriving DecidableEq

/-- The range of a token in the editor. -/
def editorSpan (source : List Char) (t : Token) : Span :=
  ⟨editorPos (docFront source t.pos), editorPos (docFront source (endOf (Lexer.normalizeIndentation source) t))⟩

/-- The range of a token by its line, its column and its lexeme. -/
def lexemeSpan (t : Token) : Span :=
  ⟨⟨t.pos.line - 1, t.pos.column - 1⟩, ⟨t.pos.line - 1, t.pos.column - 1 + t.lexeme.length⟩⟩

/-- The server counts a token as the editor does: it is written on one line, no carriage return stands alone in front
of its end, normalization drops as many columns of its line as this has bytes in front of the token beyond its code
units, and the lexeme drops as many bytes of the token as this has beyond its code units. -/
structure Faithful (source : List Char) (t : Token) : Prop where
  oneLine : '\n' ∉ spelling (Lexer.normalizeIndentation source) t
  noLoneCr : noLoneCr (docFront source (endOf (Lexer.normalizeIndentation source) t)) = true
  indent : ((sourceLine source t.pos.line).length : ℤ) - (lexedLine source t.pos.line).length = surplus (lineFront source t.pos)
  lexeme : ((spelling (Lexer.normalizeIndentation source) t).length : ℤ) - t.lexeme.length =
    surplus (spelling (Lexer.normalizeIndentation source) t)

section Tokens

variable {source before after : List Char} {t : Token}

theorem lines_flatMap {ls : List (List Char)} {x : List Char} (hls : ∀ l ∈ ls, '\n' ∉ l) (hx : '\n' ∉ x) :
    lines (ls.flatMap (· ++ ['\n']) ++ x) = ls ++ [x] := by
  induction ls with
  | nil => exact lines_of_notMem hx
  | cons l ls ih =>
      obtain ⟨hl, hrest⟩ := List.forall_mem_cons.mp hls
      have htext : (l :: ls).flatMap (· ++ ['\n']) ++ x = l ++ '\n' :: (ls.flatMap (· ++ ['\n']) ++ x) := by simp
      rw [htext, lines_append_of_notMem hl (lines_newline _), ih hrest, List.append_nil]
      rfl

theorem lines_docFront (source : List Char) (pos : Visuall.Position) :
    lines (docFront source pos) = (lines source).take (pos.line - 1) ++ [lineFront source pos] := by
  refine lines_flatMap (fun l hl => newline_notMem_lines (List.mem_of_mem_take hl)) fun hmem => ?_
  have hmem' := List.mem_of_mem_take hmem
  rw [sourceLine, List.getD_eq_getElem?_getD] at hmem'
  cases hl : (lines source)[pos.line - 1]? with
  | none =>
      rw [hl] at hmem'
      cases hmem'
  | some l =>
      rw [hl] at hmem'
      exact newline_notMem_lines (List.mem_of_getElem? hl) hmem'

/-- The line of a token: what is in front of the token has the columns that it has there, and in the document as many
more as normalization drops; what is behind is the same. -/
structure OnLine (source : List Char) (t : Token) (rest : List Char) : Prop where
  lexed : ∃ front, lexedLine source t.pos.line = front ++ rest ∧ front.length = t.pos.column - 1
  document : sourceLine source t.pos.line = lineFront source t.pos ++ rest
  shrinks : (lexedLine source t.pos.line).length ≤ (sourceLine source t.pos.line).length
  spelled : '\n' ∉ spelling (Lexer.normalizeIndentation source) t → spelling (Lexer.normalizeIndentation source) t <+: rest

theorem onLine_of_written (h : Written (Lexer.normalizeIndentation source) t before after) : ∃ rest, OnLine source t rest := by
  obtain ⟨c, s, hspelled, hs, htab, hn⟩ := h.spells.head
  obtain ⟨hd, tl, hlines⟩ := lines_eq_cons (s ++ after)
  have hrest : lines (spelling (Lexer.normalizeIndentation source) t ++ after) = (c :: hd) :: tl := by
    rw [hspelled, List.cons_append, lines_cons hn, hlines]
    rfl
  have hne := List.length_pos_iff.mpr (lines_ne_nil before)
  have hpos := h.pos
  rw [afterText_start] at hpos
  have hall : lines (Lexer.normalizeIndentation source) =
      (lines before).dropLast ++ ((lines before).getLastD [] ++ (c :: hd)) :: tl := by
    rw [h.text_eq, lines_append, hrest]
    rfl
  have hget : (lines (Lexer.normalizeIndentation source))[(lines before).length - 1]? =
      some ((lines before).getLastD [] ++ (c :: hd)) := by
    rw [hall, List.getElem?_append_right (by rw [List.length_dropLast]), List.length_dropLast, Nat.sub_self]
    rfl
  -- the line of the document
  have hforall := normalizeIndentation_reindents source
  have hlt : (lines before).length - 1 < (lines (Lexer.normalizeIndentation source)).length := (List.getElem?_eq_some_iff.mp hget).1
  have hlt' : (lines before).length - 1 < (lines source).length := by rwa [hforall.length_eq]
  have hreindented := hforall.get hlt' hlt
  have hlexed : (lines (Lexer.normalizeIndentation source)).get ⟨_, hlt⟩ = (lines before).getLastD [] ++ (c :: hd) :=
    (List.getElem?_eq_some_iff.mp hget).2
  rw [hlexed] at hreindented
  obtain ⟨ws, ws', content, hl, hl', hws, hws', hle, -⟩ := hreindented
  have hsource : sourceLine source t.pos.line = ws ++ content := by
    rw [hpos, sourceLine, List.getD_eq_getElem?_getD, List.getElem?_eq_getElem hlt']
    exact hl
  have hlexedLine : lexedLine source t.pos.line = (lines before).getLastD [] ++ (c :: hd) := by
    rw [hpos, lexedLine, sourceLine, List.getD_eq_getElem?_getD, hget]
    rfl
  -- the token is behind the white space
  obtain ⟨m, hm, hcontent⟩ : ∃ m, (lines before).getLastD [] = ws' ++ m ∧ content = m ++ (c :: hd) := by
    rcases List.append_eq_append_iff.mp hl' with ⟨m, hm, hmc⟩ | ⟨m, hm, hmc⟩
    · cases m with
      | nil => exact ⟨[], by rw [hm]; simp, hmc.symm⟩
      | cons d m =>
          obtain ⟨rfl, -⟩ := List.cons.inj hmc
          rcases hws' c (by rw [hm]; simp) with hc | hc
          · exact absurd hc hs
          · exact absurd hc htab
    · exact ⟨m, hm, hmc⟩
  have hfront : lineFront source t.pos = ws ++ m := by
    rw [lineFront, hsource, hlexedLine, hm, hcontent, hpos, hm, ← List.append_assoc]
    refine List.take_left' ?_
    simp only [List.length_append] at hle ⊢
    omega
  refine ⟨c :: hd, ⟨_, hlexedLine, by rw [hpos]; rfl⟩, ?_, ?_, fun hspell => ?_⟩
  · rw [hsource, hfront, hcontent, List.append_assoc]
  · rw [hsource, hlexedLine, hm, hcontent]
    simp only [List.length_append]
    omega
  · have hsame := lines_append_of_notMem hspell (lines_eq_cons after).choose_spec.choose_spec
    rw [hrest] at hsame
    exact ⟨_, (List.cons.inj hsame).1.symm⟩

theorem OnLine.length {rest : List Char} (h : OnLine source t rest) : (lineFront source t.pos).length =
    t.pos.column - 1 + ((sourceLine source t.pos.line).length - (lexedLine source t.pos.line).length) := by
  obtain ⟨front, hlexed, hfront⟩ := h.lexed
  have hdocument := congrArg List.length h.document
  have hlen := congrArg List.length hlexed
  have hle := h.shrinks
  simp only [List.length_append] at hdocument hlen
  omega

/-- A token on one line: what is in front of its end. -/
theorem OnLine.docFront_end {rest : List Char} (h : OnLine source t rest) (hcol : 1 ≤ t.pos.column)
    (hn : '\n' ∉ spelling (Lexer.normalizeIndentation source) t) :
    endOf (Lexer.normalizeIndentation source) t =
      ⟨t.pos.line, t.pos.column + (spelling (Lexer.normalizeIndentation source) t).length⟩ ∧
      lineFront source (endOf (Lexer.normalizeIndentation source) t) =
        lineFront source t.pos ++ spelling (Lexer.normalizeIndentation source) t := by
  have hend : endOf (Lexer.normalizeIndentation source) t =
      ⟨t.pos.line, t.pos.column + (spelling (Lexer.normalizeIndentation source) t).length⟩ :=
    afterText_of_notMem hn t.pos
  refine ⟨hend, ?_⟩
  obtain ⟨more, hmore⟩ := h.spelled hn
  have hlen := h.length
  rw [hend]
  show (sourceLine source t.pos.line).take (t.pos.column + (spelling (Lexer.normalizeIndentation source) t).length - 1 +
    ((sourceLine source t.pos.line).length - (lexedLine source t.pos.line).length)) = _
  have hcount : t.pos.column + (spelling (Lexer.normalizeIndentation source) t).length - 1 +
      ((sourceLine source t.pos.line).length - (lexedLine source t.pos.line).length) =
      (lineFront source t.pos ++ spelling (Lexer.normalizeIndentation source) t).length := by
    rw [List.length_append, hlen]
    omega
  rw [hcount, h.document, ← hmore, ← List.append_assoc]
  exact List.take_left

/-- What stands in front of a text has no lone carriage return either, unless a newline follows. -/
theorem noLoneCr_of_append {c : Char} {a s : List Char} (hc : c ≠ '\n') (h : noLoneCr (a ++ c :: s) = true) : noLoneCr a = true := by
  induction a with
  | nil => rfl
  | cons d a ih =>
      cases a with
      | nil =>
          have hd : ((d != '\r' || c == '\n') && noLoneCr (c :: s)) = true := h
          have hnot : (c == '\n') = false := by simpa using hc
          rw [hnot, Bool.or_false, Bool.and_eq_true] at hd
          exact hd.1
      | cons e a =>
          rw [List.cons_append, List.cons_append, noLoneCr, Bool.and_eq_true] at h
          rw [noLoneCr, Bool.and_eq_true]
          exact ⟨h.1, ih h.2⟩

/-- **Where a token is in the editor.**  Its range is the one by its line, its column and its lexeme exactly if the
server counts it as the editor does. -/
theorem editorSpan_iff (h : Written (Lexer.normalizeIndentation source) t before after) :
    editorSpan source t = lexemeSpan t ↔ Faithful source t := by
  obtain ⟨rest, honline⟩ := onLine_of_written h
  obtain ⟨c, s, hspelled, -, -, hn⟩ := h.spells.head
  obtain ⟨hline, hcol⟩ := h.one_le
  have hcount : (lines source).length = (lines (Lexer.normalizeIndentation source)).length :=
    (normalizeIndentation_reindents source).length_eq
  have hlines : ∀ pos : Visuall.Position, 1 ≤ pos.line → pos.line ≤ (lines (Lexer.normalizeIndentation source)).length →
      (lines (docFront source pos)).length = pos.line := by
    intro pos h₁ h₂
    rw [lines_docFront, List.length_append, List.length_singleton, List.length_take_of_le (by omega)]
    omega
  have hendline : (endOf (Lexer.normalizeIndentation source) t).line ≤ (lines (Lexer.normalizeIndentation source)).length := by
    conv_rhs => rw [h.text_eq, ← List.append_assoc, lines_append]
    rw [h.endOf, afterText_start, List.length_append, List.length_dropLast, List.length_cons]
    show (lines (before ++ spelling (Lexer.normalizeIndentation source) t)).length ≤ _
    omega
  have hstartline : t.pos.line ≤ (endOf (Lexer.normalizeIndentation source) t).line := by
    rcases upto_afterText t.pos (spelling (Lexer.normalizeIndentation source) t) with hlt | ⟨heq, -⟩
    · exact hlt.le
    · exact heq.le
  have hlast : ∀ pos : Visuall.Position, (lines (docFront source pos)).getLastD [] = lineFront source pos := fun pos => by
    rw [lines_docFront, List.getLastD_concat]
  have hstart : editorPos (docFront source t.pos) = ⟨t.pos.line - 1, t.pos.column - 1⟩ ↔
      noLoneCr (docFront source t.pos) = true ∧ units (lineFront source t.pos) = t.pos.column - 1 := by
    rw [editorPos_iff (by rw [hlines t.pos hline (hstartline.trans hendline)]; omega), hlast]
  have hlen := honline.length
  have hshrinks := honline.shrinks
  rw [editorSpan, lexemeSpan, Span.mk.injEq, hstart]
  by_cases hone : '\n' ∈ spelling (Lexer.normalizeIndentation source) t
  · -- a token of several lines
    refine ⟨fun ⟨_, hstop⟩ => ?_, fun hfaithful => absurd hone hfaithful.oneLine⟩
    have hlt : t.pos.line < (endOf (Lexer.normalizeIndentation source) t).line := line_lt_afterText hone t.pos
    have hle := (editorLines_spec (docFront source (endOf (Lexer.normalizeIndentation source) t))).1
    rw [hlines _ (by omega) hendline] at hle
    have heq : (editorLines (docFront source (endOf (Lexer.normalizeIndentation source) t))).length - 1 = t.pos.line - 1 :=
      congrArg Position.line hstop
    omega
  · obtain ⟨hend, hfront⟩ := honline.docFront_end hcol hone
    have hendeq : (endOf (Lexer.normalizeIndentation source) t).line = t.pos.line := by rw [hend]
    have hdoc : docFront source (endOf (Lexer.normalizeIndentation source) t) =
        docFront source t.pos ++ spelling (Lexer.normalizeIndentation source) t := by
      rw [docFront, docFront, hfront, hendeq, List.append_assoc]
    rw [editorPos_iff (by rw [hlines _ (by omega) hendline, hendeq]; omega), hlast, hfront, units_append]
    constructor
    · rintro ⟨⟨-, hunits⟩, hcr, htotal⟩
      refine ⟨hone, hcr, ?_, ?_⟩
      · rw [surplus, hlen]
        omega
      · rw [surplus]
        omega
    · rintro ⟨-, hcr, hindent, hlexeme⟩
      rw [surplus, hlen] at hindent
      rw [surplus] at hlexeme
      refine ⟨⟨?_, by omega⟩, hcr, by omega⟩
      rw [hdoc, hspelled] at hcr
      exact noLoneCr_of_append hn hcr

end Tokens

end Visuall.Lsp
