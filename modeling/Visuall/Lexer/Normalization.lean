import Visuall.Lexer.Tokenize
import Visuall.Lib.Lines

/-!
# Normalization, line by line

`normalizeIndentation` is one loop over the whole source.  Behind a line without text it is not at the start of a line,
and the next line is taken as it stands.

* `unread` — the lines that are taken as they stand;
* `keepsIndentation` — the lines for which that makes no difference;
* `Linewise` — every line is normalized on its own, and spaces by fours are as good as tabs;
* `linewise_iff` — exactly when.
-/

namespace Visuall.Lexer

variable {l v : List Char} {n : ℕ}

/-! ## One line -/

/-- White space at the front of a line. -/
def isIndent (c : Char) : Bool := c == ' ' || c == '\t'

/-- A line without text. -/
def isBlankLine (line : List Char) : Bool := line.dropWhile isIndent == ['\n']

/-- Away from the start of a line, the line is taken as it stands. -/
theorem normalizeFrom_false (h : '\n' ∉ l) (n : ℕ) (rest : List Char) :
    normalizeFrom false n (l ++ '\n' :: rest) = l ++ '\n' :: normalizeFrom true 0 rest := by
  induction l with
  | nil => rw [List.nil_append, normalizeFrom, if_pos rfl, List.nil_append]
  | cons c l ih =>
    rw [List.mem_cons, not_or] at h
    rw [List.cons_append, normalizeFrom, if_neg (Ne.symm h.1), ih h.2]
    rfl

theorem normalizeFrom_false_last (h : '\n' ∉ l) (n : ℕ) : normalizeFrom false n l = l := by
  induction l with
  | nil => rfl
  | cons c l ih =>
    rw [List.mem_cons, not_or] at h
    rw [normalizeFrom, if_neg (Ne.symm h.1), ih h.2]

/-- At its start, a line becomes another line; behind one without text the next is not at its start. -/
theorem normalizeFrom_true (h : '\n' ∉ l) (n : ℕ) : ∃ l', '\n' ∉ l' ∧ ∀ rest,
    normalizeFrom true n (l ++ '\n' :: rest) = l' ++ '\n' :: normalizeFrom (!isBlankLine (l ++ ['\n'])) 0 rest := by
  induction l generalizing n with
  | nil =>
    by_cases hn : 0 < n
    · refine ⟨['\t'], by decide, fun rest => ?_⟩
      rw [List.nil_append, normalizeFrom, if_neg (by decide), if_neg (by decide), if_pos hn]
      rfl
    · refine ⟨[], List.not_mem_nil, fun rest => ?_⟩
      rw [List.nil_append, normalizeFrom, if_neg (by decide), if_neg (by decide), if_neg hn]
      rfl
  | cons c l ih =>
    rw [List.mem_cons, not_or] at h
    by_cases hspace : c = ' '
    · obtain ⟨l', hl', hrest⟩ := ih h.2 (if n + 1 = 4 then 0 else n + 1)
      have hsame : isBlankLine (c :: l ++ ['\n']) = isBlankLine (l ++ ['\n']) := by
        rw [hspace]
        rfl
      by_cases hfour : n + 1 = 4
      · refine ⟨'\t' :: l', by simp [hl'], fun rest => ?_⟩
        rw [if_pos hfour] at hrest
        rw [List.cons_append, normalizeFrom, if_pos hspace, if_pos hfour, hrest, hsame]
        rfl
      · refine ⟨l', hl', fun rest => ?_⟩
        rw [if_neg hfour] at hrest
        rw [List.cons_append, normalizeFrom, if_pos hspace, if_neg hfour, hrest, hsame]
    · by_cases htab : c = '\t'
      · obtain ⟨l', hl', hrest⟩ := ih h.2 0
        have hsame : isBlankLine (c :: l ++ ['\n']) = isBlankLine (l ++ ['\n']) := by
          rw [htab]
          rfl
        by_cases hfew : n ≤ 2
        · refine ⟨List.replicate n ' ' ++ '\t' :: l', by simp [hl'], fun rest => ?_⟩
          rw [List.cons_append, normalizeFrom, if_neg hspace, if_pos htab, if_pos hfew, hrest, hsame, List.append_assoc]
          rfl
        · refine ⟨'\t' :: '\t' :: l', by simp [hl'], fun rest => ?_⟩
          rw [List.cons_append, normalizeFrom, if_neg hspace, if_pos htab, if_neg hfew, hrest, hsame]
          rfl
      · have hother : isIndent c = false := by simp [isIndent, hspace, htab]
        have htext : isBlankLine (c :: l ++ ['\n']) = false := by
          rw [isBlankLine, List.cons_append, List.dropWhile_cons_of_neg (by simp [hother])]
          exact beq_false_of_ne fun heq => h.1 (List.cons.inj heq).1.symm
        by_cases hn : 0 < n
        · refine ⟨'\t' :: c :: l, by simp [h.1, h.2], fun rest => ?_⟩
          rw [List.cons_append, normalizeFrom, if_neg hspace, if_neg htab, if_pos hn, normalizeFrom_false h.2,
            ← List.cons_append, htext]
          rfl
        · refine ⟨c :: l, by simp [h.1, h.2], fun rest => ?_⟩
          rw [List.cons_append, normalizeFrom, if_neg hspace, if_neg htab, if_neg hn, normalizeFrom_false h.2,
            ← List.cons_append, htext]
          rfl

/-- One line with the newline that ends it, if any: away from the start of a line it is taken as it stands. -/
theorem normalizeFrom_false_line (h : '\n' ∉ v.dropLast) (n : ℕ) : normalizeFrom false n v = v := by
  induction v with
  | nil => rfl
  | cons c v ih =>
    cases v with
    | nil =>
      show (if c = '\n' then c :: [] else c :: []) = [c]
      rw [ite_self]
    | cons d v =>
      rw [List.dropLast_cons_cons, List.mem_cons, not_or] at h
      rw [normalizeFrom, if_neg (Ne.symm h.1), ih h.2]

/-- Behind three spaces no line begins with a space. -/
theorem normalizeFrom_three (v : List Char) : (normalizeFrom true 3 v).head? ≠ some ' ' := by
  cases v with
  | nil => simp [normalizeFrom]
  | cons c v =>
    by_cases hspace : c = ' '
    · simp [normalizeFrom, hspace]
    · by_cases htab : c = '\t' <;> simp [normalizeFrom, hspace, htab]

/-- No space stands in front of the text of a line, behind its last tab, and at most two in front of each tab; `n`
of those in front of the next tab are already read. -/
def keepsIndentation : ℕ → List Char → Bool
  | n, [] => n == 0
  | n, c :: line =>
    if c = ' ' then n < 2 && keepsIndentation (n + 1) line
    else if c = '\t' then keepsIndentation 0 line
    else n == 0

theorem normalizeFrom_keeps (h : '\n' ∉ v.dropLast) (hn : n ≤ 2) :
    normalizeFrom true n v = List.replicate n ' ' ++ v ↔ keepsIndentation n v = true := by
  induction v generalizing n with
  | nil => cases n <;> simp [normalizeFrom, keepsIndentation, List.replicate_succ]
  | cons c v ih =>
    have htail : '\n' ∉ v.dropLast := by
      cases v with
      | nil => exact List.not_mem_nil
      | cons d v => exact fun hmem => h (List.mem_cons_of_mem c hmem)
    by_cases hspace : c = ' '
    · have hshift : List.replicate n ' ' ++ c :: v = List.replicate (n + 1) ' ' ++ v := by
        rw [hspace, List.replicate_succ', List.append_assoc, List.singleton_append]
      rw [normalizeFrom, if_pos hspace, if_neg (by omega), hshift, keepsIndentation, if_pos hspace]
      by_cases htwo : n = 2
      · -- the third space makes a tab of the three, or of the four
        rw [htwo]
        refine iff_of_false (fun heq => normalizeFrom_three v ?_) (by simp)
        rw [heq]
        rfl
      · rw [ih htail (by omega)]
        simp [show n < 2 by omega]
    · by_cases htab : c = '\t'
      · rw [normalizeFrom, if_neg hspace, if_pos htab, if_pos hn, keepsIndentation, if_neg hspace, if_pos htab, htab,
          List.append_cancel_left_eq, List.cons_inj_right, ← ih htail (Nat.zero_le 2)]
        rfl
      · rw [normalizeFrom, if_neg hspace, if_neg htab, keepsIndentation, if_neg hspace, if_neg htab]
        cases n with
        | zero =>
          have hrest : normalizeFrom false 0 v = v := normalizeFrom_false_line htail 0
          simp [hrest]
        | succ n => simp [List.replicate_succ]

/-- When one line stays as it is. -/
theorem normalizeIndentation_keeps (h : '\n' ∉ v.dropLast) :
    normalizeIndentation v = v ↔ keepsIndentation 0 v = true := by
  rw [← normalizeFrom_keeps h (Nat.zero_le 2)]
  rfl

/-! ## All lines -/

/-- The lines that are taken as they stand: each one behind a line without text that is not itself one of them. -/
def unread : Bool → List (List Char) → List (List Char)
  | _, [] => []
  | true, line :: lines => unread (!isBlankLine line) lines
  | false, line :: lines => line :: unread true lines

/-- A source is normalized line by line where the lines that are taken as they stand would stay as they are. -/
theorem normalizeFrom_iff (text : List Char) (atLineStart : Bool) :
    normalizeFrom atLineStart 0 text = ((fullLines text).map normalizeIndentation).flatten ↔
      ∀ v ∈ unread atLineStart (fullLines text), normalizeIndentation v = v := by
  induction text using fullLines_induction generalizing atLineStart with
  | nil => cases atLineStart <;> simp [normalizeFrom, fullLines, unread]
  | last l hne hl =>
    rw [fullLines_of_notMem hne hl]
    cases atLineStart with
    | true => simp [unread, normalizeIndentation]
    | false =>
      rw [normalizeFrom_false_last hl]
      simp [unread, eq_comm]
  | line l rest hl ih =>
    obtain ⟨l', hl', hline⟩ := normalizeFrom_true hl 0
    have hown : normalizeIndentation (l ++ ['\n']) = l' ++ ['\n'] := by
      rw [normalizeIndentation, hline []]
      cases isBlankLine (l ++ ['\n']) <;> rfl
    rw [fullLines_append hl, List.map_cons, List.flatten_cons, hown, List.append_assoc]
    cases atLineStart with
    | true =>
      rw [hline]
      show l' ++ '\n' :: _ = l' ++ '\n' :: _ ↔ _
      rw [append_newline_inj hl' hl', unread]
      simp only [true_and]
      exact ih _
    | false =>
      rw [normalizeFrom_false hl]
      show l ++ '\n' :: _ = l' ++ '\n' :: _ ↔ _
      rw [append_newline_inj hl hl', unread, List.forall_mem_cons, hown, ← ih true, List.append_left_inj, eq_comm]
      exact Iff.rfl

theorem mem_of_mem_unread {lines : List (List Char)} {atLineStart : Bool} (h : v ∈ unread atLineStart lines) : v ∈ lines := by
  induction lines generalizing atLineStart with
  | nil => cases atLineStart <;> exact absurd h List.not_mem_nil
  | cons line lines ih =>
    cases atLineStart with
    | true => exact List.mem_cons_of_mem _ (ih h)
    | false =>
      rcases List.mem_cons.mp h with rfl | h
      · exact List.mem_cons_self
      · exact List.mem_cons_of_mem _ (ih h)

/-! ## Spaces by fours -/

/-- The spaces at the front of the line come by fours, with no further white space behind them. -/
def IndentedByFour (line : List Char) : Prop :=
  ∃ k rest, line = List.replicate (4 * k) ' ' ++ rest ∧ ∀ c ∈ rest.head?, isIndent c = false

/-- The line with a tab for each four of the spaces at its front. -/
def tabLine (line : List Char) : List Char :=
  List.replicate ((line.takeWhile (· == ' ')).length / 4) '\t' ++ line.dropWhile (· == ' ')

/-- The program indented by tabs. -/
def tabIndented (source : List Char) : List Char := ((fullLines source).map tabLine).flatten

/-- Each line is normalized on its own, and a program indented by spaces is the program indented by tabs. -/
structure Linewise (source : List Char) : Prop where
  lines : normalizeIndentation source = ((fullLines source).map normalizeIndentation).flatten
  tabs : (∀ line ∈ fullLines source, IndentedByFour line) →
    normalizeIndentation source = tabIndented source ∧
      ∀ filename, tokenize source filename = tokenize (tabIndented source) filename

theorem takeWhile_spaces (k : ℕ) {rest : List Char} (h : ∀ c ∈ rest.head?, isIndent c = false) :
    (List.replicate k ' ' ++ rest).takeWhile (· == ' ') = List.replicate k ' ' := by
  rw [List.takeWhile_append_of_pos (by simp)]
  cases rest with
  | nil => simp
  | cons c rest =>
    have hc : (c == ' ') = false := by
      have hother := h c rfl
      simp only [isIndent, Bool.or_eq_false_iff] at hother
      exact hother.1
    rw [List.takeWhile_cons_of_neg (by simp [hc]), List.append_nil]

theorem tabLine_spaces (k : ℕ) {rest : List Char} (h : ∀ c ∈ rest.head?, isIndent c = false) :
    tabLine (List.replicate (4 * k) ' ' ++ rest) = List.replicate k '\t' ++ rest := by
  have hfront := takeWhile_spaces (4 * k) h
  have hback : (List.replicate (4 * k) ' ' ++ rest).dropWhile (· == ' ') = rest := by
    have hsplit := List.takeWhile_append_dropWhile (p := (· == ' ')) (l := List.replicate (4 * k) ' ' ++ rest)
    rw [hfront] at hsplit
    exact List.append_cancel_left hsplit
  rw [tabLine, hfront, hback, List.length_replicate, Nat.mul_div_cancel_left k (by decide)]

/-- Four spaces are a tab. -/
theorem normalizeFrom_spaces (k : ℕ) (rest : List Char) :
    normalizeFrom true 0 (List.replicate (4 * k) ' ' ++ rest) = List.replicate k '\t' ++ normalizeFrom true 0 rest := by
  induction k with
  | zero => rfl
  | succ k ih =>
    show '\t' :: normalizeFrom true 0 (List.replicate (4 * k) ' ' ++ rest)
      = '\t' :: (List.replicate k '\t' ++ normalizeFrom true 0 rest)
    rw [ih]

/-- Tabs are tabs. -/
theorem normalizeFrom_tabs (k : ℕ) (rest : List Char) :
    normalizeFrom true 0 (List.replicate k '\t' ++ rest) = List.replicate k '\t' ++ normalizeFrom true 0 rest := by
  induction k with
  | zero => rfl
  | succ k ih =>
    rw [List.replicate_succ, List.cons_append, List.cons_append, ← ih]
    rfl

/-- Text is text. -/
theorem normalizeFrom_text (hv : '\n' ∉ v.dropLast) (h : ∀ c ∈ v.head?, isIndent c = false) :
    normalizeFrom true 0 v = v := by
  cases v with
  | nil => rfl
  | cons c v =>
    have hother := h c rfl
    simp only [isIndent, Bool.or_eq_false_iff, beq_eq_false_iff_ne] at hother
    have htail : '\n' ∉ v.dropLast := by
      cases v with
      | nil => exact List.not_mem_nil
      | cons d v => exact fun hmem => hv (List.mem_cons_of_mem c hmem)
    rw [normalizeFrom, if_neg hother.1, if_neg hother.2, if_neg (lt_irrefl 0), normalizeFrom_false_line htail]

/-- A line by fours becomes its line by tabs, and that one stays. -/
theorem normalizeIndentation_byFour (hv : '\n' ∉ v.dropLast) (h : IndentedByFour v) :
    normalizeIndentation v = tabLine v ∧ normalizeIndentation (tabLine v) = tabLine v := by
  obtain ⟨k, rest, rfl, hrest⟩ := h
  have hline : '\n' ∉ rest.dropLast := by
    intro hmem
    refine hv ?_
    rw [List.dropLast_append_of_ne_nil (by rintro rfl; exact absurd hmem List.not_mem_nil)]
    exact List.mem_append_right _ hmem
  constructor
  · rw [normalizeIndentation, normalizeFrom_spaces, normalizeFrom_text hline hrest, tabLine_spaces k hrest]
  · rw [tabLine_spaces k hrest, normalizeIndentation, normalizeFrom_tabs, normalizeFrom_text hline hrest]

theorem tabLine_newline (l : List Char) : tabLine (l ++ ['\n']) = tabLine l ++ ['\n'] := by
  have hfront : (l ++ ['\n']).takeWhile (· == ' ') = l.takeWhile (· == ' ') := by
    rw [List.takeWhile_append]
    split_ifs with hall
    · rw [(List.takeWhile_sublist _).eq_of_length hall]
      simp
    · rfl
  have hback : (l ++ ['\n']).dropWhile (· == ' ') = l.dropWhile (· == ' ') ++ ['\n'] := by
    rw [List.dropWhile_append]
    split_ifs with hall
    · rw [List.isEmpty_iff.mp hall]
      rfl
    · rfl
  rw [tabLine, hfront, hback, ← List.append_assoc]
  rfl

theorem newline_notMem_tabLine (h : '\n' ∉ l) : '\n' ∉ tabLine l := by
  rw [tabLine, List.mem_append, not_or]
  exact ⟨fun hmem => absurd (List.eq_of_mem_replicate hmem) (by decide), fun hmem => h ((List.dropWhile_sublist _).mem hmem)⟩

/-- A program indented by tabs stays as it is, also where its lines are taken as they stand. -/
theorem normalizeFrom_tabIndented (source : List Char) (h : ∀ line ∈ fullLines source, IndentedByFour line)
    (atLineStart : Bool) : normalizeFrom atLineStart 0 (tabIndented source) = tabIndented source := by
  induction source using fullLines_induction generalizing atLineStart with
  | nil => cases atLineStart <;> rfl
  | last l hne hl =>
    rw [fullLines_of_notMem hne hl, List.forall_mem_singleton] at h
    have hlines : tabIndented l = tabLine l := by
      rw [tabIndented, fullLines_of_notMem hne hl, List.map_singleton, List.flatten_singleton]
    rw [hlines]
    cases atLineStart with
    | true => exact (normalizeIndentation_byFour (fun hmem => hl (List.mem_of_mem_dropLast hmem)) h).2
    | false => exact normalizeFrom_false_last (newline_notMem_tabLine hl) 0
  | line l rest hl ih =>
    rw [fullLines_append hl, List.forall_mem_cons] at h
    have hlines : tabIndented (l ++ '\n' :: rest) = tabLine l ++ '\n' :: tabIndented rest := by
      rw [tabIndented, fullLines_append hl, List.map_cons, List.flatten_cons, tabLine_newline, List.append_assoc]
      rfl
    have htab := newline_notMem_tabLine hl
    rw [hlines]
    cases atLineStart with
    | true =>
      obtain ⟨l', hl', hline⟩ := normalizeFrom_true htab 0
      have hown := (normalizeIndentation_byFour (by rwa [List.dropLast_concat]) h.1).2
      rw [tabLine_newline, normalizeIndentation, hline []] at hown
      rw [hline, ih h.2, ((append_newline_inj hl' htab).mp hown).1]
    | false => rw [normalizeFrom_false htab, ih h.2]

theorem tokenize_congr {source source' : List Char} (h : normalizeIndentation source = normalizeIndentation source')
    (filename : String) : tokenize source filename = tokenize source' filename := by
  have hstart : initial source filename = initial source' filename := by rw [initial, initial, h]
  rw [tokenize, finalState, hstart]
  rfl

/-! ## The law -/

theorem line_of_mem_fullLines {text : List Char} (h : v ∈ fullLines text) : '\n' ∉ v.dropLast := by
  induction text using fullLines_induction with
  | nil => exact absurd h List.not_mem_nil
  | last l hne hl =>
    rw [fullLines_of_notMem hne hl, List.mem_singleton] at h
    rw [h]
    exact fun hmem => hl (List.mem_of_mem_dropLast hmem)
  | line l rest hl ih =>
    rw [fullLines_append hl, List.mem_cons] at h
    rcases h with rfl | h
    · rwa [List.dropLast_concat]
    · exact ih h

/-- Where each line is normalized on its own, spaces by fours are as good as tabs. -/
theorem tabs_of_lines {source : List Char}
    (hlines : normalizeIndentation source = ((fullLines source).map normalizeIndentation).flatten)
    (h : ∀ line ∈ fullLines source, IndentedByFour line) :
    normalizeIndentation source = tabIndented source ∧
      ∀ filename, tokenize source filename = tokenize (tabIndented source) filename := by
  have hmap : (fullLines source).map normalizeIndentation = (fullLines source).map tabLine :=
    List.map_congr_left fun line hline => (normalizeIndentation_byFour (line_of_mem_fullLines hline) (h line hline)).1
  have htabs : normalizeIndentation source = tabIndented source := by rw [hlines, hmap, tabIndented]
  refine ⟨htabs, tokenize_congr ?_⟩
  rw [htabs]
  exact (normalizeFrom_tabIndented source h true).symm

/-- Lines are normalized each on its own exactly where every line that is taken as it stands has no space in front of its
text and at most two in front of each tab. -/
theorem linewise_iff (source : List Char) :
    Linewise source ↔ ∀ v ∈ unread true (fullLines source), keepsIndentation 0 v = true := by
  have hkeeps : (∀ v ∈ unread true (fullLines source), normalizeIndentation v = v) ↔
      ∀ v ∈ unread true (fullLines source), keepsIndentation 0 v = true :=
    forall₂_congr fun v hv => normalizeIndentation_keeps (line_of_mem_fullLines (mem_of_mem_unread hv))
  rw [← hkeeps, ← normalizeFrom_iff source true]
  exact ⟨fun h => h.lines, fun h => ⟨h, tabs_of_lines h⟩⟩

/-- A body behind a blank line: its four spaces stay, and the tokenizer refuses them. -/
theorem indented_behind_blank :
    ¬ Linewise "if a:\n\n    b\n".toList ∧
      (tokenize "if a:\n\n    b\n".toList "").toOption = none ∧
      (tokenize (tabIndented "if a:\n\n    b\n".toList) "").toOption ≠ none := by
  refine ⟨fun h => absurd h.lines (by decide), by decide +kernel, by decide +kernel⟩

end Visuall.Lexer
