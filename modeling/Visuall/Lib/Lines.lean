import Visuall.Lib.Split

/-!
# Lines of a text

A text as the list of its lines, what joining two texts does to their lines, and two texts that differ
line by line in their indentation only.

* `lines`, `lines_append` — the last line of a text goes on with the first line of the next;
* `lines_joinWith` — the lines of lines put together;
* `fullLines` — the lines with their newlines;
* `Reindented` — two lines with one content behind two indentations.
-/

namespace Visuall

/-- The lines of a text. -/
def lines (text : List Char) : List (List Char) := text.splitOn '\n'

variable {a b l l' ws content : List Char} {ls : List (List Char)} {c : Char}

@[simp] theorem lines_nil : lines [] = [[]] := rfl

theorem lines_ne_nil (a : List Char) : lines a ≠ [] := List.splitOnP_ne_nil _ _

@[simp] theorem lines_newline (a : List Char) : lines ('\n' :: a) = [] :: lines a := by
  unfold lines List.splitOn
  rw [List.splitOnP_cons_eq_if_modifyHead]
  rfl

theorem lines_cons (h : c ≠ '\n') (a : List Char) : lines (c :: a) = (lines a).modifyHead (c :: ·) := by
  unfold lines List.splitOn
  rw [List.splitOnP_cons_eq_if_modifyHead]
  simp [h]

theorem lines_eq_cons (a : List Char) : ∃ l ls, lines a = l :: ls :=
  List.exists_cons_of_ne_nil (lines_ne_nil a)

/-- The last line of a text goes on with the first line of the next. -/
theorem lines_append (a b : List Char) :
    lines (a ++ b) = (lines a).dropLast ++ ((lines a).getLastD [] ++ (lines b).headD []) :: (lines b).tail := by
  induction a with
  | nil =>
      obtain ⟨l, ls, hl⟩ := lines_eq_cons b
      simp [hl]
  | cons c a ih =>
      obtain ⟨l, ls, hl⟩ := lines_eq_cons a
      by_cases hc : c = '\n'
      · rw [hc, List.cons_append, lines_newline, lines_newline, ih, hl]
        rfl
      · rw [List.cons_append, lines_cons hc, lines_cons hc, ih, hl]
        -- whether the line that `c` is on is the last one of `a`
        cases ls <;> rfl

/-- A text without a newline is one line. -/
theorem lines_of_notMem (h : '\n' ∉ a) : lines a = [a] := by
  induction a with
  | nil => rfl
  | cons c a ih =>
      rw [List.mem_cons, not_or] at h
      rw [lines_cons (Ne.symm h.1), ih h.2]
      rfl

/-- A text without a newline goes in front of the first line. -/
theorem lines_append_of_notMem (h : '\n' ∉ a) (hb : lines b = l :: ls) :
    lines (a ++ b) = (a ++ l) :: ls := by
  rw [lines_append, lines_of_notMem h, hb]
  rfl

/-- No line has a newline of its own. -/
theorem newline_notMem_lines (h : l ∈ lines a) : '\n' ∉ l := by
  induction a generalizing l with
  | nil =>
      rw [List.mem_singleton.mp h]
      exact List.not_mem_nil
  | cons c a ih =>
      by_cases hc : c = '\n'
      · subst hc
        rw [lines_newline] at h
        rcases List.mem_cons.mp h with rfl | h
        · exact List.not_mem_nil
        · exact ih h
      · obtain ⟨m, ms, hms⟩ := lines_eq_cons a
        rw [lines_cons hc, hms, List.modifyHead_cons] at h
        rcases List.mem_cons.mp h with rfl | h
        · intro hmem
          refine ih (hms ▸ List.mem_cons_self) ((List.mem_cons.mp hmem).resolve_left fun h => hc h.symm)
        · exact ih (hms ▸ List.mem_cons_of_mem _ h)

/-- Lines put together come apart again. -/
theorem lines_joinWith {ms : List (List Char)} (hne : ms ≠ []) (h : ∀ l ∈ ms, '\n' ∉ l) : lines (joinWith '\n' ms) = ms := by
  induction ms with
  | nil => exact absurd rfl hne
  | cons s ms ih =>
      obtain ⟨hs, hms⟩ := List.forall_mem_cons.mp h
      cases ms with
      | nil => exact lines_of_notMem hs
      | cons t ms => rw [joinWith_cons_cons, lines_append_of_notMem hs (lines_newline _), List.append_nil,
          ih (List.cons_ne_nil _ _) hms]

/-! ## Indentations -/

/-- White space at the front of a line. -/
def IsIndent (ws : List Char) : Prop := ∀ c ∈ ws, c = ' ' ∨ c = '\t'

/-- Two lines with one content behind two indentations. -/
def Reindented (l l' : List Char) : Prop :=
  ∃ ws ws' content, l = ws ++ content ∧ l' = ws' ++ content ∧ IsIndent ws ∧ IsIndent ws' ∧
    ws'.length ≤ ws.length ∧ (ws ≠ ws' → ∀ c ∈ content.head?, c ≠ ' ' ∧ c ≠ '\t')

theorem IsIndent.nil : IsIndent [] := by simp [IsIndent]

theorem IsIndent.append (ha : IsIndent a) (hb : IsIndent b) : IsIndent (a ++ b) := by
  intro c hc
  rcases List.mem_append.mp hc with hc | hc
  · exact ha c hc
  · exact hb c hc

theorem IsIndent.spaces (n : ℕ) : IsIndent (List.replicate n ' ') := by
  intro c hc
  exact .inl (List.eq_of_mem_replicate hc)

theorem IsIndent.tab : IsIndent ['\t'] := by simp [IsIndent]

theorem IsIndent.newline_notMem (h : IsIndent ws) : '\n' ∉ ws := by
  intro hmem
  rcases h _ hmem with hc | hc <;> cases hc

theorem Reindented.refl (l : List Char) : Reindented l l :=
  ⟨[], [], l, rfl, rfl, .nil, .nil, le_rfl, fun h => absurd rfl h⟩

/-! ## Lines with their newlines -/

/-- The lines of a text, each with the newline that ends it. -/
def fullLines : List Char → List (List Char)
  | [] => []
  | c :: text =>
    if c = '\n' then ['\n'] :: fullLines text
    else
      match fullLines text with
      | [] => [[c]]
      | l :: ls => (c :: l) :: ls

theorem fullLines_of_notMem (hne : l ≠ []) (h : '\n' ∉ l) : fullLines l = [l] := by
  induction l with
  | nil => exact absurd rfl hne
  | cons c l ih =>
    rw [List.mem_cons, not_or] at h
    rw [fullLines, if_neg (Ne.symm h.1)]
    cases l with
    | nil => rfl
    | cons d l => rw [ih (List.cons_ne_nil _ _) h.2]

theorem fullLines_append (h : '\n' ∉ l) (rest : List Char) :
    fullLines (l ++ '\n' :: rest) = (l ++ ['\n']) :: fullLines rest := by
  induction l with
  | nil => rw [List.nil_append, fullLines, if_pos rfl, List.nil_append]
  | cons c l ih =>
    rw [List.mem_cons, not_or] at h
    rw [List.cons_append, fullLines, if_neg (Ne.symm h.1), ih h.2]
    rfl

/-- A text is empty, or a last line, or a line and a text. -/
@[elab_as_elim]
theorem fullLines_induction {motive : List Char → Prop} (nil : motive []) (last : ∀ l, l ≠ [] → '\n' ∉ l → motive l)
    (line : ∀ l rest, '\n' ∉ l → motive rest → motive (l ++ '\n' :: rest)) (text : List Char) : motive text := by
  induction hn : text.length using Nat.strong_induction_on generalizing text with
  | _ n ih =>
    by_cases h : '\n' ∈ text
    · obtain ⟨l, rest, htext, hl⟩ := List.eq_append_cons_of_mem h
      rw [htext]
      refine line l rest hl (ih rest.length ?_ rest rfl)
      rw [← hn, htext, List.length_append, List.length_cons]
      omega
    · by_cases hne : text = []
      · rw [hne]
        exact nil
      · exact last text hne h

/-- Two texts that begin with a line each. -/
theorem append_newline_inj (ha : '\n' ∉ a) (hb : '\n' ∉ b) {x y : List Char} :
    a ++ '\n' :: x = b ++ '\n' :: y ↔ a = b ∧ x = y := by
  constructor
  · intro h
    induction a generalizing b with
    | nil =>
      cases b with
      | nil => exact ⟨rfl, (List.cons.inj h).2⟩
      | cons d b => exact absurd ((List.cons.inj h).1 ▸ List.mem_cons_self) hb
    | cons c a ih =>
      cases b with
      | nil => exact absurd ((List.cons.inj h).1 ▸ List.mem_cons_self) ha
      | cons d b =>
        obtain ⟨hhead, htail⟩ := List.cons.inj h
        obtain ⟨hab, hxy⟩ := ih (fun hmem => ha (List.mem_cons_of_mem _ hmem))
          (fun hmem => hb (List.mem_cons_of_mem _ hmem)) htail
        exact ⟨by rw [hhead, hab], hxy⟩
  · rintro ⟨rfl, rfl⟩
    rfl

end Visuall
