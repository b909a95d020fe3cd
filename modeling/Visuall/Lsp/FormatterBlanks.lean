import Visuall.Lsp.FormatterLines

/-!
# The formatter on blank lines

A list of lines as its nonblank lines with the numbers of blank lines in front of them.  The second and the third phase
change these numbers only, each by what stands before and behind the blank lines.

* `unroll`, `exists_blocks`, `unroll_inj` — the lines of such a list, and that every list of lines has one;
* `clean_layOut` — both phases;
* `newGap_idem_iff` — when a gap stays as the first run leaves it;
* `blanksOk_iff` — the same for all gaps, read off the lines.
-/

namespace Visuall.Lsp

/-- A line that is not blank, and the number of blank lines in front of it. -/
abbrev Block := ℕ × Line

def unroll (blocks : List Block) : List Line := blocks.flatMap fun b => List.replicate b.1 [] ++ [b.2]

/-- No line is blank that should not be. -/
def Solids (blocks : List Block) : Prop := ∀ b ∈ blocks, isBlank b.2 = false

/-- Every gap is changed by what is in front of it and behind it. -/
def regap (gap : Line → Block → ℕ) : Line → List Block → List Block
  | _, [] => []
  | prev, b :: bs => (gap prev b, b.2) :: regap gap b.2 bs

/-- The gap that the second phase leaves. -/
def lead (prev : Line) (b : Block) : ℕ :=
  if isClassDef b.2 then 2 else if isTopLevelDef b.2 ∧ b.1 = 0 ∧ isComment prev = false then 1 else b.1

/-- Of several blank lines, the third phase leaves out the last. -/
def squeeze (n : ℕ) : ℕ := if n ≤ 1 then n else n - 1

/-- The gap that both phases leave. -/
def newGap (prev : Line) (b : Block) : ℕ := squeeze (if opensBlock prev then lead prev b - 1 else lead prev b)

/-- Both phases on the gaps. -/
def spacing : List Block → List Block
  | [] => []
  | b :: bs => (0, b.2) :: regap newGap b.2 bs

section Blocks

variable {blocks blocks' bs : List Block} {b : Block} {l p : Line} {ls result cleaned rest : List Line} {m n k : ℕ}

theorem unroll_cons (b : Block) (bs : List Block) : unroll (b :: bs) = List.replicate b.1 [] ++ b.2 :: unroll bs := by
  rw [unroll, List.flatMap_cons, List.append_assoc]
  rfl

theorem unroll_append (bs bs' : List Block) : unroll (bs ++ bs') = unroll bs ++ unroll bs' := List.flatMap_append

theorem ne_nil_of_solid (h : isBlank l = false) : l ≠ [] := by
  rintro rfl
  cases h

/-- Lines among which the blank ones are empty. -/
theorem exists_blocks (h : ∀ l ∈ ls, isBlank l = true → l = []) :
    ∃ blocks m, ls = unroll blocks ++ List.replicate m [] ∧ Solids blocks := by
  induction ls with
  | nil => exact ⟨[], 0, rfl, fun _ h => by cases h⟩
  | cons l ls ih =>
      obtain ⟨hl, hls⟩ := List.forall_mem_cons.mp h
      obtain ⟨blocks, m, rfl, hsolid⟩ := ih hls
      cases hblank : isBlank l with
      | false =>
          refine ⟨(0, l) :: blocks, m, ?_, List.forall_mem_cons.mpr ⟨hblank, hsolid⟩⟩
          rw [unroll_cons]
          rfl
      | true =>
          rw [hl hblank]
          cases blocks with
          | nil => exact ⟨[], m + 1, rfl, hsolid⟩
          | cons b bs =>
              refine ⟨(b.1 + 1, b.2) :: bs, m, ?_, List.forall_mem_cons.mpr (List.forall_mem_cons.mp hsolid)⟩
              rw [unroll_cons, unroll_cons, List.replicate_succ]
              rfl

theorem replicate_cons_inj {l' : Line} {ls' : List Line} (hl : l ≠ []) (hl' : l' ≠ [])
    (h : List.replicate n [] ++ l :: ls = List.replicate k [] ++ l' :: ls') : n = k ∧ l = l' ∧ ls = ls' := by
  induction n generalizing k with
  | zero =>
      cases k with
      | zero => exact ⟨rfl, List.cons.inj h⟩
      | succ k => exact absurd (List.cons.inj h).1 hl
  | succ n ih =>
      cases k with
      | zero => exact absurd (List.cons.inj h).1.symm hl'
      | succ k =>
          obtain ⟨hn, hrest⟩ := ih (List.cons.inj h).2
          exact ⟨congrArg _ hn, hrest⟩

/-- A list of lines has its blocks in one way. -/
theorem unroll_inj (hsolid : Solids blocks) (hsolid' : Solids blocks')
    (h : unroll blocks ++ List.replicate m [] = unroll blocks' ++ List.replicate n []) : blocks = blocks' := by
  have hblank : ∀ {b : Block} {bs : List Block} {m n : ℕ}, isBlank b.2 = false →
      List.replicate m [] ≠ unroll (b :: bs) ++ List.replicate n [] := by
    intro b bs m n hb heq
    refine ne_nil_of_solid hb (List.eq_of_mem_replicate (n := m) (heq ▸ ?_))
    rw [unroll_cons]
    exact List.mem_append_left _ (List.mem_append_right _ List.mem_cons_self)
  induction blocks generalizing blocks' with
  | nil =>
      cases blocks' with
      | nil => rfl
      | cons b bs => exact absurd h (hblank (List.forall_mem_cons.mp hsolid').1)
  | cons b bs ih =>
      obtain ⟨hb, hbs⟩ := List.forall_mem_cons.mp hsolid
      cases blocks' with
      | nil => exact absurd h.symm (hblank hb)
      | cons b' bs' =>
          obtain ⟨hb', hbs'⟩ := List.forall_mem_cons.mp hsolid'
          rw [unroll_cons, unroll_cons, List.append_assoc, List.append_assoc] at h
          obtain ⟨hn, hl, hrest⟩ := replicate_cons_inj (ne_nil_of_solid hb) (ne_nil_of_solid hb') h
          rw [ih hbs hbs' hrest, Prod.ext hn hl]

/-! ## The second phase -/

theorem layOutStep_blank (h : result ≠ []) : layOutStep result [] = result ++ [[]] := by
  rw [layOutStep, if_neg fun hh => h hh.1, if_neg fun hh => absurd hh.1 (by decide), if_neg fun hh => absurd hh.1 (by decide)]

theorem foldl_blanks (h : result ≠ []) (n : ℕ) :
    (List.replicate n []).foldl layOutStep result = result ++ List.replicate n [] := by
  induction n generalizing result with
  | zero => exact (List.append_nil _).symm
  | succ n ih =>
      have hne : result ++ [[]] ≠ [] := List.append_ne_nil_of_right_ne_nil _ (List.cons_ne_nil _ _)
      rw [List.replicate_succ, List.foldl_cons, layOutStep_blank h, ih hne, List.append_assoc]
      rfl

theorem rdropWhile_blanks (hlast : result.getLast? = some p) (hp : isBlank p = false) (n : ℕ) :
    (result ++ List.replicate n []).rdropWhile isBlank = result := by
  induction n with
  | zero =>
      rw [List.replicate_zero, List.append_nil]
      refine List.rdropWhile_eq_self_iff.mpr fun hne hblank => ?_
      rw [List.getLast?_eq_some_getLast hne] at hlast
      cases hlast
      rw [hp] at hblank
      cases hblank
  | succ n ih => rw [List.replicate_succ', ← List.append_assoc, List.rdropWhile_concat_pos _ _ _ rfl, ih]

/-- The second phase on a line and the blank lines in front of it. -/
theorem layOut_block (hlast : result.getLast? = some p) (hp : isBlank p = false) (hb : isBlank b.2 = false) :
    (List.replicate b.1 [] ++ [b.2]).foldl layOutStep result = result ++ (List.replicate (lead p b) [] ++ [b.2]) := by
  have hne : result ≠ [] := by
    rintro rfl
    cases hlast
  rw [List.foldl_append, foldl_blanks hne, List.foldl_cons, List.foldl_nil, layOutStep, if_neg fun h => by
    rw [hb] at h
    cases h.2]
  have hne' : result ++ List.replicate b.1 [] ≠ [] := List.append_ne_nil_of_left_ne_nil hne _
  by_cases hclass : isClassDef b.2
  · rw [if_pos ⟨hclass, hne'⟩, rdropWhile_blanks hlast hp, lead, if_pos hclass]
    rfl
  · rw [if_neg fun h => hclass h.1, lead, if_neg hclass]
    have hiff : (isTopLevelDef b.2 ∧ (result ++ List.replicate b.1 []).getLast?.any (fun last => !isBlank last && !isComment last)) ↔
        isTopLevelDef b.2 ∧ b.1 = 0 ∧ isComment p = false := by
      refine and_congr_right fun _ => ?_
      cases hn : b.1 with
      | zero =>
          rw [List.replicate_zero, List.append_nil, hlast, Option.any_some, hp]
          simp
      | succ n =>
          rw [List.replicate_succ', ← List.append_assoc, List.getLast?_concat, Option.any_some]
          simp [isBlank]
    by_cases htop : isTopLevelDef b.2 ∧ b.1 = 0 ∧ isComment p = false
    · rw [if_pos (hiff.mpr htop), if_pos htop, htop.2.1, List.replicate_zero, List.append_nil]
      rfl
    · rw [if_neg fun h => htop (hiff.mp h), if_neg htop, List.append_assoc]

theorem layOut_blocks (hlast : result.getLast? = some p) (hp : isBlank p = false) (hsolid : Solids bs) :
    (unroll bs).foldl layOutStep result = result ++ unroll (regap lead p bs) := by
  induction bs generalizing result p with
  | nil => exact (List.append_nil _).symm
  | cons b bs ih =>
      obtain ⟨hb, hbs⟩ := List.forall_mem_cons.mp hsolid
      have hlast' : (result ++ (List.replicate (lead p b) [] ++ [b.2])).getLast? = some b.2 := by
        rw [← List.append_assoc, List.getLast?_concat]
      rw [unroll, List.flatMap_cons, List.foldl_append, layOut_block hlast hp hb]
      refine (ih hlast' hb hbs).trans ?_
      rw [regap, unroll_cons, List.append_assoc, List.append_assoc]
      rfl

/-! ## The third phase -/

theorem cleanLoop_line (hl : isBlank l = false) (prev : Option Line) :
    cleanLoop prev cleaned (l :: rest) = cleanLoop (some l) (cleaned ++ [l]) rest := by
  have hnot : ¬ isBlank l = true := by
    rw [hl]
    exact Bool.false_ne_true
  rw [cleanLoop, if_neg fun h => hnot h.1, if_neg fun h => hnot h.1]

/-- Blank lines behind a blank one. -/
theorem cleanLoop_more (hl : isBlank l = false) (hlast : cleaned.getLast? = some []) (n : ℕ) :
    cleanLoop (some []) cleaned (List.replicate n [] ++ l :: rest) =
      cleanLoop (some l) (cleaned ++ (List.replicate (n - 1) [] ++ [l])) rest := by
  induction n generalizing cleaned with
  | zero => exact cleanLoop_line hl _
  | succ n ih =>
      rw [List.replicate_succ, List.cons_append, cleanLoop, if_neg fun h => absurd h.2 (by decide)]
      cases n with
      | zero =>
          have hskip : isBlank [] ∧ (l :: rest).head?.any (!isBlank ·) ∧ (some ([] : Line)).isSome ∧ cleaned.getLast?.any isBlank := by
            rw [hlast, List.head?_cons, Option.any_some, hl]
            decide
          rw [List.replicate_zero, List.nil_append, if_pos hskip]
          exact cleanLoop_line hl _
      | succ n =>
          rw [if_neg fun h => Bool.false_ne_true h.2.1, ih (List.getLast?_concat ..), List.append_assoc]
          rfl

/-- Blank lines behind a line that opens no block. -/
theorem cleanLoop_gap {prev : Line} (hl : isBlank l = false) (hprev : opensBlock prev = false) (hlast : cleaned.getLast? = some p)
    (hp : isBlank p = false) (n : ℕ) : cleanLoop (some prev) cleaned (List.replicate n [] ++ l :: rest) =
      cleanLoop (some l) (cleaned ++ (List.replicate (squeeze n) [] ++ [l])) rest := by
  cases n with
  | zero => exact cleanLoop_line hl _
  | succ n =>
      rw [List.replicate_succ, List.cons_append, cleanLoop, if_neg fun h => ?_, if_neg fun h => ?_]
      · rw [cleanLoop_more hl (List.getLast?_concat ..), List.append_assoc]
        cases n <;> rfl
      · rw [hlast, Option.any_some, hp] at h
        cases h.2.2.2
      · rw [Option.any_some, hprev] at h
        cases h.2

theorem clean_block (hlast : cleaned.getLast? = some p) (hp : isBlank p = false) (hb : isBlank b.2 = false) :
    cleanLoop (some p) cleaned (List.replicate b.1 [] ++ b.2 :: rest) =
      cleanLoop (some b.2) (cleaned ++ (List.replicate (squeeze (if opensBlock p then b.1 - 1 else b.1)) [] ++ [b.2])) rest := by
  cases hopens : opensBlock p with
  | false => exact cleanLoop_gap hb hopens hlast hp b.1
  | true =>
      cases hn : b.1 with
      | zero => exact cleanLoop_line hb _
      | succ n =>
          rw [List.replicate_succ, List.cons_append, cleanLoop, if_pos ⟨rfl, by rw [Option.any_some, hopens]⟩]
          exact cleanLoop_gap hb rfl hlast hp n

theorem clean_blocks (hlast : cleaned.getLast? = some p) (hp : isBlank p = false) (hsolid : Solids bs) :
    cleanLoop (some p) cleaned (unroll bs) =
      cleaned ++ unroll (regap (fun p b => squeeze (if opensBlock p then b.1 - 1 else b.1)) p bs) := by
  induction bs generalizing cleaned p with
  | nil => exact (List.append_nil _).symm
  | cons b bs ih =>
      obtain ⟨hb, hbs⟩ := List.forall_mem_cons.mp hsolid
      rw [unroll_cons, clean_block hlast hp hb, ih ?_ hb hbs, regap, unroll_cons, List.append_assoc, List.append_assoc]
      · rfl
      · rw [← List.append_assoc, List.getLast?_concat]

theorem regap_regap (g g' : Line → Block → ℕ) (p : Line) (bs : List Block) :
    regap g' p (regap g p bs) = regap (fun p b => g' p (g p b, b.2)) p bs := by
  induction bs generalizing p with
  | nil => rfl
  | cons b bs ih => rw [regap, regap, regap, ih]

theorem regap_solids (g : Line → Block → ℕ) (p : Line) (h : Solids bs) : Solids (regap g p bs) := by
  induction bs generalizing p with
  | nil => exact h
  | cons b bs ih =>
      obtain ⟨hb, hbs⟩ := List.forall_mem_cons.mp h
      exact List.forall_mem_cons.mpr ⟨hb, ih b.2 hbs⟩

theorem foldl_leading (n : ℕ) : (List.replicate n []).foldl layOutStep [] = [] := by
  induction n with
  | zero => rfl
  | succ n ih => exact ih

theorem getLast?_unroll (b : Block) (bs : List Block) (hsolid : Solids (b :: bs)) :
    ∃ p, (unroll (b :: bs)).getLast? = some p ∧ isBlank p = false := by
  induction bs using List.reverseRecOn with
  | nil => exact ⟨b.2, by rw [unroll_cons, List.getLast?_append_of_ne_nil _ (List.cons_ne_nil _ _)]; rfl, hsolid b List.mem_cons_self⟩
  | append_singleton bs c _ =>
      refine ⟨c.2, ?_, hsolid c (List.mem_cons_of_mem _ (List.mem_append_right _ List.mem_cons_self))⟩
      rw [← List.cons_append, unroll_append, unroll_cons c, List.getLast?_append_of_ne_nil _ (by simp),
        List.getLast?_append_of_ne_nil _ (List.cons_ne_nil _ _)]
      rfl

/-- The second and the third phase. -/
theorem clean_layOut (hsolid : Solids blocks) (m : ℕ) :
    clean (layOut (unroll blocks ++ List.replicate m [])) = unroll (spacing blocks) := by
  cases blocks with
  | nil =>
      have hnil : layOut (unroll [] ++ List.replicate m []) = [] := by
        show ((List.replicate m []).foldl layOutStep []).rdropWhile isBlank = []
        rw [foldl_leading]
        rfl
      rw [hnil]
      rfl
  | cons b bs =>
      obtain ⟨hb, hbs⟩ := List.forall_mem_cons.mp hsolid
      have hfirst : layOutStep [] b.2 = [b.2] := by
        have hnot : ¬ isBlank b.2 = true := by
          rw [hb]
          exact Bool.false_ne_true
        rw [layOutStep, if_neg fun h => hnot h.2, if_neg fun h => h.2 rfl, if_neg fun h => Bool.false_ne_true h.2]
        rfl
      have hlead : Solids ((0, b.2) :: regap lead b.2 bs) := List.forall_mem_cons.mpr ⟨hb, regap_solids lead b.2 hbs⟩
      have hfold : (unroll (b :: bs)).foldl layOutStep [] = unroll ((0, b.2) :: regap lead b.2 bs) := by
        rw [unroll_cons, List.foldl_append, foldl_leading, List.foldl_cons, hfirst, layOut_blocks rfl hb hbs, unroll_cons]
        rfl
      obtain ⟨p, hlast, hp⟩ := getLast?_unroll _ _ hlead
      have hne : unroll ((0, b.2) :: regap lead b.2 bs) ≠ [] := by
        rw [unroll_cons]
        exact List.cons_ne_nil _ _
      have hlay : layOut (unroll (b :: bs) ++ List.replicate m []) = unroll ((0, b.2) :: regap lead b.2 bs) := by
        rw [layOut, List.foldl_append, hfold, foldl_blanks hne, rdropWhile_blanks hlast hp]
      rw [hlay, clean, unroll_cons]
      show cleanLoop none [] (b.2 :: unroll (regap lead b.2 bs)) = _
      rw [cleanLoop_line hb, clean_blocks rfl hb (regap_solids lead b.2 hbs), regap_regap, spacing, unroll_cons]
      rfl

/-! ## Gaps that stay -/

/-- So many blank lines as the first run leaves. -/
def GapOk (prev : Line) (b : Block) : Prop := isClassDef b.2 ∨ b.1 ≤ if opensBlock prev then 1 else 2

/-- The blank lines between two lines are as many as the first run leaves. -/
def BlanksOk (ls : List Line) : Prop := ∀ before prev n line after,
  ls = before ++ prev :: (List.replicate n [] ++ line :: after) → isBlank prev = false → isBlank line = false →
    GapOk prev (n, line)

def GapsOk : Line → List Block → Prop
  | _, [] => True
  | prev, b :: bs => GapOk prev b ∧ GapsOk b.2 bs

theorem newGap_idem_iff (p : Line) (b : Block) : newGap p (newGap p b, b.2) = newGap p b ↔ GapOk p b := by
  obtain ⟨n, l⟩ := b
  cases hclass : isClassDef l with
  | true =>
      have hlead : ∀ k, lead p (k, l) = 2 := fun k => if_pos hclass
      refine iff_of_true ?_ (.inl hclass)
      rw [newGap, newGap, hlead, hlead]
  | false =>
      -- a definition has at least one blank line in front of it
      obtain ⟨least, hleast, hlead⟩ : ∃ least ≤ 1, ∀ k, lead p (k, l) = max k least := by
        by_cases htop : isTopLevelDef l ∧ isComment p = false
        · refine ⟨1, le_rfl, fun k => ?_⟩
          rw [lead, hclass, if_neg Bool.false_ne_true]
          by_cases hk : k = 0
          · rw [if_pos ⟨htop.1, hk, htop.2⟩, hk]
            rfl
          · rw [if_neg fun h => hk h.2.1]
            exact (max_eq_left (Nat.pos_of_ne_zero hk)).symm
        · refine ⟨0, Nat.zero_le 1, fun k => ?_⟩
          rw [lead, hclass, if_neg Bool.false_ne_true, if_neg fun h => htop ⟨h.1, h.2.2⟩, Nat.max_zero]
      have hgap : GapOk p (n, l) ↔ n ≤ if opensBlock p then 1 else 2 := by
        rw [GapOk, hclass, or_iff_right Bool.false_ne_true]
      rw [hgap, newGap, newGap, hlead, hlead]
      cases opensBlock p <;> simp only [squeeze, if_true, Bool.false_eq_true, if_false] <;> split_ifs <;> omega

theorem regap_idem_iff (p : Line) (bs : List Block) : regap newGap p (regap newGap p bs) = regap newGap p bs ↔ GapsOk p bs := by
  rw [regap_regap]
  induction bs generalizing p with
  | nil => exact iff_of_true rfl trivial
  | cons b bs ih => rw [regap, regap, List.cons.injEq, Prod.mk.injEq, newGap_idem_iff, ih, GapsOk, and_iff_left rfl]

theorem gapsOk_append {bs bs' : List Block} (h : GapsOk p (bs ++ b :: bs')) : GapsOk b.2 bs' := by
  induction bs generalizing p with
  | nil => exact h.2
  | cons c bs ih => exact ih h.2

/-- The gaps of blocks, read off the lines. -/
theorem blanksOk_iff (hsolid : Solids (b :: bs)) (m : ℕ) :
    BlanksOk (unroll (b :: bs) ++ List.replicate m []) ↔ GapsOk b.2 bs := by
  constructor
  · intro h
    have hgaps : ∀ (pre : List Line) (b : Block) (bs : List Block), Solids (b :: bs) →
        BlanksOk (pre ++ unroll (b :: bs) ++ List.replicate m []) → GapsOk b.2 bs := by
      intro pre b bs hsolid h
      induction bs generalizing pre b with
      | nil => trivial
      | cons c bs ih =>
          obtain ⟨hb, hcbs⟩ := List.forall_mem_cons.mp hsolid
          refine ⟨h (pre ++ List.replicate b.1 []) b.2 c.1 c.2 (unroll bs ++ List.replicate m []) ?_ hb (hcbs c List.mem_cons_self), ?_⟩
          · rw [unroll_cons, unroll_cons]
            simp only [List.append_assoc, List.cons_append]
          · refine ih (pre ++ (List.replicate b.1 [] ++ [b.2])) c hcbs ?_
            rw [unroll_cons] at h
            simpa only [List.append_assoc, List.cons_append, List.nil_append] using h
    exact hgaps [] b bs hsolid h
  · intro hgaps before prev n line after heq hprev hline
    have hempty : ∀ l ∈ unroll (b :: bs) ++ List.replicate m [], isBlank l = true → l = [] := by
      intro l hl hblank
      rcases List.mem_append.mp hl with hl | hl
      · obtain ⟨c, hc, hl⟩ := List.mem_flatMap.mp hl
        rcases List.mem_append.mp hl with hl | hl
        · exact List.eq_of_mem_replicate hl
        · rw [List.mem_singleton.mp hl, hsolid c hc] at hblank
          cases hblank
      · exact List.eq_of_mem_replicate hl
    rw [heq] at hempty
    obtain ⟨bs₁, k, hbefore, hsolid₁⟩ := exists_blocks fun l hl => hempty l (List.mem_append_left _ hl)
    obtain ⟨bs₂, k₂, hafter, hsolid₂⟩ := exists_blocks fun l hl => hempty l <| List.mem_append_right _ <|
      List.mem_cons_of_mem _ <| List.mem_append_right _ <| List.mem_cons_of_mem _ hl
    have hall : Solids (bs₁ ++ (k, prev) :: (n, line) :: bs₂) := by
      intro c hc
      rcases List.mem_append.mp hc with hc | hc
      · exact hsolid₁ c hc
      rcases List.mem_cons.mp hc with rfl | hc
      · exact hprev
      rcases List.mem_cons.mp hc with rfl | hc
      · exact hline
      · exact hsolid₂ c hc
    have hblocks : b :: bs = bs₁ ++ (k, prev) :: (n, line) :: bs₂ := by
      refine unroll_inj hsolid hall (m := m) (n := k₂) ?_
      rw [heq, hbefore, hafter, unroll_append, unroll_cons, unroll_cons]
      simp only [List.append_assoc, List.cons_append]
    cases bs₁ with
    | nil =>
        cases hblocks
        exact hgaps.1
    | cons c bs₁ =>
        cases hblocks
        exact (gapsOk_append hgaps).1

end Blocks

end Visuall.Lsp
