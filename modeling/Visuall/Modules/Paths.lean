import Visuall.Modules.Loader

/-!
# Paths

What `normalizePath` does to the names of a path, and where `resolve` looks for a module.

* `names` — the names between the separators; `normalizePath_eq` — the normal form by them;
* `CanonicalPath` — the paths that `normalizePath` gives; `normalizePath_text` — it leaves them as they are;
* `FileSystem`, `denotes` — the file that a path means;
* `keeps_iff` — exactly when the normal form means the same file;
* `resolve_ok_iff` — the module that `resolve` finds.
-/

namespace Visuall.Modules

/-! ## The names of a path -/

/-- The separators of a path. -/
def isSeparator (c : Char) : Bool := c == '/' || c == '\\'

/-- The path begins at the root. -/
def isAbsolute (path : List Char) : Bool := path.head?.any isSeparator

/-- The names between the separators, `.` and `..` among them. -/
def names (path : List Char) : List (List Char) :=
  ((path.filter (· != '\x00')).splitOnP isSeparator).filter (· ≠ [])

section Names

variable {path a b c : List Char} {cs ds st : List (List Char)}

/-- Without the empty ones, the pieces of a text are those between the separators. -/
theorem filter_splitAll (s : List Char) : (splitAll '/' s).filter (· ≠ []) = (s.splitOnP (· == '/')).filter (· ≠ []) := by
  induction hn : s.length using Nat.strong_induction_on generalizing s with
  | _ n ih =>
    by_cases h : '/' ∈ s
    · obtain ⟨p, rest, rfl, hp⟩ := List.eq_append_cons_of_mem h
      have hlt : rest.length < n := by
        rw [← hn, List.length_append, List.length_cons]
        omega
      have hnot : ∀ x ∈ p, (x == '/') = false := fun x hx => beq_eq_false_iff_ne.mpr fun heq => hp (heq ▸ hx)
      rw [splitAll_append_sep hp, List.splitOnP_append_cons_of_forall_mem hnot '/' (beq_self_eq_true _), List.filter_cons,
        List.filter_cons, ih _ hlt rest rfl]
    · have hnot : ∀ x ∈ s, (x == '/') = false := fun x hx => beq_eq_false_iff_ne.mpr fun heq => h (heq ▸ hx)
      rw [List.splitOnP_eq_singleton hnot]
      by_cases hs : s = []
      · subst hs
        rfl
      · rw [splitAll_of_notMem hs h]

/-- Backslashes count as slashes. -/
theorem splitOnP_slashes (s : List Char) :
    (s.map fun c => if c = '\\' then '/' else c).splitOnP (· == '/') = s.splitOnP isSeparator := by
  induction s with
  | nil => rfl
  | cons c s ih =>
      rw [List.map_cons, List.splitOnP_cons_eq_if_modifyHead, List.splitOnP_cons_eq_if_modifyHead, ih]
      by_cases hback : c = '\\'
      · subst hback
        rfl
      · rw [if_neg hback]
        by_cases hslash : c = '/'
        · subst hslash
          rfl
        · have hnot : isSeparator c = false := by
            rw [isSeparator, beq_eq_false_iff_ne.mpr hslash, beq_eq_false_iff_ne.mpr hback]
            rfl
          rw [if_neg (by simpa using hslash), if_neg (by rw [hnot]; exact Bool.false_ne_true)]

/-- Empty components are skipped. -/
theorem resolveComponents_filter (st cs : List (List Char)) :
    resolveComponents st (cs.filter (· ≠ [])) = resolveComponents st cs := by
  induction cs generalizing st with
  | nil => rfl
  | cons c cs ih =>
      by_cases hc : c = []
      · subst hc
        rw [List.filter_cons_of_neg (by simp), resolveComponents, if_pos (.inl rfl), ih]
      · rw [List.filter_cons_of_pos (by simpa using hc), resolveComponents, resolveComponents, ih, ih, ih]

theorem resolveComponents_append (st cs ds : List (List Char)) :
    resolveComponents st (cs ++ ds) = resolveComponents (resolveComponents st cs) ds := by
  induction cs generalizing st with
  | nil => rfl
  | cons c cs ih =>
      rw [List.cons_append, resolveComponents, resolveComponents]
      split_ifs
      · exact ih _
      · exact ih _
      · exact ih _

/-- **The normal form** by the names of a path. -/
theorem normalizePath_eq (path : List Char) :
    normalizePath path = rebuild (isAbsolute path) (resolveComponents [] (names path)).reverse := by
  show rebuild _ (resolveComponents [] (splitAll '/' _)).reverse = _
  rw [← resolveComponents_filter, filter_splitAll, splitOnP_slashes]
  rfl

theorem names_append (a b : List Char) : names (a ++ '/' :: b) = names a ++ names b := by
  rw [names, List.filter_append, List.filter_cons_of_pos (by decide), List.splitOnP_append_cons _ _ (by decide), List.filter_append]
  rfl

/-- A name as a directory or a file has it. -/
structure IsName (c : List Char) : Prop where
  ne_nil : c ≠ []
  ne_dot : c ≠ ".".toList
  ne_dots : c ≠ "..".toList
  plain : ∀ x ∈ c, isSeparator x = false ∧ x ≠ '\x00'

theorem plain_of_mem_names (hc : c ∈ names path) : c ≠ [] ∧ ∀ x ∈ c, isSeparator x = false ∧ x ≠ '\x00' := by
  obtain ⟨hmem, hne⟩ := List.mem_filter.mp hc
  refine ⟨by simpa using hne, fun x hx => ?_⟩
  obtain ⟨hnot, hx⟩ := of_mem_splitOnP hmem hx
  exact ⟨hnot, by simpa using (List.mem_filter.mp hx).2⟩

/-- The components that are left are names. -/
theorem isName_of_mem_resolveComponents (hst : ∀ c ∈ st, IsName c)
    (hcs : ∀ c ∈ cs, c ≠ [] ∧ ∀ x ∈ c, isSeparator x = false ∧ x ≠ '\x00') : ∀ c ∈ resolveComponents st cs, IsName c := by
  induction cs generalizing st with
  | nil => exact hst
  | cons d cs ih =>
      obtain ⟨hd, hrest⟩ := List.forall_mem_cons.mp hcs
      rw [resolveComponents]
      split_ifs with hskip hdots
      · exact ih hst hrest
      · exact ih (fun c hc => hst c (List.mem_of_mem_tail hc)) hrest
      · exact ih (List.forall_mem_cons.mpr ⟨⟨hd.1, fun h => hskip (.inr h), hdots, hd.2⟩, hst⟩) hrest

/-- Names are pushed on the components. -/
theorem resolveComponents_names (h : ∀ c ∈ cs, IsName c) (st : List (List Char)) :
    resolveComponents st cs = cs.reverse ++ st := by
  induction cs generalizing st with
  | nil => rfl
  | cons c cs ih =>
      obtain ⟨hc, hrest⟩ := List.forall_mem_cons.mp h
      rw [resolveComponents, if_neg (not_or.mpr ⟨hc.ne_nil, hc.ne_dot⟩), if_neg hc.ne_dots, ih hrest, List.reverse_cons,
        List.append_assoc, List.singleton_append]

end Names

/-! ## The normal form -/

/-- A path as `normalizePath` gives it. -/
structure CanonicalPath where
  absolute : Bool
  parts : List (List Char)
  isName : ∀ c ∈ parts, IsName c

/-- Its text. -/
def CanonicalPath.text (C : CanonicalPath) : List Char := rebuild C.absolute C.parts

section Canonical

variable {path c : List Char} {cs : List (List Char)} {C : CanonicalPath}

theorem rebuild_loop (wasAbsolute : Bool) (cs : List (List Char)) {result : List Char} (h : result ≠ [] ∨ wasAbsolute = true) :
    cs.foldl (fun result c => result ++ if result = [] ∧ wasAbsolute = false then c else '/' :: c) result =
      result ++ cs.flatMap ('/' :: ·) := by
  induction cs generalizing result with
  | nil => exact (List.append_nil _).symm
  | cons c cs ih =>
      have hcond : ¬ (result = [] ∧ wasAbsolute = false) := by
        intro hboth
        rcases h with hne | habs
        · exact hne hboth.1
        · exact Bool.noConfusion (habs.symm.trans hboth.2)
      have hne : result ++ '/' :: c ≠ [] := List.append_ne_nil_of_right_ne_nil _ (List.cons_ne_nil _ _)
      rw [List.foldl_cons, if_neg hcond, ih (.inl hne), List.append_assoc, List.flatMap_cons]

theorem joinWith_eq_flatMap (c : List Char) (cs : List (List Char)) : joinWith '/' (c :: cs) = c ++ cs.flatMap ('/' :: ·) := by
  induction cs generalizing c with
  | nil => exact (List.append_nil _).symm
  | cons d cs ih =>
      rw [joinWith_cons_cons, ih, List.flatMap_cons]
      rfl

theorem rebuild_absolute (cs : List (List Char)) : rebuild true cs = '/' :: joinWith '/' cs := by
  cases cs with
  | nil => rfl
  | cons c cs =>
      rw [rebuild, rebuild_loop true _ (.inr rfl), List.nil_append, List.flatMap_cons, List.cons_append,
        if_neg (List.cons_ne_nil _ _), joinWith_eq_flatMap]

theorem rebuild_relative (hc : c ≠ []) (cs : List (List Char)) : rebuild false (c :: cs) = joinWith '/' (c :: cs) := by
  have hfirst : ([] : List Char) ++ (if ([] : List Char) = [] ∧ false = false then c else '/' :: c) = c := rfl
  rw [rebuild, List.foldl_cons, hfirst, rebuild_loop false _ (.inl hc), joinWith_eq_flatMap]
  exact if_neg (List.append_ne_nil_of_left_ne_nil hc _)

/-- The names of names put together. -/
theorem splitOnP_joinWith (hne : cs ≠ []) (h : ∀ c ∈ cs, ∀ x ∈ c, isSeparator x = false) :
    (joinWith '/' cs).splitOnP isSeparator = cs := by
  induction cs with
  | nil => exact absurd rfl hne
  | cons c cs ih =>
      obtain ⟨hc, hrest⟩ := List.forall_mem_cons.mp h
      cases cs with
      | nil => exact List.splitOnP_eq_singleton hc
      | cons d cs =>
          rw [joinWith_cons_cons, List.splitOnP_append_cons_of_forall_mem hc '/' rfl, ih (List.cons_ne_nil _ _) hrest]

/-- The pieces of a canonical path. -/
theorem CanonicalPath.pieces (C : CanonicalPath) : C.text.splitOnP isSeparator =
    if C.absolute then [] :: (if C.parts = [] then [[]] else C.parts) else if C.parts = [] then [".".toList] else C.parts := by
  obtain ⟨absolute, cs, hcs⟩ := C
  have hplain : ∀ c ∈ cs, ∀ x ∈ c, isSeparator x = false := fun c hc x hx => ((hcs c hc).plain x hx).1
  show (rebuild absolute cs).splitOnP isSeparator = _
  cases absolute with
  | true =>
      rw [rebuild_absolute, List.splitOnP_cons_eq_if_modifyHead, if_pos rfl]
      by_cases hnil : cs = []
      · subst hnil
        rfl
      · rw [splitOnP_joinWith hnil hplain]
        exact congrArg ([] :: ·) (if_neg hnil).symm
  | false =>
      cases cs with
      | nil => rfl
      | cons c cs =>
          rw [rebuild_relative (hcs c List.mem_cons_self).ne_nil, splitOnP_joinWith (List.cons_ne_nil _ _) hplain]
          rfl

theorem mem_joinWith_slash {x : Char} (h : ∀ c ∈ cs, IsName c) (hx : x ∈ joinWith '/' cs) : x ≠ '\x00' := by
  rcases mem_joinWith.mp hx with ⟨c, hc, hx⟩ | ⟨rfl, -⟩
  · exact ((h c hc).plain x hx).2
  · decide

theorem CanonicalPath.plain (C : CanonicalPath) : C.text.filter (· != '\x00') = C.text := by
  obtain ⟨absolute, cs, hcs⟩ := C
  refine List.filter_eq_self.mpr fun x hx => bne_iff_ne.mpr ?_
  have hx : x ∈ rebuild absolute cs := hx
  cases absolute with
  | true =>
      rw [rebuild_absolute] at hx
      rcases List.mem_cons.mp hx with rfl | hx
      · decide
      · exact mem_joinWith_slash hcs hx
  | false =>
      cases cs with
      | nil =>
          rw [List.mem_singleton.mp hx]
          decide
      | cons c cs =>
          rw [rebuild_relative (hcs c List.mem_cons_self).ne_nil] at hx
          exact mem_joinWith_slash hcs hx

theorem CanonicalPath.isAbsolute_text (C : CanonicalPath) : isAbsolute C.text = C.absolute := by
  obtain ⟨absolute, cs, hcs⟩ := C
  show isAbsolute (rebuild absolute cs) = absolute
  cases absolute with
  | true =>
      rw [rebuild_absolute]
      rfl
  | false =>
      cases cs with
      | nil => rfl
      | cons c cs =>
          obtain ⟨x, xs, rfl⟩ := List.exists_cons_of_ne_nil (hcs c List.mem_cons_self).ne_nil
          rw [rebuild_relative (List.cons_ne_nil _ _), joinWith_eq_flatMap]
          exact ((hcs _ List.mem_cons_self).plain x List.mem_cons_self).1

theorem CanonicalPath.resolveComponents_text (C : CanonicalPath) (st : List (List Char)) :
    resolveComponents st (names C.text) = C.parts.reverse ++ st := by
  rw [names, C.plain, resolveComponents_filter, C.pieces]
  by_cases hnil : C.parts = []
  · rw [hnil]
    cases C.absolute <;> rfl
  · rw [if_neg hnil, if_neg hnil]
    cases C.absolute with
    | true =>
        rw [if_pos rfl, resolveComponents, if_pos (.inl rfl)]
        exact resolveComponents_names C.isName st
    | false => exact resolveComponents_names C.isName st

/-- The canonical path of a text. -/
def canonical (path : List Char) : CanonicalPath where
  absolute := isAbsolute path
  parts := (resolveComponents [] (names path)).reverse
  isName c hc := isName_of_mem_resolveComponents (fun _ h => by cases h) (fun _ => plain_of_mem_names) c (List.mem_reverse.mp hc)

theorem canonical_text (path : List Char) : (canonical path).text = normalizePath path := (normalizePath_eq path).symm

theorem normalizePath_text (C : CanonicalPath) : normalizePath C.text = C.text := by
  rw [normalizePath_eq, C.isAbsolute_text, C.resolveComponents_text, List.append_nil, List.reverse_reverse]
  rfl

/-- **Normalizing twice** changes nothing more. -/
theorem normalizePath_idem (path : List Char) : normalizePath (normalizePath path) = normalizePath path := by
  rw [← canonical_text path]
  exact normalizePath_text _

end Canonical

/-! ## What a path means -/

inductive Kind
  | directory
  | file
  deriving DecidableEq

/-- A file system without symbolic links: what stands at a location, given by the names that lead there from the root,
the last one first. -/
structure FileSystem where
  kind : List (List Char) → Option Kind
  root : kind [] = some .directory
  parent : ∀ name l, kind (name :: l) ≠ none → kind l = some .directory

/-- One component, from a location; the parent of the root is the root. -/
def FileSystem.follow (fs : FileSystem) (l : List (List Char)) (c : List Char) : Option (List (List Char)) :=
  if fs.kind l = some .directory then
    if c = [] ∨ c = ".".toList then some l
    else if c = "..".toList then some l.tail
    else if fs.kind (c :: l) = none then none
    else some (c :: l)
  else none

/-- The location that a path means. -/
def denotes (fs : FileSystem) (cwd : List (List Char)) (path : List Char) : Option (List (List Char)) :=
  if path = [] then none
  else (path.splitOnP isSeparator).foldlM fs.follow (if isAbsolute path then [] else cwd)

/-- A text that can be given to the system as a path. -/
structure Path where
  text : List Char
  plain : '\x00' ∉ text

/-- The normal form means the same file. -/
def Keeps (path : List Char) : Prop :=
  ∀ (fs : FileSystem) (cwd : List (List Char)), fs.kind cwd = some .directory → ∀ l, denotes fs cwd path = some l →
    denotes fs cwd (normalizePath path) = some l

/-- From so many names below the start, components never lead above the start. -/
def Stays : ℕ → List (List Char) → Prop
  | _, [] => True
  | depth, c :: cs =>
    if c = [] ∨ c = ".".toList then Stays depth cs
    else if c = "..".toList then 0 < depth ∧ Stays (depth - 1) cs
    else Stays (depth + 1) cs

section Meaning

variable {fs : FileSystem} {path c : List Char} {cs st cwd l l' : List (List Char)} {C : CanonicalPath} {depth : ℕ}

/-- Above a location there are directories. -/
theorem FileSystem.exists_of_append (fs : FileSystem) (cs : List (List Char)) (h : fs.kind (cs ++ l) ≠ none) (hne : cs ≠ []) :
    fs.kind l = some .directory := by
  induction cs with
  | nil => exact absurd rfl hne
  | cons c cs ih =>
      have hrest := fs.parent c (cs ++ l) h
      by_cases hnil : cs = []
      · subst hnil
        exact hrest
      · exact ih (by rw [hrest]; exact Option.some_ne_none _) hnil

/-- Where components lead, there is something. -/
theorem FileSystem.follow_some (h : fs.follow l c = some l') : fs.kind l' ≠ none ∧ l' = resolveComponents l [c] := by
  rw [follow] at h
  rw [resolveComponents]
  split_ifs at h with hdir hskip hdots hnone
  · cases h
    exact ⟨by rw [hdir]; exact Option.some_ne_none _, by rw [if_pos hskip]; rfl⟩
  · cases h
    refine ⟨?_, by rw [if_neg hskip, if_pos hdots]; rfl⟩
    cases l with
    | nil =>
        rw [List.tail_nil, fs.root]
        exact Option.some_ne_none _
    | cons name l =>
        rw [List.tail_cons, fs.parent name l (by rw [hdir]; exact Option.some_ne_none _)]
        exact Option.some_ne_none _
  · cases h
    exact ⟨hnone, by rw [if_neg hskip, if_neg hdots]; rfl⟩

/-- Following components leads where resolving them says. -/
theorem FileSystem.walk_some (cs : List (List Char)) (hl : fs.kind l ≠ none) (h : cs.foldlM fs.follow l = some l') :
    fs.kind l' ≠ none ∧ l' = resolveComponents l cs := by
  induction cs generalizing l with
  | nil =>
      cases h
      exact ⟨hl, rfl⟩
  | cons c cs ih =>
      rw [List.foldlM_cons] at h
      cases hfirst : fs.follow l c with
      | none =>
          rw [hfirst] at h
          cases h
      | some l₁ =>
          rw [hfirst] at h
          obtain ⟨hkind, rfl⟩ := FileSystem.follow_some hfirst
          obtain ⟨hend, heq⟩ := ih hkind h
          refine ⟨hend, heq.trans ?_⟩
          rw [← resolveComponents_append]
          rfl

/-- Names lead down to what is there. -/
theorem FileSystem.walk_names (hcs : ∀ c ∈ cs, IsName c) (h : fs.kind (cs.reverse ++ l) ≠ none) :
    cs.foldlM fs.follow l = some (cs.reverse ++ l) := by
  induction cs generalizing l with
  | nil => rfl
  | cons c cs ih =>
      obtain ⟨hc, hrest⟩ := List.forall_mem_cons.mp hcs
      rw [List.reverse_cons, List.append_assoc, List.singleton_append] at h ⊢
      have hexists : fs.kind (c :: l) ≠ none := by
        by_cases hnil : cs.reverse = []
        · rwa [hnil] at h
        · rw [fs.exists_of_append cs.reverse h hnil]
          exact Option.some_ne_none _
      have hstep : fs.follow l c = some (c :: l) := by
        rw [follow, if_pos (fs.parent c l hexists), if_neg (not_or.mpr ⟨hc.ne_nil, hc.ne_dot⟩), if_neg hc.ne_dots, if_neg hexists]
      rw [List.foldlM_cons, hstep]
      exact ih hrest h

theorem CanonicalPath.text_ne_nil (C : CanonicalPath) : C.text ≠ [] := by
  intro hnil
  have hpieces := C.pieces
  rw [hnil] at hpieces
  cases habs : C.absolute with
  | true =>
      rw [habs, if_pos rfl] at hpieces
      have := List.tail_eq_of_cons_eq hpieces
      split at this
      · cases this
      · next hparts => exact hparts this.symm
  | false =>
      rw [habs, if_neg Bool.false_ne_true] at hpieces
      split at hpieces
      · cases hpieces
      · exact (C.isName [] (hpieces ▸ List.mem_singleton_self _)).ne_nil rfl

/-- **What a canonical path means.** -/
theorem denotes_text (C : CanonicalPath) (hcwd : fs.kind cwd = some .directory)
    (h : fs.kind (C.parts.reverse ++ if C.absolute then [] else cwd) ≠ none) :
    denotes fs cwd C.text = some (C.parts.reverse ++ if C.absolute then [] else cwd) := by
  rw [denotes, if_neg C.text_ne_nil, C.isAbsolute_text, C.pieces]
  generalize hstart : (if C.absolute = true then [] else cwd) = start at h ⊢
  have hdir : fs.kind start = some .directory := by
    rw [← hstart]
    split
    · exact fs.root
    · exact hcwd
  have hskip : ∀ c, c = [] ∨ c = ".".toList → fs.follow start c = some start := fun c hc => by
    rw [FileSystem.follow, if_pos hdir, if_pos hc]
  have hrest : C.parts.foldlM fs.follow start = some (C.parts.reverse ++ start) := FileSystem.walk_names C.isName h
  by_cases hparts : C.parts = []
  · rw [hparts, if_pos rfl, if_pos rfl]
    split
    · rw [List.foldlM_cons, hskip [] (.inl rfl)]
      show [[]].foldlM fs.follow start = _
      rw [List.foldlM_cons, hskip [] (.inl rfl)]
      rfl
    · rw [List.foldlM_cons, hskip _ (.inr rfl)]
      rfl
  · rw [if_neg hparts, if_neg hparts]
    split
    · rw [List.foldlM_cons, hskip [] (.inl rfl)]
      exact hrest
    · exact hrest

theorem Path.resolve_pieces (p : Path) (st : List (List Char)) :
    resolveComponents st (p.text.splitOnP isSeparator) = resolveComponents st (names p.text) := by
  have hplain : p.text.filter (· != '\x00') = p.text :=
    List.filter_eq_self.mpr fun x hx => bne_iff_ne.mpr fun heq => p.plain (heq ▸ hx)
  rw [names, hplain, resolveComponents_filter]

/-! ### Above the start -/

/-- Components that stay below the start lead to the same place from everywhere. -/
theorem Stays.resolveComponents_append (h : Stays st.length cs) :
    resolveComponents (st ++ cwd) cs = resolveComponents st cs ++ cwd := by
  induction cs generalizing st with
  | nil => rfl
  | cons c cs ih =>
      rw [Stays] at h
      rw [resolveComponents, resolveComponents]
      split_ifs at h ⊢ with hskip hdots
      · exact ih h
      · obtain ⟨hpos, hrest⟩ := h
        cases st with
        | nil => exact absurd hpos (lt_irrefl 0)
        | cons name st => exact ih hrest
      · have hrest : resolveComponents (c :: st ++ cwd) cs = resolveComponents (c :: st) cs ++ cwd := ih h
        exact hrest

/-- From a place that is deep enough, components lead so far up. -/
theorem resolveComponents_climbs (st cs : List (List Char)) : ∃ k, (¬ Stays st.length cs → 0 < k) ∧
    ∀ cwd : List (List Char), cs.length ≤ cwd.length → resolveComponents (st ++ cwd) cs = resolveComponents st cs ++ cwd.drop k := by
  induction cs generalizing st with
  | nil => exact ⟨0, fun h => absurd trivial h, fun cwd _ => rfl⟩
  | cons c cs ih =>
      simp only [Stays, resolveComponents]
      split_ifs with hskip hdots
      · obtain ⟨k, hpos, hall⟩ := ih st
        exact ⟨k, hpos, fun cwd hle => hall cwd (Nat.le_of_succ_le hle)⟩
      · cases st with
        | nil =>
            obtain ⟨k, -, hall⟩ := ih []
            refine ⟨k + 1, fun _ => Nat.succ_pos k, fun cwd hle => ?_⟩
            cases cwd with
            | nil => cases hle
            | cons name cwd => exact hall cwd (Nat.le_of_succ_le_succ hle)
        | cons name st =>
            obtain ⟨k, hpos, hall⟩ := ih st
            exact ⟨k, fun h => hpos fun hstays => h ⟨Nat.succ_pos _, hstays⟩, fun cwd hle => hall cwd (Nat.le_of_succ_le hle)⟩
      · obtain ⟨k, hpos, hall⟩ := ih (c :: st)
        exact ⟨k, hpos, fun cwd hle => hall cwd (Nat.le_of_succ_le hle)⟩

/-- **A path that stays** below where it begins means the same file in its normal form. -/
theorem Path.keeps_of_stays (p : Path) (h : isAbsolute p.text = true ∨ Stays 0 (p.text.splitOnP isSeparator)) : Keeps p.text := by
  intro fs cwd hcwd l hl
  rw [denotes] at hl
  split at hl
  · cases hl
  · have hstart : fs.kind (if isAbsolute p.text then [] else cwd) ≠ none := by
      split
      · rw [fs.root]
        exact Option.some_ne_none _
      · rw [hcwd]
        exact Option.some_ne_none _
    obtain ⟨hexists, heq⟩ := FileSystem.walk_some _ hstart hl
    have hend : l = (canonical p.text).parts.reverse ++ if (canonical p.text).absolute then [] else cwd := by
      rw [heq, canonical, List.reverse_reverse]
      show resolveComponents (if isAbsolute p.text then [] else cwd) _ = _ ++ if isAbsolute p.text then [] else cwd
      rw [← p.resolve_pieces]
      cases habs : isAbsolute p.text with
      | true => exact (List.append_nil _).symm
      | false =>
          have hstays : Stays ([] : List (List Char)).length _ := h.resolve_left (by rw [habs]; exact Bool.false_ne_true)
          exact hstays.resolveComponents_append
    rw [hend] at hexists ⊢
    rw [← canonical_text]
    exact denotes_text _ hcwd hexists

/-- A file system that has every directory. -/
def everywhere : FileSystem where
  kind _ := some .directory
  root := rfl
  parent _ _ _ := rfl

theorem everywhere_walk (cs l : List (List Char)) : cs.foldlM everywhere.follow l = some (resolveComponents l cs) := by
  induction cs generalizing l with
  | nil => rfl
  | cons c cs ih =>
      rw [List.foldlM_cons, FileSystem.follow, if_pos (show everywhere.kind l = some .directory from rfl), resolveComponents]
      split_ifs with hskip hdots hnone
      · exact ih l
      · exact ih l.tail
      · cases hnone
      · exact ih (c :: l)

/-- A relative path that leads above where it begins means another file in its normal form. -/
theorem Path.not_keeps (p : Path) (hrel : isAbsolute p.text = false) (h : ¬ Stays 0 (p.text.splitOnP isSeparator)) :
    ¬ Keeps p.text := by
  intro hkeeps
  obtain ⟨k, hpos, hall⟩ := resolveComponents_climbs [] (p.text.splitOnP isSeparator)
  let cwd := List.replicate (p.text.splitOnP isSeparator).length ['x']
  have hlength : cwd.length = (p.text.splitOnP isSeparator).length := List.length_replicate
  have hne : p.text ≠ [] := by
    intro hnil
    rw [hnil] at h
    exact h trivial
  have hmeans : denotes everywhere cwd p.text = some (resolveComponents [] (p.text.splitOnP isSeparator) ++ cwd.drop k) := by
    rw [denotes, if_neg hne, if_neg (by rw [hrel]; exact Bool.false_ne_true), everywhere_walk]
    exact congrArg some (hall cwd hlength.ge)
  have hnormal : denotes everywhere cwd (normalizePath p.text) = some (resolveComponents [] (p.text.splitOnP isSeparator) ++ cwd) := by
    rw [← canonical_text, denotes_text _ rfl fun hnone => by cases hnone]
    show some ((resolveComponents [] (names p.text)).reverse.reverse ++ if isAbsolute p.text then [] else cwd) = _
    rw [List.reverse_reverse, if_neg (by rw [hrel]; exact Bool.false_ne_true), p.resolve_pieces]
  have hsame := congrArg List.length (List.append_cancel_left (Option.some_injective _
    (hnormal.symm.trans (hkeeps everywhere cwd rfl _ hmeans))))
  have hk : 0 < k := hpos h
  have hsome : 0 < (p.text.splitOnP isSeparator).length := List.length_pos_iff.mpr (List.splitOnP_ne_nil _ _)
  rw [List.length_drop] at hsame
  omega

end Meaning

/-! ## Where a module is found -/

/-- The search paths of the loader, from `--module-path` and from `VISUALL_PATH`. -/
def searchPathsOf (pathSeparator : Char) (extraPaths : List (List Char)) (envPath : Option (List Char)) : List (List Char) :=
  (extraPaths ++ ((envPath.map (splitAll pathSeparator)).getD []).filter (· ≠ [])).map normalizePath

/-- The loader as it is constructed, with the directories that are given to `registerAlias`. -/
def construct {κ : Type} (pathSeparator : Char) (stdlibDir : List Char) (extraPaths : List (List Char)) (envPath : Option (List Char))
    (aliases : List Char → Option (List Char)) (files : List Char → Option (List Char))
    (build : List Char → List Char → List Char → Except (List Char) κ) : Setup κ where
  stdlibDir := normalizePath stdlibDir
  searchPaths := searchPathsOf pathSeparator extraPaths envPath
  aliasToDir moduleName := (aliases moduleName).map normalizePath
  files := files
  build := build

/-- The names that `resolve` does not refuse. -/
def accepts (moduleName : List Char) : Bool :=
  !(moduleName.any fun c => c == '\x00' || c == '/' || c == '\\') &&
    !((splitAll '.' moduleName).any fun part => part == [] || part == "..".toList)

/-- A directory as a path in front of other names; nothing in front of a slash is the root. -/
def directoryOf (dir : List Char) : List Char := normalizePath (dir ++ ['/'])

/-- The names of a module's file: the components of its name, the last one with `.vsl`. -/
def moduleParts (moduleName : List Char) : List (List Char) :=
  let components := moduleName.splitOn '.'
  components.dropLast ++ [components.getLastD [] ++ ".vsl".toList]

/-- A directory with the names of a file behind it. -/
def followedBy (dir : List Char) (parts : List (List Char)) : List Char :=
  if dir = ".".toList then joinWith '/' parts
  else if dir = "/".toList then '/' :: joinWith '/' parts
  else dir ++ '/' :: joinWith '/' parts

section Resolving

variable {κ : Type} {S : Setup κ} {moduleName importDir path dir c : List Char} {parts cs : List (List Char)}

theorem directoryOf_of_ne_nil (h : dir ≠ []) : directoryOf dir = normalizePath dir := by
  obtain ⟨x, dir, rfl⟩ := List.exists_cons_of_ne_nil h
  rw [directoryOf, normalizePath_eq, normalizePath_eq, names_append]
  show rebuild _ (resolveComponents [] (names (x :: dir) ++ [])).reverse = _
  rw [List.append_nil]
  rfl

theorem joinWith_dropLast (suffix : List Char) (hne : cs ≠ []) :
    joinWith '/' (cs.dropLast ++ [cs.getLastD [] ++ suffix]) = joinWith '/' cs ++ suffix := by
  induction cs with
  | nil => exact absurd rfl hne
  | cons c cs ih =>
      cases cs with
      | nil => rfl
      | cons d cs =>
          have ih := ih (List.cons_ne_nil _ _)
          rw [List.dropLast_cons_cons, List.cons_append, joinWith_cons (by simp), joinWith_cons_cons, List.append_assoc,
            List.cons_append, ← ih]
          rfl

theorem joinWith_splitOn (s : List Char) : joinWith '/' (s.splitOn '.') = s.map fun c => if c = '.' then '/' else c := by
  induction s with
  | nil => rfl
  | cons c s ih =>
      obtain ⟨l, ls, hl⟩ := List.exists_cons_of_ne_nil (List.splitOn_ne_nil '.' s)
      rw [List.map_cons, ← ih, List.splitOn_cons_eq_if_modifyHead]
      by_cases hc : c = '.'
      · subst hc
        rw [if_pos (beq_self_eq_true _), if_pos rfl, joinWith_cons (List.splitOn_ne_nil _ _), List.nil_append]
      · rw [if_neg (by simpa using hc), if_neg hc, hl, List.modifyHead_cons, joinWith_eq_flatMap, joinWith_eq_flatMap, List.cons_append]

theorem relativePath_eq (moduleName : List Char) :
    (moduleName.map fun c => if c = '.' then '/' else c) ++ ".vsl".toList = joinWith '/' (moduleParts moduleName) := by
  rw [← joinWith_splitOn]
  exact (joinWith_dropLast _ (List.splitOn_ne_nil _ _)).symm

/-- The components in front of the last one are those that `resolve` looks at. -/
theorem mem_splitAll_of_mem_dropLast (s : List Char) (h : c ∈ (s.splitOn '.').dropLast) : c ∈ splitAll '.' s := by
  induction hn : s.length using Nat.strong_induction_on generalizing s with
  | _ n ih =>
    by_cases hdot : '.' ∈ s
    · obtain ⟨p, rest, rfl, hp⟩ := List.eq_append_cons_of_mem hdot
      have hlt : rest.length < n := by
        rw [← hn, List.length_append, List.length_cons]
        omega
      rw [List.splitOn_append_cons_self_of_not_mem hp, List.dropLast_cons_of_ne_nil (List.splitOn_ne_nil _ _)] at h
      rw [splitAll_append_sep hp]
      rcases List.mem_cons.mp h with rfl | h
      · exact List.mem_cons_self
      · exact List.mem_cons_of_mem _ (ih _ hlt rest h rfl)
    · rw [List.splitOn_eq_singleton hdot] at h
      cases h

/-- The names of the file of an accepted module are plain names. -/
theorem isName_moduleParts (h : accepts moduleName = true) : ∀ c ∈ moduleParts moduleName, IsName c := by
  obtain ⟨hchars, hparts⟩ := Bool.and_eq_true_iff.mp h
  rw [Bool.not_eq_true', List.any_eq_false] at hchars hparts
  have hplain : ∀ c ∈ moduleName.splitOn '.', ∀ x ∈ c, x ≠ '.' ∧ isSeparator x = false ∧ x ≠ '\x00' := by
    intro c hc x hx
    obtain ⟨hdot, hmem⟩ := of_mem_splitOnP hc hx
    have hchar : ¬ (x == '\x00' || x == '/' || x == '\\') = true := hchars x hmem
    rw [Bool.or_eq_true, Bool.or_eq_true, not_or, not_or] at hchar
    refine ⟨by simpa using hdot, ?_, by simpa using hchar.1.1⟩
    rw [isSeparator, Bool.eq_false_of_not_eq_true hchar.1.2, Bool.eq_false_of_not_eq_true hchar.2]
    rfl
  have hlast : (moduleName.splitOn '.').getLastD [] ∈ moduleName.splitOn '.' := by
    obtain ⟨l, ls, hl⟩ := List.exists_cons_of_ne_nil (List.splitOn_ne_nil '.' moduleName)
    rw [hl, List.getLastD_cons]
    exact List.getLastD_mem_cons
  intro c hc
  rcases List.mem_append.mp hc with hc | hc
  · have hmem : c ∈ moduleName.splitOn '.' := List.mem_of_mem_dropLast hc
    have hgood := hparts c (mem_splitAll_of_mem_dropLast _ hc)
    rw [Bool.or_eq_true, not_or] at hgood
    refine ⟨by simpa using hgood.1, fun hdot => ?_, by simpa using hgood.2, fun x hx => (hplain c hmem x hx).2⟩
    subst hdot
    exact (hplain _ hmem '.' List.mem_cons_self).1 rfl
  · rw [List.mem_singleton.mp hc]
    have hlength : ∀ s : List Char, 4 ≤ (s ++ ".vsl".toList).length := fun s => by
      rw [List.length_append]
      exact Nat.le_add_left 4 _
    refine ⟨fun h => ?_, fun h => ?_, fun h => ?_, fun x hx => ?_⟩
    · have := h ▸ hlength _
      exact absurd this (by decide)
    · have := h ▸ hlength _
      exact absurd this (by decide)
    · have := h ▸ hlength _
      exact absurd this (by decide)
    · rcases List.mem_append.mp hx with hx | hx
      · exact (hplain _ hlast x hx).2
      · fin_cases hx
        all_goals exact ⟨rfl, by decide⟩

theorem names_joinWith (hne : cs ≠ []) (h : ∀ c ∈ cs, IsName c) : names (joinWith '/' cs) = cs := by
  have hplain : (joinWith '/' cs).filter (· != '\x00') = joinWith '/' cs :=
    List.filter_eq_self.mpr fun x hx => bne_iff_ne.mpr (mem_joinWith_slash h hx)
  rw [names, hplain, splitOnP_joinWith hne fun c hc x hx => ((h c hc).plain x hx).1]
  exact List.filter_eq_self.mpr fun c hc => by simpa using (h c hc).ne_nil

theorem rebuild_append (wasAbsolute : Bool) (ds : List (List Char)) (hds : ∀ c ∈ ds, IsName c) (hne : parts ≠ [])
    (h : ∀ c ∈ parts, IsName c) : rebuild wasAbsolute (ds ++ parts) = followedBy (rebuild wasAbsolute ds) parts := by
  cases wasAbsolute with
  | true =>
      rw [rebuild_absolute, rebuild_absolute]
      cases ds with
      | nil => rfl
      | cons d ds =>
          have hslash : '/' :: joinWith '/' (d :: ds) ≠ "/".toList := by
            rw [joinWith_eq_flatMap]
            intro heq
            have hnil := List.tail_eq_of_cons_eq heq
            exact (hds d List.mem_cons_self).ne_nil (List.append_eq_nil_iff.mp hnil).1
          rw [followedBy, if_neg (by simp), if_neg hslash, joinWith_append (List.cons_ne_nil _ _) hne]
          rfl
  | false =>
      cases ds with
      | nil =>
          obtain ⟨c, cs, rfl⟩ := List.exists_cons_of_ne_nil hne
          exact rebuild_relative (h c List.mem_cons_self).ne_nil cs
      | cons d ds =>
          have hd := hds d List.mem_cons_self
          obtain ⟨x, xs, hx⟩ := List.exists_cons_of_ne_nil hd.ne_nil
          have hdot : joinWith '/' (d :: ds) ≠ ".".toList := by
            intro heq
            have hpieces := splitOnP_joinWith (List.cons_ne_nil d ds) fun c hc x hx => ((hds c hc).plain x hx).1
            rw [heq] at hpieces
            exact hd.ne_dot (List.head_eq_of_cons_eq hpieces).symm
          have hslash : joinWith '/' (d :: ds) ≠ "/".toList := by
            rw [joinWith_eq_flatMap, hx]
            intro heq
            have hsep := (hd.plain x (hx ▸ List.mem_cons_self)).1
            rw [List.head_eq_of_cons_eq heq] at hsep
            exact absurd hsep (by decide)
          rw [List.cons_append, rebuild_relative hd.ne_nil, rebuild_relative hd.ne_nil, followedBy, if_neg hdot, if_neg hslash,
            ← List.cons_append, joinWith_append (List.cons_ne_nil _ _) hne]

/-- **A path in a directory.** -/
theorem normalizePath_append (dir : List Char) (hne : parts ≠ []) (h : ∀ c ∈ parts, IsName c) :
    normalizePath (dir ++ '/' :: joinWith '/' parts) = followedBy (directoryOf dir) parts := by
  have habs : isAbsolute (dir ++ '/' :: joinWith '/' parts) = isAbsolute (dir ++ ['/']) := by
    cases dir <;> rfl
  have hdir : names (dir ++ ['/']) = names dir := (names_append dir []).trans (List.append_nil _)
  have hnames : ∀ c ∈ (resolveComponents [] (names dir)).reverse, IsName c := fun c hc =>
    isName_of_mem_resolveComponents (fun _ h => by cases h) (fun _ => plain_of_mem_names) c (List.mem_reverse.mp hc)
  rw [directoryOf, normalizePath_eq, normalizePath_eq, habs, names_append, hdir, names_joinWith hne h, resolveComponents_append,
    resolveComponents_names h, List.reverse_append, List.reverse_reverse]
  exact rebuild_append _ _ hnames hne h

/-- The directories in which a constructed loader looks for a module, in their order. -/
def searched (pathSeparator : Char) (stdlibDir : List Char) (extraPaths : List (List Char)) (envPath : Option (List Char))
    (aliases : List Char → Option (List Char)) (moduleName importDir : List Char) : List (List Char) :=
  ((aliases moduleName).map normalizePath).toList ++ directoryOf importDir :: searchPathsOf pathSeparator extraPaths envPath ++
    [normalizePath stdlibDir]

theorem directoryOf_normalizePath (dir : List Char) : directoryOf (normalizePath dir) = normalizePath dir := by
  have hne : normalizePath dir ≠ [] := by
    rw [← canonical_text]
    exact (canonical dir).text_ne_nil
  rw [directoryOf_of_ne_nil hne, normalizePath_idem]

/-- The paths that a constructed loader tries. -/
theorem candidates_construct {pathSeparator : Char} {stdlibDir : List Char} {extraPaths : List (List Char)} {envPath : Option (List Char)}
    {aliases : List Char → Option (List Char)} {files : List Char → Option (List Char)}
    {build : List Char → List Char → List Char → Except (List Char) κ} (h : accepts moduleName = true) :
    candidates (construct pathSeparator stdlibDir extraPaths envPath aliases files build) moduleName importDir =
      (searched pathSeparator stdlibDir extraPaths envPath aliases moduleName importDir).map
        (followedBy · (moduleParts moduleName)) := by
  have hne : moduleParts moduleName ≠ [] := List.append_ne_nil_of_right_ne_nil _ (List.cons_ne_nil _ _)
  have hall : ∀ dir : List Char, normalizePath (dir ++ '/' :: ((moduleName.map fun c => if c = '.' then '/' else c) ++ ".vsl".toList)) =
      followedBy (directoryOf dir) (moduleParts moduleName) := fun dir => by
    rw [relativePath_eq, normalizePath_append dir hne (isName_moduleParts h)]
  have hcomp : directoryOf ∘ normalizePath = normalizePath := by
    funext dir
    rw [Function.comp_apply, directoryOf_normalizePath]
  have hnormal : ∀ dirs : List (List Char), (dirs.map normalizePath).map directoryOf = dirs.map normalizePath := fun dirs => by
    rw [List.map_map, hcomp]
  have hsearched : (((aliases moduleName).map normalizePath).toList ++ importDir :: searchPathsOf pathSeparator extraPaths envPath ++
      [normalizePath stdlibDir]).map directoryOf = searched pathSeparator stdlibDir extraPaths envPath aliases moduleName importDir := by
    have halias : (((aliases moduleName).map normalizePath).toList).map directoryOf = ((aliases moduleName).map normalizePath).toList := by
      cases aliases moduleName with
      | none => rfl
      | some dir => exact congrArg (· :: []) (directoryOf_normalizePath dir)
    rw [searched, List.map_append, List.map_append, List.map_cons, searchPathsOf, hnormal, halias, List.map_singleton,
      directoryOf_normalizePath]
  have hfollowed := List.map_congr_left (l := ((aliases moduleName).map normalizePath).toList ++ importDir ::
    searchPathsOf pathSeparator extraPaths envPath ++ [normalizePath stdlibDir]) fun dir _ => hall dir
  rw [← hsearched, List.map_map]
  exact hfollowed

/-- **What `resolve` finds**: for a name that is accepted, the file of that name in the first of the directories that has
one. -/
theorem resolve_ok_iff (pathSeparator : Char) (stdlibDir : List Char) (extraPaths : List (List Char)) (envPath : Option (List Char))
    (aliases : List Char → Option (List Char)) (files : List Char → Option (List Char))
    (build : List Char → List Char → List Char → Except (List Char) κ) (moduleName importDir path : List Char) :
    resolve (construct pathSeparator stdlibDir extraPaths envPath aliases files build) moduleName importDir = .ok path ↔
      accepts moduleName = true ∧ ∃ before dir after,
        searched pathSeparator stdlibDir extraPaths envPath aliases moduleName importDir = before ++ dir :: after ∧
          path = followedBy dir (moduleParts moduleName) ∧ (files path).isSome ∧
            ∀ d ∈ before, files (followedBy d (moduleParts moduleName)) = none := by
  let S := construct pathSeparator stdlibDir extraPaths envPath aliases files build
  have hresolve : resolve S moduleName importDir = .ok path ↔ accepts moduleName = true ∧
      (candidates S moduleName importDir).find? (fun path => (files path).isSome) = some path := by
    rw [resolve, accepts]
    by_cases hchars : (moduleName.any fun c => c == '\x00' || c == '/' || c == '\\') = true
    · rw [if_pos hchars, hchars]
      exact iff_of_false (fun h => by cases h) fun h => Bool.noConfusion h.1
    · rw [if_neg hchars]
      by_cases hparts : ((splitAll '.' moduleName).any fun part => part == [] || part == "..".toList) = true
      · rw [if_pos hparts, hparts, Bool.not_true, Bool.and_false]
        exact iff_of_false (fun h => by cases h) fun h => Bool.noConfusion h.1
      · rw [if_neg hparts, Bool.eq_false_of_not_eq_true hchars, Bool.eq_false_of_not_eq_true hparts]
        cases hfind : (candidates S moduleName importDir).find? fun path => (S.files path).isSome with
        | none => exact iff_of_false (fun h => by cases h) fun h => by cases hfind.symm.trans h.2
        | some found =>
            constructor
            · intro h
              exact ⟨rfl, hfind.trans (congrArg some (Except.ok.inj h))⟩
            · intro h
              exact congrArg Except.ok (Option.some_injective _ (hfind.symm.trans h.2))
  rw [hresolve]
  refine and_congr_right fun haccepts => ?_
  rw [candidates_construct haccepts, List.find?_map, Option.map_eq_some_iff]
  constructor
  · intro h
    obtain ⟨dir, hfind, rfl⟩ := h
    obtain ⟨hfile, before, after, hsplit, hbefore⟩ := List.find?_eq_some_iff_append.mp hfind
    refine ⟨before, dir, after, hsplit, rfl, hfile, fun d hd => ?_⟩
    have hnone := hbefore d hd
    simpa using hnone
  · intro h
    obtain ⟨before, dir, after, hsplit, rfl, hfile, hbefore⟩ := h
    refine ⟨dir, List.find?_eq_some_iff_append.mpr ⟨hfile, before, after, hsplit, fun d hd => ?_⟩, rfl⟩
    have hnone := hbefore d hd
    simpa using hnone

end Resolving

end Visuall.Modules
