import Visuall.Codegen.Generators

/-!
# Variables that are read from a point on

The variables that the code of a generator reads before it has written them, from a statement on and from a point of
the code on, and the resume points that come behind it.

* `Sound` — every variable that is read from a point of the code on has been written, and every `yield` that is to
  come is one of the dispatch;
* `step_keeps`, `runFor_keeps` — the steps keep that, and read no variable that has not been written.
-/

namespace Visuall.Codegen.Generators

variable {W E D : Type}

/-! ## Reads -/

/-- The variable that a statement writes for those that follow it. -/
def Code.Binds : Code W E D → Slot → Prop
  | .store slot _, s => s = slot
  | _, _ => False

mutual

/-- The variables that a statement reads before it has written them. -/
def Code.Needs : Code W E D → Slot → Prop
  | .store _ value, s => s ∈ value.operands
  | .expr e, s => s ∈ e.operands
  | .throw e, s => s ∈ e.operands
  | .yield _ _ _ value, s => s ∈ value.operands
  | .branch cond thenBB elseBB, s => s ∈ cond.operands ∨ thenBB.Needs s ∨ elseBB.Needs s
  | .whileLoop _ cond body orElse, s => s ∈ cond.operands ∨ body.Needs s ∨ orElse.Needs s
  | .forLoop _ _ vars iterable _ _ body orElse, s =>
    s ∈ iterable.operands ∨ (body.Needs s ∧ ∀ id ∈ vars, s ≠ ⟨id, .i64⟩) ∨ orElse.Needs s
  | .switch _ value cases, s => s ∈ value.operands ∨ cases.Needs s
  | .tryCatch body clauses finallyNorm, s => body.Needs s ∨ clauses.Needs s ∨ finallyNorm.Needs s
  | .tryFinally _ body finallyNorm finallyClean, s => body.Needs s ∨ finallyNorm.Needs s ∨ finallyClean.Needs s
  | .withExit _ _ expr _ asVar _ body, s =>
    s ∈ expr.operands ∨ (body.Needs s ∧ ∀ id ∈ asVar, s ≠ ⟨id, .i64⟩)
  | _, _ => False

def CodeBlock.Needs : CodeBlock W E D → Slot → Prop
  | .nil, _ => False
  | .cons c rest, s => c.Needs s ∨ (rest.Needs s ∧ ¬ c.Binds s)

def CodeCases.Needs : CodeCases W E D → Slot → Prop
  | .nil, _ => False
  | .cons operands _ body rest, s => s ∈ operands ∨ body.Needs s ∨ rest.Needs s

def CodeClauses.Needs : CodeClauses W E D → Slot → Prop
  | .nil, _ => False
  | .cons _ var body rest, s => (body.Needs s ∧ ∀ id ∈ var, s ≠ ⟨id, .ptr⟩) ∨ rest.Needs s

end

def Item.Needs : Item W E D → Slot → Prop
  | .block b, s => b.Needs s
  | .loop (.whileCond cond) _ body orElse, s => s ∈ cond.operands ∨ body.Needs s ∨ orElse.Needs s
  | .loop (.forCond _ vars _ _) _ body orElse, s =>
    (body.Needs s ∧ ∀ id ∈ vars, s ≠ ⟨id, .i64⟩) ∨ orElse.Needs s
  | .checks _ cases, s => cases.Needs s
  | .pad (.catches clauses), s => clauses.Needs s
  | .pad (.cleans _ finallyClean), s => finallyClean.Needs s
  | _, _ => False

/-- The points behind the `yield`s that can be reached from a point of the code, of which `K` is what follows. -/
def Item.points : Item W E D → Control W E D → List (Point W E D)
  | .block b, K => b.points K
  | .loop header flag body orElse, K =>
    body.points (header.increment ++ .loop header flag body orElse :: K) ++ orElse.points K
  | .checks _ cases, K => cases.points K
  | .pad (.catches clauses), K => clauses.points K
  | .pad (.cleans savedExc finallyClean), K => finallyClean.points (.resume savedExc :: K)
  | _, _ => []

/-- The points behind the `yield`s of `K` are among `T`. -/
def Known (T : List (Point W E D)) (K : Control W E D) : Prop :=
  ∀ item rest, (item :: rest) <:+ K → ∀ p ∈ item.points rest, p ∈ T

theorem Known.nil (T : List (Point W E D)) : Known T [] := by
  intro item rest h
  cases List.eq_nil_of_suffix_nil h

theorem Known.cons {T : List (Point W E D)} {K : Control W E D} {item : Item W E D}
    (hpoints : ∀ p ∈ item.points K, p ∈ T) (h : Known T K) : Known T (item :: K) := by
  intro i rest hsuffix
  rcases List.suffix_cons_iff.mp hsuffix with heq | hsuffix
  · obtain ⟨rfl, rfl⟩ := List.cons.inj heq
    exact hpoints
  · exact h i rest hsuffix

/-- The variables that are read from `K` on have been written, and the points behind its `yield`s are among `T`. -/
structure Sound (T : List (Point W E D)) (K : Control W E D) (f : Frame E D) : Prop where
  written : ∀ item ∈ K, ∀ s, item.Needs s → (f.vars s).isSome
  known : Known T K

/-- A move that reads only variables that have been written, to where that is so as well. -/
def Move.Keeps (T : List (Point W E D)) : Move W E D → Prop
  | .goes s => Sound T s.control s.frame
  | .yields _ state tracked s => Sound T s.control s.frame ∧ ⟨state, tracked, s.control⟩ ∈ T
  | .unset => False
  | _ => True

section Points

variable {T : List (Point W E D)}

mutual

/-- Behind a resume point come only points that are among those it is one of. -/
theorem Code.points_known : ∀ (c : Code W E D) {K : Control W E D}, Known T K → (∀ p ∈ c.points K, p ∈ T) →
    ∀ p ∈ c.points K, Known T p.control
  | .yield state tracked type value, K, hK, _, p, hp => by
    obtain rfl := List.mem_singleton.mp hp
    exact hK
  | .branch cond thenBB elseBB, K, hK, hT, p, hp => by
    rcases List.mem_append.mp hp with hp | hp
    · exact thenBB.points_known hK (fun q hq => hT q (List.mem_append_left _ hq)) p hp
    · exact elseBB.points_known hK (fun q hq => hT q (List.mem_append_right _ hq)) p hp
  | .whileLoop flag cond body orElse, K, hK, hT, p, hp => by
    have hloop : Known T (.loop (.whileCond cond) flag body orElse :: K) := hK.cons hT
    rcases List.mem_append.mp hp with hp | hp
    · exact body.points_known hloop (fun q hq => hT q (List.mem_append_left _ hq)) p hp
    · exact orElse.points_known hK (fun q hq => hT q (List.mem_append_right _ hq)) p hp
  | .forLoop flag idx vars iterable element advance body orElse, K, hK, hT, p, hp => by
    have hloop : Known T (.loop (.forCond idx vars element advance) flag body orElse :: K) := hK.cons hT
    have hinc : Known T (.inc idx advance :: .loop (.forCond idx vars element advance) flag body orElse :: K) :=
      hloop.cons fun q hq => by cases hq
    rcases List.mem_append.mp hp with hp | hp
    · exact body.points_known hinc (fun q hq => hT q (List.mem_append_left _ hq)) p hp
    · exact orElse.points_known hK (fun q hq => hT q (List.mem_append_right _ hq)) p hp
  | .switch subject value cases, K, hK, hT, p, hp => cases.points_known hK hT p hp
  | .tryCatch body clauses finallyNorm, K, hK, hT, p, hp => by
    have hnormT : ∀ q ∈ finallyNorm.points K, q ∈ T := fun q hq =>
      hT q (List.mem_append_right _ (List.mem_append_right _ hq))
    have hclausesT : ∀ q ∈ clauses.points (.block finallyNorm :: K), q ∈ T := fun q hq =>
      hT q (List.mem_append_right _ (List.mem_append_left _ hq))
    have hnorm : Known T (.block finallyNorm :: K) := hK.cons hnormT
    have hpad : Known T (.pad (.catches clauses) :: .block finallyNorm :: K) := hnorm.cons hclausesT
    rcases List.mem_append.mp hp with hp | hp
    · exact body.points_known hpad (fun q hq => hT q (List.mem_append_left _ hq)) p hp
    · rcases List.mem_append.mp hp with hp | hp
      · exact clauses.points_known hnorm hclausesT p hp
      · exact finallyNorm.points_known hK hnormT p hp
  | .tryFinally savedExc body finallyNorm finallyClean, K, hK, hT, p, hp => by
    have hnormT : ∀ q ∈ finallyNorm.points K, q ∈ T := fun q hq =>
      hT q (List.mem_append_right _ (List.mem_append_left _ hq))
    have hcleanT : ∀ q ∈ finallyClean.points (.resume savedExc :: .block finallyNorm :: K), q ∈ T := fun q hq =>
      hT q (List.mem_append_right _ (List.mem_append_right _ hq))
    have hnorm : Known T (.block finallyNorm :: K) := hK.cons hnormT
    have hpad : Known T (.pad (.cleans savedExc finallyClean) :: .block finallyNorm :: K) := hnorm.cons hcleanT
    have hresume : Known T (.resume savedExc :: .block finallyNorm :: K) := hnorm.cons fun q hq => by cases hq
    rcases List.mem_append.mp hp with hp | hp
    · exact body.points_known hpad (fun q hq => hT q (List.mem_append_left _ hq)) p hp
    · rcases List.mem_append.mp hp with hp | hp
      · exact finallyNorm.points_known hK hnormT p hp
      · exact finallyClean.points_known hresume hcleanT p hp
  | .withExit ctx savedExc expr enter asVar exit body, K, hK, hT, p, hp => by
    have hexit : Known T (.exit true ctx exit :: K) := hK.cons fun q hq => by cases hq
    have hpad : Known T (.pad (.exits ctx savedExc exit) :: .exit true ctx exit :: K) :=
      hexit.cons fun q hq => by cases hq
    exact body.points_known hpad hT p hp
  | .store _ _, _, _, _, _, hp => by cases hp
  | .expr _, _, _, _, _, hp => by cases hp
  | .throw _, _, _, _, _, hp => by cases hp
  | .breakTo, _, _, _, _, hp => by cases hp
  | .continueTo, _, _, _, _, hp => by cases hp
  | .ret, _, _, _, _, hp => by cases hp
  | .nothing, _, _, _, _, hp => by cases hp

theorem CodeBlock.points_known : ∀ (b : CodeBlock W E D) {K : Control W E D}, Known T K →
    (∀ p ∈ b.points K, p ∈ T) → ∀ p ∈ b.points K, Known T p.control
  | .nil, _, _, _, _, hp => by cases hp
  | .cons c rest, K, hK, hT, p, hp => by
    have hrestT : ∀ q ∈ rest.points K, q ∈ T := fun q hq => hT q (List.mem_append_right _ hq)
    have hblock : Known T (.block rest :: K) := hK.cons hrestT
    rcases List.mem_append.mp hp with hp | hp
    · exact c.points_known hblock (fun q hq => hT q (List.mem_append_left _ hq)) p hp
    · exact rest.points_known hK hrestT p hp

theorem CodeCases.points_known : ∀ (cases : CodeCases W E D) {K : Control W E D}, Known T K →
    (∀ p ∈ cases.points K, p ∈ T) → ∀ p ∈ cases.points K, Known T p.control
  | .nil, _, _, _, _, hp => by cases hp
  | .cons _ _ body rest, K, hK, hT, p, hp => by
    rcases List.mem_append.mp hp with hp | hp
    · exact body.points_known hK (fun q hq => hT q (List.mem_append_left _ hq)) p hp
    · exact rest.points_known hK (fun q hq => hT q (List.mem_append_right _ hq)) p hp

theorem CodeClauses.points_known : ∀ (clauses : CodeClauses W E D) {K : Control W E D}, Known T K →
    (∀ p ∈ clauses.points K, p ∈ T) → ∀ p ∈ clauses.points K, Known T p.control
  | .nil, _, _, _, _, hp => by cases hp
  | .cons _ _ body rest, K, hK, hT, p, hp => by
    rcases List.mem_append.mp hp with hp | hp
    · exact body.points_known hK (fun q hq => hT q (List.mem_append_left _ hq)) p hp
    · exact rest.points_known hK (fun q hq => hT q (List.mem_append_right _ hq)) p hp

end

end Points

/-! ## Frames in which more has been written -/

/-- A frame in which more has been written. -/
def Frame.Grows (f f' : Frame E D) : Prop := ∀ s, (f.vars s).isSome → (f'.vars s).isSome

theorem Frame.set_written (f : Frame E D) (s : Slot) (bits : BitVec s.type.width) :
    ((f.set s bits).vars s).isSome := by
  rw [Frame.set_vars_self]
  rfl

namespace Frame.Grows

variable {f f' : Frame E D}

theorem refl (f : Frame E D) : f.Grows f := fun _ h => h

theorem set (f : Frame E D) (s : Slot) (bits : BitVec s.type.width) : f.Grows (f.set s bits) := by
  intro t ht
  by_cases hst : t = s
  · subst hst
    exact Frame.set_written f t bits
  · rw [Frame.set_vars_of_ne _ hst]
    exact ht

theorem setHidden (f : Frame E D) (id : ℕ) (x : Hidden E D) : f.Grows (f.setHidden id x) := fun _ h => h

theorem clear (f : Frame E D) (flag : Option ℕ) : f.Grows (f.clear flag) := by
  cases flag with
  | none => exact refl f
  | some id => exact setHidden f id _

theorem setWords (f : Frame E D) (element : ℕ → Word) (i : ℕ) (ids : List ℕ) : f.Grows (f.setWords element i ids) := by
  induction ids generalizing f i with
  | nil => exact refl f
  | cons id ids ih =>
    intro s hs
    exact ih _ _ s (set f ⟨id, .i64⟩ _ s hs)

end Frame.Grows

/-- The variables of a loop have been written. -/
theorem Frame.setWords_written (f : Frame E D) (element : ℕ → Word) (i : ℕ) (ids : List ℕ) {id : ℕ} (h : id ∈ ids) :
    ((f.setWords element i ids).vars ⟨id, .i64⟩).isSome := by
  induction ids generalizing f i with
  | nil => cases h
  | cons id' ids ih =>
    rcases List.mem_cons.mp h with rfl | hmem
    · apply Frame.Grows.setWords (f.set ⟨id, .i64⟩ (element i))
      exact Frame.set_written f ⟨id, .i64⟩ (element i)
    · exact ih _ _ hmem

theorem Frame.read_isSome {f : Frame E D} {slots : List Slot} (h : ∀ s ∈ slots, (f.vars s).isSome) :
    ∃ values, f.read slots = some values := by
  induction slots with
  | nil => exact ⟨[], rfl⟩
  | cons s slots ih =>
    obtain ⟨values, hvalues⟩ := ih fun t ht => h t (List.mem_cons_of_mem s ht)
    obtain ⟨bits, hbits⟩ := Option.isSome_iff_exists.mp (h s List.mem_cons_self)
    unfold Frame.read at hvalues ⊢
    rw [List.mapM_cons, hbits, hvalues]
    exact ⟨_, rfl⟩

namespace Sound

variable {T : List (Point W E D)} {K : Control W E D} {f f' : Frame E D} {item : Item W E D}

theorem cons (hwritten : ∀ s, item.Needs s → (f.vars s).isSome) (hknown : ∀ p ∈ item.points K, p ∈ T)
    (h : Sound T K f) : Sound T (item :: K) f := by
  constructor
  · intro i hi
    rcases List.mem_cons.mp hi with rfl | hi
    · exact hwritten
    · exact h.written i hi
  · exact h.known.cons hknown

theorem tail (h : Sound T (item :: K) f) : Sound T K f :=
  ⟨fun i hi => h.written i (List.mem_cons_of_mem item hi),
    fun i rest hsuffix => h.known i rest (hsuffix.trans (List.suffix_cons item K))⟩

theorem head_written (h : Sound T (item :: K) f) : ∀ s, item.Needs s → (f.vars s).isSome :=
  h.written item List.mem_cons_self

theorem head_known (h : Sound T (item :: K) f) : ∀ p ∈ item.points K, p ∈ T := h.known item K (List.suffix_refl _)

theorem grows (h : Sound T K f) (hf : f.Grows f') : Sound T K f' :=
  ⟨fun i hi s hs => hf s (h.written i hi s hs), h.known⟩

/-- What reads nothing and yields nothing. -/
theorem cons_silent (h : Sound T K f) (hneeds : ∀ s, ¬ item.Needs s) (hpoints : item.points K = []) :
    Sound T (item :: K) f := by
  apply h.cons
  · intro s hs
    exact absurd hs (hneeds s)
  · rw [hpoints]
    intro p hp
    cases hp

end Sound

/-! ## Steps -/

section Keeps

variable (R : Runtime W E) {T : List (Point W E D)} {K : Control W E D} {f : Frame E D}

/-- The body of the clause that takes an exception. -/
theorem select_sound (e : E) {var : Option ℕ} {body : CodeBlock W E D} : ∀ {clauses : CodeClauses W E D},
    clauses.select e = some (var, body) → (∀ s, clauses.Needs s → (f.vars s).isSome) →
      (∀ p ∈ clauses.points K, p ∈ T) →
        (∀ s, body.Needs s ∧ (∀ id ∈ var, s ≠ ⟨id, .ptr⟩) → (f.vars s).isSome) ∧ ∀ p ∈ body.points K, p ∈ T
  | .nil, hselect, _, _ => by cases hselect
  | .cons takes var' body' rest, hselect, hwritten, hknown => by
    rw [CodeClauses.select] at hselect
    by_cases htakes : takes e
    · rw [if_pos htakes] at hselect
      obtain ⟨rfl, rfl⟩ := Prod.mk.inj (Option.some.inj hselect)
      exact ⟨fun s hs => hwritten s (.inl hs), fun p hp => hknown p (List.mem_append_left _ hp)⟩
    · rw [if_neg htakes] at hselect
      exact select_sound e hselect (fun s hs => hwritten s (.inr hs)) fun p hp =>
        hknown p (List.mem_append_right _ hp)

/-- What is needed apart from a variable that has just been written. -/
theorem written_set {s : Slot} (bits : BitVec s.type.width) {P : Slot → Prop}
    (h : ∀ t, P t ∧ t ≠ s → (f.vars t).isSome) (t : Slot) (ht : P t) : ((f.set s bits).vars t).isSome := by
  by_cases hst : t = s
  · subst hst
    exact Frame.set_written f t bits
  · rw [Frame.set_vars_of_ne f hst]
    exact h t ⟨ht, hst⟩

theorem land_keeps (h : Sound T K f) (e : E) (w : W) : (land R e K f w).Keeps T := by
  induction K with
  | nil => trivial
  | cons item K ih =>
    cases item with
    | pad p =>
      cases p with
      | catches clauses =>
        unfold land
        cases hselect : clauses.select e with
        | none => exact h.tail
        | some clause =>
          obtain ⟨var, body⟩ := clause
          obtain ⟨hwritten, hknown⟩ := select_sound e hselect h.head_written h.head_known
          cases var with
          | none =>
            apply h.tail.cons
            · intro s hs
              exact hwritten s ⟨hs, fun id hid => by cases hid⟩
            · exact hknown
          | some id =>
            apply (h.tail.grows (Frame.Grows.set f ⟨id, .ptr⟩ (R.msg e))).cons
            · apply written_set
              intro s hs
              apply hwritten s
              constructor
              · exact hs.1
              · intro id' hid'
                obtain rfl := Option.some.inj hid'
                exact hs.2
            · exact hknown
      | cleans savedExc finallyClean =>
        unfold land
        by_cases hh : R.handled w
        · rw [if_pos hh]
          have hresume : Sound T (.resume savedExc :: K) f := h.tail.cons_silent (fun s hs => hs) rfl
          have hclean : Sound T (.block finallyClean :: .resume savedExc :: K) f :=
            hresume.cons h.head_written h.head_known
          exact hclean.grows (Frame.Grows.setHidden f _ _)
        · rw [if_neg hh]
          trivial
      | exits ctx savedExc exit =>
        unfold land
        by_cases hh : R.handled w
        · rw [if_pos hh]
          have hresume : Sound T (.resume savedExc :: K) f := h.tail.cons_silent (fun s hs => hs) rfl
          have hexit : Sound T (.exit false ctx exit :: .resume savedExc :: K) f :=
            hresume.cons_silent (fun s hs => hs) rfl
          exact hexit.grows (Frame.Grows.setHidden f _ _)
        · rw [if_neg hh]
          trivial
    | _ => exact ih h.tail

theorem unwind_keeps (h : Sound T K f) (r : Raised E) (w : W) : (unwind R r K f w).Keeps T := by
  unfold unwind
  by_cases hr : r.invoked
  · rw [if_pos hr]
    exact land_keeps R h r.exc w
  · rw [if_neg hr]
    trivial

theorem settle_keeps {α : Type} (hunwind : ∀ r w, (unwind R r K f w).Keeps T) (o : Outcome W E α)
    {k : α → W → Move W E D} (hk : ∀ a w, (k a w).Keeps T) : (settle R o K f k).Keeps T := by
  obtain ⟨w, r⟩ := o
  cases r with
  | error r => exact hunwind r w
  | ok a => exact hk a w

theorem evaluate_keeps {α : Type} {operands : List Slot} (hoperands : ∀ s ∈ operands, (f.vars s).isSome)
    (hunwind : ∀ r w, (unwind R r K f w).Keeps T) (run : W → List Value → Outcome W E α) (w : W)
    {k : α → W → Move W E D} (hk : ∀ a w, (k a w).Keeps T) : (evaluate R operands run K f w k).Keeps T := by
  obtain ⟨values, hvalues⟩ := Frame.read_isSome hoperands
  unfold evaluate
  rw [hvalues]
  exact settle_keeps R hunwind _ hk

theorem loadData_keeps (id : ℕ) {k : D → Move W E D} (hk : ∀ d, (k d).Keeps T) : (loadData f id k).Keeps T := by
  unfold loadData
  cases f.hidden id with
  | none => trivial
  | some x =>
    cases x with
    | data d => exact hk d
    | _ => trivial

theorem leaveLoop_keeps (h : Sound T K f) {orElse : CodeBlock W E D}
    (hwritten : ∀ s, orElse.Needs s → (f.vars s).isSome) (hknown : ∀ p ∈ orElse.points K, p ∈ T)
    (flag : Option ℕ) (w : W) : (leaveLoop flag orElse K f w).Keeps T := by
  cases flag with
  | none => exact h
  | some id =>
    simp only [leaveLoop]
    cases f.hidden id with
    | none => trivial
    | some x =>
      cases x with
      | flag didBreak =>
        cases didBreak with
        | true => exact h
        | false => exact h.cons hwritten hknown
      | _ => trivial

theorem breakTo_keeps (h : Sound T K f) (w : W) : (breakTo K f w).Keeps T := by
  induction K with
  | nil => exact h
  | cons item K ih =>
    cases item with
    | loop header flag body orElse =>
      have hwritten : ∀ s, orElse.Needs s → (f.vars s).isSome := by
        intro s hs
        apply h.head_written s
        cases header with
        | whileCond cond => exact .inr (.inr hs)
        | forCond idx vars element advance => exact .inr hs
      have hknown : ∀ p ∈ orElse.points K, p ∈ T := fun p hp => h.head_known p (List.mem_append_right _ hp)
      cases flag with
      | none => exact leaveLoop_keeps h.tail hwritten hknown none w
      | some id =>
        exact leaveLoop_keeps (f := f.setHidden id _) (h.tail.grows (Frame.Grows.setHidden f id _)) hwritten hknown
          (some id) w
    | _ => exact ih h.tail

theorem continueTo_keeps (h : Sound T K f) (w : W) : (continueTo K f w).Keeps T := by
  induction K with
  | nil => exact h
  | cons item K ih =>
    cases item with
    | loop header flag body orElse => exact h
    | _ => exact ih h.tail

/-- One statement keeps what follows it, and the rest of its block. -/
theorem exec_keeps (c : Code W E D) (rest : CodeBlock W E D) (h : Sound T (.block (.cons c rest) :: K) f) (w : W) :
    (exec R c (.block rest :: K) f w).Keeps T := by
  have hneeds : ∀ s, c.Needs s → (f.vars s).isSome := fun s hs => h.head_written s (.inl hs)
  have hpoints : ∀ p ∈ c.points (.block rest :: K), p ∈ T := fun p hp => h.head_known p (List.mem_append_left _ hp)
  have hrest : ∀ s, rest.Needs s ∧ ¬ c.Binds s → (f.vars s).isSome := fun s hs => h.head_written s (.inr hs)
  have hrestPoints : ∀ p ∈ rest.points K, p ∈ T := fun p hp => h.head_known p (List.mem_append_right _ hp)
  have hunwind : ∀ r w, (unwind R r (.block rest :: K) f w).Keeps T := fun r w => unwind_keeps R h.tail r w
  have hK := h.tail
  clear h
  -- Only an assignment has written a variable for the rest of the block.
  by_cases hbinds : ∃ s, c.Binds s
  · obtain ⟨s, hs⟩ := hbinds
    cases c with
    | store slot value =>
      apply evaluate_keeps R hneeds hunwind
      intro bits w
      exact (hK.grows (Frame.Grows.set f slot bits)).cons (written_set bits hrest) hrestPoints
    | _ => exact hs.elim
  · have hnext : Sound T (.block rest :: K) f :=
      hK.cons (fun s hs => hrest s ⟨hs, fun hb => hbinds ⟨s, hb⟩⟩) hrestPoints
    clear hrest hrestPoints hK
    generalize (.block rest :: K : Control W E D) = K' at *
    cases c with
    | store slot value => exact absurd ⟨slot, rfl⟩ hbinds
    | expr e => exact evaluate_keeps R hneeds hunwind e.run w fun _ w => hnext
    | throw e => exact evaluate_keeps R hneeds hunwind e.run w fun exc w => hunwind ⟨exc, true⟩ w
    | yield state tracked type value =>
      exact evaluate_keeps R hneeds hunwind value.run w fun bits w => ⟨hnext, hpoints _ List.mem_cons_self⟩
    | branch cond thenBB elseBB =>
      apply evaluate_keeps R (fun s hs => hneeds s (.inl hs)) hunwind
      intro b w
      cases b with
      | true =>
        exact hnext.cons (fun s hs => hneeds s (.inr (.inl hs))) fun p hp => hpoints p (List.mem_append_left _ hp)
      | false =>
        exact hnext.cons (fun s hs => hneeds s (.inr (.inr hs))) fun p hp => hpoints p (List.mem_append_right _ hp)
    | whileLoop flag cond body orElse =>
      have hloop : Sound T (.loop (.whileCond cond) flag body orElse :: K') f := hnext.cons hneeds hpoints
      exact hloop.grows (Frame.Grows.clear f flag)
    | forLoop flag idx vars iterable element advance body orElse =>
      have hclear := Frame.Grows.clear f flag
      apply evaluate_keeps R (fun s hs => hclear s (hneeds s (.inl hs))) fun r w =>
        unwind_keeps R (hnext.grows hclear) r w
      intro d w
      have hloop : Sound T (.loop (.forCond idx vars element advance) flag body orElse :: K') f :=
        hnext.cons (fun s hs => hneeds s (.inr hs)) hpoints
      exact (hloop.grows hclear).grows (Frame.Grows.setHidden _ idx _)
    | switch subject value cases =>
      apply evaluate_keeps R (fun s hs => hneeds s (.inl hs)) hunwind
      intro d w
      have hchecks : Sound T (.checks subject cases :: K') f :=
        hnext.cons (fun s hs => hneeds s (.inr hs)) hpoints
      exact hchecks.grows (Frame.Grows.setHidden f subject _)
    | tryCatch body clauses finallyNorm =>
      have hnorm : Sound T (.block finallyNorm :: K') f :=
        hnext.cons (fun s hs => hneeds s (.inr (.inr hs))) fun p hp =>
          hpoints p (List.mem_append_right _ (List.mem_append_right _ hp))
      have hpad : Sound T (.pad (.catches clauses) :: .block finallyNorm :: K') f :=
        hnorm.cons (fun s hs => hneeds s (.inr (.inl hs))) fun p hp =>
          hpoints p (List.mem_append_right _ (List.mem_append_left _ hp))
      exact hpad.cons (fun s hs => hneeds s (.inl hs)) fun p hp => hpoints p (List.mem_append_left _ hp)
    | tryFinally savedExc body finallyNorm finallyClean =>
      have hnorm : Sound T (.block finallyNorm :: K') f :=
        hnext.cons (fun s hs => hneeds s (.inr (.inl hs))) fun p hp =>
          hpoints p (List.mem_append_right _ (List.mem_append_left _ hp))
      have hpad : Sound T (.pad (.cleans savedExc finallyClean) :: .block finallyNorm :: K') f :=
        hnorm.cons (fun s hs => hneeds s (.inr (.inr hs))) fun p hp =>
          hpoints p (List.mem_append_right _ (List.mem_append_right _ hp))
      exact hpad.cons (fun s hs => hneeds s (.inl hs)) fun p hp => hpoints p (List.mem_append_left _ hp)
    | withExit ctx savedExc expr enter asVar exit body =>
      apply evaluate_keeps R (fun s hs => hneeds s (.inl hs)) hunwind
      intro d w
      have hctx := Frame.Grows.setHidden f ctx (.data d)
      apply settle_keeps R fun r w => unwind_keeps R (hnext.grows hctx) r w
      intro word w
      have hexit : Sound T (.exit true ctx exit :: K') f := hnext.cons_silent (fun s hs => hs) rfl
      have hpad : Sound T (.pad (.exits ctx savedExc exit) :: .exit true ctx exit :: K') f :=
        hexit.cons_silent (fun s hs => hs) rfl
      cases asVar with
      | none =>
        exact (hpad.grows hctx).cons (fun s hs => hneeds s (.inr ⟨hs, fun id hid => by cases hid⟩)) hpoints
      | some id =>
        apply (hpad.grows fun s hs => Frame.Grows.set (f.setHidden ctx (.data d)) ⟨id, .i64⟩ word s hs).cons
        · apply written_set
          intro s hs
          apply hneeds s
          apply Or.inr
          constructor
          · exact hs.1
          · intro id' hid'
            obtain rfl := Option.some.inj hid'
            exact hs.2
        · exact hpoints
    | breakTo => exact breakTo_keeps hnext w
    | continueTo => exact continueTo_keeps hnext w
    | ret => trivial
    | nothing => exact hnext

theorem stepItem_keeps (item : Item W E D) (h : Sound T (item :: K) f) (w : W) : (stepItem R item K f w).Keeps T := by
  have hwritten := h.head_written
  have hknown := h.head_known
  have hK := h.tail
  have hunwind : ∀ r w, (unwind R r K f w).Keeps T := fun r w => unwind_keeps R hK r w
  cases item with
  | block b =>
    cases b with
    | nil => exact hK
    | cons c rest => exact exec_keeps R c rest h w
  | loop header flag body orElse =>
    cases header with
    | whileCond cond =>
      apply evaluate_keeps R (fun s hs => hwritten s (.inl hs)) hunwind
      intro b w
      cases b with
      | true =>
        exact h.cons (fun s hs => hwritten s (.inr (.inl hs))) fun p hp => hknown p (List.mem_append_left _ hp)
      | false =>
        exact leaveLoop_keeps hK (fun s hs => hwritten s (.inr (.inr hs)))
          (fun p hp => hknown p (List.mem_append_right _ hp)) flag w
    | forCond idx vars element advance =>
      apply loadData_keeps
      intro d
      apply settle_keeps R hunwind
      intro elem w
      cases elem with
      | none =>
        exact leaveLoop_keeps hK (fun s hs => hwritten s (.inr hs))
          (fun p hp => hknown p (List.mem_append_right _ hp)) flag w
      | some elem =>
        have hinc : Sound T (.inc idx advance :: .loop (.forCond idx vars element advance) flag body orElse :: K) f :=
          h.cons_silent (fun s hs => hs) rfl
        apply (hinc.grows (Frame.Grows.setWords f elem 0 vars)).cons
        · intro s hs
          by_cases hvar : ∃ id ∈ vars, s = ⟨id, .i64⟩
          · obtain ⟨id, hid, rfl⟩ := hvar
            exact Frame.setWords_written f elem 0 vars hid
          · apply Frame.Grows.setWords
            exact hwritten s (.inl ⟨hs, fun id hid heq => hvar ⟨id, hid, heq⟩⟩)
        · intro p hp
          exact hknown p (List.mem_append_left _ hp)
  | inc idx advance =>
    apply loadData_keeps
    intro d
    exact hK.grows (Frame.Grows.setHidden f idx _)
  | checks subject cases =>
    cases cases with
    | nil => exact hK
    | cons operands test body rest =>
      apply loadData_keeps
      intro d
      apply evaluate_keeps R (fun s hs => hwritten s (.inl hs)) hunwind
      intro b w
      cases b with
      | true =>
        exact hK.cons (fun s hs => hwritten s (.inr (.inl hs))) fun p hp => hknown p (List.mem_append_left _ hp)
      | false =>
        exact hK.cons (fun s hs => hwritten s (.inr (.inr hs))) fun p hp => hknown p (List.mem_append_right _ hp)
  | pad p => exact hK
  | exit invoked ctx exit =>
    apply loadData_keeps
    intro d
    obtain ⟨w, r⟩ := exit d w
    cases r with
    | error r => exact hunwind _ w
    | ok _ => exact hK
  | resume savedExc =>
    rw [stepItem]
    cases f.hidden savedExc with
    | none => trivial
    | some x =>
      cases x with
      | exc e => trivial
      | _ => trivial

/-- **A step from where all that is read has been written** leads to where that is so as well. -/
theorem step_keeps {s : State W E D} (h : Sound T s.control s.frame) : (step R s).Keeps T := by
  obtain ⟨K, f, w⟩ := s
  cases K with
  | nil => trivial
  | cons item K => exact stepItem_keeps R item h w

/-- So does a run. -/
theorem runFor_keeps (n : ℕ) {s : State W E D} (h : Sound T s.control s.frame) {m : Move W E D}
    (hrun : runFor R n s = some m) : m.Keeps T := by
  induction n generalizing s with
  | zero => cases hrun
  | succ n ih =>
    have hstep := step_keeps R h
    unfold runFor at hrun
    cases hs : step R s with
    | goes t =>
      rw [hs] at hstep hrun
      exact ih hstep hrun
    | _ =>
      rw [hs] at hstep hrun
      obtain rfl := Option.some.inj hrun
      exact hstep

end Keeps

end Visuall.Codegen.Generators
