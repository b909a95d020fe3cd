import Visuall.Codegen.Generators

/-!
# Frames in which less has been written

Behind a `yield` the resume function runs in a new frame, in which only the tracked variables have been written.  A
frame in which less has been written takes the same steps, until it reads what is missing: `step_le`, and `runFor_le`
for whole runs.
-/

namespace Visuall.Codegen.Generators

variable {W E D : Type}

/-! ## Frames in which less has been written -/

/-- What is written in the first frame is written in the second one, and is the same. -/
structure Frame.Le (f f' : Frame E D) : Prop where
  vars : ∀ s bits, f.vars s = some bits → f'.vars s = some bits
  hidden : ∀ id h, f.hidden id = some h → f'.hidden id = some h

namespace Frame.Le

variable {f f' : Frame E D}

theorem refl (f : Frame E D) : f.Le f := ⟨fun _ _ h => h, fun _ _ h => h⟩

theorem trans {f'' : Frame E D} (h : f.Le f') (h' : f'.Le f'') : f.Le f'' :=
  ⟨fun s bits hs => h'.vars s bits (h.vars s bits hs), fun id x hx => h'.hidden id x (h.hidden id x hx)⟩

theorem set (h : f.Le f') (s : Slot) (bits : BitVec s.type.width) : (f.set s bits).Le (f'.set s bits) := by
  constructor
  · intro t b ht
    by_cases hst : t = s
    · subst hst
      rw [Frame.set_vars_self] at ht ⊢
      exact ht
    · rw [Frame.set_vars_of_ne _ hst] at ht ⊢
      exact h.vars t b ht
  · exact h.hidden

theorem setHidden (h : f.Le f') (id : ℕ) (x : Hidden E D) : (f.setHidden id x).Le (f'.setHidden id x) := by
  constructor
  · exact h.vars
  · intro t y ht
    by_cases hid : t = id
    · subst hid
      rw [Frame.setHidden_hidden_self] at ht ⊢
      exact ht
    · rw [Frame.setHidden_hidden_of_ne _ hid] at ht ⊢
      exact h.hidden t y ht

theorem setWords (h : f.Le f') (element : ℕ → Word) (i : ℕ) (ids : List ℕ) :
    (f.setWords element i ids).Le (f'.setWords element i ids) := by
  induction ids generalizing f f' i with
  | nil => exact h
  | cons id ids ih => exact ih (h.set _ _) (i + 1)

theorem clear (h : f.Le f') (flag : Option ℕ) : (f.clear flag).Le (f'.clear flag) := by
  cases flag with
  | none => exact h
  | some id => exact h.setHidden id _

theorem read (h : f.Le f') {slots : List Slot} {values : List Value} (hr : f.read slots = some values) :
    f'.read slots = some values := by
  induction slots generalizing values with
  | nil => exact hr
  | cons s slots ih =>
    unfold Frame.read at hr ih ⊢
    rw [List.mapM_cons] at hr ⊢
    simp only [Option.bind_eq_bind, Option.bind_eq_some_iff, Option.map_eq_some_iff] at hr ⊢
    obtain ⟨v, ⟨bits, hbits, hv⟩, vs, hvs, hvalues⟩ := hr
    exact ⟨v, ⟨bits, h.vars s bits hbits, hv⟩, vs, ih hvs, hvalues⟩

end Frame.Le

structure State.Le (s s' : State W E D) : Prop where
  control : s.control = s'.control
  frame : s.frame.Le s'.frame
  world : s.world = s'.world

/-- The moves are the same, unless the first one reads what has not been written. -/
def Move.Le : Move W E D → Move W E D → Prop
  | .unset, _ => True
  | .lost, _ => True
  | .goes s, .goes s' => s.Le s'
  | .yields word state tracked s, .yields word' state' tracked' s' =>
    word = word' ∧ state = state' ∧ tracked = tracked' ∧ s.Le s'
  | .returns w, .returns w' => w = w'
  | .raises e w, .raises e' w' => e = e' ∧ w = w'
  | _, _ => False

section Le

variable (R : Runtime W E) {f f' : Frame E D} {K : Control W E D}

theorem Frame.Le.goes (h : f.Le f') (K : Control W E D) (w : W) :
    Move.Le (.goes ⟨K, f, w⟩) (.goes ⟨K, f', w⟩) := ⟨rfl, h, rfl⟩

theorem land_le (h : f.Le f') (e : E) (K : Control W E D) (w : W) :
    Move.Le (land R e K f w) (land R e K f' w) := by
  induction K with
  | nil => exact ⟨rfl, rfl⟩
  | cons item K ih =>
    cases item with
    | pad p =>
      cases p with
      | catches clauses =>
        unfold land
        cases clauses.select e with
        | none => exact h.goes K w
        | some clause =>
          obtain ⟨var, body⟩ := clause
          cases var with
          | none => exact h.goes _ w
          | some id => exact (h.set _ _).goes _ w
      | cleans savedExc finallyClean =>
        unfold land
        by_cases hh : R.handled w
        · rw [if_pos hh, if_pos hh]
          exact (h.setHidden _ _).goes _ w
        · rw [if_neg hh, if_neg hh]
          exact ⟨rfl, rfl⟩
      | exits ctx savedExc exit =>
        unfold land
        by_cases hh : R.handled w
        · rw [if_pos hh, if_pos hh]
          exact (h.setHidden _ _).goes _ w
        · rw [if_neg hh, if_neg hh]
          exact ⟨rfl, rfl⟩
    | _ => exact ih

theorem unwind_le (h : f.Le f') (r : Raised E) (K : Control W E D) (w : W) :
    Move.Le (unwind R r K f w) (unwind R r K f' w) := by
  unfold unwind
  by_cases hr : r.invoked
  · rw [if_pos hr, if_pos hr]
    exact land_le R h r.exc K w
  · rw [if_neg hr, if_neg hr]
    exact ⟨rfl, rfl⟩

theorem settle_le {α : Type} (h : f.Le f') (o : Outcome W E α) (K : Control W E D) {k k' : α → W → Move W E D}
    (hk : ∀ a w, Move.Le (k a w) (k' a w)) : Move.Le (settle R o K f k) (settle R o K f' k') := by
  obtain ⟨w, r⟩ := o
  cases r with
  | error r => exact unwind_le R h r K w
  | ok a => exact hk a w

theorem evaluate_le {α : Type} (h : f.Le f') (operands : List Slot) (run : W → List Value → Outcome W E α)
    (K : Control W E D) (w : W) {k k' : α → W → Move W E D} (hk : ∀ a w, Move.Le (k a w) (k' a w)) :
    Move.Le (evaluate R operands run K f w k) (evaluate R operands run K f' w k') := by
  unfold evaluate
  cases hr : f.read operands with
  | none => trivial
  | some values =>
    rw [h.read hr]
    exact settle_le R h _ K hk

theorem loadData_le (h : f.Le f') (id : ℕ) {k k' : D → Move W E D} (hk : ∀ d, Move.Le (k d) (k' d)) :
    Move.Le (loadData f id k) (loadData f' id k') := by
  unfold loadData
  cases hid : f.hidden id with
  | none => trivial
  | some x =>
    rw [h.hidden id x hid]
    cases x with
    | data d => exact hk d
    | _ => trivial

theorem leaveLoop_le (h : f.Le f') (flag : Option ℕ) (orElse : CodeBlock W E D) (K : Control W E D) (w : W) :
    Move.Le (leaveLoop flag orElse K f w) (leaveLoop flag orElse K f' w) := by
  cases flag with
  | none => exact h.goes K w
  | some id =>
    simp only [leaveLoop]
    cases hid : f.hidden id with
    | none => trivial
    | some x =>
      rw [h.hidden id x hid]
      cases x with
      | flag didBreak => exact h.goes _ w
      | _ => trivial

theorem breakTo_le (h : f.Le f') (K : Control W E D) (w : W) : Move.Le (breakTo K f w) (breakTo K f' w) := by
  induction K with
  | nil => exact h.goes [] w
  | cons item K ih =>
    cases item with
    | loop header flag body orElse =>
      cases flag with
      | none => exact h.goes K w
      | some id => exact leaveLoop_le (h.setHidden id _) (some id) orElse K w
    | _ => exact ih

theorem continueTo_le (h : f.Le f') (K : Control W E D) (w : W) :
    Move.Le (continueTo K f w) (continueTo K f' w) := by
  induction K with
  | nil => exact h.goes [] w
  | cons item K ih =>
    cases item with
    | loop header flag body orElse => exact h.goes _ w
    | _ => exact ih

theorem exec_le (h : f.Le f') (c : Code W E D) (K : Control W E D) (w : W) :
    Move.Le (exec R c K f w) (exec R c K f' w) := by
  cases c with
  | store slot value => exact evaluate_le R h _ _ K w fun bits w => (h.set slot bits).goes K w
  | expr e => exact evaluate_le R h _ _ K w fun _ w => h.goes K w
  | throw e => exact evaluate_le R h _ _ K w fun exc w => unwind_le R h ⟨exc, true⟩ K w
  | yield state tracked type value =>
    exact evaluate_le R h _ _ K w fun bits w => ⟨rfl, rfl, rfl, rfl, h, rfl⟩
  | branch cond thenBB elseBB => exact evaluate_le R h _ _ K w fun b w => h.goes _ w
  | whileLoop flag cond body orElse => exact (h.clear flag).goes _ w
  | forLoop flag idx vars iterable element advance body orElse =>
    exact evaluate_le R (h.clear flag) _ _ K w fun d w => ((h.clear flag).setHidden idx _).goes _ w
  | switch subject value cases => exact evaluate_le R h _ _ K w fun d w => (h.setHidden subject _).goes _ w
  | tryCatch body clauses finallyNorm => exact h.goes _ w
  | tryFinally savedExc body finallyNorm finallyClean => exact h.goes _ w
  | withExit ctx savedExc expr enter asVar exit body =>
    apply evaluate_le R h _ _ K w
    intro d w
    apply settle_le R (h.setHidden ctx _)
    intro word w
    cases asVar with
    | none => exact (h.setHidden ctx _).goes _ w
    | some id => exact ((h.setHidden ctx _).set _ _).goes _ w
  | breakTo => exact breakTo_le h K w
  | continueTo => exact continueTo_le h K w
  | ret => exact rfl
  | nothing => exact h.goes K w

theorem stepItem_le (h : f.Le f') (item : Item W E D) (K : Control W E D) (w : W) :
    Move.Le (stepItem R item K f w) (stepItem R item K f' w) := by
  cases item with
  | block b =>
    cases b with
    | nil => exact h.goes K w
    | cons c rest => exact exec_le R h c _ w
  | loop header flag body orElse =>
    cases header with
    | whileCond cond =>
      apply evaluate_le R h _ _ K w
      intro b w
      cases b with
      | true => exact h.goes _ w
      | false => exact leaveLoop_le h flag orElse K w
    | forCond idx vars element advance =>
      apply loadData_le h
      intro d
      apply settle_le R h
      intro elem w
      cases elem with
      | none => exact leaveLoop_le h flag orElse K w
      | some elem => exact (h.setWords elem 0 vars).goes _ w
  | inc idx advance =>
    apply loadData_le h
    intro d
    exact (h.setHidden idx _).goes K w
  | checks subject cases =>
    cases cases with
    | nil => exact h.goes K w
    | cons operands test body rest =>
      apply loadData_le h
      intro d
      exact evaluate_le R h _ _ K w fun b w => h.goes _ w
  | pad p => exact h.goes K w
  | exit invoked ctx exit =>
    apply loadData_le h
    intro d
    obtain ⟨w, r⟩ := exit d w
    cases r with
    | error r => exact unwind_le R h _ K w
    | ok _ => exact h.goes K w
  | resume savedExc =>
    rw [stepItem, stepItem]
    cases hid : f.hidden savedExc with
    | none => trivial
    | some x =>
      rw [h.hidden savedExc x hid]
      cases x with
      | exc e => exact ⟨rfl, rfl⟩
      | _ => trivial

end Le

/-- **A frame in which less has been written takes the same steps**, until it reads what is missing. -/
theorem step_le (R : Runtime W E) {s s' : State W E D} (h : s.Le s') : Move.Le (step R s) (step R s') := by
  obtain ⟨K, f, w⟩ := s
  obtain ⟨K', f', w'⟩ := s'
  obtain ⟨rfl, hf, rfl⟩ := h
  cases K with
  | nil => exact rfl
  | cons item K => exact stepItem_le R hf item K w

/-- A run ends with a move that leads out of the function. -/
theorem runFor_ne_goes (R : Runtime W E) (n : ℕ) (s t : State W E D) : runFor R n s ≠ some (.goes t) := by
  induction n generalizing s with
  | zero =>
    intro h
    cases h
  | succ n ih =>
    unfold runFor
    cases hs : step R s with
    | goes s' => exact ih s'
    | _ =>
      intro h
      cases h

/-- So do whole runs. -/
theorem runFor_le (R : Runtime W E) (n : ℕ) {s s' : State W E D} (h : s.Le s') :
    (runFor R n s = none → runFor R n s' = none) ∧
      ∀ m, runFor R n s = some m → m ≠ .lost → m ≠ .unset → ∃ m', runFor R n s' = some m' ∧ Move.Le m m' := by
  induction n generalizing s s' with
  | zero => exact ⟨fun _ => rfl, fun m hm => by cases hm⟩
  | succ n ih =>
    have hstep := step_le R h
    unfold runFor
    cases hs : step R s with
    | goes t =>
      rw [hs] at hstep
      cases hs' : step R s' with
      | goes t' =>
        rw [hs'] at hstep
        exact ih hstep
      | _ =>
        rw [hs'] at hstep
        exact hstep.elim
    | unset =>
      constructor
      · intro hnone
        cases hnone
      · intro m hm _ hunset
        exact absurd (Option.some.inj hm).symm hunset
    | lost =>
      constructor
      · intro hnone
        cases hnone
      · intro m hm hlost _
        exact absurd (Option.some.inj hm).symm hlost
    | _ =>
      rw [hs] at hstep
      constructor
      · intro hnone
        cases hnone
      · intro m hm _ _
        obtain rfl := Option.some.inj hm
        cases hs' : step R s' with
        | goes t' =>
          rw [hs'] at hstep
          exact hstep.elim
        | _ =>
          rw [hs'] at hstep
          exact ⟨_, rfl, hstep⟩

end Visuall.Codegen.Generators
