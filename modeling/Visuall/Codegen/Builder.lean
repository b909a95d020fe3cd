import Mathlib

/-!
# The instruction builder

The part of LLVM's `IRBuilder` and of `Codegen`'s members that lowering control flow uses.  Blocks,
registers and stack slots are numbered in the order in which they are created.  Expressions `E` and simple
statements `S` are opaque: each is one instruction.

* `Builder.Sound B P` — every block has exactly one terminator, at its end, and is in the function, except
  the insertion block, which may be open, and the pending blocks `P`, which are empty;
* `Builder.Extends` — what later emission keeps: the code of each block is only appended to.
-/

namespace Visuall.Codegen

variable {E S : Type*}

/-- The instructions.  `eval` and `perform` stand for what an expression or a simple statement emits; `call`
is a call of the runtime that keeps its own books. -/
inductive Instr (E S : Type*)
  | eval (r : ℕ) (e : E)
  | perform (s : S)
  | toBool (r x : ℕ)
  | alloca (slot : ℕ)
  | storeBit (slot : ℕ) (b : Bool)
  | storeValue (slot x : ℕ)
  | load (r slot : ℕ)
  | patternCmp (r subj pat : ℕ)
  | call (callee : String)
  | trunc (r x : ℕ)
  | br (target : ℕ)
  | condBr (cond ifTrue ifFalse : ℕ)
  | ret (x : ℕ)
  | retNull
  | retSentinel
  deriving DecidableEq, Repr

/-- The instructions that end a block. -/
def Instr.isTerminator : Instr E S → Bool
  | .br _ | .condBr _ _ _ | .ret _ | .retNull | .retSentinel => true
  | _ => false

/-- The code of a block that may still be appended to. -/
def Open (code : List (Instr E S)) : Prop := ∀ i ∈ code, i.isTerminator = false

/-- The code of a finished block: exactly one terminator, and it stands at the end. -/
def Closed (code : List (Instr E S)) : Prop := ∃ body t, code = body ++ [t] ∧ Open body ∧ t.isTerminator = true

/-- The function under construction: its blocks with their code, those that have been placed in it, the
insertion point, the allocas of the entry block, and the two loop stacks. -/
structure Builder (E S : Type*) where
  count : ℕ
  code : ℕ → List (Instr E S)
  layout : List ℕ
  insertPoint : ℕ
  allocas : List ℕ
  regs : ℕ
  slots : ℕ
  loopStack : List (ℕ × ℕ)
  loopElseAllocas : List (Option ℕ)

namespace Builder

variable (B : Builder E S)

/-- The code of the insertion block. -/
def here : List (Instr E S) := B.code B.insertPoint

/-- Appends an instruction to the insertion block. -/
def emit (i : Instr E S) : Builder E S :=
  { B with code := Function.update B.code B.insertPoint (B.here ++ [i]) }

/-- Appends an instruction whose result is the next register. -/
def emitDef (i : ℕ → Instr E S) : Builder E S := { B.emit (i B.regs) with regs := B.regs + 1 }

/-- `BasicBlock::Create`, with the function or without it.  The new block is number `B.count`. -/
def createBlock (inFunction : Bool) : Builder E S :=
  { B with
    count := B.count + 1
    layout := if inFunction then B.layout ++ [B.count] else B.layout }

/-- `n` blocks, created in the function one after another. -/
def createBlocks : ℕ → Builder E S → Builder E S
  | 0, B => B
  | n + 1, B => createBlocks n (B.createBlock true)

/-- `fn->insert(fn->end(), bb)`. -/
def place (bb : ℕ) : Builder E S := { B with layout := B.layout ++ [bb] }

/-- `SetInsertPoint`. -/
def setInsertPoint (bb : ℕ) : Builder E S := { B with insertPoint := bb }

/-- `createEntryBlockAlloca`: the new slot is number `B.slots`, and the alloca goes to the front of the entry
block. -/
def createEntryBlockAlloca : Builder E S :=
  { B with slots := B.slots + 1, allocas := B.slots :: B.allocas }

/-- `CreateAlloca` at the insertion point. -/
def createAlloca : Builder E S := { B.emit (.alloca B.slots) with slots := B.slots + 1 }

/-- `GetInsertBlock()->getTerminator()` is not null. -/
def terminated : Bool := B.here.getLast?.any Instr.isTerminator

/-- `if (!GetInsertBlock()->getTerminator()) CreateBr(bb)`. -/
def brUnlessTerminated (bb : ℕ) : Builder E S := if B.terminated then B else B.emit (.br bb)

/-- A loop is entered: its header, its exit, and its flag for an else branch. -/
def pushLoop (header exit : ℕ) (didBreak : Option ℕ) : Builder E S :=
  { B with
    loopStack := (header, exit) :: B.loopStack
    loopElseAllocas := didBreak :: B.loopElseAllocas }

/-- The innermost loop is left. -/
def popLoop : Builder E S :=
  { B with loopStack := B.loopStack.tail, loopElseAllocas := B.loopElseAllocas.tail }

/-! ## What emission keeps -/

/-- What `B'` keeps of `B`. -/
structure Extends (B B' : Builder E S) : Prop where
  code : ∀ b, B.code b <+: B'.code b
  count : B.count ≤ B'.count
  slots : B.slots ≤ B'.slots
  layout : B.layout ⊆ B'.layout
  loopStack : B'.loopStack = B.loopStack
  loopElseAllocas : B'.loopElseAllocas = B.loopElseAllocas

/-- Every block is finished, except the insertion block and the pending ones. -/
structure Sound (B : Builder E S) (P : Set ℕ) : Prop where
  insert_lt : B.insertPoint < B.count
  insert_placed : B.insertPoint ∈ B.layout
  insert_code : Open B.here ∨ Closed B.here
  insert_not_pending : B.insertPoint ∉ P
  pending : ∀ b ∈ P, b < B.count ∧ B.code b = []
  finished : ∀ b < B.count, b ≠ B.insertPoint → b ∉ P → Closed (B.code b) ∧ b ∈ B.layout
  fresh : ∀ b, B.count ≤ b → B.code b = []

variable {B} {B' B'' : Builder E S} {P : Set ℕ} {i : Instr E S} {bb : ℕ}

theorem here_emit (B : Builder E S) (i : Instr E S) : (B.emit i).here = B.here ++ [i] := by
  simp [here, emit]

theorem code_emit (B : Builder E S) (i : Instr E S) {b : ℕ} (hb : b ≠ B.insertPoint) :
    (B.emit i).code b = B.code b := by
  simp [emit, hb]

theorem terminated_iff (h : Open B.here ∨ Closed B.here) : B.terminated = true ↔ Closed B.here := by
  constructor
  · intro ht
    rcases h with hopen | hclosed
    · cases hl : B.here.getLast? with
      | none => simp [terminated, hl] at ht
      | some i =>
        rw [terminated, hl, Option.any_some, hopen i (List.mem_of_getLast? hl)] at ht
        cases ht
    · exact hclosed
  · rintro ⟨body, t, hcode, -, ht⟩
    simp [terminated, hcode, ht]

theorem not_open_and_closed {code : List (Instr E S)} (ho : Open code) : ¬Closed code := by
  rintro ⟨body, t, rfl, -, ht⟩
  have := ho t (by simp)
  rw [ht] at this
  cases this

theorem terminated_eq_false (h : Open B.here) : B.terminated = false := by
  rw [Bool.eq_false_iff]
  intro ht
  exact not_open_and_closed h ((terminated_iff (.inl h)).mp ht)

/-! ### Extends -/

namespace Extends

theorem refl (B : Builder E S) : Extends B B :=
  ⟨fun _ => List.prefix_rfl, le_refl _, le_refl _, fun _ h => h, rfl, rfl⟩

theorem trans (h : Extends B B') (h' : Extends B' B'') : Extends B B'' where
  code b := (h.code b).trans (h'.code b)
  count := h.count.trans h'.count
  slots := h.slots.trans h'.slots
  layout := fun _ hb => h'.layout (h.layout hb)
  loopStack := h'.loopStack.trans h.loopStack
  loopElseAllocas := h'.loopElseAllocas.trans h.loopElseAllocas

end Extends

theorem code_prefix_emit (B : Builder E S) (i : Instr E S) (b : ℕ) : B.code b <+: (B.emit i).code b := by
  by_cases hb : b = B.insertPoint
  · subst hb
    show B.here <+: (B.emit i).here
    rw [here_emit]
    exact List.prefix_append _ _
  · rw [code_emit B i hb]

theorem extends_emit (B : Builder E S) (i : Instr E S) : Extends B (B.emit i) :=
  ⟨code_prefix_emit B i, le_refl _, le_refl _, fun _ h => h, rfl, rfl⟩

theorem extends_emitDef (B : Builder E S) (i : ℕ → Instr E S) : Extends B (B.emitDef i) :=
  ⟨code_prefix_emit B (i B.regs), le_refl _, le_refl _, fun _ h => h, rfl, rfl⟩

theorem extends_createBlock (B : Builder E S) (inFunction : Bool) : Extends B (B.createBlock inFunction) where
  code _ := List.prefix_rfl
  count := Nat.le_succ _
  slots := le_refl _
  layout := by
    intro b hb
    cases inFunction with
    | false => exact hb
    | true => exact List.mem_append_left _ hb
  loopStack := rfl
  loopElseAllocas := rfl

theorem extends_createBlocks (n : ℕ) : ∀ B : Builder E S, Extends B (createBlocks n B) := by
  induction n with
  | zero => exact Extends.refl
  | succ n ih => exact fun B => (extends_createBlock B true).trans (ih _)

theorem extends_place (B : Builder E S) (bb : ℕ) : Extends B (B.place bb) :=
  ⟨fun _ => List.prefix_rfl, le_refl _, le_refl _, fun _ h => List.mem_append_left _ h, rfl, rfl⟩

theorem extends_setInsertPoint (B : Builder E S) (bb : ℕ) : Extends B (B.setInsertPoint bb) :=
  ⟨fun _ => List.prefix_rfl, le_refl _, le_refl _, fun _ h => h, rfl, rfl⟩

theorem extends_createEntryBlockAlloca (B : Builder E S) : Extends B B.createEntryBlockAlloca :=
  ⟨fun _ => List.prefix_rfl, le_refl _, Nat.le_succ _, fun _ h => h, rfl, rfl⟩

theorem extends_createAlloca (B : Builder E S) : Extends B B.createAlloca :=
  ⟨code_prefix_emit B _, le_refl _, Nat.le_succ _, fun _ h => h, rfl, rfl⟩

theorem extends_brUnlessTerminated (B : Builder E S) (bb : ℕ) : Extends B (B.brUnlessTerminated bb) := by
  unfold brUnlessTerminated
  split
  · exact Extends.refl B
  · exact extends_emit B _

/-- A body emitted inside a loop leaves the two stacks as they were. -/
theorem extends_loop {header exit : ℕ} {flag : Option ℕ} (h : Extends (B.pushLoop header exit flag) B') :
    Extends B B'.popLoop where
  code := h.code
  count := h.count
  slots := h.slots
  layout := h.layout
  loopStack := by
    show B'.loopStack.tail = B.loopStack
    rw [h.loopStack]
    rfl
  loopElseAllocas := by
    show B'.loopElseAllocas.tail = B.loopElseAllocas
    rw [h.loopElseAllocas]
    rfl

/-! ### Sound -/

/-- One more instruction in an open insertion block. -/
theorem Sound.emit (h : Sound B P) (ho : Open B.here) (i : Instr E S) : Sound (B.emit i) P where
  insert_lt := h.insert_lt
  insert_placed := h.insert_placed
  insert_code := by
    rw [here_emit]
    cases hi : i.isTerminator with
    | false =>
      refine .inl fun j hj => ?_
      rcases List.mem_append.mp hj with hj | hj
      · exact ho j hj
      · rw [List.mem_singleton.mp hj, hi]
    | true => exact .inr ⟨B.here, i, rfl, ho, hi⟩
  insert_not_pending := h.insert_not_pending
  pending := by
    intro b hb
    rw [code_emit B i (fun heq => h.insert_not_pending (heq ▸ hb))]
    exact h.pending b hb
  finished := by
    intro b hlt hne hb
    rw [code_emit B i hne]
    exact h.finished b hlt hne hb
  fresh := by
    intro b hb
    rw [code_emit B i (by have := h.insert_lt; rintro rfl; exact absurd hb (by simp [Builder.emit]; omega))]
    exact h.fresh b hb

theorem open_emit (ho : Open B.here) (hi : i.isTerminator = false) : Open (B.emit i).here := by
  rw [here_emit]
  intro j hj
  rcases List.mem_append.mp hj with hj | hj
  · exact ho j hj
  · rw [List.mem_singleton.mp hj, hi]

theorem closed_emit (ho : Open B.here) (hi : i.isTerminator = true) : Closed (B.emit i).here := by
  rw [here_emit]
  exact ⟨B.here, i, rfl, ho, hi⟩

theorem Sound.emitDef (h : Sound B P) (ho : Open B.here) (i : ℕ → Instr E S) : Sound (B.emitDef i) P :=
  let h' := h.emit ho (i B.regs)
  ⟨h'.insert_lt, h'.insert_placed, h'.insert_code, h'.insert_not_pending, h'.pending, h'.finished, h'.fresh⟩

theorem open_emitDef {i : ℕ → Instr E S} (ho : Open B.here) (hi : ∀ r, (i r).isTerminator = false) :
    Open (B.emitDef i).here :=
  open_emit ho (hi B.regs)

theorem Sound.createAlloca (h : Sound B P) (ho : Open B.here) : Sound B.createAlloca P :=
  let h' := h.emit ho (.alloca B.slots)
  ⟨h'.insert_lt, h'.insert_placed, h'.insert_code, h'.insert_not_pending, h'.pending, h'.finished, h'.fresh⟩

theorem open_createAlloca (ho : Open B.here) : Open B.createAlloca.here :=
  open_emit ho (i := .alloca B.slots) rfl

/-- A new block is pending. -/
theorem Sound.createBlock (h : Sound B P) (inFunction : Bool) :
    Sound (B.createBlock inFunction) (insert B.count P) where
  insert_lt := h.insert_lt.trans (Nat.lt_succ_self _)
  insert_placed := (extends_createBlock B inFunction).layout h.insert_placed
  insert_code := h.insert_code
  insert_not_pending := by
    rintro (heq | hP)
    · exact absurd h.insert_lt (by rw [show B.insertPoint = B.count from heq]; exact lt_irrefl _)
    · exact h.insert_not_pending hP
  pending := by
    rintro b (rfl | hb)
    · exact ⟨Nat.lt_succ_self _, h.fresh _ (le_refl _)⟩
    · exact ⟨(h.pending b hb).1.trans (Nat.lt_succ_self _), (h.pending b hb).2⟩
  finished := by
    intro b hlt hne hb
    rw [Set.mem_insert_iff, not_or] at hb
    have hlt' : b < B.count := lt_of_le_of_ne (Nat.lt_succ_iff.mp hlt) hb.1
    obtain ⟨hc, hl⟩ := h.finished b hlt' hne hb.2
    exact ⟨hc, (extends_createBlock B inFunction).layout hl⟩
  fresh := fun b hb => h.fresh b ((Nat.le_succ _).trans hb)

theorem Sound.place (h : Sound B P) (bb : ℕ) : Sound (B.place bb) P :=
  ⟨h.insert_lt, List.mem_append_left _ h.insert_placed, h.insert_code, h.insert_not_pending, h.pending,
    fun b hlt hne hb => ⟨(h.finished b hlt hne hb).1, List.mem_append_left _ (h.finished b hlt hne hb).2⟩,
    h.fresh⟩

theorem Sound.createEntryBlockAlloca (h : Sound B P) : Sound B.createEntryBlockAlloca P :=
  ⟨h.insert_lt, h.insert_placed, h.insert_code, h.insert_not_pending, h.pending, h.finished, h.fresh⟩

theorem Sound.pushLoop (h : Sound B P) (header exit : ℕ) (flag : Option ℕ) :
    Sound (B.pushLoop header exit flag) P :=
  ⟨h.insert_lt, h.insert_placed, h.insert_code, h.insert_not_pending, h.pending, h.finished, h.fresh⟩

theorem Sound.popLoop (h : Sound B P) : Sound B.popLoop P :=
  ⟨h.insert_lt, h.insert_placed, h.insert_code, h.insert_not_pending, h.pending, h.finished, h.fresh⟩

/-- When the insertion block is finished, a pending block that is in the function may take its place. -/
theorem Sound.setInsertPoint (h : Sound B (insert bb P)) (hb : bb ∉ P) (hc : Closed B.here)
    (hl : bb ∈ B.layout) : Sound (B.setInsertPoint bb) P where
  insert_lt := (h.pending bb (Set.mem_insert _ _)).1
  insert_placed := hl
  insert_code := by
    left
    show Open (B.code bb)
    rw [(h.pending bb (Set.mem_insert _ _)).2]
    exact fun _ hi => absurd hi (List.not_mem_nil)
  insert_not_pending := hb
  pending := fun b hP => h.pending b (Set.mem_insert_of_mem _ hP)
  finished := by
    intro b hlt hne hP
    by_cases heq : b = B.insertPoint
    · subst heq
      exact ⟨hc, h.insert_placed⟩
    · exact h.finished b hlt heq (by rintro (rfl | hb'); exacts [hne rfl, hP hb'])
  fresh := h.fresh

theorem here_setInsertPoint (h : Sound B P) (hb : bb ∈ P) : (B.setInsertPoint bb).here = [] :=
  (h.pending bb hb).2

theorem open_of_nil {code : List (Instr E S)} (h : code = []) : Open code := by
  subst h
  exact fun _ hi => absurd hi List.not_mem_nil

/-- A branch to `bb` finishes the insertion block, if it is not finished. -/
theorem Sound.brUnlessTerminated (h : Sound B P) (bb : ℕ) :
    Sound (B.brUnlessTerminated bb) P ∧ Closed (B.brUnlessTerminated bb).here := by
  unfold Builder.brUnlessTerminated
  split
  · next ht => exact ⟨h, (terminated_iff h.insert_code).mp ht⟩
  · next ht =>
    have ho : Open B.here := h.insert_code.resolve_right fun hc => ht ((terminated_iff h.insert_code).mpr hc)
    exact ⟨h.emit ho _, closed_emit ho rfl⟩

end Builder

end Visuall.Codegen
