import Visuall.Codegen.Flow

/-!
# Every block has exactly one terminator

Each emitter keeps the builder sound: a block it creates is finished, in the function and left, or is the new
insertion block.  `codegenFuncDef_closed` is what this gives for a whole function.
-/

namespace Visuall.Codegen

open Builder

variable {E S : Type*} {B : Builder E S} {P : Set ℕ} {bb : ℕ}

namespace Builder

theorem Sound.lt_of_mem (h : Sound B P) (hb : bb ∈ P) : bb < B.count := (h.pending bb hb).1

theorem Sound.count_notMem (h : Sound B P) : B.count ∉ P := fun hb => lt_irrefl _ (h.lt_of_mem hb)

theorem Sound.notMem_of_le (h : Sound B P) (hle : B.count ≤ bb) : bb ∉ P :=
  fun hb => absurd (h.lt_of_mem hb) (not_lt.mpr hle)

theorem mem_layout_createBlock (B : Builder E S) : B.count ∈ (B.createBlock true).layout :=
  List.mem_append_right _ (List.mem_singleton_self _)

end Builder

/-! ## Emitters -/

/-- The emitter keeps soundness and what was emitted before. -/
def Keeps (f : Emitter E S) : Prop :=
  ∀ ⦃B P⦄, Sound B P → Open B.here → Sound (f B) P ∧ Extends B (f B)

/-- It also terminates the block it ends in. -/
def Finishes (f : Emitter E S) : Prop :=
  ∀ ⦃B P⦄, Sound B P → Open B.here → Sound (f B) P ∧ Extends B (f B) ∧ Closed (f B).here

theorem keeps_id : Keeps (fun B : Builder E S => B) := fun B _ h _ => ⟨h, Extends.refl B⟩

theorem keeps_emit (i : Instr E S) : Keeps (fun B => B.emit i) := fun B _ h ho => ⟨h.emit ho i, extends_emit B i⟩

theorem keeps_codegenSeq {f g : Emitter E S} (hf : Keeps f) (hg : Keeps g) : Keeps (codegenSeq f g) := by
  intro B P h ho
  obtain ⟨h₁, e₁⟩ := hf h ho
  unfold codegenSeq
  split
  · exact ⟨h₁, e₁⟩
  · next ht =>
    have ho₁ : Open (f B).here :=
      h₁.insert_code.resolve_right fun hc => ht ((terminated_iff h₁.insert_code).mpr hc)
    obtain ⟨h₂, e₂⟩ := hg h₁ ho₁
    exact ⟨h₂, e₁.trans e₂⟩

/-- Followed by a branch, an emitter finishes its block. -/
theorem Keeps.brUnlessTerminated {f : Emitter E S} (hf : Keeps f) (bb : ℕ) :
    Finishes (fun B => (f B).brUnlessTerminated bb) := by
  intro B P h ho
  obtain ⟨h₁, e₁⟩ := hf h ho
  obtain ⟨h₂, hc⟩ := h₁.brUnlessTerminated bb
  exact ⟨h₂, e₁.trans (extends_brUnlessTerminated _ bb), hc⟩

/-! ## Conditions and entered blocks -/

theorem extends_codegenCond (cond : E) (B : Builder E S) : Extends B (codegenCond cond B) :=
  (extends_emitDef B _).trans (extends_emitDef _ _)

theorem Builder.Sound.codegenCond (h : Sound B P) (ho : Open B.here) (cond : E) :
    Sound (codegenCond cond B) P ∧ Open (codegenCond cond B).here := by
  have h₁ : Sound (B.emitDef (.eval · cond)) P := h.emitDef ho _
  have ho₁ : Open (B.emitDef (.eval · cond)).here := open_emitDef ho fun _ => rfl
  exact ⟨h₁.emitDef ho₁ _, open_emitDef ho₁ fun _ => rfl⟩

theorem extends_emitCondBr (condVal trueBB falseBB : ℕ) (B : Builder E S) :
    Extends B (emitCondBr condVal trueBB falseBB B) :=
  (extends_emit B _).trans (extends_setInsertPoint _ _)

theorem Builder.Sound.emitCondBr (h : Sound B (insert bb P)) (ho : Open B.here) (hb : bb ∉ P)
    (hl : bb ∈ B.layout) (condVal falseBB : ℕ) :
    Sound (emitCondBr condVal bb falseBB B) P ∧ (emitCondBr condVal bb falseBB B).here = [] := by
  have h₁ := h.emit ho (.condBr condVal bb falseBB)
  have hc : Closed (B.emit (.condBr condVal bb falseBB)).here := closed_emit ho rfl
  exact ⟨h₁.setInsertPoint hb hc hl, here_setInsertPoint h₁ (Set.mem_insert _ _)⟩

theorem extends_enterBlock (bb : ℕ) (B : Builder E S) : Extends B (enterBlock bb B) :=
  (extends_place B bb).trans (extends_setInsertPoint _ _)

theorem Builder.Sound.enterBlock (h : Sound B (insert bb P)) (hb : bb ∉ P) (hc : Closed B.here) :
    Sound (enterBlock bb B) P ∧ (enterBlock bb B).here = [] := by
  have h₁ := h.place bb
  exact ⟨h₁.setInsertPoint hb hc (List.mem_append_right _ (List.mem_singleton_self _)),
    here_setInsertPoint h₁ (Set.mem_insert _ _)⟩

/-! ## Branches -/

section Branch

variable {thenBB : ℕ} {body : Emitter E S} {next : Option (Emitter E S)}

/-- The block of the branches after this one, pending while this one is emitted. -/
theorem Builder.Sound.branchElse (h : Sound B (insert thenBB P)) :
    Sound (B.createBlock false) (insert thenBB (insert B.count P)) := by
  rw [Set.insert_comm]
  exact h.createBlock false

theorem Builder.Sound.codegenBranch (h : Sound B (insert thenBB P)) (ho : Open B.here) (hP : thenBB ∉ P)
    (hl : thenBB ∈ B.layout) (condVal mergeBB : ℕ) (hbody : Keeps body) (hnext : ∀ f ∈ next, Finishes f) :
    Sound (codegenBranch condVal thenBB mergeBB body next B) P ∧
      Extends B (codegenBranch condVal thenBB mergeBB body next B) ∧
      Closed (codegenBranch condVal thenBB mergeBB body next B).here := by
  cases next with
  | none =>
    obtain ⟨h₁, hn₁⟩ := h.emitCondBr ho hP hl condVal mergeBB
    obtain ⟨h₂, e₂, hc⟩ := hbody.brUnlessTerminated mergeBB h₁ (open_of_nil hn₁)
    exact ⟨h₂, (extends_emitCondBr condVal thenBB mergeBB B).trans e₂, hc⟩
  | some next =>
    have hlt : thenBB < B.count := h.lt_of_mem (Set.mem_insert _ _)
    have hP' : thenBB ∉ insert B.count P := by
      rintro (heq | hmem)
      · exact hlt.ne heq
      · exact hP hmem
    have hnot : B.count ∉ P := fun hmem => h.count_notMem (Set.mem_insert_of_mem _ hmem)
    have e₀ := extends_createBlock B false
    obtain ⟨h₁, hn₁⟩ := h.branchElse.emitCondBr ho hP' (e₀.layout hl) condVal B.count
    obtain ⟨h₂, e₂, hc⟩ := hbody.brUnlessTerminated mergeBB h₁ (open_of_nil hn₁)
    obtain ⟨h₃, hn₃⟩ := h₂.enterBlock hnot hc
    obtain ⟨h₄, e₄, hc₄⟩ := hnext next rfl h₃ (open_of_nil hn₃)
    exact ⟨h₄, e₀.trans ((extends_emitCondBr _ _ _ _).trans (e₂.trans ((extends_enterBlock _ _).trans e₄))),
      hc₄⟩

/-- The block of a branch, created after its condition. -/
theorem Builder.Sound.branchThen (h : Sound B P) (ho : Open B.here) (cond : E) :
    Sound ((Codegen.codegenCond cond B).createBlock true) (insert B.count P) ∧
      Open ((Codegen.codegenCond cond B).createBlock true).here := by
  obtain ⟨h₁, ho₁⟩ := h.codegenCond ho cond
  exact ⟨h₁.createBlock true, ho₁⟩

theorem finishes_codegenElsifs (mergeBB : ℕ) {orElse : Option (Emitter E S)} (horElse : ∀ f ∈ orElse, Keeps f)
    {elsifs : List (E × Emitter E S)} (helsifs : ∀ q ∈ elsifs, Keeps q.2) :
    ∀ f ∈ codegenElsifs mergeBB orElse elsifs, Finishes f := by
  induction elsifs with
  | nil =>
    intro f hf
    obtain ⟨body, hbody, rfl⟩ := Option.mem_map.mp hf
    exact (horElse body hbody).brUnlessTerminated mergeBB
  | cons q rest ih =>
    obtain ⟨cond, body⟩ := q
    intro f hf
    cases Option.mem_some_iff.mp hf
    intro B P h ho
    obtain ⟨h₁, ho₁⟩ := h.branchThen ho cond
    obtain ⟨h₂, e₂, hc⟩ := h₁.codegenBranch ho₁ h.count_notMem (mem_layout_createBlock _)
      (B.regs + 1) mergeBB (helsifs _ List.mem_cons_self)
      (ih fun q hq => helsifs q (List.mem_cons_of_mem _ hq))
    exact ⟨h₂, (extends_codegenCond cond B).trans ((extends_createBlock _ true).trans e₂), hc⟩

/-- The blocks of an `if`, created after its condition: that of the first branch, and the merge block. -/
theorem Builder.Sound.ifThen (h : Sound B P) (ho : Open B.here) (cond : E) :
    Sound (((Codegen.codegenCond cond B).createBlock true).createBlock false)
        (insert B.count (insert (B.count + 1) P)) ∧
      Open (((Codegen.codegenCond cond B).createBlock true).createBlock false).here := by
  obtain ⟨h₁, ho₁⟩ := h.branchThen ho cond
  exact ⟨h₁.branchElse, ho₁⟩

theorem Builder.Sound.if_notMem (h : Sound B P) : B.count ∉ insert (B.count + 1) P ∧ B.count + 1 ∉ P := by
  refine ⟨?_, h.notMem_of_le (Nat.le_succ _)⟩
  rintro (heq | hmem)
  · exact absurd heq (Nat.lt_succ_self _).ne
  · exact h.count_notMem hmem

theorem keeps_codegenIf {cond : E} (hbody : Keeps body) {elsifs : List (E × Emitter E S)}
    (helsifs : ∀ q ∈ elsifs, Keeps q.2) {orElse : Option (Emitter E S)} (horElse : ∀ f ∈ orElse, Keeps f) :
    Keeps (codegenIf cond body elsifs orElse) := by
  intro B P h ho
  obtain ⟨h₁, ho₁⟩ := h.ifThen ho cond
  obtain ⟨h₂, e₂, hc⟩ := h₁.codegenBranch ho₁ h.if_notMem.1
    ((extends_createBlock _ false).layout (mem_layout_createBlock _)) (B.regs + 1) (B.count + 1) hbody
    (finishes_codegenElsifs (B.count + 1) horElse helsifs)
  obtain ⟨h₃, -⟩ := h₂.enterBlock h.if_notMem.2 hc
  refine ⟨h₃, (extends_codegenCond cond B).trans ?_⟩
  exact (extends_createBlock _ true).trans ((extends_createBlock _ false).trans
    (e₂.trans (extends_enterBlock _ _)))

end Branch

/-! ## Loops -/

section Loop

variable {cond : E} {body : Emitter E S}

theorem extends_loopHeader (B : Builder E S) : Extends B (loopHeader B) :=
  (extends_createBlocks 3 B).trans ((extends_emit _ _).trans (extends_setInsertPoint _ _))

/-- The header of a loop is entered, its body and its exit are pending. -/
theorem Builder.Sound.loopHeader (h : Sound B P) (ho : Open B.here) :
    Sound (loopHeader B) (insert (B.count + 1) (insert (B.count + 2) P)) ∧ (loopHeader B).here = [] := by
  have h₃ := ((h.createBlock true).createBlock true).createBlock true
  have hset : insert (B.count + 2) (insert (B.count + 1) (insert B.count P))
      = insert B.count (insert (B.count + 1) (insert (B.count + 2) P)) := by
    ext b
    simp only [Set.mem_insert_iff]
    tauto
  rw [show insert ((B.createBlock true).createBlock true).count (insert (B.createBlock true).count
      (insert B.count P)) = insert (B.count + 2) (insert (B.count + 1) (insert B.count P)) from rfl, hset] at h₃
  have h₄ := h₃.emit ho (.br B.count)
  have hnot : B.count ∉ insert (B.count + 1) (insert (B.count + 2) P) := by
    have := h.count_notMem
    simp only [Set.mem_insert_iff, not_or]
    exact ⟨by omega, by omega, this⟩
  have hl : B.count ∈ (((B.createBlock true).createBlock true).createBlock true).layout :=
    (extends_createBlocks 2 _).layout (mem_layout_createBlock B)
  exact ⟨h₄.setInsertPoint hnot (closed_emit ho rfl) hl, here_setInsertPoint h₄ (Set.mem_insert _ _)⟩

theorem mem_layout_loopHeader (B : Builder E S) :
    B.count + 1 ∈ (loopHeader B).layout ∧ B.count + 2 ∈ (loopHeader B).layout := by
  simp [loopHeader, createBlock, setInsertPoint, emit]

theorem Builder.Sound.loop_notMem (h : Sound B P) :
    B.count + 1 ∉ insert (B.count + 2) P ∧ B.count + 2 ∉ P := by
  refine ⟨?_, h.notMem_of_le (by omega)⟩
  rintro (heq | hmem)
  · omega
  · exact h.notMem_of_le (Nat.le_succ _) hmem

/-- The body of a loop, entered from its header. -/
theorem Builder.Sound.loopBody (h : Sound B P) (ho : Open B.here) (cond : E) (flag : Option ℕ) :
    Sound ((Codegen.emitCondBr ((Codegen.loopHeader B).regs + 1) (B.count + 1) (B.count + 2)
        (Codegen.codegenCond cond (Codegen.loopHeader B))).pushLoop B.count (B.count + 2) flag)
        (insert (B.count + 2) P) ∧
      (Codegen.emitCondBr ((Codegen.loopHeader B).regs + 1) (B.count + 1) (B.count + 2)
        (Codegen.codegenCond cond (Codegen.loopHeader B))).here = [] := by
  obtain ⟨h₁, hn₁⟩ := h.loopHeader ho
  obtain ⟨h₂, ho₂⟩ := h₁.codegenCond (open_of_nil hn₁) cond
  obtain ⟨h₃, hn₃⟩ := h₂.emitCondBr ho₂ h.loop_notMem.1
    ((extends_codegenCond cond _).layout (mem_layout_loopHeader B).1) ((Codegen.loopHeader B).regs + 1)
    (B.count + 2)
  exact ⟨h₃.pushLoop B.count (B.count + 2) flag, hn₃⟩

theorem Builder.Sound.codegenLoop (h : Sound B P) (ho : Open B.here) (cond : E) (hbody : Keeps body)
    (flag : Option ℕ) :
    Sound (codegenLoop cond body flag B) P ∧ Extends B (codegenLoop cond body flag B) ∧
      (codegenLoop cond body flag B).here = [] := by
  obtain ⟨h₁, hn₁⟩ := h.loopBody ho cond flag
  obtain ⟨h₂, e₂⟩ := hbody h₁ (open_of_nil hn₁)
  have e₃ := extends_loop e₂
  obtain ⟨h₄, hc₄⟩ := h₂.popLoop.brUnlessTerminated B.count
  have e₀ := (extends_loopHeader B).trans ((extends_codegenCond cond _).trans
    (extends_emitCondBr ((Codegen.loopHeader B).regs + 1) (B.count + 1) (B.count + 2) _))
  have e₅ := e₀.trans (e₃.trans (extends_brUnlessTerminated _ B.count))
  have hl : B.count + 2 ∈ (Builder.brUnlessTerminated (body _).popLoop B.count).layout :=
    (e₃.trans (extends_brUnlessTerminated _ B.count)).layout
      (((extends_codegenCond cond _).trans (extends_emitCondBr _ _ _ _)).layout (mem_layout_loopHeader B).2)
  exact ⟨h₄.setInsertPoint h.loop_notMem.2 hc₄ hl, e₅.trans (extends_setInsertPoint _ _),
    here_setInsertPoint h₄ (Set.mem_insert _ _)⟩

/-- The else branch of a loop, entered from the test of the flag; the block after it is pending. -/
theorem Builder.Sound.loopElse (h : Sound B P) (ho : Open B.here) (flag : ℕ) :
    Sound (((((B.createBlock true).createBlock true).emitDef (.load · flag)).emit
        (.condBr B.regs (B.count + 1) B.count)).setInsertPoint B.count) (insert (B.count + 1) P) ∧
      (((((B.createBlock true).createBlock true).emitDef (.load · flag)).emit
        (.condBr B.regs (B.count + 1) B.count)).setInsertPoint B.count).here = [] := by
  have h₂ := (h.createBlock true).createBlock true
  rw [Set.insert_comm] at h₂
  have h₃ := h₂.emitDef ho (.load · flag)
  have ho₃ : Open (((B.createBlock true).createBlock true).emitDef (.load · flag)).here :=
    open_emitDef (B := (B.createBlock true).createBlock true) ho fun _ => rfl
  have h₄ := h₃.emit ho₃ (.condBr B.regs (B.count + 1) B.count)
  have hl : B.count ∈ ((B.createBlock true).createBlock true).layout :=
    (extends_createBlock _ true).layout (mem_layout_createBlock B)
  exact ⟨h₄.setInsertPoint h.if_notMem.1 (closed_emit ho₃ rfl) hl, here_setInsertPoint h₄ (Set.mem_insert _ _)⟩

theorem extends_loopElse (B : Builder E S) (flag : ℕ) :
    Extends B (((((B.createBlock true).createBlock true).emitDef (.load · flag)).emit
        (.condBr B.regs (B.count + 1) B.count)).setInsertPoint B.count) :=
  (extends_createBlocks 2 B).trans ((extends_emitDef _ _).trans ((extends_emit _ _).trans
    (extends_setInsertPoint _ _)))

theorem Builder.Sound.codegenLoopElse (h : Sound B P) (ho : Open B.here) {orElse : Emitter E S} (horElse : Keeps orElse)
    (flag : ℕ) :
    Sound (codegenLoopElse flag orElse B) P ∧ Extends B (codegenLoopElse flag orElse B) ∧
      (codegenLoopElse flag orElse B).here = [] := by
  obtain ⟨h₁, hn₁⟩ := h.loopElse ho flag
  obtain ⟨h₂, e₂, hc⟩ := horElse.brUnlessTerminated (B.count + 1) h₁ (open_of_nil hn₁)
  have hl : B.count + 1 ∈ ((B.createBlock true).createBlock true).layout := mem_layout_createBlock _
  have e₁ := extends_loopElse B flag
  exact ⟨h₂.setInsertPoint h.if_notMem.2 hc (e₂.layout hl),
    e₁.trans (e₂.trans (extends_setInsertPoint _ _)), here_setInsertPoint h₂ (Set.mem_insert _ _)⟩

/-- The flag of a loop with an else branch, cleared before the loop is entered. -/
theorem keeps_clearFlag (B : Builder E S) (h : Sound B P) (ho : Open B.here) :
    Sound (B.createEntryBlockAlloca.emit (.storeBit B.slots false)) P ∧
      Extends B (B.createEntryBlockAlloca.emit (.storeBit B.slots false)) ∧
      Open (B.createEntryBlockAlloca.emit (.storeBit B.slots false)).here :=
  ⟨h.createEntryBlockAlloca.emit ho _, (extends_createEntryBlockAlloca B).trans (extends_emit _ _),
    open_emit (B := B.createEntryBlockAlloca) ho rfl⟩

theorem keeps_codegenWhile (hbody : Keeps body) {orElse : Option (Emitter E S)}
    (horElse : ∀ f ∈ orElse, Keeps f) : Keeps (codegenWhile cond body orElse) := by
  intro B P h ho
  cases orElse with
  | none =>
    obtain ⟨h₁, e₁, -⟩ := h.codegenLoop ho cond hbody none
    exact ⟨h₁, e₁⟩
  | some orElse =>
    obtain ⟨h₁, e₁, ho₁⟩ := keeps_clearFlag B h ho
    obtain ⟨h₂, e₂, hn₂⟩ := h₁.codegenLoop ho₁ cond hbody (some B.slots)
    obtain ⟨h₃, e₃, -⟩ := h₂.codegenLoopElse (open_of_nil hn₂) (horElse orElse rfl) B.slots
    exact ⟨h₃, e₁.trans (e₂.trans e₃)⟩

end Loop

/-! ## Matches -/

section Match

variable {bodyBB : ℕ} {body : Emitter E S}

theorem finishes_codegenTest (slot : ℕ) (pattern : Option E) (hitBB missBB : ℕ) :
    Finishes (codegenTest (S := S) slot pattern hitBB missBB) := by
  intro B P h ho
  cases pattern with
  | none => exact ⟨h.emit ho _, extends_emit B _, closed_emit ho rfl⟩
  | some e =>
    have h₁ := h.emitDef ho (.load · slot)
    have ho₁ : Open (B.emitDef (.load · slot)).here := open_emitDef ho fun _ => rfl
    have h₂ := h₁.emitDef ho₁ (.eval · e)
    have ho₂ := open_emitDef (i := (.eval · e)) ho₁ fun _ => rfl
    have h₃ := h₂.emitDef ho₂ (.patternCmp · B.regs (B.regs + 1))
    have ho₃ := open_emitDef (i := (.patternCmp · B.regs (B.regs + 1))) ho₂ fun _ => rfl
    exact ⟨h₃.emit ho₃ _, (extends_emitDef B _).trans ((extends_emitDef _ _).trans
      ((extends_emitDef _ _).trans (extends_emit _ _))), closed_emit ho₃ rfl⟩

/-- The block of a guard, entered from the pattern test. -/
theorem Builder.Sound.guardBlock (h : Sound B P) (ho : Open B.here) (slot : ℕ) (pattern : Option E) (missBB : ℕ) :
    Sound ((codegenTest slot pattern B.count missBB (B.createBlock true)).setInsertPoint B.count) P ∧
      ((codegenTest slot pattern B.count missBB (B.createBlock true)).setInsertPoint B.count).here = [] := by
  obtain ⟨h₁, e₁, hc⟩ := finishes_codegenTest slot pattern B.count missBB (h.createBlock true) ho
  exact ⟨h₁.setInsertPoint h.count_notMem hc (e₁.layout (mem_layout_createBlock B)),
    here_setInsertPoint h₁ (Set.mem_insert _ _)⟩

theorem finishes_codegenCheck (slot : ℕ) (pattern guard : Option E) (bodyBB missBB : ℕ) :
    Finishes (codegenCheck (S := S) slot pattern guard bodyBB missBB) := by
  intro B P h ho
  cases guard with
  | none => exact finishes_codegenTest slot pattern bodyBB missBB h ho
  | some e =>
    obtain ⟨-, e₁, -⟩ := finishes_codegenTest slot pattern B.count missBB (h.createBlock true) ho
    obtain ⟨h₂, hn₂⟩ := h.guardBlock ho slot pattern missBB
    obtain ⟨h₃, ho₃⟩ := h₂.codegenCond (open_of_nil hn₂) e
    exact ⟨h₃.emit ho₃ _, (extends_createBlock B true).trans (e₁.trans ((extends_setInsertPoint _ _).trans
      ((extends_codegenCond e _).trans (extends_emit _ _)))), closed_emit ho₃ rfl⟩

/-- The body of a case, entered from its check. -/
theorem Builder.Sound.caseBody (h : Sound B (insert bodyBB P)) (ho : Open B.here) (hP : bodyBB ∉ P)
    (hl : bodyBB ∈ B.layout) (slot missBB : ℕ) (pattern guard : Option E) :
    Sound ((codegenCheck slot pattern guard bodyBB missBB B).setInsertPoint bodyBB) P ∧
      ((codegenCheck slot pattern guard bodyBB missBB B).setInsertPoint bodyBB).here = [] := by
  obtain ⟨h₁, e₁, hc⟩ := finishes_codegenCheck slot pattern guard bodyBB missBB h ho
  exact ⟨h₁.setInsertPoint hP hc (e₁.layout hl), here_setInsertPoint h₁ (Set.mem_insert _ _)⟩

theorem Builder.Sound.codegenCase (h : Sound B (insert bodyBB P)) (ho : Open B.here) (hP : bodyBB ∉ P)
    (hl : bodyBB ∈ B.layout) (slot missBB mergeBB : ℕ) (pattern guard : Option E) (hbody : Keeps body) :
    Sound (codegenCase slot bodyBB missBB mergeBB pattern guard body B) P ∧
      Extends B (codegenCase slot bodyBB missBB mergeBB pattern guard body B) ∧
      Closed (codegenCase slot bodyBB missBB mergeBB pattern guard body B).here := by
  obtain ⟨-, e₁, -⟩ := finishes_codegenCheck slot pattern guard bodyBB missBB h ho
  obtain ⟨h₂, hn₂⟩ := h.caseBody ho hP hl slot missBB pattern guard
  obtain ⟨h₃, e₃, hc⟩ := hbody.brUnlessTerminated mergeBB h₂ (open_of_nil hn₂)
  exact ⟨h₃, e₁.trans ((extends_setInsertPoint _ _).trans e₃), hc⟩

/-- The bodies of `n` cases, numbered from `first` on. -/
def bodies (first n : ℕ) : Set ℕ := {b | first ≤ b ∧ b < first + n}

theorem bodies_zero (first : ℕ) : bodies first 0 = ∅ := by
  ext b
  simp only [bodies, Set.mem_ofPred_eq, Set.mem_empty_iff_false, iff_false]
  omega

theorem bodies_succ (first n : ℕ) : bodies first (n + 1) ∪ P = insert first (bodies (first + 1) n ∪ P) := by
  ext b
  simp only [bodies, Set.mem_union, Set.mem_ofPred_eq, Set.mem_insert_iff]
  constructor
  · rintro (⟨hle, hlt⟩ | hP)
    · rcases hle.eq_or_lt with heq | hlt'
      · exact .inl heq.symm
      · exact .inr (.inl ⟨hlt', by omega⟩)
    · exact .inr (.inr hP)
  · rintro (rfl | ⟨hle, hlt⟩ | hP)
    · exact .inl ⟨le_refl _, by omega⟩
    · exact .inl ⟨by omega, by omega⟩
    · exact .inr hP

/-- The cases that are left have their bodies pending, in the function, and apart from the other blocks. -/
structure Bodies (B : Builder E S) (P : Set ℕ) (first n : ℕ) : Prop where
  sound : Sound B (bodies first n ∪ P)
  placed : ∀ b ∈ bodies first n, b ∈ B.layout
  apart : ∀ b ∈ bodies first n, b ∉ P

theorem Bodies.notMem {first n : ℕ} (h : Bodies B P first (n + 1)) : first ∉ bodies (first + 1) n ∪ P := by
  rintro (⟨hle, -⟩ | hP)
  · omega
  · exact h.apart first ⟨le_refl _, by omega⟩ hP

theorem Bodies.first_placed {first n : ℕ} (h : Bodies B P first (n + 1)) : first ∈ B.layout :=
  h.placed first ⟨le_refl _, by omega⟩

/-- The block of the next check, pending while this case is emitted. -/
theorem Bodies.missBlock {first n : ℕ} (h : Bodies B P first (n + 1)) :
    Sound (B.createBlock true) (insert first (insert B.count (bodies (first + 1) n ∪ P))) ∧
      first ∉ insert B.count (bodies (first + 1) n ∪ P) ∧ B.count ∉ bodies (first + 1) n ∪ P := by
  have h₁ := h.sound
  have hcount := h.sound.count_notMem
  have hlt : first < B.count := h.sound.lt_of_mem (.inl ⟨le_refl _, by omega⟩)
  rw [bodies_succ] at h₁ hcount
  refine ⟨?_, ?_, fun hmem => hcount (Set.mem_insert_of_mem _ hmem)⟩
  · rw [Set.insert_comm]
    exact h₁.createBlock true
  · rintro (heq | hmem)
    · exact hlt.ne heq
    · exact h.notMem hmem

/-- After a case, its miss block is entered, and the cases after it are left. -/
theorem Bodies.nextCase {first n : ℕ} (h : Bodies B P first (n + 1)) (ho : Open B.here) (slot mergeBB : ℕ)
    (pattern guard : Option E) (hbody : Keeps body) :
    Bodies ((codegenCase slot first B.count mergeBB pattern guard body
        (B.createBlock true)).setInsertPoint B.count) P (first + 1) n ∧
      ((codegenCase slot first B.count mergeBB pattern guard body
        (B.createBlock true)).setInsertPoint B.count).here = [] ∧
      Extends B ((codegenCase slot first B.count mergeBB pattern guard body
        (B.createBlock true)).setInsertPoint B.count) := by
  obtain ⟨h₁, hfirst, hcount⟩ := h.missBlock
  have e₀ := extends_createBlock B true
  obtain ⟨h₂, e₂, hc⟩ := h₁.codegenCase ho hfirst (e₀.layout h.first_placed) slot B.count mergeBB pattern guard
    hbody
  have e₃ := e₀.trans (e₂.trans (extends_setInsertPoint _ B.count))
  refine ⟨⟨h₂.setInsertPoint hcount hc (e₂.layout (mem_layout_createBlock B)), fun b hb => ?_, fun b hb => ?_⟩,
    here_setInsertPoint h₂ (Set.mem_insert _ _), e₃⟩
  · exact e₃.layout (h.placed b ⟨by have := hb.1; omega, by have := hb.2; omega⟩)
  · exact h.apart b ⟨by have := hb.1; omega, by have := hb.2; omega⟩

/-- The last case. -/
theorem Bodies.lastCase {first : ℕ} (h : Bodies B P first 1) :
    Sound B (insert first P) ∧ first ∉ P ∧ first ∈ B.layout := by
  have h₁ := h.sound
  have hn := h.notMem
  rw [bodies_succ] at h₁
  rw [bodies_zero, Set.empty_union] at h₁ hn
  exact ⟨h₁, hn, h.first_placed⟩

theorem Bodies.codegenCases (slot mergeBB : ℕ) {cases : List (Option E × Option E × Emitter E S)}
    (hcases : ∀ q ∈ cases, Keeps q.2.2) (hne : cases ≠ []) :
    ∀ {B : Builder E S} {first : ℕ}, Bodies B P first cases.length → Open B.here →
      Sound (codegenCases slot mergeBB cases first B) P ∧
        Extends B (codegenCases slot mergeBB cases first B) ∧
        Closed (codegenCases slot mergeBB cases first B).here := by
  induction cases with
  | nil => exact absurd rfl hne
  | cons q rest ih =>
    obtain ⟨pattern, guard, body⟩ := q
    intro B first h ho
    have hbody : Keeps body := hcases _ List.mem_cons_self
    rw [Codegen.codegenCases]
    cases rest with
    | nil =>
      obtain ⟨h₁, hP, hl⟩ := h.lastCase
      exact h₁.codegenCase ho hP hl slot mergeBB mergeBB pattern guard hbody
    | cons q' rest =>
      obtain ⟨h₁, hn₁, e₁⟩ := h.nextCase ho slot mergeBB pattern guard hbody
      obtain ⟨h₂, e₂, hc⟩ := ih (fun q hq => hcases q (List.mem_cons_of_mem _ hq)) (List.cons_ne_nil _ _)
        h₁ (open_of_nil hn₁)
      exact ⟨h₂, e₁.trans e₂, hc⟩

theorem createBlocks_here (n : ℕ) : ∀ B : Builder E S, (createBlocks n B).here = B.here := by
  induction n with
  | zero => exact fun _ => rfl
  | succ n ih =>
    intro B
    rw [createBlocks, ih]
    rfl

/-- Blocks created in the function are pending and in it. -/
theorem Builder.Sound.createBlocks : ∀ (n : ℕ) {B : Builder E S} {P : Set ℕ}, Sound B P →
    Bodies (createBlocks n B) P B.count n := by
  intro n
  induction n with
  | zero =>
    intro B P h
    have hempty : ∀ b, b ∉ bodies B.count 0 := fun b hb => by
      rw [bodies_zero] at hb
      exact hb
    refine ⟨?_, fun b hb => absurd hb (hempty b), fun b hb => absurd hb (hempty b)⟩
    show Sound B (bodies B.count 0 ∪ P)
    rw [bodies_zero, Set.empty_union]
    exact h
  | succ n ih =>
    intro B P h
    have h₁ := ih (h.createBlock true)
    have hset : bodies (B.count + 1) n ∪ insert B.count P = bodies B.count (n + 1) ∪ P := by
      rw [bodies_succ, Set.union_insert]
    refine ⟨?_, ?_, ?_⟩
    · rw [← hset]
      exact h₁.sound
    · intro b hb
      rcases eq_or_ne b B.count with rfl | hne
      · exact (extends_createBlocks n _).layout (mem_layout_createBlock B)
      · exact h₁.placed b ⟨Nat.lt_of_le_of_ne hb.1 hne.symm, by have := hb.2; show b < B.count + 1 + n; omega⟩
    · exact fun b hb => h.notMem_of_le hb.1

/-- The head of a `match`: the subject is spilled, and the blocks of the bodies are created. -/
def matchHead (subject : E) (n : ℕ) (B : Builder E S) : Builder E S :=
  createBlocks n (((B.emitDef (.eval · subject)).createAlloca.emit (.storeValue B.slots B.regs)).createBlock
    false)

theorem Builder.Sound.matchHead (h : Sound B P) (ho : Open B.here) (subject : E) (n : ℕ) :
    Bodies (matchHead subject n B) (insert B.count P) (B.count + 1) n ∧ Open (matchHead subject n B).here ∧
      Extends B (matchHead subject n B) := by
  have h₁ := h.emitDef ho (.eval · subject)
  have ho₁ : Open (B.emitDef (.eval · subject)).here := open_emitDef ho fun _ => rfl
  have h₂ := h₁.createAlloca ho₁
  have ho₂ := open_createAlloca ho₁
  have h₃ := h₂.emit ho₂ (.storeValue B.slots B.regs)
  have ho₃ : Open ((B.emitDef (.eval · subject)).createAlloca.emit (.storeValue B.slots B.regs)).here :=
    open_emit ho₂ rfl
  refine ⟨(h₃.createBlock false).createBlocks n, ?_, ?_⟩
  · rw [Codegen.matchHead, createBlocks_here]
    exact ho₃
  · exact (extends_emitDef B _).trans ((extends_createAlloca _).trans ((extends_emit _ _).trans
      ((extends_createBlock _ false).trans (extends_createBlocks n _))))

theorem codegenMatch_eq (subject : E) {cases : List (Option E × Option E × Emitter E S)} (hne : cases ≠ [])
    (B : Builder E S) :
    codegenMatch subject cases B
      = enterBlock B.count (codegenCases B.slots B.count cases (B.count + 1)
          (matchHead subject cases.length B)) := by
  rw [codegenMatch, if_neg (by simpa using hne)]
  rfl

theorem keeps_codegenMatch {subject : E} {cases : List (Option E × Option E × Emitter E S)}
    (hcases : ∀ q ∈ cases, Keeps q.2.2) : Keeps (codegenMatch subject cases) := by
  intro B P h ho
  by_cases hne : cases = []
  · subst hne
    exact ⟨h, Extends.refl B⟩
  · rw [codegenMatch_eq subject hne]
    obtain ⟨h₁, ho₁, e₁⟩ := h.matchHead ho subject cases.length
    obtain ⟨h₂, e₂, hc⟩ := Bodies.codegenCases B.slots B.count hcases hne h₁ ho₁
    exact ⟨(h₂.enterBlock h.count_notMem hc).1, e₁.trans (e₂.trans (extends_enterBlock _ _))⟩

end Match

/-! ## Jumps -/

theorem keeps_codegenBreak : Keeps (codegenBreak (E := E) (S := S)) := by
  intro B P h ho
  unfold codegenBreak
  cases B.loopStack with
  | nil => exact ⟨h, Extends.refl B⟩
  | cons loop loops =>
    cases B.loopElseAllocas.head?.join with
    | none => exact keeps_emit _ h ho
    | some didBreak =>
      exact ⟨(h.emit ho _).emit (open_emit ho rfl) _, (extends_emit B _).trans (extends_emit _ _)⟩

theorem keeps_codegenContinue : Keeps (codegenContinue (E := E) (S := S)) := by
  intro B P h ho
  unfold codegenContinue
  cases B.loopStack with
  | nil => exact ⟨h, Extends.refl B⟩
  | cons loop loops => exact keeps_emit _ h ho

/-- A call of the runtime, which `main` makes before it returns. -/
theorem shutdown_keeps (T : Target) (h : Sound B P) (ho : Open B.here) :
    Sound (if T.isMain then B.emit (.call "__visuall_gc_shutdown") else B) P ∧
      Extends B (if T.isMain then B.emit (.call "__visuall_gc_shutdown") else B) ∧
      Open (if T.isMain then B.emit (.call "__visuall_gc_shutdown") else B).here := by
  split
  · exact ⟨h.emit ho _, extends_emit B _, open_emit ho rfl⟩
  · exact ⟨h, Extends.refl B, ho⟩

theorem keeps_codegenReturn (T : Target) (value : E) : Keeps (codegenReturn (S := S) T value) := by
  intro B P h ho
  have h₁ := h.emit ho (.call "__visuall_traceback_pop")
  have ho₁ : Open (B.emit (.call "__visuall_traceback_pop")).here := open_emit ho rfl
  have e₁ := extends_emit B (.call "__visuall_traceback_pop")
  rw [codegenReturn]
  by_cases hgen : T.genContext = true
  · rw [if_pos hgen]
    exact ⟨h₁.emit ho₁ _, e₁.trans (extends_emit _ _)⟩
  · rw [if_neg hgen]
    obtain ⟨h₂, e₂, ho₂⟩ := shutdown_keeps T h₁ ho₁
    have h₃ := h₂.emitDef ho₂ (.eval · value)
    have ho₃ := open_emitDef (i := (.eval · value)) ho₂ fun _ => rfl
    have e₃ := e₁.trans (e₂.trans (extends_emitDef _ (.eval · value)))
    by_cases hmain : T.isMain = true
    · simp only [hmain, if_true] at h₃ ho₃ e₃ ⊢
      exact ⟨(h₃.emitDef ho₃ _).emit (open_emitDef ho₃ fun _ => rfl) _,
        e₃.trans ((extends_emitDef _ _).trans (extends_emit _ _))⟩
    · simp only [hmain] at h₃ ho₃ e₃ ⊢
      exact ⟨h₃.emit ho₃ _, e₃.trans (extends_emit _ _)⟩

/-! ## Statements -/

section Statements

variable (T : Target)

/-- An else branch, emitted if there is one. -/
theorem keeps_orElse {stmts : List (Stmt E S)} (h : Keeps (codegenStmtList T stmts)) :
    ∀ f ∈ (if stmts.isEmpty then none else some (codegenStmtList T stmts)), Keeps f := by
  intro f hf
  split at hf
  · cases hf
  · cases Option.mem_some_iff.mp hf
    exact h

mutual

theorem keeps_codegenStmt : ∀ s : Stmt E S, Keeps (codegenStmt T s)
  | .simple _ => keeps_emit _
  | .ifStmt _ thenBranch elsifs elseBranch =>
    keeps_codegenIf (keeps_codegenStmtList thenBranch) (keeps_codegenElsifList elsifs)
      (keeps_orElse T (keeps_codegenStmtList elseBranch))
  | .whileStmt _ body elseBranch =>
    keeps_codegenWhile (keeps_codegenStmtList body) (keeps_orElse T (keeps_codegenStmtList elseBranch))
  | .matchStmt _ cases => keeps_codegenMatch (keeps_codegenCaseList cases)
  | .breakStmt => keeps_codegenBreak
  | .continueStmt => keeps_codegenContinue
  | .returnStmt value => keeps_codegenReturn T value

theorem keeps_codegenStmtList : ∀ stmts : List (Stmt E S), Keeps (codegenStmtList T stmts)
  | [] => keeps_id
  | s :: stmts => keeps_codegenSeq (keeps_codegenStmt s) (keeps_codegenStmtList stmts)

theorem keeps_codegenElsifList : ∀ elsifs : List (E × List (Stmt E S)),
    ∀ q ∈ codegenElsifList T elsifs, Keeps q.2
  | [] => fun _ hq => absurd hq List.not_mem_nil
  | (_, body) :: elsifs => fun q hq => by
    rcases List.mem_cons.mp hq with rfl | hq
    · exact keeps_codegenStmtList body
    · exact keeps_codegenElsifList elsifs q hq

theorem keeps_codegenCaseList : ∀ cases : List (Option E × Option E × List (Stmt E S)),
    ∀ q ∈ codegenCaseList T cases, Keeps q.2.2
  | [] => fun _ hq => absurd hq List.not_mem_nil
  | (_, _, body) :: cases => fun q hq => by
    rcases List.mem_cons.mp hq with rfl | hq
    · exact keeps_codegenStmtList body
    · exact keeps_codegenCaseList cases q hq

end

variable (stack : List (ℕ × ℕ)) (allocas : List (Option ℕ))

theorem sound_entry : Sound (entry stack allocas : Builder E S) ∅ ∧ Open (entry stack allocas : Builder E S).here := by
  have ho : Open (entry stack allocas : Builder E S).here := by
    intro i hi
    cases List.mem_singleton.mp hi
    rfl
  refine ⟨⟨Nat.lt_succ_self 0, List.mem_singleton_self _, .inl ho, Set.notMem_empty _, ?_, ?_, ?_⟩, ho⟩
  · exact fun b hb => absurd hb (Set.notMem_empty b)
  · exact fun b hlt hne _ => absurd (Nat.lt_one_iff.mp hlt) hne
  · exact fun b hb => code_emit _ _ (Nat.one_le_iff_ne_zero.mp hb)

theorem finishes_implicitReturn (h : Sound B P) :
    Sound (implicitReturn T B) P ∧ Extends B (implicitReturn T B) ∧ Closed (implicitReturn T B).here := by
  rw [implicitReturn]
  split
  · next ht => exact ⟨h, Extends.refl B, (terminated_iff h.insert_code).mp ht⟩
  · next ht =>
    have ho : Open B.here := h.insert_code.resolve_right fun hc => ht ((terminated_iff h.insert_code).mpr hc)
    have h₁ := h.emit ho (.call "__visuall_traceback_pop")
    obtain ⟨h₂, e₂, ho₂⟩ := shutdown_keeps T h₁ (open_emit ho rfl)
    exact ⟨h₂.emit ho₂ _, (extends_emit B _).trans (e₂.trans (extends_emit _ _)), closed_emit ho₂ rfl⟩

/-- **Well-formed blocks.**  Every block of an emitted function has exactly one terminator, at its end, and
has been inserted into the function. -/
theorem codegenFuncDef_closed (body : List (Stmt E S)) (b : ℕ) (hb : b < (codegenFuncDef T body stack allocas).count) :
    Closed ((codegenFuncDef T body stack allocas).code b) ∧ b ∈ (codegenFuncDef T body stack allocas).layout := by
  obtain ⟨h₀, ho⟩ := sound_entry (E := E) (S := S) stack allocas
  obtain ⟨h₁, -⟩ := keeps_codegenStmtList T body h₀ ho
  obtain ⟨h₂, -, hc⟩ := finishes_implicitReturn T h₁
  by_cases heq : b = (codegenFuncDef T body stack allocas).insertPoint
  · rw [heq]
    exact ⟨hc, h₂.insert_placed⟩
  · exact h₂.finished b hb heq (Set.notMem_empty b)

end Statements

end Visuall.Codegen
