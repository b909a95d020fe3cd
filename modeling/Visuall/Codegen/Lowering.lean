import Visuall.Codegen.Blocks
import Visuall.Lib.Machine

/-!
# Lowering preserves behaviour

The machine that executes the emitted blocks, and the simulation: started where an emitter starts, it arrives
where the run of the statements says.
-/

namespace Visuall.Codegen

open Builder

variable {E S V W : Type*}

/-! ## Executing blocks -/

/-- What a register or a stack slot holds. -/
inductive Cell (V : Type*)
  | undef
  | val (v : V)
  | bit (b : Bool)

/-- A function being executed: the next instruction, the registers, the stack slots, and the world. -/
structure Config (E S V W : Type*) where
  block : ℕ
  index : ℕ
  regs : ℕ → Cell V
  slots : ℕ → Cell V
  sys : Sys E S W

/-- How a function ends.  `fellThrough` is the implicit return, `exhausted` the return of a generator. -/
inductive Ending (V : Type*)
  | fellThrough
  | returned (v : V)
  | unwound
  | exhausted
  deriving DecidableEq, Repr

inductive State (E S V W : Type*)
  | running (c : Config E S V W)
  | ended (how : Ending V) (sys : Sys E S W)

namespace Config

variable (c : Config E S V W)

def next : Config E S V W := { c with index := c.index + 1 }

def jump (b : ℕ) : Config E S V W := { c with block := b, index := 0 }

def setReg (r : ℕ) (x : Cell V) : Config E S V W := { c.next with regs := Function.update c.regs r x }

def setSlot (slot : ℕ) (x : Cell V) : Config E S V W := { c.next with slots := Function.update c.slots slot x }

end Config

section Machine

variable (p : Primitives E S V W)

/-- One instruction.  An instruction on a register that does not hold what it needs does not get any
further. -/
def act : Instr E S → Config E S V W → State E S V W
  | .eval r e, c =>
    match p.evaluate e c.sys with
    | (x, some v) => .running { c.setReg r (.val v) with sys := x }
    | (x, none) => .ended .unwound x
  | .perform s, c =>
    match p.performs s c.sys with
    | (x, true) => .running { c.next with sys := x }
    | (x, false) => .ended .unwound x
  | .toBool r x, c =>
    match c.regs x with
    | .val v => .running (c.setReg r (.bit (p.truthy v)))
    | _ => .running c
  | .alloca slot, c => .running (c.setSlot slot .undef)
  | .storeBit slot b, c => .running (c.setSlot slot (.bit b))
  | .storeValue slot x, c => .running (c.setSlot slot (c.regs x))
  | .load r slot, c => .running (c.setReg r (c.slots slot))
  | .patternCmp r subj pat, c =>
    match c.regs subj, c.regs pat with
    | .val v, .val u => .running (c.setReg r (.bit (p.same v u)))
    | _, _ => .running c
  | .call _, c => .running c.next
  | .trunc r x, c =>
    match c.regs x with
    | .val v => .running (c.setReg r (.val (p.truncate v)))
    | _ => .running c
  | .br target, c => .running (c.jump target)
  | .condBr cond ifTrue ifFalse, c =>
    match c.regs cond with
    | .bit b => .running (c.jump (if b then ifTrue else ifFalse))
    | _ => .running c
  | .ret x, c =>
    match c.regs x with
    | .val v => .ended (.returned v) c.sys
    | _ => .running c
  | .retNull, c => .ended .fellThrough c.sys
  | .retSentinel, c => .ended .exhausted c.sys

variable (code : ℕ → List (Instr E S))

/-- One step.  There is none past the end of a block without a terminator. -/
def step : State E S V W → State E S V W
  | .running c =>
    match (code c.block)[c.index]? with
    | some i => act p i c
    | none => .running c
  | .ended how x => .ended how x

/-- The world and the effects of a state. -/
def State.sys : State E S V W → Sys E S W
  | .running c => c.sys
  | .ended _ x => x

theorem effects_act (i : Instr E S) (c : Config E S V W) : c.sys.2 <+: (act p i c).sys.2 := by
  cases i with
  | eval r e =>
    rcases hv : (p.eval e c.sys.1).2 with _ | v <;>
      simp [act, Primitives.evaluate, hv, State.sys]
  | perform s =>
    rcases hv : (p.perform s c.sys.1).2 <;> simp [act, Primitives.performs, hv, State.sys]
  | toBool r x => cases hx : c.regs x <;> simp [act, hx, State.sys, Config.setReg, Config.next]
  | patternCmp r subj pat =>
    cases hs : c.regs subj <;> cases hp : c.regs pat <;>
      simp [act, hs, hp, State.sys, Config.setReg, Config.next]
  | trunc r x => cases hx : c.regs x <;> simp [act, hx, State.sys, Config.setReg, Config.next]
  | condBr cond t f => cases hx : c.regs cond <;> simp [act, hx, State.sys, Config.jump]
  | ret x => cases hx : c.regs x <;> simp [act, hx, State.sys]
  | _ => exact List.prefix_rfl

/-- The machine that executes the blocks. -/
def machine : Machine (State E S V W) (E ⊕ S) (Ending V × W) where
  step := step p code
  trace := fun s => s.sys.2
  ended
    | .running _ => none
    | .ended how x => some (how, x.1)
  ended_step := by
    intro s r h
    cases s with
    | running c => cases h
    | ended how x => rfl
  trace_step := by
    intro s
    cases s with
    | running c =>
      cases hi : (code c.block)[c.index]? with
      | none =>
        simp only [step, hi]
        exact List.prefix_rfl
      | some i =>
        simp only [step, hi]
        exact effects_act p i c
    | ended how x => exact List.prefix_rfl

end Machine

/-! ## Where execution stands -/

/-- The code covers what has been emitted. -/
def Covers (code : ℕ → List (Instr E S)) (B : Builder E S) : Prop := ∀ b, B.code b <+: code b

/-- Execution stands where the next instruction is going to be emitted. -/
def At (B : Builder E S) (c : Config E S V W) : Prop := c.block = B.insertPoint ∧ c.index = B.here.length

/-- Execution stands at the start of a block. -/
def AtStart (bb : ℕ) (c : Config E S V W) : Prop := c.block = bb ∧ c.index = 0

variable {B B' : Builder E S} {P : Set ℕ} {c c' c'' : Config E S V W} {i : Instr E S}
  {code : ℕ → List (Instr E S)} {bb : ℕ}

theorem Covers.of_extends (h : Covers code B') (he : Extends B B') : Covers code B :=
  fun b => (he.code b).trans (h b)

theorem Covers.popLoop (h : Covers code B.popLoop) : Covers code B := h

theorem AtStart.at (h : AtStart B.insertPoint c) (hn : B.here = []) : At B c := by
  refine ⟨h.1, ?_⟩
  rw [hn]
  exact h.2

theorem atStart_jump (c : Config E S V W) (bb : ℕ) : AtStart bb (c.jump bb) := ⟨rfl, rfl⟩

/-- After an instruction that is not a jump, execution stands after it. -/
theorem At.emit (h : At B c) (i : Instr E S) (hb : c'.block = c.block) (hi : c'.index = c.index + 1) :
    At (B.emit i) c' := by
  refine ⟨hb.trans h.1, ?_⟩
  rw [here_emit, List.length_append, hi, h.2]
  rfl

theorem At.emitDef (h : At B c) (i : ℕ → Instr E S) (hb : c'.block = c.block) (hi : c'.index = c.index + 1) :
    At (B.emitDef i) c' :=
  h.emit (i B.regs) hb hi

variable (p : Primitives E S V W)

/-- The instruction that was emitted where execution stands is the next to be executed. -/
theorem step_emit (hcov : Covers code (B.emit i)) (hat : At B c) : step p code (.running c) = act p i c := by
  have hpre : B.here ++ [i] <+: code c.block := by
    rw [hat.1, ← here_emit]
    exact hcov B.insertPoint
  have hi : (code c.block)[c.index]? = some i := by
    obtain ⟨rest, hrest⟩ := hpre
    rw [← hrest, hat.2]
    simp
  simp only [step, hi]

/-- The slots below `n` are as they were. -/
def SameSlots (n : ℕ) (c c' : Config E S V W) : Prop := ∀ s < n, c'.slots s = c.slots s

theorem SameSlots.trans {n : ℕ} (h : SameSlots n c c') (h' : SameSlots n c' c'') : SameSlots n c c'' :=
  fun s hs => (h' s hs).trans (h s hs)

theorem SameSlots.mono {m n : ℕ} (h : SameSlots n c c') (hle : m ≤ n) : SameSlots m c c' :=
  fun s hs => h s (lt_of_lt_of_le hs hle)

/-- The flag of the innermost loop, if it has one. -/
def flagOf (F : Builder E S) : Option ℕ := F.loopElseAllocas.head?.join

/-- A break has set the flag of the innermost loop, and no other slot. -/
def Flagged (F : Builder E S) (c c' : Config E S V W) : Prop :=
  (∀ f, flagOf F = some f → c'.slots f = .bit true) ∧
    ∀ s < F.slots, flagOf F ≠ some s → c'.slots s = c.slots s

/-- What a function returns when its body returns `v`: `main` returns an i32. -/
def Target.result (T : Target) (v : V) : V := if T.isMain then p.truncate v else v

/-! ## Arriving where the run says -/

section Lands

variable (T : Target) (code)

/-- From `c`, in the loops of `F`, execution arrives where the result says: at a place in `Q` after a normal
one; at the exit or the header of the innermost loop; at the end of the function; or, when the fuel ran out,
through `n` steps. -/
def Lands (n : ℕ) (F : Builder E S) (Q : Config E S V W → Prop) (c : Config E S V W) :
    Sys E S W × Result V → Prop
  | (x, .normal) => ∃ c', (machine p code).Reach 0 (.running c) (.running c') ∧ c'.sys = x ∧ Q c' ∧
      SameSlots F.slots c c'
  | (x, .broke) => ∃ c' header exit loops, F.loopStack = (header, exit) :: loops ∧
      (machine p code).Reach 0 (.running c) (.running c') ∧ c'.sys = x ∧ AtStart exit c' ∧ Flagged F c c'
  | (x, .continued) => ∃ c' header exit loops, F.loopStack = (header, exit) :: loops ∧
      (machine p code).Reach 0 (.running c) (.running c') ∧ c'.sys = x ∧ AtStart header c' ∧
      SameSlots F.slots c c'
  | (x, .returned v) => (machine p code).Reach 0 (.running c) (.ended (.returned (T.result p v)) x)
  | (x, .unwound) => (machine p code).Reach 0 (.running c) (.ended .unwound x)
  | (x, .outOfFuel) => ∃ c', (machine p code).Reach n (.running c) (.running c') ∧ c'.sys = x

variable {p T code} {n m : ℕ} {F : Builder E S} {Q R : Config E S V W → Prop} {r : Sys E S W × Result V}

/-- Steps in front. -/
theorem Lands.of_reach (hr : (machine p code).Reach m (.running c) (.running c')) (hs : SameSlots F.slots c c')
    (h : Lands code p T n F Q c' r) : Lands code p T (m + n) F Q c r := by
  obtain ⟨x, result⟩ := r
  have hr₀ : (machine p code).Reach 0 (.running c) (.running c') := hr.mono (Nat.zero_le m)
  cases result with
  | normal =>
    obtain ⟨d, hd, hx, hq, hsame⟩ := h
    exact ⟨d, hr₀.after hd, hx, hq, hs.trans hsame⟩
  | broke =>
    obtain ⟨d, header, exit, loops, hl, hd, hx, ha, hf⟩ := h
    exact ⟨d, header, exit, loops, hl, hr₀.after hd, hx, ha, hf.1,
      fun s hlt hne => (hf.2 s hlt hne).trans (hs s hlt)⟩
  | continued =>
    obtain ⟨d, header, exit, loops, hl, hd, hx, ha, hsame⟩ := h
    exact ⟨d, header, exit, loops, hl, hr₀.after hd, hx, ha, hs.trans hsame⟩
  | returned v => exact hr₀.after h
  | unwound => exact hr₀.after h
  | outOfFuel =>
    obtain ⟨d, hd, hx⟩ := h
    exact ⟨d, hr.trans hd, hx⟩

theorem Lands.after (hr : (machine p code).Reach m (.running c) (.running c')) (hs : SameSlots F.slots c c')
    (h : Lands code p T n F Q c' r) : Lands code p T n F Q c r := by
  have := h.of_reach (hr.mono (Nat.zero_le m)) hs
  rwa [Nat.zero_add] at this

/-- Less fuel, an outer frame, and another place to arrive at. -/
theorem Lands.mono (h : Lands code p T n F Q c r) (hle : m ≤ n) (hQ : ∀ c', Q c' → R c') :
    Lands code p T m F R c r := by
  obtain ⟨x, result⟩ := r
  cases result with
  | normal =>
    obtain ⟨d, hd, hx, hq, hsame⟩ := h
    exact ⟨d, hd, hx, hQ d hq, hsame⟩
  | outOfFuel =>
    obtain ⟨d, hd, hx⟩ := h
    exact ⟨d, hd.mono hle, hx⟩
  | broke => exact h
  | continued => exact h
  | returned v => exact h
  | unwound => exact h

/-- What holds in the loops of a builder holds in those of an earlier one. -/
theorem Lands.frame (h : Lands code p T n F Q c r) (he : Extends B F) : Lands code p T n B Q c r := by
  obtain ⟨x, result⟩ := r
  have hflag : flagOf F = flagOf B := by
    unfold flagOf
    rw [he.loopElseAllocas]
  cases result with
  | normal =>
    obtain ⟨d, hd, hx, hq, hsame⟩ := h
    exact ⟨d, hd, hx, hq, hsame.mono he.slots⟩
  | broke =>
    obtain ⟨d, header, exit, loops, hl, hd, hx, ha, hf⟩ := h
    refine ⟨d, header, exit, loops, he.loopStack.symm.trans hl, hd, hx, ha, ?_, ?_⟩
    · intro f hf'
      exact hf.1 f (hflag.trans hf')
    · intro s hlt hne
      exact hf.2 s (lt_of_lt_of_le hlt he.slots) (by rw [hflag]; exact hne)
  | continued =>
    obtain ⟨d, header, exit, loops, hl, hd, hx, ha, hsame⟩ := h
    exact ⟨d, header, exit, loops, he.loopStack.symm.trans hl, hd, hx, ha, hsame.mono he.slots⟩
  | returned v => exact h
  | unwound => exact h
  | outOfFuel => exact h

/-- Where the run goes on normally, so does execution. -/
theorem Lands.seq {f g : Run E S V W} (h : Lands code p T n F Q c (f c.sys))
    (hg : ∀ c', Q c' → Lands code p T n F R c' (g c'.sys)) : Lands code p T n F R c (seqRun f g c.sys) := by
  unfold seqRun
  rcases hf : f c.sys with ⟨x, result⟩
  rw [hf] at h
  cases result with
  | normal =>
    obtain ⟨d, hd, rfl, hq, hsame⟩ := h
    exact (hg d hq).after hd hsame
  | broke => exact h
  | continued => exact h
  | returned v => exact h
  | unwound => exact h
  | outOfFuel => exact h

theorem seqRun_skipRun (f : Run E S V W) : seqRun f skipRun = f := by
  funext x
  unfold seqRun skipRun
  rcases f x with ⟨y, result⟩
  cases result <;> rfl

/-- Execution goes on after a normal end. -/
theorem Lands.then {f : Run E S V W} (h : Lands code p T n F Q c (f c.sys))
    (hQ : ∀ c', Q c' → Lands code p T n F R c' (c'.sys, .normal)) : Lands code p T n F R c (f c.sys) := by
  rw [← seqRun_skipRun f]
  exact h.seq hQ

theorem Lands.here (hQ : Q c) : Lands code p T n F Q c (c.sys, .normal) :=
  ⟨c, Machine.Reach.refl _, rfl, hQ, fun _ _ => rfl⟩

end Lands

/-! ## What is emitted for a value, a condition and a branch -/

section Rules

variable {p} {T : Target} {n : ℕ} {F : Builder E S} {Q : Config E S V W → Prop}

theorem Lands.step {r : Sys E S W × Result V} (hcov : Covers code (B.emit i)) (hat : At B c)
    (hact : act p i c = .running c') (hs : SameSlots F.slots c c') (h : Lands code p T n F Q c' r) :
    Lands code p T n F Q c r :=
  h.after (Machine.Reach.single ((step_emit p hcov hat).trans hact)) hs

/-- An evaluation, and what follows it. -/
theorem Lands.value {e : E} {k : V → Run E S V W} (hcov : Covers code (B.emitDef (.eval · e))) (hat : At B c)
    (hk : ∀ c' v, At (B.emitDef (.eval · e)) c' → c'.regs B.regs = .val v → c'.slots = c.slots →
      (∀ r, r ≠ B.regs → c'.regs r = c.regs r) → Lands code p T n F Q c' (k v c'.sys)) :
    Lands code p T n F Q c (valueRun p e k c.sys) := by
  have hstep : Codegen.step p code (.running c) = act p (.eval B.regs e) c := step_emit p hcov hat
  unfold valueRun
  rcases hv : p.evaluate e c.sys with ⟨x, _ | v⟩
  · have hact : act p (.eval B.regs e) c = .ended .unwound x := by simp only [act, hv]
    exact (Machine.Reach.single (hstep.trans hact)).mono (Nat.zero_le 1)
  · have hact : act p (.eval B.regs e) c = .running { c.setReg B.regs (.val v) with sys := x } := by
      simp only [act, hv]
    refine (hk { c.setReg B.regs (.val v) with sys := x } v (hat.emitDef _ rfl rfl) ?_ rfl ?_).step hcov
      hat hact fun _ _ => rfl
    · exact Function.update_self ..
    · exact fun r hr => Function.update_of_ne hr ..

/-- A condition, and what follows it. -/
theorem Lands.cond {cond : E} {yes no : Run E S V W} (hcov : Covers code (codegenCond cond B)) (hat : At B c)
    (hk : ∀ c' b, At (codegenCond cond B) c' → c'.regs (B.regs + 1) = .bit b → c'.slots = c.slots →
      Lands code p T n F Q c' ((if b then yes else no) c'.sys)) :
    Lands code p T n F Q c (condRun p cond yes no c.sys) := by
  refine Lands.value (hcov.of_extends (extends_emitDef _ _)) hat fun d v hd hv hslots _ => ?_
  have hact : act p (.toBool (B.regs + 1) B.regs) d
      = .running (d.setReg (B.regs + 1) (.bit (p.truthy v))) := by simp only [act, hv]
  have h := hk (d.setReg (B.regs + 1) (.bit (p.truthy v))) (p.truthy v) (hd.emitDef _ rfl rfl)
    (Function.update_self ..) hslots
  exact h.step (B := B.emitDef (.eval · cond)) (i := .toBool (B.regs + 1) B.regs) hcov hd hact fun _ _ => rfl

theorem reach_condBr {r t f : ℕ} {b : Bool} (hcov : Covers code (B.emit (.condBr r t f))) (hat : At B c)
    (hr : c.regs r = .bit b) :
    (machine p code).Reach 1 (.running c) (.running (c.jump (if b then t else f))) := by
  refine Machine.Reach.single ((step_emit p hcov hat).trans ?_)
  simp only [act, hr]

theorem reach_br (hcov : Covers code (B.emit (.br bb))) (hat : At B c) :
    (machine p code).Reach 1 (.running c) (.running (c.jump bb)) :=
  Machine.Reach.single (step_emit p hcov hat)

theorem brUnlessTerminated_of_open (ho : Open B.here) (bb : ℕ) : B.brUnlessTerminated bb = B.emit (.br bb) := by
  rw [brUnlessTerminated, terminated_eq_false ho]
  rfl

/-! ## Emitters that do what a run says -/

variable (p T n) in
/-- Executing what `f` emits does what `g` says, inside loops if `inLoop`. -/
def Simulates (inLoop : Bool) (f : Emitter E S) (g : Run E S V W) : Prop :=
  ∀ ⦃code⦄ ⦃B : Builder E S⦄ ⦃P⦄ ⦃c : Config E S V W⦄, Sound B P → Open B.here →
    (inLoop = true → B.loopStack ≠ []) → Covers code (f B) → At B c →
    Lands code p T n B (fun c' => At (f B) c' ∧ Open (f B).here) c (g c.sys)

variable (p T n) in
/-- The same for an emitter that sends every normal end to the block `mergeBB`. -/
def Joins (inLoop : Bool) (mergeBB : ℕ) (f : Emitter E S) (g : Run E S V W) : Prop :=
  ∀ ⦃code⦄ ⦃B : Builder E S⦄ ⦃P⦄ ⦃c : Config E S V W⦄, Sound B P → Open B.here →
    (inLoop = true → B.loopStack ≠ []) → Covers code (f B) → At B c →
    Lands code p T n B (AtStart mergeBB) c (g c.sys)

variable {inLoop : Bool} {f f' : Emitter E S} {g g' : Run E S V W} {mergeBB : ℕ}

theorem Simulates.joins (h : Simulates p T n inLoop f g) (mergeBB : ℕ) :
    Joins p T n inLoop mergeBB (fun B => (f B).brUnlessTerminated mergeBB) g := by
  intro code B P c hs ho hl hcov hat
  refine (h hs ho hl (hcov.of_extends (extends_brUnlessTerminated _ _)) hat).then ?_
  rintro d ⟨hd, hopen⟩
  have hcov' : Covers code ((f B).emit (.br mergeBB)) := by
    rw [← brUnlessTerminated_of_open hopen]
    exact hcov
  exact (Lands.here (atStart_jump d mergeBB)).after (reach_br hcov' hd) fun _ _ => rfl

theorem simulates_id : Simulates p T n inLoop (fun B => B) skipRun := by
  intro code B P c _ ho _ _ hat
  exact Lands.here ⟨hat, ho⟩

theorem simulates_simple (s : S) : Simulates p T n inLoop (fun B => B.emit (.perform s)) (simpleRun p s) := by
  intro code B P c _ ho _ hcov hat
  have hstep := step_emit p hcov hat
  unfold simpleRun
  rcases hv : p.performs s c.sys with ⟨x, _ | _⟩
  · have hact : act p (.perform s) c = .ended .unwound x := by simp only [act, hv]
    exact (Machine.Reach.single (hstep.trans hact)).mono (Nat.zero_le 1)
  · have hact : act p (.perform s) c = .running { c.next with sys := x } := by simp only [act, hv]
    exact (Lands.here ⟨hat.emit _ rfl rfl, open_emit ho rfl⟩).step hcov hat hact fun _ _ => rfl

theorem simulates_codegenSeq (kf : Keeps f) (kf' : Keeps f') (hf : Simulates p T n inLoop f g)
    (hf' : Simulates p T n inLoop f' g') : Simulates p T n inLoop (codegenSeq f f') (seqRun g g') := by
  intro code B P c hs ho hl hcov hat
  obtain ⟨h₁, e₁⟩ := kf hs ho
  by_cases ht : (f B).terminated = true
  · -- the block is terminated, so the run has not ended normally
    have heq : codegenSeq f f' B = f B := if_pos ht
    rw [heq] at hcov ⊢
    refine (hf hs ho hl hcov hat).seq ?_
    rintro d ⟨-, hopen⟩
    rw [terminated_eq_false hopen] at ht
    cases ht
  · have heq : codegenSeq f f' B = f' (f B) := if_neg ht
    rw [heq] at hcov ⊢
    have ho₁ : Open (f B).here :=
      h₁.insert_code.resolve_right fun hc => ht ((terminated_iff h₁.insert_code).mpr hc)
    obtain ⟨-, e₂⟩ := kf' h₁ ho₁
    refine (hf hs ho hl (hcov.of_extends e₂) hat).seq ?_
    rintro d ⟨hd, -⟩
    refine (hf' h₁ ho₁ (fun h => ?_) hcov hd).frame e₁
    rw [e₁.loopStack]
    exact hl h

/-! ## Jumps -/

theorem simulates_codegenBreak : Simulates p T n true codegenBreak (fun x => (x, .broke)) := by
  intro code B P c _ _ hl hcov hat
  obtain ⟨⟨header, exit⟩, loops, hstack⟩ := List.exists_cons_of_ne_nil (hl rfl)
  unfold codegenBreak at hcov
  rw [hstack] at hcov
  simp only at hcov
  cases hflag : B.loopElseAllocas.head?.join with
  | none =>
    rw [hflag] at hcov
    refine ⟨c.jump exit, header, exit, loops, hstack, (reach_br hcov hat).mono (Nat.zero_le 1), rfl,
      atStart_jump c exit, fun f hf => ?_, fun _ _ _ => rfl⟩
    rw [flagOf, hflag] at hf
    cases hf
  | some didBreak =>
    rw [hflag] at hcov
    have hstore : (machine p code).Reach 1 (.running c) (.running (c.setSlot didBreak (.bit true))) :=
      Machine.Reach.single (step_emit p (hcov.of_extends (extends_emit _ _)) hat)
    have hat' : At (B.emit (.storeBit didBreak true)) (c.setSlot didBreak (.bit true)) := hat.emit _ rfl rfl
    refine ⟨(c.setSlot didBreak (.bit true)).jump exit, header, exit, loops, hstack,
      (hstore.trans (reach_br hcov hat')).mono (Nat.zero_le _), rfl, atStart_jump _ exit, fun f hf => ?_, fun s _ hne => ?_⟩
    · rw [flagOf, hflag] at hf
      cases hf
      exact Function.update_self ..
    · rw [flagOf, hflag] at hne
      exact Function.update_of_ne (fun heq => hne (by rw [heq])) ..

theorem simulates_codegenContinue : Simulates p T n true codegenContinue (fun x => (x, .continued)) := by
  intro code B P c _ _ hl hcov hat
  obtain ⟨⟨header, exit⟩, loops, hstack⟩ := List.exists_cons_of_ne_nil (hl rfl)
  unfold codegenContinue at hcov
  rw [hstack] at hcov
  exact ⟨c.jump header, header, exit, loops, hstack, (reach_br hcov hat).mono (Nat.zero_le 1), rfl,
    atStart_jump c header, fun _ _ => rfl⟩

theorem reach_ret {x : ℕ} {v : V} (hcov : Covers code (B.emit (.ret x))) (hat : At B c) (hx : c.regs x = .val v) :
    (machine p code).Reach 0 (.running c) (.ended (.returned v) c.sys) := by
  refine (Machine.Reach.single ((step_emit p hcov hat).trans ?_)).mono (Nat.zero_le 1)
  simp only [act, hx]

theorem simulates_codegenReturn (hgen : T.genContext = false) (value : E) :
    Simulates p T n inLoop (codegenReturn T value) (valueRun p value fun v x => (x, .returned v)) := by
  intro code B P c _ _ _ hcov hat
  rw [codegenReturn, hgen] at hcov
  simp only [Bool.false_eq_true, if_false] at hcov
  have hat₁ : At (B.emit (.call "__visuall_traceback_pop")) c.next := hat.emit _ rfl rfl
  by_cases hmain : T.isMain = true
  · simp only [hmain, if_true] at hcov
    set B₁ := (B.emit (.call "__visuall_traceback_pop")).emit (.call "__visuall_gc_shutdown") with hB₁
    have hcov₃ : Covers code ((B₁.emitDef (.eval · value)).emitDef (.trunc · B₁.regs)) :=
      hcov.of_extends (extends_emit _ _)
    have hcov₂ : Covers code (B₁.emitDef (.eval · value)) := hcov₃.of_extends (extends_emitDef _ _)
    have hcov₁ : Covers code B₁ := hcov₂.of_extends (extends_emitDef _ _)
    have hat₂ : At B₁ c.next.next := hat₁.emit _ rfl rfl
    refine Lands.step (hcov₁.of_extends (extends_emit _ _)) hat rfl (fun _ _ => rfl) ?_
    refine Lands.step hcov₁ hat₁ rfl (fun _ _ => rfl) ?_
    refine Lands.value (c := c.next.next) hcov₂ hat₂ fun d v hd hv _ _ => ?_
    have hact : act p (.trunc (B₁.regs + 1) B₁.regs) d
        = .running (d.setReg (B₁.regs + 1) (.val (p.truncate v))) := by simp only [act, hv]
    have hstep := step_emit p (B := B₁.emitDef (.eval · value)) (i := .trunc (B₁.regs + 1) B₁.regs) hcov₃ hd
    have hret := reach_ret (p := p) (c := d.setReg (B₁.regs + 1) (.val (p.truncate v))) (v := p.truncate v)
      hcov (hd.emitDef _ rfl rfl) (Function.update_self ..)
    show (machine p code).Reach 0 (.running d) (.ended (.returned (T.result p v)) d.sys)
    rw [Target.result, if_pos hmain]
    exact Machine.Reach.head (hstep.trans hact) hret
  · simp only [hmain] at hcov
    have hcov₂ := hcov.of_extends (extends_emit _ _)
    refine Lands.step (hcov₂.of_extends (extends_emitDef _ _)) hat rfl (fun _ _ => rfl) ?_
    refine Lands.value (c := c.next) hcov₂ hat₁ fun d v hd hv _ _ => ?_
    show (machine p code).Reach 0 (.running d) (.ended (.returned (T.result p v)) d.sys)
    rw [Target.result, if_neg hmain]
    exact reach_ret hcov hd hv

/-! ## Branches -/

/-- What is emitted after a branch, and what the run does there. -/
def Next (p : Primitives E S V W) (T : Target) (n : ℕ) (inLoop : Bool) (mergeBB : ℕ)
    (next : Option (Emitter E S)) (g : Run E S V W) : Prop :=
  match next with
  | none => g = skipRun
  | some f => Finishes f ∧ Joins p T n inLoop mergeBB f g

/-- A branch, its condition being in a register. -/
theorem lands_codegenBranch {condVal thenBB : ℕ} {b : Bool} {body : Emitter E S} {next : Option (Emitter E S)}
    (hs : Sound B (insert thenBB P)) (ho : Open B.here) (hP : thenBB ∉ P) (hl : thenBB ∈ B.layout)
    (hloop : inLoop = true → B.loopStack ≠ []) (kbody : Keeps body) (hbody : Simulates p T n inLoop body g)
    (hnext : Next p T n inLoop mergeBB next g')
    (hcov : Covers code (codegenBranch condVal thenBB mergeBB body next B)) (hat : At B c)
    (hr : c.regs condVal = .bit b) :
    Lands code p T n B (AtStart mergeBB) c ((if b then g else g') c.sys) := by
  cases next with
  | none =>
    obtain ⟨h₁, hn₁⟩ := hs.emitCondBr ho hP hl condVal mergeBB
    obtain ⟨h₂, e₂, -⟩ := kbody.brUnlessTerminated mergeBB h₁ (open_of_nil hn₁)
    have hreach := reach_condBr (p := p)
      (Covers.of_extends hcov ((extends_setInsertPoint _ thenBB).trans e₂)) hat hr
    refine Lands.after hreach (fun _ _ => rfl) ?_
    cases b with
    | true =>
      have hland := hbody.joins mergeBB h₁ (open_of_nil hn₁) hloop hcov
        ((atStart_jump c thenBB).at (B := emitCondBr condVal thenBB mergeBB B) hn₁)
      exact hland.frame (extends_emitCondBr _ _ _ _)
    | false =>
      cases (hnext : g' = skipRun)
      exact Lands.here (atStart_jump c mergeBB)
  | some next =>
    obtain ⟨fnext, jnext⟩ := hnext
    have hlt : thenBB < B.count := hs.lt_of_mem (Set.mem_insert _ _)
    have hP' : thenBB ∉ insert B.count P := by
      rintro (heq | hmem)
      · exact hlt.ne heq
      · exact hP hmem
    have hnot : B.count ∉ P := fun hmem => hs.count_notMem (Set.mem_insert_of_mem _ hmem)
    have e₀ := extends_createBlock B false
    obtain ⟨h₁, hn₁⟩ := hs.branchElse.emitCondBr ho hP' (e₀.layout hl) condVal B.count
    obtain ⟨h₂, e₂, hc⟩ := kbody.brUnlessTerminated mergeBB h₁ (open_of_nil hn₁)
    obtain ⟨h₃, hn₃⟩ := h₂.enterBlock hnot hc
    obtain ⟨-, e₄, -⟩ := fnext h₃ (open_of_nil hn₃)
    have hcov₂ := hcov.of_extends ((extends_enterBlock _ _).trans e₄)
    have e₁ := extends_emitCondBr condVal thenBB B.count (B.createBlock false)
    have hreach := reach_condBr (p := p) (B := B.createBlock false)
      (Covers.of_extends hcov₂ ((extends_setInsertPoint _ thenBB).trans e₂)) hat hr
    refine Lands.after hreach (fun _ _ => rfl) ?_
    cases b with
    | true =>
      have hland := hbody.joins mergeBB h₁ (open_of_nil hn₁) hloop hcov₂
        ((atStart_jump c thenBB).at (B := emitCondBr condVal thenBB B.count (B.createBlock false)) hn₁)
      exact hland.frame (e₀.trans e₁)
    | false =>
      have e₃ := e₀.trans (e₁.trans (e₂.trans (extends_enterBlock B.count _)))
      have hland := jnext h₃ (open_of_nil hn₃) (fun h => by rw [e₃.loopStack]; exact hloop h) hcov
        ((atStart_jump c B.count).at hn₃)
      exact hland.frame e₃

/-- An emitter and a run for each branch, under the same condition. -/
def BranchPairs (p : Primitives E S V W) (T : Target) (n : ℕ) (inLoop : Bool) :
    List (E × Emitter E S) → List (E × Run E S V W) → Prop :=
  List.Forall₂ fun q q' => q.1 = q'.1 ∧ Keeps q.2 ∧ Simulates p T n inLoop q.2 q'.2

/-- An else branch: the emitter, if there is one, and its run. -/
def OrElse (p : Primitives E S V W) (T : Target) (n : ℕ) (inLoop : Bool) :
    Option (Emitter E S) → Run E S V W → Prop
  | none, g => g = skipRun
  | some f, g => Keeps f ∧ Simulates p T n inLoop f g

theorem BranchPairs.keeps {elsifs : List (E × Emitter E S)} {runs : List (E × Run E S V W)}
    (h : BranchPairs p T n inLoop elsifs runs) : ∀ q ∈ elsifs, Keeps q.2 := by
  induction h with
  | nil => exact fun _ hq => absurd hq List.not_mem_nil
  | cons hpair _ ih =>
    intro q hq
    rcases List.mem_cons.mp hq with rfl | hq
    · exact hpair.2.1
    · exact ih q hq

theorem OrElse.keeps {orElse : Option (Emitter E S)} (h : OrElse p T n inLoop orElse g) :
    ∀ f ∈ orElse, Keeps f := by
  intro f hf
  cases Option.mem_def.mp hf
  exact h.1

/-- The condition of a branch, with the creation of its block, and the branch. -/
theorem lands_branchThen {cond : E} {body : Emitter E S} {next : Option (Emitter E S)} (hs : Sound B P)
    (ho : Open B.here) (hloop : inLoop = true → B.loopStack ≠ []) (kbody : Keeps body)
    (hbody : Simulates p T n inLoop body g) (hnext : Next p T n inLoop mergeBB next g')
    (fnext : ∀ f ∈ next, Finishes f)
    (hcov : Covers code (codegenBranch (B.regs + 1) B.count mergeBB body next
      ((codegenCond cond B).createBlock true))) (hat : At B c) :
    Lands code p T n B (AtStart mergeBB) c (condRun p cond g g' c.sys) := by
  obtain ⟨h₁, ho₁⟩ := hs.branchThen ho cond
  obtain ⟨-, e₂, -⟩ := h₁.codegenBranch ho₁ hs.count_notMem (mem_layout_createBlock _) (B.regs + 1) mergeBB
    kbody fnext
  have e₁ := (extends_codegenCond cond B).trans (extends_createBlock _ true)
  refine Lands.cond (hcov.of_extends ((extends_createBlock _ true).trans e₂)) hat fun d b hd hr _ => ?_
  refine (lands_codegenBranch h₁ ho₁ hs.count_notMem (mem_layout_createBlock _) (fun h => ?_) kbody hbody hnext
    hcov hd hr).frame e₁
  rw [e₁.loopStack]
  exact hloop h

theorem next_codegenElsifs (mergeBB : ℕ) {orElse : Option (Emitter E S)} (horElse : OrElse p T n inLoop orElse g)
    {elsifs : List (E × Emitter E S)} {runs : List (E × Run E S V W)}
    (hpairs : BranchPairs p T n inLoop elsifs runs) :
    Next p T n inLoop mergeBB (codegenElsifs mergeBB orElse elsifs) (branchesRun p g runs) := by
  induction hpairs with
  | nil =>
    cases orElse with
    | none => exact horElse
    | some f => exact ⟨horElse.1.brUnlessTerminated mergeBB, horElse.2.joins mergeBB⟩
  | @cons q q' rest runs hq hrest ih =>
    obtain ⟨cond, body⟩ := q
    obtain ⟨cond', g₁⟩ := q'
    obtain ⟨rfl, kbody, hbody⟩ := hq
    have hpairs : BranchPairs p T n inLoop ((cond, body) :: rest) ((cond, g₁) :: runs) :=
      .cons ⟨rfl, kbody, hbody⟩ hrest
    refine ⟨finishes_codegenElsifs mergeBB horElse.keeps hpairs.keeps _ rfl, ?_⟩
    intro code B P c hs ho hl hcov hat
    exact lands_branchThen hs ho hl kbody hbody ih
      (finishes_codegenElsifs mergeBB horElse.keeps (BranchPairs.keeps hrest)) hcov hat

theorem simulates_codegenIf {cond : E} {body : Emitter E S} (kbody : Keeps body)
    (hbody : Simulates p T n inLoop body g') {elsifs : List (E × Emitter E S)} {runs : List (E × Run E S V W)}
    (hpairs : BranchPairs p T n inLoop elsifs runs) {orElse : Option (Emitter E S)}
    (horElse : OrElse p T n inLoop orElse g) :
    Simulates p T n inLoop (codegenIf cond body elsifs orElse) (branchesRun p g ((cond, g') :: runs)) := by
  intro code B P c hs ho hl hcov hat
  obtain ⟨h₁, ho₁⟩ := hs.ifThen ho cond
  have hlay := (extends_createBlock ((codegenCond cond B).createBlock true) false).layout
    (mem_layout_createBlock (codegenCond cond B))
  obtain ⟨h₂, e₂, hc⟩ := h₁.codegenBranch ho₁ hs.if_notMem.1 hlay (B.regs + 1) (B.count + 1) kbody
    (finishes_codegenElsifs (B.count + 1) horElse.keeps hpairs.keeps)
  obtain ⟨-, hn₃⟩ := h₂.enterBlock hs.if_notMem.2 hc
  have hcov₂ := hcov.of_extends (extends_enterBlock _ _)
  have e₁ := (extends_codegenCond cond B).trans
    ((extends_createBlock _ true).trans (extends_createBlock _ false))
  refine Lands.cond (hcov₂.of_extends ((extends_createBlock _ true).trans
    ((extends_createBlock _ false).trans e₂))) hat fun d b hd hr _ => ?_
  have hland := lands_codegenBranch (p := p) h₁ ho₁ hs.if_notMem.1 hlay
    (fun h => by rw [e₁.loopStack]; exact hl h) kbody hbody
    (next_codegenElsifs (B.count + 1) horElse hpairs) hcov₂ hd hr
  -- the merge block is empty when it is entered
  refine (hland.mono (le_refl n) fun c' hc' => ?_).frame e₁
  exact ⟨AtStart.at (B := codegenIf cond body elsifs orElse B) hc' hn₃, open_of_nil hn₃⟩

/-! ## Loops -/

/-- The builder where the body of a loop is emitted. -/
def loopBodyStart (cond : E) (flag : Option ℕ) (B : Builder E S) : Builder E S :=
  (emitCondBr ((loopHeader B).regs + 1) (B.count + 1) (B.count + 2)
    (codegenCond cond (loopHeader B))).pushLoop B.count (B.count + 2) flag

section Loop

variable {cond : E} {body : Emitter E S} {flag : Option ℕ}

theorem covers_loopBody (hcov : Covers code (codegenLoop cond body flag B)) :
    Covers code ((body (loopBodyStart cond flag B)).popLoop.brUnlessTerminated B.count) := hcov

/-- The rounds of a loop, from its header. -/
theorem lands_loopRun (hs : Sound B P) (ho : Open B.here) (kbody : Keeps body)
    (hbody : Simulates p T n true body g) (hcov : Covers code (codegenLoop cond body flag B)) :
    ∀ k ≤ n, ∀ c : Config E S V W, AtStart B.count c →
      Lands code p T k (loopBodyStart cond flag B) (AtStart (B.count + 2)) c (loopRun p cond g k c.sys) := by
  obtain ⟨-, hn₁⟩ := hs.loopHeader ho
  obtain ⟨h₂, hn₂⟩ := hs.loopBody ho cond flag
  obtain ⟨h₃, e₃⟩ := kbody h₂ (open_of_nil hn₂)
  have hcov₄ := covers_loopBody hcov
  have hcov₃ : Covers code (body (loopBodyStart cond flag B)) :=
    Covers.popLoop (hcov₄.of_extends (extends_brUnlessTerminated _ _))
  have hcov₂ : Covers code ((codegenCond cond (loopHeader B)).emit
      (.condBr ((loopHeader B).regs + 1) (B.count + 1) (B.count + 2))) := fun b => (e₃.code b).trans (hcov₃ b)
  intro k
  induction k with
  | zero => exact fun _ c _ => ⟨c, Machine.Reach.refl _, rfl⟩
  | succ k ih =>
    intro hk c hc
    rw [loopRun]
    refine Lands.cond (hcov₂.of_extends (extends_emit _ _)) (hc.at hn₁) fun d b hd hr hslots => ?_
    have hreach := reach_condBr (p := p) hcov₂ hd hr
    rw [Nat.add_comm]
    refine Lands.of_reach hreach (fun _ _ => rfl) ?_
    cases b with
    | false => exact Lands.here (atStart_jump d _)
    | true =>
      have hround := hbody (c := d.jump (B.count + 1)) h₂ (open_of_nil hn₂) (fun _ => List.cons_ne_nil _ _) hcov₃
        ((atStart_jump d _).at (B := loopBodyStart cond flag B) hn₂)
      simp only [if_true]
      rcases hg : g d.sys with ⟨x, result⟩
      rw [show g (d.jump (B.count + 1)).sys = (x, result) from hg] at hround
      cases result with
      | normal =>
        obtain ⟨e, he, rfl, ⟨hat, hopen⟩, hsame⟩ := hround
        have hcov₅ : Covers code ((body (loopBodyStart cond flag B)).popLoop.emit (.br B.count)) := by
          rw [← brUnlessTerminated_of_open (B := (body (loopBodyStart cond flag B)).popLoop) hopen]
          exact hcov₄
        have hback := reach_br (p := p) hcov₅ hat
        exact (ih (Nat.le_of_succ_le hk) (e.jump B.count) (atStart_jump e _)).after (he.after hback) hsame
      | continued =>
        obtain ⟨e, header, exit, loops, hstack, he, rfl, hstart, hsame⟩ := hround
        cases hstack
        exact (ih (Nat.le_of_succ_le hk) e hstart).after he hsame
      | broke => exact hround
      | returned v => exact hround
      | unwound => exact hround
      | outOfFuel =>
        obtain ⟨e, he, hx⟩ := hround
        exact ⟨e, he.mono (Nat.le_of_succ_le hk), hx⟩

/-- A loop, and what follows it: after its condition ended it, and after a break. -/
theorem lands_whileRun {els : Run E S V W} (hs : Sound B P) (ho : Open B.here) (kbody : Keeps body)
    (hbody : Simulates p T n true body g) (hcov : Covers code (codegenLoop cond body flag B)) (hat : At B c)
    (hF : F.slots ≤ B.slots) (hflag : ∀ f, flag = some f → F.slots ≤ f)
    (hnormal : ∀ c', AtStart (B.count + 2) c' → SameSlots B.slots c c' →
      Lands code p T n F Q c' (els c'.sys))
    (hbroke : ∀ c', AtStart (B.count + 2) c' → (∀ f, flag = some f → c'.slots f = .bit true) →
      Lands code p T n F Q c' (c'.sys, .normal)) :
    Lands code p T n F Q c (whileRun p n cond g els c.sys) := by
  obtain ⟨h₂, hn₂⟩ := hs.loopBody ho cond flag
  obtain ⟨-, e₃⟩ := kbody h₂ (open_of_nil hn₂)
  have hcov₁ : Covers code (loopHeader B) := fun b =>
    (((extends_codegenCond cond _).trans (extends_emitCondBr _ _ _ _)).code b).trans ((e₃.code b).trans
      ((covers_loopBody hcov).of_extends (extends_brUnlessTerminated _ _) b))
  have hreach := reach_br (p := p) (B := ((B.createBlock true).createBlock true).createBlock true) hcov₁ hat
  have hloop := lands_loopRun hs ho kbody hbody hcov n (le_refl n) (c.jump B.count) (atStart_jump c _)
  refine Lands.after hreach (fun _ _ => rfl) ?_
  unfold whileRun
  rcases hg : loopRun p cond g n c.sys with ⟨x, result⟩
  rw [show loopRun p cond g n (c.jump B.count).sys = (x, result) from hg] at hloop
  cases result with
  | normal =>
    obtain ⟨e, he, rfl, hstart, hsame⟩ := hloop
    exact (hnormal e hstart hsame).after he (hsame.mono hF)
  | broke =>
    obtain ⟨e, header, exit, loops, hstack, he, rfl, hstart, hset, hsame⟩ := hloop
    cases hstack
    refine (hbroke e hstart hset).after he fun s hlt => hsame s (lt_of_lt_of_le hlt hF) fun heq => ?_
    exact absurd hlt (not_lt.mpr (hflag s heq))
  | continued => exact absurd (congrArg Prod.snd hg) (loopRun_ne_continued cond g n c.sys)
  | returned v => exact hloop
  | unwound => exact hloop
  | outOfFuel => exact hloop

/-- The test of the flag, and the else branch. -/
theorem lands_codegenLoopElse {orElse : Emitter E S} {f : ℕ} {b : Bool} (hs : Sound B P) (hn : B.here = [])
    (hl : inLoop = true → B.loopStack ≠ []) (korElse : Keeps orElse) (horElse : Simulates p T n inLoop orElse g)
    (hcov : Covers code (codegenLoopElse f orElse B)) (hat : At B c) (hslot : c.slots f = .bit b) :
    Lands code p T n B (fun c' => At (codegenLoopElse f orElse B) c' ∧ Open (codegenLoopElse f orElse B).here) c
      ((if b then skipRun else g) c.sys) := by
  have ho := open_of_nil hn
  obtain ⟨h₁, hn₁⟩ := hs.loopElse ho f
  obtain ⟨-, e₂, -⟩ := korElse.brUnlessTerminated (B.count + 1) h₁ (open_of_nil hn₁)
  obtain ⟨-, -, hn₃⟩ := hs.codegenLoopElse ho korElse f
  have hcov₂ := hcov.of_extends (extends_setInsertPoint _ _)
  have hcov₁ := hcov₂.of_extends ((extends_setInsertPoint _ _).trans e₂)
  have e₁ := extends_loopElse B f
  have hat₁ : At (((B.createBlock true).createBlock true).emitDef (.load · f)) (c.setReg B.regs (c.slots f)) :=
    At.emitDef (B := (B.createBlock true).createBlock true) hat _ rfl rfl
  have hcov₀ : Covers code (((B.createBlock true).createBlock true).emitDef (.load · f)) :=
    hcov₁.of_extends (extends_emit _ _)
  refine Lands.step (B := (B.createBlock true).createBlock true) (i := .load B.regs f) hcov₀ hat rfl
    (fun _ _ => rfl) ?_
  have hreg : (c.setReg B.regs (c.slots f)).regs B.regs = .bit b := by
    rw [← hslot]
    exact Function.update_self ..
  refine Lands.after (reach_condBr (p := p) hcov₁ hat₁ hreg) (fun _ _ => rfl) ?_
  cases b with
  | true =>
    exact Lands.here ⟨AtStart.at (B := codegenLoopElse f orElse B) (atStart_jump _ _) hn₃, open_of_nil hn₃⟩
  | false =>
    have hland := horElse.joins (B.count + 1) h₁ (open_of_nil hn₁)
      (fun h => by rw [e₁.loopStack]; exact hl h) hcov₂ ((atStart_jump (c.setReg B.regs (c.slots f)) B.count).at hn₁)
    refine (hland.mono (le_refl n) fun c' hc' => ?_).frame e₁
    exact ⟨AtStart.at (B := codegenLoopElse f orElse B) hc' hn₃, open_of_nil hn₃⟩

theorem simulates_codegenWhile (kbody : Keeps body) (hbody : Simulates p T n true body g)
    {orElse : Option (Emitter E S)} (horElse : OrElse p T n inLoop orElse g') :
    Simulates p T n inLoop (codegenWhile cond body orElse) (whileRun p n cond g g') := by
  intro code B P c hs ho hl hcov hat
  cases orElse with
  | none =>
    cases (horElse : g' = skipRun)
    obtain ⟨-, -, hn₁⟩ := hs.codegenLoop ho cond kbody none
    have hexit : ∀ c' : Config E S V W, AtStart (B.count + 2) c' →
        Lands code p T n B (fun c' => At (codegenWhile cond body none B) c' ∧
          Open (codegenWhile cond body none B).here) c' (c'.sys, .normal) := fun c' hc' =>
      Lands.here ⟨hc'.at (B := codegenLoop cond body none B) hn₁, open_of_nil hn₁⟩
    exact lands_whileRun hs ho kbody hbody hcov hat (le_refl _) (fun f hf => by cases hf)
      (fun c' hc' _ => hexit c' hc') fun c' hc' _ => hexit c' hc'
  | some orElse =>
    obtain ⟨korElse, horElse⟩ := horElse
    obtain ⟨h₁, e₁, ho₁⟩ := keeps_clearFlag B hs ho
    obtain ⟨h₂, e₂, hn₂⟩ := h₁.codegenLoop ho₁ cond kbody (some B.slots)
    obtain ⟨-, e₃, -⟩ := h₂.codegenLoopElse (open_of_nil hn₂) korElse B.slots
    have hcov₂ := hcov.of_extends e₃
    have hcov₁ := hcov₂.of_extends e₂
    have e₁₂ := e₁.trans e₂
    -- at the exit the flag tells a break from a condition that failed
    have hexit : ∀ (c' : Config E S V W) (b : Bool), AtStart (B.count + 2) c' → c'.slots B.slots = .bit b →
        Lands code p T n B (fun c' => At (codegenWhile cond body (some orElse) B) c' ∧
          Open (codegenWhile cond body (some orElse) B).here) c' ((if b then skipRun else g') c'.sys) := by
      intro c' b hc' hslot
      have hat' := hc'.at (B := codegenLoop cond body (some B.slots)
        (B.createEntryBlockAlloca.emit (.storeBit B.slots false))) hn₂
      exact (lands_codegenLoopElse (f := B.slots) h₂ hn₂ (fun h => by rw [e₁₂.loopStack]; exact hl h) korElse
        horElse hcov hat' hslot).frame e₁₂
    have hat₁ : At (B.createEntryBlockAlloca.emit (.storeBit B.slots false)) (c.setSlot B.slots (.bit false)) :=
      At.emit (B := B.createEntryBlockAlloca) hat _ rfl rfl
    refine Lands.step (B := B.createEntryBlockAlloca) (i := .storeBit B.slots false) hcov₁ hat rfl
      (fun s hlt => Function.update_of_ne (ne_of_lt hlt) ..) ?_
    refine lands_whileRun (c := c.setSlot B.slots (.bit false)) h₁ ho₁ kbody hbody hcov₂ hat₁ e₁.slots
      (fun f hf => by cases hf; exact le_refl _) (fun c' hc' hsame => ?_) fun c' hc' hset => ?_
    · refine hexit c' false hc' ?_
      rw [hsame B.slots (Nat.lt_succ_self _)]
      exact Function.update_self ..
    · exact hexit c' true hc' (hset B.slots rfl)

end Loop

/-! ## Matches -/

section Match

variable {slot bodyBB hitBB missBB : ℕ} {pattern guard : Option E} {v : V} {yes no : Run E S V W}
  {body : Emitter E S}

/-- A pattern test, the subject being in its slot. -/
theorem lands_codegenTest (hcov : Covers code (codegenTest slot pattern hitBB missBB B)) (hat : At B c)
    (hslot : c.slots slot = .val v)
    (hyes : ∀ c', AtStart hitBB c' → c'.slots = c.slots → Lands code p T n F Q c' (yes c'.sys))
    (hno : ∀ c', AtStart missBB c' → c'.slots = c.slots → Lands code p T n F Q c' (no c'.sys)) :
    Lands code p T n F Q c (patternRun p v pattern yes no c.sys) := by
  cases pattern with
  | none => exact (hyes (c.jump hitBB) (atStart_jump c _) rfl).after (reach_br hcov hat) fun _ _ => rfl
  | some e =>
    set B₁ := B.emitDef (.load · slot) with hB₁
    have hcov₃ : Covers code ((B₁.emitDef (.eval · e)).emitDef (.patternCmp · B.regs (B.regs + 1))) :=
      hcov.of_extends (extends_emit _ _)
    have hcov₂ := hcov₃.of_extends (extends_emitDef _ _)
    have hcov₁ : Covers code B₁ := hcov₂.of_extends (extends_emitDef _ _)
    refine Lands.step (B := B) (i := .load B.regs slot) hcov₁ hat rfl (fun _ _ => rfl) ?_
    refine Lands.value (c := c.setReg B.regs (c.slots slot)) hcov₂ (hat.emitDef _ rfl rfl)
      fun d u hd hu hslots hregs => ?_
    have hsubj : d.regs B.regs = .val v := by
      rw [hregs B.regs (Nat.lt_succ_self _).ne, ← hslot]
      exact Function.update_self ..
    have hact : act p (.patternCmp (B.regs + 2) B.regs (B.regs + 1)) d
        = .running (d.setReg (B.regs + 2) (.bit (p.same v u))) := by
      simp only [act, hsubj, show d.regs (B.regs + 1) = .val u from hu]
    refine Lands.step (B := B₁.emitDef (.eval · e)) (i := .patternCmp (B.regs + 2) B.regs (B.regs + 1)) hcov₃ hd
      hact (fun _ _ => rfl) ?_
    have hreach := reach_condBr (p := p) (c := d.setReg (B.regs + 2) (.bit (p.same v u))) (b := p.same v u)
      hcov (hd.emitDef _ rfl rfl) (Function.update_self ..)
    refine Lands.after hreach (fun _ _ => rfl) ?_
    cases hsame : p.same v u with
    | true => exact hyes ((d.setReg (B.regs + 2) (.bit true)).jump hitBB) (atStart_jump _ _) hslots
    | false => exact hno ((d.setReg (B.regs + 2) (.bit false)).jump missBB) (atStart_jump _ _) hslots

/-- The check of a case: its pattern, and then its guard. -/
theorem lands_codegenCheck (hs : Sound B P) (ho : Open B.here)
    (hcov : Covers code (codegenCheck slot pattern guard bodyBB missBB B)) (hat : At B c)
    (hslot : c.slots slot = .val v)
    (hyes : ∀ c', AtStart bodyBB c' → c'.slots = c.slots → Lands code p T n F Q c' (yes c'.sys))
    (hno : ∀ c', AtStart missBB c' → c'.slots = c.slots → Lands code p T n F Q c' (no c'.sys)) :
    Lands code p T n F Q c (patternRun p v pattern (guardRun p guard yes no) no c.sys) := by
  cases guard with
  | none => exact lands_codegenTest hcov hat hslot hyes hno
  | some e =>
    obtain ⟨-, hn₁⟩ := hs.guardBlock ho slot pattern missBB
    have hcov₂ := hcov.of_extends (extends_emit _ _)
    have hcov₁ := hcov₂.of_extends ((extends_setInsertPoint _ B.count).trans (extends_codegenCond e _))
    refine lands_codegenTest (B := B.createBlock true) hcov₁ hat hslot (fun d hd hslots => ?_) hno
    refine Lands.cond hcov₂ (hd.at hn₁) fun d' b hd' hr hslots' => ?_
    have hall : d'.slots = c.slots := hslots'.trans hslots
    refine Lands.after (reach_condBr hcov hd' hr) (fun _ _ => rfl) ?_
    cases b with
    | true => exact hyes (d'.jump bodyBB) (atStart_jump _ _) hall
    | false => exact hno (d'.jump missBB) (atStart_jump _ _) hall

/-- A case: its check, and its body. -/
theorem lands_codegenCase (hs : Sound B (insert bodyBB P)) (ho : Open B.here) (hP : bodyBB ∉ P)
    (hlay : bodyBB ∈ B.layout) (he : Extends F B) (hl : inLoop = true → F.loopStack ≠ []) (kbody : Keeps body)
    (hbody : Simulates p T n inLoop body g)
    (hcov : Covers code (codegenCase slot bodyBB missBB mergeBB pattern guard body B)) (hat : At B c)
    (hslot : c.slots slot = .val v)
    (hno : ∀ c', AtStart missBB c' → c'.slots = c.slots →
      Lands code p T n F (AtStart mergeBB) c' (no c'.sys)) :
    Lands code p T n F (AtStart mergeBB) c (patternRun p v pattern (guardRun p guard g no) no c.sys) := by
  obtain ⟨-, e₁, -⟩ := finishes_codegenCheck slot pattern guard bodyBB missBB hs ho
  obtain ⟨h₂, hn₂⟩ := hs.caseBody ho hP hlay slot missBB pattern guard
  obtain ⟨-, e₃, -⟩ := kbody.brUnlessTerminated mergeBB h₂ (open_of_nil hn₂)
  have e₂ := he.trans (e₁.trans (extends_setInsertPoint _ bodyBB))
  refine lands_codegenCheck hs ho (hcov.of_extends ((extends_setInsertPoint _ bodyBB).trans e₃)) hat hslot
    (fun d hd _ => ?_) hno
  exact (hbody.joins mergeBB h₂ (open_of_nil hn₂) (fun h => by rw [e₂.loopStack]; exact hl h) hcov
    (hd.at hn₂)).frame e₂

/-- An emitter and a run for each case, under the same pattern and guard. -/
def CasePairs (p : Primitives E S V W) (T : Target) (n : ℕ) (inLoop : Bool) :
    List (Option E × Option E × Emitter E S) → List (Option E × Option E × Run E S V W) → Prop :=
  List.Forall₂ fun q q' =>
    q.1 = q'.1 ∧ q.2.1 = q'.2.1 ∧ Keeps q.2.2 ∧ Simulates p T n inLoop q.2.2 q'.2.2

theorem CasePairs.keeps {cases : List (Option E × Option E × Emitter E S)}
    {runs : List (Option E × Option E × Run E S V W)} (h : CasePairs p T n inLoop cases runs) :
    ∀ q ∈ cases, Keeps q.2.2 := by
  induction h with
  | nil => exact fun _ hq => absurd hq List.not_mem_nil
  | cons hpair _ ih =>
    intro q hq
    rcases List.mem_cons.mp hq with rfl | hq
    · exact hpair.2.2.1
    · exact ih q hq

theorem lands_codegenCases (hl : inLoop = true → F.loopStack ≠ [])
    {cases : List (Option E × Option E × Emitter E S)} {runs : List (Option E × Option E × Run E S V W)}
    (hpairs : CasePairs p T n inLoop cases runs) (hne : cases ≠ []) :
    ∀ {B : Builder E S} {first : ℕ} {c : Config E S V W}, Bodies B P first cases.length → Open B.here →
      Extends F B → Covers code (codegenCases slot mergeBB cases first B) → At B c → c.slots slot = .val v →
      Lands code p T n F (AtStart mergeBB) c (casesRun p v runs c.sys) := by
  induction hpairs with
  | nil => exact absurd rfl hne
  | @cons q q' rest runs hq hrest ih =>
    obtain ⟨pattern, guard, body⟩ := q
    obtain ⟨pattern', guard', g₁⟩ := q'
    obtain ⟨rfl, rfl, kbody, hbody⟩ := hq
    intro B first c hB ho he hcov hat hslot
    rw [codegenCases] at hcov
    cases rest with
    | nil =>
      cases hrest
      obtain ⟨h₁, hP, hlay⟩ := hB.lastCase
      exact lands_codegenCase h₁ ho hP hlay he hl kbody hbody hcov hat hslot fun d hd _ => Lands.here hd
    | cons q₂ rest =>
      obtain ⟨h₁, hP, -⟩ := hB.missBlock
      obtain ⟨h₂, hn₂, e₂⟩ := hB.nextCase ho slot mergeBB pattern guard kbody
      obtain ⟨-, e₃, -⟩ := Bodies.codegenCases slot mergeBB (CasePairs.keeps hrest) (List.cons_ne_nil _ _) h₂
        (open_of_nil hn₂)
      have e₀ := extends_createBlock B true
      refine lands_codegenCase (B := B.createBlock true) h₁ ho hP (e₀.layout hB.first_placed) (he.trans e₀) hl
        kbody hbody (Covers.of_extends hcov ((extends_setInsertPoint _ B.count).trans e₃)) hat hslot ?_
      intro d hd hslots
      exact ih (List.cons_ne_nil _ _) h₂ (open_of_nil hn₂) (he.trans e₂) hcov (hd.at hn₂)
        (by rw [hslots]; exact hslot)

theorem createBlocks_insertPoint (k : ℕ) : ∀ B : Builder E S, (createBlocks k B).insertPoint = B.insertPoint := by
  induction k with
  | zero => exact fun _ => rfl
  | succ k ih =>
    intro B
    rw [createBlocks, ih]
    rfl

theorem matchHead_insertPoint (subject : E) (k : ℕ) (B : Builder E S) :
    (matchHead subject k B).insertPoint = B.insertPoint := by
  rw [matchHead, createBlocks_insertPoint]
  rfl

theorem simulates_codegenMatch {subject : E} {cases : List (Option E × Option E × Emitter E S)}
    {runs : List (Option E × Option E × Run E S V W)} (hpairs : CasePairs p T n inLoop cases runs)
    (hne : cases ≠ []) :
    Simulates p T n inLoop (codegenMatch subject cases) (valueRun p subject fun v => casesRun p v runs) := by
  intro code B P c hs ho hl hcov hat
  obtain ⟨h₁, ho₁, e₁⟩ := hs.matchHead ho subject cases.length
  obtain ⟨h₂, e₂, hc⟩ := Bodies.codegenCases B.slots B.count hpairs.keeps hne h₁ ho₁
  obtain ⟨-, hn₃⟩ := h₂.enterBlock hs.count_notMem hc
  rw [codegenMatch_eq subject hne] at hcov ⊢
  have hcov₂ := hcov.of_extends (extends_enterBlock _ _)
  have hcov₁ : Covers code ((B.emitDef (.eval · subject)).createAlloca.emit (.storeValue B.slots B.regs)) :=
    hcov₂.of_extends (((extends_createBlock _ false).trans (extends_createBlocks _ _)).trans e₂)
  have hcov₀ : Covers code (B.emitDef (.eval · subject)).createAlloca := hcov₁.of_extends (extends_emit _ _)
  refine Lands.value (hcov₀.of_extends (extends_createAlloca _)) hat fun d v hd hv _ _ => ?_
  -- the subject is spilled to a slot of its own
  refine Lands.step (B := B.emitDef (.eval · subject)) (i := .alloca B.slots) hcov₀ hd rfl
    (fun s hlt => Function.update_of_ne (ne_of_lt hlt) ..) ?_
  have hd₁ : At (B.emitDef (.eval · subject)).createAlloca (d.setSlot B.slots .undef) :=
    At.emit (B := B.emitDef (.eval · subject)) hd (.alloca B.slots) rfl rfl
  refine Lands.step hcov₁ hd₁ rfl (fun s hlt => Function.update_of_ne (ne_of_lt hlt) ..) ?_
  have hd₂ : At ((B.emitDef (.eval · subject)).createAlloca.emit (.storeValue B.slots B.regs))
      ((d.setSlot B.slots .undef).setSlot B.slots (d.regs B.regs)) := hd₁.emit _ rfl rfl
  have hd₃ : At (matchHead subject cases.length B)
      ((d.setSlot B.slots .undef).setSlot B.slots (d.regs B.regs)) := by
    refine ⟨hd₂.1.trans (matchHead_insertPoint subject _ B).symm, hd₂.2.trans ?_⟩
    rw [matchHead, createBlocks_here]
    rfl
  have hslot : ((d.setSlot B.slots .undef).setSlot B.slots (d.regs B.regs)).slots B.slots = .val v := by
    rw [← hv]
    exact Function.update_self ..
  have hland := lands_codegenCases (F := B) hl hpairs hne h₁ ho₁ e₁ hcov₂ hd₃ hslot
  refine hland.mono (le_refl n) fun c' hc' => ?_
  exact ⟨hc'.at (B := enterBlock B.count _) hn₃, open_of_nil hn₃⟩

end Match

/-! ## Statements -/

section Statements

variable (hgen : T.genContext = false)

theorem orElse_codegenStmtList {stmts : List (Stmt E S)}
    (h : Simulates p T n inLoop (codegenStmtList T stmts) (execList p n stmts)) :
    OrElse p T n inLoop (if stmts.isEmpty then none else some (codegenStmtList T stmts)) (execList p n stmts) := by
  cases stmts with
  | nil => exact rfl
  | cons s stmts => exact ⟨keeps_codegenStmtList T _, h⟩

include hgen

mutual

theorem simulates_codegenStmt : ∀ (s : Stmt E S) (inLoop : Bool), s.wellFormed inLoop = true →
    Simulates p T n inLoop (codegenStmt T s) (exec p n s)
  | .simple s, _, _ => simulates_simple s
  | .ifStmt cond thenBranch elsifs elseBranch, inLoop, h => by
    simp only [Stmt.wellFormed, Bool.and_eq_true] at h
    exact simulates_codegenIf (keeps_codegenStmtList T thenBranch)
      (simulates_codegenStmtList thenBranch inLoop h.1.1) (pairs_codegenElsifList elsifs inLoop h.1.2)
      (orElse_codegenStmtList (simulates_codegenStmtList elseBranch inLoop h.2))
  | .whileStmt cond body elseBranch, inLoop, h => by
    simp only [Stmt.wellFormed, Bool.and_eq_true] at h
    exact simulates_codegenWhile (keeps_codegenStmtList T body) (simulates_codegenStmtList body true h.1)
      (orElse_codegenStmtList (simulates_codegenStmtList elseBranch inLoop h.2))
  | .matchStmt subject cases, inLoop, h => by
    simp only [Stmt.wellFormed, Bool.and_eq_true] at h
    have hne : codegenCaseList T cases ≠ [] := by
      cases cases with
      | nil => exact absurd h.1 (by simp)
      | cons q cases => exact List.cons_ne_nil _ _
    exact simulates_codegenMatch (pairs_codegenCaseList cases inLoop h.2) hne
  | .breakStmt, inLoop, h => by
    cases (h : inLoop = true)
    exact simulates_codegenBreak
  | .continueStmt, inLoop, h => by
    cases (h : inLoop = true)
    exact simulates_codegenContinue
  | .returnStmt value, _, _ => simulates_codegenReturn hgen value

theorem simulates_codegenStmtList : ∀ (stmts : List (Stmt E S)) (inLoop : Bool),
    wellFormedList inLoop stmts = true → Simulates p T n inLoop (codegenStmtList T stmts) (execList p n stmts)
  | [], _, _ => simulates_id
  | s :: stmts, inLoop, h => by
    simp only [wellFormedList, Bool.and_eq_true] at h
    exact simulates_codegenSeq (keeps_codegenStmt T s) (keeps_codegenStmtList T stmts)
      (simulates_codegenStmt s inLoop h.1) (simulates_codegenStmtList stmts inLoop h.2)

theorem pairs_codegenElsifList : ∀ (elsifs : List (E × List (Stmt E S))) (inLoop : Bool),
    wellFormedElsifs inLoop elsifs = true →
    BranchPairs p T n inLoop (codegenElsifList T elsifs) (execElsifs p n elsifs)
  | [], _, _ => .nil
  | (_, body) :: elsifs, inLoop, h => by
    simp only [wellFormedElsifs, Bool.and_eq_true] at h
    exact .cons ⟨rfl, keeps_codegenStmtList T body, simulates_codegenStmtList body inLoop h.1⟩
      (pairs_codegenElsifList elsifs inLoop h.2)

theorem pairs_codegenCaseList : ∀ (cases : List (Option E × Option E × List (Stmt E S))) (inLoop : Bool),
    wellFormedCases inLoop cases = true →
    CasePairs p T n inLoop (codegenCaseList T cases) (execCases p n cases)
  | [], _, _ => .nil
  | (_, _, body) :: cases, inLoop, h => by
    simp only [wellFormedCases, Bool.and_eq_true] at h
    exact .cons ⟨rfl, rfl, keeps_codegenStmtList T body, simulates_codegenStmtList body inLoop h.1⟩
      (pairs_codegenCaseList cases inLoop h.2)

end

end Statements

end Rules

/-! ## Functions -/

section Functions

variable {p} {T : Target} {n : ℕ} {F : Builder E S} {w : W}

/-- How a function ends when its body ends so.  A body whose jumps stand in loops does not end otherwise. -/
def Result.ending : Result V → Option (Ending V)
  | .normal => some .fellThrough
  | .returned v => some (.returned v)
  | .unwound => some .unwound
  | .broke | .continued | .outOfFuel => none

/-- The structured semantics of a body from the world `w`: its effects, and how it ends, if the fuel lasts. -/
def runBody (p : Primitives E S V W) (body : List (Stmt E S)) (w : W) (n : ℕ) :
    List (E ⊕ S) × Option (Ending V × W) :=
  let r := execList p n body (w, [])
  (r.1.2, r.2.ending.map fun how => (how, r.1.1))

/-- What the ending of a body becomes in the function: `main` returns an i32. -/
def Target.ends (T : Target) (p : Primitives E S V W) : Ending V × W → Ending V × W
  | (.returned v, w) => (.returned (T.result p v), w)
  | r => r

/-- The start of a function, whatever the registers and the stack hold. -/
def start (w : W) (regs slots : ℕ → Cell V) : State E S V W :=
  .running { block := 0, index := 0, regs := regs, slots := slots, sys := (w, []) }

/-- The implicit return, reached when the body falls through. -/
theorem reach_implicitReturn (ho : Open B.here) (hcov : Covers code (implicitReturn T B)) (hat : At B c) :
    (machine p code).Reach 0 (.running c) (.ended .fellThrough c.sys) := by
  rw [implicitReturn, terminated_eq_false ho] at hcov
  have hat₁ : At (B.emit (.call "__visuall_traceback_pop")) c.next := hat.emit _ rfl rfl
  by_cases hmain : T.isMain = true
  · simp only [hmain, if_true] at hcov
    have hcov₁ := hcov.of_extends (extends_emit _ _)
    have hat₂ : At ((B.emit (.call "__visuall_traceback_pop")).emit (.call "__visuall_gc_shutdown")) c.next.next :=
      hat₁.emit _ rfl rfl
    have hret : (machine p code).Reach 1 (.running c.next.next) (.ended .fellThrough c.sys) :=
      Machine.Reach.single (step_emit p hcov hat₂)
    exact (Machine.Reach.head (step_emit p (hcov₁.of_extends (extends_emit _ _)) hat)
      (Machine.Reach.head (step_emit p hcov₁ hat₁) hret)).mono (Nat.zero_le 1)
  · simp only [hmain] at hcov
    have hret : (machine p code).Reach 1 (.running c.next) (.ended .fellThrough c.sys) :=
      Machine.Reach.single (step_emit p hcov hat₁)
    exact (Machine.Reach.head (step_emit p (hcov.of_extends (extends_emit _ _)) hat) hret).mono (Nat.zero_le 1)

variable (stack : List (ℕ × ℕ)) (allocas : List (Option ℕ)) (regs slots : ℕ → Cell V)

/-- The emitted function gets as far as its body. -/
theorem matches_runBody (hgen : T.genContext = false) {body : List (Stmt E S)}
    (hwf : wellFormedList false body = true) (w : W) (n : ℕ) :
    (machine p (codegenFuncDef T body stack allocas).code).Matches (start w regs slots) n
      ((runBody p body w n).1, (runBody p body w n).2.map (T.ends p)) := by
  obtain ⟨h₀, ho⟩ := sound_entry (E := E) (S := S) stack allocas
  obtain ⟨h₁, e₁⟩ := keeps_codegenStmtList T body h₀ ho
  obtain ⟨-, e₂, -⟩ := finishes_implicitReturn T h₁
  have hcov : Covers (codegenFuncDef T body stack allocas).code (codegenFuncDef T body stack allocas) :=
    fun _ => List.prefix_rfl
  have hcov₁ := hcov.of_extends e₂
  set c : Config E S V W := { block := 0, index := 0, regs := regs, slots := slots, sys := (w, []) } with hc
  have hpush : (machine p (codegenFuncDef T body stack allocas).code).Reach 0 (.running c) (.running c.next) :=
    (Machine.Reach.single (step_emit p (hcov₁.of_extends e₁) ⟨rfl, rfl⟩)).mono (Nat.zero_le 1)
  have hland := (simulates_codegenStmtList (p := p) (n := n) hgen body false hwf h₀ ho (fun h => by cases h)
    hcov₁ (c := c.next) ⟨rfl, rfl⟩).after hpush fun _ _ => rfl
  have hjump := noJump_execList (p := p) n body hwf (w, [])
  unfold runBody start
  rcases hr : execList p n body (w, []) with ⟨⟨w', t⟩, result⟩
  rw [show execList p n body c.next.sys = ((w', t), result) from hr] at hland
  rw [hr] at hjump
  cases result with
  | normal =>
    obtain ⟨d, hd, hx, ⟨hat, hopen⟩, -⟩ := hland
    have hret := reach_implicitReturn (p := p) hopen hcov hat
    rw [hx] at hret
    exact ⟨_, hd.after hret, rfl, rfl⟩
  | returned v => exact ⟨_, hland, rfl, rfl⟩
  | unwound => exact ⟨_, hland, rfl, rfl⟩
  | outOfFuel =>
    obtain ⟨d, hd, hx⟩ := hland
    exact ⟨.running d, hd, rfl, congrArg Prod.snd hx⟩
  | broke => exact absurd rfl hjump.1
  | continued => exact absurd rfl hjump.2

/-- Every evaluation counts, and has the number evaluated less the count as its value. -/
def countdown : Primitives ℤ Unit ℤ ℕ where
  eval e w := (w + 1, some (e - w))
  perform _ w := (w, true)
  truthy v := v != 0
  same v u := v == u
  truncate v := v.bmod (2 ^ 32)

/-- For this target every function would end exactly as its body does. -/
def EndsAsBody (p : Primitives E S V W) (T : Target) : Prop :=
  ∀ body : List (Stmt E S), wellFormedList false body = true → ∀ stack allocas regs slots w r t,
    (machine p (codegenFuncDef T body stack allocas).code).Ends (start w regs slots) r t ↔
      Machine.FuelEnds (runBody p body w) r t

end Functions

end Visuall.Codegen
