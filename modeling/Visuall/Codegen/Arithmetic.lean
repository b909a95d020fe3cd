import Visuall.Lib.Ssa

/-!
# Integer arithmetic

The integer operations of `codegenBinaryExpr` and `codegenUnaryExpr`, and the loop of `emitIntPow`.

Of LLVM the operations without flags are modelled: sums and products wrap, and a division by zero or out of range and a
shift by 64 bits or more have no defined result.

* `emitIntPow`, `codegenExpr` — what is emitted;
* `intPow_means`, `powers_right` — the loop computes powers, whatever code stands around it;
* `defined_iff` — exactly when no instruction of an expression is undefined.
-/

namespace Visuall.Codegen.Arithmetic

open Ssa

/-! ## Instructions -/

/-- The values of type `i64` and `i1`. -/
inductive Val
  | i64 (x : Int64)
  | i1 (b : Bool)
  deriving DecidableEq

/-- The instructions; `load` reads a variable. -/
inductive Op
  | load (x : ℕ)
  | add
  | sub
  | mul
  | sdiv
  | srem
  | shl
  | ashr
  | and
  | or
  | xor
  | icmpSle
  deriving DecidableEq

/-- The operands for which a division is defined. -/
def Divides (a b : Int64) : Prop := b ≠ 0 ∧ ¬ (a = Int64.minValue ∧ b = -1)

/-- The amounts for which a shift is defined. -/
def Shifts (b : Int64) : Prop := 0 ≤ b.toInt ∧ b.toInt < 64

instance (a b : Int64) : Decidable (Divides a b) := inferInstanceAs (Decidable (_ ∧ _))

instance (b : Int64) : Decidable (Shifts b) := inferInstanceAs (Decidable (_ ∧ _))

/-- What an instruction computes; `none` is undefined behaviour or poison. -/
def Op.compute : Op → Int64 → Int64 → Option Val
  | .add, a, b => some (.i64 (a + b))
  | .sub, a, b => some (.i64 (a - b))
  | .mul, a, b => some (.i64 (a * b))
  | .sdiv, a, b => if Divides a b then some (.i64 (a / b)) else none
  | .srem, a, b => if Divides a b then some (.i64 (a % b)) else none
  | .shl, a, b => if Shifts b then some (.i64 (a <<< b)) else none
  | .ashr, a, b => if Shifts b then some (.i64 (a >>> b)) else none
  | .and, a, b => some (.i64 (a &&& b))
  | .or, a, b => some (.i64 (a ||| b))
  | .xor, a, b => some (.i64 (a ^^^ b))
  | .icmpSle, a, b => some (.i1 (a ≤ b))
  | .load _, _, _ => none

/-- The variables, which the code only reads. -/
abbrev Env := ℕ → Int64

def semantics : Semantics Val Op Env where
  apply
    | .load x, [], env => some (.i64 (env x), env)
    | op, [.i64 a, .i64 b], env => (op.compute a b).map fun v => (v, env)
    | _, _, _ => none
  truth
    | .i1 b => some b
    | .i64 _ => none

/-! ## The loop of powers -/

def one : Operand Val := .const (.i64 1)

def zero : Operand Val := .const (.i64 0)

/-- `emitIntPow`. -/
def emitIntPow (base exp : Operand Val) : Ssa.Emitter Val Op := fun B =>
  let preheader := B.insertBlock
  let loopBB := B.count
  let B := B.createBlock
  let doneBB := B.count
  let B := B.createBlock
  let B := B.terminate (.br loopBB)
  let B := B.setInsertPoint loopBB
  let phiResult := B.regs
  let B := B.createPhi
  let phiCount := B.regs
  let B := B.createPhi
  let B := B.addIncoming loopBB phiResult one preheader
  let B := B.addIncoming loopBB phiCount exp preheader
  let isDone := B.regs
  let B := B.instr .icmpSle [.reg phiCount, zero]
  let bodyBB := B.count
  let B := B.createBlock
  let B := B.terminate (.condBr (.reg isDone) doneBB bodyBB)
  let B := B.setInsertPoint bodyBB
  let newResult := B.regs
  let B := B.instr .mul [.reg phiResult, base]
  let newCount := B.regs
  let B := B.instr .sub [.reg phiCount, one]
  let B := B.terminate (.br loopBB)
  let B := B.addIncoming loopBB phiResult (.reg newResult) bodyBB
  let B := B.addIncoming loopBB phiCount (.reg newCount) bodyBB
  let B := B.setInsertPoint doneBB
  (.reg phiResult, B)

section Pow

variable {B : Ssa.Builder Val Op} (base exp : Operand Val)

theorem emitIntPow_count (B : Ssa.Builder Val Op) : (emitIntPow base exp B).2.count = B.count + 3 := rfl

theorem emitIntPow_regs (B : Ssa.Builder Val Op) : (emitIntPow base exp B).2.regs = B.regs + 5 := rfl

theorem emitIntPow_insertBlock (B : Ssa.Builder Val Op) : (emitIntPow base exp B).2.insertBlock = B.count + 1 := rfl

theorem emitIntPow_preheader (hB : B.Sound) :
    (emitIntPow base exp B).2.blocks B.insertBlock = { B.here with terminator := some (.br B.count) } := by
  have := hB.inserted
  simp (disch := omega) [emitIntPow, Ssa.Builder.createBlock, Ssa.Builder.terminate, Ssa.Builder.setInsertPoint,
    Ssa.Builder.createPhi, Ssa.Builder.addIncoming, Ssa.Builder.instr, Ssa.Builder.here, Function.update_of_ne]

/-- The header of the loop, with the blocks that control comes from. -/
def powLoop (preheader doneBB bodyBB r : ℕ) : Block Val Op where
  phis := [⟨r, [(preheader, one), (bodyBB, .reg (r + 3))]⟩, ⟨r + 1, [(preheader, exp), (bodyBB, .reg (r + 4))]⟩]
  body := [⟨r + 2, .icmpSle, [.reg (r + 1), zero]⟩]
  terminator := some (.condBr (.reg (r + 2)) doneBB bodyBB)

def powBody (loopBB r : ℕ) : Block Val Op where
  body := [⟨r + 3, .mul, [.reg r, base]⟩, ⟨r + 4, .sub, [.reg (r + 1), one]⟩]
  terminator := some (.br loopBB)

theorem emitIntPow_loop (hB : B.Sound) :
    (emitIntPow base exp B).2.blocks B.count = powLoop exp B.insertBlock (B.count + 1) (B.count + 2) B.regs := by
  have := hB.inserted
  simp (disch := omega) [emitIntPow, Ssa.Builder.createBlock, Ssa.Builder.terminate, Ssa.Builder.setInsertPoint,
    Ssa.Builder.createPhi, Ssa.Builder.addIncoming, Ssa.Builder.instr, Ssa.Builder.here, Function.update_of_ne, hB.fresh, powLoop]

theorem emitIntPow_body (hB : B.Sound) : (emitIntPow base exp B).2.blocks (B.count + 2) = powBody base B.count B.regs := by
  have := hB.inserted
  simp (disch := omega) [emitIntPow, Ssa.Builder.createBlock, Ssa.Builder.terminate, Ssa.Builder.setInsertPoint,
    Ssa.Builder.createPhi, Ssa.Builder.addIncoming, Ssa.Builder.instr, Ssa.Builder.here, Function.update_of_ne, hB.fresh, powBody]

theorem emitIntPow_other (b : ℕ) (hpre : b ≠ B.insertBlock) (hloop : b ≠ B.count)
    (hbody : b ≠ B.count + 2) : (emitIntPow base exp B).2.blocks b = B.blocks b := by
  simp (disch := omega) [emitIntPow, Ssa.Builder.createBlock, Ssa.Builder.terminate, Ssa.Builder.setInsertPoint,
    Ssa.Builder.createPhi, Ssa.Builder.addIncoming, Ssa.Builder.instr, Ssa.Builder.here, Function.update_of_ne]

theorem emitIntPow_done (hB : B.Sound) : (emitIntPow base exp B).2.here = {} := by
  have hinserted := hB.inserted
  have hdone : (emitIntPow base exp B).2.blocks (B.count + 1) = B.blocks (B.count + 1) :=
    emitIntPow_other base exp _ (by omega) (by omega) (by omega)
  exact hdone.trans (hB.fresh _ (Nat.le_succ _))

/-- Where control goes from the blocks. -/
theorem emitIntPow_targets (hB : B.Sound) {k : ℕ} {t : Terminator Val}
    (ht : ((emitIntPow base exp B).2.blocks k).terminator = some t) :
    (k = B.insertBlock ∨ k = B.count + 2) ∧ t.targets = [B.count] ∨
      k = B.count ∧ t.targets = [B.count + 1, B.count + 2] ∨ (B.blocks k).terminator = some t := by
  by_cases hpre : k = B.insertBlock
  · rw [hpre, emitIntPow_preheader base exp hB] at ht
    cases ht
    exact .inl ⟨.inl hpre, rfl⟩
  by_cases hloop : k = B.count
  · rw [hloop, emitIntPow_loop base exp hB] at ht
    cases ht
    exact .inr (.inl ⟨hloop, rfl⟩)
  by_cases hbody : k = B.count + 2
  · rw [hbody, emitIntPow_body base exp hB] at ht
    cases ht
    exact .inl ⟨.inr hbody, rfl⟩
  · rw [emitIntPow_other base exp k hpre hloop hbody] at ht
    exact .inr (.inr ht)

theorem emitIntPow_builds : Builds [base, exp] (emitIntPow base exp) := by
  intro B hB _
  have hinserted := hB.inserted
  refine ⟨⟨?_, ?_, fun b hb => ?_, fun b t ht k hk => ?_⟩, ⟨?_, ?_, fun b hb hne => ?_, ?_, ?_, .inr ⟨?_, ?_⟩⟩, ?_⟩
  · show B.count + 1 < B.count + 3
    omega
  · rw [emitIntPow_done base exp hB]
  · rw [emitIntPow_count] at hb
    rw [emitIntPow_other base exp _ (by omega) (by omega) (by omega)]
    exact hB.fresh b (by omega)
  · rw [emitIntPow_count]
    rcases emitIntPow_targets base exp hB ht with ⟨_, htargets⟩ | ⟨_, htargets⟩ | ht
    · rw [htargets, List.mem_singleton] at hk
      omega
    · rw [htargets, List.mem_cons, List.mem_singleton] at hk
      omega
    · have := hB.targets b t ht k hk
      omega
  · show B.count ≤ B.count + 3
    omega
  · show B.regs ≤ B.regs + 5
    omega
  · exact emitIntPow_other base exp _ hne (by omega) (by omega)
  · rw [emitIntPow_preheader base exp hB]
  · rw [emitIntPow_preheader base exp hB]
  · exact Nat.le_succ _
  · rw [emitIntPow_preheader base exp hB]
    rfl
  · show B.regs < B.regs + 5
    omega

/-! ### Its runs -/

variable {base exp} {F : ℕ → Block Val Op} {b : Int64}

/-- An instruction with two operands is executed. -/
theorem runs_instr {c : Ssa.Config Val Env} {op : Op} {x y : Operand Val} {v w : Int64} {z : Val} {result : ℕ}
    (hnext : (F c.block).body[c.index]? = some ⟨result, op, [x, y]⟩) (hx : x.value c.regs = some (.i64 v))
    (hy : y.value c.regs = some (.i64 w)) (hz : semantics.apply op [.i64 v, .i64 w] c.state = some (z, c.state)) :
    Runs semantics F c { c with index := c.index + 1, regs := Function.update c.regs result (some z) } := by
  have hargs : [x, y].mapM (Operand.value c.regs) = some [.i64 v, .i64 w] :=
    Effect.mapM_some_iff.mpr (.cons hx (.cons hy .nil))
  refine Runs.single ?_
  rw [step_instr hnext]
  dsimp only
  rw [hargs, Option.bind_some, hz]
  rfl

/-- A turn: the counter is tested, and the product and the counter are taken to the next turn. -/
theorem pow_turn {pre doneBB bodyBB loopBB r : ℕ} {c : Ssa.Config Val Env} {acc count : Int64}
    (hloop : F loopBB = powLoop exp pre doneBB bodyBB r) (hbody : F bodyBB = powBody base loopBB r)
    (hdone : (F doneBB).phis = []) (hne : bodyBB ≠ pre) (hbase : base.Below r) (hblock : c.block = loopBB) (hindex : c.index = 0)
    (hacc : c.regs r = some (.i64 acc)) (hcount : c.regs (r + 1) = some (.i64 count))
    (hvalue : base.value c.regs = some (.i64 b)) :
    ∃ c', Runs semantics F c c' ∧ c'.index = 0 ∧ c'.state = c.state ∧ Agree r c.regs c'.regs ∧
      if count ≤ 0 then c'.block = doneBB ∧ c'.regs r = some (.i64 acc)
      else c'.block = loopBB ∧ c'.regs r = some (.i64 (acc * b)) ∧ c'.regs (r + 1) = some (.i64 (count - 1)) := by
  obtain ⟨block, index, regs, state⟩ := c
  dsimp only at hblock hindex hacc hcount hvalue
  subst hblock hindex
  have htest := runs_instr (c := ⟨block, 0, regs, state⟩) (x := .reg (r + 1)) (y := zero) (z := .i1 (count ≤ 0))
    (show (F block).body[0]? = some ⟨r + 2, .icmpSle, _⟩ by rw [hloop]; rfl) hcount rfl rfl
  dsimp only at htest
  generalize hregs₁ : Function.update regs (r + 2) (some (Val.i1 (count ≤ 0))) = regs₁ at htest
  have hagree₁ : Agree (r + 2) regs regs₁ := hregs₁ ▸ (Agree.refl _ _).update le_rfl _
  have hbranch : Ssa.step semantics F ⟨block, 1, regs₁, state⟩ =
      enter F (if decide (count ≤ 0) then doneBB else bodyBB) ⟨block, 1, regs₁, state⟩ := by
    have hcond : (Operand.reg (r + 2)).value regs₁ = some (Val.i1 (count ≤ 0)) := hregs₁ ▸ Function.update_self _ _ _
    rw [step_terminator (t := .condBr (.reg (r + 2)) doneBB bodyBB) (by rw [hloop]; rfl) (by rw [hloop]; rfl), leave]
    dsimp only
    rw [hcond]
    rfl
  by_cases hcmp : count ≤ 0
  · simp only [if_pos hcmp]
    rw [decide_eq_true hcmp, if_pos rfl, enter_plain hdone] at hbranch
    exact ⟨_, htest.trans (Runs.single hbranch), rfl, rfl, fun s hs => hagree₁ s (by omega), rfl,
      (hagree₁ r (by omega)).trans hacc⟩
  simp only [if_neg hcmp]
  rw [decide_eq_false hcmp, if_neg Bool.false_ne_true, enter_plain (by rw [hbody]; rfl)] at hbranch
  -- the body multiplies and counts
  have hmul := runs_instr (F := F) (c := ⟨bodyBB, 0, regs₁, state⟩) (x := .reg r) (y := base) (z := .i64 (acc * b))
    (show (F bodyBB).body[0]? = some ⟨r + 3, .mul, _⟩ by rw [hbody]; rfl) ((hagree₁ r (by omega)).trans hacc)
    ((hagree₁.value (hbase.mono (by omega))).trans hvalue) rfl
  dsimp only at hmul
  generalize hregs₂ : Function.update regs₁ (r + 3) (some (Val.i64 (acc * b))) = regs₂ at hmul
  have hagree₂ : Agree (r + 2) regs regs₂ := hregs₂ ▸ hagree₁.update (by omega) _
  have hcounter := runs_instr (F := F) (c := ⟨bodyBB, 1, regs₂, state⟩) (x := .reg (r + 1)) (y := one) (z := .i64 (count - 1))
    (show (F bodyBB).body[1]? = some ⟨r + 4, .sub, _⟩ by rw [hbody]; rfl) ((hagree₂ (r + 1) (by omega)).trans hcount) rfl rfl
  dsimp only at hcounter
  generalize hregs₃ : Function.update regs₂ (r + 4) (some (Val.i64 (count - 1))) = regs₃ at hcounter
  have hagree₃ : Agree (r + 2) regs regs₃ := hregs₃ ▸ hagree₂.update (by omega) _
  have hproduct : regs₃ (r + 3) = some (.i64 (acc * b)) := by
    rw [← hregs₃, Function.update_of_ne (by omega), ← hregs₂, Function.update_self]
  have hdec : regs₃ (r + 4) = some (.i64 (count - 1)) := hregs₃ ▸ Function.update_self _ _ _
  have hback : Ssa.step semantics F ⟨bodyBB, 2, regs₃, state⟩ = some ⟨block, 0,
      Function.update (Function.update regs₃ r (some (.i64 (acc * b)))) (r + 1) (some (.i64 (count - 1))), state⟩ := by
    rw [step_terminator (t := .br block) (by rw [hbody]; rfl) (by rw [hbody]; rfl), leave, enter]
    have hphis : phiValues (F block).phis bodyBB regs₃ = some [(r, .i64 (acc * b)), (r + 1, .i64 (count - 1))] := by
      rw [hloop]
      refine Effect.mapM_some_iff.mpr (.cons ?_ (.cons ?_ .nil))
      · dsimp only
        rw [List.lookup_cons, beq_eq_false_iff_ne.mpr hne, List.lookup_cons, beq_self_eq_true]
        show (regs₃ (r + 3)).map _ = _
        rw [hproduct]
        rfl
      · dsimp only
        rw [List.lookup_cons, beq_eq_false_iff_ne.mpr hne, List.lookup_cons, beq_self_eq_true]
        show (regs₃ (r + 4)).map _ = _
        rw [hdec]
        rfl
    rw [hphis]
    rfl
  refine ⟨_, htest.trans ((Runs.single hbranch).trans (hmul.trans (hcounter.trans (Runs.single hback)))), rfl, rfl, ?_, rfl, ?_, ?_⟩
  · intro s hs
    dsimp only
    rw [Function.update_of_ne (by omega), Function.update_of_ne (by omega)]
    exact hagree₃ s (by omega)
  · dsimp only
    rw [Function.update_of_ne (by omega), Function.update_self]
  · exact Function.update_self _ _ _

theorem mul_power (acc b : Int64) (n : ℕ) :
    Int64.ofInt ((acc * b).toInt * b.toInt ^ n) = Int64.ofInt (acc.toInt * b.toInt ^ (n + 1)) := by
  rw [Int64.ofInt_mul, Int64.ofInt_toInt, pow_succ', Int64.ofInt_mul, Int64.ofInt_mul, Int64.ofInt_toInt, Int64.ofInt_toInt,
    Int64.mul_assoc]

/-- **The loop ends**, with the power as its product. -/
theorem pow_loop {pre doneBB bodyBB loopBB r n : ℕ} {c : Ssa.Config Val Env} {acc count : Int64}
    (hloop : F loopBB = powLoop exp pre doneBB bodyBB r) (hbody : F bodyBB = powBody base loopBB r)
    (hdone : (F doneBB).phis = []) (hne : bodyBB ≠ pre) (hbase : base.Below r) (hblock : c.block = loopBB) (hindex : c.index = 0)
    (hacc : c.regs r = some (.i64 acc)) (hcount : c.regs (r + 1) = some (.i64 count))
    (hvalue : base.value c.regs = some (.i64 b)) (hn : count.toInt.toNat = n) :
    ∃ c', Runs semantics F c c' ∧ c'.index = 0 ∧ c'.state = c.state ∧ Agree r c.regs c'.regs ∧ c'.block = doneBB ∧
      c'.regs r = some (.i64 (Int64.ofInt (acc.toInt * b.toInt ^ n))) := by
  induction n generalizing c acc count with
  | zero =>
      have hcmp : count ≤ 0 := Int64.le_iff_toInt_le.mpr (Int.toNat_eq_zero.mp hn)
      obtain ⟨c', hruns, hindex', hstate, hagree, hturn⟩ := pow_turn hloop hbody hdone hne hbase hblock hindex hacc hcount hvalue
      rw [if_pos hcmp] at hturn
      refine ⟨c', hruns, hindex', hstate, hagree, hturn.1, ?_⟩
      rw [pow_zero, mul_one, Int64.ofInt_toInt]
      exact hturn.2
  | succ n ih =>
      have hpos : 0 < count.toInt := by omega
      have hcmp : ¬ count ≤ 0 := fun h => not_lt.mpr (Int64.le_iff_toInt_le.mp h) hpos
      obtain ⟨c', hruns, hindex', hstate, hagree, hturn⟩ := pow_turn hloop hbody hdone hne hbase hblock hindex hacc hcount hvalue
      rw [if_neg hcmp] at hturn
      obtain ⟨hblock', hacc', hcount'⟩ := hturn
      have hdec : (count - 1).toInt.toNat = n := by
        have hone : (1 : Int64).toInt = 1 := rfl
        rw [Int64.toInt_sub_of_le count 1 (by decide) (Int64.le_iff_toInt_le.mpr (by rw [hone]; omega)), hone]
        omega
      obtain ⟨c'', hruns'', hindex'', hstate'', hagree'', hblock'', hresult⟩ := ih hblock' hindex' hacc' hcount'
        ((hagree.value hbase).trans hvalue) hdec
      rw [mul_power] at hresult
      exact ⟨c'', hruns.trans hruns'', hindex'', hstate''.trans hstate, hagree.trans hagree'' le_rfl, hblock'', hresult⟩

end Pow

/-- The power of an integer: `1` where the exponent is negative. -/
def intPow (b e : Int64) : Int64 := if 0 ≤ e.toInt then Int64.ofInt (b.toInt ^ e.toInt.toNat) else 1

theorem intPow_eq (b e : Int64) : intPow b e = Int64.ofInt ((1 : Int64).toInt * b.toInt ^ e.toInt.toNat) := by
  have hone : (1 : Int64).toInt = 1 := rfl
  unfold intPow
  rw [hone, one_mul]
  split_ifs with hneg
  · rfl
  · rw [Int.toNat_of_nonpos (by omega), pow_zero]
    rfl

/-- **What `emitIntPow` emits computes the power**, in every function that is built with it. -/
theorem intPow_means (base exp : Operand Val) (b e : Int64) :
    Means semantics [(base, .i64 b), (exp, .i64 e)] (emitIntPow base exp) fun env => some (.i64 (intPow b e), env) := by
  intro B hB hbelow F hF c hc hknown
  obtain ⟨hblock, hindex⟩ := hc
  have hinserted := hB.inserted
  have hbase : base.Below B.regs := hbelow (base, .i64 b) List.mem_cons_self
  have hexp : exp.value c.regs = some (.i64 e) := hknown (exp, .i64 e) (List.mem_cons_of_mem _ List.mem_cons_self)
  have hvalue : base.value c.regs = some (.i64 b) := hknown (base, .i64 b) List.mem_cons_self
  have hfinished : ∀ (k : ℕ) (block : Block Val Op), B.Own k → k < B.count + 3 →
      (emitIntPow base exp B).2.blocks k = block → block.terminator.isSome = true → F k = block := by
    intro k block hown hk hblocks hdone
    rw [hF.finished k hown hk (hblocks ▸ hdone), hblocks]
  have hpre := hfinished _ _ (.inl rfl) (by omega) (emitIntPow_preheader base exp hB) rfl
  have hloop := hfinished _ _ (.inr le_rfl) (by omega) (emitIntPow_loop base exp hB) rfl
  have hbody := hfinished _ _ (.inr (by omega)) (by omega) (emitIntPow_body base exp hB) rfl
  have hhere := emitIntPow_done base exp hB
  have hdone : (F (B.count + 1)).phis = [] := hF.phis.trans (congrArg Block.phis hhere)
  -- from the preheader the loop is entered with 1 and the exponent
  have hstart : Ssa.step semantics F c = some ⟨B.count, 0,
      Function.update (Function.update c.regs B.regs (some (.i64 1))) (B.regs + 1) (some (.i64 e)), c.state⟩ := by
    rw [step_terminator (t := .br B.count) (by rw [hblock, hpre]; exact hindex) (by rw [hblock, hpre]), leave, enter]
    have hphis : phiValues (F B.count).phis c.block c.regs = some [(B.regs, .i64 1), (B.regs + 1, .i64 e)] := by
      rw [hloop, hblock]
      refine Effect.mapM_some_iff.mpr (.cons ?_ (.cons ?_ .nil))
      · dsimp only
        rw [List.lookup_cons, beq_self_eq_true]
        rfl
      · dsimp only
        rw [List.lookup_cons, beq_self_eq_true]
        show (exp.value c.regs).map _ = _
        rw [hexp]
        rfl
    rw [hphis]
    rfl
  generalize hregs : Function.update (Function.update c.regs B.regs (some (.i64 1))) (B.regs + 1) (some (.i64 e)) = regs at hstart
  have hagree : Agree B.regs c.regs regs := hregs ▸ ((Agree.refl _ _).update le_rfl _).update (Nat.le_succ _) _
  have hacc : regs B.regs = some (.i64 1) := by rw [← hregs, Function.update_of_ne (by omega), Function.update_self]
  have hcount : regs (B.regs + 1) = some (.i64 e) := hregs ▸ Function.update_self _ _ _
  obtain ⟨c', hruns, hindex', hstate, hagree', hblock', hresult⟩ := pow_loop (c := ⟨B.count, 0, regs, c.state⟩)
    hloop hbody hdone (by omega) hbase rfl rfl hacc hcount ((hagree.value hbase).trans hvalue) rfl
  refine ⟨c', (Runs.single hstart).trans hruns, ⟨hblock', ?_⟩, hstate, ?_, hagree.trans hagree' le_rfl⟩
  · rw [hindex', hhere]
    rfl
  · rw [intPow_eq]
    exact hresult

/-! ## Expressions -/

/-- The binary operators on integers. -/
inductive IntOp
  | add
  | sub
  | mul
  | div
  | intDiv
  | mod
  | pow
  | shl
  | shr
  | bitAnd
  | bitOr
  | bitXor
  deriving DecidableEq

/-- Expressions over variables and literals of type `int`. -/
inductive IntExpr
  | operand (x : ℕ)
  | literal (n : Int64)
  | neg (e : IntExpr)
  | binary (op : IntOp) (left right : IntExpr)

/-- The integer operations of `codegenBinaryExpr`. -/
def codegenBinaryExpr (op : IntOp) (l r : Operand Val) : Ssa.Emitter Val Op :=
  match op with
  | .add => emitInstr .add [l, r]
  | .sub => emitInstr .sub [l, r]
  | .mul => emitInstr .mul [l, r]
  | .div => emitInstr .sdiv [l, r]
  | .intDiv => emitInstr .sdiv [l, r]
  | .mod => emitInstr .srem [l, r]
  | .pow => emitIntPow l r
  | .shl => emitInstr .shl [l, r]
  | .shr => emitInstr .ashr [l, r]
  | .bitAnd => emitInstr .and [l, r]
  | .bitOr => emitInstr .or [l, r]
  | .bitXor => emitInstr .xor [l, r]

/-- `codegenExpr`, where the operands are integers: the operands of an operator are emitted from left to right. -/
def codegenExpr : IntExpr → Ssa.Emitter Val Op
  | .operand x => emitInstr (.load x) []
  | .literal n => fun B => (.const (.i64 n), B)
  | .neg e => seq (codegenExpr e) fun x => emitInstr .sub [zero, x]
  | .binary op left right => seq (codegenExpr left) fun l => seq (codegenExpr right) fun r => codegenBinaryExpr op l r

/-- The operands on which an operator is defined. -/
def IntOp.Defined : IntOp → Int64 → Int64 → Prop
  | .div, a, b | .intDiv, a, b | .mod, a, b => Divides a b
  | .shl, _, b | .shr, _, b => Shifts b
  | _, _, _ => True

instance (op : IntOp) (a b : Int64) : Decidable (op.Defined a b) := by
  cases op <;> unfold IntOp.Defined <;> infer_instance

/-- The value of an operator, as a 64-bit number. -/
def IntOp.value : IntOp → Int64 → Int64 → Int64
  | .add, a, b => a + b
  | .sub, a, b => a - b
  | .mul, a, b => a * b
  | .div, a, b | .intDiv, a, b => a / b
  | .mod, a, b => a % b
  | .pow, a, b => intPow a b
  | .shl, a, b => a <<< b
  | .shr, a, b => a >>> b
  | .bitAnd, a, b => a &&& b
  | .bitOr, a, b => a ||| b
  | .bitXor, a, b => a ^^^ b

/-- The value of an expression, as a 64-bit number. -/
def IntExpr.value (env : Env) : IntExpr → Int64
  | .operand x => env x
  | .literal n => n
  | .neg e => 0 - e.value env
  | .binary op left right => op.value (left.value env) (right.value env)

/-- Every operator in the expression is defined on the values of its operands. -/
def IntExpr.Defined (env : Env) : IntExpr → Prop
  | .operand _ | .literal _ => True
  | .neg e => e.Defined env
  | .binary op left right =>
    left.Defined env ∧ right.Defined env ∧ op.Defined (left.value env) (right.value env)

instance IntExpr.decidableDefined (env : Env) : ∀ e : IntExpr, Decidable (e.Defined env)
  | .operand _ => .isTrue trivial
  | .literal _ => .isTrue trivial
  | .neg e => IntExpr.decidableDefined env e
  | .binary _ left right =>
    @instDecidableAnd _ _ (IntExpr.decidableDefined env left)
      (@instDecidableAnd _ _ (IntExpr.decidableDefined env right) inferInstance)

/-- The value, where every operator is defined. -/
def IntExpr.eval (e : IntExpr) (env : Env) : Option (Val × Env) :=
  if e.Defined env then some (.i64 (e.value env), env) else none

theorem codegenBinaryExpr_builds (op : IntOp) (l r : Operand Val) : Builds [r, l] (codegenBinaryExpr op l r) := by
  cases op with
  | pow => exact (emitIntPow_builds l r).mono (List.Perm.swap r l []).subset
  | _ => exact Builds.instr _ _ _

theorem codegenExpr_builds (e : IntExpr) : Builds [] (codegenExpr e) := by
  induction e with
  | operand x => exact Builds.instr _ _ _
  | literal n => exact fun B hB _ => ⟨hB, .refl B, trivial⟩
  | neg e ih => exact ih.seq fun x => Builds.instr _ _ _
  | binary op left right ihl ihr =>
    exact ihl.seq fun l => (ihr.mono (List.nil_subset _)).seq fun r => codegenBinaryExpr_builds op l r

/-- What an instruction does, whose operands are the two known last. -/
theorem instr_means (op : Op) (l r : Operand Val) (a b : Int64) {m : Option Val}
    (h : ∀ env, semantics.apply op [.i64 a, .i64 b] env = m.map fun v => (v, env)) :
    Means semantics [(r, .i64 b), (l, .i64 a)] (emitInstr op [l, r]) fun env => m.map fun v => (v, env) := by
  have hinstr : Means semantics [(r, .i64 b), (l, .i64 a)] (emitInstr op [l, r]) (semantics.apply op [.i64 a, .i64 b]) :=
    Means.instr (.cons (List.mem_cons_of_mem _ List.mem_cons_self) (.cons List.mem_cons_self .nil))
  have heq : semantics.apply op [.i64 a, .i64 b] = fun env => m.map fun v => (v, env) := funext h
  rwa [heq] at hinstr

/-- **Each operator** is defined where its operands say, and has its value then. -/
theorem codegenBinaryExpr_means (op : IntOp) (l r : Operand Val) (a b : Int64) :
    Means semantics [(r, .i64 b), (l, .i64 a)] (codegenBinaryExpr op l r) fun env =>
      (if op.Defined a b then some (Val.i64 (op.value a b)) else none).map fun v => (v, env) := by
  cases op with
  | pow => exact (intPow_means l r a b).mono (List.Perm.swap _ _ []).subset
  | _ => exact instr_means _ l r a b fun env => rfl

/-- The values of expressions are integers. -/
theorem IntExpr.eval_i64 {e : IntExpr} {v : Val} (h : ∃ env env', e.eval env = some (v, env')) : ∃ a, v = .i64 a := by
  obtain ⟨env, env', heval⟩ := h
  unfold IntExpr.eval at heval
  split_ifs at heval
  cases heval
  exact ⟨_, rfl⟩

/-- An operator on the values of its operands. -/
def IntOp.onValues (op : IntOp) (v w : Val) (env : Env) : Option (Val × Env) :=
  match v, w with
  | .i64 a, .i64 b => (if op.Defined a b then some (Val.i64 (op.value a b)) else none).map fun v => (v, env)
  | _, _ => none

theorem IntExpr.eval_binary (op : IntOp) (left right : IntExpr) (env : Env) :
    (IntExpr.binary op left right).eval env =
      (left.eval env).bind fun p => (right.eval p.2).bind fun q => op.onValues p.1 q.1 q.2 := by
  unfold IntExpr.eval
  by_cases hleft : left.Defined env
  · by_cases hright : right.Defined env
    · rw [if_pos hleft, Option.bind_some, if_pos hright, Option.bind_some]
      show _ = (if op.Defined (left.value env) (right.value env) then _ else none).map _
      by_cases hop : op.Defined (left.value env) (right.value env)
      · rw [if_pos ⟨hleft, hright, hop⟩, if_pos hop]
        rfl
      · rw [if_neg fun h => hop h.2.2, if_neg hop]
        rfl
    · rw [if_pos hleft, Option.bind_some, if_neg hright, if_neg fun h => hright h.2.1]
      rfl
  · rw [if_neg hleft, if_neg fun h => hleft h.1]
    rfl

theorem IntExpr.eval_neg (e : IntExpr) (env : Env) :
    e.neg.eval env = (e.eval env).bind fun p => IntOp.sub.onValues (.i64 0) p.1 p.2 := by
  unfold IntExpr.eval
  by_cases hdefined : e.Defined env
  · rw [if_pos hdefined, if_pos (show e.neg.Defined env from hdefined)]
    rfl
  · rw [if_neg hdefined, if_neg (show ¬ e.neg.Defined env from hdefined)]
    rfl

/-- **An expression has its value**, or comes to an undefined instruction. -/
theorem codegenExpr_means (e : IntExpr) : Means semantics [] (codegenExpr e) e.eval := by
  induction e with
  | operand x =>
    have hload : Means semantics [] (emitInstr (.load x) []) (semantics.apply (.load x) []) := Means.instr .nil
    exact hload
  | literal n =>
    intro B hB _ F hF c hc _
    exact ⟨c, Runs.refl c, hc, rfl, rfl, Agree.refl _ _⟩
  | neg e ih =>
    rw [show e.neg.eval = _ from funext e.eval_neg]
    refine ih.seq (codegenExpr_builds e) (fun x => Builds.instr _ _ _) fun x v hv => ?_
    obtain ⟨a, rfl⟩ := IntExpr.eval_i64 hv
    intro B hB hbelow F hF c hc hknown
    have hzero : ∀ p ∈ [(x, Val.i64 a), (zero, Val.i64 0)], p.1.Below B.regs :=
      List.forall_mem_cons.mpr ⟨hbelow _ List.mem_cons_self, List.forall_mem_singleton.mpr trivial⟩
    have hvalues : ∀ p ∈ [(x, Val.i64 a), (zero, Val.i64 0)], p.1.value c.regs = some p.2 :=
      List.forall_mem_cons.mpr ⟨hknown _ List.mem_cons_self, List.forall_mem_singleton.mpr rfl⟩
    exact codegenBinaryExpr_means .sub zero x 0 a B hB hzero F hF c hc hvalues
  | binary op left right ihl ihr =>
    have hright : ∀ (l : Operand Val) (a : Int64), Means semantics [(l, .i64 a)]
        (seq (codegenExpr right) fun r => codegenBinaryExpr op l r)
        fun env => (right.eval env).bind fun q => op.onValues (.i64 a) q.1 q.2 := by
      intro l a
      refine (ihr.mono (List.nil_subset _)).seq ((codegenExpr_builds right).mono (List.nil_subset _))
        (fun r => codegenBinaryExpr_builds op l r) fun r v hv => ?_
      obtain ⟨b, rfl⟩ := IntExpr.eval_i64 hv
      exact codegenBinaryExpr_means op l r a b
    rw [show (IntExpr.binary op left right).eval = _ from funext (IntExpr.eval_binary op left right)]
    refine ihl.seq (n := fun v env => (right.eval env).bind fun q => op.onValues v q.1 q.2) (codegenExpr_builds left)
      (fun l => ((codegenExpr_builds right).mono (List.nil_subset _)).seq fun r => codegenBinaryExpr_builds op l r)
      fun l v hv => ?_
    obtain ⟨a, rfl⟩ := IntExpr.eval_i64 hv
    exact hright l a

/-- **What is claimed of an expression**: its code comes to its end, and so through no undefined instruction, wherever it
stands. -/
def NothingUndefined (e : IntExpr) (env : Env) : Prop :=
  ∀ B : Ssa.Builder Val Op, B.Sound → ∀ F, (codegenExpr e B).2.Within F →
    ∀ c : Ssa.Config Val Env, Ssa.At B c → c.state = env →
    ∃ c' n, Runs semantics F c c' ∧ Ssa.At (codegenExpr e B).2 c' ∧ (codegenExpr e B).1.value c'.regs = some (.i64 n)

/-- **Integer expressions are defined** exactly where no divisor is zero, no least number is divided by `-1`, and every
shift is by less than 64 bits. -/
theorem nothing_undefined_iff (e : IntExpr) (env : Env) : NothingUndefined e env ↔ e.Defined env := by
  constructor
  · intro h
    obtain ⟨c', _, hruns, hat, _⟩ := h (.start Val Op) Ssa.Builder.start_sound _ (Ssa.Builder.Within.refl _)
      ⟨0, 0, fun _ => none, env⟩ ⟨rfl, rfl⟩ rfl
    have hends := ((codegenExpr_means e).ends_iff (codegenExpr_builds e) Ssa.Builder.start_sound
      (c := ⟨0, 0, fun _ => none, env⟩) ⟨rfl, rfl⟩).mp ⟨c', hruns, hat⟩
    unfold IntExpr.eval at hends
    by_contra hnot
    rw [if_neg hnot] at hends
    cases hends
  · intro h B hB F hF c hc henv
    have hmeans := codegenExpr_means e B hB (List.forall_mem_nil _) F (hF.hosts B) c hc (List.forall_mem_nil _)
    rw [henv, IntExpr.eval, if_pos h] at hmeans
    obtain ⟨c', hruns, hat, _, hvalue, _⟩ := hmeans
    exact ⟨c', _, hruns, hat, hvalue⟩

/-- `x // 0`. -/
theorem not_nothing_undefined_zero : ¬ NothingUndefined (.binary .intDiv (.operand 0) (.literal 0)) fun _ => 7 := by
  intro h
  obtain ⟨c', _, hruns, hat, _⟩ := h (.start Val Op) Ssa.Builder.start_sound _ (Ssa.Builder.Within.refl _)
    ⟨0, 0, fun _ => none, fun _ => 7⟩ ⟨rfl, rfl⟩ rfl
  have hends := ((codegenExpr_means _).ends_iff (codegenExpr_builds _) Ssa.Builder.start_sound
    (c := ⟨0, 0, fun _ => none, fun _ => 7⟩) ⟨rfl, rfl⟩).mp ⟨c', hruns, hat⟩
  exact absurd hends (by decide)

/-- **What is claimed of the loop** that is emitted for a power: from the insertion point it comes to its end with the power,
and the blocks named in its phis are those that control comes from. -/
structure ComputesPower (base exp : Operand Val) (B : Ssa.Builder Val Op) : Prop where
  result : ∀ F, (emitIntPow base exp B).2.Within F → ∀ (c : Ssa.Config Val Env) (b e : Int64), Ssa.At B c →
    base.value c.regs = some (.i64 b) → exp.value c.regs = some (.i64 e) →
      ∃ c', Runs semantics F c c' ∧ Ssa.At (emitIntPow base exp B).2 c' ∧ c'.state = c.state ∧
        (emitIntPow base exp B).1.value c'.regs =
          some (.i64 (if 0 ≤ e.toInt then Int64.ofInt (b.toInt ^ e.toInt.toNat) else 1)) ∧
        Agree B.regs c.regs c'.regs
  incoming : ∀ φ ∈ ((emitIntPow base exp B).2.blocks B.count).phis, ∀ k, k ∈ φ.incoming.map Prod.fst ↔
    ∃ t, ((emitIntPow base exp B).2.blocks k).terminator = some t ∧ B.count ∈ t.targets

/-- **Powers**, of operands that are emitted in any way, wherever the builder is. -/
theorem powers_right (left right : Ssa.Emitter Val Op) (hleft : Builds [] left) (hright : Builds [] right) (B : Ssa.Builder Val Op)
    (hB : B.Sound) : ComputesPower (left B).1 (right (left B).2).1 (right (left B).2).2 := by
  obtain ⟨hB₁, hgrows₁, hbelow₁⟩ := hleft B hB (List.forall_mem_nil _)
  obtain ⟨hB₂, hgrows₂, hbelow₂⟩ := hright (left B).2 hB₁ (List.forall_mem_nil _)
  refine ⟨fun F hF c b e hc hb he => ?_, fun φ hφ k => ?_⟩
  · refine intPow_means _ _ b e _ hB₂ ?_ F (hF.hosts _) c hc ?_
    · exact List.forall_mem_cons.mpr ⟨hbelow₁.mono hgrows₂.regs, List.forall_mem_singleton.mpr hbelow₂⟩
    · exact List.forall_mem_cons.mpr ⟨hb, List.forall_mem_singleton.mpr he⟩
  · generalize (right (left B).2).2 = B' at hB₂ hφ ⊢
    have hinserted := hB₂.inserted
    have hsources : φ.incoming.map Prod.fst = [B'.insertBlock, B'.count + 2] := by
      rw [emitIntPow_loop _ _ hB₂] at hφ
      rcases List.mem_cons.mp hφ with rfl | hφ
      · rfl
      · rw [List.mem_singleton.mp hφ]
        rfl
    rw [hsources, List.mem_cons, List.mem_singleton]
    constructor
    · rintro (rfl | rfl)
      · exact ⟨.br B'.count, by rw [emitIntPow_preheader _ _ hB₂], List.mem_singleton_self _⟩
      · exact ⟨.br B'.count, by rw [emitIntPow_body _ _ hB₂]; rfl, List.mem_singleton_self _⟩
    · rintro ⟨t, ht, hmem⟩
      rcases emitIntPow_targets _ _ hB₂ ht with ⟨hk, _⟩ | ⟨_, htargets⟩ | ht
      · exact hk
      · rw [htargets, List.mem_cons, List.mem_singleton] at hmem
        omega
      · exact absurd (hB₂.targets k t ht _ hmem) (lt_irrefl _)

theorem powers_right_nested :
    Builds [] (codegenExpr (.literal 2)) ∧ Builds [] (codegenExpr (.binary .pow (.literal 3) (.operand 0))) ∧
      (Ssa.Builder.start Val Op).Sound ∧
      ComputesPower (codegenExpr (.literal 2) (.start Val Op)).1
        (codegenExpr (.binary .pow (.literal 3) (.operand 0)) (codegenExpr (.literal 2) (.start Val Op)).2).1
        (codegenExpr (.binary .pow (.literal 3) (.operand 0)) (codegenExpr (.literal 2) (.start Val Op)).2).2 :=
  ⟨codegenExpr_builds _, codegenExpr_builds _, Ssa.Builder.start_sound,
    powers_right _ _ (codegenExpr_builds _) (codegenExpr_builds _) _ Ssa.Builder.start_sound⟩

end Visuall.Codegen.Arithmetic
