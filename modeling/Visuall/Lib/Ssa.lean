import Visuall.Lib.Effect

/-!
# Code in single-assignment form

Functions of blocks with phis, a builder that emits them at an insertion point, and the machine that executes them.

* `Builder` and its operations — what emitters are written with;
* `Builder.Grows`, `Builds` — what an emitter leaves as it was;
* `step`, `Runs` — the machine, over any operations;
* `Means` — what the code of an emitter does, in every function that the builder goes on to build;
* `Means.instr`, `Means.seq` — how that is put together.
-/

namespace Visuall.Ssa

variable {V O σ : Type}

/-! ## Functions -/

/-- What an instruction reads. -/
inductive Operand (V : Type)
  | reg (r : ℕ)
  | const (v : V)

/-- A value that depends on the block which control comes from. -/
structure Phi (V : Type) where
  result : ℕ
  incoming : List (ℕ × Operand V)

structure Instr (V O : Type) where
  result : ℕ
  op : O
  args : List (Operand V)

inductive Terminator (V : Type)
  | br (target : ℕ)
  | condBr (cond : Operand V) (ifTrue ifFalse : ℕ)

/-- The blocks that control may go to. -/
def Terminator.targets : Terminator V → List ℕ
  | .br b => [b]
  | .condBr _ b b' => [b, b']

structure Block (V O : Type) where
  phis : List (Phi V) := []
  body : List (Instr V O) := []
  terminator : Option (Terminator V) := none

/-- The operand is a constant, or a register with a smaller number. -/
def Operand.Below (n : ℕ) : Operand V → Prop
  | .reg r => r < n
  | .const _ => True

def Operand.value (regs : ℕ → Option V) : Operand V → Option V
  | .reg r => regs r
  | .const v => some v

theorem Operand.Below.mono {x : Operand V} {n m : ℕ} (h : x.Below n) (hle : n ≤ m) : x.Below m := by
  cases x with
  | reg r => exact lt_of_lt_of_le h hle
  | const v => trivial

/-- Registers with smaller numbers hold the same. -/
def Agree (n : ℕ) (regs regs' : ℕ → Option V) : Prop := ∀ r < n, regs' r = regs r

theorem Agree.refl (n : ℕ) (regs : ℕ → Option V) : Agree n regs regs := fun _ _ => rfl

theorem Agree.trans {n m : ℕ} {regs regs' regs'' : ℕ → Option V} (h : Agree n regs regs') (h' : Agree m regs' regs'')
    (hle : n ≤ m) : Agree n regs regs'' := fun r hr => (h' r (by omega)).trans (h r hr)

theorem Agree.update {n r : ℕ} {regs regs' : ℕ → Option V} (h : Agree n regs regs') (hr : n ≤ r) (v : Option V) :
    Agree n regs (Function.update regs' r v) := by
  intro s hs
  rw [Function.update_of_ne (by omega)]
  exact h s hs

theorem Agree.value {n : ℕ} {regs regs' : ℕ → Option V} (h : Agree n regs regs') {x : Operand V} (hx : x.Below n) :
    x.value regs' = x.value regs := by
  cases x with
  | reg r => exact h r hx
  | const v => rfl

/-! ## The builder -/

/-- A function under construction: blocks and registers are numbered in the order in which they are created. -/
structure Builder (V O : Type) where
  count : ℕ
  blocks : ℕ → Block V O
  insertBlock : ℕ
  regs : ℕ

namespace Builder

variable (B : Builder V O)

/-- The insertion block. -/
def here : Block V O := B.blocks B.insertBlock

/-- A new block is number `B.count`. -/
def createBlock : Builder V O := { B with count := B.count + 1 }

def setInsertPoint (b : ℕ) : Builder V O := { B with insertBlock := b }

/-- A new instruction at the insertion point; its result is the register `B.regs`. -/
def instr (op : O) (args : List (Operand V)) : Builder V O :=
  { B with
    blocks := Function.update B.blocks B.insertBlock { B.here with body := B.here.body ++ [⟨B.regs, op, args⟩] }
    regs := B.regs + 1 }

def terminate (t : Terminator V) : Builder V O :=
  { B with blocks := Function.update B.blocks B.insertBlock { B.here with terminator := some t } }

/-- A new phi in the insertion block; its result is the register `B.regs`. -/
def createPhi : Builder V O :=
  { B with
    blocks := Function.update B.blocks B.insertBlock { B.here with phis := B.here.phis ++ [⟨B.regs, []⟩] }
    regs := B.regs + 1 }

/-- The value of a phi for one more block that control may come from. -/
def addIncoming (b r : ℕ) (x : Operand V) (source : ℕ) : Builder V O :=
  { B with
    blocks := Function.update B.blocks b { B.blocks b with
      phis := (B.blocks b).phis.map fun φ => if φ.result = r then { φ with incoming := φ.incoming ++ [(source, x)] } else φ } }

/-- The insertion block is there and not finished, blocks that are yet to be created are empty, and control goes to no such
block. -/
structure Sound : Prop where
  inserted : B.insertBlock < B.count
  unfinished : B.here.terminator = none
  fresh : ∀ b, B.count ≤ b → B.blocks b = {}
  targets : ∀ b t, (B.blocks b).terminator = some t → ∀ k ∈ t.targets, k < B.count

/-- A function with an empty block. -/
def start (V O : Type) : Builder V O := ⟨1, fun _ => {}, 0, 0⟩

theorem start_sound : (start V O).Sound where
  inserted := Nat.zero_lt_one
  unfinished := rfl
  fresh _ _ := rfl
  targets b t h := by cases h

/-- What later emission leaves as it was: all blocks but the insertion block, and that is only appended to until it is
left. -/
structure Grows (B B' : Builder V O) : Prop where
  count : B.count ≤ B'.count
  regs : B.regs ≤ B'.regs
  others : ∀ b, b < B.count → b ≠ B.insertBlock → B'.blocks b = B.blocks b
  phis : (B'.blocks B.insertBlock).phis = B.here.phis
  body : B.here.body <+: (B'.blocks B.insertBlock).body
  moved : B'.insertBlock = B.insertBlock ∨
    B.count ≤ B'.insertBlock ∧ (B'.blocks B.insertBlock).terminator.isSome = true

variable {B} {B' B'' : Builder V O}

theorem Grows.refl (B : Builder V O) : Grows B B where
  count := le_rfl
  regs := le_rfl
  others _ _ _ := rfl
  phis := rfl
  body := List.prefix_rfl
  moved := .inl rfl

theorem Grows.trans (hB : Sound B) (h : Grows B B') (h' : Grows B' B'') : Grows B B'' where
  count := h.count.trans h'.count
  regs := h.regs.trans h'.regs
  others b hb hne := by
    have hne' : b ≠ B'.insertBlock := by
      rcases h.moved with heq | ⟨hle, _⟩
      · exact heq ▸ hne
      · omega
    rw [h'.others b (lt_of_lt_of_le hb h.count) hne', h.others b hb hne]
  phis := by
    rcases h.moved with heq | ⟨hle, _⟩
    · rw [← heq, h'.phis, here, heq, h.phis]
    · have := hB.inserted
      rw [h'.others _ (lt_of_lt_of_le hB.inserted h.count) (by omega), h.phis]
  body := by
    rcases h.moved with heq | ⟨hle, _⟩
    · have hfirst := h.body
      have hsecond := h'.body
      rw [here, heq] at hsecond
      exact hfirst.trans hsecond
    · have := hB.inserted
      rw [h'.others _ (lt_of_lt_of_le hB.inserted h.count) (by omega)]
      exact h.body
  moved := by
    have hcount := h.count
    have hinserted := hB.inserted
    rcases h.moved with heq | ⟨hle, hdone⟩
    · rcases h'.moved with heq' | ⟨hle', hdone'⟩
      · exact .inl (heq'.trans heq)
      · exact .inr ⟨hcount.trans hle', heq ▸ hdone'⟩
    · refine .inr ⟨?_, ?_⟩
      · rcases h'.moved with heq' | ⟨hle', _⟩
        · exact heq' ▸ hle
        · exact hcount.trans hle'
      · rwa [h'.others _ (lt_of_lt_of_le hinserted hcount) (by omega)]

/-- A function that the builder may go on to build: its finished blocks are there as they are, and the insertion block is
only appended to. -/
structure Within (B : Builder V O) (F : ℕ → Block V O) : Prop where
  finished : ∀ b, b < B.count → (B.blocks b).terminator.isSome = true → F b = B.blocks b
  phis : (F B.insertBlock).phis = B.here.phis
  body : B.here.body <+: (F B.insertBlock).body

theorem Within.refl (B : Builder V O) : Within B B.blocks := ⟨fun _ _ _ => rfl, rfl, List.prefix_rfl⟩

variable (B) in
/-- The blocks that are filled from here on: the insertion block, and those that are yet to be created. -/
def Own (b : ℕ) : Prop := b = B.insertBlock ∨ B.count ≤ b

/-- What emission from `B` to `B'` has filled is in a function as it is, but that the insertion block may be longer. -/
structure Hosts (B B' : Builder V O) (F : ℕ → Block V O) : Prop where
  finished : ∀ b, B.Own b → b < B'.count → (B'.blocks b).terminator.isSome = true → F b = B'.blocks b
  phis : (F B'.insertBlock).phis = B'.here.phis
  body : B'.here.body <+: (F B'.insertBlock).body

theorem Within.hosts {F : ℕ → Block V O} (h : Within B' F) (B : Builder V O) : Hosts B B' F where
  finished b _ := h.finished b
  phis := h.phis
  body := h.body

theorem Grows.own (h : Grows B B') : B.Own B'.insertBlock := h.moved.imp id And.left

theorem Grows.own_of_own (h : Grows B B') {b : ℕ} (hb : B'.Own b) : B.Own b := by
  rcases hb with rfl | hle
  · exact h.own
  · exact .inr (h.count.trans hle)

/-- Where emission goes on. -/
theorem Hosts.second {F : ℕ → Block V O} (h : Grows B B') (hF : Hosts B B'' F) : Hosts B' B'' F where
  finished b hb := hF.finished b (h.own_of_own hb)
  phis := hF.phis
  body := hF.body

/-- Up to where emission goes on. -/
theorem Hosts.first {F : ℕ → Block V O} (hB' : Sound B') (h : Grows B B') (h' : Grows B' B'') (hF : Hosts B B'' F) :
    Hosts B B' F where
  finished b hown hb hdone := by
    have hne : b ≠ B'.insertBlock := by
      rintro rfl
      rw [← here, hB'.unfinished] at hdone
      cases hdone
    have heq := h'.others b hb hne
    rw [hF.finished b hown (lt_of_lt_of_le hb h'.count) (heq ▸ hdone), heq]
  phis := by
    rcases h'.moved with heq | ⟨_, hdone⟩
    · rw [← heq, hF.phis, here, heq, h'.phis]
    · rw [hF.finished _ h.own (lt_of_lt_of_le hB'.inserted h'.count) hdone, h'.phis]
  body := by
    rcases h'.moved with heq | ⟨_, hdone⟩
    · have hbody := hF.body
      rw [here, heq] at hbody
      exact h'.body.trans hbody
    · rw [hF.finished _ h.own (lt_of_lt_of_le hB'.inserted h'.count) hdone]
      exact h'.body

/-! ### The operations -/

theorem Sound.createBlock (h : Sound B) : Sound B.createBlock where
  inserted := Nat.lt_succ_of_lt h.inserted
  unfinished := h.unfinished
  fresh b hb := h.fresh b (Nat.le_of_succ_le hb)
  targets b t ht k hk := Nat.lt_succ_of_lt (h.targets b t ht k hk)

theorem Sound.instr (h : Sound B) (op : O) (args : List (Operand V)) : Sound (B.instr op args) where
  inserted := h.inserted
  unfinished := by
    show (Function.update B.blocks B.insertBlock _ B.insertBlock).terminator = none
    rw [Function.update_self]
    exact h.unfinished
  fresh b hb := by
    have hne : b ≠ B.insertBlock := (lt_of_lt_of_le h.inserted hb).ne'
    exact (Function.update_of_ne hne _ _).trans (h.fresh b hb)
  targets b t ht := by
    refine h.targets b t ?_
    by_cases hb : b = B.insertBlock
    · subst hb
      have hhere : (Function.update B.blocks B.insertBlock { B.here with body := B.here.body ++ [⟨B.regs, op, args⟩] }
        B.insertBlock).terminator = some t := ht
      rwa [Function.update_self] at hhere
    · have hother : (Function.update B.blocks B.insertBlock { B.here with body := B.here.body ++ [⟨B.regs, op, args⟩] }
        b).terminator = some t := ht
      rwa [Function.update_of_ne hb] at hother

theorem grows_createBlock (B : Builder V O) : Grows B B.createBlock where
  count := Nat.le_succ _
  regs := le_rfl
  others _ _ _ := rfl
  phis := rfl
  body := List.prefix_rfl
  moved := .inl rfl

theorem here_instr (B : Builder V O) (op : O) (args : List (Operand V)) :
    (B.instr op args).here = { B.here with body := B.here.body ++ [⟨B.regs, op, args⟩] } := Function.update_self _ _ _

theorem grows_instr (B : Builder V O) (op : O) (args : List (Operand V)) : Grows B (B.instr op args) where
  count := le_rfl
  regs := Nat.le_succ _
  others _ _ hne := Function.update_of_ne hne _ _
  phis := by
    show (B.instr op args).here.phis = _
    rw [here_instr]
  body := by
    show _ <+: (B.instr op args).here.body
    rw [here_instr]
    exact List.prefix_append _ _
  moved := .inl rfl

end Builder

/-! ## The machine -/

/-- What operations do: a value and a state, unless the operation is undefined; and which values are true. -/
structure Semantics (V O σ : Type) where
  apply : O → List V → σ → Option (V × σ)
  truth : V → Option Bool

/-- A function being executed. -/
structure Config (V σ : Type) where
  block : ℕ
  index : ℕ
  regs : ℕ → Option V
  state : σ

/-- The values of phis for the block that control comes from; all are read before one is written. -/
def phiValues (phis : List (Phi V)) (source : ℕ) (regs : ℕ → Option V) : Option (List (ℕ × V)) :=
  phis.mapM fun φ => (φ.incoming.lookup source).bind fun x => (x.value regs).map fun v => (φ.result, v)

def assign (regs : ℕ → Option V) (values : List (ℕ × V)) : ℕ → Option V :=
  values.foldl (fun regs p => Function.update regs p.1 (some p.2)) regs

/-- Control goes to a block. -/
def enter (F : ℕ → Block V O) (target : ℕ) (c : Config V σ) : Option (Config V σ) :=
  (phiValues (F target).phis c.block c.regs).map fun values => ⟨target, 0, assign c.regs values, c.state⟩

variable (S : Semantics V O σ)

/-- A block is left. -/
def leave (F : ℕ → Block V O) (c : Config V σ) : Terminator V → Option (Config V σ)
  | .br b => enter F b c
  | .condBr x b b' => (x.value c.regs).bind fun v => (S.truth v).bind fun t => enter F (if t then b else b') c

/-- A step; there is none where the code ends or has no defined meaning. -/
def step (F : ℕ → Block V O) (c : Config V σ) : Option (Config V σ) :=
  match (F c.block).body[c.index]? with
  | some i => do
    let values ← i.args.mapM (Operand.value c.regs)
    let (v, state) ← S.apply i.op values c.state
    pure { c with index := c.index + 1, regs := Function.update c.regs i.result (some v), state := state }
  | none => (F c.block).terminator.bind (leave S F c)

/-- Steps lead from one configuration to another. -/
def Runs (F : ℕ → Block V O) : Config V σ → Config V σ → Prop := Relation.ReflTransGen fun c c' => step S F c = some c'

/-- Control is where the builder inserts. -/
def At (B : Builder V O) (c : Config V σ) : Prop := c.block = B.insertBlock ∧ c.index = B.here.body.length

/-- An instruction is next, and has no defined meaning. -/
def Stuck (F : ℕ → Block V O) (c : Config V σ) : Prop := c.index < (F c.block).body.length ∧ step S F c = none

variable {S} {F : ℕ → Block V O} {c c' c'' : Config V σ}

theorem Runs.refl (c : Config V σ) : Runs S F c c := Relation.ReflTransGen.refl

theorem Runs.trans (h : Runs S F c c') (h' : Runs S F c' c'') : Runs S F c c'' := Relation.ReflTransGen.trans h h'

theorem Runs.single (h : step S F c = some c') : Runs S F c c' := Relation.ReflTransGen.single h

/-- There is one run: two configurations that it comes to, come one before the other. -/
theorem Runs.total (h : Runs S F c c') (h' : Runs S F c c'') : Runs S F c' c'' ∨ Runs S F c'' c' := by
  refine Relation.ReflTransGen.total_of_right_unique ?_ h h'
  intro a b b' hb hb'
  exact Option.some_inj.mp (hb.symm.trans hb')

/-- Where there is no further step, nothing else is reached. -/
theorem Runs.eq_of_none (h : step S F c = none) (hruns : Runs S F c c') : c' = c := by
  rcases Relation.ReflTransGen.cases_head hruns with heq | ⟨d, hstep, _⟩
  · exact heq.symm
  · rw [h] at hstep
    cases hstep

theorem Runs.eq_of_ends (h : Runs S F c c') (h' : Runs S F c c'') (hend : step S F c' = none) (hend' : step S F c'' = none) :
    c' = c'' := by
  rcases h.total h' with hlater | hlater
  · exact (hlater.eq_of_none hend).symm
  · exact hlater.eq_of_none hend'

theorem step_instr {i : Instr V O} (h : (F c.block).body[c.index]? = some i) :
    step S F c = (i.args.mapM (Operand.value c.regs)).bind fun values => (S.apply i.op values c.state).bind fun r =>
      some { c with index := c.index + 1, regs := Function.update c.regs i.result (some r.1), state := r.2 } := by
  unfold step
  rw [h]
  rfl

theorem step_terminator {t : Terminator V} (hindex : c.index = (F c.block).body.length) (h : (F c.block).terminator = some t) :
    step S F c = leave S F c t := by
  unfold step
  rw [List.getElem?_eq_none hindex.ge, h]
  rfl

theorem enter_plain {k : ℕ} (h : (F k).phis = []) : enter F k c = some ⟨k, 0, c.regs, c.state⟩ := by
  unfold enter
  rw [h]
  rfl

/-! ## What emitters do -/

/-- An emitter appends code, and leaves its value. -/
abbrev Emitter (V O : Type) := Builder V O → Operand V × Builder V O

/-- One emitter after another. -/
def seq (e : Emitter V O) (k : Operand V → Emitter V O) : Emitter V O := fun B => k (e B).1 (e B).2

def emitInstr (op : O) (args : List (Operand V)) : Emitter V O := fun B => (.reg B.regs, B.instr op args)

/-- The emitter keeps the builder sound and what has been emitted, where these operands are known. -/
def Builds (known : List (Operand V)) (e : Emitter V O) : Prop :=
  ∀ B : Builder V O, B.Sound → (∀ x ∈ known, x.Below B.regs) →
    (e B).2.Sound ∧ B.Grows (e B).2 ∧ (e B).1.Below (e B).2.regs

variable (S) in
/-- From where the code of an emitter begins, the machine comes to where it ends, with the value and the state that are
told; or to an instruction without a defined meaning, if nothing is. -/
def Comes (F : ℕ → Block V O) (B : Builder V O) (x : Operand V) (n : ℕ) (c : Config V σ) : Option (V × σ) → Prop
  | some (v, state) => ∃ c', Runs S F c c' ∧ At B c' ∧ c'.state = state ∧ x.value c'.regs = some v ∧ Agree n c.regs c'.regs
  | none => ∃ c', Runs S F c c' ∧ Stuck S F c'

variable (S) in
/-- **What the code of an emitter does**, where some operands have known values: in every function with this code. -/
def Means (known : List (Operand V × V)) (e : Emitter V O) (m : σ → Option (V × σ)) : Prop :=
  ∀ B : Builder V O, B.Sound → (∀ p ∈ known, p.1.Below B.regs) → ∀ F, B.Hosts (e B).2 F →
    ∀ c : Config V σ, At B c → (∀ p ∈ known, p.1.value c.regs = some p.2) → Comes S F (e B).2 (e B).1 B.regs c (m c.state)

theorem Builds.instr (known : List (Operand V)) (op : O) (args : List (Operand V)) : Builds known (emitInstr op args) :=
  fun B hB _ => ⟨hB.instr op args, Builder.grows_instr B op args, Nat.lt_succ_self _⟩

theorem Builds.seq {known : List (Operand V)} {e : Emitter V O} {k : Operand V → Emitter V O} (he : Builds known e)
    (hk : ∀ x, Builds (x :: known) (k x)) : Builds known (seq e k) := by
  intro B hB hknown
  obtain ⟨hB₁, hgrows₁, hbelow⟩ := he B hB hknown
  obtain ⟨hB₂, hgrows₂, hx⟩ := hk (e B).1 (e B).2 hB₁ (List.forall_mem_cons.mpr
    ⟨hbelow, fun x hx => (hknown x hx).mono hgrows₁.regs⟩)
  exact ⟨hB₂, hgrows₁.trans hB hgrows₂, hx⟩

theorem Builds.mono {known known' : List (Operand V)} {e : Emitter V O} (h : Builds known e) (hsub : known ⊆ known') :
    Builds known' e := fun B hB hknown => h B hB fun x hx => hknown x (hsub hx)

theorem Means.mono {known known' : List (Operand V × V)} {e : Emitter V O} {m : σ → Option (V × σ)} (h : Means S known e m)
    (hsub : known ⊆ known') : Means S known' e m :=
  fun B hB hbelow F hF c hc hknown => h B hB (fun p hp => hbelow p (hsub hp)) F hF c hc fun p hp => hknown p (hsub hp)

/-- Where the code of an emitter ends, there is no further step in the function that has been built. -/
theorem step_at {B : Builder V O} (hB : B.Sound) {c : Config V σ} (hc : At B c) : step S B.blocks c = none := by
  obtain ⟨hblock, hindex⟩ := hc
  unfold step
  have hhere : B.blocks c.block = B.here := congrArg B.blocks hblock
  rw [hhere, List.getElem?_eq_none hindex.ge, hB.unfinished]
  rfl

theorem At.not_stuck {B : Builder V O} {c : Config V σ} (hc : At B c) : ¬Stuck S B.blocks c := by
  obtain ⟨hblock, hindex⟩ := hc
  rintro ⟨hlt, _⟩
  rw [hblock, hindex] at hlt
  exact absurd hlt (lt_irrefl _)

/-- **The code of an emitter ends** exactly if its meaning is defined. -/
theorem Means.ends_iff {e : Emitter V O} {m : σ → Option (V × σ)} (hbuilds : Builds [] e) (h : Means S [] e m) {B : Builder V O}
    (hB : B.Sound) {c : Config V σ} (hc : At B c) :
    (∃ c', Runs S (e B).2.blocks c c' ∧ At (e B).2 c') ↔ (m c.state).isSome := by
  have hsound := (hbuilds B hB (List.forall_mem_nil _)).1
  have hmeans := h B hB (List.forall_mem_nil _) _ ((Builder.Within.refl _).hosts B) c hc (List.forall_mem_nil _)
  cases hm : m c.state with
  | some r =>
    rw [hm] at hmeans
    obtain ⟨c', hruns, hat, _⟩ := hmeans
    exact ⟨fun _ => rfl, fun _ => ⟨c', hruns, hat⟩⟩
  | none =>
    rw [hm] at hmeans
    obtain ⟨c'', hruns'', hstuck⟩ := hmeans
    refine ⟨?_, fun h => by cases h⟩
    rintro ⟨c', hruns, hat⟩
    have heq := hruns.eq_of_ends hruns'' (step_at hsound hat) hstuck.2
    exact absurd (heq ▸ hstuck) hat.not_stuck

/-- In the function that has been built, the code comes to one end. -/
theorem Comes.unique {B : Builder V O} (hB : B.Sound) {x : Operand V} {n : ℕ} {c : Config V σ} {o o' : Option (V × σ)}
    (h : Comes S B.blocks B x n c o) (h' : Comes S B.blocks B x n c o') : o = o' := by
  cases o with
  | none =>
    obtain ⟨d, hruns, hstuck⟩ := h
    cases o' with
    | none => rfl
    | some r' =>
      obtain ⟨d', hruns', hat, _⟩ := h'
      have heq := hruns'.eq_of_ends hruns (step_at hB hat) hstuck.2
      exact absurd (heq ▸ hstuck) hat.not_stuck
  | some r =>
    obtain ⟨d, hruns, hat, hstate, hvalue, _⟩ := h
    cases o' with
    | none =>
      obtain ⟨d', hruns', hstuck⟩ := h'
      have heq := hruns.eq_of_ends hruns' (step_at hB hat) hstuck.2
      exact absurd (heq ▸ hstuck) hat.not_stuck
    | some r' =>
      obtain ⟨d', hruns', hat', hstate', hvalue', _⟩ := h'
      have heq := hruns.eq_of_ends hruns' (step_at hB hat) (step_at hB hat')
      subst heq
      rw [hvalue] at hvalue'
      exact congrArg some (Prod.ext (Option.some_inj.mp hvalue') (hstate.symm.trans hstate'))

/-- What is done at the insertion point, where the function goes on as the builder does. -/
theorem Means.instr {known : List (Operand V × V)} {op : O} {args : List (Operand V)} {values : List V}
    (hargs : List.Forall₂ (fun x v => (x, v) ∈ known) args values) :
    Means S known (emitInstr op args) (S.apply op values) := by
  intro B hB hbelow F hF c hc hknown
  obtain ⟨hblock, hindex⟩ := hc
  have hnext : (F c.block).body[c.index]? = some ⟨B.regs, op, args⟩ := by
    obtain ⟨rest, hrest⟩ := hF.body
    have hhere : (emitInstr op args B).2.here.body = B.here.body ++ [⟨B.regs, op, args⟩] :=
      congrArg Block.body (Builder.here_instr B op args)
    rw [hhere] at hrest
    show (F c.block).body[c.index]? = _
    rw [hblock, hindex]
    show (F (emitInstr op args B).2.insertBlock).body[_]? = _
    rw [← hrest, List.append_assoc, List.getElem?_append_right le_rfl, Nat.sub_self]
    rfl
  have hvalues : args.mapM (Operand.value c.regs) = some values :=
    Effect.mapM_some_iff.mpr (hargs.imp fun x v hmem => hknown (x, v) hmem)
  have hstep := step_instr (S := S) hnext
  rw [hvalues, Option.bind_some] at hstep
  dsimp only at hstep
  cases happly : S.apply op values c.state with
  | none =>
    rw [happly] at hstep
    exact ⟨c, Runs.refl c, (List.getElem?_eq_some_iff.mp hnext).1, hstep⟩
  | some r =>
    rw [happly] at hstep
    refine ⟨_, Runs.single hstep, ⟨hblock, ?_⟩, rfl, Function.update_self _ _ _, (Agree.refl _ _).update le_rfl _⟩
    show c.index + 1 = (emitInstr op args B).2.here.body.length
    rw [show (emitInstr op args B).2.here.body = B.here.body ++ [⟨B.regs, op, args⟩] from
      congrArg Block.body (Builder.here_instr B op args), List.length_append, hindex]
    rfl

theorem Means.seq {known : List (Operand V × V)} {e : Emitter V O} {k : Operand V → Emitter V O} {m : σ → Option (V × σ)}
    {n : V → σ → Option (V × σ)} (he : Means S known e m) (hbuilds : Builds (known.map Prod.fst) e)
    (hbuilds' : ∀ x, Builds (x :: known.map Prod.fst) (k x))
    (hk : ∀ x v, (∃ state state', m state = some (v, state')) → Means S ((x, v) :: known) (k x) (n v)) :
    Means S known (seq e k) fun state => (m state).bind fun r => n r.1 r.2 := by
  intro B hB hbelow F hF c hc hknown
  have hbelow' : ∀ x ∈ known.map Prod.fst, x.Below B.regs := by
    intro x hx
    obtain ⟨p, hp, rfl⟩ := List.mem_map.mp hx
    exact hbelow p hp
  obtain ⟨hB₁, hgrows₁, hx⟩ := hbuilds B hB hbelow'
  have hmore : ∀ x ∈ (e B).1 :: known.map Prod.fst, x.Below (e B).2.regs :=
    List.forall_mem_cons.mpr ⟨hx, fun x hx => (hbelow' x hx).mono hgrows₁.regs⟩
  obtain ⟨hB₂, hgrows₂, _⟩ := hbuilds' (e B).1 (e B).2 hB₁ hmore
  have hfirst := he B hB hbelow F (hF.first hB₁ hgrows₁ hgrows₂) c hc hknown
  show Comes S F (Ssa.seq e k B).2 (Ssa.seq e k B).1 B.regs c ((m c.state).bind fun r => n r.1 r.2)
  cases hm : m c.state with
  | none =>
    rw [hm] at hfirst
    exact hfirst
  | some r =>
    rw [hm] at hfirst
    obtain ⟨c₁, hruns₁, hat₁, hstate₁, hvalue₁, hagree₁⟩ := hfirst
    have hknown₁ : ∀ p ∈ ((e B).1, r.1) :: known, p.1.value c₁.regs = some p.2 := by
      refine List.forall_mem_cons.mpr ⟨hvalue₁, fun p hp => ?_⟩
      rw [hagree₁.value (hbelow p hp)]
      exact hknown p hp
    have hbelow₁ : ∀ p ∈ ((e B).1, r.1) :: known, p.1.Below (e B).2.regs :=
      List.forall_mem_cons.mpr ⟨hx, fun p hp => (hbelow p hp).mono hgrows₁.regs⟩
    have hsecond := hk (e B).1 r.1 ⟨_, _, hm⟩ (e B).2 hB₁ hbelow₁ F (hF.second hgrows₁) c₁ hat₁ hknown₁
    rw [hstate₁] at hsecond
    rw [Option.bind_some]
    cases hn : n r.1 r.2 with
    | none =>
      rw [hn] at hsecond
      obtain ⟨c₂, hruns₂, hstuck⟩ := hsecond
      exact ⟨c₂, hruns₁.trans hruns₂, hstuck⟩
    | some r' =>
      rw [hn] at hsecond
      obtain ⟨c₂, hruns₂, hat₂, hstate₂, hvalue₂, hagree₂⟩ := hsecond
      exact ⟨c₂, hruns₁.trans hruns₂, hat₂, hstate₂, hvalue₂, hagree₁.trans hagree₂ hgrows₁.regs⟩

end Visuall.Ssa
