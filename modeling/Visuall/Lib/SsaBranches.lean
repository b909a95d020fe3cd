import Visuall.Lib.Ssa

/-!
# Branches in single-assignment form

Emitters for code of which a part is jumped over, or one of two parts is executed.

* `Builder.leaveTo`, `Builder.phi` — finishing a block, and joining values;
* `Builder.Sealed` — what has been emitted is in a function, and the block where it ended is finished;
* `shortCircuit`, `choose`, `emitConvert` — the emitters, and what they do: `Means.shortCircuit`, `Means.choose`,
  `Means.convert`.
-/

namespace Visuall.Ssa

variable {V O σ : Type}

namespace Builder

variable (B : Builder V O)

/-- The insertion block is finished, and another block is inserted into. -/
def leaveTo (t : Terminator V) (b : ℕ) : Builder V O := (B.terminate t).setInsertPoint b

/-- A new phi in the insertion block with its incoming values; its result is the register `B.regs`. -/
def phi (incoming : List (ℕ × Operand V)) : Builder V O :=
  { B with
    blocks := Function.update B.blocks B.insertBlock { B.here with phis := B.here.phis ++ [⟨B.regs, incoming⟩] }
    regs := B.regs + 1 }

variable {B} {A B' B'' s : Builder V O}

theorem Sound.leaveTo (h : Sound B) {t : Terminator V} (ht : ∀ k ∈ t.targets, k < B.count) {b : ℕ} (hb : b < B.count)
    (hne : b ≠ B.insertBlock) (hopen : (B.blocks b).terminator = none) : Sound (B.leaveTo t b) where
  inserted := hb
  unfinished := by
    show (Function.update B.blocks B.insertBlock _ b).terminator = none
    rw [Function.update_of_ne hne]
    exact hopen
  fresh k hk := by
    have hother : k ≠ B.insertBlock := (lt_of_lt_of_le h.inserted hk).ne'
    exact (Function.update_of_ne hother _ _).trans (h.fresh k hk)
  targets k t' ht' := by
    have hnew : (Function.update B.blocks B.insertBlock { B.here with terminator := some t } k).terminator = some t' := ht'
    by_cases hk : k = B.insertBlock
    · rw [hk, Function.update_self] at hnew
      cases hnew
      exact ht
    · rw [Function.update_of_ne hk] at hnew
      exact h.targets k t' hnew

theorem Sound.phi (h : Sound B) (incoming : List (ℕ × Operand V)) : Sound (B.phi incoming) where
  inserted := h.inserted
  unfinished := by
    show (Function.update B.blocks B.insertBlock _ B.insertBlock).terminator = none
    rw [Function.update_self]
    exact h.unfinished
  fresh b hb := (Function.update_of_ne (lt_of_lt_of_le h.inserted hb).ne' _ _).trans (h.fresh b hb)
  targets b t ht := by
    refine h.targets b t ?_
    by_cases hb : b = B.insertBlock
    · have hself : (B.phi incoming).blocks b = { B.here with phis := B.here.phis ++ [⟨B.regs, incoming⟩] } :=
        hb ▸ Function.update_self _ _ _
      rw [hself] at ht
      exact hb ▸ ht
    · have hother : (B.phi incoming).blocks b = B.blocks b := Function.update_of_ne hb _ _
      rwa [hother] at ht

/-- Blocks that have been created since are left for. -/
theorem Grows.leaveTo (h : Grows A B) (t : Terminator V) {b : ℕ} (hb : A.count ≤ b) : Grows A (B.leaveTo t b) := by
  have hother : ∀ k, k < A.count → k ≠ A.insertBlock → k ≠ B.insertBlock := by
    rintro k hk hne rfl
    rcases h.moved with heq | ⟨hle, _⟩
    · exact hne heq
    · omega
  have hhere : (B.leaveTo t b).blocks A.insertBlock = B.blocks A.insertBlock ∨
      (B.leaveTo t b).blocks A.insertBlock = { B.blocks A.insertBlock with terminator := some t } := by
    by_cases heq : A.insertBlock = B.insertBlock
    · right
      show Function.update B.blocks B.insertBlock _ A.insertBlock = _
      rw [heq, Function.update_self]
      rfl
    · exact .inl (Function.update_of_ne heq _ _)
  refine ⟨h.count, h.regs, fun k hk hne => ?_, ?_, ?_, .inr ⟨hb, ?_⟩⟩
  · exact (Function.update_of_ne (hother k hk hne) _ _).trans (h.others k hk hne)
  · rcases hhere with heq | heq <;> rw [heq] <;> exact h.phis
  · rcases hhere with heq | heq <;> rw [heq] <;> exact h.body
  · rcases h.moved with heq | ⟨hle, hdone⟩
    · show (Function.update B.blocks B.insertBlock _ A.insertBlock).terminator.isSome = true
      rw [← heq, Function.update_self]
      rfl
    · rcases hhere with heq | heq <;> rw [heq]
      · exact hdone
      · rfl

theorem Grows.phi (hA : Sound A) (h : Grows A B) (hB : A.count ≤ B.insertBlock) (incoming : List (ℕ × Operand V)) :
    Grows A (B.phi incoming) := by
  have hkept : ∀ b, b < A.count → (B.phi incoming).blocks b = B.blocks b := fun b hb =>
    Function.update_of_ne (lt_of_lt_of_le hb hB).ne _ _
  have hhere := hkept _ hA.inserted
  exact ⟨h.count, h.regs.trans (Nat.le_succ _), fun b hb hne => (hkept b hb).trans (h.others b hb hne),
    (congrArg Block.phis hhere).trans h.phis, hhere ▸ h.body, h.moved.imp_right fun hmoved => hhere ▸ hmoved⟩

/-! ### Blocks that wait -/

/-- A block has been created, and nothing is in it yet. -/
structure Waiting (B : Builder V O) (b : ℕ) : Prop where
  lt : b < B.count
  ne : b ≠ B.insertBlock
  empty : B.blocks b = {}

theorem Sound.waiting (h : Sound B) : Waiting B.createBlock B.count where
  lt := Nat.lt_succ_self _
  ne := h.inserted.ne'
  empty := h.fresh _ le_rfl

namespace Waiting

variable {b : ℕ}

theorem createBlock (h : Waiting B b) : Waiting B.createBlock b := ⟨Nat.lt_succ_of_lt h.lt, h.ne, h.empty⟩

theorem grows (h : Waiting B b) (hgrows : Grows B B') : Waiting B' b where
  lt := lt_of_lt_of_le h.lt hgrows.count
  ne := by
    rcases hgrows.moved with heq | ⟨hle, _⟩
    · exact heq ▸ h.ne
    · exact (lt_of_lt_of_le h.lt hle).ne
  empty := (hgrows.others b h.lt h.ne).trans h.empty

theorem leaveTo (h : Waiting B b) {k : ℕ} (hk : b ≠ k) (t : Terminator V) : Waiting (B.leaveTo t k) b where
  lt := h.lt
  ne := hk
  empty := (Function.update_of_ne h.ne _ _).trans h.empty

theorem sound_leaveTo (h : Waiting B b) (hB : Sound B) {t : Terminator V} (ht : ∀ k ∈ t.targets, k < B.count) :
    Sound (B.leaveTo t b) := hB.leaveTo ht h.lt h.ne (by rw [h.empty])

theorem here_leaveTo (h : Waiting B b) (t : Terminator V) : (B.leaveTo t b).here = {} :=
  (Function.update_of_ne h.ne _ _).trans h.empty

end Waiting

/-- Emission that goes on in new blocks stays in such. -/
theorem Grows.le_insertBlock (h : Grows A s) (hs : A.count ≤ s.insertBlock) (h' : Grows s B) : A.count ≤ B.insertBlock := by
  rcases h'.own with heq | hle
  · exact heq ▸ hs
  · exact h.count.trans hle

theorem here_phi (h : B.here = {}) (incoming : List (ℕ × Operand V)) :
    (B.phi incoming).here = { phis := [⟨B.regs, incoming⟩] } := by
  show Function.update B.blocks B.insertBlock { B.here with phis := B.here.phis ++ [⟨B.regs, incoming⟩] } B.insertBlock = _
  rw [Function.update_self, h]
  rfl

/-! ### What stays as it is -/

/-- Finished blocks are kept. -/
def Keeps (B B' : Builder V O) : Prop :=
  B.count ≤ B'.count ∧ ∀ b < B.count, (B.blocks b).terminator.isSome = true → B'.blocks b = B.blocks b

theorem Keeps.trans (h : Keeps B B') (h' : Keeps B' B'') : Keeps B B'' :=
  ⟨h.1.trans h'.1, fun b hb hdone => by
    rw [h'.2 b (lt_of_lt_of_le hb h.1) (h.2 b hb hdone ▸ hdone), h.2 b hb hdone]⟩

theorem Sound.ne_of_finished (h : Sound B) {b : ℕ} (hdone : (B.blocks b).terminator.isSome = true) : b ≠ B.insertBlock := by
  rintro rfl
  rw [← here, h.unfinished] at hdone
  exact Bool.false_ne_true hdone

theorem Grows.keeps (hB : Sound B) (h : Grows B B') : Keeps B B' :=
  ⟨h.count, fun b hb hdone => h.others b hb (hB.ne_of_finished hdone)⟩

theorem Sound.keeps_leaveTo (h : Sound B) (t : Terminator V) (k : ℕ) : Keeps B (B.leaveTo t k) :=
  ⟨le_rfl, fun _ _ hdone => Function.update_of_ne (h.ne_of_finished hdone) _ _⟩

theorem Sound.keeps_phi (h : Sound B) (incoming : List (ℕ × Operand V)) : Keeps B (B.phi incoming) :=
  ⟨le_rfl, fun _ _ hdone => Function.update_of_ne (h.ne_of_finished hdone) _ _⟩

/-- What emission from `s` to `B` has filled is in a function as it is, but that the block where it ended is finished. -/
structure Sealed (s B : Builder V O) (t : Terminator V) (F : ℕ → Block V O) : Prop where
  finished : ∀ b, s.Own b → b < B.count → (B.blocks b).terminator.isSome = true → F b = B.blocks b
  here : F B.insertBlock = { B.here with terminator := some t }

theorem Sealed.hosts {t : Terminator V} {F : ℕ → Block V O} (h : Sealed s B t F) : Hosts s B F where
  finished := h.finished
  phis := by rw [h.here]
  body := by rw [h.here]

/-- What has been emitted and left on the way is in every function with the whole. -/
theorem Sealed.of_keeps {t : Terminator V} {k : ℕ} {F : ℕ → Block V O} (hs : Grows A s) (hB : Sound B) (hgrows : Grows s B)
    (hkeeps : Keeps (B.leaveTo t k) B') (hF : Hosts A B' F) : Sealed s B t F := by
  have hin : ∀ b, s.Own b → b < B.count → ((B.leaveTo t k).blocks b).terminator.isSome = true →
      F b = (B.leaveTo t k).blocks b := by
    intro b hown hb hdone
    have heq := hkeeps.2 b hb hdone
    rw [hF.finished b (hs.own_of_own hown) (lt_of_lt_of_le hb hkeeps.1) (heq ▸ hdone), heq]
  have hlast : (B.leaveTo t k).blocks B.insertBlock = { B.here with terminator := some t } := Function.update_self _ _ _
  refine ⟨fun b hown hb hdone => ?_, ?_⟩
  · have heq : (B.leaveTo t k).blocks b = B.blocks b := Function.update_of_ne (hB.ne_of_finished hdone) _ _
    rw [hin b hown hb (heq ▸ hdone), heq]
  · rw [hin _ hgrows.own hB.inserted (by rw [hlast]; rfl), hlast]

/-- Where emission goes on, nothing is inserted where it has left. -/
theorem Keeps.ne {t : Terminator V} {k : ℕ} (hB : Sound B) (hB' : Sound B') (h : Keeps (B.leaveTo t k) B') :
    B'.insertBlock ≠ B.insertBlock := by
  have hlast : (B.leaveTo t k).blocks B.insertBlock = { B.here with terminator := some t } := Function.update_self _ _ _
  refine (hB'.ne_of_finished ?_).symm
  rw [h.2 _ hB.inserted (by rw [hlast]; rfl), hlast]
  rfl

/-- A block that code begins in has the phis that it had. -/
theorem Hosts.start_phis {F : ℕ → Block V O} (hs : Sound s) (hgrows : Grows s B) (hF : Hosts s B F) :
    (F s.insertBlock).phis = s.here.phis := by
  rcases hgrows.moved with heq | ⟨_, hdone⟩
  · rw [← heq, hF.phis, Builder.here, heq, hgrows.phis]
  · rw [hF.finished _ (.inl rfl) (lt_of_lt_of_le hs.inserted hgrows.count) hdone, hgrows.phis]

end Builder

/-! ## Going on -/

section Going

variable {S : Semantics V O σ} {F : ℕ → Block V O} {c c' : Config V σ}

/-- A block that joins values is entered with the one of the block that control comes from. -/
theorem enter_phi {k r source : ℕ} {incoming : List (ℕ × Operand V)} {x : Operand V} {v : V} (h : (F k).phis = [⟨r, incoming⟩])
    (hblock : c.block = source) (hx : incoming.lookup source = some x) (hv : x.value c.regs = some v) :
    enter F k c = some ⟨k, 0, Function.update c.regs r (some v), c.state⟩ := by
  unfold enter phiValues
  rw [h, List.mapM_cons, List.mapM_nil, hblock]
  dsimp only
  rw [hx, Option.bind_some, hv]
  rfl

/-- Where emitted code is left. -/
theorem step_sealed {s B : Builder V O} {t : Terminator V} (h : Builder.Sealed s B t F) (hc : At B c) :
    step S F c = leave S F c t := by
  obtain ⟨hblock, hindex⟩ := hc
  refine step_terminator ?_ ?_
  · rw [hblock, h.here]
    exact hindex
  · rw [hblock, h.here]

/-- A conditional branch goes to the first block if the condition is `b`. -/
theorem leave_on {x : Operand V} {v : V} {t : Bool} (hx : x.value c.regs = some v) (ht : S.truth v = some t) (b : Bool)
    (k k' : ℕ) : leave S F c (if b then .condBr x k k' else .condBr x k' k) = enter F (if t = b then k else k') c := by
  have hon : ∀ j j' : ℕ, leave S F c (.condBr x j j') = enter F (if t then j else j') c := by
    intro j j'
    show (x.value c.regs).bind _ = _
    rw [hx, Option.bind_some, ht, Option.bind_some]
  cases b <;> cases t <;> exact hon _ _

end Going

/-! ## Parts that are executed or not -/

/-- A part: from where a block `k` that waits is gone to, to where a value `y` has been emitted. -/
structure Part (known : List (Operand V)) (A s B : Builder V O) (k merge : ℕ) (y : Operand V) : Prop where
  begun : s.insertBlock = k ∧ s.here = {}
  start_sound : s.Sound
  sound : B.Sound
  start : A.Grows s
  grows : s.Grows B
  below : ∀ x ∈ known, x.Below s.regs
  merge : B.Waiting merge
  value_below : y.Below B.regs

section Parts

variable {known : List (Operand V)} {e : Emitter V O} {A B s B' E : Builder V O} {k merge : ℕ} {y : Operand V}
  {S : Semantics V O σ} {F : ℕ → Block V O} {c c' : Config V σ} {incoming : List (ℕ × Operand V)}

theorem Part.of_waiting (he : Builds known e) (hA : A.Grows B) (hB : B.Sound)
    (hknown : ∀ x ∈ known, x.Below A.regs) (hk : B.Waiting k) (hle : A.count ≤ k) (hmerge : B.Waiting merge) (hne : merge ≠ k)
    {t : Terminator V} (ht : ∀ j ∈ t.targets, j < B.count) :
    Part known A (B.leaveTo t k) (e (B.leaveTo t k)).2 k merge (e (B.leaveTo t k)).1 := by
  have hs := hk.sound_leaveTo hB ht
  have hgrows := hA.leaveTo t hle
  have hbelow : ∀ x ∈ known, x.Below (B.leaveTo t k).regs := fun x hx => (hknown x hx).mono hgrows.regs
  obtain ⟨hsound, hgrows', hvalue⟩ := he _ hs hbelow
  exact ⟨⟨rfl, hk.here_leaveTo t⟩, hs, hsound, hgrows, hgrows', hbelow, (hmerge.leaveTo hne t).grows hgrows', hvalue⟩

theorem Part.sound_merge (h : Part known A s B k merge y) : (B.leaveTo (.br merge) merge).Sound :=
  h.merge.sound_leaveTo h.sound (List.forall_mem_singleton.mpr h.merge.lt)

theorem Part.keeps_end (h : Part known A s B k merge y) (incoming : List (ℕ × Operand V)) :
    Builder.Keeps B ((B.leaveTo (.br merge) merge).phi incoming) :=
  (h.sound.keeps_leaveTo _ _).trans (h.sound_merge.keeps_phi _)

theorem Part.at_start (h : Part known A s B k merge y) (regs : ℕ → Option V) (state : σ) : At s ⟨k, 0, regs, state⟩ :=
  ⟨h.begun.1.symm, by rw [h.begun.2]; rfl⟩

theorem Part.start_phis (h : Part known A s B k merge y) (hF : s.Hosts B F) : (F k).phis = [] := by
  have hphis := Builder.Hosts.start_phis h.start_sound h.grows hF
  rwa [h.begun.1, h.begun.2] at hphis

theorem Part.at_merge (h : Part known A s B k merge y) (incoming : List (ℕ × Operand V)) (regs : ℕ → Option V) (state : σ) :
    At ((B.leaveTo (.br merge) merge).phi incoming) ⟨merge, 0, regs, state⟩ :=
  ⟨rfl, by rw [Builder.here_phi (h.merge.here_leaveTo _)]; rfl⟩

theorem Part.merge_phis (h : Part known A s B k merge y)
    (hF : A.Hosts ((B.leaveTo (.br merge) merge).phi incoming) F) : (F merge).phis = [⟨B.regs, incoming⟩] := by
  have hphis := hF.phis
  rwa [Builder.here_phi (h.merge.here_leaveTo _)] at hphis

/-- What has been done before. -/
theorem Comes.of_runs {x : Operand V} {n n' : ℕ} {m : Option (V × σ)} (hto : Runs S F c c') (hagree : Agree n c.regs c'.regs)
    (hn : n ≤ n') (h : Comes S F B x n' c' m) : Comes S F B x n c m := by
  cases m with
  | none =>
    obtain ⟨d, hruns, hstuck⟩ := h
    exact ⟨d, hto.trans hruns, hstuck⟩
  | some p =>
    obtain ⟨d, hruns, hat, hstate, hvalue, hagree'⟩ := h
    exact ⟨d, hto.trans hruns, hat, hstate, hvalue, hagree.trans hagree' hn⟩

/-- Where a part has been executed, its value is joined. -/
theorem Comes.join {n result : ℕ} {m : Option (V × σ)} (hsealed : Builder.Sealed s B (.br merge) F)
    (hphis : (F merge).phis = [⟨result, incoming⟩]) (hlookup : incoming.lookup B.insertBlock = some y)
    (hend : ∀ regs state, At E (⟨merge, 0, regs, state⟩ : Config V σ)) (hresult : n ≤ result) (h : Comes S F B y n c m) :
    Comes S F E (.reg result) n c m := by
  cases m with
  | none => exact h
  | some p =>
    obtain ⟨d, hruns, hat, hstate, hvalue, hagree⟩ := h
    have henter := (step_sealed (S := S) hsealed hat).trans (enter_phi hphis hat.1 hlookup hvalue)
    exact ⟨_, hruns.trans (Runs.single henter), hend _ _, hstate, Function.update_self _ _ _, hagree.update hresult _⟩

/-- A part is executed from where its block is gone to. -/
theorem Part.comes (h : Part known A s B k merge y) {knowns : List (Operand V × V)} {m : σ → Option (V × σ)}
    (hknowns : knowns.map Prod.fst = known) (he : Means S knowns e m) (hB : (e s).2 = B) (hy : (e s).1 = y)
    (hF : s.Hosts B F) (hto : step S F c = enter F k c) (hvalues : ∀ p ∈ knowns, p.1.value c.regs = some p.2) :
    Comes S F B y A.regs c (m c.state) := by
  subst hB hy hknowns
  rw [enter_plain (h.start_phis hF)] at hto
  exact .of_runs (Runs.single hto) (Agree.refl _ _) h.start.regs
    (he s h.start_sound (List.forall_mem_map.mp h.below) F hF _ (h.at_start _ _) hvalues)

end Parts

/-! ## One part is jumped over -/

/-- `right` is executed where the value of `left` is `b`; its value is taken then, and that of `other` otherwise. -/
def shortCircuit (b : Bool) (other : Operand V) (left right : Emitter V O) : Emitter V O := fun B =>
  let rhsBB := B.count
  let mergeBB := B.count + 1
  let (l, B₁) := left B.createBlock.createBlock
  let (r, B₂) := right (B₁.leaveTo (if b then .condBr l rhsBB mergeBB else .condBr l mergeBB rhsBB) rhsBB)
  let B₃ := B₂.leaveTo (.br mergeBB) mergeBB
  (.reg B₃.regs, B₃.phi [(B₁.insertBlock, other), (B₂.insertBlock, r)])

section ShortCircuit

variable {known : List (Operand V)} {left right : Emitter V O} {B : Builder V O}

/-- The builders in front of `left` and behind it, and `right`. -/
theorem shortCircuit_parts (hl : Builds known left) (hr : Builds known right) (b : Bool) (hB : B.Sound)
    (hknown : ∀ x ∈ known, x.Below B.regs) :
    let B₀ := B.createBlock.createBlock
    let t : Terminator V := if b then .condBr (left B₀).1 B.count (B.count + 1) else .condBr (left B₀).1 (B.count + 1) B.count
    let s := (left B₀).2.leaveTo t B.count
    (B₀.Sound ∧ B.Grows B₀ ∧ (left B₀).2.Sound ∧ B₀.Grows (left B₀).2) ∧
      Part known B s (right s).2 B.count (B.count + 1) (right s).1 := by
  intro B₀ t s
  have hB₀ : B₀.Sound := hB.createBlock.createBlock
  have hgrows₀ : B.Grows B₀ := (Builder.grows_createBlock B).trans hB (Builder.grows_createBlock _)
  obtain ⟨hB₁, hgrows₁, _⟩ := hl B₀ hB₀ hknown
  have hrhs : (left B₀).2.Waiting B.count := hB.waiting.createBlock.grows hgrows₁
  have hmerge : (left B₀).2.Waiting (B.count + 1) := hB.createBlock.waiting.grows hgrows₁
  have htargets : ∀ k ∈ t.targets, k < (left B₀).2.count := by
    intro k hk
    have hmem : k = B.count ∨ k = B.count + 1 := by
      cases b with
      | true => exact List.mem_pair.mp hk
      | false => exact (List.mem_pair.mp hk).symm
    rcases hmem with rfl | rfl
    · exact hrhs.lt
    · exact hmerge.lt
  exact ⟨⟨hB₀, hgrows₀, hB₁, hgrows₁⟩, .of_waiting hr (hgrows₀.trans hB hgrows₁) hB₁ hknown hrhs le_rfl hmerge
    (Nat.succ_ne_self _) htargets⟩

theorem Builds.shortCircuit (hl : Builds known left) (hr : Builds known right) (b : Bool) (other : Operand V) :
    Builds known (shortCircuit b other left right) := by
  intro B hB hknown
  have hpart := (shortCircuit_parts hl hr b hB hknown).2
  have hgrows := (hpart.start.trans hB hpart.grows).leaveTo (.br (B.count + 1)) (Nat.le_succ B.count)
  exact ⟨hpart.sound_merge.phi _, Builder.Grows.phi hB hgrows (Nat.le_succ _) _, Nat.lt_succ_self _⟩

variable {S : Semantics V O σ} {knowns : List (Operand V × V)} {m n : σ → Option (V × σ)}

theorem Means.shortCircuit (hl : Means S knowns left m) (hr : Means S knowns right n)
    (hbuildsl : Builds (knowns.map Prod.fst) left) (hbuildsr : Builds (knowns.map Prod.fst) right) (b : Bool)
    {other : Operand V} {w : V} (hother : ∀ regs, (∀ p ∈ knowns, p.1.value regs = some p.2) → other.value regs = some w)
    {truth : V → Bool} (htruth : ∀ state v state', m state = some (v, state') → S.truth v = some (truth v)) :
    Means S knowns (shortCircuit b other left right) fun state =>
      (m state).bind fun r => if truth r.1 = b then n r.2 else some (w, r.2) := by
  intro B hB hbelow F hF c hc hknown
  obtain ⟨⟨hB₀, hgrows₀, hB₁, hgrows₁⟩, hpart⟩ :=
    shortCircuit_parts hbuildsl hbuildsr b hB (List.forall_mem_map.mpr hbelow)
  -- `left`, the branch, `right`, and where they meet, are in the function
  have hkeeps := hpart.grows.keeps hpart.start_sound
  have hleft_sealed := Builder.Sealed.of_keeps hgrows₀ hB₁ hgrows₁ (hkeeps.trans (hpart.keeps_end _)) hF
  have hright_sealed := Builder.Sealed.of_keeps hpart.start hpart.sound hpart.grows (hpart.sound_merge.keeps_phi _) hF
  have hphis := hpart.merge_phis hF
  have hresult := hpart.start.regs.trans hpart.grows.regs
  have hleft := hl _ hB₀ hbelow F hleft_sealed.hosts c hc hknown
  show Comes S F (Ssa.shortCircuit b other left right B).2 (Ssa.shortCircuit b other left right B).1 B.regs c
    ((m c.state).bind fun r => if truth r.1 = b then n r.2 else some (w, r.2))
  cases hm : m c.state with
  | none =>
    rw [hm] at hleft
    exact hleft
  | some p =>
    rw [hm] at hleft
    obtain ⟨c₁, hruns₁, hat₁, hstate₁, hvalue₁, hagree₁⟩ := hleft
    have hknown₁ : ∀ p ∈ knowns, p.1.value c₁.regs = some p.2 := fun p hp =>
      (hagree₁.value (hbelow p hp)).trans (hknown p hp)
    have hleave := (step_sealed (S := S) hleft_sealed hat₁).trans (leave_on hvalue₁ (htruth _ _ _ hm) b _ _)
    rw [Option.bind_some, ← hstate₁]
    by_cases htaken : truth p.1 = b
    · rw [if_pos htaken] at hleave ⊢
      have hright := hpart.comes rfl hr rfl rfl hright_sealed.hosts hleave hknown₁
      refine (hright.join hright_sealed hphis ?_ (hpart.at_merge _) hresult).of_runs hruns₁ hagree₁ le_rfl
      rw [List.lookup_cons, beq_eq_false_iff_ne.mpr (hkeeps.ne hB₁ hpart.sound)]
      exact List.lookup_cons_self
    · rw [if_neg htaken] at hleave ⊢
      rw [enter_phi hphis hat₁.1 List.lookup_cons_self (hother _ hknown₁)] at hleave
      exact ⟨_, hruns₁.trans (Runs.single hleave), hpart.at_merge _ _ _, rfl, Function.update_self _ _ _,
        hagree₁.update hresult _⟩

end ShortCircuit

/-! ## One of two parts -/

/-- Where the value of `x` is true, `yes` is executed, and otherwise `no`. -/
def choose (x : Operand V) (yes no : Emitter V O) : Emitter V O := fun B =>
  let thenBB := B.count
  let elseBB := B.count + 1
  let mergeBB := B.count + 2
  let (y, B₁) := yes (B.createBlock.createBlock.createBlock.leaveTo (.condBr x thenBB elseBB) thenBB)
  let (z, B₂) := no (B₁.leaveTo (.br mergeBB) elseBB)
  let B₃ := B₂.leaveTo (.br mergeBB) mergeBB
  (.reg B₃.regs, B₃.phi [(B₁.insertBlock, y), (B₂.insertBlock, z)])

section Choose

variable {known : List (Operand V)} {x : Operand V} {yes no : Emitter V O} {B : Builder V O}

theorem choose_parts (hyes : Builds known yes) (hno : Builds known no) (x : Operand V) (hB : B.Sound)
    (hknown : ∀ x ∈ known, x.Below B.regs) :
    let B₀ := B.createBlock.createBlock.createBlock
    let s₁ := B₀.leaveTo (.condBr x B.count (B.count + 1)) B.count
    let s₂ := (yes s₁).2.leaveTo (.br (B.count + 2)) (B.count + 1)
    (B₀.Sound ∧ B.Grows B₀) ∧ Part known B s₁ (yes s₁).2 B.count (B.count + 2) (yes s₁).1 ∧
      Part known B s₂ (no s₂).2 (B.count + 1) (B.count + 2) (no s₂).1 := by
  intro B₀ s₁ s₂
  have hB₀ : B₀.Sound := hB.createBlock.createBlock.createBlock
  have hgrows₀ : B.Grows B₀ :=
    ((Builder.grows_createBlock B).trans hB (Builder.grows_createBlock _)).trans hB (Builder.grows_createBlock _)
  have hthen : B₀.Waiting B.count := hB.waiting.createBlock.createBlock
  have helse : B₀.Waiting (B.count + 1) := hB.createBlock.waiting.createBlock
  have hmerge : B₀.Waiting (B.count + 2) := hB.createBlock.createBlock.waiting
  have hpart₁ : Part known B s₁ (yes s₁).2 B.count (B.count + 2) (yes s₁).1 :=
    .of_waiting hyes hgrows₀ hB₀ hknown hthen le_rfl hmerge (by omega)
      (List.forall_mem_cons.mpr ⟨hthen.lt, List.forall_mem_singleton.mpr helse.lt⟩)
  have helse₁ : (yes s₁).2.Waiting (B.count + 1) := (helse.leaveTo (Nat.succ_ne_self _) _).grows hpart₁.grows
  exact ⟨⟨hB₀, hgrows₀⟩, hpart₁, .of_waiting hno (hpart₁.start.trans hB hpart₁.grows) hpart₁.sound hknown helse₁
    (Nat.le_succ _) hpart₁.merge (by omega) (List.forall_mem_singleton.mpr hpart₁.merge.lt)⟩

theorem Builds.choose (hyes : Builds known yes) (hno : Builds known no) (x : Operand V) : Builds known (choose x yes no) := by
  intro B hB hknown
  have hpart := (choose_parts hyes hno x hB hknown).2.2
  have hgrows := (hpart.start.trans hB hpart.grows).leaveTo (.br (B.count + 2)) (Nat.le_add_right B.count 2)
  exact ⟨hpart.sound_merge.phi _, Builder.Grows.phi hB hgrows (Nat.le_add_right _ _) _, Nat.lt_succ_self _⟩

variable {S : Semantics V O σ} {knowns : List (Operand V × V)} {m n : σ → Option (V × σ)}

theorem Means.choose {v : V} {t : Bool} (hx : (x, v) ∈ knowns) (ht : S.truth v = some t) (hyes : Means S knowns yes m)
    (hno : Means S knowns no n) (hbuilds : Builds (knowns.map Prod.fst) yes) (hbuilds' : Builds (knowns.map Prod.fst) no) :
    Means S knowns (choose x yes no) fun state => if t then m state else n state := by
  intro B hB hbelow F hF c hc hknown
  obtain ⟨⟨hB₀, hgrows₀⟩, hpart₁, hpart₂⟩ := choose_parts hbuilds hbuilds' x hB (List.forall_mem_map.mpr hbelow)
  -- the branch, both parts, and where they meet, are in the function
  have hkeeps₂ := hpart₂.grows.keeps hpart₂.start_sound
  have hkeeps₁ := (hpart₁.grows.keeps hpart₁.start_sound).trans
    ((hpart₁.sound.keeps_leaveTo (.br (B.count + 2)) (B.count + 1)).trans hkeeps₂)
  have hcond := Builder.Sealed.of_keeps (.refl B) hB₀ hgrows₀ (hkeeps₁.trans (hpart₂.keeps_end _)) hF
  have hsealed₁ := Builder.Sealed.of_keeps hpart₁.start hpart₁.sound hpart₁.grows (hkeeps₂.trans (hpart₂.keeps_end _)) hF
  have hsealed₂ := Builder.Sealed.of_keeps hpart₂.start hpart₂.sound hpart₂.grows (hpart₂.sound_merge.keeps_phi _) hF
  have hphis := hpart₂.merge_phis hF
  have hresult := hpart₂.start.regs.trans hpart₂.grows.regs
  have hleave := (step_sealed (S := S) hcond hc).trans (leave_on (hknown _ hx) ht true _ _)
  show Comes S F (Ssa.choose x yes no B).2 (Ssa.choose x yes no B).1 B.regs c (if t then m c.state else n c.state)
  cases t with
  | true =>
    exact (hpart₁.comes rfl hyes rfl rfl hsealed₁.hosts hleave hknown).join hsealed₁ hphis List.lookup_cons_self
      (hpart₂.at_merge _) hresult
  | false =>
    refine (hpart₂.comes rfl hno rfl rfl hsealed₂.hosts hleave hknown).join hsealed₂ hphis ?_ (hpart₂.at_merge _) hresult
    rw [List.lookup_cons, beq_eq_false_iff_ne.mpr (hkeeps₂.ne hpart₁.sound hpart₂.sound)]
    exact List.lookup_cons_self

end Choose

/-! ## Conversions -/

/-- The value of an operand, converted if there is a conversion. -/
def convert (S : Semantics V O σ) (conv : Option O) (v : V) (state : σ) : Option (V × σ) :=
  conv.elim (some (v, state)) fun op => S.apply op [v] state

/-- A conversion at the insertion point. -/
def emitConvert (conv : Option O) (x : Operand V) : Emitter V O := fun B =>
  conv.elim (x, B) fun op => emitInstr op [x] B

theorem Builds.convert (conv : Option O) (x : Operand V) : Builds [x] (emitConvert conv x) := by
  cases conv with
  | none => exact fun B hB hx => ⟨hB, .refl B, hx x List.mem_cons_self⟩
  | some op => exact Builds.instr _ op [x]

theorem Means.convert {S : Semantics V O σ} (conv : Option O) (x : Operand V) (v : V) :
    Means S [(x, v)] (emitConvert conv x) (convert S conv v) := by
  cases conv with
  | none => exact fun B _ _ F _ c hc hknown => ⟨c, Runs.refl c, hc, rfl, hknown (x, v) List.mem_cons_self, Agree.refl _ _⟩
  | some op => exact Means.instr (.cons List.mem_cons_self .nil)

end Visuall.Ssa
