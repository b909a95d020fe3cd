import Visuall.Codegen.Liveness

/-!
# Resume points, as they are emitted

What holds of the resume points of a statement when it is emitted: the variables that are read behind one are tracked
there, no closure is among them, and the states are numbered in the order in which the points are emitted.

* `Emission.Visible` — the slots that the names in scope stand for; only these are read;
* `Emitted` — what the emission of a statement or of a block does, with lemmas for one behind the other and for a
  scope of its own;
* `codegenStmt_emitted` — every statement is emitted so.
-/

namespace Visuall.Codegen.Generators

open Visuall.Ast

variable {W E D : Type}

/-! ## Names in scope -/

namespace Emission

/-- A name in scope stands for the slot. -/
def Visible (G : Emission) (s : Slot) : Prop := ∃ scope ∈ G.scopes, ∃ name, (name, s) ∈ scope

/-- The variables in scope are tracked. -/
def Valid (G : Emission) : Prop := ∀ s, G.Visible s → s ∈ G.tracked

theorem lookupVar_visible {G : Emission} {name : Name} {s : Slot} (h : G.lookupVar name = some s) : G.Visible s := by
  obtain ⟨scope, hscope, hlookup⟩ := List.exists_of_findSome?_eq_some h
  obtain ⟨l₁, l₂, rfl, _⟩ := List.lookup_eq_some_iff.mp hlookup
  exact ⟨_, hscope, name, List.mem_append_right _ List.mem_cons_self⟩

theorem resolve_visible {G : Emission} {operands : List Name} {slots : List Slot}
    (h : G.resolve operands = some slots) : ∀ s ∈ slots, G.Visible s := by
  induction operands generalizing slots with
  | nil =>
    obtain rfl := Option.some.inj h
    intro s hs
    cases hs
  | cons name operands ih =>
    unfold resolve at h ih
    rw [List.mapM_cons] at h
    simp only [Option.bind_eq_bind, Option.bind_eq_some_iff] at h
    obtain ⟨slot, hslot, rest, hrest, hslots⟩ := h
    obtain rfl := Option.some.inj hslots
    intro s hs
    rcases List.mem_cons.mp hs with rfl | hs
    · exact lookupVar_visible hslot
    · exact ih hrest s hs

theorem resolveEval_visible {α : Type} {G : Emission} {e : Eval Name W E α} {e' : Eval Slot W E α}
    (h : G.resolveEval e = some e') : ∀ s ∈ e'.operands, G.Visible s := by
  obtain ⟨slots, hslots, rfl⟩ := Option.map_eq_some_iff.mp h
  exact resolve_visible hslots

/-- Emissions that differ in the allocas that are not declared. -/
structure Same (G G' : Emission) : Prop where
  scopes : G'.scopes = G.scopes
  tracked : G'.tracked = G.tracked
  yields : G'.yields = G.yields

theorem same_alloca (G : Emission) : G.Same G.alloca := ⟨rfl, rfl, rfl⟩

theorem same_didBreak (G : Emission) (hasElse : Bool) : G.Same (G.didBreak hasElse).2 := by
  cases hasElse with
  | true => exact same_alloca G
  | false => exact ⟨rfl, rfl, rfl⟩

theorem Same.trans {G G₁ G₂ : Emission} (h : G.Same G₁) (h' : G₁.Same G₂) : G.Same G₂ :=
  ⟨h'.scopes.trans h.scopes, h'.tracked.trans h.tracked, h'.yields.trans h.yields⟩

theorem Same.visible_iff {G G' : Emission} (h : G.Same G') (s : Slot) : G'.Visible s ↔ G.Visible s := by
  unfold Visible
  rw [h.scopes]

theorem visible_declareVar {G : Emission} {name : Name} {type : LTy} {s : Slot}
    (h : (G.declareVar name type).Visible s) : G.Visible s ∨ s = ⟨G.allocas, type⟩ := by
  obtain ⟨scope, hscope, name', hmem⟩ := h
  have hscopes : scope ∈ G.scopes.modifyHead fun scope => (name, ⟨G.allocas, type⟩) :: scope := hscope
  cases hG : G.scopes with
  | nil =>
    rw [hG] at hscopes
    cases hscopes
  | cons top scopes =>
    rw [hG, List.modifyHead_cons] at hscopes
    rcases List.mem_cons.mp hscopes with rfl | hrest
    · rcases List.mem_cons.mp hmem with heq | hmem
      · exact .inr (Prod.mk.inj heq).2
      · exact .inl ⟨top, hG ▸ List.mem_cons_self, name', hmem⟩
    · exact .inl ⟨scope, hG ▸ List.mem_cons_of_mem top hrest, name', hmem⟩

theorem declareVar_visible {G : Emission} {name : Name} {type : LTy} {s : Slot} (h : G.Visible s) :
    (G.declareVar name type).Visible s := by
  obtain ⟨scope, hscope, name', hmem⟩ := h
  show ∃ scope ∈ G.scopes.modifyHead fun scope => (name, ⟨G.allocas, type⟩) :: scope, ∃ name, (name, s) ∈ scope
  cases hG : G.scopes with
  | nil =>
    rw [hG] at hscope
    cases hscope
  | cons top scopes =>
    rw [hG] at hscope
    rw [List.modifyHead_cons]
    rcases List.mem_cons.mp hscope with rfl | hscope
    · exact ⟨_, List.mem_cons_self, name', List.mem_cons_of_mem _ hmem⟩
    · exact ⟨scope, List.mem_cons_of_mem _ hscope, name', hmem⟩

theorem valid_declareVar {G : Emission} (h : G.Valid) (name : Name) (type : LTy) : (G.declareVar name type).Valid := by
  intro s hs
  show s ∈ G.tracked ++ [⟨G.allocas, type⟩]
  rcases visible_declareVar hs with hs | rfl
  · exact List.mem_append_left _ (h s hs)
  · exact List.mem_append_right _ List.mem_cons_self

/-- A scope of its own, in which the variables `V` are declared. -/
structure Opens (G G' : Emission) (V : Slot → Prop) : Prop where
  scopes : G'.scopes.tail = G.scopes
  tracked : ∀ s ∈ G.tracked, s ∈ G'.tracked
  yields : G'.yields = G.yields
  visible : ∀ s, G'.Visible s → G.Visible s ∨ V s
  valid : G.Valid → G'.Valid

theorem visible_pushScope {G : Emission} {s : Slot} (h : G.pushScope.Visible s) : G.Visible s := by
  obtain ⟨scope, hscope, name, hmem⟩ := h
  rcases List.mem_cons.mp hscope with rfl | hscope
  · cases hmem
  · exact ⟨scope, hscope, name, hmem⟩

theorem opens_pushScope (G : Emission) : G.Opens G.pushScope fun _ => False :=
  ⟨rfl, fun _ h => h, rfl, fun _ h => .inl (visible_pushScope h), fun h s hs => h s (visible_pushScope hs)⟩

theorem Opens.mono {G G' : Emission} {V V' : Slot → Prop} (h : G.Opens G' V) (hV : ∀ s, V s → V' s) :
    G.Opens G' V' :=
  ⟨h.scopes, h.tracked, h.yields, fun s hs => (h.visible s hs).imp_right (hV s), h.valid⟩

theorem Opens.declareVar {G G' : Emission} {V : Slot → Prop} (h : G.Opens G' V) (name : Name) (type : LTy) :
    G.Opens (G'.declareVar name type) fun s => V s ∨ s = ⟨G'.allocas, type⟩ := by
  constructor
  · show (G'.scopes.modifyHead _).tail = G.scopes
    rw [List.tail_modifyHead]
    exact h.scopes
  · intro s hs
    exact List.mem_append_left _ (h.tracked s hs)
  · exact h.yields
  · intro s hs
    rcases visible_declareVar hs with hs | heq
    · exact (h.visible s hs).imp_right .inl
    · exact .inr (.inr heq)
  · intro hG
    exact valid_declareVar (h.valid hG) name type

theorem Opens.declareVars {G G' : Emission} {V : Slot → Prop} (h : G.Opens G' V) (names : List Name) :
    G.Opens (G'.declareVars names).2 fun s => V s ∨ ∃ id ∈ (G'.declareVars names).1, s = ⟨id, .i64⟩ := by
  induction names generalizing G' V with
  | nil => exact h.mono fun s hs => .inl hs
  | cons name names ih =>
    apply (ih (h.declareVar name .i64)).mono
    intro s hs
    rcases hs with (hs | heq) | ⟨id, hid, heq⟩
    · exact .inl hs
    · exact .inr ⟨G'.allocas, List.mem_cons_self, heq⟩
    · exact .inr ⟨id, List.mem_cons_of_mem _ hid, heq⟩

theorem Opens.declareOption {G G' : Emission} {V : Slot → Prop} (h : G.Opens G' V) (name : Option Name) (type : LTy) :
    G.Opens (G'.declareOption name type).2 fun s => V s ∨ ∃ id ∈ (G'.declareOption name type).1, s = ⟨id, type⟩ := by
  cases name with
  | none => exact h.mono fun s hs => .inl hs
  | some name =>
    apply (h.declareVar name type).mono
    intro s hs
    rcases hs with hs | heq
    · exact .inl hs
    · exact .inr ⟨G'.allocas, rfl, heq⟩

end Emission

/-! ## What an emission does -/

/-- The variables that are read behind the point are tracked there, and none of these holds a closure. -/
structure Point.Covered (p : Point W E D) : Prop where
  words : hasClosure p.tracked = false
  tracked : ∀ item ∈ p.control, ∀ s, item.Needs s → s ∈ p.tracked

/-- What the emission of code does that declares `B` for what follows it, and has these resume points. -/
structure Emitted (G G' : Emission) (B : Slot → Prop) (points : Control W E D → List (Point W E D)) : Prop where
  scopes : G'.scopes.tail = G.scopes.tail
  tracked : ∀ s ∈ G.tracked, s ∈ G'.tracked
  kept : ∀ s, G.Visible s → G'.Visible s
  visible : ∀ s, G'.Visible s → G.Visible s ∨ B s
  valid : G.Valid → G'.Valid
  yields : G.yields ≤ G'.yields
  states : ∀ K, ∀ p ∈ points K, G.yields < p.state ∧ p.state ≤ G'.yields
  sorted : ∀ K, (points K).Pairwise fun p q => p.state < q.state
  covered : G.Valid → ∀ K, (∀ item ∈ K, ∀ s, item.Needs s → s ∈ G.tracked) → ∀ p ∈ points K, p.Covered

namespace Emitted

variable {G G₁ G₂ : Emission} {B B₁ B₂ : Slot → Prop} {points points₁ points₂ : Control W E D → List (Point W E D)}

/-- Code that declares nothing and does not yield. -/
theorem refl (G : Emission) (B : Slot → Prop) : Emitted G G B fun _ : Control W E D => [] where
  scopes := rfl
  tracked := fun _ h => h
  kept := fun _ h => h
  visible := fun _ h => .inl h
  valid := fun h => h
  yields := le_refl _
  states := fun _ p hp => by cases hp
  sorted := fun _ => .nil
  covered := fun _ _ _ p hp => by cases hp

/-- A declaration. -/
theorem declareVar (G : Emission) (name : Name) (type : LTy) :
    Emitted G (G.declareVar name type) (fun s => s = ⟨G.allocas, type⟩) fun _ : Control W E D => [] where
  scopes := List.tail_modifyHead
  tracked := fun _ h => List.mem_append_left _ h
  kept := fun _ h => Emission.declareVar_visible h
  visible := fun _ h => Emission.visible_declareVar h
  valid := fun h => Emission.valid_declareVar h name type
  yields := le_refl _
  states := fun _ p hp => by cases hp
  sorted := fun _ => .nil
  covered := fun _ _ _ p hp => by cases hp

/-- A `yield`. -/
theorem yieldStmt (G : Emission) (hwords : hasClosure G.tracked = false) (B : Slot → Prop) :
    Emitted G { G with yields := G.yields + 1 } B fun K : Control W E D => [⟨G.yields + 1, G.tracked, K⟩] where
  scopes := rfl
  tracked := fun _ h => h
  kept := fun _ h => h
  visible := fun _ h => .inl h
  valid := fun h => h
  yields := Nat.le_succ _
  states := by
    intro K p hp
    obtain rfl := List.mem_singleton.mp hp
    exact ⟨Nat.lt_succ_self _, le_refl _⟩
  sorted := fun K => List.pairwise_singleton _ _
  covered := by
    intro _ K hK p hp
    obtain rfl := List.mem_singleton.mp hp
    exact ⟨hwords, hK⟩

/-- Allocas in front that are not declared. -/
theorem same (hsame : G.Same G₁) (h : Emitted G₁ G₂ B points) : Emitted G G₂ B points where
  scopes := h.scopes.trans (congrArg _ hsame.scopes)
  tracked := fun s hs => h.tracked s (hsame.tracked ▸ hs)
  kept := fun s hs => h.kept s ((hsame.visible_iff s).mpr hs)
  visible := fun s hs => (h.visible s hs).imp_left (hsame.visible_iff s).mp
  valid := fun hG => h.valid fun s hs => hsame.tracked ▸ hG s ((hsame.visible_iff s).mp hs)
  yields := hsame.yields ▸ h.yields
  states := fun K p hp => hsame.yields ▸ h.states K p hp
  sorted := h.sorted
  covered := fun hG K hK =>
    h.covered (fun s hs => hsame.tracked ▸ hG s ((hsame.visible_iff s).mp hs)) K fun item hitem s hs =>
      hsame.tracked ▸ hK item hitem s hs

/-- More comes between the code and what follows, and reads only what is in scope. -/
theorem under (h : Emitted G G₁ B points) (k : Control W E D → Control W E D)
    (hk : ∀ K, ∀ item ∈ k K, item ∈ K ∨ ∀ s, item.Needs s → G.Visible s) :
    Emitted G G₁ B fun K => points (k K) where
  scopes := h.scopes
  tracked := h.tracked
  kept := h.kept
  visible := h.visible
  valid := h.valid
  yields := h.yields
  states := fun K => h.states (k K)
  sorted := fun K => h.sorted (k K)
  covered := by
    intro hG K hK
    apply h.covered hG
    intro item hitem s hs
    rcases hk K item hitem with hmem | hvisible
    · exact hK item hmem s hs
    · exact hG s (hvisible s hs)

/-- One behind the other. -/
theorem append (h : Emitted G G₁ B₁ points₁) (h' : Emitted G₁ G₂ B₂ points₂) :
    Emitted G G₂ (fun s => B₁ s ∨ B₂ s) fun K => points₁ K ++ points₂ K where
  scopes := h'.scopes.trans h.scopes
  tracked := fun s hs => h'.tracked s (h.tracked s hs)
  kept := fun s hs => h'.kept s (h.kept s hs)
  visible := by
    intro s hs
    rcases h'.visible s hs with hs | hs
    · exact (h.visible s hs).imp_right .inl
    · exact .inr (.inr hs)
  valid := fun hG => h'.valid (h.valid hG)
  yields := h.yields.trans h'.yields
  states := by
    intro K p hp
    rcases List.mem_append.mp hp with hp | hp
    · have hp := h.states K p hp
      exact ⟨hp.1, hp.2.trans h'.yields⟩
    · have hp := h'.states K p hp
      exact ⟨lt_of_le_of_lt h.yields hp.1, hp.2⟩
  sorted := by
    intro K
    apply List.pairwise_append.mpr
    refine ⟨h.sorted K, h'.sorted K, ?_⟩
    intro p hp q hq
    exact lt_of_le_of_lt (h.states K p hp).2 (h'.states K q hq).1
  covered := by
    intro hG K hK p hp
    rcases List.mem_append.mp hp with hp | hp
    · exact h.covered hG K hK p hp
    · exact h'.covered (h.valid hG) K (fun item hitem s hs => h.tracked s (hK item hitem s hs)) p hp

/-- A scope is closed behind the code. -/
theorem enclosed {V : Slot → Prop} (hopen : G.Opens G₁ V) (h : Emitted G₁ G₂ B points) :
    Emitted G G₂.popScope (fun _ => False) points := by
  have hscopes : G₂.popScope.scopes = G.scopes := h.scopes.trans hopen.scopes
  have hvisible : ∀ s, G₂.popScope.Visible s ↔ G.Visible s := by
    intro s
    show (∃ scope ∈ G₂.popScope.scopes, ∃ name, (name, s) ∈ scope) ↔ _
    rw [hscopes]
    rfl
  have htracked : ∀ s ∈ G.tracked, s ∈ G₂.tracked := fun s hs => h.tracked s (hopen.tracked s hs)
  constructor
  · rw [hscopes]
  · exact htracked
  · exact fun s hs => (hvisible s).mpr hs
  · exact fun s hs => .inl ((hvisible s).mp hs)
  · exact fun hG s hs => htracked s (hG s ((hvisible s).mp hs))
  · exact hopen.yields ▸ h.yields
  · exact fun K p hp => hopen.yields ▸ h.states K p hp
  · exact h.sorted
  · intro hG K hK
    exact h.covered (hopen.valid hG) K fun item hitem s hs => hopen.tracked s (hK item hitem s hs)

/-- Two parts of a statement that are in scopes of their own. -/
theorem both (h : Emitted G G₁ (fun _ => False) points₁) (h' : Emitted G₁ G₂ (fun _ => False) points₂) :
    Emitted G G₂ (fun _ => False) fun K => points₁ K ++ points₂ K := by
  have happend := h.append h'
  exact { happend with visible := fun s hs => (happend.visible s hs).imp_right fun hB => hB.elim id id }

theorem visible_before (h : Emitted G G₁ (fun _ => False) points) {s : Slot} (hs : G₁.Visible s) : G.Visible s :=
  (h.visible s hs).elim id False.elim

end Emitted

/-! ## Statements -/

theorem inScope_emitted {f : Emission → Option (CodeBlock W E D × Emission)} {B : Slot → Prop}
    (hf : ∀ {G c G'}, f G = some (c, G') → Emitted G G' B c.points ∧ ∀ s, c.Needs s → G.Visible s) {G G' : Emission}
    {c : CodeBlock W E D} (h : inScope f G = some (c, G')) :
    Emitted G G' (fun _ => False) c.points ∧ ∀ s, c.Needs s → G.Visible s := by
  obtain ⟨⟨c', G₁⟩, hcode, hpair⟩ := Option.map_eq_some_iff.mp h
  obtain ⟨rfl, rfl⟩ := Prod.mk.inj hpair
  obtain ⟨hemitted, hneeds⟩ := hf hcode
  exact ⟨hemitted.enclosed G.opens_pushScope, fun s hs => Emission.visible_pushScope (hneeds s hs)⟩

theorem declared_needs {G G₁ : Emission} {V : Slot → Prop} (hopen : G.Opens G₁ V) {c : CodeBlock W E D}
    (hneeds : ∀ s, c.Needs s → G₁.Visible s) {s : Slot} (hs : c.Needs s) (hV : ¬ V s) : G.Visible s :=
  (hopen.visible s (hneeds s hs)).resolve_right hV

/-- What follows is what followed before, behind something that reads only what is in scope. -/
theorem mem_cons_visible {G : Emission} {item : Item W E D} (h : ∀ s, item.Needs s → G.Visible s)
    (K : Control W E D) : ∀ i ∈ item :: K, i ∈ K ∨ ∀ s, i.Needs s → G.Visible s := by
  intro i hi
  rcases List.mem_cons.mp hi with rfl | hi
  · exact .inr h
  · exact .inl hi

/-- So for two. -/
theorem mem_cons_cons_visible {G : Emission} {item item' : Item W E D} (h : ∀ s, item.Needs s → G.Visible s)
    (h' : ∀ s, item'.Needs s → G.Visible s) (K : Control W E D) :
    ∀ i ∈ item :: item' :: K, i ∈ K ∨ ∀ s, i.Needs s → G.Visible s := by
  intro i hi
  rcases List.mem_cons.mp hi with rfl | hi
  · exact .inr h
  · exact mem_cons_visible h' K i hi

/-- Only an assignment declares something for what follows it, and it does not yield. -/
theorem Code.points_of_binds {c : Code W E D} {s : Slot} (h : c.Binds s) (K : Control W E D) : c.points K = [] := by
  cases c with
  | store slot value => rfl
  | _ => exact h.elim

/-- A statement in front of a block. -/
theorem cons_emitted {G G₁ G₂ : Emission} {c : Code W E D} {rest : CodeBlock W E D}
    (hcode : Emitted G G₁ c.Binds c.points) (hcodeNeeds : ∀ s, c.Needs s → G.Visible s)
    (hrest : Emitted G₁ G₂ (fun _ => True) rest.points) (hrestNeeds : ∀ s, rest.Needs s → G₁.Visible s) :
    Emitted G G₂ (fun _ => True) (CodeBlock.cons c rest).points ∧
      ∀ s, (CodeBlock.cons c rest).Needs s → G.Visible s := by
  have hneeds : ∀ s, rest.Needs s ∧ ¬ c.Binds s → G.Visible s := fun s hs =>
    (hcode.visible s (hrestNeeds s hs.1)).resolve_right hs.2
  have hfirst : Emitted G G₁ c.Binds fun K => c.points (.block rest :: K) := by
    by_cases hbinds : ∃ s, c.Binds s
    · obtain ⟨s, hs⟩ := hbinds
      have hpoints : (fun K => c.points (.block rest :: K)) = c.points := by
        funext K
        rw [Code.points_of_binds hs, Code.points_of_binds hs]
      rw [hpoints]
      exact hcode
    · exact hcode.under _ (mem_cons_visible fun s hs => hneeds s ⟨hs, fun hb => hbinds ⟨s, hb⟩⟩)
  constructor
  · have happend := hfirst.append hrest
    exact { happend with visible := fun s hs => (happend.visible s hs).imp_right fun _ => trivial }
  · intro s hs
    rcases hs with hs | hs
    · exact hcodeNeeds s hs
    · exact hneeds s hs

mutual

/-- **What the emission of a statement does**, and what the statement reads. -/
theorem codegenStmt_emitted (inLoop : Bool) : ∀ (stmt : Stmt W E D) {G G' : Emission} {c : Code W E D},
    codegenStmt inLoop stmt G = some (c, G') → Emitted G G' c.Binds c.points ∧ ∀ s, c.Needs s → G.Visible s
  | .bind fresh name type value, G, G', c, h => by
    simp only [codegenStmt, Option.bind_eq_bind, Option.bind_eq_some_iff] at h
    obtain ⟨value', hvalue, h⟩ := h
    have hneeds : ∀ s ∈ value'.operands, G.Visible s := Emission.resolveEval_visible hvalue
    cases hlookup : G.lookupVar name with
    | none =>
      rw [hlookup] at h
      obtain ⟨rfl, rfl⟩ := Prod.mk.inj (Option.some.inj h)
      exact ⟨Emitted.declareVar G name type, hneeds⟩
    | some slot =>
      rw [hlookup] at h
      by_cases hslot : slot.type = type ∧ fresh = false
      · simp only [if_pos hslot] at h
        obtain ⟨rfl, rfl⟩ := Prod.mk.inj (Option.some.inj h)
        exact ⟨Emitted.refl G _, hneeds⟩
      · simp only [if_neg hslot] at h
        obtain ⟨rfl, rfl⟩ := Prod.mk.inj (Option.some.inj h)
        exact ⟨Emitted.declareVar G name type, hneeds⟩
  | .exprStmt expr, G, G', c, h => by
    simp only [codegenStmt, Option.bind_eq_bind, Option.bind_eq_some_iff] at h
    obtain ⟨e, he, heq⟩ := h
    obtain ⟨rfl, rfl⟩ := Prod.mk.inj (Option.some.inj heq)
    exact ⟨Emitted.refl _ _, Emission.resolveEval_visible he⟩
  | .throwStmt expr, G, G', c, h => by
    simp only [codegenStmt, Option.bind_eq_bind, Option.bind_eq_some_iff] at h
    obtain ⟨e, he, heq⟩ := h
    obtain ⟨rfl, rfl⟩ := Prod.mk.inj (Option.some.inj heq)
    exact ⟨Emitted.refl _ _, Emission.resolveEval_visible he⟩
  | .yieldStmt type value, G, G', c, h => by
    simp only [codegenStmt, Option.bind_eq_bind, Option.bind_eq_some_iff] at h
    obtain ⟨value', hvalue, h⟩ := h
    cases hwords : hasClosure G.tracked with
    | true =>
      rw [hwords] at h
      cases h
    | false =>
      rw [hwords] at h
      obtain ⟨rfl, rfl⟩ := Prod.mk.inj (Option.some.inj h)
      exact ⟨Emitted.yieldStmt G hwords _, Emission.resolveEval_visible hvalue⟩
  | .ifStmt condition thenBranch elseBranch, G, G', c, h => by
    simp only [codegenStmt, Option.bind_eq_bind, Option.bind_eq_some_iff] at h
    obtain ⟨cond, hcond, ⟨thenBB, G₁⟩, hthen, ⟨elseBB, G₂⟩, helse, heq⟩ := h
    obtain ⟨rfl, rfl⟩ := Prod.mk.inj (Option.some.inj heq)
    obtain ⟨hthen, hthenNeeds⟩ := inScope_emitted (codegenBlock_emitted inLoop thenBranch) hthen
    obtain ⟨helse, helseNeeds⟩ := inScope_emitted (codegenBlock_emitted inLoop elseBranch) helse
    constructor
    · exact hthen.both helse
    · intro s hs
      rcases hs with hs | hs | hs
      · exact Emission.resolveEval_visible hcond s hs
      · exact hthenNeeds s hs
      · exact hthen.visible_before (helseNeeds s hs)
  | .whileStmt condition body elseBranch, G, G', c, h => by
    simp only [codegenStmt, Option.bind_eq_bind, Option.bind_eq_some_iff] at h
    obtain ⟨cond, hcond, ⟨bodyBB, G₁⟩, hbody, ⟨orElse, G₂⟩, helse, heq⟩ := h
    obtain ⟨rfl, rfl⟩ := Prod.mk.inj (Option.some.inj heq)
    obtain ⟨hbody, hbodyNeeds⟩ := inScope_emitted (codegenBlock_emitted true body) hbody
    obtain ⟨helse, helseNeeds⟩ := inScope_emitted (codegenBlock_emitted inLoop elseBranch) helse
    have hsame := G.same_didBreak (!elseBranch.isEmpty)
    have hneeds : ∀ s, s ∈ cond.operands ∨ bodyBB.Needs s ∨ orElse.Needs s →
        (G.didBreak (!elseBranch.isEmpty)).2.Visible s := by
      intro s hs
      rcases hs with hs | hs | hs
      · exact Emission.resolveEval_visible hcond s hs
      · exact hbodyNeeds s hs
      · exact hbody.visible_before (helseNeeds s hs)
    constructor
    · exact ((hbody.under (.loop (.whileCond cond) _ bodyBB orElse :: ·) (mem_cons_visible hneeds)).both helse).same
        hsame
    · intro s hs
      exact (hsame.visible_iff s).mp (hneeds s hs)
  | .forStmt names iterable element advance body elseBranch, G, G', c, h => by
    simp only [codegenStmt, Option.bind_eq_bind, Option.bind_eq_some_iff] at h
    obtain ⟨iterable', hiterable, ⟨bodyBB, G₁⟩, hbody, ⟨orElse, G₂⟩, helse, heq⟩ := h
    obtain ⟨rfl, rfl⟩ := Prod.mk.inj (Option.some.inj heq)
    have hsame := G.same_didBreak (!elseBranch.isEmpty)
    generalize G.didBreak (!elseBranch.isEmpty) = flag at *
    have hopen := (Emission.opens_pushScope flag.2.alloca).declareVars names
    obtain ⟨hbody, hbodyNeeds⟩ := codegenBlock_emitted true body hbody
    obtain ⟨helse, helseNeeds⟩ := inScope_emitted (codegenBlock_emitted inLoop elseBranch) helse
    have hbodyScope := hbody.enclosed hopen
    have hneeds : ∀ s, (bodyBB.Needs s ∧ ∀ id ∈ (flag.2.alloca.pushScope.declareVars names).1, s ≠ ⟨id, .i64⟩) ∨
        orElse.Needs s → flag.2.alloca.Visible s := by
      intro s hs
      rcases hs with hs | hs
      · apply declared_needs hopen hbodyNeeds hs.1
        intro hV
        rcases hV with hV | ⟨id, hid, heq⟩
        · exact hV
        · exact hs.2 id hid heq
      · exact hbodyScope.visible_before (helseNeeds s hs)
    constructor
    · apply Emitted.same (hsame.trans flag.2.same_alloca)
      exact (hbodyScope.under (.inc _ advance :: .loop (.forCond _ _ element advance) _ bodyBB orElse :: ·)
        (mem_cons_cons_visible (fun s hs => hs.elim) hneeds)).both helse
    · intro s hs
      rcases hs with hs | hs
      · exact (hsame.visible_iff s).mp (Emission.resolveEval_visible hiterable s hs)
      · exact ((hsame.trans flag.2.same_alloca).visible_iff s).mp (hneeds s hs)
  | .matchStmt subject cases, G, G', c, h => by
    simp only [codegenStmt, Option.bind_eq_bind, Option.bind_eq_some_iff] at h
    obtain ⟨value, hvalue, ⟨codes, G₁⟩, hcases, heq⟩ := h
    obtain ⟨rfl, rfl⟩ := Prod.mk.inj (Option.some.inj heq)
    obtain ⟨hcases, hcasesNeeds⟩ := codegenCases_emitted inLoop cases hcases
    constructor
    · exact hcases.same G.same_alloca
    · intro s hs
      rcases hs with hs | hs
      · exact Emission.resolveEval_visible hvalue s hs
      · exact (G.same_alloca.visible_iff s).mp (hcasesNeeds s hs)
  | .tryStmt tryBody catchClauses finallyBody, G, G', c, h => by
    rw [codegenStmt] at h
    cases hclauses : catchClauses.isEmpty with
    | true =>
      rw [hclauses, if_pos rfl] at h
      cases hfinally : finallyBody.isEmpty with
      | true =>
        rw [hfinally] at h
        cases h
      | false =>
        rw [hfinally, if_neg (by decide)] at h
        simp only [Option.bind_eq_bind, Option.bind_eq_some_iff] at h
        obtain ⟨⟨body, G₁⟩, hbody, ⟨norm, G₂⟩, hnorm, ⟨clean, G₃⟩, hclean, heq⟩ := h
        obtain ⟨rfl, rfl⟩ := Prod.mk.inj (Option.some.inj heq)
        obtain ⟨hbody, hbodyNeeds⟩ := inScope_emitted (codegenBlock_emitted inLoop tryBody) hbody
        obtain ⟨hnorm, hnormNeeds⟩ := inScope_emitted (codegenBlock_emitted inLoop finallyBody) hnorm
        obtain ⟨hclean, hcleanNeeds⟩ := inScope_emitted (codegenBlock_emitted inLoop finallyBody) hclean
        have hnormNeeds' : ∀ s, norm.Needs s → G.alloca.Visible s := fun s hs =>
          hbody.visible_before (hnormNeeds s hs)
        have hcleanNeeds' : ∀ s, clean.Needs s → G.alloca.Visible s := fun s hs =>
          hbody.visible_before (hnorm.visible_before (hcleanNeeds s hs))
        constructor
        · apply Emitted.same G.same_alloca
          apply (hbody.under (.pad (.cleans G.allocas clean) :: .block norm :: ·)
            (mem_cons_cons_visible hcleanNeeds' hnormNeeds')).both
          exact hnorm.both (hclean.under (.resume G.allocas :: .block norm :: ·)
            (mem_cons_cons_visible (fun s hs => hs.elim) fun s hs => hnorm.kept s (hnormNeeds s hs)))
        · intro s hs
          apply (G.same_alloca.visible_iff s).mp
          rcases hs with hs | hs | hs
          · exact hbodyNeeds s hs
          · exact hnormNeeds' s hs
          · exact hcleanNeeds' s hs
    | false =>
      rw [hclauses, if_neg (by decide)] at h
      simp only [Option.bind_eq_bind, Option.bind_eq_some_iff] at h
      obtain ⟨⟨body, G₁⟩, hbody, ⟨clauses, G₂⟩, hcatch, ⟨norm, G₃⟩, hnorm, heq⟩ := h
      obtain ⟨rfl, rfl⟩ := Prod.mk.inj (Option.some.inj heq)
      obtain ⟨hbody, hbodyNeeds⟩ := inScope_emitted (codegenBlock_emitted inLoop tryBody) hbody
      obtain ⟨hcatch, hcatchNeeds⟩ := codegenClauses_emitted inLoop catchClauses hcatch
      obtain ⟨hnorm, hnormNeeds⟩ := inScope_emitted (codegenBlock_emitted inLoop finallyBody) hnorm
      have hclausesNeeds : ∀ s, clauses.Needs s → G.Visible s := fun s hs => hbody.visible_before (hcatchNeeds s hs)
      have hnormNeeds' : ∀ s, norm.Needs s → G.Visible s := fun s hs =>
        hbody.visible_before (hcatch.visible_before (hnormNeeds s hs))
      constructor
      · apply (hbody.under (.pad (.catches clauses) :: .block norm :: ·)
          (mem_cons_cons_visible hclausesNeeds hnormNeeds')).both
        exact (hcatch.under (.block norm :: ·)
          (mem_cons_visible fun s hs => hbody.kept s (hnormNeeds' s hs))).both hnorm
      · intro s hs
        rcases hs with hs | hs | hs
        · exact hbodyNeeds s hs
        · exact hclausesNeeds s hs
        · exact hnormNeeds' s hs
  | .withStmt expr enter asName exit body, G, G', c, h => by
    simp only [codegenStmt, Option.bind_eq_bind, Option.bind_eq_some_iff] at h
    obtain ⟨expr', hexpr, ⟨bodyBB, G₁⟩, hbody, heq⟩ := h
    obtain ⟨rfl, rfl⟩ := Prod.mk.inj (Option.some.inj heq)
    obtain ⟨hbody, hbodyNeeds⟩ := codegenBlock_emitted inLoop body hbody
    have hsame := G.same_alloca.trans G.alloca.same_alloca
    have hopen := (Emission.opens_pushScope G.alloca.alloca).declareOption asName .i64
    constructor
    · apply Emitted.same hsame
      have hbodyScope := hbody.enclosed hopen
      have hunder := hbodyScope.under
        (.pad (.exits G.allocas (G.allocas + 1) exit) :: .exit true G.allocas exit :: ·)
        (mem_cons_cons_visible (fun s hs => hs.elim) fun s hs => hs.elim)
      exact { hunder with visible := fun s hs => (hunder.visible s hs).imp_right False.elim }
    · intro s hs
      rcases hs with hs | hs
      · exact Emission.resolveEval_visible hexpr s hs
      · apply (hsame.visible_iff s).mp
        apply declared_needs hopen hbodyNeeds hs.1
        intro hV
        rcases hV with hV | ⟨id, hid, heq⟩
        · exact hV
        · exact hs.2 id hid heq
  | .breakStmt, G, G', c, h => by
    obtain ⟨rfl, rfl⟩ := Prod.mk.inj (Option.some.inj h)
    cases inLoop with
    | true => exact ⟨Emitted.refl _ _, fun s hs => hs.elim⟩
    | false => exact ⟨Emitted.refl _ _, fun s hs => hs.elim⟩
  | .continueStmt, G, G', c, h => by
    obtain ⟨rfl, rfl⟩ := Prod.mk.inj (Option.some.inj h)
    cases inLoop with
    | true => exact ⟨Emitted.refl _ _, fun s hs => hs.elim⟩
    | false => exact ⟨Emitted.refl _ _, fun s hs => hs.elim⟩
  | .returnStmt, G, G', c, h => by
    obtain ⟨rfl, rfl⟩ := Prod.mk.inj (Option.some.inj h)
    exact ⟨Emitted.refl _ _, fun s hs => hs.elim⟩

theorem codegenBlock_emitted (inLoop : Bool) : ∀ (b : Block W E D) {G G' : Emission} {c : CodeBlock W E D},
    codegenBlock inLoop b G = some (c, G') → Emitted G G' (fun _ => True) c.points ∧ ∀ s, c.Needs s → G.Visible s
  | .nil, G, G', c, h => by
    obtain ⟨rfl, rfl⟩ := Prod.mk.inj (Option.some.inj h)
    exact ⟨Emitted.refl _ _, fun s hs => hs.elim⟩
  | .cons stmt rest, G, G', c, h => by
    simp only [codegenBlock, Option.bind_eq_bind, Option.bind_eq_some_iff] at h
    obtain ⟨⟨code, G₁⟩, hstmt, h⟩ := h
    obtain ⟨hcode, hcodeNeeds⟩ := codegenStmt_emitted inLoop stmt hstmt
    cases hterminates : stmt.terminates inLoop with
    | true =>
      rw [hterminates, if_pos rfl] at h
      obtain ⟨rfl, rfl⟩ := Prod.mk.inj (Option.some.inj h)
      exact cons_emitted hcode hcodeNeeds (Emitted.refl _ fun _ => True) fun s hs => hs.elim
    | false =>
      rw [hterminates, if_neg (by decide)] at h
      simp only [Option.bind_eq_some_iff] at h
      obtain ⟨⟨codes, G₂⟩, hrest, heq⟩ := h
      obtain ⟨rfl, rfl⟩ := Prod.mk.inj (Option.some.inj heq)
      obtain ⟨hrest, hrestNeeds⟩ := codegenBlock_emitted inLoop rest hrest
      exact cons_emitted hcode hcodeNeeds hrest hrestNeeds

theorem codegenCases_emitted (inLoop : Bool) : ∀ (cases : Cases W E D) {G G' : Emission} {c : CodeCases W E D},
    codegenCases inLoop cases G = some (c, G') →
      Emitted G G' (fun _ => False) c.points ∧ ∀ s, c.Needs s → G.Visible s
  | .nil, G, G', c, h => by
    obtain ⟨rfl, rfl⟩ := Prod.mk.inj (Option.some.inj h)
    exact ⟨Emitted.refl _ _, fun s hs => hs.elim⟩
  | .cons operands test body rest, G, G', c, h => by
    simp only [codegenCases, Option.bind_eq_bind, Option.bind_eq_some_iff] at h
    obtain ⟨slots, hslots, ⟨bodyBB, G₁⟩, hbody, ⟨restCases, G₂⟩, hrest, heq⟩ := h
    obtain ⟨rfl, rfl⟩ := Prod.mk.inj (Option.some.inj heq)
    obtain ⟨hbody, hbodyNeeds⟩ := inScope_emitted (codegenBlock_emitted inLoop body) hbody
    obtain ⟨hrest, hrestNeeds⟩ := codegenCases_emitted inLoop rest hrest
    constructor
    · exact hbody.both hrest
    · intro s hs
      rcases hs with hs | hs | hs
      · exact Emission.resolve_visible hslots s hs
      · exact hbodyNeeds s hs
      · exact hbody.visible_before (hrestNeeds s hs)

theorem codegenClauses_emitted (inLoop : Bool) : ∀ (clauses : Clauses W E D) {G G' : Emission}
    {c : CodeClauses W E D}, codegenClauses inLoop clauses G = some (c, G') →
      Emitted G G' (fun _ => False) c.points ∧ ∀ s, c.Needs s → G.Visible s
  | .nil, G, G', c, h => by
    obtain ⟨rfl, rfl⟩ := Prod.mk.inj (Option.some.inj h)
    exact ⟨Emitted.refl _ _, fun s hs => hs.elim⟩
  | .cons takes varName body rest, G, G', c, h => by
    simp only [codegenClauses, Option.bind_eq_bind, Option.bind_eq_some_iff] at h
    obtain ⟨⟨bodyBB, G₁⟩, hbody, ⟨restClauses, G₂⟩, hrest, heq⟩ := h
    obtain ⟨rfl, rfl⟩ := Prod.mk.inj (Option.some.inj heq)
    have hopen := (Emission.opens_pushScope G).declareOption varName .ptr
    obtain ⟨hbody, hbodyNeeds⟩ := codegenBlock_emitted inLoop body hbody
    obtain ⟨hrest, hrestNeeds⟩ := codegenClauses_emitted inLoop rest hrest
    have hbodyScope := hbody.enclosed hopen
    constructor
    · exact hbodyScope.both hrest
    · intro s hs
      rcases hs with hs | hs
      · apply declared_needs hopen hbodyNeeds hs.1
        intro hV
        rcases hV with hV | ⟨id, hid, heq⟩
        · exact hV
        · exact hs.2 id hid heq
      · exact hbodyScope.visible_before (hrestNeeds s hs)

end

end Visuall.Codegen.Generators
