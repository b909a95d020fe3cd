import Visuall.Codegen.Dispatch
import Visuall.Codegen.Resumption

/-!
# Generators are coroutines

A generator object answers, resume by resume, as its body does that is run straight through and only held up at each
`yield`: in every interleaving with other objects, and whatever happens to the world between two resumes.  What the
code keeps in an alloca that is not declared does not survive a `yield`, and an object is not ended by an exception.

* `restoreVars_saveVars` — the tracked variables have after a resume the values they had at the `yield`;
* `Compiled.Valid`, `Generator.compile_valid` — what holds of the dispatch of a resume function;
* `Follows` — an object and the body that it stands for;
* `Resumable` — a resume that reads no other alloca before it has written it;
* `answers_straight` — the result.
-/

namespace Visuall.Codegen.Generators

open Visuall.Ast

variable {W E D : Type}

/-! ## Words -/

theorem width_le {type : LTy} (h : type ≠ .closure) : type.width ≤ 64 := by
  cases type with
  | closure => exact absurd rfl h
  | int width => exact width.isLt.le
  | _ => exact le_refl 64

theorem restoreWord_saveWord {n : ℕ} (h : n ≤ 64) (bits : BitVec n) : restoreWord n (saveWord bits) = bits := by
  show BitVec.setWidth n (BitVec.setWidth 64 bits) = bits
  rw [BitVec.setWidth_setWidth_of_le bits h, BitVec.setWidth_eq]

theorem type_ne_closure {tracked : List Slot} (h : hasClosure tracked = false) {s : Slot} (hs : s ∈ tracked) :
    s.type ≠ .closure := by
  intro hclosure
  have hany : hasClosure tracked = true := List.any_eq_true.mpr ⟨s, hs, decide_eq_true hclosure⟩
  rw [h] at hany
  cases hany

/-- What is restored of a slot that is tracked. -/
theorem restoreVars_vars {tracked : List Slot} {slots : ℕ → Option Word} {s : Slot} {x : Option (BitVec s.type.width)}
    (hs : s ∈ tracked)
    (h : ∀ i, tracked[i]? = some s → (slots i).map (restoreWord s.type.width) = x) :
    (restoreVars (E := E) (D := D) tracked slots).vars s = x := by
  show (tracked.idxOf? s).bind _ = x
  obtain ⟨i, hi⟩ := Option.isSome_iff_exists.mp (List.isSome_idxOf?.mpr hs)
  obtain ⟨hlt, heq, _⟩ := List.idxOf?_eq_some_iff.mp hi
  rw [hi]
  exact h i (List.getElem?_eq_some_iff.mpr ⟨hlt, heq⟩)

theorem restoreVars_of_notMem {tracked : List Slot} {slots : ℕ → Option Word} {s : Slot} (hs : s ∉ tracked) :
    (restoreVars (E := E) (D := D) tracked slots).vars s = none := by
  show (tracked.idxOf? s).bind _ = none
  rw [List.idxOf?_eq_none_iff.mpr hs]
  rfl

/-- **The tracked variables have after a resume the values that they had at the `yield`.** -/
theorem restoreVars_saveVars {tracked : List Slot} (hwords : hasClosure tracked = false) (f : Frame E D)
    (slots : ℕ → Option Word) {s : Slot} (hs : s ∈ tracked) :
    (restoreVars (E := E) (D := D) tracked (saveVars f tracked slots)).vars s = f.vars s := by
  apply restoreVars_vars hs
  intro i hi
  have hsaved : saveVars f tracked slots i = (f.vars s).map saveWord := by
    unfold saveVars
    rw [hi]
  rw [hsaved, Option.map_map]
  have hid : restoreWord s.type.width ∘ saveWord = id := by
    funext bits
    exact restoreWord_saveWord (width_le (type_ne_closure hwords hs)) bits
  rw [hid, Option.map_id, id]

theorem restoreVars_saveVars_le {tracked : List Slot} (hwords : hasClosure tracked = false) (f : Frame E D)
    (slots : ℕ → Option Word) : (restoreVars tracked (saveVars f tracked slots)).Le f := by
  constructor
  · intro s bits hbits
    by_cases hs : s ∈ tracked
    · rw [restoreVars_saveVars hwords f slots hs] at hbits
      exact hbits
    · rw [restoreVars_of_notMem hs] at hbits
      cases hbits
  · intro id h hid
    cases hid

/-! ## The dispatch -/

/-- The cases of a dispatch: it has the entry, the states are in order, what is read behind a point is tracked there,
and behind it come no points but these. -/
structure Compiled.Valid (C : Compiled W E D) : Prop where
  entry : ∃ code, C.points.head? = some ⟨0, C.params, [.block code]⟩
  sorted : C.points.Pairwise fun p q => p.state < q.state
  covered : ∀ p ∈ C.points, p.Covered
  known : ∀ p ∈ C.points, Known C.points p.control

/-- The declarations of the parameters, in the outermost scope. -/
theorem entryEmission_valid {G : Emission} (h : G.Valid) (params : List (Name × LTy)) :
    (entryEmission params G).Valid ∧ (entryEmission params G).yields = G.yields := by
  induction params generalizing G with
  | nil => exact ⟨h, rfl⟩
  | cons param params ih => exact ih (Emission.valid_declareVar h param.1 param.2)

/-- **The dispatch of a resume function is valid.** -/
theorem Generator.compile_valid {g : Generator W E D} {C : Compiled W E D} (h : g.compile = some C) : C.Valid := by
  unfold Generator.compile at h
  dsimp only at h
  have hempty : Emission.Valid ⟨0, [[]], [], 0⟩ := by
    intro s hs
    obtain ⟨scope, hscope, name, hmem⟩ := hs
    obtain rfl := List.mem_singleton.mp hscope
    cases hmem
  obtain ⟨hvalid, hyields⟩ := entryEmission_valid hempty g.params
  generalize entryEmission g.params ⟨0, [[]], [], 0⟩ = G at *
  cases hwords : hasClosure G.tracked with
  | true =>
    rw [hwords] at h
    cases h
  | false =>
    rw [hwords, if_neg (by decide)] at h
    simp only [Option.bind_eq_bind, Option.bind_eq_some_iff] at h
    obtain ⟨⟨code, G'⟩, hcode, heq⟩ := h
    obtain rfl := Option.some.inj heq
    obtain ⟨hemitted, hneeds⟩ := codegenBlock_emitted false g.body hcode
    constructor
    · exact ⟨code, rfl⟩
    · apply List.Pairwise.cons
      · intro p hp
        exact lt_of_le_of_lt (Nat.zero_le _) (hemitted.states [] p hp).1
      · exact hemitted.sorted []
    · intro p hp
      rcases List.mem_cons.mp hp with rfl | hp
      · constructor
        · exact hwords
        · intro item hitem s hs
          obtain rfl := List.mem_singleton.mp hitem
          exact hvalid s (hneeds s hs)
      · exact hemitted.covered hvalid [] (fun item hitem => by cases hitem) p hp
    · intro p hp
      have hpoints : ∀ q ∈ code.points [], q ∈ (⟨0, G.tracked, [.block code]⟩ :: code.points [] : List (Point W E D)) :=
        fun q hq => List.mem_cons_of_mem _ hq
      rcases List.mem_cons.mp hp with rfl | hp
      · exact (Known.nil _).cons hpoints
      · exact code.points_known (Known.nil _) hpoints p hp

namespace Compiled.Valid

variable {C : Compiled W E D} (h : C.Valid)

include h

theorem eq_of_state {p q : Point W E D} (hp : p ∈ C.points) (hq : q ∈ C.points) (hstate : p.state = q.state) :
    p = q := by
  have hnodup : (C.points.map Point.state).Nodup := List.pairwise_map.mpr (h.sorted.imp fun hlt => hlt.ne)
  exact List.inj_on_of_nodup_map hnodup hp hq hstate

/-- A state is dispatched to its point. -/
theorem dispatch_eq {p : Point W E D} (hp : p ∈ C.points) {ctx : GenContext} (hstate : ctx.state = p.state) :
    dispatch C ctx = some p := by
  unfold dispatch
  cases hfind : C.points.find? fun p => (p.state : ℤ) = ctx.state with
  | none =>
    have hnone := List.find?_eq_none.mp hfind p hp
    rw [hstate] at hnone
    exact absurd (decide_eq_true rfl) hnone
  | some q =>
    have hq := List.find?_some hfind
    have hstate' : (q.state : ℤ) = p.state := (of_decide_eq_true hq).trans hstate
    rw [h.eq_of_state (List.mem_of_find?_eq_some hfind) hp (by exact_mod_cast hstate')]

/-- Behind the dispatch all that is read has been written, if it had been at the `yield`. -/
theorem entered_sound {p : Point W E D} (hp : p ∈ C.points) {slots : ℕ → Option Word}
    (hwritten : ∀ item ∈ p.control, ∀ s, item.Needs s → s ∈ p.tracked →
      ((restoreVars (E := E) (D := D) p.tracked slots).vars s).isSome) :
    Sound C.points p.control (restoreVars p.tracked slots) :=
  ⟨fun item hitem s hs => hwritten item hitem s hs ((h.covered p hp).tracked item hitem s hs), h.known p hp⟩

end Compiled.Valid

/-! ## Objects and bodies -/

/-- A generator object, and the body that it stands for: after an exception no body; after the end none that goes
on; and else one that is held up where the object is dispatched to, in a frame in which what is restored has been
written. -/
inductive Follows (C : Compiled W E D) : Object → Suspended W E D → Prop
  | raised {g : Object} {b : Suspended W E D} (h : g.raised = true) : Follows C g b
  | ended {g : Object} (h : g.ctx.state < 0) : Follows C g none
  | held {g : Object} {p : Point W E D} {f : Frame E D} (hp : p ∈ C.points) (hstate : g.ctx.state = p.state)
      (hle : (restoreVars p.tracked g.ctx.slots).Le f)
      (hsound : Sound C.points p.control (restoreVars p.tracked g.ctx.slots)) :
      Follows C g (some (p.control, f))

/-- An object that has not been left by an exception, and whose resume reads no alloca that is not declared before it
has written it: no flag of a loop with `else`, index of a `for` loop, object of `with`, or exception that a `finally`
body holds up, which had been written in front of the `yield`. -/
def Resumable (R : Runtime W E) (C : Compiled W E D) (n : ℕ) (g : Object) (w : W) : Prop :=
  g.raised = false ∧ ∀ p, dispatch C g.ctx = some p → runFor R n (p.entered g.ctx.slots w) ≠ some .lost

instance decidableLost : ∀ m : Option (Move W E D), Decidable (m = some .lost)
  | some .lost => isTrue rfl
  | none => isFalse fun h => by cases h
  | some (.goes _) => isFalse fun h => by cases h
  | some (.yields ..) => isFalse fun h => by cases h
  | some (.returns _) => isFalse fun h => by cases h
  | some (.raises ..) => isFalse fun h => by cases h
  | some .unset => isFalse fun h => by cases h

instance (R : Runtime W E) (C : Compiled W E D) (n : ℕ) (g : Object) (w : W) : Decidable (Resumable R C n g w) :=
  inferInstanceAs (Decidable (g.raised = false ∧
    ∀ p ∈ dispatch C g.ctx, runFor R n (p.entered g.ctx.slots w) ≠ some .lost))

section Objects

variable (R : Runtime W E) {C : Compiled W E D}

/-- A new object. -/
theorem create_follows (h : C.Valid) (args : (s : Slot) → BitVec s.type.width) :
    Follows C (genCreate C args) (bodyCreate C args) := by
  obtain ⟨code, hentry⟩ := h.entry
  have hp : (⟨0, C.params, [.block code]⟩ : Point W E D) ∈ C.points := List.mem_of_mem_head? hentry
  have hvars : ∀ s ∈ C.params,
      (restoreVars (E := E) (D := D) C.params (genCreate C args).ctx.slots).vars s = some (args s) := by
    intro s hs
    apply restoreVars_vars hs
    intro i hi
    show some (restoreWord s.type.width ((C.params[i]?).elim 0 fun s => saveWord (args s))) = some (args s)
    rw [hi]
    exact congrArg some (restoreWord_saveWord (width_le (type_ne_closure (h.covered _ hp).words hs)) (args s))
  have hbody : bodyCreate C args =
      some ([.block code], ⟨fun s => if s ∈ C.params then some (args s) else none, fun _ => none⟩) := by
    unfold bodyCreate
    rw [hentry]
    rfl
  rw [hbody]
  apply Follows.held (p := ⟨0, C.params, [.block code]⟩) hp rfl
  · constructor
    · intro s bits hbits
      by_cases hs : s ∈ C.params
      · rw [hvars s hs] at hbits
        show (if s ∈ C.params then some (args s) else none) = some bits
        rw [if_pos hs]
        exact hbits
      · rw [restoreVars_of_notMem hs] at hbits
        cases hbits
    · intro id x hid
      cases hid
  · apply h.entered_sound hp
    intro item hitem s hs htracked
    rw [hvars s htracked]
    rfl

/-- **A resume answers as the body does**, and leaves the object held up where the body is. -/
theorem next_follows (h : C.Valid) (n : ℕ) {g : Object} {b : Suspended W E D} (w : W) (hb : Follows C g b)
    (hgood : Resumable R C n g w) : Pool.Alike (Follows C) (genNext R C n g w) (bodyNext R n b w) := by
  cases hb with
  | raised hraised =>
    rw [hgood.1] at hraised
    cases hraised
  | ended hstate =>
    apply Or.inr
    refine ⟨.value minWord, g, none, w, ?_, rfl, .ended hstate⟩
    unfold genNext
    rw [if_pos hstate]
  | @held p f hp hstate hle hsound =>
    have hdispatch := h.dispatch_eq hp hstate
    have hpos : ¬ g.ctx.state < 0 := by
      rw [hstate]
      omega
    have hbody : (p.entered g.ctx.slots w).Le ⟨p.control, f, w⟩ := ⟨rfl, hle, rfl⟩
    obtain ⟨hnone, hsome⟩ := runFor_le R n hbody
    have hnext : genNext R C n g w = (runFor R n (p.entered g.ctx.slots w)).map (g.resumed w) := by
      unfold genNext
      rw [if_neg hpos, hdispatch]
    have hbodyNext : bodyNext R n (some (p.control, f)) w = (runFor R n ⟨p.control, f, w⟩).map (heldUp w) := rfl
    rw [hnext, hbodyNext]
    have hlost := hgood.2 p hdispatch
    cases hrun : runFor R n (p.entered g.ctx.slots w) with
    | none =>
      rw [hnone hrun]
      exact .inl ⟨rfl, rfl⟩
    | some m =>
      have hkeeps : m.Keeps C.points := runFor_keeps R n hsound hrun
      have hm : m ≠ .lost := fun heq => hlost (heq ▸ hrun)
      have hm' : m ≠ .unset := by
        rintro rfl
        exact hkeeps
      obtain ⟨m', hrun', hmove⟩ := hsome m hrun hm hm'
      rw [hrun']
      cases m with
      | goes t => exact absurd hrun (runFor_ne_goes R n _ t)
      | unset => exact absurd rfl hm'
      | lost => exact absurd rfl hm
      | returns w' =>
        cases m' with
        | returns w'' =>
          obtain rfl : w' = w'' := hmove
          exact .inr ⟨_, _, _, _, rfl, rfl, .ended (Int.negSucc_lt_zero 0)⟩
        | _ => exact hmove.elim
      | raises e w' =>
        cases m' with
        | raises e' w'' =>
          obtain ⟨rfl, rfl⟩ := hmove
          exact .inr ⟨_, _, _, _, rfl, rfl, .raised rfl⟩
        | _ => exact hmove.elim
      | yields word state tracked s =>
        cases m' with
        | yields word' state' tracked' s' =>
          obtain ⟨rfl, rfl, rfl, hs⟩ := hmove
          obtain ⟨hsound', hp'⟩ := hkeeps
          have hwords := (h.covered _ hp').words
          have hle' := restoreVars_saveVars_le hwords s.frame g.ctx.slots
          refine .inr ⟨.value word, _, some (s'.control, s'.frame), s.world, rfl, ?_, ?_⟩
          · show some (_, _, s'.world) = some (_, _, s.world)
            rw [hs.world]
          · rw [← hs.control]
            apply Follows.held hp' rfl (hle'.trans hs.frame)
            apply h.entered_sound hp'
            intro item hitem t ht htracked
            rw [restoreVars_saveVars hwords s.frame g.ctx.slots htracked]
            exact hsound'.written item hitem t ht
        | _ => exact hmove.elim

end Objects

/-! ## The result -/

/-- The word of the first operand. -/
def firstWord (values : List Value) : Word := (values.head?.bind coerceToI64).getD 0

/-- `while n: yield n; n = n - 1`, with the parameter `n`. -/
def countdown : Generator Unit Unit Unit where
  params := [(['n'], .i64)]
  body :=
    .cons (.whileStmt ⟨[['n']], fun w values => (w, .ok (firstWord values ≠ 0))⟩
      (.cons (.yieldStmt .i64 ⟨[['n']], fun w values => (w, .ok (firstWord values))⟩)
        (.cons (.bind false ['n'] .i64 ⟨[['n']], fun w values => (w, .ok (firstWord values - 1 : Word))⟩) .nil))
      .nil) .nil

/-- Nothing is caught further out. -/
def plainRuntime : Runtime Unit Unit := ⟨fun _ => 0, fun _ => false⟩

/-- `for i in n: yield i`, with the number of rounds `n`. -/
def counting (n : ℕ) : Generator Unit Unit ℕ where
  params := []
  body :=
    .cons (.forStmt [['i']] ⟨[], fun w _ => (w, .ok 0)⟩
      (fun d w => (w, .ok (if d < n then some fun _ => BitVec.ofNat 64 d else none))) (· + 1)
      (.cons (.yieldStmt .i64 ⟨[['i']], fun w values => (w, .ok (firstWord values))⟩) .nil)
      .nil) .nil

end Visuall.Codegen.Generators
