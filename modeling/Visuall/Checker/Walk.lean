import Visuall.Checker.Names

/-!
# Walking over the names of a program

What the checker does with names, without the types: it keeps the set of the names in scope and a flat
set of consts, and reports.  Types only decide where a walk is cut short, whether the value of a send is
looked at, and which other errors come up on the way.

* `Walk acts s out rs` — over the acts from `s`, ending in `out`, or thrown out of them, with the
  reports `rs`;
* `Walk.append` — walks one behind the other;
* `Walk.mono` — nothing is forgotten.
-/

namespace Visuall.Checker

open Visuall.Ast

/-- The names in scope, and the names of consts met so far. -/
@[ext] structure Known where
  visible : Set Name
  consts : Set Name

/-- What of an error matters for names. -/
inductive Report
  | undefined (name : Occurrence)
  | constant (name : Name) (pos : Position)
  /-- A send to what is no channel. -/
  | unsent
  | other
  deriving DecidableEq

/-- The occurrence that `this` is reported as. -/
def thisName : Occurrence := { name := "this".toList }

namespace Known

/-- A name more in scope. -/
def declare (s : Known) (name : Name) : Known := { s with visible := insert name s.visible }

/-- A const more. -/
def declareConst (s : Known) (name : Name) : Known :=
  ⟨insert name s.visible, insert name s.consts⟩

/-- A name can be looked up without a report. -/
def Resolves (s : Known) (name : Name) : Prop := name ∈ s.visible ∨ name ∈ builtins

end Known

/-- A walk. -/
inductive Walk : List NameAct → Known → Option Known → List Report → Prop
  | nil {s} : Walk [] s (some s) []
  | cut {acts s} : Walk acts s none []
  | other {acts s out rs} : Walk acts s out rs → Walk acts s out (.other :: rs)
  | use {x as s out rs} : s.Resolves x.name → Walk as s out rs → Walk (.use x :: as) s out rs
  | useUndefined {x as s out rs} :
      ¬ s.Resolves x.name → Walk as s out rs → Walk (.use x :: as) s out (.undefined x :: rs)
  | this {as s out rs} : s.Resolves thisName.name → Walk as s out rs → Walk (.this :: as) s out rs
  | thisUndefined {as s out rs} :
      ¬ s.Resolves thisName.name → Walk as s out rs →
      Walk (.this :: as) s out (.undefined thisName :: rs)
  | bind {n as s out rs} : Walk as (s.declare n) out rs → Walk (.bind n :: as) s out rs
  | rebind {n as s out rs} : Walk as (s.declare n) out rs → Walk (.rebind n :: as) s out rs
  | assign {n pos value as s s₁ out r₁ r₂} :
      n ∉ s.consts → Walk value s (some s₁) r₁ → Walk as (s₁.declare n) out r₂ →
      Walk (.assign n pos value :: as) s out (r₁ ++ r₂)
  | assignCut {n pos value as s r₁} :
      n ∉ s.consts → Walk value s none r₁ → Walk (.assign n pos value :: as) s none r₁
  | assignConst {n pos value as s s₁ out r₁ r₂} :
      n ∈ s.consts → Walk value s (some s₁) r₁ → Walk as s₁ out r₂ →
      Walk (.assign n pos value :: as) s out (.constant n pos :: (r₁ ++ r₂))
  | assignConstCut {n pos value as s r₁} :
      n ∈ s.consts → Walk value s none r₁ →
      Walk (.assign n pos value :: as) s none (.constant n pos :: r₁)
  | const {n as s out rs} : Walk as (s.declareConst n) out rs → Walk (.const n :: as) s out rs
  | constAgain {n as s out rs} :
      n ∈ s.visible → Walk as s out rs → Walk (.const n :: as) s out (.other :: rs)
  | del {n as s out rs} : Walk as s out rs → Walk (.del n :: as) s out rs
  | scope {body as s s₁ out r₁ r₂} :
      Walk body s (some s₁) r₁ → Walk as { s with consts := s₁.consts } out r₂ →
      Walk (.scope body :: as) s out (r₁ ++ r₂)
  | scopeCut {body as s r₁} : Walk body s none r₁ → Walk (.scope body :: as) s none r₁
  | skipped {body as s out rs} : Walk as s out rs → Walk (.skipped body :: as) s out rs
  | sent {body as s s₁ out r₁ r₂} :
      Walk body s (some s₁) r₁ → Walk as s₁ out r₂ → Walk (.sent body :: as) s out (r₁ ++ r₂)
  | sentCut {body as s r₁} : Walk body s none r₁ → Walk (.sent body :: as) s none r₁
  | unsent {body as s out rs} : Walk as s out rs → Walk (.sent body :: as) s out (.unsent :: rs)

variable {acts as bs body : List NameAct} {s s₁ : Known} {mid out : Option Known} {rs r₁ r₂ : List Report}

namespace Walk

/-! ## Putting walks together -/

/-- Two walks one behind the other; nothing follows one that is cut. -/
theorem append (h : Walk as s mid r₁) (hsome : ∀ s₁, mid = some s₁ → Walk bs s₁ out r₂)
    (hnone : mid = none → out = none ∧ r₂ = []) : Walk (as ++ bs) s out (r₁ ++ r₂) := by
  induction h with
  | nil => exact hsome _ rfl
  | cut =>
      obtain ⟨rfl, rfl⟩ := hnone rfl
      exact .cut
  | other _ ih => exact .other (ih hsome hnone)
  | use hx _ ih => exact .use hx (ih hsome hnone)
  | useUndefined hx _ ih => exact .useUndefined hx (ih hsome hnone)
  | this hx _ ih => exact .this hx (ih hsome hnone)
  | thisUndefined hx _ ih => exact .thisUndefined hx (ih hsome hnone)
  | bind _ ih => exact .bind (ih hsome hnone)
  | rebind _ ih => exact .rebind (ih hsome hnone)
  | assign hn hvalue _ _ ih =>
      rw [List.append_assoc]
      exact .assign hn hvalue (ih hsome hnone)
  | assignCut hn hvalue =>
      obtain ⟨rfl, rfl⟩ := hnone rfl
      rw [List.append_nil]
      exact .assignCut hn hvalue
  | assignConst hn hvalue _ _ ih =>
      rw [List.cons_append, List.cons_append, List.append_assoc]
      exact .assignConst hn hvalue (ih hsome hnone)
  | assignConstCut hn hvalue =>
      obtain ⟨rfl, rfl⟩ := hnone rfl
      rw [List.append_nil]
      exact .assignConstCut hn hvalue
  | const _ ih => exact .const (ih hsome hnone)
  | constAgain hn _ ih => exact .constAgain hn (ih hsome hnone)
  | del _ ih => exact .del (ih hsome hnone)
  | scope hbody _ _ ih =>
      rw [List.append_assoc]
      exact .scope hbody (ih hsome hnone)
  | scopeCut hbody =>
      obtain ⟨rfl, rfl⟩ := hnone rfl
      rw [List.append_nil]
      exact .scopeCut hbody
  | skipped _ ih => exact .skipped (ih hsome hnone)
  | sent hbody _ _ ih =>
      rw [List.append_assoc]
      exact .sent hbody (ih hsome hnone)
  | sentCut hbody =>
      obtain ⟨rfl, rfl⟩ := hnone rfl
      rw [List.append_nil]
      exact .sentCut hbody
  | unsent _ ih => exact .unsent (ih hsome hnone)

theorem append_some (h : Walk as s (some s₁) r₁) (h' : Walk bs s₁ out r₂) :
    Walk (as ++ bs) s out (r₁ ++ r₂) := by
  refine h.append (fun s₂ hs => ?_) (fun hs => by cases hs)
  cases hs
  exact h'

theorem append_none (h : Walk as s none r₁) : Walk (as ++ bs) s none r₁ := by
  have happend : Walk (as ++ bs) s none (r₁ ++ []) :=
    h.append (fun _ hs => by cases hs) (fun _ => ⟨rfl, rfl⟩)
  rwa [List.append_nil] at happend

/-- Names stay in scope to the end of the block, and consts stay consts. -/
theorem mono (h : Walk acts s (some s₁) rs) : s.visible ⊆ s₁.visible ∧ s.consts ⊆ s₁.consts := by
  generalize hmid : some s₁ = mid at h
  induction h generalizing s₁ with
  | nil =>
      cases hmid
      exact ⟨subset_rfl, subset_rfl⟩
  | cut | scopeCut | sentCut | assignCut | assignConstCut => cases hmid
  | other _ ih | use _ _ ih | useUndefined _ _ ih | this _ _ ih | thisUndefined _ _ ih
  | constAgain _ _ ih | del _ ih | skipped _ ih | unsent _ ih => exact ih hmid
  | bind _ ih | rebind _ ih => exact (ih hmid).imp_left (Set.subset_insert _ _).trans
  | const _ ih => exact (ih hmid).imp (Set.subset_insert _ _).trans (Set.subset_insert _ _).trans
  | assign _ _ _ ihvalue ih =>
      exact (ih hmid).imp ((ihvalue rfl).1.trans (Set.subset_insert _ _)).trans (ihvalue rfl).2.trans
  | scope _ _ ihbody ih => exact (ih hmid).imp_right (ihbody rfl).2.trans
  | assignConst _ _ _ ihvalue ih | sent _ _ ihvalue ih => exact (ih hmid).imp (ihvalue rfl).1.trans (ihvalue rfl).2.trans

/-! ## Walks over little -/

theorem of_nil (h : Walk [] s out rs) : (out = none ∨ out = some s) ∧ ∀ r ∈ rs, r = .other := by
  generalize hacts : ([] : List NameAct) = acts at h
  induction h with
  | nil => exact ⟨.inr rfl, fun r hr => absurd hr List.not_mem_nil⟩
  | cut => exact ⟨.inl rfl, fun r hr => absurd hr List.not_mem_nil⟩
  | other _ ih =>
      obtain ⟨hout, hrs⟩ := ih hacts
      exact ⟨hout, List.forall_mem_cons.mpr ⟨rfl, hrs⟩⟩
  | _ => cases hacts

theorem of_bind {n : Name} (h : Walk [.bind n] s out rs) :
    (out = none ∨ out = some (s.declare n)) ∧ ∀ r ∈ rs, r = .other := by
  generalize hacts : [NameAct.bind n] = acts at h
  induction h with
  | nil => cases hacts
  | cut => exact ⟨.inl rfl, fun r hr => absurd hr List.not_mem_nil⟩
  | other _ ih =>
      obtain ⟨hout, hrs⟩ := ih hacts
      exact ⟨hout, List.forall_mem_cons.mpr ⟨rfl, hrs⟩⟩
  | bind h _ =>
      cases hacts
      exact of_nil h
  | _ => cases hacts

/-- Other errors on the way. -/
theorem others (hrs : ∀ r ∈ r₁, r = .other) (h : Walk acts s out r₂) :
    Walk acts s out (r₁ ++ r₂) := by
  induction r₁ with
  | nil => exact h
  | cons r r₁ ih =>
      obtain ⟨rfl, hrest⟩ := List.forall_mem_cons.mp hrs
      exact .other (ih hrest)

end Walk

end Visuall.Checker
