import Visuall.Checker.Refinement

/-!
# Names in scope

What the walks of the checker say of the names of a program.

* `Walk.declared` — without a report, every use that a visitor sees is declared;
* `Walk.undefined` — where no binding is passed over, names are reported outside the scope of their
  bindings only;
* `Walk.unassigned` — without a report, no visitor sees an assignment to a const;
* `Walk.constant` — only assignments to names of consts declared before are rejected;
* `check_walks` — the checker walks over the names of its program.
-/

namespace Visuall.Checker

open Visuall.Ast NameAct

variable {acts as : List NameAct} {s s₁ : Known} {out : Option Known} {rs : List Report} {E : Env}
  {hidden : Bool} {m : Moment} {n k : Name} {p : List Stmt}

/-! ## Environments -/

namespace Env

theorem declares_bind (E : Env) (b : Bool) : (E.bind n b).Declares k ↔ k = n ∨ E.Declares k := by
  show k ∈ n :: E.bindings.map Prod.fst ↔ _
  rw [List.mem_cons]
  exact Iff.rfl

theorem declares_bindMissing (E : Env) (names : List Name) :
    (E.bindMissing names).Declares k ↔ E.Declares k ∨ k ∈ names := by
  induction names generalizing E with
  | nil => simp [bindMissing]
  | cons n names ih =>
      show (bindMissing _ names).Declares k ↔ _
      rw [ih, List.mem_cons]
      dsimp only
      split_ifs with hn
      · constructor
        · rintro (h | h)
          · exact .inl h
          · exact .inr (.inr h)
        · rintro (h | rfl | h)
          · exact .inl h
          · exact .inl hn
          · exact .inr h
      · rw [declares_bind]
        tauto

theorem bindMissing_consts (E : Env) (names : List Name) : (E.bindMissing names).consts = E.consts := by
  induction names generalizing E with
  | nil => rfl
  | cons n names ih =>
      show (bindMissing _ names).consts = _
      rw [ih]
      dsimp only
      split_ifs <;> rfl

theorem isConst_bind (E : Env) (b : Bool) (h : (E.bind n b).IsConst k) : k = n ∧ b = true ∨ E.IsConst k := by
  have hlookup : ((n, b) :: E.bindings).lookup k = some true := h
  rw [List.lookup_cons] at hlookup
  by_cases hkn : k = n
  · rw [hkn, beq_self_eq_true] at hlookup
    exact .inl ⟨hkn, Option.some.inj hlookup⟩
  · rw [beq_eq_false_iff_ne.mpr hkn] at hlookup
    exact .inr hlookup

theorem isConst_bind_false (h : (E.bind n false).IsConst k) : E.IsConst k :=
  (isConst_bind E false h).resolve_left fun h => Bool.false_ne_true h.2

theorem isConst_bindMissing {names : List Name} (h : (E.bindMissing names).IsConst k) : E.IsConst k := by
  induction names generalizing E with
  | nil => exact h
  | cons n names ih =>
      have hk := ih (E := if E.Declares n then E else E.bind n false) h
      split_ifs at hk
      · exact hk
      · exact isConst_bind_false hk

end Env

mutual

theorem declares_after (E : Env) : (a : NameAct) →
    ((after E a).Declares k ↔ E.Declares k ∨ k ∈ binds a)
  | .bind n => by
      rw [after, binds, Env.declares_bind, List.mem_singleton, or_comm]
  | .rebind n => by
      rw [after, binds, Env.declares_bind, List.mem_singleton, or_comm]
  | .const n => by
      rw [after, binds, List.mem_singleton, or_comm]
      exact Env.declares_bind E true
  | .assign n pos value => by
      rw [after, binds, Env.declares_bindMissing, declares_afterAll E value, List.mem_append, or_assoc]
  | .skipped body => by rw [after, binds, Env.declares_bindMissing]
  | .sent body => by
      rw [after, binds]
      exact Env.declares_bindMissing E _
  | .scope body => by
      rw [after, binds]
      simp [Env.Declares]
  | .use _ => by simp [after, binds]
  | .this => by simp [after, binds]
  | .del _ => by simp [after, binds]

theorem declares_afterAll (E : Env) : (acts : List NameAct) →
    ((afterAll E acts).Declares k ↔ E.Declares k ∨ k ∈ bindsAll acts)
  | [] => by simp [afterAll, bindsAll]
  | a :: acts => by
      rw [afterAll, bindsAll, declares_afterAll (after E a) acts, declares_after E a, List.mem_append,
        or_assoc]

end

mutual

theorem consts_after (E : Env) : (a : NameAct) → E.consts ⊆ (after E a).consts
  | .bind _ => by rw [after]; exact List.Subset.refl _
  | .rebind _ => by rw [after]; exact List.Subset.refl _
  | .const _ => by rw [after]; exact List.subset_cons_self _ _
  | .assign _ _ value => by
      rw [after, Env.bindMissing_consts]
      exact consts_afterAll E value
  | .skipped _ => by
      rw [after, Env.bindMissing_consts]
      exact List.Subset.refl _
  | .sent body => by
      rw [after]
      exact consts_afterAll E body
  | .scope body => by
      rw [after]
      exact consts_afterAll E body
  | .use _ => by rw [after]; exact List.Subset.refl _
  | .this => by rw [after]; exact List.Subset.refl _
  | .del _ => by rw [after]; exact List.Subset.refl _

theorem consts_afterAll (E : Env) : (acts : List NameAct) → E.consts ⊆ (afterAll E acts).consts
  | [] => by rw [afterAll]; exact List.Subset.refl _
  | a :: acts => by
      rw [afterAll]
      exact fun _ h => consts_afterAll (after E a) acts (consts_after E a h)

end

mutual

/-- Inside a part that no visitor goes into, everything is hidden. -/
theorem hidden_of_mem_momentsOf (E : Env) : (a : NameAct) → m ∈ momentsOf true E a → m.hidden = true
  | .scope body, hm => by
      rw [momentsOf] at hm
      exact hidden_of_mem_momentsAll E body hm
  | .skipped body, hm | .sent body, hm | .assign _ _ body, hm => by
      rw [momentsOf] at hm
      rcases List.mem_cons.mp hm with rfl | hm
      · rfl
      · exact hidden_of_mem_momentsAll E body hm
  | .bind _, hm | .rebind _, hm | .const _, hm | .use _, hm | .this, hm | .del _, hm => by
      rw [List.mem_singleton.mp hm]

theorem hidden_of_mem_momentsAll (E : Env) : (acts : List NameAct) →
    m ∈ momentsAll true E acts → m.hidden = true
  | [], hm => absurd hm (by simp [momentsAll])
  | a :: acts, hm => by
      rw [momentsAll] at hm
      rcases List.mem_append.mp hm with hm | hm
      · exact hidden_of_mem_momentsOf E a hm
      · exact hidden_of_mem_momentsAll (after E a) acts hm

end

/-! ## Moments -/

namespace Moment

/-- The occurrence that is looked up here. -/
def used (m : Moment) : Option Occurrence :=
  match m.act with
  | .use x => some x
  | .this => some thisName
  | _ => none

/-- What is looked up here is declared in an enclosing scope or a builtin. -/
def Declared (m : Moment) : Prop := ∀ x ∈ m.used, m.env.Declares x.name ∨ x.name ∈ builtins

instance (m : Moment) : Decidable m.Declared :=
  inferInstanceAs (Decidable (∀ x ∈ m.used, m.env.Declares x.name ∨ x.name ∈ builtins))

/-- The names that are bound here and that the visitors pass over: those of a part that they do not go
into, and the target of an assignment with the name of some const. -/
def passedOver (m : Moment) : List Name :=
  match m.act with
  | .skipped body => bindsAll body
  | .assign n _ _ => if n ∈ m.env.consts then [n] else []
  | _ => []

/-- The names that are bound here when the value of a send is checked. -/
def sentNames (m : Moment) : List Name :=
  match m.act with
  | .sent body => bindsAll body
  | _ => []

/-- No name is passed over that is not in scope anyway. -/
def Kept (m : Moment) : Prop := ∀ n ∈ m.passedOver, m.env.Declares n

/-- No name would be passed over if the value was not checked. -/
def SentKept (m : Moment) : Prop := ∀ n ∈ m.sentNames, m.env.Declares n

instance (m : Moment) : Decidable m.Kept :=
  inferInstanceAs (Decidable (∀ n ∈ m.passedOver, m.env.Declares n))

instance (m : Moment) : Decidable m.SentKept :=
  inferInstanceAs (Decidable (∀ n ∈ m.sentNames, m.env.Declares n))

end Moment

theorem Moment.mem_passedOver {pos : Position} {value : List NameAct} (hn : n ∈ E.consts) :
    n ∈ (Moment.mk hidden E (.assign n pos value)).passedOver := by
  show n ∈ if n ∈ E.consts then [n] else []
  rw [if_pos hn]
  exact List.mem_singleton_self n

theorem momentsAll_subset_scope (E : Env) (body : List NameAct) :
    momentsAll false E body ⊆ momentsOf false E (.scope body) := by
  rw [momentsOf]
  exact List.Subset.refl _

theorem momentsAll_subset_sent (E : Env) (body : List NameAct) :
    momentsAll false E body ⊆ momentsOf false E (.sent body) := by
  rw [momentsOf]
  exact List.subset_cons_self _ _

theorem momentsAll_subset_assign {pos : Position} (E : Env) (value : List NameAct) :
    momentsAll false E value ⊆ momentsOf false E (.assign n pos value) := by
  rw [momentsOf]
  exact List.subset_cons_self _ _

theorem forall_momentsAll_cons {P : Moment → Prop} {a : NameAct} :
    (∀ m ∈ momentsAll hidden E (a :: acts), P m) ↔
      (∀ m ∈ momentsOf hidden E a, P m) ∧ ∀ m ∈ momentsAll hidden (after E a) acts, P m := by
  rw [momentsAll]
  exact List.forall_mem_append

/-- What no visitor goes into needs no proof of what holds where one does. -/
theorem forall_seen_momentsOf_skipped {P : Moment → Prop} {body : List NameAct} :
    (∀ m ∈ momentsOf false E (.skipped body), m.hidden = false → P m) ↔
      P ⟨false, E, .skipped body⟩ := by
  rw [momentsOf, List.forall_mem_cons]
  constructor
  · intro h
    exact h.1 rfl
  · intro h
    refine ⟨fun _ => h, fun m hm hseen => ?_⟩
    rw [hidden_of_mem_momentsAll E body hm] at hseen
    cases hseen

namespace Walk

/-! ## Uses -/

/-- Nothing comes into scope that the acts do not bind. -/
theorem visible_subset (h : Walk acts s (some s₁) rs) (hk : k ∈ s₁.visible) :
    k ∈ s.visible ∨ k ∈ bindsAll acts := by
  generalize hmid : some s₁ = mid at h
  induction h generalizing s₁ with
  | nil =>
      cases hmid
      exact .inl hk
  | cut | scopeCut | sentCut | assignCut | assignConstCut => cases hmid
  | other _ ih => exact ih hk hmid
  | use _ _ ih | useUndefined _ _ ih | this _ _ ih | thisUndefined _ _ ih | constAgain _ _ ih | del _ ih
  | skipped _ ih | unsent _ ih | scope _ _ _ ih =>
      rw [bindsAll, List.mem_append]
      exact (ih hk hmid).imp_right .inr
  | bind _ ih | rebind _ ih | const _ ih =>
      rw [bindsAll, binds, List.mem_append, List.mem_singleton]
      rcases ih hk hmid with (rfl | hk) | hk
      · exact .inr (.inl rfl)
      · exact .inl hk
      · exact .inr (.inr hk)
  | assign _ _ _ ihvalue ih =>
      rw [bindsAll, binds, List.mem_append, List.mem_append, List.mem_singleton]
      rcases ih hk hmid with (rfl | hk) | hk
      · exact .inr (.inl (.inr rfl))
      · exact (ihvalue hk rfl).imp_right fun h => .inl (.inl h)
      · exact .inr (.inr hk)
  | assignConst _ _ _ ihvalue ih =>
      rw [bindsAll, binds, List.mem_append, List.mem_append, List.mem_singleton]
      rcases ih hk hmid with hk | hk
      · exact (ihvalue hk rfl).imp_right fun h => .inl (.inl h)
      · exact .inr (.inr hk)
  | sent _ _ ihvalue ih =>
      rw [bindsAll, binds, List.mem_append]
      rcases ih hk hmid with hk | hk
      · exact (ihvalue hk rfl).imp_right .inl
      · exact .inr (.inr hk)

/-- The names in scope behind a binding. -/
theorem insert_declares {a : NameAct} (hn : n ∈ binds a) (hE : ∀ k ∈ s.visible, E.Declares k) :
    ∀ k ∈ insert n s.visible, (after E a).Declares k := by
  intro k hk
  rw [declares_after]
  rcases hk with rfl | hk
  · exact .inr hn
  · exact .inl (hE k hk)

theorem declares_of_after {a : NameAct} (hE : ∀ k ∈ s.visible, E.Declares k) :
    ∀ k ∈ s.visible, (after E a).Declares k := by
  intro k hk
  rw [declares_after]
  exact .inl (hE k hk)

/-- **Without a report, every use that a visitor sees is declared.** -/
theorem declared (h : Walk acts s (some s₁) []) (hE : ∀ k ∈ s.visible, E.Declares k) :
    ∀ m ∈ momentsAll false E acts, m.hidden = false → m.Declared := by
  generalize hmid : some s₁ = mid at h
  generalize hrs : ([] : List Report) = rs at h
  induction h generalizing s₁ E with
  | nil =>
      intro m hm
      exact absurd hm List.not_mem_nil
  | cut | scopeCut | sentCut | assignCut | assignConstCut => cases hmid
  | other | useUndefined | thisUndefined | constAgain | unsent | assignConst => cases hrs
  | use hx _ ih =>
      rw [forall_momentsAll_cons, momentsOf, List.forall_mem_singleton]
      refine ⟨fun _ x hx' => ?_, ih (declares_of_after hE) hmid hrs⟩
      cases hx'
      exact hx.imp_left (hE _)
  | this hx _ ih =>
      rw [forall_momentsAll_cons, momentsOf, List.forall_mem_singleton]
      refine ⟨fun _ x hx' => ?_, ih (declares_of_after hE) hmid hrs⟩
      cases hx'
      exact hx.imp_left (hE _)
  | bind _ ih | rebind _ ih | const _ ih =>
      rw [forall_momentsAll_cons, momentsOf, List.forall_mem_singleton]
      refine ⟨fun _ x hx => ?_, ih (insert_declares (List.mem_singleton_self _) hE) hmid hrs⟩
      cases hx
  | del _ ih =>
      rw [forall_momentsAll_cons, momentsOf, List.forall_mem_singleton]
      refine ⟨fun _ x hx => ?_, ih (declares_of_after hE) hmid hrs⟩
      cases hx
  | skipped _ ih =>
      rw [forall_momentsAll_cons, forall_seen_momentsOf_skipped]
      refine ⟨fun x hx => ?_, ih (declares_of_after hE) hmid hrs⟩
      cases hx
  | scope hbody _ ihbody ih =>
      obtain ⟨rfl, rfl⟩ := List.append_eq_nil_iff.mp hrs.symm
      rw [forall_momentsAll_cons, momentsOf]
      exact ⟨ihbody hE rfl rfl, ih (declares_of_after hE) hmid rfl⟩
  | sent hbody _ ihbody ih =>
      obtain ⟨rfl, rfl⟩ := List.append_eq_nil_iff.mp hrs.symm
      rw [forall_momentsAll_cons, momentsOf, List.forall_mem_cons]
      refine ⟨⟨fun _ x hx => ?_, ihbody hE rfl rfl⟩, ih (fun k hk => ?_) hmid rfl⟩
      · cases hx
      · rw [declares_after, binds]
        exact (hbody.visible_subset hk).imp_left (hE k)
  | assign _ hvalue _ ihvalue ih =>
      obtain ⟨rfl, rfl⟩ := List.append_eq_nil_iff.mp hrs.symm
      rw [forall_momentsAll_cons, momentsOf, List.forall_mem_cons]
      refine ⟨⟨fun _ x hx => ?_, ihvalue hE rfl rfl⟩, ih (fun k hk => ?_) hmid rfl⟩
      · cases hx
      · rw [declares_after, binds, List.mem_append, List.mem_singleton]
        rcases hk with rfl | hk
        · exact .inr (.inr rfl)
        · exact (hvalue.visible_subset hk).imp (hE k) .inl

/-! ## Bindings -/

end Walk

/-- What is in scope is known to the visitors, and they know no other consts. -/
structure Env.Covers (E : Env) (s : Known) : Prop where
  visible : ∀ k, E.Declares k → k ∈ s.visible
  consts : ∀ k ∈ s.consts, k ∈ E.consts

namespace Env.Covers

theorem bind (h : E.Covers s) (b : Bool) : (E.bind n b).Covers (s.declare n) := by
  refine ⟨fun k hk => ?_, h.consts⟩
  rw [declares_bind] at hk
  exact hk.imp_right (h.visible k)

theorem bindMissing {names : List Name} (h : E.Covers s) (hnames : ∀ k ∈ names, k ∈ s.visible) :
    (E.bindMissing names).Covers s := by
  constructor
  · intro k hk
    rw [declares_bindMissing] at hk
    exact hk.elim (h.visible k) (hnames k)
  · intro k hk
    rw [bindMissing_consts]
    exact h.consts k hk

theorem declare (h : E.Covers s) (n : Name) : (E.bindMissing [n]).Covers (s.declare n) := by
  constructor
  · intro k hk
    rw [declares_bindMissing, List.mem_singleton] at hk
    exact hk.elim (fun hk => .inr (h.visible k hk)) .inl
  · intro k hk
    rw [bindMissing_consts]
    exact h.consts k hk

theorem const (h : E.Covers s) : (after E (.const n)).Covers (s.declareConst n) := by
  constructor
  · intro k hk
    exact (h.bind true).visible k hk
  · intro k hk
    exact List.mem_cons.mpr (hk.imp_right (h.consts k))

theorem constAgain (h : E.Covers s) (hn : n ∈ s.visible) : (after E (.const n)).Covers s := by
  constructor
  · intro k hk
    rw [declares_after, binds, List.mem_singleton] at hk
    rcases hk with hk | rfl
    · exact h.visible k hk
    · exact hn
  · intro k hk
    exact List.mem_cons_of_mem _ (h.consts k hk)

theorem scope {body : List NameAct} (h : E.Covers s) (hbody : (afterAll E body).Covers s₁) :
    (after E (.scope body)).Covers { s with consts := s₁.consts } :=
  ⟨h.visible, hbody.consts⟩

theorem sent {body : List NameAct} (hbody : (afterAll E body).Covers s₁) :
    (after E (.sent body)).Covers s₁ := by
  refine ⟨fun k hk => ?_, hbody.consts⟩
  rw [declares_after, binds, ← declares_afterAll] at hk
  exact hbody.visible k hk

theorem unsent {body : List NameAct} (h : E.Covers s) (hnames : ∀ k ∈ bindsAll body, k ∈ s.visible) :
    (after E (.sent body)).Covers s :=
  ⟨(h.bindMissing hnames).visible, fun k hk => consts_afterAll E body (h.consts k hk)⟩

end Env.Covers

/-- Each report of a form is explained by a moment that a visitor sees. -/
def Explained {α : Type} (form : α → Report) (P : α → Moment → Prop) (E : Env) (acts : List NameAct)
    (rs : List Report) : Prop :=
  ∀ x, form x ∈ rs → ∃ m ∈ momentsAll false E acts, m.hidden = false ∧ P x m

namespace Explained

variable {α : Type} {form : α → Report} {P : α → Moment → Prop} {r₁ r₂ : List Report} {a : NameAct}

theorem nil : Explained form P E acts [] := fun _ hx => absurd hx List.not_mem_nil

/-- Reports on an act, then reports on the ones behind it. -/
theorem cons (hhead : ∀ x, form x ∈ r₁ → ∃ m ∈ momentsOf false E a, m.hidden = false ∧ P x m)
    (htail : Explained form P (after E a) acts r₂) : Explained form P E (a :: acts) (r₁ ++ r₂) := by
  intro x hx
  rw [momentsAll]
  rcases List.mem_append.mp hx with hx | hx
  · obtain ⟨m, hm, h⟩ := hhead x hx
    exact ⟨m, List.mem_append_left _ hm, h⟩
  · obtain ⟨m, hm, h⟩ := htail x hx
    exact ⟨m, List.mem_append_right _ hm, h⟩

/-- No report on an act. -/
theorem skip (htail : Explained form P (after E a) acts rs) : Explained form P E (a :: acts) rs := by
  show Explained form P E (a :: acts) ([] ++ rs)
  exact cons (fun _ hx => absurd hx List.not_mem_nil) htail

/-- A report on an act, then reports on the ones behind it. -/
theorem report {r : Report} (hhead : ∀ x, form x = r → ∃ m ∈ momentsOf false E a, m.hidden = false ∧ P x m)
    (htail : Explained form P (after E a) acts rs) : Explained form P E (a :: acts) (r :: rs) := by
  show Explained form P E (a :: acts) ([r] ++ rs)
  exact cons (fun x hx => hhead x (List.mem_singleton.mp hx)) htail

/-- Reports on an act from inside it, then reports on the ones behind it. -/
theorem body {body : List NameAct} (hbody : Explained form P E body r₁)
    (hsub : momentsAll false E body ⊆ momentsOf false E a)
    (htail : Explained form P (after E a) acts r₂) : Explained form P E (a :: acts) (r₁ ++ r₂) := by
  refine cons (fun x hx => ?_) htail
  obtain ⟨m, hm, h⟩ := hbody x hx
  exact ⟨m, hsub hm, h⟩

/-- Reports on an act from inside it, where the walk is cut. -/
theorem bodyCut {body : List NameAct} (hbody : Explained form P E body rs)
    (hsub : momentsAll false E body ⊆ momentsOf false E a) : Explained form P E (a :: acts) rs := by
  have hcut : Explained form P E (a :: acts) (rs ++ []) := hbody.body hsub .nil
  rwa [List.append_nil] at hcut

/-- A report of another form. -/
theorem other {r : Report} (hr : ∀ x, form x ≠ r) (h : Explained form P E acts rs) :
    Explained form P E acts (r :: rs) := by
  intro x hx
  rcases List.mem_cons.mp hx with hx | hx
  · exact absurd hx (hr x)
  · exact h x hx

end Explained

namespace Moment

/-- The occurrence is looked up here, outside the scope of every binding of its name. -/
def Undeclared (x : Occurrence) (m : Moment) : Prop := x ∈ m.used ∧ ¬ m.env.Declares x.name

instance (x : Occurrence) (m : Moment) : Decidable (m.Undeclared x) :=
  inferInstanceAs (Decidable (x ∈ m.used ∧ ¬ m.env.Declares x.name))

end Moment

namespace Walk

/-- **Where no binding is passed over, names are reported outside the scope of their bindings only**, and
what is in scope stays known. -/
theorem undefined (h : Walk acts s out rs) (hE : E.Covers s)
    (hkept : ∀ m ∈ momentsAll false E acts, m.hidden = false → m.Kept)
    (hsent : .unsent ∈ rs → ∀ m ∈ momentsAll false E acts, m.hidden = false → m.SentKept) :
    Explained .undefined Moment.Undeclared E acts rs ∧
      ∀ s₁, out = some s₁ → (afterAll E acts).Covers s₁ := by
  induction h generalizing E with
  | nil =>
      refine ⟨.nil, fun s₁ hs => ?_⟩
      cases hs
      exact hE
  | cut => exact ⟨.nil, fun s₁ hs => by cases hs⟩
  | other _ ih =>
      obtain ⟨hrs, hout⟩ := ih hE hkept fun hr => hsent (List.mem_cons_of_mem _ hr)
      exact ⟨hrs.other (fun _ h => by cases h), hout⟩
  | use _ _ ih | this _ _ ih | del _ ih =>
      rw [forall_momentsAll_cons] at hkept
      simp only [forall_momentsAll_cons] at hsent
      obtain ⟨hrs, hout⟩ := ih hE hkept.2 fun hr => (hsent hr).2
      exact ⟨hrs.skip, hout⟩
  | useUndefined hx _ ih | thisUndefined hx _ ih =>
      rw [forall_momentsAll_cons] at hkept
      simp only [forall_momentsAll_cons] at hsent
      obtain ⟨hrs, hout⟩ := ih hE hkept.2 fun hr => (hsent (List.mem_cons_of_mem _ hr)).2
      refine ⟨.report (fun x hx' => ?_) hrs, hout⟩
      cases hx'
      rw [momentsOf]
      exact ⟨_, List.mem_singleton_self _, rfl, rfl, fun hd => hx (.inl (hE.visible _ hd))⟩
  | bind _ ih | rebind _ ih =>
      rw [forall_momentsAll_cons] at hkept
      simp only [forall_momentsAll_cons] at hsent
      obtain ⟨hrs, hout⟩ := ih (hE.bind false) hkept.2 fun hr => (hsent hr).2
      exact ⟨hrs.skip, hout⟩
  | const _ ih =>
      rw [forall_momentsAll_cons] at hkept
      simp only [forall_momentsAll_cons] at hsent
      obtain ⟨hrs, hout⟩ := ih hE.const hkept.2 fun hr => (hsent hr).2
      exact ⟨hrs.skip, hout⟩
  | constAgain hn _ ih =>
      rw [forall_momentsAll_cons] at hkept
      simp only [forall_momentsAll_cons] at hsent
      obtain ⟨hrs, hout⟩ := ih (hE.constAgain hn) hkept.2 fun hr => (hsent (List.mem_cons_of_mem _ hr)).2
      exact ⟨.other (fun _ h => by cases h) hrs.skip, hout⟩
  | skipped _ ih =>
      rw [forall_momentsAll_cons, forall_seen_momentsOf_skipped] at hkept
      simp only [forall_momentsAll_cons] at hsent
      have hE' := hE.bindMissing fun k hk => hE.visible k (hkept.1 k hk)
      obtain ⟨hrs, hout⟩ := ih hE' hkept.2 fun hr => (hsent hr).2
      exact ⟨hrs.skip, hout⟩
  | unsent _ ih =>
      rw [forall_momentsAll_cons] at hkept
      simp only [forall_momentsAll_cons, momentsOf, List.forall_mem_cons] at hsent
      obtain ⟨⟨hbody, _⟩, _⟩ := hsent List.mem_cons_self
      have hE' := hE.unsent fun k hk => hE.visible k (hbody trivial k hk)
      obtain ⟨hrs, hout⟩ := ih hE' hkept.2 fun hr => (hsent (List.mem_cons_of_mem _ hr)).2
      exact ⟨.other (fun _ h => by cases h) hrs.skip, hout⟩
  | scope _ _ ihbody ih =>
      rw [forall_momentsAll_cons, momentsOf] at hkept
      simp only [forall_momentsAll_cons, momentsOf] at hsent
      obtain ⟨hrs₁, hout₁⟩ := ihbody hE hkept.1 fun hr => (hsent (List.mem_append_left _ hr)).1
      have hE' := hE.scope (hout₁ _ rfl)
      obtain ⟨hrs₂, hout⟩ := ih hE' hkept.2 fun hr => (hsent (List.mem_append_right _ hr)).2
      exact ⟨hrs₁.body (momentsAll_subset_scope E _) hrs₂, hout⟩
  | scopeCut _ ihbody =>
      rw [forall_momentsAll_cons, momentsOf] at hkept
      simp only [forall_momentsAll_cons, momentsOf] at hsent
      obtain ⟨hrs, _⟩ := ihbody hE hkept.1 fun hr => (hsent hr).1
      exact ⟨hrs.bodyCut (momentsAll_subset_scope E _), fun s₁ hs => by cases hs⟩
  | sent _ _ ihbody ih =>
      rw [forall_momentsAll_cons, momentsOf, List.forall_mem_cons] at hkept
      simp only [forall_momentsAll_cons, momentsOf, List.forall_mem_cons] at hsent
      obtain ⟨hrs₁, hout₁⟩ := ihbody hE hkept.1.2 fun hr => (hsent (List.mem_append_left _ hr)).1.2
      have hE' := Env.Covers.sent (hout₁ _ rfl)
      obtain ⟨hrs₂, hout⟩ := ih hE' hkept.2 fun hr => (hsent (List.mem_append_right _ hr)).2
      exact ⟨hrs₁.body (momentsAll_subset_sent E _) hrs₂, hout⟩
  | sentCut _ ihbody =>
      rw [forall_momentsAll_cons, momentsOf, List.forall_mem_cons] at hkept
      simp only [forall_momentsAll_cons, momentsOf, List.forall_mem_cons] at hsent
      obtain ⟨hrs, _⟩ := ihbody hE hkept.1.2 fun hr => (hsent hr).1.2
      exact ⟨hrs.bodyCut (momentsAll_subset_sent E _), fun s₁ hs => by cases hs⟩
  | assign _ _ _ ihvalue ih =>
      rw [forall_momentsAll_cons, momentsOf, List.forall_mem_cons] at hkept
      simp only [forall_momentsAll_cons, momentsOf, List.forall_mem_cons] at hsent
      obtain ⟨hrs₁, hout₁⟩ := ihvalue hE hkept.1.2 fun hr => (hsent (List.mem_append_left _ hr)).1.2
      obtain ⟨hrs₂, hout⟩ := ih ((hout₁ _ rfl).declare _) hkept.2 fun hr => (hsent (List.mem_append_right _ hr)).2
      exact ⟨hrs₁.body (momentsAll_subset_assign E _) hrs₂, hout⟩
  | assignCut _ _ ihvalue =>
      rw [forall_momentsAll_cons, momentsOf, List.forall_mem_cons] at hkept
      simp only [forall_momentsAll_cons, momentsOf, List.forall_mem_cons] at hsent
      obtain ⟨hrs, _⟩ := ihvalue hE hkept.1.2 fun hr => (hsent hr).1.2
      exact ⟨hrs.bodyCut (momentsAll_subset_assign E _), fun s₁ hs => by cases hs⟩
  | assignConst hn hvalue _ ihvalue ih =>
      rw [forall_momentsAll_cons, momentsOf, List.forall_mem_cons] at hkept
      simp only [forall_momentsAll_cons, momentsOf, List.forall_mem_cons] at hsent
      obtain ⟨hrs₁, hout₁⟩ := ihvalue hE hkept.1.2 fun hr =>
        (hsent (List.mem_cons_of_mem _ (List.mem_append_left _ hr))).1.2
      -- The target is in scope already: otherwise its binding would be passed over.
      have hpassed := hkept.1.1 rfl _ (Moment.mem_passedOver (hE.consts _ hn))
      have hE' := (hout₁ _ rfl).bindMissing
        (List.forall_mem_singleton.mpr (hvalue.mono.1 (hE.visible _ hpassed)))
      obtain ⟨hrs₂, hout⟩ := ih hE' hkept.2 fun hr =>
        (hsent (List.mem_cons_of_mem _ (List.mem_append_right _ hr))).2
      exact ⟨.other (fun _ h => by cases h) (hrs₁.body (momentsAll_subset_assign E _) hrs₂), hout⟩
  | assignConstCut _ _ ihvalue =>
      rw [forall_momentsAll_cons, momentsOf, List.forall_mem_cons] at hkept
      simp only [forall_momentsAll_cons, momentsOf, List.forall_mem_cons] at hsent
      obtain ⟨hrs, _⟩ := ihvalue hE hkept.1.2 fun hr => (hsent (List.mem_cons_of_mem _ hr)).1.2
      exact ⟨.other (fun _ h => by cases h) (hrs.bodyCut (momentsAll_subset_assign E _)),
        fun s₁ hs => by cases hs⟩

end Walk

/-! ## Consts -/

namespace Moment

/-- The name that an assignment here gives a value, and the place of the assignment. -/
def assigned (m : Moment) : Option (Name × Position) :=
  match m.act with
  | .assign n pos _ => some (n, pos)
  | _ => none

/-- The assigned name is one of a const declared before. -/
def Constant (c : Name × Position) (m : Moment) : Prop := c ∈ m.assigned ∧ c.1 ∈ m.env.consts

end Moment

/-- A report of an assignment, in front of others. -/
theorem Explained.assigned {pos : Position} {value : List NameAct}
    (h : Explained (fun c => .constant c.1 c.2) Moment.Constant E (.assign n pos value :: acts) rs)
    (hn : n ∈ E.consts) :
    Explained (fun c => .constant c.1 c.2) Moment.Constant E (.assign n pos value :: acts)
      (.constant n pos :: rs) := by
  intro c hc
  rcases List.mem_cons.mp hc with hc | hc
  · cases hc
    refine ⟨⟨false, E, .assign c.1 c.2 value⟩, ?_, rfl, rfl, hn⟩
    rw [momentsAll, momentsOf]
    exact List.mem_append_left _ List.mem_cons_self
  · exact h c hc

namespace Walk

/-- **Without a report, no visitor sees an assignment to a const**, and the consts in scope stay known. -/
theorem unassigned (h : Walk acts s out []) (hs : out = some s₁) (hE : ∀ k, E.IsConst k → k ∈ s.consts) :
    (∀ m ∈ momentsAll false E acts, m.hidden = false → ∀ c ∈ m.assigned, ¬ m.env.IsConst c.1) ∧
      ∀ k, (afterAll E acts).IsConst k → k ∈ s₁.consts := by
  generalize hrs : ([] : List Report) = rs at h
  induction h generalizing s₁ E with
  | nil =>
      cases hs
      exact ⟨fun m hm => absurd hm List.not_mem_nil, hE⟩
  | cut | scopeCut | sentCut | assignCut | assignConstCut => cases hs
  | other | useUndefined | thisUndefined | constAgain | unsent | assignConst => cases hrs
  | use _ _ ih | this _ _ ih | del _ ih =>
      rw [forall_momentsAll_cons, momentsOf, List.forall_mem_singleton]
      obtain ⟨hseen, hafter⟩ := ih hs hE hrs
      exact ⟨⟨fun _ c hc => (by cases hc), hseen⟩, hafter⟩
  | bind _ ih | rebind _ ih =>
      rw [forall_momentsAll_cons, momentsOf, List.forall_mem_singleton]
      obtain ⟨hseen, hafter⟩ := ih (E := E.bind _ false) hs (fun k hk => hE k (Env.isConst_bind_false hk)) hrs
      exact ⟨⟨fun _ c hc => (by cases hc), hseen⟩, hafter⟩
  | const _ ih =>
      rw [forall_momentsAll_cons, momentsOf, List.forall_mem_singleton]
      obtain ⟨hseen, hafter⟩ := ih (E := after E (.const _)) hs
        (fun k hk => (Env.isConst_bind E true hk).imp And.left (hE k)) hrs
      exact ⟨⟨fun _ c hc => (by cases hc), hseen⟩, hafter⟩
  | skipped _ ih =>
      rw [forall_momentsAll_cons, forall_seen_momentsOf_skipped]
      obtain ⟨hseen, hafter⟩ := ih (E := E.bindMissing _) hs
        (fun k hk => hE k (Env.isConst_bindMissing hk)) hrs
      exact ⟨⟨fun c hc => (by cases hc), hseen⟩, hafter⟩
  | scope hbody _ ihbody ih =>
      obtain ⟨rfl, rfl⟩ := List.append_eq_nil_iff.mp hrs.symm
      rw [forall_momentsAll_cons, momentsOf]
      obtain ⟨hseen, hafter⟩ := ih (E := after E (.scope _)) hs
        (fun k hk => hbody.mono.2 (hE k hk)) rfl
      exact ⟨⟨(ihbody rfl hE rfl).1, hseen⟩, hafter⟩
  | sent hbody _ ihbody ih =>
      obtain ⟨rfl, rfl⟩ := List.append_eq_nil_iff.mp hrs.symm
      rw [forall_momentsAll_cons, momentsOf, List.forall_mem_cons]
      obtain ⟨hseen, hafter⟩ := ih (E := after E (.sent _)) hs
        (fun k hk => hbody.mono.2 (hE k (Env.isConst_bindMissing hk))) rfl
      exact ⟨⟨⟨fun _ c hc => (by cases hc), (ihbody rfl hE rfl).1⟩, hseen⟩, hafter⟩
  | assign hn _ _ ihvalue ih =>
      obtain ⟨rfl, rfl⟩ := List.append_eq_nil_iff.mp hrs.symm
      rw [forall_momentsAll_cons, momentsOf, List.forall_mem_cons]
      obtain ⟨hvalue, hbehind⟩ := ihvalue rfl hE rfl
      obtain ⟨hseen, hafter⟩ := ih (E := after E (.assign _ _ _)) hs
        (fun k hk => hbehind k (Env.isConst_bindMissing hk)) rfl
      refine ⟨⟨⟨fun _ c hc hconst => ?_, hvalue⟩, hseen⟩, hafter⟩
      cases hc
      exact hn (hE _ hconst)

/-- **Only assignments to names of consts declared before are rejected**, and no const gets lost. -/
theorem constant (h : Walk acts s out rs) (hE : ∀ k ∈ s.consts, k ∈ E.consts) :
    Explained (fun c => .constant c.1 c.2) Moment.Constant E acts rs ∧
      ∀ s₁, out = some s₁ → ∀ k ∈ s₁.consts, k ∈ (afterAll E acts).consts := by
  induction h generalizing E with
  | nil =>
      refine ⟨.nil, fun s₁ hs => ?_⟩
      cases hs
      exact hE
  | cut => exact ⟨.nil, fun s₁ hs => by cases hs⟩
  | other _ ih =>
      obtain ⟨hrs, hout⟩ := ih hE
      exact ⟨hrs.other (fun _ h => by cases h), hout⟩
  | use _ _ ih | this _ _ ih | del _ ih =>
      obtain ⟨hrs, hout⟩ := ih hE
      exact ⟨hrs.skip, hout⟩
  | bind _ ih | rebind _ ih =>
      obtain ⟨hrs, hout⟩ := ih (E := E.bind _ false) hE
      exact ⟨hrs.skip, hout⟩
  | useUndefined _ _ ih | thisUndefined _ _ ih =>
      obtain ⟨hrs, hout⟩ := ih hE
      exact ⟨.other (fun _ h => by cases h) hrs.skip, hout⟩
  | const _ ih =>
      obtain ⟨hrs, hout⟩ := ih (E := after E (.const _))
        (fun k hk => List.mem_cons.mpr (hk.imp_right (hE k)))
      exact ⟨hrs.skip, hout⟩
  | constAgain _ _ ih =>
      obtain ⟨hrs, hout⟩ := ih (E := after E (.const _))
        (fun k hk => List.mem_cons_of_mem _ (hE k hk))
      exact ⟨.other (fun _ h => by cases h) hrs.skip, hout⟩
  | skipped _ ih =>
      obtain ⟨hrs, hout⟩ := ih (E := after E (.skipped _))
        (fun k hk => consts_after E (.skipped _) (hE k hk))
      exact ⟨hrs.skip, hout⟩
  | unsent _ ih =>
      obtain ⟨hrs, hout⟩ := ih (E := after E (.sent _))
        (fun k hk => consts_after E (.sent _) (hE k hk))
      exact ⟨.other (fun _ h => by cases h) hrs.skip, hout⟩
  | scope _ _ ihbody ih =>
      obtain ⟨hrs₁, hout₁⟩ := ihbody hE
      have hbehind := hout₁ _ rfl
      obtain ⟨hrs₂, hout⟩ := ih (E := after E (.scope _)) hbehind
      exact ⟨hrs₁.body (momentsAll_subset_scope E _) hrs₂, hout⟩
  | scopeCut _ ihbody =>
      obtain ⟨hrs, _⟩ := ihbody hE
      exact ⟨hrs.bodyCut (momentsAll_subset_scope E _), fun s₁ hs => by cases hs⟩
  | sent _ _ ihbody ih =>
      obtain ⟨hrs₁, hout₁⟩ := ihbody hE
      have hbehind := hout₁ _ rfl
      obtain ⟨hrs₂, hout⟩ := ih (E := after E (.sent _)) hbehind
      exact ⟨hrs₁.body (momentsAll_subset_sent E _) hrs₂, hout⟩
  | sentCut _ ihbody =>
      obtain ⟨hrs, _⟩ := ihbody hE
      exact ⟨hrs.bodyCut (momentsAll_subset_sent E _), fun s₁ hs => by cases hs⟩
  | assign _ _ _ ihvalue ih =>
      obtain ⟨hrs₁, hout₁⟩ := ihvalue hE
      obtain ⟨hrs₂, hout⟩ := ih (E := after E (.assign _ _ _))
        (fun k hk => by rw [after, Env.bindMissing_consts]; exact hout₁ _ rfl k hk)
      exact ⟨hrs₁.body (momentsAll_subset_assign E _) hrs₂, hout⟩
  | assignCut _ _ ihvalue =>
      obtain ⟨hrs, _⟩ := ihvalue hE
      exact ⟨hrs.bodyCut (momentsAll_subset_assign E _), fun s₁ hs => by cases hs⟩
  | assignConst hn _ _ ihvalue ih =>
      obtain ⟨hrs₁, hout₁⟩ := ihvalue hE
      obtain ⟨hrs₂, hout⟩ := ih (E := after E (.assign _ _ _))
        (fun k hk => by rw [after, Env.bindMissing_consts]; exact hout₁ _ rfl k hk)
      have hinside := hrs₁.body (momentsAll_subset_assign E _) hrs₂
      exact ⟨hinside.assigned (hE _ hn), hout⟩
  | assignConstCut hn _ ihvalue =>
      obtain ⟨hrs, _⟩ := ihvalue hE
      exact ⟨(hrs.bodyCut (momentsAll_subset_assign E _)).assigned (hE _ hn),
        fun s₁ hs => by cases hs⟩

end Walk

/-! ## Programs -/

/-- The first pass on one statement declares its names in the file scope. -/
theorem mem_register (Ts : Tables × Scope) (stmt : Stmt) :
    n ∈ (register Ts stmt).2.map Prod.fst ↔
      n ∈ Ts.2.map Prod.fst ∨ n ∈ topLevelNames [stmt] := by
  rcases Ts with ⟨T, scope⟩
  cases stmt with
  | funcDef h body | classDef h body | interfaceDef name methods =>
      rw [topLevelNames, List.flatMap_singleton, List.mem_singleton, or_comm]
      exact List.mem_cons
  | enumDef name members =>
      have hkeys : (register (T, scope) (.enumDef name members)).2.map Prod.fst =
          (members.map fun m => name ++ "_".toList ++ m).reverse ++ name :: scope.map Prod.fst := by
        show (List.reverse _ ++ _ :: scope).map Prod.fst = _
        rw [List.map_append, List.map_reverse, List.map_map]
        rfl
      rw [hkeys, topLevelNames, List.flatMap_singleton, List.mem_append, List.mem_reverse, List.mem_cons]
      show _ ↔ _ ∨ n ∈ name :: _
      rw [List.mem_cons]
      tauto
  | _ =>
      show n ∈ scope.map Prod.fst ↔ n ∈ scope.map Prod.fst ∨ n ∈ []
      rw [List.mem_nil_iff, or_false]

theorem mem_foldl_register (p : List Stmt) (Ts : Tables × Scope) :
    n ∈ (p.foldl register Ts).2.map Prod.fst ↔ n ∈ Ts.2.map Prod.fst ∨ n ∈ topLevelNames p := by
  induction p generalizing Ts with
  | nil => simp [topLevelNames]
  | cons stmt p ih =>
      have hcons : topLevelNames (stmt :: p) = topLevelNames [stmt] ++ topLevelNames p := by
        show ([stmt] ++ p).flatMap _ = _
        exact List.flatMap_append
      rw [List.foldl_cons, ih, mem_register, hcons, List.mem_append, or_assoc]

/-- The file scope that the first pass leaves. -/
theorem known_firstPass (p : List Stmt) :
    State.known { symbols := [(firstPass p).2] } = ⟨{n | n ∈ topLevelNames p}, ∅⟩ := by
  apply Known.ext
  · ext n
    show ([(firstPass p).2].any fun scope => (scope.lookup n).isSome) = true ↔ n ∈ topLevelNames p
    have hmem := mem_foldl_register (n := n) p ({}, [])
    simp only [List.map_nil, List.not_mem_nil, false_or] at hmem
    rw [← hmem, List.any_cons, List.any_nil, Bool.or_false, List.lookup_isSome_iff, List.mem_map]
    constructor
    · rintro ⟨entry, hentry, hn⟩
      exact ⟨entry, hentry, (beq_iff_eq.mp hn).symm⟩
    · rintro ⟨entry, hentry, hn⟩
      exact ⟨entry, hentry, beq_iff_eq.mpr hn.symm⟩
  · exact Set.eq_empty_of_forall_notMem fun n hn => List.not_mem_nil hn

/-- **The checker walks over the names of its program.** -/
theorem check_walks (p : List Stmt) :
    ∃ out, Walk (stmtsNames p) ⟨{n | n ∈ topLevelNames p}, ∅⟩ out ((check p).2.errors.map report) ∧
      ((check p).1 = .ok () → ∃ s, out = some s) := by
  have hfollows : Follows ∅ (stmtsNames p) (checkStmts (firstPass p).1 {} p) :=
    checkStmts_follows _ ∅ {} p
  obtain ⟨errs, rs, herrs, rfl, hwalk⟩ :=
    hfollows { symbols := [(firstPass p).2] } (List.cons_ne_nil _ _) (Set.empty_subset _)
  have hrun : check p = (checkStmts (firstPass p).1 {} p >>= fun _ => modify State.exitScope : Check Unit)
      { symbols := [(firstPass p).2] } := rfl
  rw [Effect.bind_run] at hrun
  unfold Walked at hwalk
  rw [← known_firstPass, hrun]
  rcases hvisit : checkStmts (firstPass p).1 {} p { symbols := [(firstPass p).2] } with ⟨stop | u, σ⟩
  · rw [hvisit] at hwalk herrs
    have herrors : σ.errors = errs := herrs
    exact ⟨none, by rw [herrors]; exact hwalk, fun h => by cases h⟩
  · rw [hvisit] at hwalk herrs
    have herrors : σ.exitScope.errors = errs := herrs
    refine ⟨some σ.known, ?_, fun _ => ⟨_, rfl⟩⟩
    show Walk _ _ _ (σ.exitScope.errors.map report)
    rw [herrors]
    exact hwalk.2.2

end Visuall.Checker
