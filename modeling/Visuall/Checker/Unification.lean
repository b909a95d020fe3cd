import Visuall.Checker.Comparing
import Visuall.Checker.Recording
import Visuall.Lib.Knockout

/-!
# One type for several

`unify` gives one of its two types.  An unknown type gives way to `null`, that to a type variable and that to every
other type; of two types of one kind the one that is assignable to the other gives way.

* `level`, `GivesWay` — which of two types is given up;
* `unifies_iff` — what `unify` gives;
* `UnifyLaw`, `unifyLaw_iff` — when the order of the two does not matter;
* `literal_iff`, `literalLaw_iff` — when the order of the elements of a list does not.
-/

namespace Visuall.Checker

open Visuall.Ast Visuall.Types

variable {T : Tables} {C : Context} {a b t u : Ty} {σ : State}

/-! ## Levels -/

/-- How much a type tells. -/
def level (t : Ty) : ℕ :=
  match kind t with
  | .unknown => 0
  | .null => 1
  | .typeVar => 2
  | _ => 3

theorem level_unknown (h : kind t = .unknown) : level t = 0 := by
  rw [level, h]

theorem level_null (h : kind t = .null) : level t = 1 := by
  rw [level, h]

theorem level_typeVar (h : kind t = .typeVar) : level t = 2 := by
  rw [level, h]

theorem level_other (hunknown : kind t ≠ .unknown) (hnull : kind t ≠ .null) (hvar : kind t ≠ .typeVar) : level t = 3 := by
  cases t <;> first | rfl | exact absurd rfl hunknown | exact absurd rfl hnull | exact absurd rfl hvar

theorem typeEquals_false (h : a ≠ b) : typeEquals a b = false :=
  Bool.eq_false_iff.mpr fun heq => h ((typeEquals_iff a b).mp heq)

/-- A type that tells less gives way to the other. -/
theorem unify_of_lt (h : level a < level b) : unify T a b = pure b := by
  have hne : a ≠ b := by
    intro heq
    rw [heq] at h
    exact Nat.lt_irrefl _ h
  by_cases ha : kind a = .unknown
  · rw [unify, if_pos (by simp [isUnknown, ha])]
  · have hb : kind b ≠ .unknown := fun hb => by
      rw [level_unknown hb] at h
      omega
    by_cases hnull : kind a = .null
    · simp [unify, isUnknown, hb, typeEquals_false hne, isNumeric, hnull]
    · have hb' : kind b ≠ .null := fun hb' => by
        have hlow : level a ≠ 0 := by
          cases a <;> simp_all [level, kind]
        rw [level_null hb'] at h
        omega
      have hvar : kind a = .typeVar := by
        by_contra hvar
        have hle : level b ≤ 3 := by
          cases b <;> simp [level, kind]
        rw [level_other ha hnull hvar] at h
        omega
      simp [unify, isUnknown, hb, typeEquals_false hne, isNumeric, hvar, hb']

/-- And a type that tells more stays. -/
theorem unify_of_gt (h : level b < level a) : unify T a b = pure a := by
  have hne : a ≠ b := by
    intro heq
    rw [heq] at h
    exact Nat.lt_irrefl _ h
  have ha : kind a ≠ .unknown := fun ha => by
    rw [level_unknown ha] at h
    omega
  by_cases hb : kind b = .unknown
  · simp [unify, isUnknown, ha, hb]
  · have hlow : level b ≠ 0 := by
      cases b <;> simp_all [level, kind]
    have ha' : kind a ≠ .null := fun ha' => by
      rw [level_null ha'] at h
      omega
    by_cases hnull : kind b = .null
    · simp [unify, isUnknown, ha, typeEquals_false hne, isNumeric, hnull, ha']
    · have hlow' : level b ≠ 1 := by
        cases b <;> simp_all [level, kind]
      have ha'' : kind a ≠ .typeVar := fun ha'' => by
        rw [level_typeVar ha''] at h
        omega
      have hvar : kind b = .typeVar := by
        by_contra hvar
        have hle : level a ≤ 3 := by
          cases a <;> simp [level, kind]
        rw [level_other hb hnull hvar] at h
        omega
      simp [unify, isUnknown, ha, typeEquals_false hne, isNumeric, hvar, ha', ha'']

/-- What `unify` does last: it looks for an assignment, in both directions. -/
def unifyByAssigning (T : Tables) (a b : Ty) : Check Ty := do
  if ← isAssignable T a b then return b
  else if ← isAssignable T b a then return a
  else
    error (.cannotAssign a b)
    return .unknown

theorem unifyByAssigning_run (a b : Ty) (σ : State) : unifyByAssigning T a b σ =
    match T.isAssignableTo a b, T.isAssignableTo b a with
    | some true, _ => (.ok b, σ)
    | some false, some true => (.ok a, σ)
    | some false, some false => (.ok .unknown, { σ with errors := σ.errors ++ [.cannotAssign a b] })
    | _, _ => (.error .diverges, σ) := by
  unfold unifyByAssigning
  rw [Effect.bind_run, isAssignable_run]
  rcases T.isAssignableTo a b with _ | _ | _
  · rfl
  · show (isAssignable T b a >>= _) σ = _
    rw [Effect.bind_run, isAssignable_run]
    rcases T.isAssignableTo b a with _ | _ | _ <;> rfl
  · rfl

/-- For two types that tell equally much, the other steps change nothing. -/
theorem unify_of_level (h : level a = level b) (σ : State) : unify T a b σ = unifyByAssigning T a b σ := by
  rw [unifyByAssigning_run]
  by_cases heq : a = b
  · rw [heq, assignable_self]
    by_cases hb : isUnknown b = true
    · rw [unify, if_pos hb]
      rfl
    · rw [unify, if_neg hb, if_neg hb, if_pos ((typeEquals_iff b b).mpr rfl)]
      rfl
  · -- two different types that tell equally much are two type variables, or neither of them goes with every other
    have hkinds : kind a = .typeVar ∧ kind b = .typeVar ∨ level a = 3 ∧ level b = 3 := by
      cases a <;> cases b <;> simp_all [level, kind]
    rcases hkinds with ⟨ha, hb⟩ | ⟨ha, hb⟩
    · rw [assignable_of_lenient (.inr (.inr ha))]
      simp [unify, isUnknown, typeEquals_false heq, isNumeric, ha, hb]
      rfl
    · have ha' : kind a ≠ .unknown ∧ kind a ≠ .null ∧ kind a ≠ .typeVar := by
        refine ⟨fun hk => ?_, fun hk => ?_, fun hk => ?_⟩ <;> simp [level, hk] at ha
      have hb' : kind b ≠ .unknown ∧ kind b ≠ .null ∧ kind b ≠ .typeVar := by
        refine ⟨fun hk => ?_, fun hk => ?_, fun hk => ?_⟩ <;> simp [level, hk] at hb
      by_cases hnumeric : isNumeric a = true ∧ isNumeric b = true
      · rw [unify]
        simp only [isUnknown, ha', hb', typeEquals_false heq, hnumeric, decide_false, Bool.false_eq_true, if_false,
          Bool.and_self, if_true]
        cases a <;> simp_all [isNumeric, kind]
        · cases b <;> simp_all
          rfl
        · cases b <;> simp_all
          rfl
      · have hboth : (isNumeric a && isNumeric b) = false := by
          simpa using hnumeric
        rw [← unifyByAssigning_run, unify]
        simp only [isUnknown, ha', hb', typeEquals_false heq, hboth, decide_false, Bool.false_eq_true, if_false, Bool.or_self]
        rfl

/-! ## What `unify` gives -/

/-- `unify` gives a type and reports nothing. -/
def Unifies (T : Tables) (a b t : Ty) : Prop := ∀ σ, unify T a b σ = (.ok t, σ)

/-- The first type is given up for the second one. -/
def GivesWay (T : Tables) (a b : Ty) : Prop := level a < level b ∨ level a = level b ∧ T.isAssignableTo a b = some true

/-- The first type is kept. -/
def Keeps (T : Tables) (a b : Ty) : Prop :=
  level b < level a ∨ level a = level b ∧ T.isAssignableTo a b = some false ∧ T.isAssignableTo b a = some true

theorem unifies_of_run (hrun : ∀ σ, unify T a b σ = (.ok u, σ)) : Unifies T a b t ↔ t = u := by
  constructor
  · intro h
    have heq := (h {}).symm.trans (hrun {})
    exact Except.ok.inj (congrArg Prod.fst heq)
  · rintro rfl
    exact hrun

theorem unifies_iff : Unifies T a b t ↔ GivesWay T a b ∧ t = b ∨ Keeps T a b ∧ t = a := by
  rcases Nat.lt_trichotomy (level a) (level b) with h | h | h
  · rw [unifies_of_run (u := b) fun σ => by rw [unify_of_lt h]; rfl]
    simp [GivesWay, Keeps, h, Nat.lt_asymm h, Nat.ne_of_lt h]
  · have hrun := fun σ => (unify_of_level (T := T) h σ).trans (unifyByAssigning_run a b σ)
    simp only [GivesWay, Keeps, h, Nat.lt_irrefl, false_or, true_and]
    rcases hab : T.isAssignableTo a b with _ | _ | _
    · simp only [hab] at hrun
      refine iff_of_false (fun hall => ?_) (by simp)
      cases (hall {}).symm.trans (hrun {})
    · rcases hba : T.isAssignableTo b a with _ | _ | _
      · simp only [hab, hba] at hrun
        refine iff_of_false (fun hall => ?_) (by simp)
        cases (hall {}).symm.trans (hrun {})
      · simp only [hab, hba] at hrun
        refine iff_of_false (fun hall => ?_) (by simp)
        cases (hall {}).symm.trans (hrun {})
      · simp only [hab, hba] at hrun
        simp [unifies_of_run hrun]
    · simp only [hab] at hrun
      simp [unifies_of_run hrun]
  · rw [unifies_of_run (u := a) fun σ => by rw [unify_of_gt h]; rfl]
    simp [GivesWay, Keeps, h, Nat.lt_asymm h, Nat.ne_of_gt h]

/-- What gives way is assignable to what is kept. -/
theorem assignable_of_level_lt (h : level a < level b) : T.isAssignableTo a b = some true := by
  refine assignable_of_lenient ?_
  by_contra hnot
  rw [Lenient, not_or, not_or] at hnot
  have hle : level b ≤ 3 := by
    cases b <;> simp [level, kind]
  rw [level_other hnot.1 hnot.2.1 hnot.2.2] at h
  omega

theorem GivesWay.assignable (h : GivesWay T a b) : T.isAssignableTo a b = some true := by
  rcases h with h | ⟨-, h⟩
  · exact assignable_of_level_lt h
  · exact h

theorem Keeps.assignable (h : Keeps T a b) : T.isAssignableTo b a = some true := by
  rcases h with h | ⟨-, -, h⟩
  · exact assignable_of_level_lt h
  · exact h

/-- What is kept against a type, that type gives way to. -/
theorem Keeps.givesWay (h : Keeps T a b) : GivesWay T b a := by
  rcases h with h | ⟨hlevel, -, h⟩
  · exact .inl h
  · exact .inr ⟨hlevel.symm, h⟩

/-! ## The law -/

/-- If `unify` gives a type, then so it does with its arguments exchanged, and both are assignable to it. -/
def UnifyLaw (T : Tables) (a b : Ty) : Prop :=
  ∀ t, Unifies T a b t → Unifies T b a t ∧ T.isAssignableTo a t = some true ∧ T.isAssignableTo b t = some true

theorem upper_bound (h : Unifies T a b t) : T.isAssignableTo a t = some true ∧ T.isAssignableTo b t = some true := by
  rcases unifies_iff.mp h with ⟨hgives, rfl⟩ | ⟨hkeeps, rfl⟩
  · exact ⟨hgives.assignable, assignable_self t⟩
  · exact ⟨assignable_self t, hkeeps.assignable⟩

/-- The order of two types matters where they tell equally much and are assignable to each other, or one of the two
comparisons never ends. -/
theorem unifyLaw_iff (T : Tables) (a b : Ty) : UnifyLaw T a b ↔
    a = b ∨ level a ≠ level b ∨ T.isAssignableTo a b ≠ some true ∨ T.isAssignableTo b a = some false := by
  constructor
  · intro h
    by_contra hnot
    rw [not_or, not_or, not_or, not_not, not_not] at hnot
    obtain ⟨hne, hlevel, hab, hba⟩ := hnot
    obtain ⟨hback, -⟩ := h b (unifies_iff.mpr (.inl ⟨.inr ⟨hlevel, hab⟩, rfl⟩))
    rcases unifies_iff.mp hback with ⟨-, heq⟩ | ⟨hkeeps, -⟩
    · exact hne heq.symm
    · rcases hkeeps with hlt | ⟨-, hfalse, -⟩
      · omega
      · exact hba hfalse
  · intro h t ht
    refine ⟨?_, upper_bound ht⟩
    rcases h with rfl | hlevel | hab | hba
    · exact ht
    · rcases unifies_iff.mp ht with ⟨hgives, rfl⟩ | ⟨hkeeps, rfl⟩
      · rcases hgives with hlt | ⟨heq, -⟩
        · exact unifies_iff.mpr (.inr ⟨.inl hlt, rfl⟩)
        · exact absurd heq hlevel
      · exact unifies_iff.mpr (.inl ⟨hkeeps.givesWay, rfl⟩)
    · rcases unifies_iff.mp ht with ⟨hgives, rfl⟩ | ⟨hkeeps, rfl⟩
      · exact absurd hgives.assignable hab
      · exact unifies_iff.mpr (.inl ⟨hkeeps.givesWay, rfl⟩)
    · rcases unifies_iff.mp ht with ⟨hgives, rfl⟩ | ⟨hkeeps, rfl⟩
      · refine unifies_iff.mpr (.inr ⟨?_, rfl⟩)
        rcases hgives with hlt | ⟨heq, hfits⟩
        · exact .inl hlt
        · exact .inr ⟨heq.symm, hba, hfits⟩
      · exact unifies_iff.mpr (.inl ⟨hkeeps.givesWay, rfl⟩)

/-! ## List literals -/

open Knockout

/-- Expressions that have these types, without an error. -/
def ElementTypes (T : Tables) (C : Context) (σ : State) (es : List Expr) (ts : List Ty) : Prop :=
  List.Forall₂ (fun e t => checkExpr T C e σ = (.ok t, σ)) es ts

/-- Where `unify` gives no type, it reports an error or never ends. -/
theorem unify_else (h : ∀ t, ¬ Unifies T a b t) (σ : State) : unify T a b σ = (.error .diverges, σ) ∨
    unify T a b σ = (.ok .unknown, { σ with errors := σ.errors ++ [.cannotAssign a b] }) := by
  have hlevel : level a = level b := by
    rcases Nat.lt_trichotomy (level a) (level b) with hlt | heq | hlt
    · exact absurd (unifies_iff.mpr (.inl ⟨.inl hlt, rfl⟩)) (h b)
    · exact heq
    · exact absurd (unifies_iff.mpr (.inr ⟨.inl hlt, rfl⟩)) (h a)
  rw [unify_of_level hlevel, unifyByAssigning_run]
  rcases hab : T.isAssignableTo a b with _ | _ | _
  · exact .inl rfl
  · rcases hba : T.isAssignableTo b a with _ | _ | _
    · exact .inl rfl
    · exact .inr rfl
    · exact absurd (unifies_iff.mpr (.inr ⟨.inr ⟨hlevel, hab, hba⟩, rfl⟩)) (h a)
  · exact absurd (unifies_iff.mpr (.inl ⟨.inr ⟨hlevel, hab⟩, rfl⟩)) (h b)

theorem checkElements_iff {es : List Expr} {ts : List Ty} (h : ElementTypes T C σ es ts) :
    checkElements T C a es σ = (.ok t, σ) ↔ Runs (Unifies T) a ts t := by
  induction h generalizing a with
  | nil =>
    rw [checkElements]
    show ((.ok a, σ) : Except Stop Ty × State) = _ ↔ t = a
    simp [eq_comm]
  | @cons e u es ts he _ ih =>
    rw [checkElements, Effect.bind_run, he]
    show (unify T a u >>= fun elemType => checkElements T C elemType es) σ = _ ↔ ∃ next, Unifies T a u next ∧ Runs _ next ts t
    rw [Effect.bind_run]
    by_cases hunifies : ∃ next, Unifies T a u next
    · obtain ⟨next, hnext⟩ := hunifies
      rw [hnext σ]
      show checkElements T C next es σ = _ ↔ _
      rw [ih]
      constructor
      · exact fun hrest => ⟨next, hnext, hrest⟩
      · rintro ⟨next', hnext', hrest⟩
        rwa [Except.ok.inj (congrArg Prod.fst ((hnext {}).symm.trans (hnext' {})))]
    · refine iff_of_false (fun hrun => ?_) fun ⟨next, hnext, _⟩ => hunifies ⟨next, hnext⟩
      rcases unify_else (fun next hnext => hunifies ⟨next, hnext⟩) σ with helse | helse
      · rw [helse] at hrun
        cases hrun
      · rw [helse] at hrun
        -- the error stays
        have hplain : Plain T (checkElements T C .unknown es) := checkElements_plain .unknown es
        obtain ⟨errs, herrs, -⟩ := hplain.run { σ with errors := σ.errors ++ [.cannotAssign a u] }
        have hrun : checkElements T C .unknown es { σ with errors := σ.errors ++ [.cannotAssign a u] } = (.ok t, σ) := hrun
        rw [hrun] at herrs
        have hlength := congrArg List.length herrs
        simp only [List.length_append, List.length_singleton] at hlength
        omega

/-- A list literal is accepted with the type of the last champion of its element types. -/
theorem literal_iff {es : List Expr} {ts : List Ty} (h : ElementTypes T C σ es ts) (hne : ts ≠ []) :
    checkExpr T C (.listExpr es) σ = (.ok (.list t), σ) ↔ Result (Unifies T) ts t := by
  cases h with
  | nil => exact absurd rfl hne
  | @cons e u es ts he hes =>
    rw [checkExpr, Effect.bind_run, he]
    show (checkElements T C u es >>= fun elemType => pure (Ty.list elemType)) σ = _ ↔ Runs _ u ts t
    rw [← checkElements_iff hes, Effect.bind_run]
    rcases checkElements T C u es σ with ⟨s | u', τ⟩
    · exact iff_of_false nofun nofun
    · show ((.ok (.list u'), τ) : Except Stop Ty × State) = _ ↔ ((.ok u', τ) : Except Stop Ty × State) = _
      constructor
      · intro h
        cases h
        rfl
      · intro h
        cases h
        rfl

/-- The order of the elements does not matter, neither for whether a list literal is accepted nor for its type. -/
def LiteralLaw (T : Tables) (ts : List Ty) : Prop :=
  ∀ C σ es es', ElementTypes T C σ es ts → es.Perm es' → ∀ t,
    (checkExpr T C (.listExpr es) σ = (.ok (.list t), σ) ↔ checkExpr T C (.listExpr es') σ = (.ok (.list t), σ))

/-- A variable of the innermost scope. -/
theorem checkExpr_variable {scope : Scope} {n : Name} (h : scope.lookup n = some u) :
    checkExpr T C (.identifier { name := n }) { symbols := [scope] } = (.ok u, { symbols := [scope] }) := by
  have hdeclared : ({ symbols := [scope] } : State).isDeclared n = true := by
    show (scope.lookup n).isSome || false = true
    rw [h]
    rfl
  have hfind : ({ symbols := [scope] } : State).find n = u := by
    show ([scope].findSome? fun scope => scope.lookup n).getD .unknown = u
    rw [List.findSome?_cons, h]
    rfl
  rw [checkExpr, lookup, Effect.bind_run]
  show (if ({ symbols := [scope] } : State).isDeclared n then _ else _ : Check Ty) _ = _
  rw [hdeclared, if_pos rfl]
  show ((.ok (({ symbols := [scope] } : State).find n), _) : Except Stop Ty × State) = _
  rw [hfind]

/-- Variables may have any types. -/
theorem exists_variables (ts : List Ty) : ∃ (scope : Scope) (nameOf : Ty → Name),
    (∀ entry ∈ scope, entry.1.length ≤ ts.length) ∧ ∀ u ∈ ts, scope.lookup (nameOf u) = some u := by
  classical
  induction ts with
  | nil => exact ⟨[], fun _ => [], fun entry h => absurd h List.not_mem_nil, fun u h => absurd h List.not_mem_nil⟩
  | cons t ts ih =>
    obtain ⟨scope, nameOf, hshort, hnames⟩ := ih
    -- a name that is longer than those that there are
    have hfresh : (List.replicate (ts.length + 1) 'x').length = ts.length + 1 := List.length_replicate
    generalize List.replicate (ts.length + 1) 'x' = fresh at hfresh
    refine ⟨(fresh, t) :: scope, fun u => if u = t then fresh else nameOf u, ?_, ?_⟩
    · intro entry hentry
      rcases List.mem_cons.mp hentry with rfl | hentry
      · exact hfresh.le
      · exact (hshort entry hentry).trans (Nat.le_succ _)
    · intro u hu
      by_cases heq : u = t
      · show List.lookup (if u = t then fresh else nameOf u) ((fresh, t) :: scope) = _
        rw [if_pos heq, List.lookup_cons, beq_self_eq_true, heq]
      · show List.lookup (if u = t then fresh else nameOf u) ((fresh, t) :: scope) = _
        have hlookup := hnames u ((List.mem_cons.mp hu).resolve_left heq)
        have hne : nameOf u ≠ fresh := by
          intro hsame
          obtain ⟨before, after, rfl, -⟩ := List.lookup_eq_some_iff.mp hlookup
          have hle := hshort (nameOf u, u) (List.mem_append_right _ List.mem_cons_self)
          rw [hsame, hfresh] at hle
          omega
        rw [if_neg heq, List.lookup_cons, beq_false_of_ne hne]
        exact hlookup

theorem elementTypes_variables {scope : Scope} {nameOf : Ty → Name} {ts us : List Ty}
    (hnames : ∀ u ∈ ts, scope.lookup (nameOf u) = some u) (hus : us ⊆ ts) :
    ElementTypes T C { symbols := [scope] } (us.map fun u => .identifier { name := nameOf u }) us := by
  induction us with
  | nil => exact .nil
  | cons u us ih =>
    rw [List.cons_subset] at hus
    exact .cons (checkExpr_variable (hnames u hus.1)) (ih hus.2)

theorem literalLaw_iff_orderFree (ts : List Ty) : LiteralLaw T ts ↔ OrderFree (Unifies T) ts := by
  constructor
  · intro h us hperm t
    cases ts with
    | nil =>
      rw [hperm.nil_eq]
    | cons t₀ ts =>
      obtain ⟨scope, nameOf, -, hnames⟩ := exists_variables (t₀ :: ts)
      have hus : us ≠ [] := fun hempty => by
        rw [hempty] at hperm
        cases hperm.eq_nil
      have htypes := elementTypes_variables (T := T) (C := {}) hnames (List.Subset.refl _)
      have htypes' := elementTypes_variables (T := T) (C := {}) hnames fun u hu => hperm.mem_iff.mpr hu
      rw [← literal_iff htypes (List.cons_ne_nil _ _), ← literal_iff htypes' hus]
      exact h {} _ _ _ htypes (hperm.map _) t
  · intro h C σ es es' htypes hperm t
    obtain ⟨us, htypes', hus⟩ := List.perm_comp_forall₂ hperm.symm htypes
    cases ts with
    | nil =>
      cases htypes
      rw [hperm.nil_eq]
    | cons t₀ ts =>
      have hne : us ≠ [] := fun hempty => by
        rw [hempty] at hus
        cases hus.nil_eq
      rw [literal_iff htypes (List.cons_ne_nil _ _), literal_iff htypes' hne]
      exact h us hus.symm t

/-! ## The laws together -/

/-- A type is kept against each of the others, and of any two the one gives way to the other, whichever comes first. -/
def OneForAll (T : Tables) (ts : List Ty) : Prop :=
  (∃ w ∈ ts, ∀ a ∈ ts, a = w ∨ Keeps T w a) ∧
    ts.Pairwise fun a b => (GivesWay T a b ∨ Keeps T a b) ∧ (GivesWay T b a ∨ Keeps T b a)

/-- Some types give way one to the next, and each other one is kept out by one of them. -/
def Arrangeable (T : Tables) (ts : List Ty) : Prop :=
  ∃ chain others, chain ≠ [] ∧ ts.Perm (chain ++ others) ∧ chain.IsChain (GivesWay T) ∧
    ∀ u ∈ others, ∃ c ∈ chain, u = c ∨ Keeps T c u

theorem givesWay_self (t : Ty) : GivesWay T t t := .inr ⟨rfl, assignable_self t⟩

theorem unifies_second : Unifies T a b b ↔ GivesWay T a b := by
  rw [unifies_iff]
  constructor
  · rintro (⟨hgives, -⟩ | ⟨-, rfl⟩)
    · exact hgives
    · exact givesWay_self b
  · exact fun hgives => .inl ⟨hgives, rfl⟩

theorem unifies_first : Unifies T a b a ↔ b = a ∨ Keeps T a b := by
  rw [unifies_iff]
  constructor
  · rintro (⟨-, rfl⟩ | ⟨hkeeps, -⟩)
    · exact .inl rfl
    · exact .inr hkeeps
  · rintro (rfl | hkeeps)
    · exact .inl ⟨givesWay_self b, rfl⟩
    · exact .inr ⟨hkeeps, rfl⟩

theorem unifies_some : (∃ t, Unifies T a b t) ↔ GivesWay T a b ∨ Keeps T a b := by
  constructor
  · rintro ⟨t, ht⟩
    exact (unifies_iff.mp ht).imp And.left And.left
  · rintro (hgives | hkeeps)
    · exact ⟨b, unifies_second.mpr hgives⟩
    · exact ⟨a, unifies_first.mpr (.inr hkeeps)⟩

theorem literalLaw_iff (T : Tables) (ts : List Ty) : LiteralLaw T ts ↔ OneForAll T ts ∨ ¬ Arrangeable T ts := by
  have hmeet : Meet (Unifies T) =
      fun a b => (GivesWay T a b ∨ Keeps T a b) ∧ (GivesWay T b a ∨ Keeps T b a) := by
    funext a b
    rw [Meet, unifies_some, unifies_some]
  have hsettled : Settled (Unifies T) ts ↔ OneForAll T ts := by
    simp only [Settled, OneForAll, hmeet, unifies_first, or_self_left]
  have hchained : Chained (Unifies T) ts ↔ Arrangeable T ts := by
    simp only [Chained, Arrangeable, unifies_first, unifies_second]
  rw [literalLaw_iff_orderFree, ← hsettled, ← hchained]
  refine orderFree_iff (fun a b c h => ?_) (fun a b c d h h' => ?_) (fun a => unifies_second.mpr (givesWay_self a))
    (fun a w h hne => ?_) ts
  · exact (unifies_iff.mp h).elim (fun hc => .inr hc.2) fun hc => .inl hc.2
  · exact Except.ok.inj (congrArg Prod.fst ((h {}).symm.trans (h' {})))
  · rcases unifies_first.mp h with rfl | hkeeps
    · exact absurd rfl hne
    · exact unifies_second.mpr hkeeps.givesWay

/-- **The order of types**, of two and in a list literal. -/
theorem orderLaws_iff (T : Tables) :
    (∀ a b, UnifyLaw T a b ↔
      a = b ∨ level a ≠ level b ∨ T.isAssignableTo a b ≠ some true ∨ T.isAssignableTo b a = some false) ∧
    ∀ ts, LiteralLaw T ts ↔ OneForAll T ts ∨ ¬ Arrangeable T ts :=
  ⟨unifyLaw_iff T, literalLaw_iff T⟩

/-- An empty list and one of integers: `[[], [1]]` and `[[1], []]` have different types. -/
theorem empty_list_order : ¬ UnifyLaw {} (.list .unknown) (.list .int) := by
  rw [unifyLaw_iff]
  rintro (h | h | h | h)
  · cases h
  · exact h rfl
  · exact h rfl
  · cases h

end Visuall.Checker
