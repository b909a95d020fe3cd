import Visuall.Checker.Comparing
import Visuall.Checker.Refinement

/-!
# Declarations and later assignments

A value that a typed declaration accepts, a `return` and an argument accept for the same type; an assignment to the
declared name may not.

* `Evaluates`, `Passes` — a value that is checked, and a visit without an error;
* `accepted_declaration_iff`, `accepted_return_iff`, `accepted_argument_iff` — the same relation decides;
* `accepted_reassignment_iff` — another one does;
* `agree_iff` — where the two agree.
-/

namespace Visuall.Checker

open Visuall.Ast Visuall.Types

variable {T : Tables} {C : Context} {e : Expr} {R : Ty} {σ σ' : State} {x : Occurrence} {ann : Name}
  {extra : List Expr} {pos : Position}

/-! ## Accepted statements -/

/-- An expression is checked without an error, and has the type. -/
structure Evaluates (T : Tables) (C : Context) (e : Expr) (R : Ty) (σ σ' : State) : Prop where
  run : checkExpr T C e σ = (.ok R, σ')
  clean : σ'.errors = []
  symbols : σ.symbols ≠ []

/-- A visitor ends, and no error has been reported. -/
def Passes (visit : Check Unit) (σ : State) : Prop := (visit σ).1 = .ok () ∧ (visit σ).2.errors = []

theorem checkExpr_errors (hsymbols : σ.symbols ≠ []) : ∃ errs, (checkExpr T C e σ).2.errors = σ.errors ++ errs := by
  obtain ⟨errs, _, herrs, _⟩ := checkExpr_follows (T := T) (C := C) ∅ e σ hsymbols (Set.empty_subset _)
  exact ⟨errs, herrs⟩

theorem passes_bind {α : Type} {visit : Check α} {k : α → Check Unit} {a : α} {τ : State}
    (h : visit σ = (.ok a, τ)) : Passes (visit >>= k) σ ↔ Passes (k a) τ := by
  unfold Passes
  rw [Effect.bind_run, h]

theorem passes_bind_pure {visit : Check Unit} : Passes (visit >>= fun _ => pure ()) σ ↔ Passes visit σ := by
  unfold Passes
  rw [Effect.bind_run]
  generalize visit σ = r
  obtain ⟨_ | a, τ⟩ := r
  · exact Iff.rfl
  · exact Iff.rfl

/-- A comparison of two types that may report an error. -/
theorem accepts_onlyIf {b : Bool} {err : TypeErr} (hclean : σ.errors = []) :
    Passes (onlyIf b (error err)) σ ↔ b = false := by
  cases b with
  | true =>
    constructor
    · intro h
      have herrors : σ.errors ++ [err] = [] := h.2
      rw [hclean] at herrors
      cases herrors
    · intro h
      cases h
  | false => exact ⟨fun _ => rfl, fun _ => ⟨rfl, hclean⟩⟩

/-- A comparison by `isAssignableTo`. -/
theorem accepts_requireAssignable {given expected : Ty} {err : TypeErr} (hclean : σ.errors = []) :
    Passes (requireAssignable T given expected err) σ ↔ T.isAssignableTo given expected = some true := by
  unfold Passes requireAssignable isAssignable
  cases T.isAssignableTo given expected with
  | none =>
    constructor
    · intro h
      cases h.1
    · intro h
      cases h
  | some ok =>
    show Passes (onlyIf (!ok) (error err)) σ ↔ some ok = some true
    rw [accepts_onlyIf hclean]
    cases ok <;> simp

theorem accepts_guarded (given expected : Ty) (err : TypeErr) (hclean : σ.errors = []) :
    Passes (onlyIf (!isUnknown given && !isUnknown expected) (requireAssignable T given expected err)) σ ↔
      T.isAssignableTo given expected = some true := by
  by_cases hunknown : isUnknown given = true ∨ isUnknown expected = true
  · have hfalse : (!isUnknown given && !isUnknown expected) = false := by
      rcases hunknown with h | h <;> simp [h]
    rw [hfalse]
    exact ⟨fun _ => assignable_of_unknown hunknown, fun _ => ⟨rfl, hclean⟩⟩
  · have htrue : (!isUnknown given && !isUnknown expected) = true := by
      rw [not_or] at hunknown
      simp [Bool.eq_false_iff.mpr hunknown.1, Bool.eq_false_iff.mpr hunknown.2]
    rw [htrue]
    exact accepts_requireAssignable hclean

/-! ## The four places -/

/-- The visit of an assignment to a name that is no const's: the value is checked first. -/
theorem checkAssign_run (hvalue : checkExpr T C e σ = (.ok R, σ')) (hconst : x.name ∉ σ.constVars) :
    checkStmt T C (.assignStmt (.identifier x) e extra ann pos) σ = assignName T C x.name ann R σ' := by
  show (if x.name ∈ σ.constVars then _ else checkExpr T C e >>= assignName T C x.name ann : Check Unit) σ = _
  rw [if_neg hconst, Effect.bind_run, hvalue]

/-- A const is not assigned to. -/
theorem not_passes_const (hsymbols : σ.symbols ≠ []) (hconst : x.name ∈ σ.constVars) :
    ¬ Passes (checkStmt T C (.assignStmt (.identifier x) e extra ann pos)) σ := by
  intro h
  have hrun : checkStmt T C (.assignStmt (.identifier x) e extra ann pos) σ =
      (do
        error (.constantReassigned x.name pos)
        let _ ← checkExpr T C e
        pure () : Check Unit) σ := by
    show (if x.name ∈ σ.constVars then _ else _ : Check Unit) σ = _
    rw [if_pos hconst]
  obtain ⟨errs, herrs⟩ := checkExpr_errors (T := T) (C := C) (e := e)
    (σ := (error (.constantReassigned x.name pos) σ).2) hsymbols
  have herrors : (checkExpr T C e (error (.constantReassigned x.name pos) σ).2).2.errors = [] := by
    have hempty := h.2
    rw [hrun, Effect.bind_run] at hempty
    show (checkExpr T C e _).2.errors = []
    rw [← hempty]
    show _ = ((checkExpr T C e >>= fun _ => pure ()) (error (.constantReassigned x.name pos) σ).2).2.errors
    rw [Effect.bind_run]
    generalize checkExpr T C e _ = r
    obtain ⟨_ | a, τ⟩ := r
    · rfl
    · rfl
  rw [herrors] at herrs
  have hreported : (error (.constantReassigned x.name pos) σ).2.errors =
      σ.errors ++ [.constantReassigned x.name pos] := rfl
  rw [hreported] at herrs
  simp at herrs

/-- **A typed declaration accepts what is assignable to its type.** -/
theorem accepted_declaration_iff (hann : ann ≠ []) (hvalue : Evaluates T C e R σ σ') (hconst : x.name ∉ σ.constVars)
    (hfresh : σ'.isDeclared x.name = false) :
    Passes (checkStmt T C (.assignStmt (.identifier x) e extra ann pos)) σ ↔
      T.isAssignableTo R (resolve T C ann) = some true := by
  have hrun : checkStmt T C (.assignStmt (.identifier x) e extra ann pos) σ =
      (do
        onlyIf (!isUnknown R && !isUnknown (resolve T C ann))
          (requireAssignable T R (resolve T C ann) (.declaredMismatch (resolve T C ann) R))
        declare x.name (resolve T C ann)) σ' := by
    rw [checkAssign_run hvalue.run hconst]
    unfold assignName
    rw [if_pos hann, Effect.bind_run]
    show (if σ'.isDeclared x.name = true then _ else _ : Check Unit) σ' = _
    rw [if_neg (by rw [hfresh]; exact Bool.false_ne_true)]
  rw [← accepts_guarded R (resolve T C ann) (.declaredMismatch (resolve T C ann) R) hvalue.clean]
  unfold Passes
  rw [hrun, Effect.bind_run]
  generalize onlyIf _ _ σ' = r
  obtain ⟨_ | a, τ⟩ := r
  · constructor
    · intro h
      cases h.1
    · intro h
      cases h.1
  · show (Except.ok () = Except.ok () ∧ (τ.declare x.name (resolve T C ann)).errors = []) ↔ _ ∧ τ.errors = []
    rw [State.declare_errors]

/-- The comparison of a declared name with the value assigned to it. -/
theorem passes_checkReassign_iff {existing : Ty} (hclean : σ.errors = []) :
    Passes (checkReassign existing R) σ ↔
      isUnknown existing = true ∨ isUnknown R = true ∨ typeEquals existing R = true ∨
        (isNumeric existing = true ∧ isNumeric R = true) ∧ ¬ (kind existing = .int ∧ kind R = .float) := by
  unfold checkReassign
  by_cases hnumeric : isNumeric existing = true ∧ isNumeric R = true
  · have hrun : Passes (onlyIf (!isUnknown existing && !isUnknown R && !typeEquals existing R)
          (onlyIf (kind existing = .int && kind R = .float) (error (.cannotAssign R existing)))) σ ↔
        (!isUnknown existing && !isUnknown R && !typeEquals existing R) = false ∨
          (decide (kind existing = .int) && decide (kind R = .float)) = false := by
      cases !isUnknown existing && !isUnknown R && !typeEquals existing R with
      | true =>
        rw [or_iff_right Bool.true_eq_false.mp]
        exact accepts_onlyIf hclean
      | false => exact iff_of_true ⟨rfl, hclean⟩ (.inl rfl)
    simp only [hnumeric.1, hnumeric.2, Bool.and_self, if_true]
    rw [hrun]
    simp only [Bool.and_eq_false_iff, Bool.not_eq_false', decide_eq_false_iff_not, not_and_or]
    tauto
  · have hfalse : (isNumeric existing && isNumeric R) = false := by
      rw [Bool.eq_false_iff, ne_eq, Bool.and_eq_true]
      exact hnumeric
    rw [hfalse]
    simp only [Bool.false_eq_true, if_false]
    rw [accepts_onlyIf hclean]
    simp only [Bool.and_eq_false_iff, Bool.not_eq_false', hnumeric, false_and, or_false, or_assoc]

/-- **A later assignment accepts the type itself and numbers**, to a name that is no const's. -/
theorem accepted_reassignment_iff (hvalue : Evaluates T C e R σ σ') (hdeclared : σ'.isDeclared x.name = true) :
    Passes (checkStmt T C (.assignStmt (.identifier x) e extra [] pos)) σ ↔
      x.name ∉ σ.constVars ∧ (isUnknown (σ'.find x.name) = true ∨ isUnknown R = true ∨
        typeEquals (σ'.find x.name) R = true ∨
          (isNumeric (σ'.find x.name) = true ∧ isNumeric R = true) ∧
            ¬ (kind (σ'.find x.name) = .int ∧ kind R = .float)) := by
  by_cases hconst : x.name ∈ σ.constVars
  · exact iff_of_false (not_passes_const hvalue.symbols hconst) fun h => h.1 hconst
  · have hrun : checkStmt T C (.assignStmt (.identifier x) e extra [] pos) σ =
        checkReassign (σ'.find x.name) R σ' := by
      rw [checkAssign_run hvalue.run hconst]
      unfold assignName
      rw [if_neg (fun h => h rfl), Effect.bind_run]
      show (if σ'.isDeclared x.name = true then _ else _ : Check Unit) σ' = _
      rw [if_pos hdeclared, Effect.bind_run]
      rfl
    have hpasses : Passes (checkStmt T C (.assignStmt (.identifier x) e extra [] pos)) σ ↔
        Passes (checkReassign (σ'.find x.name) R) σ' := by
      unfold Passes
      rw [hrun]
    rw [hpasses, and_iff_right hconst]
    generalize σ'.find x.name = existing
    rw [passes_checkReassign_iff hvalue.clean]

theorem numeric_cases {t : Ty} (h : isNumeric t = true) : t = .int ∨ t = .float := by
  cases t with
  | int => exact .inl rfl
  | float => exact .inr rfl
  | _ => cases h

/-- Among numbers only a float is not assignable, to an integer. -/
theorem numeric_assignable {given expected : Ty} (hgiven : isNumeric given = true) (hexpected : isNumeric expected = true)
    (h : T.isAssignableTo given expected ≠ some true) : kind expected = .int ∧ kind given = .float := by
  rcases numeric_cases hgiven with rfl | rfl
  · rcases numeric_cases hexpected with rfl | rfl
    · exact absurd (assignable_self _) h
    · exact absurd rfl h
  · rcases numeric_cases hexpected with rfl | rfl
    · exact ⟨rfl, rfl⟩
    · exact absurd (assignable_self _) h

theorem not_narrowed {given expected : Ty} (hexpected : isNumeric expected = true) (hgiven : isNumeric given = true)
    (h : T.isAssignableTo given expected = some true) : ¬ (kind expected = .int ∧ kind given = .float) := by
  intro hkinds
  rcases numeric_cases hexpected with rfl | rfl
  · rcases numeric_cases hgiven with rfl | rfl
    · cases hkinds.2
    · have hfalse : T.isAssignableTo .float .int = some false := rfl
      rw [hfalse] at h
      cases h
  · cases hkinds.1

/-- A `return` accepts what is assignable to the type of the function. -/
theorem accepted_return_iff (hvalue : Evaluates T C e R σ σ') (hexplicit : C.hasExplicitReturnType = true) :
    Passes (checkStmt T C (.returnStmt (some e))) σ ↔ T.isAssignableTo R C.currentReturnType = some true := by
  have hpasses : Passes (checkStmt T C (.returnStmt (some e))) σ ↔ Passes (checkReturn T C true R) σ' := by
    have hrun : checkStmt T C (.returnStmt (some e)) σ = checkReturn T C true R σ' := by
      show (checkExpr T C e >>= checkReturn T C true) σ = _
      rw [Effect.bind_run, hvalue.run]
    unfold Passes
    rw [hrun]
  have hcompare : Passes (checkReturn T C true R) σ' ↔ Passes (onlyIf (!isUnknown C.currentReturnType) do
      let ok ← isAssignable T R C.currentReturnType
      onlyIf (!ok && !isUnknown R) <|
        if isNumeric R && isNumeric C.currentReturnType then
          onlyIf (kind C.currentReturnType = .int && kind R = .float)
            (error (.returnMismatch C.currentReturnType R))
        else error (.returnMismatch C.currentReturnType R)) σ' := by
    unfold checkReturn
    rw [hexplicit, Bool.true_and]
    exact passes_bind_pure
  rw [hpasses, hcompare]
  by_cases hunknown : isUnknown C.currentReturnType = true
  · rw [hunknown]
    exact iff_of_true ⟨rfl, hvalue.clean⟩ (assignable_of_unknown (.inr hunknown))
  · rw [Bool.eq_false_iff.mpr hunknown]
    cases hassignable : T.isAssignableTo R C.currentReturnType with
    | none =>
      have hrun : isAssignable T R C.currentReturnType σ' = (.error .diverges, σ') := by
        unfold isAssignable
        rw [hassignable]
        rfl
      constructor
      · intro h
        have hended := h.1
        simp only [Bool.not_false, onlyIf, if_true, Effect.bind_run, hrun] at hended
        cases hended
      · intro h
        cases h
    | some ok =>
      have hrun : isAssignable T R C.currentReturnType σ' = (.ok ok, σ') := by
        unfold isAssignable
        rw [hassignable]
        rfl
      simp only [Bool.not_false, onlyIf, if_true]
      rw [passes_bind hrun]
      cases ok with
      | true => exact iff_of_true ⟨rfl, hvalue.clean⟩ rfl
      | false =>
        have hassignable' : T.isAssignableTo R C.currentReturnType ≠ some true := by
          rw [hassignable]
          decide
        have hgiven : isUnknown R = false := Bool.eq_false_iff.mpr fun h => hassignable' (assignable_of_unknown (.inl h))
        rw [hgiven]
        simp only [Bool.not_false, Bool.and_self, if_true]
        apply iff_of_false
        · by_cases hnumeric : (isNumeric R && isNumeric C.currentReturnType) = true
          · rw [if_pos hnumeric]
            obtain ⟨hR, hexpected⟩ := Bool.and_eq_true_iff.mp hnumeric
            obtain ⟨hint, hfloat⟩ := numeric_assignable hR hexpected hassignable'
            rw [hint, hfloat]
            exact fun h => Bool.true_eq_false.mp ((accepts_onlyIf hvalue.clean).mp h)
          · rw [if_neg hnumeric]
            exact fun h => Bool.true_eq_false.mp ((accepts_onlyIf (b := true) hvalue.clean).mp h)
        · decide

/-- An argument is accepted if it is assignable to the type of the parameter. -/
theorem accepted_argument_iff (function : Name) (expected : Ty) (hclean : σ.errors = []) :
    Passes (checkArgTypes T function [(expected, R)]) σ ↔ T.isAssignableTo R expected = some true := by
  rw [← accepts_guarded R expected (.argumentType function expected R) hclean]
  unfold Passes
  rw [checkArgTypes, Effect.bind_run, Bool.and_comm]
  generalize onlyIf _ _ σ = r
  obtain ⟨_ | a, τ⟩ := r
  · exact Iff.rfl
  · exact Iff.rfl

/-! ## The result -/

/-- A type that is declared, and the type of a value. -/
def Interchangeable (declared R : Ty) : Prop :=
  isUnknown declared = true ∨ isUnknown R = true ∨ typeEquals declared R = true ∨
    isNumeric declared = true ∧ isNumeric R = true

instance (declared R : Ty) : Decidable (Interchangeable declared R) :=
  inferInstanceAs (Decidable (_ ∨ _ ∨ _ ∨ _ ∧ _))

/-- What an assignment accepts, is assignable. -/
theorem assignable_of_reassigned {existing : Ty}
    (h : isUnknown existing = true ∨ isUnknown R = true ∨ typeEquals existing R = true ∨
      (isNumeric existing = true ∧ isNumeric R = true) ∧ ¬ (kind existing = .int ∧ kind R = .float)) :
    T.isAssignableTo R existing = some true := by
  rcases h with h | h | h | ⟨⟨hexisting, hR⟩, hnarrow⟩
  · exact assignable_of_unknown (.inr h)
  · exact assignable_of_unknown (.inl h)
  · rw [(typeEquals_iff _ _).mp h]
    exact assignable_self R
  · by_contra hnot
    exact hnarrow (numeric_assignable hR hexisting hnot)

/-- The declaration and the later assignment of a value of type `R` are both accepted or neither, and so are a
`return` and an argument. -/
def Agree (T : Tables) (declared R : Ty) (declaration reassignment : Prop) : Prop :=
  (declaration ↔ reassignment) ∧
    (∀ (C : Context) (e : Expr) (σ σ' : State), Evaluates T C e R σ σ' → C.hasExplicitReturnType = true →
      C.currentReturnType = declared → (declaration ↔ Passes (checkStmt T C (.returnStmt (some e))) σ)) ∧
    ∀ (function : Name) (σ : State), σ.errors = [] →
      (declaration ↔ Passes (checkArgTypes T function [(declared, R)]) σ)

/-- **Where a declaration and a later assignment agree.**  A name is declared with an annotation and a value, and
another value of the same type is assigned to it where it is in scope with the declared type.  They agree, with
`return` and with arguments, exactly if the value is not assignable to the declared type, or the name is not that of a
const that has been met and the types are equal, both numbers, or one of them unknown. -/
theorem agree_iff {C₁ : Context} {x₁ : Occurrence} {e₁ : Expr} {τ τ' : State} {extra₁ : List Expr} {pos₁ : Position}
    (hann : ann ≠ []) (hvalue : Evaluates T C e R σ σ') (hconst : x.name ∉ σ.constVars)
    (hfresh : σ'.isDeclared x.name = false) (hvalue₁ : Evaluates T C₁ e₁ R τ τ')
    (hdeclared : τ'.isDeclared x₁.name = true) (hfind : τ'.find x₁.name = resolve T C ann) :
    Agree T (resolve T C ann) R (Passes (checkStmt T C (.assignStmt (.identifier x) e extra ann pos)) σ)
        (Passes (checkStmt T C₁ (.assignStmt (.identifier x₁) e₁ extra₁ [] pos₁)) τ) ↔
      T.isAssignableTo R (resolve T C ann) ≠ some true ∨
        x₁.name ∉ τ.constVars ∧ Interchangeable (resolve T C ann) R := by
  have hdeclaration : Passes (checkStmt T C (.assignStmt (.identifier x) e extra ann pos)) σ ↔
      T.isAssignableTo R (resolve T C ann) = some true := accepted_declaration_iff hann hvalue hconst hfresh
  have hreturn : ∀ (C₂ : Context) (e₂ : Expr) (ρ ρ' : State), Evaluates T C₂ e₂ R ρ ρ' →
      C₂.hasExplicitReturnType = true → C₂.currentReturnType = resolve T C ann →
        (Passes (checkStmt T C (.assignStmt (.identifier x) e extra ann pos)) σ ↔
          Passes (checkStmt T C₂ (.returnStmt (some e₂))) ρ) := by
    intro C₂ e₂ ρ ρ' hvalue₂ hexplicit htype
    rw [hdeclaration, accepted_return_iff hvalue₂ hexplicit, htype]
  have hargument : ∀ (function : Name) (ρ : State), ρ.errors = [] →
      (Passes (checkStmt T C (.assignStmt (.identifier x) e extra ann pos)) σ ↔
        Passes (checkArgTypes T function [(resolve T C ann, R)]) ρ) := by
    intro function ρ hclean
    rw [hdeclaration, accepted_argument_iff function _ hclean]
  unfold Agree
  rw [and_iff_left ⟨hreturn, hargument⟩, hdeclaration, accepted_reassignment_iff hvalue₁ hdeclared, hfind]
  constructor
  · intro h
    by_cases hassignable : T.isAssignableTo R (resolve T C ann) = some true
    · obtain ⟨hconst₁, hsame⟩ := h.mp hassignable
      exact .inr ⟨hconst₁, hsame.imp_right (Or.imp_right (Or.imp_right And.left))⟩
    · exact .inl hassignable
  · intro h
    constructor
    · intro hassignable
      obtain ⟨hconst₁, hsame⟩ := h.resolve_left fun hnot => hnot hassignable
      refine ⟨hconst₁, hsame.imp_right (Or.imp_right (Or.imp_right fun hnumeric => ⟨hnumeric, ?_⟩))⟩
      exact not_narrowed hnumeric.1 hnumeric.2 hassignable
    · intro h
      exact assignable_of_reassigned h.2

/-- `x: float = 1`, and then `x = 2` behind it: an integer for a declared float. -/
theorem agree_iff_float :
    Agree {} .float .int
      (Passes (checkStmt {} {} (.assignStmt (.identifier "x".toList) (.intLiteral 1) [] floatName)) { symbols := [[]] })
      (Passes (checkStmt {} {} (.assignStmt (.identifier "x".toList) (.intLiteral 2) [] []))
        { symbols := [[("x".toList, .float)]] }) := by
  have hvalue (n : ℤ) (scope : Scope) :
      Evaluates {} {} (.intLiteral n) .int { symbols := [scope] } { symbols := [scope] } :=
    ⟨rfl, rfl, List.cons_ne_nil _ _⟩
  have hfloat : resolve {} {} floatName = .float := rfl
  rw [← hfloat]
  apply (agree_iff (by decide) (hvalue 1 []) List.not_mem_nil rfl (hvalue 2 _) rfl rfl).mpr
  exact .inr ⟨List.not_mem_nil, by decide⟩

/-- `x: list = [1]` is accepted, and `x = [2]` behind it is not. -/
theorem list_not_reassigned :
    (check [.assignStmt (.identifier "x".toList) (.listExpr [.intLiteral 1]) [] "list".toList]).2.errors = [] ∧
      (check [.assignStmt (.identifier "x".toList) (.listExpr [.intLiteral 1]) [] "list".toList,
        .assignStmt (.identifier "x".toList) (.listExpr [.intLiteral 2]) [] []]).2.errors =
          [.cannotAssign (.list .int) (.list .unknown)] :=
  ⟨rfl, rfl⟩

end Visuall.Checker
