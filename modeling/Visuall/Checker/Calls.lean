import Visuall.Lib.Effect
import Visuall.Checker.Statements

/-!
# Numbers of arguments

Calls of the functions and methods of a program, against the declarations that they reach.

* `takes` — what a declaration allows;
* `Callee p C σ e h` — from the state `σ`, the callee `e` reaches the declaration `h`;
* `Counts x c` — `x` complains about a number of arguments exactly when `c` holds;
* `call_counted_iff` — when the visitors complain about a call exactly if its callee does not take it.
-/

namespace Visuall.Checker

open Visuall.Ast Visuall.Types

variable {α β : Type} {p : List Stmt} {T : Tables} {C : Context} {σ : State} {n : ℕ} {h : FuncHeader}
  {P : Prop}

/-! ## Declarations -/

namespace FuncHeader

/-- There is no upper bound on the number of arguments. -/
def unbounded (h : FuncHeader) : Bool := h.params.any (·.isVariadic) || h.isVariadicCFunc

/-- A declaration takes `n` arguments: one for each parameter without a default at least, and one for each
parameter at most. -/
def takes (h : FuncHeader) (n : ℕ) : Prop :=
  requiredArgs h.params ≤ n ∧ (unbounded h = true ∨ n ≤ h.params.length)

instance (h : FuncHeader) (n : ℕ) : Decidable (takes h n) :=
  inferInstanceAs (Decidable (requiredArgs h.params ≤ n ∧ (unbounded h = true ∨ n ≤ h.params.length)))

end FuncHeader

open FuncHeader

theorem requiredArgs_le (params : List Param) : requiredArgs params ≤ params.length :=
  List.countP_le_length

/-- A function of a given name. -/
def funcNamed (name : Name) : Stmt → Option FuncHeader
  | .funcDef h _ => if h.name = name then some h else none
  | _ => none

/-- A class of a given name, with its body. -/
def classNamed (name : Name) : Stmt → Option (ClassHeader × List Stmt)
  | .classDef h body => if h.name = name then some (h, body) else none
  | _ => none

/-- The function of a name at the top level: the last one. -/
def topLevelFunc (p : List Stmt) (name : Name) : Option FuncHeader :=
  p.reverse.findSome? (funcNamed name)

/-- The class of a name at the top level: the last one. -/
def topLevelClass (p : List Stmt) (name : Name) : Option (ClassHeader × List Stmt) :=
  p.reverse.findSome? (classNamed name)

/-- The method of a name in a class body: the first one. -/
def bodyMethod (body : List Stmt) (name : Name) : Option FuncHeader :=
  body.findSome? (funcNamed name)

/-- The method that is found on a class: its own, or the one of its base class. -/
def methodOf (p : List Stmt) (className member : Name) : Option FuncHeader :=
  match topLevelClass p className with
  | some (h, body) =>
      match bodyMethod body member with
      | some m => some m
      | none =>
          if h.baseClass.getD [] = [] then none
          else (topLevelClass p (h.baseClass.getD [])).bind fun b => bodyMethod b.2 member
  | none => none

/-! ## The tables of the first pass -/

theorem firstPass_append (p : List Stmt) (s : Stmt) :
    firstPass (p ++ [s]) = register (firstPass p) s := by
  unfold firstPass
  rw [List.foldl_append]
  rfl

theorem funcMinArgs_funcDef (Ts : Tables × Scope) (h : FuncHeader) (body : List Stmt) :
    (register Ts (.funcDef h body)).1.funcMinArgs =
      (h.name, requiredArgs h.params) :: Ts.1.funcMinArgs := by
  rcases Ts with ⟨T, scope⟩
  by_cases htypes : h.typeParams = []
  · show (if h.typeParams = [] then _ else _ : Tables).funcMinArgs = _
    rw [if_pos htypes]
  · show (if h.typeParams = [] then _ else _ : Tables).funcMinArgs = _
    rw [if_neg htypes]

theorem classTable_funcDef (Ts : Tables × Scope) (h : FuncHeader) (body : List Stmt) :
    (register Ts (.funcDef h body)).1.classTable = Ts.1.classTable := by
  rcases Ts with ⟨T, scope⟩
  by_cases htypes : h.typeParams = []
  · show (if h.typeParams = [] then _ else _ : Tables).classTable = _
    rw [if_pos htypes]
  · show (if h.typeParams = [] then _ else _ : Tables).classTable = _
    rw [if_neg htypes]

theorem findSome?_reverse_append {f : Stmt → Option α} (p : List Stmt) (s : Stmt) :
    (p ++ [s]).reverse.findSome? f = (f s).or (p.reverse.findSome? f) := by
  rw [List.reverse_append]
  show List.findSome? f (s :: p.reverse) = _
  rw [List.findSome?_cons]
  cases f s <;> rfl

theorem lookup_funcMinArgs (p : List Stmt) (name : Name) :
    (firstPass p).1.funcMinArgs.lookup name =
      (topLevelFunc p name).map fun h => requiredArgs h.params := by
  induction p using List.reverseRecOn with
  | nil => rfl
  | append_singleton p s ih =>
      unfold topLevelFunc at ih ⊢
      rw [firstPass_append, findSome?_reverse_append]
      cases s with
      | funcDef h body =>
          rw [funcMinArgs_funcDef, List.lookup_cons, funcNamed]
          by_cases hname : h.name = name
          · rw [if_pos hname, hname, beq_self_eq_true]
            rfl
          · rw [if_neg hname, beq_eq_false_iff_ne.mpr (Ne.symm hname)]
            exact ih
      | _ => exact ih

/-- What is kept for a class. -/
def ClassInfo.Of (info : ClassInfo) (c : ClassHeader × List Stmt) : Prop :=
  info.baseClass = c.1.baseClass.getD [] ∧ ∃ T C, info.methods = bodyMethods T C c.2

/-- The class table holds the last class of each name, with what the first pass keeps of it. -/
theorem lookup_classTable {R : ClassInfo → ClassHeader × List Stmt → Prop}
    (hR : ∀ T C h body, R ⟨h.baseClass.getD [], h.extraBases, h.interfaces, bodyMethods T C body⟩ (h, body))
    (p : List Stmt) (name : Name) :
    Option.Rel R ((firstPass p).1.classTable.lookup name) (topLevelClass p name) := by
  induction p using List.reverseRecOn with
  | nil => exact .none
  | append_singleton p s ih =>
      unfold topLevelClass at ih ⊢
      rw [firstPass_append, findSome?_reverse_append]
      cases s with
      | classDef h body =>
          show Option.Rel _ (List.lookup name ((h.name, _) :: _)) _
          rw [List.lookup_cons, classNamed]
          by_cases hname : h.name = name
          · rw [if_pos hname, hname, beq_self_eq_true]
            exact .some (hR _ _ h body)
          · rw [if_neg hname, beq_eq_false_iff_ne.mpr (Ne.symm hname)]
            exact ih
      | funcDef h body =>
          rw [classTable_funcDef]
          exact ih
      | _ => exact ih

theorem methodType_bodyMethods (T : Tables) (C : Context) (body : List Stmt) (member : Name) :
    methodType (bodyMethods T C body) member = (bodyMethod body member).map (headerType T C) := by
  unfold methodType bodyMethods bodyMethod
  induction body with
  | nil => rfl
  | cons s body ih =>
      rw [List.findSome?_cons]
      cases s with
      | funcDef h block =>
          rw [funcNamed]
          show ((methodInfo T C h.name h.returnType h.params :: _).find? _).map _ = _
          rw [List.find?_cons]
          show (match decide (h.name = member) with | true => _ | false => _ : Option MethodInfo).map _ = _
          by_cases hname : h.name = member
          · rw [if_pos hname, decide_eq_true hname]
            rfl
          · rw [if_neg hname, decide_eq_false hname]
            exact ih
      | _ => exact ih

/-- The class table has an entry for a class of the top level. -/
theorem classTable_of_topLevelClass {name : Name} {c : ClassHeader × List Stmt}
    (hclass : topLevelClass p name = some c) :
    ∃ info T C, (firstPass p).1.classTable.lookup name = some info ∧
      info.baseClass = c.1.baseClass.getD [] ∧ info.methods = bodyMethods T C c.2 := by
  have hrel := lookup_classTable (R := ClassInfo.Of) (fun T C _ _ => ⟨rfl, T, C, rfl⟩) p name
  rw [hclass] at hrel
  generalize hlookup : (firstPass p).1.classTable.lookup name = entry at hrel
  cases hrel with
  | some hinfo =>
      obtain ⟨hbase, T, C, hmethods⟩ := hinfo
      exact ⟨_, T, C, rfl, hbase, hmethods⟩

/-- A method that is found on a class has the type of its declaration. -/
theorem memberResult_methodOf {className member : Name} (hmethod : methodOf p className member = some h) :
    ∃ T C, memberResult (firstPass p).1 (.cls className) member = headerType T C h := by
  unfold methodOf at hmethod
  unfold memberResult
  cases hclass : topLevelClass p className with
  | none =>
      rw [hclass] at hmethod
      cases hmethod
  | some c =>
      rw [hclass] at hmethod
      obtain ⟨info, T, C, hlookup, hbase, hmethods⟩ := classTable_of_topLevelClass hclass
      simp only [hlookup, hmethods, methodType_bodyMethods]
      cases hown : bodyMethod c.2 member with
      | some m =>
          simp only [hown, Option.some.injEq] at hmethod
          subst hmethod
          exact ⟨T, C, rfl⟩
      | none =>
          simp only [hown] at hmethod
          split_ifs at hmethod with hempty
          rw [← hbase] at hempty hmethod
          cases hbaseClass : topLevelClass p info.baseClass with
          | none =>
              rw [hbaseClass] at hmethod
              cases hmethod
          | some b =>
              rw [hbaseClass] at hmethod
              obtain ⟨binfo, T', C', hblookup, _, hbmethods⟩ := classTable_of_topLevelClass hbaseClass
              have hinherited : bodyMethod b.2 member = some h := hmethod
              refine ⟨T', C', ?_⟩
              simp only [Option.map_none, if_neg hempty, hblookup, hbmethods, methodType_bodyMethods,
                hinherited, Option.map_some, Option.getD_some]

/-! ## Complaints -/

/-- The error is one about a number of arguments. -/
def TypeErr.isArity : TypeErr → Bool
  | .arity .. => true
  | _ => false

/-- Errors are added, and one about a number of arguments exactly when `c` holds. -/
def Counts (x : Check α) (c : Prop) : Prop :=
  ∀ σ, ∃ errs, (x σ).2.errors = σ.errors ++ errs ∧ ((∃ e ∈ errs, e.isArity = true) ↔ c)

namespace Counts

variable {x : Check α} {f : α → Check β} {e : TypeErr}

theorem pure (a : α) : Counts (Pure.pure a : Check α) False :=
  fun σ => ⟨[], (List.append_nil _).symm, by simp⟩

theorem throw (s : Stop) : Counts (MonadExcept.throw s : Check α) False :=
  fun σ => ⟨[], (List.append_nil _).symm, by simp⟩

theorem error (e : TypeErr) : Counts (Checker.error e) (e.isArity = true) :=
  fun σ => ⟨[e], rfl, by simp⟩

theorem of_iff {c d : Prop} (hx : Counts x c) (hcd : c ↔ d) : Counts x d := by
  intro σ
  obtain ⟨errs, herrs, hcount⟩ := hx σ
  exact ⟨errs, herrs, hcount.trans hcd⟩

/-- Two computations, the first of which always ends. -/
theorem bind_of_ok {c d : Prop} (hx : Counts x c) (hok : ∀ σ, ∃ a, (x σ).1 = .ok a)
    (hf : ∀ a, Counts (f a) d) : Counts (x >>= f) (c ∨ d) := by
  intro σ
  obtain ⟨errs, herrs, hcount⟩ := hx σ
  obtain ⟨a, ha⟩ := hok σ
  obtain ⟨errs', herrs', hcount'⟩ := hf a (x σ).2
  have hrun : (x >>= f) σ = f a (x σ).2 := by
    rw [Effect.bind_run, ← Prod.mk.eta (p := x σ), ha]
  refine ⟨errs ++ errs', ?_, ?_⟩
  · rw [hrun, herrs', herrs, List.append_assoc]
  · rw [← hcount, ← hcount']
    simp only [List.mem_append, or_and_right, exists_or]

/-- A computation without a complaint behind another. -/
theorem bind {c : Prop} (hx : Counts x c) (hf : ∀ a, Counts (f a) False) : Counts (x >>= f) c := by
  intro σ
  obtain ⟨errs, herrs, hcount⟩ := hx σ
  rw [Effect.bind_run]
  rcases hrun : x σ with ⟨_ | a, τ⟩
  · rw [hrun] at herrs
    exact ⟨errs, herrs, hcount⟩
  · rw [hrun] at herrs
    have herrors : τ.errors = σ.errors ++ errs := herrs
    obtain ⟨errs', herrs', hcount'⟩ := hf a τ
    refine ⟨errs ++ errs', ?_, ?_⟩
    · show (f a τ).2.errors = _
      rw [herrs', herrors, List.append_assoc]
    · rw [← hcount, ← or_false (∃ e ∈ errs, e.isArity = true), ← hcount']
      simp only [List.mem_append, or_and_right, exists_or]

theorem onlyIf (b : Bool) {x : Check Unit} {c : Prop} (hx : Counts x c) :
    Counts (Checker.onlyIf b x) (b = true ∧ c) := by
  cases b with
  | true => exact hx.of_iff (by simp)
  | false => exact (pure ()).of_iff (by simp)

end Counts

/-! ## Calls -/

/-- The comparison of `got` arguments with the parameters of a function type fails. -/
def Rejects (T : Tables) (funcName : Name) (expectedArgs got : ℕ) : Prop :=
  got < minArgs T funcName expectedArgs ∨ expectedArgs < got

theorem checkArity_counts (funcName : Name) (expectedArgs got : ℕ) :
    Counts (checkArity T funcName expectedArgs got) (Rejects T funcName expectedArgs got) := by
  refine (Counts.onlyIf _ (Counts.error _)).of_iff ?_
  rw [Bool.or_eq_true, decide_eq_true_iff, decide_eq_true_iff]
  exact and_iff_left rfl

theorem errorIf_ok (b : Bool) (e : TypeErr) (σ : State) : (onlyIf b (error e) σ).1 = .ok () := by
  cases b <;> rfl

theorem requireAssignable_counts (given expected : Ty) {e : TypeErr} (he : e.isArity = false) :
    Counts (requireAssignable T given expected e) False := by
  have herror (ok : Bool) : Counts (onlyIf (!ok) (error e)) False :=
    (Counts.onlyIf _ (Counts.error e)).of_iff (by simp [he])
  unfold requireAssignable isAssignable
  refine Counts.bind ?_ herror
  split
  · exact .pure _
  · exact .throw _

theorem checkArgTypes_counts (funcName : Name) (pairs : List (Ty × Ty)) :
    Counts (checkArgTypes T funcName pairs) False := by
  induction pairs with
  | nil => exact .pure ()
  | cons pair pairs ih =>
      obtain ⟨expected, actual⟩ := pair
      refine Counts.bind ?_ fun _ => ih
      exact (Counts.onlyIf _ (requireAssignable_counts actual expected rfl)).of_iff (iff_of_eq (and_false _))

theorem checkBound_counts (funcName param : Name) (concrete : Ty) :
    Counts (checkBound T funcName param concrete) False := by
  unfold checkBound
  split
  · exact (Counts.onlyIf _ (Counts.error _)).of_iff (by simp [TypeErr.isArity])
  · exact .pure ()

theorem checkBounds_counts (funcName : Name) (map : List (Name × Ty)) :
    Counts (checkBounds T funcName map) False := by
  induction map with
  | nil => exact .pure ()
  | cons entry map ih =>
      obtain ⟨param, concrete⟩ := entry
      exact (checkBound_counts funcName param concrete).bind fun _ => ih

theorem checkBounds_ok (funcName : Name) (map : List (Name × Ty)) (σ : State) :
    ∃ u, (checkBounds T funcName map σ).1 = .ok u := by
  induction map generalizing σ with
  | nil => exact ⟨(), rfl⟩
  | cons entry map ih =>
      obtain ⟨param, concrete⟩ := entry
      have hbound : (checkBound T funcName param concrete σ).1 = .ok () := by
        unfold checkBound
        cases T.funcBounds.lookup (funcName ++ ".".toList ++ param) with
        | some bound => exact errorIf_ok _ _ σ
        | none => rfl
      have hrun : checkBounds T funcName ((param, concrete) :: map) σ =
          checkBounds T funcName map (checkBound T funcName param concrete σ).2 := by
        rw [checkBounds, Effect.bind_run, ← Prod.mk.eta (p := checkBound T funcName param concrete σ),
          hbound]
      rw [hrun]
      exact ih _

/-- **A call of a function type complains exactly when the comparison fails.** -/
theorem callFunction_counts (funcName : Name) (ret : Ty) (params args : List Ty) (typeArgs : List Name) :
    Counts (callFunction T C funcName ret params args typeArgs)
      (Rejects T funcName params.length args.length) := by
  have harity := checkArity_counts (T := T) funcName params.length args.length
  unfold callFunction
  dsimp only
  split
  · refine (Counts.bind_of_ok (checkBounds_counts _ _) (checkBounds_ok _ _) fun _ => ?_).of_iff
      (iff_of_eq (false_or _))
    refine harity.bind fun _ => ?_
    split
    · exact .pure _
    · exact .pure _
  · exact harity.bind fun _ => (checkArgTypes_counts _ _).bind fun _ => .pure _

/-- A call, or a call in a task of its own. -/
inductive CallSite
  | call (callee : Expr) (args : List Expr) (typeArgs : List Name)
  | go (callee : Expr) (args : List Expr)

namespace CallSite

/-- The expression of a call. -/
def expr : CallSite → Expr
  | call callee args typeArgs => .callExpr callee args typeArgs
  | go callee args => .goExpr callee args

/-- What is called. -/
def callee : CallSite → Expr
  | call callee _ _ | go callee _ => callee

/-- What it is called with. -/
def args : CallSite → List Expr
  | call _ args _ | go _ args => args

end CallSite

/-- **What a callee reaches**, from the state `σ`: a function of the top level, where its name still has the
type of it, or a method that is found on the class of its receiver.  The names of builtin functions denote
these, here and in code generation. -/
inductive Callee (p : List Stmt) (C : Context) (σ : State) : Expr → FuncHeader → Prop
  | function {name : Occurrence} {h : FuncHeader} {T' : Tables} {C' : Context} :
      topLevelFunc p name.name = some h → builtinCall (.identifier name) = none →
      σ.isDeclared name.name = true → σ.find name.name = headerType T' C' h →
      Callee p C σ (.identifier name) h
  | method {object : Expr} {className member : Name} {h : FuncHeader} {σ' : State} :
      checkExpr (firstPass p).1 C object σ = (.ok (.cls className), σ') →
      methodOf p className member = some h → Callee p C σ (.memberExpr object member) h

theorem lookup_declared {name : Occurrence} (hdeclared : σ.isDeclared name.name = true) :
    lookup name σ = (.ok (σ.find name.name), σ) := by
  show (if σ.isDeclared name.name = true then find name.name else _ : Check Ty) σ = _
  rw [if_pos hdeclared]
  rfl

/-- A callee has the type of the declaration that it reaches. -/
theorem Callee.type {e : Expr} (hcallee : Callee p C σ e h) :
    builtinCall e = none ∧ ∃ T' C', (checkExpr (firstPass p).1 C e σ).1 = .ok (headerType T' C' h) := by
  cases hcallee with
  | @function name _ T' C' _ hplain hdeclared htype =>
      refine ⟨hplain, T', C', ?_⟩
      rw [checkExpr, lookup_declared hdeclared, htype]
  | method hobject hmethod =>
      obtain ⟨T', C', hmember⟩ := memberResult_methodOf hmethod
      refine ⟨rfl, T', C', ?_⟩
      rw [checkExpr, Effect.bind_run, hobject]
      show Except.ok (memberResult _ _ _) = _
      rw [hmember]

theorem checkExprs_length {args : List Expr} {types : List Ty} {σ' : State}
    (hargs : checkExprs T C args σ = (.ok types, σ')) : types.length = args.length := by
  induction args generalizing σ types with
  | nil =>
      cases hargs
      rfl
  | cons e args ih =>
      rw [checkExprs, Effect.bind_run] at hargs
      rcases hhead : checkExpr T C e σ with ⟨_ | t, τ⟩
      · rw [hhead] at hargs
        cases hargs
      · rw [hhead] at hargs
        dsimp only at hargs
        rw [Effect.bind_run] at hargs
        rcases hrest : checkExprs T C args τ with ⟨_ | ts, τ'⟩
        · rw [hrest] at hargs
          cases hargs
        · rw [hrest] at hargs
          cases hargs
          rw [List.length_cons, List.length_cons, ih hrest]

/-! ## Callees and their own parameters -/

/-- The least number of arguments that the table of the first pass has for the name of a declaration. -/
def nameMin (p : List Stmt) (h : FuncHeader) : ℕ :=
  ((topLevelFunc p h.name).map fun f => requiredArgs f.params).getD h.params.length

/-- The comparison with what is kept under the name of the callee has the outcome of a comparison with its
own parameters: no argument goes to a parameter that takes any number of them, and the least number for the
name decides as the one of the callee itself. -/
def CallSite.Agrees (p : List Stmt) (h : FuncHeader) : CallSite → Prop
  | .call _ args _ =>
      (h.params.length < args.length → unbounded h = false) ∧
        (args.length ≤ h.params.length →
          (args.length < nameMin p h ↔ args.length < requiredArgs h.params))
  | .go _ args => takes h args.length

/-- The visitor complains about the number of arguments exactly if the callee does not take it; `σ'` is the
state behind the callee and the arguments. -/
def Counted (p : List Stmt) (C : Context) (σ σ' : State) (site : CallSite) (h : FuncHeader) : Prop :=
  ∃ errs, (checkExpr (firstPass p).1 C site.expr σ).2.errors = σ'.errors ++ errs ∧
    ((∃ e ∈ errs, e.isArity = true) ↔ ¬ takes h site.args.length)

theorem rejects_iff_agrees {args : List Expr} {callee : Expr} {typeArgs : List Name} :
    (Rejects (firstPass p).1 h.name h.params.length args.length ↔ ¬ takes h args.length) ↔
      (CallSite.call callee args typeArgs).Agrees p h := by
  have hmin : minArgs (firstPass p).1 h.name h.params.length = nameMin p h := by
    unfold minArgs nameMin
    rw [lookup_funcMinArgs]
  have hle := requiredArgs_le h.params
  show (_ ∨ _ ↔ ¬ (_ ∧ _)) ↔ (_ → _) ∧ (_ → _)
  rw [hmin]
  cases unbounded h with
  | true =>
      simp only [true_or, and_true, Bool.true_eq_false, imp_false]
      omega
  | false =>
      simp only [Bool.false_eq_true, false_or, implies_true, true_and]
      omega

theorem callExpr_run {callee : Expr} {args : List Expr} {typeArgs : List Name} {name : Name} {ret : Ty}
    {params types : List Ty} {τ σ' : State} (hplain : builtinCall callee = none)
    (hcallee : checkExpr T C callee σ = (.ok (.func name ret params), τ))
    (hargs : checkExprs T C args τ = (.ok types, σ')) :
    checkExpr T C (.callExpr callee args typeArgs) σ =
      callFunction T C name ret params types typeArgs σ' := by
  rw [checkExpr, hplain]
  dsimp only
  rw [Effect.bind_run, hcallee]
  dsimp only
  rw [Effect.bind_run, hargs]
  rfl

theorem goExpr_run {callee : Expr} {args : List Expr} {t : Ty} {types : List Ty} {τ σ' : State}
    (hcallee : checkExpr T C callee σ = (.ok t, τ))
    (hargs : checkExprs T C args τ = (.ok types, σ')) :
    checkExpr T C (.goExpr callee args) σ = (.ok .void, σ') := by
  rw [checkExpr, Effect.bind_run, hcallee]
  dsimp only
  rw [Effect.bind_run, hargs]
  rfl

/-- **When the visitors complain about a call exactly if its callee does not take it.** -/
theorem call_counted_iff {site : CallSite} {σ₁ σ₂ : State} {types : List Ty}
    (hcallee : Callee p C σ site.callee h)
    (hfirst : (checkExpr (firstPass p).1 C site.callee σ).2 = σ₁)
    (hargs : checkExprs (firstPass p).1 C site.args σ₁ = (.ok types, σ₂)) :
    Counted p C σ σ₂ site h ↔ site.Agrees p h := by
  obtain ⟨hplain, T', C', htype⟩ := hcallee.type
  have hvisit : checkExpr (firstPass p).1 C site.callee σ = (.ok (headerType T' C' h), σ₁) :=
    Prod.ext htype hfirst
  unfold Counted
  cases site with
  | call callee args typeArgs =>
      have hlength : types.length = args.length := checkExprs_length hargs
      have hparams : (h.params.map fun p => resolveOrUnknown T' C' (Param.typeAnnotation p)).length =
          h.params.length := List.length_map _
      obtain ⟨errs, herrs, hcount⟩ := callFunction_counts (T := (firstPass p).1) (C := C) h.name
        (resolveOrUnknown T' C' h.returnType)
        (h.params.map fun p => resolveOrUnknown T' C' (Param.typeAnnotation p)) types typeArgs σ₂
      rw [hparams, hlength] at hcount
      rw [← rejects_iff_agrees, ← hcount]
      have hrun : checkExpr (firstPass p).1 C (.callExpr callee args typeArgs) σ = _ :=
        callExpr_run hplain hvisit hargs
      show (∃ errs, (checkExpr _ C (.callExpr callee args typeArgs) σ).2.errors = _ ∧ _) ↔ _
      rw [hrun]
      show (∃ errs, (callFunction _ C _ _ _ _ _ _).2.errors = _ ∧ _) ↔ _
      rw [herrs]
      constructor
      · rintro ⟨errs', herrs', hcount'⟩
        rw [List.append_cancel_left herrs']
        exact hcount'
      · intro hagrees
        exact ⟨errs, rfl, hagrees⟩
  | go callee args =>
      have hrun : checkExpr (firstPass p).1 C (.goExpr callee args) σ = _ := goExpr_run hvisit hargs
      show (∃ errs, (checkExpr _ C (.goExpr callee args) σ).2.errors = _ ∧ _) ↔ takes h args.length
      rw [hrun]
      constructor
      · rintro ⟨errs, herrs, hcount⟩
        have hnone : errs = [] := List.self_eq_append_right.mp herrs
        by_contra htakes
        obtain ⟨e, he, _⟩ := hcount.mpr htakes
        rw [hnone] at he
        exact List.not_mem_nil he
      · intro htakes
        exact ⟨[], (List.append_nil _).symm, by simp [CallSite.args, htakes]⟩

/-- `func g(a, b = 1)`. -/
def defaulted : FuncHeader :=
  { name := "g".toList
    params := [{ name := "a".toList }, { name := "b".toList, defaultValue := some (.intLiteral 1) }] }

/-- The state in which the visitors of a program begin. -/
def State.start (p : List Stmt) : State := { symbols := [(firstPass p).2] }

/-- A program with nothing but `g`. -/
def onlyDefaulted : List Stmt := [.funcDef defaulted []]

theorem call_counted_iff_defaulted :
    Counted onlyDefaulted {} (.start onlyDefaulted) (.start onlyDefaulted)
      (.call (.identifier "g".toList) [.intLiteral 5] []) defaulted := by
  have hcallee : Callee onlyDefaulted {} (.start onlyDefaulted) (.identifier "g".toList) defaulted := by
    exact @Callee.function _ _ _ _ _ {} {} rfl rfl rfl rfl
  have hargs : checkExprs (firstPass onlyDefaulted).1 {} [.intLiteral 5] (.start onlyDefaulted) =
      (.ok [.int], .start onlyDefaulted) := rfl
  refine (call_counted_iff hcallee rfl hargs).mpr ⟨fun h => absurd h (by decide), fun _ => ?_⟩
  decide

/-- `func m()`. -/
def namesake : FuncHeader := { name := "m".toList, params := [] }

/-- `func m(a)`, a method. -/
def oneParam : FuncHeader := { name := "m".toList, params := [{ name := "a".toList }] }

/-- `class A` with the method, next to a function of its name. -/
def namesakes : List Stmt :=
  [.funcDef namesake [], .classDef { name := "A".toList } [.funcDef oneParam []]]

/-- `A().m()` is let pass, because a function of the name needs no argument. -/
theorem namesake_miscounted :
    ¬ ∀ p C σ σ₁ σ₂ site h types, Callee p C σ site.callee h →
      (checkExpr (firstPass p).1 C site.callee σ).2 = σ₁ →
      checkExprs (firstPass p).1 C site.args σ₁ = (.ok types, σ₂) → Counted p C σ σ₂ site h := by
  intro h
  have hcallee : Callee namesakes {} (.start namesakes)
      (.memberExpr (.callExpr (.identifier "A".toList) [] []) "m".toList) oneParam :=
    .method rfl rfl
  obtain ⟨errs, herrs, hcount⟩ := h namesakes {} (.start namesakes) (.start namesakes) (.start namesakes)
    (.call (.memberExpr (.callExpr (.identifier "A".toList) [] []) "m".toList) [] []) oneParam []
    hcallee rfl rfl
  have hnone : errs = [] := List.self_eq_append_right.mp herrs
  obtain ⟨e, he, _⟩ := hcount.mpr (by decide)
  rw [hnone] at he
  exact List.not_mem_nil he

end Visuall.Checker
