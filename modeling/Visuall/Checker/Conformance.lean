import Visuall.Checker.Ending
import Visuall.Checker.Functions
import Visuall.Checker.Inheritance

/-!
# Overrides and interfaces

`visit(ClassDef)` compares the methods of a class with those of its primary base, and asks for a method of each name
that an interface of the class has.

* `Agrees` — the comparison of two methods;
* `Provides` — a class has or inherits a method of an interface;
* `Honoured` — all of the ancestors and interfaces of each class are honoured;
* `InheritedSuffices` — a class that inherits what its interfaces require is not rejected;
* `conformance_iff` — exactly when.
-/

namespace Visuall.Checker

open Visuall.Ast Visuall.Types Relation

variable {T : Tables} {C : Context} {p : List Stmt} {h : ClassHeader} {body : List Stmt} {m m' im : MethodInfo}
  {c d iface : Name} {σ τ : State}

/-! ## Methods -/

/-- Two methods have the same number of parameters and, where both are annotated, the same types. -/
def Agrees (m m' : MethodInfo) : Prop :=
  ParamsPass m.paramTypes m'.paramTypes ∧
    (isUnknown m.returnType = false → isUnknown m'.returnType = false → m.returnType = m'.returnType)

theorem known_differ_false {t u : Ty} (hb : (!isUnknown t && !isUnknown u && !typeEquals t u) = false)
    (ht : isUnknown t = false) (hu : isUnknown u = false) : t = u := by
  rw [ht, hu] at hb
  simpa [typeEquals_iff] using hb

/-- A comparison without an error. -/
theorem agrees_of_clean (hclean : Clean (checkOverride m m') σ () τ) : Agrees m m' := by
  have hparam (pair : Ty × Ty) : Plain {} (onlyIf (!isUnknown pair.1 && !isUnknown pair.2 && !typeEquals pair.1 pair.2)
      (error (.overrideParamType m.name pair.2 pair.1))) := .errorIf _ rfl
  have hreturn : Plain {} (onlyIf (!isUnknown m.returnType && !isUnknown m'.returnType &&
      !typeEquals m.returnType m'.returnType) (error (.overrideReturnType m.name m'.returnType m.returnType))) :=
    .errorIf _ rfl
  obtain ⟨_, _, hcount, hrest⟩ := clean_of_bind (T := {}) (.errorIf _ rfl)
    (fun _ => (Mirrors.forM hparam _).bind fun _ => hreturn) hclean
  obtain ⟨_, _, htypes, hresult⟩ := clean_of_bind (Mirrors.forM hparam _) (fun _ => hreturn) hrest
  refine ⟨⟨by simpa using clean_errorIf hcount, fun pair hmem hknown => ?_⟩, fun hm hm' => ?_⟩
  · obtain ⟨_, _, hpair⟩ := clean_forM hparam htypes hmem
    exact known_differ_false (clean_errorIf hpair) hknown.1 hknown.2
  · exact known_differ_false (clean_errorIf hresult) hm hm'

/-! ## Classes -/

namespace Tables

variable (T)

/-- The methods that a class declares itself. -/
def methodsOf (c : Name) : List MethodInfo := ((T.classTable.lookup c).map ClassInfo.methods).getD []

/-- A class lists an interface, or one of its ancestors does. -/
def Implements (c iface : Name) : Prop :=
  ∃ d info, ReflTransGen T.Extends c d ∧ T.classTable.lookup d = some info ∧ iface ∈ info.interfaces

/-- A class has or inherits a method of the name that agrees with that of an interface. -/
def Provides (c : Name) (im : MethodInfo) : Prop :=
  ∃ d, ReflTransGen T.Extends c d ∧ ∃ m ∈ T.methodsOf d, m.name = im.name ∧ Agrees m im

end Tables

theorem Tables.Provides.of_reach (hreach : ReflTransGen T.Extends c d) (hprovides : T.Provides d im) : T.Provides c im := by
  obtain ⟨e, hde, hm⟩ := hprovides
  exact ⟨e, hreach.trans hde, hm⟩

/-- The methods of a class are like those of every ancestor, and it has or inherits what its interfaces and those of its
ancestors require. -/
structure Honoured (T : Tables) : Prop where
  overrides : ∀ c d, TransGen T.Extends c d → ∀ m ∈ T.methodsOf c, ∀ m' ∈ T.methodsOf d, m.name = m'.name → Agrees m m'
  interfaces : ∀ c iface methods, T.Implements c iface → T.interfaceTable.lookup iface = some methods →
    ∀ im ∈ methods, T.Provides c im

/-- What is left of this where each class is compared with its primary base. -/
structure HonouredBeyond (T : Tables) : Prop where
  overrides : ∀ c d, TransGen T.Extends c d → ¬ T.PrimaryBase c d →
    ∀ m ∈ T.methodsOf c, ∀ m' ∈ T.methodsOf d, m.name = m'.name → Agrees m m'
  interfaces : ∀ c info, T.classTable.lookup c = some info → ∀ iface ∈ info.interfaces,
    ∀ methods, T.interfaceTable.lookup iface = some methods → ∀ im ∈ methods, T.Provides c im

/-! ## Accepted programs -/

/-- In a run without an error, no statement has one. -/
theorem clean_statement {stmts : List Stmt} {u : Unit} (hclean : Clean (checkStmts T C stmts) σ u τ) {s : Stmt}
    (hs : s ∈ stmts) : ∃ σ' τ', Clean (checkStmt T C s) σ' () τ' := by
  induction stmts generalizing σ with
  | nil => cases hs
  | cons t ts ih =>
    rw [checkStmts] at hclean
    obtain ⟨_, υ, hfirst, hrest⟩ := clean_of_bind (checkStmt_mirrors C t) (fun _ => checkStmts_mirrors C ts) hclean
    rcases List.mem_cons.mp hs with rfl | hs
    · exact ⟨σ, υ, hfirst⟩
    · exact ih hrest hs

theorem accepted_statement (haccepts : Accepts p) {s : Stmt} (hs : s ∈ p) :
    ∃ σ τ, Clean (checkStmt (firstPass p).1 {} s) σ () τ := by
  have hexit : Mirrors (firstPass p).1 (modifyThe State State.exitScope : Check Unit) _ := .modify _ fun _ => rfl
  have hclean : Clean (checkStmts (firstPass p).1 {} p >>= fun _ => modify State.exitScope)
      { symbols := [(firstPass p).2] } () (check p).2 := ⟨Prod.ext haccepts.1 rfl, haccepts.2⟩
  obtain ⟨_, _, hbody, -⟩ := clean_of_bind (checkStmts_mirrors {} p) (fun _ => hexit) hclean
  exact clean_statement hbody hs

/-- A class without an error passes the check of its overrides. -/
theorem clean_overrides (hclean : Clean (checkStmt T C (.classDef h body)) σ () τ) :
    ∃ σ' τ', Clean (checkOverrides T h) σ' () τ' := by
  have hlast : Mirrors T (do checkOverrides T h; checkInterfaces T h : Check Unit) _ :=
    ((checkOverrides_remarks h).bind fun _ => checkInterfaces_remarks h).mirrors
  have hbody := (checkStmts_mirrors (T := T) (classContext C h) body).bind fun _ => hlast
  have hsuper := (declareSuper_plain (T := T) h.baseClass).bind fun _ => hbody
  have hparams := (declareTypeParams_plain (T := T) h.typeParams).bind fun _ => hsuper
  rw [checkStmt] at hclean
  obtain ⟨_, hinside⟩ := clean_inScope ((Mirrors.declare _ _).bind fun _ => hparams) hclean
  obtain ⟨_, _, -, hinside⟩ := clean_of_bind (Mirrors.declare (T := T) _ _) (fun _ => hparams) hinside
  obtain ⟨_, _, -, hinside⟩ := clean_of_bind (declareTypeParams_plain (T := T) _) (fun _ => hsuper) hinside
  obtain ⟨_, _, -, hinside⟩ := clean_of_bind (declareSuper_plain (T := T) _) (fun _ => hbody) hinside
  obtain ⟨_, _, -, hinside⟩ := clean_of_bind (checkStmts_mirrors _ body) (fun _ => hlast) hinside
  obtain ⟨_, _, hoverrides, -⟩ := clean_of_bind (checkOverrides_remarks h).mirrors (fun _ => (checkInterfaces_remarks h).mirrors) hinside
  exact ⟨_, _, hoverrides⟩

theorem mem_of_topLevelClass {found : ClassHeader × List Stmt} (hfound : topLevelClass p c = some found) :
    .classDef found.1 found.2 ∈ p ∧ found.1.name = c := by
  obtain ⟨s, hs, hnamed⟩ := List.exists_of_findSome?_eq_some hfound
  cases s with
  | classDef h body =>
    rw [classNamed] at hnamed
    split_ifs at hnamed with hname
    cases hnamed
    exact ⟨List.mem_reverse.mp hs, hname⟩
  | _ => cases hnamed

theorem lookup_of_method (hm : m ∈ T.methodsOf c) : ∃ info, T.classTable.lookup c = some info ∧ m ∈ info.methods := by
  unfold Tables.methodsOf at hm
  cases hinfo : T.classTable.lookup c with
  | none =>
    rw [hinfo] at hm
    cases hm
  | some info =>
    rw [hinfo] at hm
    exact ⟨info, rfl, hm⟩

theorem checkOverrides_eq {base child : ClassInfo} (hbaseClass : h.baseClass = some d)
    (hbase : T.classTable.lookup d = some base) (hchild : T.classTable.lookup h.name = some child) :
    checkOverrides T h = child.methods.forM fun m => base.methods.forM fun m' =>
      onlyIf (m.name = m'.name) (checkOverride m m') := by
  rw [checkOverrides, hbaseClass]
  simp only [hbase, hchild]

/-- In an accepted program the methods of a class are like those of its primary base. -/
theorem accepted_overrides (haccepts : Accepts p) (hprimary : (firstPass p).1.PrimaryBase c d)
    (hm : m ∈ (firstPass p).1.methodsOf c) (hm' : m' ∈ (firstPass p).1.methodsOf d) (hname : m.name = m'.name) :
    Agrees m m' := by
  obtain ⟨hd, info, hinfo, hbase⟩ := hprimary
  obtain ⟨base, hlookup, hbaseMethod⟩ := lookup_of_method hm'
  obtain ⟨child, hchild, hchildMethod⟩ := lookup_of_method hm
  obtain rfl : child = info := Option.some.inj (hchild.symm.trans hinfo)
  obtain ⟨⟨h, body⟩, hfound, hheads⟩ := exists_heads hinfo
  obtain ⟨hmem, rfl⟩ := mem_of_topLevelClass hfound
  have hbaseClass : h.baseClass = some d := by
    have hsame := hheads.baseClass
    rw [hbase] at hsame
    cases hcase : h.baseClass with
    | none =>
      rw [hcase] at hsame
      exact absurd hsame hd
    | some b =>
      rw [hcase] at hsame
      rw [hsame]
      rfl
  obtain ⟨_, _, hclean⟩ := accepted_statement haccepts hmem
  obtain ⟨_, _, hclean⟩ := clean_overrides hclean
  rw [checkOverrides_eq hbaseClass hlookup hinfo] at hclean
  have hinner (m m' : MethodInfo) : Plain (firstPass p).1 (onlyIf (m.name = m'.name) (checkOverride m m')) :=
    ((checkOverride_remarks m m').onlyIf _).mirrors
  obtain ⟨_, _, hclean⟩ := clean_forM (fun m => Mirrors.forM (hinner m) _) hclean hchildMethod
  obtain ⟨_, _, hclean⟩ := clean_forM (hinner m) hclean hbaseMethod
  rw [decide_eq_true hname] at hclean
  exact agrees_of_clean hclean

theorem honoured_iff_beyond (haccepts : Accepts p) : Honoured (firstPass p).1 ↔ HonouredBeyond (firstPass p).1 := by
  constructor
  · intro hhonoured
    refine ⟨fun c d hreach _ => hhonoured.overrides c d hreach, fun c info hinfo iface hiface methods hmethods => ?_⟩
    exact hhonoured.interfaces c iface methods ⟨c, info, .refl, hinfo, hiface⟩ hmethods
  · intro hbeyond
    refine ⟨fun c d hreach m hm m' hm' hname => ?_, ?_⟩
    · by_cases hprimary : (firstPass p).1.PrimaryBase c d
      · exact accepted_overrides haccepts hprimary hm hm' hname
      · exact hbeyond.overrides c d hreach hprimary m hm m' hm' hname
    · rintro c iface methods ⟨d, info, hreach, hinfo, hiface⟩ hmethods im him
      exact (hbeyond.interfaces d info hinfo iface hiface methods hmethods im him).of_reach hreach

/-! ## Inherited methods -/

/-- A class has or inherits all that its interfaces require. -/
def ProvidesAll (T : Tables) (h : ClassHeader) : Prop :=
  ∀ iface ∈ h.interfaces, ∀ methods, T.interfaceTable.lookup iface = some methods → ∀ im ∈ methods, T.Provides h.name im

/-- The check of the interfaces reports nothing of such a class. -/
def InheritedSuffices (T : Tables) (h : ClassHeader) : Prop :=
  ProvidesAll T h → ∀ σ, checkInterfaces T h σ = (.ok (), σ)

/-- A class has a method of each name that its interfaces require. -/
def OwnMethods (T : Tables) (h : ClassHeader) : Prop :=
  ∀ iface ∈ h.interfaces, ∀ methods, T.interfaceTable.lookup iface = some methods → ∀ info,
    T.classTable.lookup h.name = some info → ∀ im ∈ methods, ∃ m ∈ info.methods, m.name = im.name

theorem forM_silent {ι : Type} {k : ι → Check Unit} {is : List ι} (hk : ∀ i ∈ is, ∀ σ, k i σ = (.ok (), σ)) (σ : State) :
    is.forM k σ = (.ok (), σ) := by
  induction is with
  | nil => rfl
  | cons i is ih =>
    show (k i >>= fun _ => is.forM k) σ = _
    rw [Effect.bind_run, hk i List.mem_cons_self]
    exact ih fun j hj => hk j (List.mem_cons_of_mem _ hj)

/-- The check of the interfaces asks for own methods. -/
theorem checkInterfaces_silent_iff : (∀ σ, checkInterfaces T h σ = (.ok (), σ)) ↔ OwnMethods T h := by
  constructor
  · intro hsilent iface hiface methods hmethods info hinfo im him
    have hclean : Clean (checkInterfaces T h) {} () {} := ⟨hsilent {}, rfl⟩
    obtain ⟨_, _, hclean⟩ := clean_forM (fun i => (checkInterface_remarks h i).mirrors) hclean hiface
    rw [hmethods, hinfo] at hclean
    obtain ⟨_, _, hclean⟩ := clean_forM (T := T) (fun _ => Mirrors.errorIf _ rfl) hclean him
    simpa using clean_errorIf hclean
  · intro hown σ
    refine forM_silent (fun iface hiface σ => ?_) σ
    cases hmethods : T.interfaceTable.lookup iface with
    | none => rfl
    | some methods =>
      cases hinfo : T.classTable.lookup h.name with
      | none => rfl
      | some info =>
        refine forM_silent (fun im him σ => ?_) σ
        obtain ⟨m, hm, hname⟩ := hown iface hiface methods hmethods info hinfo im him
        have hfound : (!info.methods.any fun m => m.name = im.name) = false := by
          simp only [Bool.not_eq_false', List.any_eq_true, decide_eq_true_eq]
          exact ⟨m, hm, hname⟩
        rw [hfound]
        rfl

theorem inheritedSuffices_iff : InheritedSuffices T h ↔ ¬ ProvidesAll T h ∨ OwnMethods T h := by
  rw [InheritedSuffices, checkInterfaces_silent_iff, imp_iff_not_or]

/-- **Overrides and interfaces**: those of an accepted program are honoured exactly where the ones that are not
compared agree, and a class that inherits what it must have is not rejected exactly where it has that itself. -/
theorem conformance_iff (p : List Stmt) :
    (Accepts p → (Honoured (firstPass p).1 ↔ HonouredBeyond (firstPass p).1)) ∧
    ∀ h body, .classDef h body ∈ p →
      (InheritedSuffices (firstPass p).1 h ↔ ¬ ProvidesAll (firstPass p).1 h ∨ OwnMethods (firstPass p).1 h) :=
  ⟨honoured_iff_beyond, fun _ _ _ => inheritedSuffices_iff⟩

/-- `func m(x: …)`. -/
def methodTaking ( annotation : Name) : Stmt :=
  .funcDef { name := ['m'], params := [{ name := ['x'], typeAnnotation := annotation }] } [.passStmt]

/-- A class and its base, with the same method. -/
def sameMethod : List Stmt :=
  [.classDef { name := ['A'] } [methodTaking intName],
    .classDef { name := ['B'], baseClass := some ['A'] } [methodTaking intName]]

theorem sameMethod_extends {c b : Name} (hextends : (firstPass sameMethod).1.Extends c b) : c = ['B'] ∧ b = ['A'] := by
  obtain ⟨info, hinfo, hb⟩ := hextends
  rcases List.mem_cons.mp (Tables.mem_of_lookup hinfo) with hentry | hentry
  · cases hentry
    exact ⟨rfl, List.mem_singleton.mp hb⟩
  · cases List.mem_singleton.mp hentry
    cases hb

theorem sameMethod_honoured : Accepts sameMethod ∧ Honoured (firstPass sameMethod).1 := by
  have haccepts : Accepts sameMethod := ⟨rfl, rfl⟩
  refine ⟨haccepts, ((conformance_iff sameMethod).1 haccepts).mpr ⟨?_, ?_⟩⟩
  · intro c d hreach hnot
    obtain ⟨e, hce, hed⟩ := TransGen.head'_iff.mp hreach
    obtain ⟨rfl, rfl⟩ := sameMethod_extends hce
    rcases ReflTransGen.cases_head hed with rfl | ⟨f, hstep, -⟩
    · exact absurd ⟨by decide, _, rfl, rfl⟩ hnot
    · exact absurd (sameMethod_extends hstep).1 (by decide)
  · intro c info hinfo iface hiface
    rcases List.mem_cons.mp (Tables.mem_of_lookup hinfo) with hentry | hentry
    · cases hentry
      cases hiface
    · cases List.mem_singleton.mp hentry
      cases hiface

/-- A class, and one below a class between them that does not have the method, which takes another type there. -/
def skippedOverride : List Stmt :=
  [.classDef { name := ['A'] } [methodTaking intName],
    .classDef { name := ['B'], baseClass := some ['A'] } [.passStmt],
    .classDef { name := ['C'], baseClass := some ['B'] } [methodTaking strName]]

theorem skippedOverride_accepted : Accepts skippedOverride ∧ ¬ Honoured (firstPass skippedOverride).1 := by
  refine ⟨⟨rfl, rfl⟩, fun hhonoured => ?_⟩
  have hcb : (firstPass skippedOverride).1.Extends ['C'] ['B'] := ⟨_, rfl, by decide⟩
  have hba : (firstPass skippedOverride).1.Extends ['B'] ['A'] := ⟨_, rfl, by decide⟩
  have hagrees := hhonoured.overrides ['C'] ['A'] (.tail (.single hcb) hba) _ (List.mem_singleton.mpr rfl) _
    (List.mem_singleton.mpr rfl) rfl
  cases hagrees.1.2 (.str, .int) (List.mem_singleton.mpr rfl) ⟨rfl, rfl⟩

end Visuall.Checker
