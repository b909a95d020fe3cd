import Visuall.Checker.Hierarchy
import Visuall.Checker.Statements
import Visuall.Lib.Breadth

/-!
# Base classes, in assignments and in member accesses

`isSubtype` knows the primary base classes only, and a member access looks at the class of its object and at the
primary base of that class.

* `Tables.PrimaryBase` — a class names another one first;
* `isSubtype_iff` — which classes `isSubtype` takes for subclasses;
* `FollowsBases` — both follow all of the base classes, at any depth;
* `followsBases_iff` — exactly when they do.
-/

namespace Visuall.Checker

open Visuall.Ast Visuall.Types Relation Breadth

namespace Tables

variable (T : Tables)

/-- A class that is declared names a class as its primary base. -/
def PrimaryBase (c b : Name) : Prop := b ≠ [] ∧ ∃ info, T.classTable.lookup c = some info ∧ info.baseClass = b

/-- The bases of a class, if it is declared. -/
def basesOf (c : Name) : List Name := ((T.classTable.lookup c).map ClassInfo.bases).getD []

/-- The type of a method that a class declares itself. -/
def ownMethod (c m : Name) : Option Ty := (T.classTable.lookup c).bind fun info => methodType info.methods m

/-- A class declares a method itself. -/
def declares (m c : Name) : Bool := (T.ownMethod c m).isSome

variable {T} {a b c d m super : Name}

theorem mem_basesOf_iff : b ∈ T.basesOf c ↔ T.Extends c b := by
  unfold basesOf Extends
  cases T.classTable.lookup c with
  | none => simp
  | some info => simp

theorem reach_basesOf_iff : ReflTransGen (fun a b => b ∈ T.basesOf a) c d ↔ ReflTransGen T.Extends c d := by
  have hsame : (fun a b => b ∈ T.basesOf a) = T.Extends := by
    funext a b
    exact propext mem_basesOf_iff
  rw [hsame]

theorem PrimaryBase.extends (h : T.PrimaryBase c b) : T.Extends c b := by
  obtain ⟨hb, info, hinfo, rfl⟩ := h
  exact ⟨info, hinfo, List.mem_append_left _ (by rw [if_neg hb]; exact List.mem_singleton.mpr rfl)⟩

theorem basesOf_of_primaryBase (h : T.PrimaryBase c b) : ∃ more, T.basesOf c = b :: more := by
  obtain ⟨hb, info, hinfo, rfl⟩ := h
  refine ⟨info.extraBases, ?_⟩
  rw [basesOf, hinfo]
  show (if info.baseClass = [] then [] else [info.baseClass]) ++ info.extraBases = _
  rw [if_neg hb]
  rfl

/-! ## Subclasses -/

theorem ne_nil_of_chain (h : ReflTransGen T.PrimaryBase c b) (hc : c ≠ []) : b ≠ [] := by
  cases h with
  | refl => exact hc
  | tail _ hstep => exact hstep.1

theorem chain_of_steps (h : ReflTransGen (Climb.Step (T.visitBase super)) c super) (hsuper : super ≠ []) :
    c ≠ [] ∧ ReflTransGen T.PrimaryBase c super := by
  induction h using ReflTransGen.head_induction_on with
  | refl => exact ⟨hsuper, .refl⟩
  | head hstep _ ih =>
    obtain ⟨next, hv, hmem⟩ := hstep
    obtain ⟨ha, info, hinfo, rfl⟩ := visitBase_inr hv
    exact ⟨ha, .head ⟨ih.1, info, hinfo, (List.mem_singleton.mp hmem).symm⟩ ih.2⟩

theorem steps_of_chain (h : ReflTransGen T.PrimaryBase c super) (hc : c ≠ []) :
    ReflTransGen (Climb.Step (T.visitBase super)) c super := by
  induction h using ReflTransGen.head_induction_on with
  | refl => exact .refl
  | @head a b hbase _ ih =>
    by_cases hsuper : a = super
    · rw [hsuper]
    · obtain ⟨hb, info, hinfo, rfl⟩ := hbase
      refine .head ⟨[info.baseClass], ?_, List.mem_singleton.mpr rfl⟩ (ih hb)
      rw [visitBase, if_neg hc, if_neg hsuper, hinfo]

theorem visitBase_true_iff : T.visitBase super c = .inl true ↔ c ≠ [] ∧ c = super := by
  unfold visitBase
  by_cases hc : c = []
  · simp [hc]
  · by_cases hsuper : c = super
    · simp [hsuper]
    · cases T.classTable.lookup c <;> simp [hc, hsuper]

theorem extendsClass_true_iff (hT : T.Acyclic) : T.extendsClass super (T.classTable.length + 1) c = some true ↔
    c ≠ [] ∧ super ≠ [] ∧ ReflTransGen T.PrimaryBase c super := by
  have hends := extendsClass_ends hT super c
  rw [extendsClass_eq_search] at hends ⊢
  rw [Climb.search_eq_true_iff hends]
  constructor
  · rintro ⟨d, hreach, hd⟩
    obtain ⟨hne, rfl⟩ := visitBase_true_iff.mp hd
    exact ⟨(chain_of_steps hreach hne).1, hne, (chain_of_steps hreach hne).2⟩
  · rintro ⟨hc, hsuper, hchain⟩
    exact ⟨super, steps_of_chain hchain hc, visitBase_true_iff.mpr ⟨hsuper, rfl⟩⟩

/-- `isSubtype` goes up the chain of primary bases. -/
theorem isSubtype_iff (hT : T.Acyclic) (sub super : Name) : T.isSubtype (.cls sub) (.cls super) = some true ↔
    sub = super ∨ sub ≠ [] ∧ ReflTransGen T.PrimaryBase sub super := by
  rw [isSubtype]
  by_cases hsame : sub = super
  · rw [if_pos ((typeEquals_iff _ _).mpr (congrArg _ hsame))]
    exact iff_of_true rfl (.inl hsame)
  · have hdiffer : typeEquals (.cls sub) (.cls super) = false :=
      Bool.eq_false_iff.mpr fun h => hsame (Ty.cls.inj ((typeEquals_iff _ _).mp h))
    rw [hdiffer]
    show T.extendsClass super _ sub = some true ↔ _
    rw [extendsClass_true_iff hT]
    constructor
    · rintro ⟨hsub, -, hchain⟩
      exact .inr ⟨hsub, hchain⟩
    · rintro (h | ⟨hsub, hchain⟩)
      · exact absurd h hsame
      · exact ⟨hsub, ne_nil_of_chain hchain hsub, hchain⟩

end Tables

/-! ## Members -/

variable {T : Tables} {c d m : Name}

/-- A member access looks at the class, and at its primary base. -/
theorem memberResult_eq (T : Tables) (c m : Name) : memberResult T (.cls c) m =
    match T.classTable.lookup c with
    | none => .unknown
    | some info => ((T.ownMethod c m).or (if info.baseClass = [] then none else T.ownMethod info.baseClass m)).getD .unknown := by
  unfold memberResult Tables.ownMethod
  cases hinfo : T.classTable.lookup c with
  | none => simp [hinfo]
  | some info =>
    simp only [hinfo, Option.bind_some]
    cases methodType info.methods m with
    | some t => rfl
    | none =>
      rw [Option.none_or]
      split_ifs
      · rfl
      · cases T.classTable.lookup info.baseClass <;> rfl

theorem lookup_of_declares (h : T.declares m c = true) : ∃ info, T.classTable.lookup c = some info := by
  unfold Tables.declares Tables.ownMethod at h
  cases hinfo : T.classTable.lookup c with
  | none =>
    rw [hinfo] at h
    cases h
  | some info => exact ⟨info, rfl⟩

theorem ownMethod_none (h : T.declares m c = false) : T.ownMethod c m = none :=
  Option.isNone_iff_eq_none.mp (Option.isSome_eq_false_iff.mp h)

theorem memberResult_own (h : T.declares m c = true) : memberResult T (.cls c) m = (T.ownMethod c m).getD .unknown := by
  obtain ⟨info, hinfo⟩ := lookup_of_declares h
  obtain ⟨t, ht⟩ := Option.isSome_iff_exists.mp h
  rw [memberResult_eq, hinfo, ht]
  rfl

theorem memberResult_base {b : Name} (hown : T.declares m c = false) (hbase : T.PrimaryBase c b) :
    memberResult T (.cls c) m = (T.ownMethod b m).getD .unknown := by
  obtain ⟨hb, info, hinfo, rfl⟩ := hbase
  rw [memberResult_eq, hinfo, ownMethod_none hown]
  simp only [if_neg hb, Option.none_or]

theorem memberResult_none (hown : T.declares m c = false) (hbase : ∀ b, T.PrimaryBase c b → T.declares m b = false) :
    memberResult T (.cls c) m = .unknown := by
  rw [memberResult_eq]
  cases hinfo : T.classTable.lookup c with
  | none => rfl
  | some info =>
    rw [ownMethod_none hown]
    by_cases hempty : info.baseClass = []
    · simp only [if_pos hempty]
      rfl
    · simp only [if_neg hempty, ownMethod_none (hbase _ ⟨hempty, info, hinfo, rfl⟩)]
      rfl

/-- A method has a known type. -/
theorem ownMethod_known (h : T.declares m d = true) : (T.ownMethod d m).getD .unknown ≠ .unknown := by
  obtain ⟨t, ht⟩ := Option.isSome_iff_exists.mp h
  rw [ht]
  obtain ⟨info, -, hmethod⟩ := Option.bind_eq_some_iff.mp ht
  obtain ⟨m', -, rfl⟩ := Option.map_eq_some_iff.mp hmethod
  exact nofun

/-! ## All of the bases -/

/-- Assignments of objects and member accesses follow all of the base classes.  Of several classes that declare a
method the nearest one counts, and of those at the same distance the one whose base is named first. -/
structure FollowsBases (T : Tables) : Prop where
  subtype : ∀ sub super, T.isSubtype (.cls sub) (.cls super) = some true ↔ ReflTransGen T.Extends sub super
  nearest : ∀ c m d, First T.basesOf (T.declares m) [c] d → memberResult T (.cls c) m = (T.ownMethod d m).getD .unknown
  missing : ∀ c m, (∀ d, ReflTransGen T.Extends c d → T.declares m d = false) → memberResult T (.cls c) m = .unknown

/-- Each base of a class is on the chain of its primary bases. -/
def PrimaryBasesOnly (T : Tables) : Prop := ∀ c b, T.Extends c b → c ≠ [] ∧ ReflTransGen T.PrimaryBase c b

/-- What a class inherits, its primary base declares. -/
def NearMethodsOnly (T : Tables) : Prop :=
  ∀ c d m, ReflTransGen T.Extends c d → T.declares m d = true →
    T.declares m c = true ∨ ∃ b, T.PrimaryBase c b ∧ T.declares m b = true

theorem subtype_iff_primaryBasesOnly (hT : T.Acyclic) :
    (∀ sub super, T.isSubtype (.cls sub) (.cls super) = some true ↔ ReflTransGen T.Extends sub super) ↔
      PrimaryBasesOnly T := by
  constructor
  · intro h c b hextends
    rcases (Tables.isSubtype_iff hT c b).mp ((h c b).mpr (.single hextends)) with rfl | hchain
    · exact absurd (.single hextends) (hT c)
    · exact hchain
  · intro h sub super
    rw [Tables.isSubtype_iff hT]
    constructor
    · rintro (rfl | ⟨-, hchain⟩)
      · exact .refl
      · exact ReflTransGen.mono (fun _ _ => Tables.PrimaryBase.extends) _ _ hchain
    · intro hreach
      induction hreach with
      | refl => exact .inl rfl
      | tail _ hstep ih =>
        obtain ⟨hne, hchain⟩ := h _ _ hstep
        rcases ih with rfl | ⟨hsub, hbefore⟩
        · exact .inr ⟨hne, hchain⟩
        · exact .inr ⟨hsub, hbefore.trans hchain⟩

theorem nearest_of_nearMethodsOnly (h : NearMethodsOnly T) (hfirst : First T.basesOf (T.declares m) [c] d) :
    memberResult T (.cls c) m = (T.ownMethod d m).getD .unknown := by
  cases hown : T.declares m c with
  | true =>
    rw [← (first_cons_of_pos hown).mp hfirst]
    exact memberResult_own hown
  | false =>
    rcases h c d m (Tables.reach_basesOf_iff.mp hfirst.reach) hfirst.property with htrue | ⟨b, hb, hdeclares⟩
    · rw [hown] at htrue
      cases htrue
    · obtain ⟨more, hmore⟩ := Tables.basesOf_of_primaryBase hb
      have hnear : First T.basesOf (T.declares m) [c] b := by
        refine first_next hown ?_
        rw [hmore]
        exact List.find?_cons_of_pos hdeclares
      rw [← hnear.unique hfirst]
      exact memberResult_base hown hb

theorem missing_of_unreached (h : ∀ d, ReflTransGen T.Extends c d → T.declares m d = false) :
    memberResult T (.cls c) m = .unknown :=
  memberResult_none (h c .refl) fun b hb => h b (.single hb.extends)

theorem nearMethodsOnly_of_nearest
    (h : ∀ c m d, First T.basesOf (T.declares m) [c] d → memberResult T (.cls c) m = (T.ownMethod d m).getD .unknown) :
    NearMethodsOnly T := by
  intro c d m hreach hd
  by_contra hnot
  rw [not_or, not_exists] at hnot
  have hown : T.declares m c = false := Bool.eq_false_iff.mpr hnot.1
  have hnone : memberResult T (.cls c) m = .unknown :=
    memberResult_none hown fun b hb => Bool.eq_false_iff.mpr fun hdeclares => hnot.2 b ⟨hb, hdeclares⟩
  obtain ⟨n, hn⟩ := mem_level_iff_reach.mpr (Tables.reach_basesOf_iff.mpr hreach)
  obtain ⟨x, hx⟩ := exists_first hn hd
  have hmember := h c m x hx
  rw [hnone] at hmember
  exact ownMethod_known hx.property hmember.symm

/-- **The checker follows all of the bases** exactly where those it does not look at add nothing: extra bases are primary
bases of primary bases, and what is inherited from further up is declared again in the primary base. -/
theorem followsBases_iff (T : Tables) (hT : T.Acyclic) : FollowsBases T ↔ PrimaryBasesOnly T ∧ NearMethodsOnly T := by
  constructor
  · intro h
    exact ⟨(subtype_iff_primaryBasesOnly hT).mp h.subtype, nearMethodsOnly_of_nearest h.nearest⟩
  · rintro ⟨hbases, hmethods⟩
    exact ⟨(subtype_iff_primaryBasesOnly hT).mpr hbases, fun c m d => nearest_of_nearMethodsOnly hmethods,
      fun c m => missing_of_unreached⟩

/-- A class and its base, which declares a method. -/
def oneBase : Tables :=
  (firstPass
    [.classDef { name := ['A'] } [.funcDef { name := ['m'], params := [] } [.passStmt]],
      .classDef { name := ['B'], baseClass := some ['A'] } [.passStmt]]).1

theorem oneBase_extends {c b : Name} (h : oneBase.Extends c b) : c = ['B'] ∧ b = ['A'] := by
  obtain ⟨info, hinfo, hb⟩ := h
  rcases List.mem_cons.mp (Tables.mem_of_lookup hinfo) with hentry | hentry
  · cases hentry
    exact ⟨rfl, List.mem_singleton.mp hb⟩
  · cases List.mem_singleton.mp hentry
    cases hb

theorem oneBase_acyclic : oneBase.Acyclic := by
  refine Tables.acyclic_of_rank (fun c => if c = ['B'] then 1 else 0) ?_
  decide

theorem followsBases_oneBase : oneBase.Acyclic ∧ FollowsBases oneBase := by
  refine ⟨oneBase_acyclic, (followsBases_iff oneBase oneBase_acyclic).mpr ⟨?_, ?_⟩⟩
  · intro c b h
    obtain ⟨rfl, rfl⟩ := oneBase_extends h
    exact ⟨by decide, .single ⟨by decide, _, rfl, rfl⟩⟩
  · intro c d m hreach hd
    rcases ReflTransGen.cases_tail hreach with rfl | ⟨e, hbefore, hstep⟩
    · exact .inl hd
    · obtain ⟨rfl, rfl⟩ := oneBase_extends hstep
      rcases ReflTransGen.cases_tail hbefore with rfl | ⟨e, -, hstep'⟩
      · exact .inr ⟨['A'], ⟨by decide, _, rfl, rfl⟩, hd⟩
      · exact absurd (oneBase_extends hstep').2 (by decide)

/-- A class with two bases. -/
def twoBases : Tables :=
  (firstPass
    [.classDef { name := ['A'] } [.passStmt], .classDef { name := ['B'] } [.passStmt],
      .classDef { name := ['C'], baseClass := some ['A'], extraBases := [['B']] } [.passStmt]]).1

/-- An object of the class is not taken for one of its second base. -/
theorem twoBases_not_followed : twoBases.Acyclic ∧ ¬ FollowsBases twoBases := by
  constructor
  · refine Tables.acyclic_of_rank (fun c => if c = ['C'] then 1 else 0) ?_
    decide
  · intro h
    have hextends : twoBases.Extends ['C'] ['B'] := ⟨_, rfl, by decide⟩
    have hsubtype := (h.subtype ['C'] ['B']).mpr (.single hextends)
    have hnot : twoBases.isSubtype (.cls ['C']) (.cls ['B']) = some false := rfl
    rw [hnot] at hsubtype
    cases hsubtype

end Visuall.Checker
