import Mathlib.Data.Fintype.EquivFin
import Visuall.Checker.Calls
import Visuall.Checker.Hierarchy
import Visuall.Checker.Recording

/-!
# When type checking ends

`check` takes the classes of the file as they are declared, so that a class may be its own base, directly or through
others.

* `Inherits` — a class of the file names another one as its base;
* `extends_iff` — the class table keeps just that;
* `Ends` — type checking ends, and so does every walk over the class table;
* `checking_ends_iff` — exactly when the classes do not go round in a circle.
-/

namespace Visuall.Checker

open Visuall.Ast Visuall.Types Relation

/-! ## The declared classes -/

/-- The last class of a name that the file declares names another one as its base. -/
def Inherits (p : List Stmt) (c b : Name) : Prop :=
  ∃ d, topLevelClass p c = some d ∧ (d.1.baseClass = some b ∧ b ≠ [] ∨ b ∈ d.1.extraBases)

/-- What the first pass keeps of the head of a class. -/
structure ClassInfo.Heads (info : ClassInfo) (d : ClassHeader × List Stmt) : Prop where
  baseClass : info.baseClass = d.1.baseClass.getD []
  extraBases : info.extraBases = d.1.extraBases
  interfaces : info.interfaces = d.1.interfaces

theorem lookup_heads (p : List Stmt) (name : Name) :
    Option.Rel ClassInfo.Heads ((firstPass p).1.classTable.lookup name) (topLevelClass p name) :=
  lookup_classTable (fun _ _ _ _ => ⟨rfl, rfl, rfl⟩) p name

/-- A class of the table has been declared. -/
theorem exists_heads {p : List Stmt} {name : Name} {info : ClassInfo}
    (hinfo : (firstPass p).1.classTable.lookup name = some info) :
    ∃ d, topLevelClass p name = some d ∧ info.Heads d := by
  have hrel := lookup_heads p name
  rw [hinfo] at hrel
  cases hfound : topLevelClass p name with
  | none =>
    rw [hfound] at hrel
    cases hrel
  | some d =>
    rw [hfound] at hrel
    cases hrel with
    | some hheads => exact ⟨d, rfl, hheads⟩

theorem mem_bases_iff {info : ClassInfo} {d : ClassHeader × List Stmt} {b : Name} (h : info.Heads d) :
    b ∈ info.bases ↔ d.1.baseClass = some b ∧ b ≠ [] ∨ b ∈ d.1.extraBases := by
  rw [ClassInfo.bases, List.mem_append, h.baseClass, h.extraBases]
  refine or_congr_left ?_
  cases d.1.baseClass with
  | none => simp
  | some base =>
    show b ∈ (if base = [] then [] else [base]) ↔ _
    split_ifs with hempty
    · simp [hempty, eq_comm]
    · rw [List.mem_singleton, Option.some_inj]
      exact ⟨fun hb => ⟨hb.symm, hb ▸ hempty⟩, fun hb => hb.1.symm⟩

/-- The class table keeps the base classes of the file. -/
theorem extends_iff (p : List Stmt) (c b : Name) : (firstPass p).1.Extends c b ↔ Inherits p c b := by
  have hlookup := lookup_heads p c
  unfold Tables.Extends Inherits
  generalize (firstPass p).1.classTable.lookup c = found at hlookup
  generalize topLevelClass p c = declared at hlookup
  cases hlookup with
  | none => simp
  | @some info d hheads =>
    constructor
    · rintro ⟨_, hinfo, hb⟩
      cases hinfo
      exact ⟨d, rfl, (mem_bases_iff hheads).mp hb⟩
    · rintro ⟨_, hd, hb⟩
      cases hd
      exact ⟨info, rfl, (mem_bases_iff hheads).mpr hb⟩

theorem acyclic_iff (p : List Stmt) : (firstPass p).1.Acyclic ↔ ∀ c, ¬ TransGen (Inherits p) c c := by
  have hsame : (firstPass p).1.Extends = Inherits p := by
    funext c b
    exact propext (extends_iff p c b)
  rw [Tables.Acyclic, hsame]

/-! ## Around a circle -/

variable {T : Tables}

/-- There is a name that no class lists as its interface. -/
theorem exists_unimplemented (T : Tables) : ∃ iface, ∀ c info, T.classTable.lookup c = some info → iface ∉ info.interfaces := by
  obtain ⟨iface, hiface⟩ := Infinite.exists_notMem_finset (T.classTable.flatMap fun entry => entry.2.interfaces).toFinset
  refine ⟨iface, fun c info hinfo hmem => hiface ?_⟩
  rw [List.mem_toFinset, List.mem_flatMap]
  exact ⟨(c, info), Tables.mem_of_lookup hinfo, hmem⟩

/-- Around a circle, the search for an interface that no class lists never ends. -/
theorem implementsInterface_of_circle {iface c : Name} (hcircle : TransGen T.Extends c c)
    (hiface : ∀ c info, T.classTable.lookup c = some info → iface ∉ info.interfaces) (n : ℕ) :
    T.implementsInterface iface n c = none := by
  have hstep : T.Extends ≤ Climb.Step (T.visitInterface iface) := by
    rintro a b ⟨info, hinfo, hb⟩
    refine ⟨info.bases, ?_, hb⟩
    rw [Tables.visitInterface, hinfo]
    exact if_neg (hiface a info hinfo)
  rw [Tables.implementsInterface_eq_search]
  refine Climb.search_of_circle (TransGen.mono hstep c c hcircle) (fun d _ hd => ?_) n
  rw [Tables.visitInterface] at hd
  cases hlookup : T.classTable.lookup d with
  | none =>
    rw [hlookup] at hd
    cases hd
  | some info =>
    rw [hlookup] at hd
    simp only [if_neg (hiface d info hlookup)] at hd
    cases hd

/-! ## Where checking ends -/

/-- Type checking ends, and so does every walk over the class table that it builds. -/
structure Ends (p : List Stmt) : Prop where
  check : (check p).1 ≠ .error .diverges
  isSubtype : ∀ sub super, ∃ n, ((firstPass p).1.extendsClass super n sub).isSome = true
  classImplementsInterface : ∀ cls iface, ∃ n, ((firstPass p).1.implementsInterface iface n cls).isSome = true

theorem check_ends {p : List Stmt} (hT : (firstPass p).1.Acyclic) : (check p).1 ≠ .error .diverges := by
  have hmirrors : Mirrors (firstPass p).1 _ _ :=
    (checkStmts_mirrors {} p).bind fun _ => Mirrors.modify State.exitScope fun _ => rfl
  exact hmirrors.ends (isAssignableTo_ends hT) _

/-- **Type checking ends exactly where the classes do not go round in a circle.** -/
theorem checking_ends_iff (p : List Stmt) : Ends p ↔ ∀ c, ¬ TransGen (Inherits p) c c := by
  rw [← acyclic_iff]
  constructor
  · intro h c hcircle
    obtain ⟨iface, hiface⟩ := exists_unimplemented (firstPass p).1
    obtain ⟨n, hn⟩ := h.classImplementsInterface c iface
    rw [implementsInterface_of_circle hcircle hiface] at hn
    cases hn
  · intro hT
    exact ⟨check_ends hT, fun sub super => ⟨_, Tables.extendsClass_ends hT super sub⟩,
      fun cls iface => ⟨_, Tables.classImplementsInterface_ends hT cls iface⟩⟩

/-- A class that is its own base, and a variable of another class that is given an object of it. -/
def ouroboros : List Stmt :=
  [.classDef { name := ['A'], baseClass := some ['A'] } [.passStmt],
    .classDef { name := ['B'] } [.passStmt],
    .assignStmt (.identifier { name := ['x'] }) (.callExpr (.identifier { name := ['A'] }) [] []) [] ['B']]

/-- The check of this file never ends. -/
theorem ouroboros_unending : ¬ Ends ouroboros := by
  intro h
  refine h.check ?_
  rfl

end Visuall.Checker
