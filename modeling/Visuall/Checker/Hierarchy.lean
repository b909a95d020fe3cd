import Visuall.Lib.Climb
import Visuall.Checker.Comparing

/-!
# Walks over the base classes

`isSubtype` goes up the primary base classes, `classImplementsInterface` up all of them, and neither notices where it
has been before.

* `Tables.Extends` — a class names another one as its base;
* `extendsClass_eq_search`, `implementsInterface_eq_search` — the two walks are searches that mark nothing;
* `isAssignableTo_ends` — without circles every comparison of types ends.
-/

namespace Visuall.Checker

open Visuall.Ast Visuall.Types Relation

/-! ## Base classes -/

/-- The declared base classes: the primary one, if there is one, and the extra ones. -/
def ClassInfo.bases (info : ClassInfo) : List Name :=
  (if info.baseClass = [] then [] else [info.baseClass]) ++ info.extraBases

namespace Tables

variable (T : Tables)

/-- A class that is declared names a class as a base. -/
def Extends (c b : Name) : Prop := ∃ info, T.classTable.lookup c = some info ∧ b ∈ info.bases

/-- No class is its own base, directly or through others. -/
def Acyclic : Prop := ∀ c, ¬ TransGen T.Extends c c

/-- The classes that are declared. -/
def classNames : Finset Name := (T.classTable.map Prod.fst).toFinset

/-- A turn of `extendsClass`. -/
def visitBase (super : Name) (c : Name) : Bool ⊕ List Name :=
  if c = [] then .inl false
  else if c = super then .inl true
  else
    match T.classTable.lookup c with
    | none => .inl false
    | some info => .inr [info.baseClass]

/-- A call of `implementsInterface`. -/
def visitInterface (iface : Name) (c : Name) : Bool ⊕ List Name :=
  match T.classTable.lookup c with
  | none => .inl false
  | some info => if iface ∈ info.interfaces then .inl true else .inr info.bases

variable {T} {super iface c b : Name} {next : List Name} {info : ClassInfo}

theorem extendsClass_eq_search (n : ℕ) (c : Name) :
    T.extendsClass super n c = Climb.search (T.visitBase super) n c := by
  induction n generalizing c with
  | zero => rfl
  | succ n ih =>
    rw [extendsClass, Climb.search, visitBase]
    split_ifs
    · rfl
    · rfl
    · cases T.classTable.lookup c with
      | none => rfl
      | some info =>
        show T.extendsClass super n info.baseClass = Climb.anyOf _ [info.baseClass]
        rw [Climb.anyOf_singleton]
        exact ih _

theorem implementsInterface_eq_search (n : ℕ) (c : Name) :
    T.implementsInterface iface n c = Climb.search (T.visitInterface iface) n c := by
  induction n generalizing c with
  | zero => rfl
  | succ n ih =>
    rw [implementsInterface, Climb.search, visitInterface]
    cases T.classTable.lookup c with
    | none => rfl
    | some info =>
      have hcalls : T.implementsInterface iface n = Climb.search (T.visitInterface iface) n := funext ih
      by_cases hiface : iface ∈ info.interfaces
      · simp only [if_pos hiface]
      · simp only [if_neg hiface, hcalls]
        rfl

theorem mem_of_lookup (h : T.classTable.lookup c = some info) : (c, info) ∈ T.classTable := by
  obtain ⟨before, after, hsplit, -⟩ := List.lookup_eq_some_iff.mp h
  rw [hsplit]
  exact List.mem_append_right _ List.mem_cons_self

/-- Where each base is of a lower rank there are no circles. -/
theorem acyclic_of_rank (rank : Name → ℕ) (h : ∀ entry ∈ T.classTable, ∀ b ∈ entry.2.bases, rank b < rank entry.1) :
    T.Acyclic := by
  have hrank : ∀ c b, TransGen T.Extends c b → rank b < rank c := by
    intro c b hreach
    induction hreach with
    | single hstep =>
      obtain ⟨info, hinfo, hb⟩ := hstep
      exact h _ (mem_of_lookup hinfo) _ hb
    | tail _ hstep ih =>
      obtain ⟨info, hinfo, hb⟩ := hstep
      exact (h _ (mem_of_lookup hinfo) _ hb).trans ih
  exact fun c hcircle => Nat.lt_irrefl _ (hrank c c hcircle)

theorem mem_classNames (h : T.classTable.lookup c = some info) : c ∈ T.classNames := by
  rw [classNames, List.mem_toFinset]
  exact List.mem_map.mpr ⟨(c, info), mem_of_lookup h, rfl⟩

theorem card_classNames : T.classNames.card < T.classTable.length + 1 := by
  have := List.toFinset_card_le (T.classTable.map Prod.fst)
  rw [List.length_map] at this
  exact Nat.lt_succ_of_le this

/-- Only classes that are declared go on. -/
theorem visitBase_inr (h : T.visitBase super c = .inr next) :
    c ≠ [] ∧ ∃ info, T.classTable.lookup c = some info ∧ next = [info.baseClass] := by
  unfold visitBase at h
  split_ifs at h with hc hs
  cases hlookup : T.classTable.lookup c with
  | none =>
    rw [hlookup] at h
    cases h
  | some info =>
    rw [hlookup] at h
    cases h
    exact ⟨hc, info, rfl, rfl⟩

theorem visitInterface_inr (h : T.visitInterface iface c = .inr next) :
    ∃ info, T.classTable.lookup c = some info ∧ next = info.bases := by
  unfold visitInterface at h
  cases hlookup : T.classTable.lookup c with
  | none =>
    rw [hlookup] at h
    cases h
  | some info =>
    rw [hlookup] at h
    by_cases hiface : iface ∈ info.interfaces
    · simp only [if_pos hiface] at h
      cases h
    · simp only [if_neg hiface] at h
      cases h
      exact ⟨info, rfl, rfl⟩

theorem visitBase_nodes (super : Name) (c : Name) (next : List Name) (h : T.visitBase super c = .inr next) :
    c ∈ T.classNames := by
  obtain ⟨-, info, hinfo, -⟩ := visitBase_inr h
  exact mem_classNames hinfo

theorem visitInterface_nodes (iface : Name) (c : Name) (next : List Name) (h : T.visitInterface iface c = .inr next) :
    c ∈ T.classNames := by
  obtain ⟨info, hinfo, -⟩ := visitInterface_inr h
  exact mem_classNames hinfo

/-- The turns go to base classes, and at last to the empty name. -/
theorem extends_of_visitBase (h : Climb.Step (T.visitBase super) c b) : b = [] ∨ T.Extends c b := by
  obtain ⟨next, hv, hb⟩ := h
  obtain ⟨-, info, hinfo, rfl⟩ := visitBase_inr hv
  by_cases hempty : b = []
  · exact .inl hempty
  · refine .inr ⟨info, hinfo, List.mem_append_left _ ?_⟩
    have hbase : b = info.baseClass := List.mem_singleton.mp hb
    rw [if_neg (hbase ▸ hempty)]
    exact hb

theorem extends_of_visitInterface (h : Climb.Step (T.visitInterface iface) c b) : T.Extends c b := by
  obtain ⟨next, hv, hb⟩ := h
  obtain ⟨info, hinfo, rfl⟩ := visitInterface_inr hv
  exact ⟨info, hinfo, hb⟩

/-! ## Without circles -/

theorem visitBase_acyclic (hT : T.Acyclic) (super : Name) (c : Name) :
    ¬ TransGen (Climb.Step (T.visitBase super)) c c := by
  -- from the empty name the walk does not go on, so it is not on a circle
  have hgoes : ∀ {a b d}, TransGen (Climb.Step (T.visitBase super)) a b → Climb.Step (T.visitBase super) b d →
      TransGen T.Extends a b := by
    intro a b d hab
    induction hab generalizing d with
    | single hstep =>
      intro hnext
      rcases extends_of_visitBase hstep with rfl | hextends
      · obtain ⟨next, hv, -⟩ := hnext
        exact absurd rfl (visitBase_inr hv).1
      · exact .single hextends
    | tail _ hstep ih =>
      intro hnext
      rcases extends_of_visitBase hstep with rfl | hextends
      · obtain ⟨next, hv, -⟩ := hnext
        exact absurd rfl (visitBase_inr hv).1
      · exact (ih hstep).tail hextends
  intro hcircle
  obtain ⟨d, hstep, -⟩ := TransGen.head'_iff.mp hcircle
  exact hT c (hgoes hcircle hstep)

theorem visitInterface_acyclic (hT : T.Acyclic) (iface : Name) (c : Name) :
    ¬ TransGen (Climb.Step (T.visitInterface iface)) c c := fun h =>
  hT c (TransGen.mono (fun _ _ hstep => extends_of_visitInterface hstep) c c h)

theorem extendsClass_ends (hT : T.Acyclic) (super c : Name) :
    (T.extendsClass super (T.classTable.length + 1) c).isSome = true := by
  rw [extendsClass_eq_search]
  exact Climb.search_isSome_of_acyclic (visitBase_nodes super) (visitBase_acyclic hT super) card_classNames c

theorem classImplementsInterface_ends (hT : T.Acyclic) (c iface : Name) :
    (T.classImplementsInterface c iface).isSome = true := by
  rw [classImplementsInterface, implementsInterface_eq_search]
  exact Climb.search_isSome_of_acyclic (visitInterface_nodes iface) (visitInterface_acyclic hT iface) card_classNames c

theorem isSubtype_ends (hT : T.Acyclic) (sub super : Ty) : (T.isSubtype sub super).isSome = true := by
  unfold isSubtype
  split_ifs
  · rfl
  · split
    · exact extendsClass_ends hT _ _
    · rfl

end Tables

/-! ## Comparisons -/

variable {T : Tables}

mutual

/-- Without circles in the classes every comparison ends. -/
theorem isAssignableTo_ends (hT : T.Acyclic) (given : Ty) : (expected : Ty) → T.isAssignableTo given expected ≠ none
  | .union members => by
      apply ends_of_compareShapes
      rw [compareShapes_union]
      exact isAssignableToAny_ends hT given members
  | .list elem' => by
      cases given with
      | list elem =>
        rw [isAssignableTo_list]
        exact isAssignableTo_ends hT elem elem'
      | _ => exact ends_of_compareShapes nofun
  | .dict key' value' => by
      cases given with
      | dict key value =>
        rw [isAssignableTo_dict]
        obtain ⟨fits, hfits⟩ := Option.ne_none_iff_exists'.mp (isAssignableTo_ends hT key key')
        rw [hfits]
        cases fits with
        | true => exact isAssignableTo_ends hT value value'
        | false => exact Option.some_ne_none _
      | _ => exact ends_of_compareShapes nofun
  | .tuple elems' => by
      cases given with
      | tuple elems =>
        rw [isAssignableTo_tuple]
        split_ifs
        · exact Option.some_ne_none _
        · exact Option.some_ne_none _
        · exact areAssignableTo_ends hT elems elems'
      | _ => exact ends_of_compareShapes nofun
  | .func name' ret' params' => by
      cases given with
      | func name ret params =>
        rw [isAssignableTo_func]
        exact Option.some_ne_none _
      | _ => exact ends_of_compareShapes nofun
  | .cls name' => by
      cases given with
      | cls name =>
        rw [isAssignableTo_cls]
        exact Option.isSome_iff_ne_none.mp (Tables.isSubtype_ends hT _ _)
      | _ => exact ends_of_compareShapes nofun
  | .interface name' => by
      cases given with
      | cls name =>
        rw [isAssignableTo_interface]
        exact Option.isSome_iff_ne_none.mp (Tables.classImplementsInterface_ends hT _ _)
      | _ => exact ends_of_compareShapes nofun
  | .int | .float | .str | .bool | .void | .null | .unknown | .typeVar _ | .chan _ => by
      apply ends_of_compareShapes
      cases given <;> exact nofun

theorem isAssignableToAny_ends (hT : T.Acyclic) (given : Ty) :
    (members : List Ty) → T.isAssignableToAny given members ≠ none
  | [] => Option.some_ne_none _
  | m :: ms => by
      rw [isAssignableToAny_cons]
      obtain ⟨fits, hfits⟩ := Option.ne_none_iff_exists'.mp (isAssignableTo_ends hT given m)
      rw [hfits]
      cases fits with
      | true => exact Option.some_ne_none _
      | false => exact isAssignableToAny_ends hT given ms

theorem areAssignableTo_ends (hT : T.Acyclic) (gs : List Ty) : (es : List Ty) → T.areAssignableTo gs es ≠ none
  | [] => by
      cases gs <;> exact Option.some_ne_none _
  | e :: es => by
      cases gs with
      | nil => exact Option.some_ne_none _
      | cons g gs =>
        rw [areAssignableTo_cons]
        obtain ⟨fits, hfits⟩ := Option.ne_none_iff_exists'.mp (isAssignableTo_ends hT g e)
        rw [hfits]
        cases fits with
        | true => exact areAssignableTo_ends hT gs es
        | false => exact Option.some_ne_none _

end

end Visuall.Checker
