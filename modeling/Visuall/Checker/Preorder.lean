import Visuall.Checker.Inheritance

/-!
# Assignability is a preorder

Apart from the types that go with every other one, `isAssignableTo` compares types like an order.

* `isDefinite`, `DefiniteTy` — no unknown type, `null`, type variable or bare tuple, at any depth;
* `chain_implements` — a subclass implements what its base classes implement;
* `assignable_trans` — one case for each shape of the last type;
* `isAssignableTo_preorder` — the result.
-/

namespace Visuall.Checker

open Visuall.Ast Visuall.Types Relation

/-! ## Definite types -/

mutual

/-- A type in which no unknown type, `null`, type variable or bare tuple occurs. -/
def isDefinite : Ty → Bool
  | .unknown | .null | .typeVar _ => false
  | .int | .float | .str | .bool | .void | .cls _ | .interface _ => true
  | .list elem => isDefinite elem
  | .dict key value => isDefinite key && isDefinite value
  | .tuple elems => !elems.isEmpty && areDefinite elems
  | .func _ ret params => isDefinite ret && areDefinite params
  | .union members => areDefinite members
  | .chan elem => isDefinite elem

def areDefinite : List Ty → Bool
  | [] => true
  | t :: ts => isDefinite t && areDefinite ts

end

/-- The definite types. -/
abbrev DefiniteTy := { t : Ty // isDefinite t = true }

variable {T : Tables} {a b c t : Ty} {ts us : List Ty}

theorem not_lenient (h : isDefinite t = true) : ¬ Lenient t := by
  cases t <;> simp_all [isDefinite, Lenient, kind]

theorem isUnknown_definite (h : isDefinite t = true) : isUnknown t = false := by
  cases t <;> simp_all [isDefinite, isUnknown, kind]

theorem definite_cons : areDefinite (t :: ts) = true ↔ isDefinite t = true ∧ areDefinite ts = true := by
  rw [areDefinite, Bool.and_eq_true]

/-- Definite parameter types are compared by `typeEquals`. -/
theorem params_eq (hts : areDefinite ts = true) (hus : areDefinite us = true) (hlength : ts.length = us.length)
    (h : Tables.paramsAgree ts us = true) : ts = us := by
  induction ts generalizing us with
  | nil => exact (List.length_eq_zero_iff.mp hlength.symm).symm
  | cons t ts ih =>
    cases us with
    | nil => cases hlength
    | cons u us =>
      rw [definite_cons] at hts hus
      rw [Tables.paramsAgree, List.zip_cons_cons, List.all_cons, isUnknown_definite hts.1, isUnknown_definite hus.1,
        Bool.false_or, Bool.false_or, Bool.and_eq_true] at h
      rw [(typeEquals_iff t u).mp h.1, ih hts.2 hus.2 (Nat.succ.inj hlength) h.2]

/-! ## Classes -/

/-- A class implements what its base classes implement. -/
theorem implements_of_reach (hT : T.Acyclic) {cls base iface : Name} (hreach : ReflTransGen T.Extends cls base)
    (h : T.classImplementsInterface base iface = some true) : T.classImplementsInterface cls iface = some true := by
  induction hreach using ReflTransGen.head_induction_on with
  | refl => exact h
  | @head a b hstep _ ih =>
    have hends := Tables.classImplementsInterface_ends hT a iface
    rw [Tables.classImplementsInterface, Tables.implementsInterface_eq_search] at ih hends ⊢
    rw [Climb.search_eq_true_iff hends]
    obtain ⟨d, hreach, hd⟩ := Climb.search_true ih
    obtain ⟨info, hinfo, hb⟩ := hstep
    by_cases hiface : iface ∈ info.interfaces
    · refine ⟨a, .refl, ?_⟩
      rw [Tables.visitInterface, hinfo]
      exact if_pos hiface
    · refine ⟨d, .head ⟨info.bases, ?_, hb⟩ hreach, hd⟩
      rw [Tables.visitInterface, hinfo]
      exact if_neg hiface

theorem implements_of_subtype (hT : T.Acyclic) {cls base iface : Name}
    (hsub : T.isSubtype (.cls cls) (.cls base) = some true) (h : T.classImplementsInterface base iface = some true) :
    T.classImplementsInterface cls iface = some true := by
  rcases (Tables.isSubtype_iff hT cls base).mp hsub with rfl | ⟨-, hchain⟩
  · exact h
  · exact implements_of_reach hT (ReflTransGen.mono (fun _ _ => Tables.PrimaryBase.extends) _ _ hchain) h

theorem isSubtype_trans (hT : T.Acyclic) {a b c : Name} (hab : T.isSubtype (.cls a) (.cls b) = some true)
    (hbc : T.isSubtype (.cls b) (.cls c) = some true) : T.isSubtype (.cls a) (.cls c) = some true := by
  rw [Tables.isSubtype_iff hT] at hab hbc ⊢
  rcases hab with rfl | ⟨ha, hab⟩
  · exact hbc
  · rcases hbc with rfl | ⟨-, hbc⟩
    · exact .inr ⟨ha, hab⟩
    · exact .inr ⟨ha, hab.trans hbc⟩

/-! ## Unions -/

theorem isAssignableToAny_of_mem (hT : T.Acyclic) {members : List Ty} {m : Ty} (hm : m ∈ members)
    (h : T.isAssignableTo a m = some true) : T.isAssignableToAny a members = some true := by
  induction members with
  | nil => cases hm
  | cons m' ms ih =>
    rw [isAssignableToAny_cons]
    obtain ⟨fits, hfits⟩ := Option.ne_none_iff_exists'.mp (isAssignableTo_ends hT a m')
    rw [hfits]
    cases fits with
    | true => rfl
    | false =>
      rcases List.mem_cons.mp hm with rfl | hm
      · rw [hfits] at h
        cases h
      · exact ih hm

/-- What is assignable to a union is the union, or is assignable to a member. -/
theorem assignable_union_iff (hT : T.Acyclic) (ha : isDefinite a = true) {members : List Ty} :
    T.isAssignableTo a (.union members) = some true ↔
      a = .union members ∨ ∃ m ∈ members, T.isAssignableTo a m = some true := by
  by_cases heq : a = .union members
  · rw [heq, assignable_self]
    exact iff_of_true rfl (.inl rfl)
  · rw [isAssignableTo_union heq (not_lenient ha)]
    constructor
    · exact fun h => .inr (isAssignableToAny_true h)
    · rintro (h | ⟨m, hm, hfits⟩)
      · exact absurd h heq
      · exact isAssignableToAny_of_mem hT hm hfits

/-! ## Transitivity -/

mutual

/-- By induction on the last type. -/
theorem assignable_trans (hT : T.Acyclic) : (c : Ty) → ∀ {a b : Ty}, isDefinite a = true → isDefinite b = true →
    isDefinite c = true → T.isAssignableTo a b = some true → T.isAssignableTo b c = some true →
      T.isAssignableTo a c = some true
  | .union members, _, _, ha, hb, hc, hab, hbc => by
      rcases (assignable_union_iff hT hb).mp hbc with rfl | ⟨m, hm, hfits⟩
      · exact hab
      · rw [isDefinite] at hc
        obtain ⟨m', hm', hfits'⟩ := assignable_trans_members hT members ha hb hc hab m hm hfits
        exact (assignable_union_iff hT ha).mpr (.inr ⟨m', hm', hfits'⟩)
  | .list elem, _, _, ha, hb, hc, hab, hbc => by
      obtain ⟨elem', rfl, helem⟩ := (assignable_list_iff.mp hbc).resolve_left (not_lenient hb)
      obtain ⟨elem'', rfl, helem'⟩ := (assignable_list_iff.mp hab).resolve_left (not_lenient ha)
      rw [isDefinite] at ha hb hc
      exact assignable_lists.mpr (assignable_trans hT elem ha hb hc helem' helem)
  | .dict key value, _, _, ha, hb, hc, hab, hbc => by
      obtain ⟨key', value', rfl, hkey, hvalue⟩ := (assignable_dict_iff.mp hbc).resolve_left (not_lenient hb)
      obtain ⟨key'', value'', rfl, hkey', hvalue'⟩ := (assignable_dict_iff.mp hab).resolve_left (not_lenient ha)
      rw [isDefinite, Bool.and_eq_true] at ha hb hc
      exact assignable_dicts.mpr ⟨assignable_trans hT key ha.1 hb.1 hc.1 hkey' hkey,
        assignable_trans hT value ha.2 hb.2 hc.2 hvalue' hvalue⟩
  | .tuple elems, _, _, ha, hb, hc, hab, hbc => by
      obtain ⟨elems', rfl, helems⟩ := (assignable_tuple_iff.mp hbc).resolve_left (not_lenient hb)
      obtain ⟨elems'', rfl, helems'⟩ := (assignable_tuple_iff.mp hab).resolve_left (not_lenient ha)
      rw [isDefinite, Bool.and_eq_true, Bool.not_eq_true', List.isEmpty_eq_false_iff] at ha hb hc
      exact assignable_tuples.mpr (.inr (assignable_trans_elems hT elems ha.2 hb.2 hc.2
        (helems'.resolve_left hb.1) (helems.resolve_left hc.1)))
  | .func name ret params, _, _, ha, hb, hc, hab, hbc => by
      obtain ⟨name', ret', params', rfl, hlength, hagree⟩ := (assignable_func_iff.mp hbc).resolve_left (not_lenient hb)
      obtain ⟨name'', ret'', params'', rfl, hlength', hagree'⟩ := (assignable_func_iff.mp hab).resolve_left (not_lenient ha)
      rw [isDefinite, Bool.and_eq_true] at ha hb hc
      obtain rfl := params_eq hb.2 hc.2 hlength hagree
      exact assignable_func_iff.mpr (.inr ⟨_, _, _, rfl, hlength', hagree'⟩)
  | .cls name, _, _, ha, hb, hc, hab, hbc => by
      obtain ⟨name', rfl, hsub⟩ := (assignable_cls_iff.mp hbc).resolve_left (not_lenient hb)
      obtain ⟨name'', rfl, hsub'⟩ := (assignable_cls_iff.mp hab).resolve_left (not_lenient ha)
      exact assignable_cls_iff.mpr (.inr ⟨_, rfl, isSubtype_trans hT hsub' hsub⟩)
  | .interface name, _, _, ha, hb, hc, hab, hbc => by
      rcases (assignable_interface_iff.mp hbc).resolve_left (not_lenient hb) with rfl | ⟨name', rfl, himplements⟩
      · exact hab
      · obtain ⟨name'', rfl, hsub⟩ := (assignable_cls_iff.mp hab).resolve_left (not_lenient ha)
        exact assignable_interface_iff.mpr (.inr (.inr ⟨_, rfl, implements_of_subtype hT hsub himplements⟩))
  | .float, _, _, ha, hb, hc, hab, hbc => by
      rcases (assignable_float_iff.mp hbc).resolve_left (not_lenient hb) with rfl | rfl
      · rcases (assignable_plain_iff (.inl (by simp))).mp hab with h | rfl
        · exact absurd h (not_lenient ha)
        · exact hbc
      · exact hab
  | .int, _, _, ha, hb, hc, hab, hbc | .str, _, _, ha, hb, hc, hab, hbc | .bool, _, _, ha, hb, hc, hab, hbc | .void, _, _, ha, hb, hc, hab, hbc => by
      obtain rfl := ((assignable_plain_iff (.inl (by simp))).mp hbc).resolve_left (not_lenient hb)
      exact hab
  | .chan elem, _, _, ha, hb, hc, hab, hbc => by
      obtain rfl := ((assignable_plain_iff (.inr ⟨elem, rfl⟩)).mp hbc).resolve_left (not_lenient hb)
      exact hab
  | .null, _, _, _, _, hc, _, _ | .unknown, _, _, _, _, hc, _, _ | .typeVar _, _, _, _, _, hc, _, _ => by
      cases hc

theorem assignable_trans_members (hT : T.Acyclic) : (members : List Ty) → ∀ {a b : Ty}, isDefinite a = true →
    isDefinite b = true → areDefinite members = true → T.isAssignableTo a b = some true → ∀ m ∈ members,
      T.isAssignableTo b m = some true → ∃ m' ∈ members, T.isAssignableTo a m' = some true
  | [], _, _, _, _, _, _ => nofun
  | m :: ms, _, _, ha, hb, hdefinite, hab => by
      rw [definite_cons] at hdefinite
      intro m' hm' hfits
      rcases List.mem_cons.mp hm' with heq | hm'
      · rw [heq] at hfits
        exact ⟨m, List.mem_cons_self, assignable_trans hT m ha hb hdefinite.1 hab hfits⟩
      · obtain ⟨m'', hm'', hfits'⟩ := assignable_trans_members hT ms ha hb hdefinite.2 hab m' hm' hfits
        exact ⟨m'', List.mem_cons_of_mem _ hm'', hfits'⟩

theorem assignable_trans_elems (hT : T.Acyclic) : (cs : List Ty) → ∀ {as bs : List Ty}, areDefinite as = true →
    areDefinite bs = true → areDefinite cs = true → List.Forall₂ (fun g e => T.isAssignableTo g e = some true) as bs →
      List.Forall₂ (fun g e => T.isAssignableTo g e = some true) bs cs →
        List.Forall₂ (fun g e => T.isAssignableTo g e = some true) as cs
  | [], _, _, _, _, _, hab, hbc => by
      cases hbc
      cases hab
      exact .nil
  | c :: cs, _, _, has, hbs, hcs, hab, hbc => by
      obtain _ | ⟨hhead, htail⟩ := hbc
      obtain _ | ⟨hhead', htail'⟩ := hab
      rw [definite_cons] at has hbs hcs
      exact .cons (assignable_trans hT c has.1 hbs.1 hcs.1 hhead' hhead)
        (assignable_trans_elems hT cs has.2 hbs.2 hcs.2 htail' htail)

end

/-- **Assignability is a preorder** on the definite types. -/
theorem isAssignableTo_preorder (T : Tables) (hT : T.Acyclic) :
    IsPreorder DefiniteTy fun a b => T.isAssignableTo a.1 b.1 = some true where
  refl := fun t => assignable_self t.1
  trans := fun a b c hab hbc => assignable_trans hT c.1 a.2 b.2 c.2 hab hbc

/-- A subclass, its base class and a union with that. -/
theorem oneBase_union : oneBase.Acyclic ∧
    oneBase.isAssignableTo (.cls ['B']) (.union [.str, .cls ['A']]) = some true := by
  have hpreorder := isAssignableTo_preorder oneBase oneBase_acyclic
  refine ⟨oneBase_acyclic, ?_⟩
  exact hpreorder.trans ⟨.cls ['B'], rfl⟩ ⟨.cls ['A'], rfl⟩ ⟨.union [.str, .cls ['A']], rfl⟩ rfl rfl

end Visuall.Checker
