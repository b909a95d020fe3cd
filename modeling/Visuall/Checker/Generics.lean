import Visuall.Checker.Calls
import Visuall.Checker.Reassign
import Visuall.Types.Substitution

/-!
# Calls of generic functions

What `visit(CallExpr)` accepts of a call whose callee has type parameters, against the types that the parameters can
stand for.

* `Witness` — types for the type parameters that make the call right;
* `assignable_subst` — `unknown` is as good as any type, except inside of channel, function and union types;
* `Instantiable` — the condition, and `witness_iff` — the result.
-/

namespace Visuall.Checker

open Visuall.Ast Visuall.Types

variable {T : Tables} {C : Context}

/-! ## Types for type variables -/

mutual

/-- **`unknown` is as good as any type for a variable**, unless it stands inside of a channel, function or union type. -/
theorem assignable_subst {θ θ' : Name → Ty} : (t : Ty) → {given : Ty} →
    (∀ n ∈ vars t, θ' n = θ n ∨ θ' n = .unknown) → (∀ n ∈ rigidVars t, θ' n = θ n) →
    T.isAssignableTo given (subst θ t) = some true → T.isAssignableTo given (subst θ' t) = some true
  | .typeVar name, given, hvars, _, h => by
    show T.isAssignableTo given (θ' name) = some true
    rcases hvars name (List.mem_singleton_self name) with heq | heq
    · rw [heq]
      exact h
    · rw [heq]
      exact assignable_unknown given
  | .list elem, given, hvars, hrigid, h => by
    refine assignable_list_iff.mpr ((assignable_list_iff.mp h).imp_right fun hlist => ?_)
    obtain ⟨elem', hgiven, helem⟩ := hlist
    exact ⟨elem', hgiven, assignable_subst elem hvars hrigid helem⟩
  | .dict key value, given, hvars, hrigid, h => by
    refine assignable_dict_iff.mpr ((assignable_dict_iff.mp h).imp_right fun hdict => ?_)
    obtain ⟨key', value', hgiven, hkey, hvalue⟩ := hdict
    refine ⟨key', value', hgiven, assignable_subst key (fun n hn => hvars n ?_) (fun n hn => hrigid n ?_) hkey,
      assignable_subst value (fun n hn => hvars n ?_) (fun n hn => hrigid n ?_) hvalue⟩
    · exact List.mem_append_left _ hn
    · exact List.mem_append_left _ hn
    · exact List.mem_append_right _ hn
    · exact List.mem_append_right _ hn
  | .tuple elems, given, hvars, hrigid, h => by
    refine assignable_tuple_iff.mpr ((assignable_tuple_iff.mp h).imp_right fun htuple => ?_)
    obtain ⟨gs, hgiven, helems⟩ := htuple
    refine ⟨gs, hgiven, helems.imp (fun hempty => ?_) fun hall => assignable_substs elems hvars hrigid hall⟩
    cases elems with
    | nil => rfl
    | cons t ts => cases hempty
  | .func name ret params, _, _, hrigid, h => by
    rw [subst_congr (.func name ret params) hrigid]
    exact h
  | .union members, _, _, hrigid, h => by
    rw [subst_congr (.union members) hrigid]
    exact h
  | .chan elem, _, _, hrigid, h => by
    rw [subst_congr (.chan elem) hrigid]
    exact h
  | .int, _, _, _, h | .float, _, _, _, h | .str, _, _, _, h | .bool, _, _, _, h | .void, _, _, _, h
  | .null, _, _, _, h | .unknown, _, _, _, h | .cls _, _, _, _, h | .interface _, _, _, _, h => h

theorem assignable_substs {θ θ' : Name → Ty} : (ts : List Ty) → {gs : List Ty} →
    (∀ n ∈ varsAll ts, θ' n = θ n ∨ θ' n = .unknown) → (∀ n ∈ rigidVarsAll ts, θ' n = θ n) →
    List.Forall₂ (fun g e => T.isAssignableTo g e = some true) gs (substs θ ts) →
    List.Forall₂ (fun g e => T.isAssignableTo g e = some true) gs (substs θ' ts)
  | [], _, _, _, h => h
  | t :: ts, _, hvars, hrigid, h => by
    cases h with
    | cons hhead htail =>
      refine .cons (assignable_subst t (fun n hn => hvars n ?_) (fun n hn => hrigid n ?_) hhead)
        (assignable_substs ts (fun n hn => hvars n ?_) (fun n hn => hrigid n ?_) htail)
      · exact List.mem_append_left _ hn
      · exact List.mem_append_left _ hn
      · exact List.mem_append_right _ hn
      · exact List.mem_append_right _ hn

end

/-! ## Calls -/

/-- What a call of a generic function is checked with: the name, the type parameters and the type of the callee, the types
of the arguments, and the type arguments that are written. -/
structure GenericCall where
  name : Name
  typeParams : List Name
  ret : Ty
  params : List Ty
  args : List Ty
  typeArgs : List Name

namespace GenericCall

variable (T : Tables) (C : Context) (c : GenericCall)

/-- The explicit type arguments. -/
def explicit : List (Name × Ty) :=
  ((c.typeParams.zip c.typeArgs).map fun p => (p.1, resolve T C p.2)).foldl assignKey []

/-- The map that the visitor makes. -/
def map : List (Name × Ty) := typeArgMap T C c.typeParams c.typeArgs c.params c.args

/-- The type variables that mean something where the call stands: type parameters in scope, and what the types of the
arguments mention. -/
def known : List Name := C.currentTypeParams ++ varsAll (c.args ++ (explicit T C c).map Prod.snd)

/-- A type satisfies the bound of a type parameter, if it has one. -/
def MeetsBound (param : Name) (t : Ty) : Prop :=
  ∀ bound, T.funcBounds.lookup (c.name ++ ".".toList ++ param) = some bound → satisfiesBound t bound = true

/-- **Types for the type parameters that make a call right**, whose type is `result`. -/
structure Witness (result : Ty) (θ : Name → Ty) : Prop where
  written : ∀ tp t, (explicit T C c).lookup tp = some t → θ tp = t
  others : ∀ n, n ∉ c.typeParams → θ n = .typeVar n
  reach : ∀ tp ∈ c.typeParams, ∀ n ∈ vars (θ tp), n ∈ known T C c
  arguments : ∀ pair ∈ c.params.zip c.args, T.isAssignableTo pair.2 (subst θ pair.1) = some true
  bounds : ∀ tp ∈ c.typeParams, MeetsBound T c tp (θ tp)
  result : result = subst θ c.ret

/-- What a variable of the return type is in the type of the call: only a return type that is a variable is looked up. -/
def returned (n : Name) : Ty :=
  match c.ret with
  | .typeVar _ => ((map T C c).lookup n).getD (.typeVar n)
  | _ => .typeVar n

/-- The type of a type parameter, where it is given: as an explicit argument, or by the type of the call. -/
def fixed (tp : Name) : Option Ty :=
  match (explicit T C c).lookup tp with
  | some t => some t
  | none => if tp ∈ vars c.ret then some (returned T C c tp) else none

/-- Type parameters that stand inside of a channel, function or union type of a parameter. -/
def Rigid (tp : Name) : Prop := tp ∈ rigidVarsAll c.params

instance (tp : Name) : Decidable (Rigid c tp) := inferInstanceAs (Decidable (_ ∈ _))

/-- The given types, `ρ` for the rigid parameters that are left, and `unknown` for the others. -/
def fill (ρ : Name → Ty) (n : Name) : Ty :=
  if n ∈ c.typeParams then
    match fixed T C c n with
    | some t => t
    | none => if Rigid c n then ρ n else .unknown
  else .typeVar n

/-- **The condition.** -/
structure Instantiable : Prop where
  /-- A type parameter that is left over in the type of the call is one that the caller knows, too. -/
  left : ∀ tp ∈ c.typeParams, tp ∈ vars c.ret → (c.ret = .typeVar tp → (map T C c).lookup tp = none) →
    (∀ t, (explicit T C c).lookup tp = some t → t = .typeVar tp) ∧ tp ∈ known T C c ∧ MeetsBound T c tp (.typeVar tp)
  /-- A return type that is another type variable is not replaced. -/
  foreign : ∀ n, n ∉ c.typeParams → c.ret = .typeVar n → ∀ t, (map T C c).lookup n = some t → t = .typeVar n
  /-- The arguments fit. -/
  arguments : ∃ ρ : Name → Ty,
    (∀ tp ∈ c.typeParams, Rigid c tp → (∀ n ∈ vars (ρ tp), n ∈ known T C c) ∧ MeetsBound T c tp (ρ tp)) ∧
      ∀ pair ∈ c.params.zip c.args, T.isAssignableTo pair.2 (subst (fill T C c ρ) pair.1) = some true

end GenericCall

/-! ## The map -/

/-- What is kept of a list of assignments. -/
theorem mem_foldl_assignKey {entries map : List (Name × Ty)} {entry : Name × Ty}
    (h : entry ∈ entries.foldl assignKey map) : entry ∈ entries ∨ entry ∈ map := by
  induction entries generalizing map with
  | nil => exact .inr h
  | cons e entries ih =>
    rcases ih h with hentries | hmap
    · exact .inl (List.mem_cons_of_mem _ hentries)
    · rcases List.mem_cons.mp hmap with rfl | hkept
      · exact .inl List.mem_cons_self
      · exact .inr (List.mem_of_mem_filter hkept)

theorem mem_of_lookup {map : List (Name × Ty)} {n : Name} {t : Ty} (h : map.lookup n = some t) : (n, t) ∈ map := by
  obtain ⟨before, behind, rfl, _⟩ := List.lookup_eq_some_iff.mp h
  exact List.mem_append_right _ List.mem_cons_self

namespace GenericCall

variable {c : GenericCall}

/-- With explicit type arguments the map holds these. -/
theorem map_eq_explicit (h : c.typeArgs ≠ []) : map T C c = explicit T C c := if_pos h

theorem explicit_eq_nil (h : c.typeArgs = []) : explicit T C c = [] := by
  rw [explicit, h, List.zip_nil_right]
  rfl

theorem lookup_explicit {tp : Name} {t : Ty} (h : (explicit T C c).lookup tp = some t) :
    tp ∈ c.typeParams ∧ (map T C c).lookup tp = some t ∧ ∀ n ∈ vars t, n ∈ known T C c := by
  have hmem := mem_of_lookup h
  refine ⟨?_, ?_, fun n hn => ?_⟩
  · rcases mem_foldl_assignKey hmem with hentry | hentry
    · obtain ⟨p, hp, heq⟩ := List.mem_map.mp hentry
      have hname : p.1 = tp := congrArg Prod.fst heq
      rw [← hname]
      exact (List.of_mem_zip hp).1
    · cases hentry
  · by_cases hargs : c.typeArgs = []
    · rw [explicit_eq_nil hargs] at h
      cases h
    · rw [map_eq_explicit hargs]
      exact h
  · refine List.mem_append_right _ (mem_varsAll.mpr ⟨t, List.mem_append_right _ ?_, hn⟩)
    exact List.mem_map.mpr ⟨_, hmem, rfl⟩

/-- The types of the map mention what the caller knows. -/
theorem vars_lookup_map {tp : Name} {t : Ty} (h : (map T C c).lookup tp = some t) :
    ∀ n ∈ vars t, n ∈ known T C c := by
  by_cases hargs : c.typeArgs = []
  · rw [map, typeArgMap, if_neg (not_not_intro hargs)] at h
    rcases mem_foldl_assignKey (mem_of_lookup h) with hentry | hentry
    · obtain ⟨p, hp, heq⟩ := List.mem_filterMap.mp hentry
      have hmem : t ∈ c.args := by
        split at heq
        · cases heq
          exact (List.of_mem_zip hp).2
        · cases heq
      intro n hn
      exact List.mem_append_right _ (mem_varsAll.mpr ⟨t, List.mem_append_left _ hmem, hn⟩)
    · cases hentry
  · rw [map_eq_explicit hargs] at h
    exact (lookup_explicit h).2.2

/-- The type that the visitor gives to a call. -/
def resultType (T : Tables) (C : Context) (c : GenericCall) : Ty :=
  match c.ret with
  | .typeVar name => ((map T C c).lookup name).getD c.ret
  | _ => c.ret

/-! ## Given types -/

/-- What the type of a call says of the types of the type parameters. -/
theorem result_eq_iff {θ : Name → Ty} :
    resultType T C c = subst θ c.ret ↔ ∀ n ∈ vars c.ret, θ n = returned T C c n := by
  simp only [resultType, returned]
  cases hret : c.ret with
  | typeVar name => simp [subst, vars, eq_comm]
  | _ => exact Iff.trans eq_comm (subst_eq_self_iff _)

/-- What is left over is the variable itself. -/
theorem returned_of_left {tp : Name} (hret : tp ∈ vars c.ret)
    (hnone : c.ret = .typeVar tp → (map T C c).lookup tp = none) : returned T C c tp = .typeVar tp := by
  rw [returned]
  cases hc : c.ret with
  | typeVar name =>
    rw [hc] at hret
    obtain rfl : tp = name := List.mem_singleton.mp hret
    rw [hnone hc]
    rfl
  | _ => rfl

/-- A variable of the return type is looked up, or left over. -/
theorem returned_cases (n : Name) : (∃ name, c.ret = .typeVar name) ∧ (map T C c).lookup n = some (returned T C c n) ∨
    returned T C c n = .typeVar n ∧ (c.ret = .typeVar n → (map T C c).lookup n = none) := by
  rw [returned]
  cases hret : c.ret with
  | typeVar name =>
    cases hlookup : (map T C c).lookup n with
    | some t => exact .inl ⟨⟨name, rfl⟩, rfl⟩
    | none => exact .inr ⟨rfl, fun _ => rfl⟩
  | _ => exact .inr ⟨rfl, fun h => by cases h⟩

theorem fixed_of_ret {tp : Name} (hret : tp ∈ vars c.ret) (hexplicit : (explicit T C c).lookup tp = none) :
    fixed T C c tp = some (returned T C c tp) := by
  rw [fixed, hexplicit]
  exact if_pos hret

/-- **The given types are those of every witness.** -/
theorem Witness.eq_fixed {θ : Name → Ty} (h : Witness T C c (resultType T C c) θ) {tp : Name} {t : Ty}
    (hfixed : fixed T C c tp = some t) : θ tp = t := by
  cases hexplicit : (explicit T C c).lookup tp with
  | some u =>
    rw [fixed, hexplicit] at hfixed
    rw [h.written tp u hexplicit]
    exact Option.some.inj hfixed
  | none =>
    by_cases hret : tp ∈ vars c.ret
    · rw [fixed_of_ret hret hexplicit] at hfixed
      rw [result_eq_iff.mp h.result tp hret]
      exact Option.some.inj hfixed
    · rw [fixed, hexplicit] at hfixed
      simp only [hret, if_false] at hfixed
      cases hfixed

/-! ## The result -/

variable {ρ : Name → Ty}

theorem fill_fixed {tp : Name} {t : Ty} (htp : tp ∈ c.typeParams) (hfixed : fixed T C c tp = some t) :
    fill T C c ρ tp = t := by
  rw [fill, if_pos htp, hfixed]

theorem fill_explicit {tp : Name} {t : Ty} (h : (explicit T C c).lookup tp = some t) : fill T C c ρ tp = t := by
  refine fill_fixed (lookup_explicit h).1 ?_
  rw [fixed, h]

/-- Every witness has the given types, and `unknown` is as good as its other types that are not rigid. -/
theorem Witness.fill_eq {θ : Name → Ty} (h : Witness T C c (resultType T C c) θ) (n : Name) :
    fill T C c θ n = θ n ∨ ¬ Rigid c n ∧ fill T C c θ n = .unknown := by
  rw [fill]
  by_cases hn : n ∈ c.typeParams
  · rw [if_pos hn]
    cases hfixed : fixed T C c n with
    | some t => exact .inl (h.eq_fixed hfixed).symm
    | none =>
      by_cases hrigid : Rigid c n
      · exact .inl (if_pos hrigid)
      · exact .inr ⟨hrigid, if_neg hrigid⟩
  · rw [if_neg hn]
    exact .inl (h.others n hn).symm

/-- The condition is necessary. -/
theorem Witness.instantiable {θ : Name → Ty} (h : Witness T C c (resultType T C c) θ) : Instantiable T C c where
  left := by
    intro tp htp hret hnone
    have hself : θ tp = .typeVar tp := by
      rw [result_eq_iff.mp h.result tp hret]
      exact returned_of_left hret hnone
    refine ⟨fun t ht => ?_, ?_, ?_⟩
    · rw [← h.written tp t ht]
      exact hself
    · refine h.reach tp htp tp ?_
      rw [hself]
      exact List.mem_singleton_self tp
    · rw [← hself]
      exact h.bounds tp htp
  foreign := by
    intro n hn hret t ht
    have heq : θ n = returned T C c n := result_eq_iff.mp h.result n (by rw [hret]; exact List.mem_singleton_self n)
    rw [h.others n hn, returned, hret, ht] at heq
    exact heq.symm
  arguments := by
    refine ⟨θ, fun tp htp _ => ⟨h.reach tp htp, h.bounds tp htp⟩, fun pair hpair => ?_⟩
    refine assignable_subst pair.1 (fun n _ => (h.fill_eq n).imp_right And.right) (fun n hn => ?_)
      (h.arguments pair hpair)
    refine (h.fill_eq n).resolve_right fun hfree => hfree.1 ?_
    exact mem_rigidVarsAll.mpr ⟨pair.1, (List.of_mem_zip hpair).1, hn⟩

/-- No type of the map violates a bound. -/
def BoundsMet (T : Tables) (C : Context) (c : GenericCall) : Prop :=
  ∀ entry ∈ map T C c, MeetsBound T c entry.1 entry.2

/-- The given types mention what the caller knows, and satisfy the bounds. -/
theorem Instantiable.of_fixed (hbounds : BoundsMet T C c) (h : Instantiable T C c) {tp : Name} {t : Ty}
    (htp : tp ∈ c.typeParams) (hfixed : fixed T C c tp = some t) :
    (∀ n ∈ vars t, n ∈ known T C c) ∧ MeetsBound T c tp t := by
  have hmap {u : Ty} (hu : (map T C c).lookup tp = some u) :
      (∀ n ∈ vars u, n ∈ known T C c) ∧ MeetsBound T c tp u :=
    ⟨vars_lookup_map hu, hbounds _ (mem_of_lookup hu)⟩
  cases hexplicit : (explicit T C c).lookup tp with
  | some u =>
    rw [fixed, hexplicit] at hfixed
    obtain rfl := Option.some.inj hfixed
    exact hmap (lookup_explicit hexplicit).2.1
  | none =>
    by_cases hret : tp ∈ vars c.ret
    · rw [fixed_of_ret hret hexplicit] at hfixed
      obtain rfl := Option.some.inj hfixed
      rcases returned_cases (T := T) (C := C) (c := c) tp with hlookup | hleft
      · exact hmap hlookup.2
      · obtain ⟨_, hknown, hbound⟩ := h.left tp htp hret hleft.2
        rw [hleft.1]
        refine ⟨fun n hn => ?_, hbound⟩
        rw [List.mem_singleton.mp hn]
        exact hknown
    · rw [fixed, hexplicit] at hfixed
      simp only [hret, if_false] at hfixed
      cases hfixed

/-- The types that are filled in are those that the type of the call asks for. -/
theorem Instantiable.fill_ret (h : Instantiable T C c) {n : Name} (hn : n ∈ vars c.ret) :
    fill T C c ρ n = returned T C c n := by
  by_cases htp : n ∈ c.typeParams
  · cases hexplicit : (explicit T C c).lookup n with
    | some u =>
      rw [fill_explicit hexplicit]
      rcases returned_cases (T := T) (C := C) (c := c) n with hlookup | hleft
      · exact Option.some.inj ((lookup_explicit hexplicit).2.1.symm.trans hlookup.2)
      · rw [hleft.1]
        exact (h.left n htp hn hleft.2).1 u hexplicit
    | none => exact fill_fixed htp (fixed_of_ret hn hexplicit)
  · rw [fill, if_neg htp]
    rcases returned_cases (T := T) (C := C) (c := c) n with hlookup | hleft
    · obtain ⟨⟨name, hret⟩, hlookup⟩ := hlookup
      rw [hret] at hn
      obtain rfl : n = name := List.mem_singleton.mp hn
      exact (h.foreign n htp hret _ hlookup).symm
    · exact hleft.1.symm

/-- The condition is sufficient for a call that is accepted. -/
theorem Instantiable.witness (h : Instantiable T C c) (hbounds : BoundsMet T C c) :
    ∃ θ, Witness T C c (resultType T C c) θ := by
  obtain ⟨ρ, hρ, harguments⟩ := h.arguments
  have hfill (tp : Name) (htp : tp ∈ c.typeParams) :
      (∀ n ∈ vars (fill T C c ρ tp), n ∈ known T C c) ∧ MeetsBound T c tp (fill T C c ρ tp) := by
    cases hfixed : fixed T C c tp with
    | some t =>
      rw [fill_fixed htp hfixed]
      exact h.of_fixed hbounds htp hfixed
    | none =>
      rw [fill, if_pos htp, hfixed]
      by_cases hrigid : Rigid c tp
      · simp only [hrigid, if_true]
        exact hρ tp htp hrigid
      · simp only [hrigid, if_false]
        exact ⟨fun n hn => absurd hn List.not_mem_nil, fun bound _ => rfl⟩
  refine ⟨fill T C c ρ, fun tp t ht => fill_explicit ht, fun n hn => if_neg hn, fun tp htp => (hfill tp htp).1,
    harguments, fun tp htp => (hfill tp htp).2, ?_⟩
  exact result_eq_iff.mpr fun n hn => h.fill_ret hn

end GenericCall

/-! ## The visitor -/

section Visitor

variable {name : Name} {ret R : Ty} {params types : List Ty} {typeParams typeArgs : List Name}
  {σ σ₁ σ₂ σ₃ : State} {callee : Expr} {args : List Expr}

/-- The bounds are compared one by one, and nothing else is reported there. -/
theorem checkBounds_errors (name : Name) (map : List (Name × Ty)) (σ : State) :
    ∃ errs, (checkBounds T name map σ).2.errors = σ.errors ++ errs ∧
      (errs = [] → ∀ entry ∈ map, ∀ bound, T.funcBounds.lookup (name ++ ".".toList ++ entry.1) = some bound →
        satisfiesBound entry.2 bound = true) := by
  induction map generalizing σ with
  | nil => exact ⟨[], (List.append_nil _).symm, fun _ entry hentry => absurd hentry List.not_mem_nil⟩
  | cons entry map ih =>
    obtain ⟨param, concrete⟩ := entry
    have hhead : ∃ errs, checkBound T name param concrete σ = (.ok (), { σ with errors := σ.errors ++ errs }) ∧
        (errs = [] → ∀ bound, T.funcBounds.lookup (name ++ ".".toList ++ param) = some bound →
          satisfiesBound concrete bound = true) := by
      rw [checkBound]
      cases hbound : T.funcBounds.lookup (name ++ ".".toList ++ param) with
      | none =>
        refine ⟨[], ?_, fun _ bound h => by cases h⟩
        rw [List.append_nil]
        rfl
      | some bound =>
        cases hok : satisfiesBound concrete bound with
        | true =>
          refine ⟨[], ?_, fun _ bound' h => ?_⟩
          · show onlyIf (!satisfiesBound concrete bound) _ σ = _
            rw [hok, List.append_nil]
            rfl
          · cases h
            exact hok
        | false =>
          refine ⟨[.unsatisfiedBound concrete bound param], ?_, fun h => by cases h⟩
          show onlyIf (!satisfiesBound concrete bound) _ σ = _
          rw [hok]
          rfl
    obtain ⟨errs, hrun, hmeets⟩ := hhead
    obtain ⟨errs', herrs', hmeets'⟩ := ih { σ with errors := σ.errors ++ errs }
    refine ⟨errs ++ errs', ?_, fun h => ?_⟩
    · rw [checkBounds, Effect.bind_run, hrun]
      exact herrs'.trans (List.append_assoc _ _ _)
    · obtain ⟨hnil, hnil'⟩ := List.append_eq_nil_iff.mp h
      exact List.forall_mem_cons.mpr ⟨hmeets hnil, hmeets' hnil'⟩

/-- **What an accepted call of a generic function says**: its type, and that the bounds are met. -/
theorem callFunction_accepted (htypeParams : T.funcTypeParams.lookup name = some typeParams) (hgeneric : typeParams ≠ [])
    (hrun : callFunction T C name ret params types typeArgs σ = (.ok R, σ₃)) (hclean : σ₃.errors = σ.errors) :
    R = GenericCall.resultType T C ⟨name, typeParams, ret, params, types, typeArgs⟩ ∧
      GenericCall.BoundsMet T C ⟨name, typeParams, ret, params, types, typeArgs⟩ := by
  have hunfold : callFunction T C name ret params types typeArgs = (do
      checkBounds T name (typeArgMap T C typeParams typeArgs params types)
      checkArity T name params.length types.length
      match ret with
      | .typeVar name => return ((typeArgMap T C typeParams typeArgs params types).lookup name).getD ret
      | _ => return ret : Check Ty) := by
    rw [callFunction, htypeParams]
    exact if_pos hgeneric
  rw [hunfold] at hrun
  obtain ⟨_, τ, hbounds, hrest⟩ := Effect.ok_of_bind_run hrun
  obtain ⟨_, τ', harity, hend⟩ := Effect.ok_of_bind_run hrest
  obtain ⟨errs, herrs, hmeets⟩ := checkBounds_errors (T := T) name (typeArgMap T C typeParams typeArgs params types) σ
  obtain ⟨errs', herrs', _⟩ := checkArity_counts (T := T) name params.length types.length τ
  rw [hbounds] at herrs
  rw [harity] at herrs'
  have hresult : R = GenericCall.resultType T C ⟨name, typeParams, ret, params, types, typeArgs⟩ ∧ σ₃ = τ' := by
    cases ret <;> cases hend <;> exact ⟨rfl, rfl⟩
  refine ⟨hresult.1, hmeets ?_⟩
  rw [hresult.2, show τ'.errors = τ.errors ++ errs' from herrs', show τ.errors = σ.errors ++ errs from herrs,
    List.append_assoc] at hclean
  exact (List.append_eq_nil_iff.mp (List.self_eq_append_right.mp hclean.symm)).1

/-- **When an accepted call of a generic function has types for the type parameters that make it right.** -/
theorem generic_call_instantiable_iff (hplain : builtinCall callee = none)
    (hcallee : checkExpr T C callee σ = (.ok (.func name ret params), σ₁))
    (hargs : checkExprs T C args σ₁ = (.ok types, σ₂))
    (htypeParams : T.funcTypeParams.lookup name = some typeParams) (hgeneric : typeParams ≠ [])
    (hcall : checkExpr T C (.callExpr callee args typeArgs) σ = (.ok R, σ₃)) (hclean : σ₃.errors = σ₂.errors) :
    (∃ θ, GenericCall.Witness T C ⟨name, typeParams, ret, params, types, typeArgs⟩ R θ) ↔
      GenericCall.Instantiable T C ⟨name, typeParams, ret, params, types, typeArgs⟩ := by
  rw [callExpr_run hplain hcallee hargs] at hcall
  obtain ⟨rfl, hbounds⟩ := callFunction_accepted htypeParams hgeneric hcall hclean
  constructor
  · intro h
    obtain ⟨θ, hθ⟩ := h
    exact hθ.instantiable
  · intro h
    exact h.witness hbounds

end Visitor

/-- `func same<T>(x: T) -> T`. -/
def same : FuncHeader :=
  { name := "same".toList
    typeParams := ["T".toList]
    params := [{ name := "x".toList, typeAnnotation := "T".toList }]
    returnType := "T".toList }

/-- The tables and the state of a program with one function. -/
def onlyFunc (h : FuncHeader) (body : List Stmt) : List Stmt := [.funcDef h body]

/-- `same(1)`. -/
theorem generic_call_instantiable_iff_same :
    ∃ θ, GenericCall.Witness (firstPass (onlyFunc same [])).1 {}
      ⟨"same".toList, ["T".toList], .typeVar "T".toList, [.typeVar "T".toList], [.int], []⟩ .int θ := by
  have hplain : builtinCall (.identifier "same".toList) = none := rfl
  have hargs : checkExprs (firstPass (onlyFunc same [])).1 {} [.intLiteral 1] (.start (onlyFunc same [])) =
      (.ok [.int], .start (onlyFunc same [])) := rfl
  have hcall : checkExpr (firstPass (onlyFunc same [])).1 {} (.callExpr (.identifier "same".toList) [.intLiteral 1] [])
      (.start (onlyFunc same [])) = (.ok .int, .start (onlyFunc same [])) := rfl
  refine (generic_call_instantiable_iff hplain rfl hargs rfl (by decide) hcall rfl).mpr ⟨?_, ?_, ?_⟩
  · intro tp htp _ hnone
    obtain rfl := List.mem_singleton.mp htp
    have hlookup : some Ty.int = none := hnone rfl
    cases hlookup
  · intro n hn hret
    obtain rfl : "T".toList = n := Ty.typeVar.inj hret
    exact absurd (List.mem_singleton_self _) hn
  · refine ⟨fun _ => .unknown, fun tp _ hrigid => absurd hrigid List.not_mem_nil, fun pair hpair => ?_⟩
    obtain rfl := List.mem_singleton.mp hpair
    rfl

/-- `func pick<T>(x: T, y: int) -> T`. -/
def pick : FuncHeader :=
  { name := "pick".toList
    typeParams := ["T".toList]
    params := [{ name := "x".toList, typeAnnotation := "T".toList }, { name := "y".toList, typeAnnotation := "int".toList }]
    returnType := "T".toList }

/-- A program with `pick(1, "s")`. -/
def picked : List Stmt :=
  [.funcDef pick [.returnStmt (some (.identifier "x".toList))],
    .exprStmt (.callExpr (.identifier "pick".toList) [.intLiteral 1, .stringLiteral "s".toList] [])]

/-- The program is accepted, and `"s"` is no `int` whatever `T` is. -/
theorem picked_not_instantiated :
    ¬ ∀ p, Accepts p → ∀ (C : Context) (σ σ₁ σ₂ σ₃ : State) (callee : Expr) (args : List Expr) (typeArgs : List Name)
        (name : Name) (ret R : Ty) (params types : List Ty) (typeParams : List Name),
      builtinCall callee = none → checkExpr (firstPass p).1 C callee σ = (.ok (.func name ret params), σ₁) →
      checkExprs (firstPass p).1 C args σ₁ = (.ok types, σ₂) →
      (firstPass p).1.funcTypeParams.lookup name = some typeParams → typeParams ≠ [] →
      checkExpr (firstPass p).1 C (.callExpr callee args typeArgs) σ = (.ok R, σ₃) → σ₃.errors = σ₂.errors →
      ∃ θ, GenericCall.Witness (firstPass p).1 C ⟨name, typeParams, ret, params, types, typeArgs⟩ R θ := by
  intro hall
  obtain ⟨θ, hθ⟩ := hall picked ⟨rfl, rfl⟩ {} (.start picked) _ _ _ (.identifier "pick".toList)
    [.intLiteral 1, .stringLiteral "s".toList] [] _ _ _ _ _ _ rfl rfl rfl rfl (by decide) rfl rfl
  have hfits : (firstPass picked).1.isAssignableTo .str .int = some true :=
    hθ.arguments (.int, .str) (List.mem_cons_of_mem _ List.mem_cons_self)
  cases hfits

end Visuall.Checker
