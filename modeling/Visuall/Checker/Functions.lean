import Visuall.Checker.Comparing

/-!
# Function types against function types

`isAssignableTo` compares the parameters of two function types and nothing else of them.

* `ParamsPass` — what it asks of the parameters;
* `FunctionLaw` — what an accepted pair should have in common;
* `rename`, `NestedNamesIrrelevant` — the names of functions inside the parameters;
* `functionLaw_iff` — exactly where these hold.
-/

namespace Visuall.Checker

open Visuall.Ast Visuall.Types

variable {T : Tables} {t u p q : Ty} {ts us params params' : List Ty} {name name' : Name}

/-! ## Parameters -/

/-- Both types of a pair are known. -/
def BothKnown (pair : Ty × Ty) : Prop := isUnknown pair.1 = false ∧ isUnknown pair.2 = false

/-- As many parameters, and those that are known on both sides the same. -/
def ParamsPass (params params' : List Ty) : Prop :=
  params.length = params'.length ∧ ∀ pair ∈ params.zip params', BothKnown pair → pair.1 = pair.2

theorem paramsAgree_iff : Tables.paramsAgree params params' = true ↔
    ∀ pair ∈ params.zip params', BothKnown pair → pair.1 = pair.2 := by
  rw [Tables.paramsAgree, List.all_eq_true]
  refine forall_congr' fun pair => forall_congr' fun _ => ?_
  rw [Bool.or_eq_true, Bool.or_eq_true, typeEquals_iff, BothKnown]
  cases isUnknown pair.1 <;> cases isUnknown pair.2 <;> simp

theorem assignable_funcs_iff (name name' : Name) (ret ret' : Ty) (params params' : List Ty) :
    T.isAssignableTo (.func name ret params) (.func name' ret' params') = some true ↔ ParamsPass params params' := by
  rw [isAssignableTo_func, Option.some_inj, Bool.and_eq_true, decide_eq_true_iff, paramsAgree_iff, ParamsPass]

/-- Parameters that pass are assignable to each other. -/
theorem ParamsPass.compatible (h : ParamsPass params params') :
    List.Forall₂ (fun p q => T.isAssignableTo p q = some true ∧ T.isAssignableTo q p = some true) params params' := by
  rw [List.forall₂_iff_zip]
  refine ⟨h.1, fun {p q} hmem => ?_⟩
  by_cases hp : isUnknown p = true
  · exact ⟨assignable_of_unknown (.inl hp), assignable_of_unknown (.inr hp)⟩
  · by_cases hq : isUnknown q = true
    · exact ⟨assignable_of_unknown (.inr hq), assignable_of_unknown (.inl hq)⟩
    · have hsame : p = q := h.2 (p, q) hmem ⟨Bool.eq_false_iff.mpr hp, Bool.eq_false_iff.mpr hq⟩
      rw [hsame]
      exact ⟨assignable_self q, assignable_self q⟩

/-! ## Names of functions inside of types -/

mutual

/-- A type with another name for every function in it. -/
def rename (name : Name) : Ty → Ty
  | .func _ ret params => .func name (rename name ret) (renameAll name params)
  | .list elem => .list (rename name elem)
  | .dict key value => .dict (rename name key) (rename name value)
  | .tuple elems => .tuple (renameAll name elems)
  | .union members => .union (renameAll name members)
  | .chan elem => .chan (rename name elem)
  | t => t

def renameAll (name : Name) : List Ty → List Ty
  | [] => []
  | t :: ts => rename name t :: renameAll name ts

end

mutual

/-- A function type occurs in a type. -/
def hasFunction : Ty → Bool
  | .func _ _ _ => true
  | .list elem => hasFunction elem
  | .dict key value => hasFunction key || hasFunction value
  | .tuple elems => haveFunction elems
  | .union members => haveFunction members
  | .chan elem => hasFunction elem
  | _ => false

def haveFunction : List Ty → Bool
  | [] => false
  | t :: ts => hasFunction t || haveFunction ts

end

theorem renameAll_eq_map (name : Name) (ts : List Ty) : renameAll name ts = ts.map (rename name) := by
  induction ts with
  | nil => rfl
  | cons t ts ih => rw [renameAll, ih, List.map_cons]

theorem isUnknown_rename (name : Name) (t : Ty) : isUnknown (rename name t) = isUnknown t := by
  cases t <;> rfl

mutual

theorem rename_rename (name name' : Name) : (t : Ty) → rename name (rename name' t) = rename name t
  | .func _ ret params => by simp only [rename, rename_rename name name' ret, renameAll_renameAll name name' params]
  | .list elem => by simp only [rename, rename_rename name name' elem]
  | .dict key value => by simp only [rename, rename_rename name name' key, rename_rename name name' value]
  | .tuple elems => by simp only [rename, renameAll_renameAll name name' elems]
  | .union members => by simp only [rename, renameAll_renameAll name name' members]
  | .chan elem => by simp only [rename, rename_rename name name' elem]
  | .int | .float | .str | .bool | .void | .null | .unknown | .cls _ | .interface _ | .typeVar _ => rfl

theorem renameAll_renameAll (name name' : Name) : (ts : List Ty) → renameAll name (renameAll name' ts) = renameAll name ts
  | [] => rfl
  | t :: ts => by simp only [renameAll, rename_rename name name' t, renameAll_renameAll name name' ts]

end

mutual

/-- Without functions there is nothing to rename. -/
theorem rename_of_functionless (name : Name) : (t : Ty) → hasFunction t = false → rename name t = t
  | .list elem, h => by rw [rename, rename_of_functionless name elem h]
  | .dict key value, h => by
      rw [hasFunction, Bool.or_eq_false_iff] at h
      rw [rename, rename_of_functionless name key h.1, rename_of_functionless name value h.2]
  | .tuple elems, h => by rw [rename, renameAll_of_functionless name elems h]
  | .union members, h => by rw [rename, renameAll_of_functionless name members h]
  | .chan elem, h => by rw [rename, rename_of_functionless name elem h]
  | .func _ _ _, h => by cases h
  | .int, _ | .float, _ | .str, _ | .bool, _ | .void, _ | .null, _ | .unknown, _ | .cls _, _ | .interface _, _
  | .typeVar _, _ => rfl

theorem renameAll_of_functionless (name : Name) : (ts : List Ty) → haveFunction ts = false → renameAll name ts = ts
  | [], _ => rfl
  | t :: ts, h => by
      rw [haveFunction, Bool.or_eq_false_iff] at h
      rw [renameAll, rename_of_functionless name t h.1, renameAll_of_functionless name ts h.2]

end

mutual

theorem hasFunction_rename (name : Name) : (t : Ty) → hasFunction (rename name t) = hasFunction t
  | .list elem => hasFunction_rename name elem
  | .dict key value => by simp only [rename, hasFunction, hasFunction_rename name key, hasFunction_rename name value]
  | .tuple elems => haveFunction_renameAll name elems
  | .union members => haveFunction_renameAll name members
  | .chan elem => hasFunction_rename name elem
  | .func _ _ _ => rfl
  | .int | .float | .str | .bool | .void | .null | .unknown | .cls _ | .interface _ | .typeVar _ => rfl

theorem haveFunction_renameAll (name : Name) : (ts : List Ty) → haveFunction (renameAll name ts) = haveFunction ts
  | [] => rfl
  | t :: ts => by simp only [renameAll, haveFunction, hasFunction_rename name t, haveFunction_renameAll name ts]

end

mutual

/-- Where there is a function, its name tells. -/
theorem name_eq_of_rename (name name' : Name) :
    (t : Ty) → hasFunction t = true → rename name t = rename name' t → name = name'
  | .func _ _ _, _, heq => (Ty.func.inj heq).1
  | .list elem, h, heq => name_eq_of_rename name name' elem h (Ty.list.inj heq)
  | .dict key value, h, heq => by
      rw [hasFunction, Bool.or_eq_true] at h
      rcases h with h | h
      · exact name_eq_of_rename name name' key h (Ty.dict.inj heq).1
      · exact name_eq_of_rename name name' value h (Ty.dict.inj heq).2
  | .tuple elems, h, heq => name_eq_of_renameAll name name' elems h (Ty.tuple.inj heq)
  | .union members, h, heq => name_eq_of_renameAll name name' members h (Ty.union.inj heq)
  | .chan elem, h, heq => name_eq_of_rename name name' elem h (Ty.chan.inj heq)
  | .int, h, _ | .float, h, _ | .str, h, _ | .bool, h, _ | .void, h, _ | .null, h, _ | .unknown, h, _ | .cls _, h, _
  | .interface _, h, _ | .typeVar _, h, _ => by
      cases h

theorem name_eq_of_renameAll (name name' : Name) :
    (ts : List Ty) → haveFunction ts = true → renameAll name ts = renameAll name' ts → name = name'
  | t :: ts, h, heq => by
      rw [haveFunction, Bool.or_eq_true] at h
      rcases h with h | h
      · exact name_eq_of_rename name name' t h (List.cons.inj heq).1
      · exact name_eq_of_renameAll name name' ts h (List.cons.inj heq).2

end

/-! ## The law -/

/-- What the types of two functions have in common if the one is assignable to the other: as many parameters, of
types that go with each other, and a result that is assignable.  Whether it is does not depend on their names. -/
structure FunctionLaw (T : Tables) (ret ret' : Ty) (params params' : List Ty) : Prop where
  respects : ∀ name name', T.isAssignableTo (.func name ret params) (.func name' ret' params') = some true →
    params.length = params'.length ∧
    List.Forall₂ (fun p q => T.isAssignableTo p q = some true ∧ T.isAssignableTo q p = some true) params params' ∧
    T.isAssignableTo ret ret' = some true
  names : ∀ n n' m m', T.isAssignableTo (.func n ret params) (.func n' ret' params') =
    T.isAssignableTo (.func m ret params) (.func m' ret' params')

/-- The names of functions inside the parameters do not matter either. -/
def NestedNamesIrrelevant (T : Tables) (ret ret' : Ty) (params params' : List Ty) : Prop :=
  ∀ name name' ps ps', renameAll [] ps = renameAll [] params → renameAll [] ps' = renameAll [] params' →
    (T.isAssignableTo (.func name ret ps) (.func name' ret' ps') = some true ↔
      T.isAssignableTo (.func name ret params) (.func name' ret' params') = some true)

theorem respects_iff (ret ret' : Ty) (params params' : List Ty) :
    FunctionLaw T ret ret' params params' ↔ ¬ ParamsPass params params' ∨ T.isAssignableTo ret ret' = some true := by
  constructor
  · intro h
    by_cases hpass : ParamsPass params params'
    · exact .inr (h.respects [] [] ((assignable_funcs_iff ..).mpr hpass)).2.2
    · exact .inl hpass
  · intro h
    refine ⟨fun name name' hfits => ?_, fun n n' m m' => ?_⟩
    · have hpass := (assignable_funcs_iff ..).mp hfits
      exact ⟨hpass.1, hpass.compatible, h.resolve_left (not_not.mpr hpass)⟩
    · rw [isAssignableTo_func, isAssignableTo_func]

/-! ## Nested names -/

/-- Lists of types that differ in names only are paired alike. -/
theorem exists_renamed {ps ps' qs qs' : List Ty} (h : renameAll [] ps = renameAll [] qs)
    (h' : renameAll [] ps' = renameAll [] qs') {pair : Ty × Ty} (hmem : pair ∈ ps.zip ps') :
    ∃ pair' ∈ qs.zip qs', rename [] pair'.1 = rename [] pair.1 ∧ rename [] pair'.2 = rename [] pair.2 := by
  have hzip : (ps.zip ps').map (Prod.map (rename []) (rename [])) = (qs.zip qs').map (Prod.map (rename []) (rename [])) := by
    rw [← List.zip_map, ← List.zip_map, ← renameAll_eq_map, ← renameAll_eq_map, ← renameAll_eq_map, ← renameAll_eq_map,
      h, h']
  have himage := List.mem_map_of_mem (f := Prod.map (rename []) (rename [])) hmem
  rw [hzip] at himage
  obtain ⟨pair', hmem', heq⟩ := List.mem_map.mp himage
  exact ⟨pair', hmem', congrArg Prod.fst heq, congrArg Prod.snd heq⟩

theorem bothKnown_renamed {pair pair' : Ty × Ty} (h : rename [] pair'.1 = rename [] pair.1)
    (h' : rename [] pair'.2 = rename [] pair.2) : BothKnown pair' ↔ BothKnown pair := by
  rw [BothKnown, BothKnown, ← isUnknown_rename [] pair'.1, ← isUnknown_rename [] pair'.2, h, h', isUnknown_rename,
    isUnknown_rename]

theorem length_renameAll {ps qs : List Ty} (h : renameAll [] ps = renameAll [] qs) : ps.length = qs.length := by
  rw [renameAll_eq_map, renameAll_eq_map] at h
  simpa using congrArg List.length h

/-- Parameters that are known on both sides and free of functions, and the same up to names, are the same. -/
theorem eq_of_functionless (hp : hasFunction p = false) (h : rename [] p = rename [] q) : p = q := by
  have hq : hasFunction q = false := by
    rw [← hasFunction_rename [] q, ← h, hasFunction_rename, hp]
  rwa [rename_of_functionless [] p hp, rename_of_functionless [] q hq] at h

/-- **Nested names**: they matter where all of the parameters that are known on both sides are the same but for names,
and a function type occurs in one of them. -/
theorem nestedNames_iff (ret ret' : Ty) (params params' : List Ty) :
    NestedNamesIrrelevant T ret ret' params params' ↔
      params.length ≠ params'.length ∨
      (∃ pair ∈ params.zip params', BothKnown pair ∧ rename [] pair.1 ≠ rename [] pair.2) ∨
      ∀ pair ∈ params.zip params', BothKnown pair → hasFunction pair.1 = false := by
  constructor
  · intro h
    by_contra hnot
    rw [not_or, not_or, not_not] at hnot
    obtain ⟨hlength, hsame, hfunction⟩ := hnot
    have hrenamed (c c' : Name) := h [] [] (params.map (rename c)) (params'.map (rename c'))
      (by rw [← renameAll_eq_map, renameAll_renameAll]) (by rw [← renameAll_eq_map, renameAll_renameAll])
    simp only [assignable_funcs_iff] at hrenamed
    -- with one name for all functions the parameters pass
    have hpass : ParamsPass (params.map (rename [])) (params'.map (rename [])) := by
      refine ⟨by rw [List.length_map, List.length_map, hlength], fun pair hmem hknown => ?_⟩
      rw [List.zip_map] at hmem
      obtain ⟨original, horiginal, rfl⟩ := List.mem_map.mp hmem
      by_contra hne
      refine hsame ⟨original, horiginal, ?_, hne⟩
      exact (bothKnown_renamed (rename_rename [] [] original.1) (rename_rename [] [] original.2)).mp hknown
    -- and with two names they do not
    refine hfunction fun pair hmem hknown => ?_
    have hpass' := (hrenamed ['x'] []).mpr ((hrenamed [] []).mp hpass)
    by_contra htrue
    have hmem' : Prod.map (rename ['x']) (rename []) pair ∈ (params.map (rename ['x'])).zip (params'.map (rename [])) := by
      rw [List.zip_map]
      exact List.mem_map_of_mem hmem
    have heq : rename ['x'] pair.1 = rename [] pair.2 := hpass'.2 _ hmem'
      ((bothKnown_renamed (rename_rename [] ['x'] pair.1) (rename_rename [] [] pair.2)).mpr hknown)
    have hnames : rename [] pair.1 = rename [] pair.2 := by
      by_contra hne
      exact hsame ⟨pair, hmem, hknown, hne⟩
    rw [← hnames] at heq
    cases name_eq_of_rename ['x'] [] pair.1 (Bool.eq_true_of_not_eq_false htrue) heq
  · rintro (hlength | ⟨pair, hmem, hknown, hdiffer⟩ | hfunctionless) name name' ps ps' hps hps'
    · rw [assignable_funcs_iff, assignable_funcs_iff]
      refine iff_of_false (fun h => hlength ?_) fun h => hlength h.1
      rw [← length_renameAll hps, ← length_renameAll hps', h.1]
    · rw [assignable_funcs_iff, assignable_funcs_iff]
      refine iff_of_false (fun h => hdiffer ?_) fun h => hdiffer (congrArg _ (h.2 pair hmem hknown))
      obtain ⟨pair', hmem', hfst, hsnd⟩ := exists_renamed hps.symm hps'.symm hmem
      rw [← hfst, ← hsnd, h.2 pair' hmem' ((bothKnown_renamed hfst hsnd).mpr hknown)]
    · rw [assignable_funcs_iff, assignable_funcs_iff, ParamsPass, ParamsPass, length_renameAll hps, length_renameAll hps']
      refine and_congr_right fun _ => ⟨fun h pair hmem hknown => ?_, fun h pair hmem hknown => ?_⟩
      · obtain ⟨pair', hmem', hfst, hsnd⟩ := exists_renamed hps.symm hps'.symm hmem
        refine eq_of_functionless (hfunctionless pair hmem hknown) ?_
        rw [← hfst, ← hsnd, h pair' hmem' ((bothKnown_renamed hfst hsnd).mpr hknown)]
      · obtain ⟨pair', hmem', hfst, hsnd⟩ := exists_renamed hps hps' hmem
        have hknown' := (bothKnown_renamed hfst hsnd).mpr hknown
        refine eq_of_functionless ?_ (by rw [← hfst, ← hsnd, h pair' hmem' hknown'])
        rw [← hasFunction_rename [], ← hfst, hasFunction_rename, hfunctionless pair' hmem' hknown']

/-- **Function types**: the law holds where the parameters do not pass, or the results are assignable; and when the
names of nested functions matter. -/
theorem functionLaw_iff (T : Tables) (ret ret' : Ty) (params params' : List Ty) :
    (FunctionLaw T ret ret' params params' ↔ ¬ ParamsPass params params' ∨ T.isAssignableTo ret ret' = some true) ∧
    (NestedNamesIrrelevant T ret ret' params params' ↔
      params.length ≠ params'.length ∨
      (∃ pair ∈ params.zip params', BothKnown pair ∧ rename [] pair.1 ≠ rename [] pair.2) ∨
      ∀ pair ∈ params.zip params', BothKnown pair → hasFunction pair.1 = false) :=
  ⟨respects_iff ret ret' params params', nestedNames_iff ret ret' params params'⟩

/-- A function that gives a string, where one that gives an integer is expected. -/
theorem wrong_result_accepted : Tables.isAssignableTo {} (.func ['f'] .str []) (.func fnTypeName .int []) = some true ∧
    ¬ FunctionLaw {} .str .int [] [] := by
  refine ⟨rfl, fun h => ?_⟩
  cases (h.respects ['f'] fnTypeName rfl).2.2

end Visuall.Checker
