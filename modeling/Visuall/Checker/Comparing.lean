import Visuall.Checker.Assignable

/-!
# Comparisons of types, shape by shape

`isAssignableTo` asks a few questions before it looks into the two types.  Where both have the same shape these
questions change nothing, so each shape has an equation of its own.

* `Lenient`, `Accepting` — the types that go with every other, as the given one and as the expected one;
* `isAssignableTo_list`, …, `isAssignableTo_union` — the equations;
* `assignable_list_iff`, …, `assignable_interface_iff` — what is assignable to a type of each shape.
-/

namespace Visuall.Checker

open Visuall.Ast Visuall.Types

variable {T : Tables} {given expected : Ty}

/-! ## Types that go with every other -/

/-- Types that are assignable to every other. -/
def Lenient (given : Ty) : Prop := kind given = .unknown ∨ kind given = .null ∨ kind given = .typeVar

/-- Types that every other is assignable to. -/
def Accepting (expected : Ty) : Prop := kind expected = .unknown ∨ kind expected = .typeVar

instance (given : Ty) : Decidable (Lenient given) :=
  inferInstanceAs (Decidable (kind given = .unknown ∨ kind given = .null ∨ kind given = .typeVar))

instance (expected : Ty) : Decidable (Accepting expected) :=
  inferInstanceAs (Decidable (kind expected = .unknown ∨ kind expected = .typeVar))

/-- What `isAssignableTo` does once its first questions are answered no. -/
def compareShapes (T : Tables) : Ty → Ty → Option Bool
  | given, .union members => T.isAssignableToAny given members
  | .cls name, .cls name' => T.isSubtype (.cls name) (.cls name')
  | .list elem, .list elem' =>
      if isUnknown elem' || isUnknown elem then some true else T.isAssignableTo elem elem'
  | .dict key value, .dict key' value' =>
      if isUnknown key' && isUnknown value' then some true
      else if isUnknown key && isUnknown value then some true
      else do
        if ← T.isAssignableTo key key' then T.isAssignableTo value value' else some false
  | .tuple elems, .tuple elems' =>
      if elems' = [] then some true
      else if elems.length ≠ elems'.length then some false
      else T.areAssignableTo elems elems'
  | .func _ _ params, .func _ _ params' =>
      if params.length ≠ params'.length then some false else some (Tables.paramsAgree params params')
  | .cls name, .interface name' => T.classImplementsInterface name name'
  | _, _ => some false

theorem isAssignableTo_eq (given expected : Ty) : T.isAssignableTo given expected =
    if typeEquals given expected then some true
    else if isUnknown given || isUnknown expected then some true
    else if kind given = .null then some true
    else if kind given = .typeVar || kind expected = .typeVar then some true
    else if kind given = .int && kind expected = .float then some true
    else compareShapes T given expected := by
  rw [Tables.isAssignableTo.eq_def]
  rfl

theorem assignable_self (t : Ty) : T.isAssignableTo t t = some true := by
  rw [isAssignableTo_eq, if_pos ((typeEquals_iff t t).mpr rfl)]

/-- Unknown types go with every other. -/
theorem assignable_of_unknown (h : isUnknown given = true ∨ isUnknown expected = true) :
    T.isAssignableTo given expected = some true := by
  rw [isAssignableTo_eq]
  by_cases heq : typeEquals given expected = true
  · rw [if_pos heq]
  · rw [if_neg heq, if_pos]
    rw [Bool.or_eq_true]
    exact h

theorem assignable_unknown (given : Ty) : T.isAssignableTo given .unknown = some true :=
  assignable_of_unknown (.inr rfl)

theorem assignable_of_lenient (h : Lenient given) : T.isAssignableTo given expected = some true := by
  rw [isAssignableTo_eq]
  rcases h with h | h | h
  · simp [isUnknown, h]
  · simp [isUnknown, h]
  · simp [isUnknown, h]

theorem assignable_of_accepting (h : Accepting expected) : T.isAssignableTo given expected = some true := by
  rw [isAssignableTo_eq]
  rcases h with h | h
  · simp [isUnknown, h]
  · simp [isUnknown, h]

/-! ## Two types of one shape -/

theorem isAssignableTo_of_ne (hne : given ≠ expected) (hgiven : ¬ Lenient given) (hexpected : ¬ Accepting expected)
    (hnumeric : ¬ (kind given = .int ∧ kind expected = .float)) :
    T.isAssignableTo given expected = compareShapes T given expected := by
  have hequals : typeEquals given expected = false := Bool.eq_false_iff.mpr fun h => hne ((typeEquals_iff _ _).mp h)
  unfold Lenient at hgiven
  unfold Accepting at hexpected
  rw [not_or, not_or] at hgiven
  rw [not_or] at hexpected
  have hpromoted : (decide (kind given = .int) && decide (kind expected = .float)) = false := by simpa using hnumeric
  rw [isAssignableTo_eq]
  simp only [hequals, isUnknown, hgiven, hexpected, hpromoted, decide_false, Bool.or_self, Bool.false_eq_true, if_false]

/-- The first questions are only answered yes, or not at all. -/
theorem isAssignableTo_or (given expected : Ty) :
    T.isAssignableTo given expected = some true ∨ T.isAssignableTo given expected = compareShapes T given expected := by
  by_cases hne : given = expected
  · rw [hne]
    exact .inl (assignable_self _)
  · by_cases hgiven : Lenient given
    · exact .inl (assignable_of_lenient hgiven)
    · by_cases hexpected : Accepting expected
      · exact .inl (assignable_of_accepting hexpected)
      · by_cases hnumeric : kind given = .int ∧ kind expected = .float
        · refine .inl ?_
          rw [isAssignableTo_eq]
          simp [hnumeric.1, hnumeric.2]
        · exact .inr (isAssignableTo_of_ne hne hgiven hexpected hnumeric)

theorem ends_of_compareShapes (h : compareShapes T given expected ≠ none) : T.isAssignableTo given expected ≠ none := by
  rcases isAssignableTo_or given expected with hfits | hsame
  · rw [hfits]
    exact Option.some_ne_none _
  · rwa [hsame]

theorem compareShapes_union (given : Ty) (members : List Ty) :
    compareShapes T given (.union members) = T.isAssignableToAny given members := by
  cases given <;> rfl

theorem isAssignableTo_list (elem elem' : Ty) :
    T.isAssignableTo (.list elem) (.list elem') = T.isAssignableTo elem elem' := by
  by_cases heq : elem = elem'
  · rw [heq, assignable_self, assignable_self]
  · rw [isAssignableTo_of_ne (fun h => heq (Ty.list.inj h)) (by simp [Lenient, kind]) (by simp [Accepting, kind]) (by simp [kind])]
    show (if isUnknown elem' || isUnknown elem then some true else T.isAssignableTo elem elem') = _
    split_ifs with hunknown
    · rw [Bool.or_eq_true] at hunknown
      exact (assignable_of_unknown hunknown.symm).symm
    · rfl

theorem isAssignableTo_dict (key value key' value' : Ty) : T.isAssignableTo (.dict key value) (.dict key' value') =
    (T.isAssignableTo key key').bind fun fits => if fits then T.isAssignableTo value value' else some false := by
  by_cases heq : Ty.dict key value = Ty.dict key' value'
  · obtain ⟨rfl, rfl⟩ := Ty.dict.inj heq
    rw [assignable_self, assignable_self, assignable_self]
    rfl
  · rw [isAssignableTo_of_ne heq (by simp [Lenient, kind]) (by simp [Accepting, kind]) (by simp [kind])]
    show (if isUnknown key' && isUnknown value' then some true
      else if isUnknown key && isUnknown value then some true else _) = _
    split_ifs with hexpected hgiven
    · rw [Bool.and_eq_true] at hexpected
      rw [assignable_of_unknown (.inr hexpected.1), assignable_of_unknown (.inr hexpected.2)]
      rfl
    · rw [Bool.and_eq_true] at hgiven
      rw [assignable_of_unknown (.inl hgiven.1), assignable_of_unknown (.inl hgiven.2)]
      rfl
    · rfl

theorem areAssignableTo_cons (given expected : Ty) (gs es : List Ty) :
    T.areAssignableTo (given :: gs) (expected :: es) =
      (T.isAssignableTo given expected).bind fun fits => if fits then T.areAssignableTo gs es else some false := by
  rw [Tables.areAssignableTo]
  split_ifs with hunknown
  · rw [Bool.or_eq_true] at hunknown
    rw [assignable_of_unknown hunknown.symm]
    rfl
  · rfl

theorem areAssignableTo_self (ts : List Ty) : T.areAssignableTo ts ts = some true := by
  induction ts with
  | nil => rfl
  | cons t ts ih =>
    rw [areAssignableTo_cons, assignable_self]
    exact ih

theorem isAssignableTo_tuple (elems elems' : List Ty) : T.isAssignableTo (.tuple elems) (.tuple elems') =
    if elems' = [] then some true
    else if elems.length ≠ elems'.length then some false
    else T.areAssignableTo elems elems' := by
  by_cases heq : elems = elems'
  · rw [heq, assignable_self, areAssignableTo_self, if_neg (not_not.mpr rfl), ite_self]
  · exact isAssignableTo_of_ne (fun h => heq (Ty.tuple.inj h)) (by simp [Lenient, kind]) (by simp [Accepting, kind]) (by simp [kind])

theorem paramsAgree_self (ts : List Ty) : Tables.paramsAgree ts ts = true := by
  induction ts with
  | nil => rfl
  | cons t ts ih =>
    rw [Tables.paramsAgree, List.zip_cons_cons, List.all_cons, Bool.and_eq_true]
    exact ⟨by rw [(typeEquals_iff t t).mpr rfl, Bool.or_true], ih⟩

theorem isAssignableTo_func (name name' : Name) (ret ret' : Ty) (params params' : List Ty) :
    T.isAssignableTo (.func name ret params) (.func name' ret' params') =
      some (decide (params.length = params'.length) && Tables.paramsAgree params params') := by
  by_cases heq : Ty.func name ret params = Ty.func name' ret' params'
  · obtain ⟨rfl, rfl, rfl⟩ := Ty.func.inj heq
    rw [assignable_self, paramsAgree_self, decide_eq_true rfl]
    rfl
  · rw [isAssignableTo_of_ne heq (by simp [Lenient, kind]) (by simp [Accepting, kind]) (by simp [kind])]
    show (if params.length ≠ params'.length then some false else some (Tables.paramsAgree params params')) = _
    by_cases hlength : params.length = params'.length
    · rw [if_neg (not_not.mpr hlength), decide_eq_true hlength, Bool.true_and]
    · rw [if_pos hlength, decide_eq_false hlength, Bool.false_and]

theorem isAssignableTo_cls (name name' : Name) :
    T.isAssignableTo (.cls name) (.cls name') = T.isSubtype (.cls name) (.cls name') := by
  by_cases heq : Ty.cls name = Ty.cls name'
  · rw [heq, assignable_self, Tables.isSubtype, if_pos ((typeEquals_iff _ _).mpr rfl)]
  · exact isAssignableTo_of_ne heq (by simp [Lenient, kind]) (by simp [Accepting, kind]) (by simp [kind])

theorem isAssignableTo_interface (name name' : Name) :
    T.isAssignableTo (.cls name) (.interface name') = T.classImplementsInterface name name' :=
  isAssignableTo_of_ne nofun (by simp [Lenient, kind]) (by simp [Accepting, kind]) (by simp [kind])

/-! ## Other pairs of types -/

theorem isAssignableTo_union {members : List Ty} (hne : given ≠ .union members) (hgiven : ¬ Lenient given) :
    T.isAssignableTo given (.union members) = T.isAssignableToAny given members := by
  rw [isAssignableTo_of_ne hne hgiven (by simp [Accepting, kind]) (by simp [kind]), compareShapes_union]

theorem isAssignableToAny_cons (given m : Ty) (ms : List Ty) : T.isAssignableToAny given (m :: ms) =
    (T.isAssignableTo given m).bind fun fits => if fits then some true else T.isAssignableToAny given ms := by
  rw [Tables.isAssignableToAny]
  rfl

/-! ## What is assignable to a type -/

theorem assignable_lists {elem elem' : Ty} :
    T.isAssignableTo (.list elem) (.list elem') = some true ↔ T.isAssignableTo elem elem' = some true := by
  rw [isAssignableTo_list]

theorem assignable_dicts {key value key' value' : Ty} :
    T.isAssignableTo (.dict key value) (.dict key' value') = some true ↔
      T.isAssignableTo key key' = some true ∧ T.isAssignableTo value value' = some true := by
  rw [isAssignableTo_dict]
  cases T.isAssignableTo key key' with
  | none => simp
  | some ok => cases ok <;> simp

theorem areAssignable_iff {gs es : List Ty} (hlength : gs.length = es.length) :
    T.areAssignableTo gs es = some true ↔ List.Forall₂ (fun g e => T.isAssignableTo g e = some true) gs es := by
  induction gs generalizing es with
  | nil =>
    obtain rfl : es = [] := List.length_eq_zero_iff.mp hlength.symm
    simp [Tables.areAssignableTo]
  | cons g gs ih =>
    cases es with
    | nil => cases hlength
    | cons e es =>
      rw [List.forall₂_cons, ← ih (Nat.succ.inj hlength), areAssignableTo_cons]
      cases T.isAssignableTo g e with
      | none => simp
      | some ok => cases ok <;> simp

theorem assignable_tuples {gs es : List Ty} :
    T.isAssignableTo (.tuple gs) (.tuple es) = some true ↔
      es = [] ∨ List.Forall₂ (fun g e => T.isAssignableTo g e = some true) gs es := by
  rw [isAssignableTo_tuple]
  by_cases hempty : es = []
  · simp [hempty]
  · by_cases hlength : gs.length = es.length
    · simp [hempty, hlength, areAssignable_iff hlength]
    · simp [hempty, hlength]
      exact fun h => hlength h.length_eq

/-- Types of two shapes that do not go together. -/
theorem assignable_other (hshapes : compareShapes T given expected = some false) (hne : given ≠ expected)
    (hexpected : ¬ Accepting expected) (hnumeric : ¬ (kind given = .int ∧ kind expected = .float)) :
    T.isAssignableTo given expected = some true ↔ Lenient given := by
  by_cases hgiven : Lenient given
  · exact iff_of_true (assignable_of_lenient hgiven) hgiven
  · rw [isAssignableTo_of_ne hne hgiven hexpected hnumeric, hshapes]
    exact iff_of_false nofun hgiven

theorem assignable_list_iff {given elem : Ty} : T.isAssignableTo given (.list elem) = some true ↔
    Lenient given ∨ ∃ elem', given = .list elem' ∧ T.isAssignableTo elem' elem = some true := by
  cases given with
  | list elem' => simp [assignable_lists, Lenient, kind]
  | _ =>
    refine Iff.trans (assignable_other rfl nofun (by simp [Accepting, kind]) (by simp [kind])) ?_
    simp

theorem assignable_dict_iff {given key value : Ty} : T.isAssignableTo given (.dict key value) = some true ↔
    Lenient given ∨ ∃ key' value', given = .dict key' value' ∧ T.isAssignableTo key' key = some true ∧
      T.isAssignableTo value' value = some true := by
  cases given with
  | dict key' value' => simp [assignable_dicts, Lenient, kind]
  | _ =>
    refine Iff.trans (assignable_other rfl nofun (by simp [Accepting, kind]) (by simp [kind])) ?_
    simp

theorem assignable_tuple_iff {given : Ty} {es : List Ty} : T.isAssignableTo given (.tuple es) = some true ↔
    Lenient given ∨ ∃ gs, given = .tuple gs ∧
      (es = [] ∨ List.Forall₂ (fun g e => T.isAssignableTo g e = some true) gs es) := by
  cases given with
  | tuple gs => simp [assignable_tuples, Lenient, kind]
  | _ =>
    refine Iff.trans (assignable_other rfl nofun (by simp [Accepting, kind]) (by simp [kind])) ?_
    simp

theorem assignable_func_iff {given ret : Ty} {name : Name} {params : List Ty} :
    T.isAssignableTo given (.func name ret params) = some true ↔
      Lenient given ∨ ∃ name' ret' params', given = .func name' ret' params' ∧ params'.length = params.length ∧
        Tables.paramsAgree params' params = true := by
  cases given with
  | func name' ret' params' => simp [isAssignableTo_func, Lenient, kind]
  | _ =>
    refine Iff.trans (assignable_other rfl nofun (by simp [Accepting, kind]) (by simp [kind])) ?_
    simp

theorem assignable_cls_iff {given : Ty} {name : Name} : T.isAssignableTo given (.cls name) = some true ↔
    Lenient given ∨ ∃ name', given = .cls name' ∧ T.isSubtype (.cls name') (.cls name) = some true := by
  cases given with
  | cls name' => simp [isAssignableTo_cls, Lenient, kind]
  | _ =>
    refine Iff.trans (assignable_other rfl nofun (by simp [Accepting, kind]) (by simp [kind])) ?_
    simp

theorem assignable_interface_iff {given : Ty} {name : Name} : T.isAssignableTo given (.interface name) = some true ↔
    Lenient given ∨ given = .interface name ∨
      ∃ name', given = .cls name' ∧ T.classImplementsInterface name' name = some true := by
  cases given with
  | cls name' => simp [isAssignableTo_interface, Lenient, kind]
  | interface name' =>
    by_cases heq : Ty.interface name' = .interface name
    · rw [heq, assignable_self]
      exact iff_of_true rfl (.inr (.inl rfl))
    · refine Iff.trans (assignable_other rfl heq (by simp [Accepting, kind]) (by simp [kind])) ?_
      simp only [heq, reduceCtorEq, false_and, exists_false, or_false]
  | _ =>
    refine Iff.trans (assignable_other rfl nofun (by simp [Accepting, kind]) (by simp [kind])) ?_
    simp

theorem assignable_float_iff {given : Ty} : T.isAssignableTo given .float = some true ↔
    Lenient given ∨ given = .int ∨ given = .float := by
  cases given with
  | int => simp [isAssignableTo_eq, typeEquals, kind, isUnknown]
  | float => simp [assignable_self]
  | _ =>
    refine Iff.trans (assignable_other rfl nofun (by simp [Accepting, kind]) (by simp [kind])) ?_
    simp

/-- To the other types only they themselves are assignable. -/
theorem assignable_plain_iff {given expected : Ty} (h : expected ∈ [.int, .str, .bool, .void, .null] ∨ ∃ t, expected = .chan t) :
    T.isAssignableTo given expected = some true ↔ Lenient given ∨ given = expected := by
  by_cases heq : given = expected
  · rw [heq, assignable_self]
    exact iff_of_true rfl (.inr rfl)
  · by_cases hgiven : Lenient given
    · exact iff_of_true (assignable_of_lenient hgiven) (.inl hgiven)
    · refine iff_of_false ?_ (not_or.mpr ⟨hgiven, heq⟩)
      have hshapes : compareShapes T given expected = some false := by
        rcases h with h | ⟨t, rfl⟩
        · fin_cases h <;> cases given <;> rfl
        · cases given <;> rfl
      rw [isAssignableTo_of_ne heq hgiven, hshapes]
      · exact nofun
      · rcases h with h | ⟨t, rfl⟩
        · fin_cases h <;> simp [Accepting, kind]
        · simp [Accepting, kind]
      · rcases h with h | ⟨t, rfl⟩
        · fin_cases h <;> simp [kind]
        · simp [kind]

/-- What is assignable to a member is so to the union, unless another member is never done with. -/
theorem isAssignableToAny_true {members : List Ty} (h : T.isAssignableToAny given members = some true) :
    ∃ m ∈ members, T.isAssignableTo given m = some true := by
  induction members with
  | nil => cases h
  | cons m ms ih =>
    rw [isAssignableToAny_cons] at h
    cases hm : T.isAssignableTo given m with
    | none =>
      rw [hm] at h
      cases h
    | some fits =>
      rw [hm] at h
      cases fits with
      | true => exact ⟨m, List.mem_cons_self, hm⟩
      | false =>
        obtain ⟨m', hm', hfits⟩ := ih h
        exact ⟨m', List.mem_cons_of_mem _ hm', hfits⟩

end Visuall.Checker
