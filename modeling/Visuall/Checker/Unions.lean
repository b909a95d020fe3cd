import Visuall.Checker.Comparing

/-!
# Unions against unions

`isAssignableTo` tries the members of the union on the right, but takes the one on the left as a whole: it is the union
on the right, or one of its members.

* `within` — a union stands in a type as a whole;
* `assignable_union_within` — that is what `isAssignableTo` looks for;
* `UnionLaws` — a union is assignable where its members are, and a type to a union where it is to a member;
* `unionLaws_iff` — exactly where the laws hold.
-/

namespace Visuall.Checker

open Visuall.Ast Visuall.Types

variable {T : Tables} {given expected m : Ty} {members ms : List Ty}

/-! ## Unions as a whole -/

mutual

/-- A union is a type, or one of its members, or one of theirs; so it is in the types that accept all. -/
def within (members : List Ty) : Ty → Bool
  | .unknown | .typeVar _ => true
  | .union ms => typesEqual members ms || withinAny members ms
  | _ => false

def withinAny (members : List Ty) : List Ty → Bool
  | [] => false
  | t :: ts => within members t || withinAny members ts

end

theorem withinAny_iff : withinAny members ms = true ↔ ∃ t ∈ ms, within members t = true := by
  induction ms with
  | nil => simp [withinAny]
  | cons t ts ih => simp [withinAny, ih]

/-- A comparison of a union with a type that is neither a union nor accepts all. -/
theorem assignable_union_other (hexpected : ¬ Accepting expected) (hunion : kind expected ≠ .union) :
    T.isAssignableTo (.union members) expected = some false := by
  have hne : Ty.union members ≠ expected := by
    intro h
    rw [← h] at hunion
    exact hunion rfl
  rw [isAssignableTo_of_ne hne (by simp [Lenient, kind]) hexpected (by simp [kind])]
  cases expected <;> first | rfl | exact absurd rfl hunion

mutual

/-- A union on the left is looked for as a whole, which always ends. -/
theorem assignable_union_within (members : List Ty) :
    (expected : Ty) → T.isAssignableTo (.union members) expected = some (within members expected)
  | .unknown | .typeVar _ => assignable_of_accepting (by simp [Accepting, kind])
  | .union ms => by
      have hany := assignableToAny_within members ms
      rw [within]
      by_cases heq : members = ms
      · rw [heq, assignable_self, (typesEqual_iff ms ms).mpr rfl, Bool.true_or]
      · rw [isAssignableTo_union (fun h => heq (Ty.union.inj h)) (by simp [Lenient, kind]), hany,
          Bool.eq_false_iff.mpr fun h => heq ((typesEqual_iff _ _).mp h), Bool.false_or]
  | .int | .float | .str | .bool | .void | .null | .list _ | .dict _ _ | .tuple _ | .func _ _ _ | .cls _ | .interface _
  | .chan _ => assignable_union_other (by simp [Accepting, kind]) (by simp [kind])

theorem assignableToAny_within (members : List Ty) :
    (ms : List Ty) → T.isAssignableToAny (.union members) ms = some (withinAny members ms)
  | [] => rfl
  | t :: ts => by
      rw [isAssignableToAny_cons, assignable_union_within members t, assignableToAny_within members ts, withinAny]
      cases within members t <;> rfl

end

/-! ## A type against a union -/

/-- No member that is compared for ever stands before all those that a type is assignable to. -/
def Unobstructed (T : Tables) (given : Ty) (ms : List Ty) : Prop :=
  ∀ before m after, ms = before ++ m :: after → T.isAssignableTo given m = none →
    (∃ t ∈ before, T.isAssignableTo given t = some true) ∨ ∀ t ∈ after, T.isAssignableTo given t ≠ some true

theorem isAssignableToAny_ne_false (hm : m ∈ ms) (h : T.isAssignableTo given m ≠ some false) :
    T.isAssignableToAny given ms ≠ some false := by
  induction ms with
  | nil => cases hm
  | cons t ts ih =>
    rw [isAssignableToAny_cons]
    rcases ht : T.isAssignableTo given t with _ | _ | _
    · exact nofun
    · rcases List.mem_cons.mp hm with rfl | hm
      · exact absurd ht h
      · exact ih hm
    · exact nofun

/-- A scan that does not end has come to a member that is compared for ever. -/
theorem isAssignableToAny_none (h : T.isAssignableToAny given ms = none) :
    ∃ before t after, ms = before ++ t :: after ∧ (∀ u ∈ before, T.isAssignableTo given u = some false) ∧
      T.isAssignableTo given t = none := by
  induction ms with
  | nil => cases h
  | cons t ts ih =>
    rw [isAssignableToAny_cons] at h
    rcases ht : T.isAssignableTo given t with _ | _ | _
    · exact ⟨[], t, ts, rfl, fun u hu => absurd hu List.not_mem_nil, ht⟩
    · rw [ht] at h
      obtain ⟨before, u, after, rfl, hbefore, hu⟩ := ih h
      exact ⟨t :: before, u, after, rfl, List.forall_mem_cons.mpr ⟨ht, hbefore⟩, hu⟩
    · rw [ht] at h
      cases h

theorem isAssignableToAny_false (h : T.isAssignableToAny given ms = some false) (hm : m ∈ ms) :
    T.isAssignableTo given m = some false := by
  by_contra hnot
  exact isAssignableToAny_ne_false hm hnot h

/-- The scan does not come past a member that is compared for ever. -/
theorem not_fits_of_obstructed {before after : List Ty} (hbefore : ∀ t ∈ before, T.isAssignableTo given t ≠ some true)
    (hm : T.isAssignableTo given m = none) : T.isAssignableToAny given (before ++ m :: after) ≠ some true := by
  induction before with
  | nil =>
    rw [List.nil_append, isAssignableToAny_cons, hm]
    exact nofun
  | cons t ts ih =>
    rw [List.cons_append, isAssignableToAny_cons]
    rcases ht : T.isAssignableTo given t with _ | _ | _
    · exact nofun
    · exact ih fun u hu => hbefore u (List.mem_cons_of_mem _ hu)
    · exact absurd ht (hbefore t List.mem_cons_self)

/-- Where nothing is in the way, the scan finds a member. -/
theorem unobstructed_iff : Unobstructed T given ms ↔
    (T.isAssignableToAny given ms = some true ↔ ∃ t ∈ ms, T.isAssignableTo given t = some true) := by
  constructor
  · intro h
    refine ⟨isAssignableToAny_true, ?_⟩
    rintro ⟨t, ht, hfits⟩
    rcases hany : T.isAssignableToAny given ms with _ | _ | _
    · obtain ⟨before, m, after, rfl, hbefore, hm⟩ := isAssignableToAny_none hany
      rcases h before m after rfl hm with ⟨u, hu, hfits'⟩ | hafter
      · rw [hbefore u hu] at hfits'
        cases hfits'
      · rcases List.mem_append.mp ht with ht | ht
        · rw [hbefore t ht] at hfits
          cases hfits
        · rcases List.mem_cons.mp ht with rfl | ht
          · rw [hm] at hfits
            cases hfits
          · exact absurd hfits (hafter t ht)
    · rw [isAssignableToAny_false hany ht] at hfits
      cases hfits
    · rfl
  · intro h before m after hsplit hnone
    by_contra hnot
    rw [not_or] at hnot
    obtain ⟨hbefore, hafter⟩ := hnot
    rw [not_forall] at hafter
    obtain ⟨t, hafter⟩ := hafter
    rw [Classical.not_imp, not_not] at hafter
    have hany := h.mpr ⟨t, by rw [hsplit]; exact List.mem_append_right _ (List.mem_cons_of_mem _ hafter.1), hafter.2⟩
    rw [hsplit] at hany
    exact not_fits_of_obstructed (fun u hu hfits => hbefore ⟨u, hu, hfits⟩) hnone hany

/-! ## The laws -/

/-- The laws of assignability for one pair of types: a union is assignable where each of its members is, and another
type is assignable to a union where it is to some member. -/
structure UnionLaws (T : Tables) (given expected : Ty) : Prop where
  members : ∀ ms, given = .union ms →
    (T.isAssignableTo given expected = some true ↔ ∀ m ∈ ms, T.isAssignableTo m expected = some true)
  member : ∀ ms, kind given ≠ .union → expected = .union ms →
    (T.isAssignableTo given expected = some true ↔ ∃ m ∈ ms, T.isAssignableTo given m = some true)

/-- A union stands in the expected type as a whole and no member is compared for ever, or a member has no place there;
a type that goes with every other finds some member, and any other one is not held up before its member. -/
structure UnionCondition (T : Tables) (given expected : Ty) : Prop where
  members : ∀ ms, given = .union ms → if within ms expected then ∀ m ∈ ms, T.isAssignableTo m expected ≠ none
    else ∃ m ∈ ms, T.isAssignableTo m expected ≠ some true
  member : ∀ ms, kind given ≠ .union → expected = .union ms → if Lenient given then ms ≠ [] else Unobstructed T given ms

mutual

/-- The members of a union that stands in a type as a whole are not refused there. -/
theorem member_ne_false_of_within (hm : m ∈ members) :
    (expected : Ty) → within members expected = true → T.isAssignableTo m expected ≠ some false
  | .unknown, _ | .typeVar _, _ => by
      rw [assignable_of_accepting (by simp [Accepting, kind])]
      exact nofun
  | .union ms, h => by
      rw [within, Bool.or_eq_true] at h
      have hany : T.isAssignableToAny m ms ≠ some false := by
        rcases h with h | h
        · rw [(typesEqual_iff _ _).mp h] at hm
          exact isAssignableToAny_ne_false hm (by rw [assignable_self]; exact nofun)
        · exact memberAny_ne_false_of_within hm ms h
      rcases isAssignableTo_or (T := T) m (.union ms) with hfits | hsame
      · rw [hfits]
        exact nofun
      · rw [hsame, compareShapes_union]
        exact hany
  | .int, h | .float, h | .str, h | .bool, h | .void, h | .null, h | .list _, h | .dict _ _, h | .tuple _, h
  | .func _ _ _, h | .cls _, h | .interface _, h | .chan _, h => by
      cases h

theorem memberAny_ne_false_of_within (hm : m ∈ members) :
    (ms : List Ty) → withinAny members ms = true → T.isAssignableToAny m ms ≠ some false
  | [], h => by cases h
  | t :: ts, h => by
      rw [withinAny, Bool.or_eq_true] at h
      rw [isAssignableToAny_cons]
      rcases ht : T.isAssignableTo m t with _ | _ | _
      · exact nofun
      · rcases h with h | h
        · exact absurd ht (member_ne_false_of_within hm t h)
        · exact memberAny_ne_false_of_within hm ts h
      · exact nofun

end

theorem membersLaw_iff (ms : List Ty) (expected : Ty) :
    (T.isAssignableTo (.union ms) expected = some true ↔ ∀ m ∈ ms, T.isAssignableTo m expected = some true) ↔
      if within ms expected then ∀ m ∈ ms, T.isAssignableTo m expected ≠ none
      else ∃ m ∈ ms, T.isAssignableTo m expected ≠ some true := by
  rw [assignable_union_within]
  cases hwithin : within ms expected with
  | true =>
    rw [if_pos rfl]
    constructor
    · intro h m hm hnone
      rw [h.mp rfl m hm] at hnone
      cases hnone
    · intro h
      refine iff_of_true rfl fun m hm => ?_
      rcases hfits : T.isAssignableTo m expected with _ | _ | _
      · exact absurd hfits (h m hm)
      · exact absurd hfits (member_ne_false_of_within hm expected hwithin)
      · rfl
  | false =>
    rw [if_neg (by decide)]
    constructor
    · intro h
      by_contra hnot
      have hall : ∀ m ∈ ms, T.isAssignableTo m expected = some true := by
        intro m hm
        by_contra hm'
        exact hnot ⟨m, hm, hm'⟩
      cases h.mpr hall
    · rintro ⟨m, hm, hrefused⟩
      exact iff_of_false nofun fun h => hrefused (h m hm)

theorem memberLaw_iff (hgiven : kind given ≠ .union) (ms : List Ty) :
    (T.isAssignableTo given (.union ms) = some true ↔ ∃ m ∈ ms, T.isAssignableTo given m = some true) ↔
      if Lenient given then ms ≠ [] else Unobstructed T given ms := by
  by_cases hlenient : Lenient given
  · rw [if_pos hlenient, assignable_of_lenient hlenient]
    constructor
    · intro h hempty
      obtain ⟨m, hm, -⟩ := h.mp rfl
      rw [hempty] at hm
      cases hm
    · intro h
      obtain ⟨m, ms', rfl⟩ := List.exists_cons_of_ne_nil h
      exact iff_of_true rfl ⟨m, List.mem_cons_self, assignable_of_lenient hlenient⟩
  · rw [if_neg hlenient, unobstructed_iff, isAssignableTo_union _ hlenient]
    intro h
    rw [h] at hgiven
    exact hgiven rfl

theorem laws_iff_condition (given expected : Ty) : UnionLaws T given expected ↔ UnionCondition T given expected := by
  constructor
  · intro h
    refine ⟨?_, ?_⟩
    · rintro ms rfl
      exact (membersLaw_iff ms expected).mp (h.members ms rfl)
    · rintro ms hkind rfl
      exact (memberLaw_iff hkind ms).mp (h.member ms hkind rfl)
  · intro h
    refine ⟨?_, ?_⟩
    · rintro ms rfl
      exact (membersLaw_iff ms expected).mpr (h.members ms rfl)
    · rintro ms hkind rfl
      exact (memberLaw_iff hkind ms).mpr (h.member ms hkind rfl)

/-! ## What follows from the laws -/

/-- Two unions of the same members, in any order and any number. -/
def SameMembers (ms ms' : List Ty) : Prop := ∀ t, t ∈ ms ↔ t ∈ ms'

/-- What follows from the laws: the order and the number of the members do not matter on either side, and a union is
assignable to a wider one. -/
structure Consequences (T : Tables) : Prop where
  left : ∀ ms ms' expected, SameMembers ms ms' → UnionLaws T (.union ms) expected → UnionLaws T (.union ms') expected →
    (T.isAssignableTo (.union ms) expected = some true ↔ T.isAssignableTo (.union ms') expected = some true)
  right : ∀ given ms ms', SameMembers ms ms' → UnionLaws T given (.union ms) → UnionLaws T given (.union ms') →
    (∀ us, given = .union us → ∀ u ∈ us,
      (T.isAssignableTo u (.union ms) = some true ↔ T.isAssignableTo u (.union ms') = some true)) →
    (T.isAssignableTo given (.union ms) = some true ↔ T.isAssignableTo given (.union ms') = some true)
  wider : ∀ ms ms', ms ⊆ ms' → UnionLaws T (.union ms) (.union ms') → (∀ m ∈ ms, UnionLaws T m (.union ms')) →
    T.isAssignableTo (.union ms) (.union ms') = some true

theorem consequences (T : Tables) : Consequences T where
  left := by
    intro ms ms' expected hsame h h'
    rw [h.members ms rfl, h'.members ms' rfl]
    exact forall_congr' fun m => imp_congr_left (hsame m)
  right := by
    intro given ms ms' hsame h h' hmembers
    by_cases hkind : kind given = .union
    · cases given with
      | union us =>
        rw [h.members us rfl, h'.members us rfl]
        exact forall_congr' fun u => forall_congr' fun hu => hmembers us rfl u hu
      | _ => cases hkind
    · rw [h.member ms hkind rfl, h'.member ms' hkind rfl]
      exact exists_congr fun m => and_congr_left fun _ => hsame m
  wider := by
    intro ms ms' hsubset h hmembers
    rw [h.members ms rfl]
    intro m hm
    by_cases hkind : kind m = .union
    · cases m with
      | union us =>
        have hself : within us (.union us) = true := by
          rw [within, (typesEqual_iff us us).mpr rfl, Bool.true_or]
        rw [assignable_union_within, within, withinAny_iff.mpr ⟨_, hsubset hm, hself⟩, Bool.or_true]
      | _ => cases hkind
    · exact ((hmembers m hm).member ms' hkind rfl).mpr ⟨m, hsubset hm, assignable_self m⟩

/-- **Where assignability of unions is inclusion of sets**, and what follows from it there. -/
theorem unionLaws_iff (T : Tables) :
    (∀ given expected, UnionLaws T given expected ↔ UnionCondition T given expected) ∧ Consequences T :=
  ⟨laws_iff_condition, consequences T⟩

/-- `int | str` is not assignable to `int | str | float`. -/
theorem wider_union_refused : ¬ UnionLaws {} (.union [.int, .str]) (.union [.int, .str, .float]) := by
  intro h
  have hmembers : ∀ m ∈ [Ty.int, Ty.str], Tables.isAssignableTo {} m (.union [.int, .str, .float]) = some true := by
    intro m hm
    fin_cases hm <;> rfl
  have hfits := (h.members _ rfl).mpr hmembers
  rw [assignable_union_within] at hfits
  cases hfits

end Visuall.Checker
