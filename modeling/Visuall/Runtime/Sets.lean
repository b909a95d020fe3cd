import Visuall.Runtime.Lists

/-!
# Sets

The sets of `stdlib/runtime.c`: an array that is searched from its start, appended to, and shortened by moving
its last element into the gap.

* `setAdd`, `setRemove`, `setUnion`, `setIntersect`, … — the functions;
* `Elements s S` — the array lists each element of a finite set once;
* `SetOp`, `stepSets` — a program that uses sets through handles, and `abstractSets`, the same on finite sets;
* `runSets_refines` — every run of the first is a run of the second, as far as every set has room.
-/

namespace Visuall.Runtime

/-- `VisualSet` has the fields of `VisualList`, and its buffer starts and grows as that of a list. -/
abbrev VisualSet := VisualList Int64

/-- `__visuall_set_new`. -/
def setNew : VisualSet := listNew Int64

/-- `set_find_idx`; `none` is -1. -/
def setFindIdx (s : VisualSet) (val : Int64) : Option ℕ := s.data.findIdx? (· == val)

/-- The end of `__visuall_set_add`: the steps of `__visuall_list_push`, with messages of its own. -/
def setAppend (s : VisualSet) (val : Int64) : Except Stop VisualSet :=
  match listPush s val with
  | .ok out => .ok out
  | .error (.exit "list capacity overflow\n") => .error (.exit "set capacity overflow\n")
  | .error (.exit "list allocation size overflow\n") => .error (.exit "set allocation size overflow\n")
  | .error stop => .error stop

/-- `__visuall_set_add`, on a set that is not NULL. -/
def setAdd (s : VisualSet) (val : Int64) : Except Stop VisualSet :=
  if (setFindIdx s val).isSome then .ok s else setAppend s val

/-- The array with its last element at `idx`, one shorter. -/
def swapWithLast (s : VisualSet) (idx : ℕ) (last : Int64) : VisualSet :=
  { s with
    data := (s.data.set idx last).dropLast
    fits := by
      rw [List.length_dropLast, List.length_set]
      exact (Nat.sub_le _ _).trans s.fits }

/-- `__visuall_set_remove`, on a set that is not NULL. -/
def setRemove (s : VisualSet) (val : Int64) : Except Stop VisualSet :=
  match setFindIdx s val with
  | none => .ok s
  | some idx => do return swapWithLast s idx (← readAt s.data (s.data.length - 1))

/-- `__visuall_set_contains`; `none` is NULL. -/
def setContains : Option VisualSet → Int64 → Bool
  | none, _ => false
  | some s, val => (setFindIdx s val).isSome

/-- `__visuall_set_size`. -/
def setSize : Option VisualSet → ℕ
  | none => 0
  | some s => s.data.length

/-- `__visuall_set_to_list`. -/
def setToList : Option VisualSet → Except Stop (VisualList Int64)
  | none => .ok (listNew Int64)
  | some s => s.data.foldlM listPush (listNew Int64)

/-- `if (s) for (…) __visuall_set_add(out, s->data[i])`. -/
def addElements (out : VisualSet) : Option VisualSet → Except Stop VisualSet
  | none => .ok out
  | some s => s.data.foldlM setAdd out

/-- `__visuall_set_union`. -/
def setUnion (a b : Option VisualSet) : Except Stop VisualSet := do
  let out ← addElements setNew a
  addElements out b

/-- `__visuall_set_intersect`. -/
def setIntersect : Option VisualSet → Option VisualSet → Except Stop VisualSet
  | some a, some b => a.data.foldlM (fun out x => if setContains (some b) x then setAdd out x else .ok out) setNew
  | _, _ => .ok setNew

/-! ### One set -/

/-- The array lists each element of the set once. -/
structure Elements (s : VisualSet) (S : Finset Int64) : Prop where
  nodup : s.data.Nodup
  toFinset : s.data.toFinset = S

theorem setNew_elements : Elements setNew ∅ := ⟨List.nodup_nil, rfl⟩

namespace Elements

variable {s out : VisualSet} {S : Finset Int64} {val : Int64}

theorem mem_iff (h : Elements s S) : val ∈ s.data ↔ val ∈ S := by
  rw [← h.toFinset, List.mem_toFinset]

theorem length_eq (h : Elements s S) : s.data.length = S.card := by
  rw [← h.toFinset, List.toFinset_card_of_nodup h.nodup]

theorem card_le (h : Elements s S) : S.card ≤ maxLength := h.length_eq ▸ s.length_le

/-- The search finds what is in the set. -/
theorem find_isSome (h : Elements s S) : (setFindIdx s val).isSome ↔ val ∈ S := by
  rw [setFindIdx, List.findIdx?_isSome, List.any_eq_true, ← h.mem_iff]
  constructor
  · rintro ⟨x, hx, heq⟩
    rwa [← eq_of_beq heq]
  · exact fun hmem => ⟨val, hmem, beq_self_eq_true val⟩

theorem contains (h : Elements s S) : setContains (some s) val = decide (val ∈ S) := by
  rw [setContains, Bool.eq_iff_iff, h.find_isSome, decide_eq_true_iff]

/-- An element that is new stands behind the others. -/
theorem append (h : Elements s S) (hnew : val ∉ S) (hdata : out.data = s.data ++ [val]) :
    Elements out (insert val S) := by
  have hnot : val ∉ s.data := fun hmem => hnew (h.mem_iff.mp hmem)
  constructor
  · rw [hdata]
    exact List.nodup_append_comm.mp (List.nodup_cons.mpr ⟨hnot, h.nodup⟩)
  · rw [hdata, List.toFinset_append, h.toFinset, Finset.union_comm]
    rfl

end Elements

theorem setAppend_of_ok {s out : VisualSet} {val : Int64} (h : setAppend s val = .ok out) :
    out.data = s.data ++ [val] := by
  unfold setAppend at h
  split at h
  · rename_i next hpush
    cases h
    have hlt : s.data.length < maxLength :=
      lt_of_le_of_ne s.length_le fun heq => listPush_full heq hpush
    obtain ⟨out, hpush', hdata⟩ := listPush_ok s val hlt
    rw [hpush'] at hpush
    cases hpush
    exact hdata
  all_goals cases h

theorem setAppend_ok {s : VisualSet} (val : Int64) (h : s.data.length < maxLength) :
    ∃ out, setAppend s val = .ok out := by
  obtain ⟨out, hpush, -⟩ := listPush_ok s val h
  exact ⟨out, by rw [setAppend, hpush]⟩

section Add

variable {s out : VisualSet} {S : Finset Int64}

theorem setAdd_elements {val : Int64} (h : Elements s S) (hadd : setAdd s val = .ok out) :
    Elements out (insert val S) := by
  unfold setAdd at hadd
  by_cases hmem : val ∈ S
  · rw [if_pos (h.find_isSome.mpr hmem)] at hadd
    cases hadd
    rwa [Finset.insert_eq_of_mem hmem]
  · rw [if_neg fun hfound => hmem (h.find_isSome.mp hfound)] at hadd
    exact h.append hmem (setAppend_of_ok hadd)

theorem setAdd_ok (h : Elements s S) (val : Int64) (hroom : (insert val S).card ≤ maxLength) :
    ∃ out, setAdd s val = .ok out := by
  unfold setAdd
  by_cases hmem : val ∈ S
  · exact ⟨s, if_pos (h.find_isSome.mpr hmem)⟩
  · rw [if_neg fun hfound => hmem (h.find_isSome.mp hfound)]
    rw [Finset.card_insert_of_notMem hmem] at hroom
    exact setAppend_ok val (by rw [h.length_eq]; omega)

/-- The loops of `__visuall_set_union`. -/
theorem addAll_elements {values : List Int64} (h : Elements s S) (hall : values.foldlM setAdd s = .ok out) :
    Elements out (S ∪ values.toFinset) := by
  induction values generalizing s S with
  | nil =>
      cases hall
      rwa [List.toFinset_nil, Finset.union_empty]
  | cons val values ih =>
      rw [List.foldlM_cons] at hall
      obtain ⟨next, hadd, hrest⟩ := Effect.ok_of_bind hall
      have hout := ih (setAdd_elements h hadd) hrest
      rwa [List.toFinset_cons, Finset.union_insert, ← Finset.insert_union]

theorem addAll_ok {values : List Int64} (h : Elements s S) (hroom : (S ∪ values.toFinset).card ≤ maxLength) :
    ∃ out, values.foldlM setAdd s = .ok out := by
  induction values generalizing s S with
  | nil => exact ⟨s, rfl⟩
  | cons val values ih =>
      rw [List.toFinset_cons, Finset.union_insert, ← Finset.insert_union] at hroom
      obtain ⟨next, hadd⟩ := setAdd_ok h _ ((Finset.card_le_card Finset.subset_union_left).trans hroom)
      obtain ⟨out, hout⟩ := ih (setAdd_elements h hadd) hroom
      exact ⟨out, by rw [List.foldlM_cons, hadd, Effect.ok_bind, hout]⟩

end Add

/-! ### Removal -/

theorem dropLast_append_set (xs : List Int64) (val : Int64) (h : xs ≠ []) :
    xs.dropLast ++ [val] = xs.set (xs.length - 1) val := by
  obtain ⟨init, last, rfl⟩ := (List.eq_nil_or_concat' xs).resolve_left h
  rw [List.dropLast_concat, List.length_append, List.length_singleton, Nat.add_sub_cancel,
    List.set_append_right _ _ le_rfl, Nat.sub_self]
  rfl

/-- With the removed element back behind it, the array is a rearrangement of what it was. -/
theorem swapWithLast_perm {s : VisualSet} {idx : ℕ} (hidx : idx < s.data.length)
    (hlast : s.data.length - 1 < s.data.length) :
    ((swapWithLast s idx s.data[s.data.length - 1]).data ++ [s.data[idx]]).Perm s.data := by
  have hne : s.data.set idx s.data[s.data.length - 1] ≠ [] := by
    rw [← List.length_pos_iff, List.length_set]
    omega
  show ((s.data.set idx s.data[s.data.length - 1]).dropLast ++ [s.data[idx]]).Perm s.data
  rw [dropLast_append_set _ _ hne, List.length_set]
  exact List.set_set_perm hidx hlast

theorem setRemove_ok {s : VisualSet} {S : Finset Int64} (h : Elements s S) (val : Int64) :
    ∃ out, setRemove s val = .ok out ∧ Elements out (S.erase val) := by
  unfold setRemove
  split
  · rename_i hnone
    have hnot : val ∉ S := fun hmem => by
      have := h.find_isSome.mpr hmem
      rw [hnone] at this
      cases this
    exact ⟨s, rfl, by rwa [Finset.erase_eq_of_notMem hnot]⟩
  · rename_i idx hfound
    obtain ⟨hidx, hval, -⟩ := List.findIdx?_eq_some_iff_getElem.mp hfound
    have hval : s.data[idx] = val := eq_of_beq hval
    have hlast : s.data.length - 1 < s.data.length := by omega
    have hread : readAt s.data ((s.data.length : ℤ) - 1) = .ok s.data[s.data.length - 1] := by
      have hcast : (s.data.length : ℤ) - 1 = (s.data.length - 1 : ℕ) := by omega
      rw [hcast, readAt, dif_pos (by omega)]
      rfl
    refine ⟨swapWithLast s idx s.data[s.data.length - 1], by rw [hread]; rfl, ?_⟩
    have hperm := swapWithLast_perm hidx hlast
    rw [hval] at hperm
    have hnodup := hperm.nodup_iff.mpr h.nodup
    have hnot := List.disjoint_of_nodup_append hnodup
    constructor
    · exact hnodup.of_append_left
    · ext x
      rw [List.mem_toFinset, Finset.mem_erase, ← h.mem_iff, ← hperm.mem_iff, List.mem_append, List.mem_singleton]
      constructor
      · intro hx
        refine ⟨?_, .inl hx⟩
        rintro rfl
        exact hnot hx (List.mem_singleton_self x)
      · rintro ⟨hne, hx | hx⟩
        · exact hx
        · exact absurd hx hne

/-! ### Two sets -/

/-- What the abstract set behind a handle is; NULL acts as the empty set. -/
def ElementsOf : Option VisualSet → Finset Int64 → Prop
  | none, S => S = ∅
  | some s, S => Elements s S

section Pairs

variable {a b : Option VisualSet} {A B S : Finset Int64} {s out : VisualSet}

theorem addElements_elements (h : Elements s S) (ha : ElementsOf a A) (hadd : addElements s a = .ok out) :
    Elements out (S ∪ A) := by
  cases a with
  | none =>
      cases hadd
      rwa [show A = ∅ from ha, Finset.union_empty]
  | some a =>
      have hout := addAll_elements h hadd
      rwa [Elements.toFinset ha] at hout

theorem addElements_ok (h : Elements s S) (ha : ElementsOf a A) (hroom : (S ∪ A).card ≤ maxLength) :
    ∃ out, addElements s a = .ok out := by
  cases a with
  | none => exact ⟨s, rfl⟩
  | some a => exact addAll_ok h (by rwa [Elements.toFinset ha])

theorem setUnion_elements (ha : ElementsOf a A) (hb : ElementsOf b B) (h : setUnion a b = .ok out) :
    Elements out (A ∪ B) := by
  unfold setUnion at h
  obtain ⟨mid, hmid, h⟩ := Effect.ok_of_bind h
  have hfirst := addElements_elements setNew_elements ha hmid
  rw [Finset.empty_union] at hfirst
  exact addElements_elements hfirst hb h

theorem setUnion_ok (ha : ElementsOf a A) (hb : ElementsOf b B) (hroom : (A ∪ B).card ≤ maxLength) :
    ∃ out, setUnion a b = .ok out := by
  have hleft : (∅ ∪ A).card ≤ maxLength := by
    rw [Finset.empty_union]
    exact (Finset.card_le_card Finset.subset_union_left).trans hroom
  obtain ⟨mid, hmid⟩ := addElements_ok setNew_elements ha hleft
  have hfirst := addElements_elements setNew_elements ha hmid
  rw [Finset.empty_union] at hfirst
  obtain ⟨out, hout⟩ := addElements_ok hfirst hb hroom
  exact ⟨out, by rw [setUnion, hmid, Effect.ok_bind, hout]⟩

theorem setIntersect_some (a b : VisualSet) : setIntersect (some a) (some b) =
    (a.data.filter (setContains (some b))).foldlM setAdd setNew := (List.foldlM_filter ..).symm

theorem setIntersect_ok (ha : ElementsOf a A) (hb : ElementsOf b B) :
    ∃ out, setIntersect a b = .ok out ∧ Elements out (A ∩ B) := by
  cases a with
  | none =>
      refine ⟨setNew, rfl, ?_⟩
      rw [show A = ∅ from ha, Finset.empty_inter]
      exact setNew_elements
  | some a =>
      cases b with
      | none =>
          refine ⟨setNew, rfl, ?_⟩
          rw [show B = ∅ from hb, Finset.inter_empty]
          exact setNew_elements
      | some b =>
          have hboth : (a.data.filter (setContains (some b))).toFinset = A ∩ B := by
            ext x
            rw [List.mem_toFinset, List.mem_filter, Elements.mem_iff ha, Elements.contains hb, decide_eq_true_iff,
              Finset.mem_inter]
          have hroom : (∅ ∪ (a.data.filter (setContains (some b))).toFinset).card ≤ maxLength := by
            rw [Finset.empty_union, hboth]
            exact (Finset.card_le_card Finset.inter_subset_left).trans (Elements.card_le ha)
          obtain ⟨out, hout⟩ := addAll_ok setNew_elements hroom
          have helements := addAll_elements setNew_elements hout
          rw [Finset.empty_union, hboth] at helements
          exact ⟨out, (setIntersect_some a b).trans hout, helements⟩

end Pairs

/-- The elements in the order of the array. -/
theorem setToList_ok {s : Option VisualSet} {S : Finset Int64} (h : ElementsOf s S) :
    ∃ out, setToList s = .ok out ∧ out.data.Nodup ∧ out.data.toFinset = S := by
  cases s with
  | none =>
      refine ⟨listNew Int64, rfl, List.nodup_nil, ?_⟩
      rw [show S = ∅ from h]
      rfl
  | some s =>
      obtain ⟨out, hall, hdata⟩ := pushAll_ok (listNew Int64) s.data (by
        show 0 + s.data.length ≤ maxLength
        rw [Nat.zero_add]
        exact s.length_le)
      have hdata' : out.data = s.data := hdata
      refine ⟨out, hall, ?_, ?_⟩
      · rw [hdata']
        exact Elements.nodup h
      · rw [hdata']
        exact Elements.toFinset h

/-! ### Programs -/

/-- One call.  A set is named by the place at which it was made; a place at which there is none is NULL. -/
inductive SetOp where
  | new
  | add (s : ℕ) (val : Int64)
  | remove (s : ℕ) (val : Int64)
  | contains (s : ℕ) (val : Int64)
  | size (s : ℕ)
  | union (a b : ℕ)
  | intersect (a b : ℕ)
  | toList (s : ℕ)
deriving DecidableEq

/-- What a call returns, besides a new set; `β` is what a list of elements is. -/
inductive SetAnswer (β : Type) where
  | done
  | truth (b : Bool)
  | count (n : ℕ)
  | elements (xs : β)

/-- One call on the sets made so far. -/
def stepSets (sets : List VisualSet) : SetOp → Except Stop (List VisualSet × SetAnswer (List Int64))
  | .new => .ok (sets ++ [setNew], .done)
  | .add s val => match sets[s]? with
    | none => .ok (sets, .done)
    | some set => do return (sets.set s (← setAdd set val), .done)
  | .remove s val => match sets[s]? with
    | none => .ok (sets, .done)
    | some set => do return (sets.set s (← setRemove set val), .done)
  | .contains s val => .ok (sets, .truth (setContains sets[s]? val))
  | .size s => .ok (sets, .count (setSize sets[s]?))
  | .union a b => do return (sets ++ [← setUnion sets[a]? sets[b]?], .done)
  | .intersect a b => do return (sets ++ [← setIntersect sets[a]? sets[b]?], .done)
  | .toList s => do return (sets, .elements (← setToList sets[s]?).data)

/-- The calls of a program and what they return. -/
def runSets : List VisualSet → List SetOp → Except Stop (List VisualSet × List (SetAnswer (List Int64)))
  | sets, [] => .ok (sets, [])
  | sets, op :: ops => do
    let (next, answer) ← stepSets sets op
    let (final, answers) ← runSets next ops
    return (final, answer :: answers)

/-- The finite set behind a handle. -/
def abstractSet (sets : List (Finset Int64)) (s : ℕ) : Finset Int64 := sets[s]?.getD ∅

/-- One call on finite sets. -/
def stepAbstract (sets : List (Finset Int64)) : SetOp → List (Finset Int64) × SetAnswer (Finset Int64)
  | .new => (sets ++ [∅], .done)
  | .add s val => (sets.set s (insert val (abstractSet sets s)), .done)
  | .remove s val => (sets.set s ((abstractSet sets s).erase val), .done)
  | .contains s val => (sets, .truth (val ∈ abstractSet sets s))
  | .size s => (sets, .count (abstractSet sets s).card)
  | .union a b => (sets ++ [abstractSet sets a ∪ abstractSet sets b], .done)
  | .intersect a b => (sets ++ [abstractSet sets a ∩ abstractSet sets b], .done)
  | .toList s => (sets, .elements (abstractSet sets s))

def runAbstract : List (Finset Int64) → List SetOp → List (Finset Int64) × List (SetAnswer (Finset Int64))
  | sets, [] => (sets, [])
  | sets, op :: ops =>
    let (next, answer) := stepAbstract sets op
    let (final, answers) := runAbstract next ops
    (final, answer :: answers)

/-- The same answer; a list of elements has each element of the set once. -/
def SameAnswer : SetAnswer (List Int64) → SetAnswer (Finset Int64) → Prop
  | .done, .done => True
  | .truth b, .truth b' => b = b'
  | .count n, .count n' => n = n'
  | .elements xs, .elements S => xs.Nodup ∧ xs.toFinset = S
  | _, _ => False

/-- No set outgrows what an array can hold. -/
def Room (sets : List (Finset Int64)) : Prop := ∀ S ∈ sets, S.card ≤ maxLength

/-- There is room after every call. -/
def RoomThroughout : List (Finset Int64) → List SetOp → Prop
  | _, [] => True
  | sets, op :: ops => Room (stepAbstract sets op).1 ∧ RoomThroughout (stepAbstract sets op).1 ops

/-- The arrays and the finite sets they stand for, handle by handle. -/
abbrev Worlds (sets : List VisualSet) (abstract : List (Finset Int64)) : Prop :=
  List.Forall₂ Elements sets abstract

section Worlds

variable {sets next : List VisualSet} {abstract : List (Finset Int64)}

theorem Worlds.room (h : Worlds sets abstract) : Room abstract := by
  induction h with
  | nil => exact fun S hS => absurd hS List.not_mem_nil
  | cons hhead _ ih => exact List.forall_mem_cons.mpr ⟨hhead.card_le, ih⟩

theorem Worlds.lookup (h : Worlds sets abstract) (i : ℕ) : ElementsOf sets[i]? (abstractSet abstract i) := by
  induction h generalizing i with
  | nil => rfl
  | cons hhead _ ih =>
      cases i with
      | zero => exact hhead
      | succ i => exact ih i

theorem Worlds.set (h : Worlds sets abstract) (i : ℕ) {s : VisualSet} {S : Finset Int64} (hs : Elements s S) :
    Worlds (sets.set i s) (abstract.set i S) := by
  induction h generalizing i with
  | nil => exact .nil
  | cons hhead htail ih =>
      cases i with
      | zero => exact .cons hs htail
      | succ i => exact .cons hhead (ih i)

theorem Worlds.add (h : Worlds sets abstract) {s : VisualSet} {S : Finset Int64} (hs : Elements s S) :
    Worlds (sets ++ [s]) (abstract ++ [S]) := List.rel_append h (.cons hs .nil)

/-- A handle of no set names none of the finite sets. -/
theorem Worlds.set_none (h : Worlds sets abstract) {i : ℕ} (hi : sets[i]? = none) (S : Finset Int64) :
    Worlds sets (abstract.set i S) := by
  have hle : abstract.length ≤ i := h.length_eq ▸ List.getElem?_eq_none_iff.mp hi
  rwa [List.set_eq_of_length_le hle]

/-! #### One call -/

variable {op : SetOp} {answer : SetAnswer (List Int64)}

theorem Worlds.size (h : Worlds sets abstract) (i : ℕ) : setSize sets[i]? = (abstractSet abstract i).card := by
  have hi := h.lookup i
  cases hset : sets[i]? with
  | none =>
      rw [hset] at hi
      rw [show abstractSet abstract i = ∅ from hi]
      rfl
  | some s =>
      rw [hset] at hi
      exact Elements.length_eq hi

theorem Worlds.contains (h : Worlds sets abstract) (i : ℕ) (val : Int64) :
    setContains sets[i]? val = decide (val ∈ abstractSet abstract i) := by
  have hi := h.lookup i
  cases hset : sets[i]? with
  | none =>
      rw [hset] at hi
      rw [show abstractSet abstract i = ∅ from hi]
      rfl
  | some s =>
      rw [hset] at hi
      exact Elements.contains hi

/-- A call that returns does to the arrays what it does to the finite sets. -/
theorem stepSets_worlds (h : Worlds sets abstract) (hstep : stepSets sets op = .ok (next, answer)) :
    Worlds next (stepAbstract abstract op).1 ∧ SameAnswer answer (stepAbstract abstract op).2 := by
  cases op with
  | new =>
      cases hstep
      exact ⟨h.add setNew_elements, trivial⟩
  | add s val =>
      have hs := h.lookup s
      cases hset : sets[s]? with
      | none =>
          rw [stepSets, hset] at hstep
          cases hstep
          exact ⟨h.set_none hset _, trivial⟩
      | some set =>
          rw [hset] at hs
          rw [stepSets, hset] at hstep
          obtain ⟨out, hadd, hout⟩ := Effect.ok_of_bind hstep
          cases hout
          exact ⟨h.set s (setAdd_elements hs hadd), trivial⟩
  | remove s val =>
      have hs := h.lookup s
      cases hset : sets[s]? with
      | none =>
          rw [stepSets, hset] at hstep
          cases hstep
          exact ⟨h.set_none hset _, trivial⟩
      | some set =>
          rw [hset] at hs
          obtain ⟨out, hremove, helements⟩ := setRemove_ok hs val
          rw [stepSets, hset] at hstep
          obtain ⟨out', hremove', hout⟩ := Effect.ok_of_bind hstep
          rw [hremove] at hremove'
          cases hremove'
          cases hout
          exact ⟨h.set s helements, trivial⟩
  | contains s val =>
      cases hstep
      exact ⟨h, h.contains s val⟩
  | size s =>
      cases hstep
      exact ⟨h, h.size s⟩
  | union a b =>
      obtain ⟨out, hunion, hout⟩ := Effect.ok_of_bind hstep
      cases hout
      exact ⟨h.add (setUnion_elements (h.lookup a) (h.lookup b) hunion), trivial⟩
  | intersect a b =>
      obtain ⟨out, hinter, helements⟩ := setIntersect_ok (h.lookup a) (h.lookup b)
      rw [stepSets, hinter] at hstep
      cases hstep
      exact ⟨h.add helements, trivial⟩
  | toList s =>
      obtain ⟨out, hlist, hnodup, hsame⟩ := setToList_ok (h.lookup s)
      rw [stepSets, hlist] at hstep
      cases hstep
      exact ⟨h, hnodup, hsame⟩

/-- A call returns when there is room for what it makes. -/
theorem stepSets_ok (h : Worlds sets abstract) (hroom : Room (stepAbstract abstract op).1) :
    ∃ next answer, stepSets sets op = .ok (next, answer) := by
  cases op with
  | new => exact ⟨_, _, rfl⟩
  | add s val =>
      have hs := h.lookup s
      cases hset : sets[s]? with
      | none => exact ⟨_, _, by rw [stepSets, hset]⟩
      | some set =>
          rw [hset] at hs
          have hlt : s < abstract.length := h.length_eq ▸ (List.getElem?_eq_some_iff.mp hset).1
          obtain ⟨out, hadd⟩ := setAdd_ok hs val (hroom _ (List.mem_set hlt _))
          exact ⟨_, _, by rw [stepSets, hset]; exact congrArg (· >>= _) hadd⟩
  | remove s val =>
      have hs := h.lookup s
      cases hset : sets[s]? with
      | none => exact ⟨_, _, by rw [stepSets, hset]⟩
      | some set =>
          rw [hset] at hs
          obtain ⟨out, hremove, -⟩ := setRemove_ok hs val
          exact ⟨_, _, by rw [stepSets, hset]; exact congrArg (· >>= _) hremove⟩
  | contains s val => exact ⟨_, _, rfl⟩
  | size s => exact ⟨_, _, rfl⟩
  | union a b =>
      obtain ⟨out, hunion⟩ := setUnion_ok (h.lookup a) (h.lookup b)
        (hroom _ (List.mem_append_right _ (List.mem_singleton_self _)))
      exact ⟨_, _, congrArg (· >>= _) hunion⟩
  | intersect a b =>
      obtain ⟨out, hinter, -⟩ := setIntersect_ok (h.lookup a) (h.lookup b)
      exact ⟨_, _, congrArg (· >>= _) hinter⟩
  | toList s =>
      obtain ⟨out, hlist, -, -⟩ := setToList_ok (h.lookup s)
      exact ⟨_, _, congrArg (· >>= _) hlist⟩

/-! #### Whole runs -/

theorem runSets_worlds (h : Worlds sets abstract) (ops : List SetOp) :
    match runSets sets ops with
    | .ok (final, answers) => RoomThroughout abstract ops ∧ Worlds final (runAbstract abstract ops).1 ∧
        List.Forall₂ SameAnswer answers (runAbstract abstract ops).2
    | .error _ => ¬ RoomThroughout abstract ops := by
  induction ops generalizing sets abstract with
  | nil => exact ⟨trivial, h, .nil⟩
  | cons op ops ih =>
      cases hstep : stepSets sets op with
      | error stop =>
          rw [runSets, hstep]
          intro hroom
          obtain ⟨next, answer, hok⟩ := stepSets_ok h hroom.1
          rw [hstep] at hok
          cases hok
      | ok result =>
          obtain ⟨next, answer⟩ := result
          obtain ⟨hworlds, hanswer⟩ := stepSets_worlds h hstep
          have hrest := ih hworlds
          have hcons : runSets sets (op :: ops) = (do
              let r ← runSets next ops
              return (r.1, answer :: r.2)) := by
            rw [runSets, hstep]
            rfl
          rw [hcons]
          cases hrun : runSets next ops with
          | error stop =>
              rw [hrun] at hrest
              show ¬ RoomThroughout abstract (op :: ops)
              exact fun hroom => hrest hroom.2
          | ok result =>
              rw [hrun] at hrest
              obtain ⟨hroom, hfinal, hanswers⟩ := hrest
              show RoomThroughout abstract (op :: ops) ∧ Worlds _ (runAbstract abstract (op :: ops)).1 ∧
                List.Forall₂ SameAnswer _ (runAbstract abstract (op :: ops)).2
              exact ⟨⟨hworlds.room, hroom⟩, hfinal, .cons hanswer hanswers⟩

end Worlds

/-- **Refinement of finite sets.**  A program that makes sets and uses them runs through exactly when no set
outgrows what an array can hold; then each array lists the elements of its finite set once, and every answer is
that of the finite sets. -/
theorem runSets_refines (ops : List SetOp) :
    match runSets [] ops with
    | .ok (sets, answers) => RoomThroughout [] ops ∧ Worlds sets (runAbstract [] ops).1 ∧
        List.Forall₂ SameAnswer answers (runAbstract [] ops).2
    | .error _ => ¬ RoomThroughout [] ops := runSets_worlds .nil ops

end Visuall.Runtime
