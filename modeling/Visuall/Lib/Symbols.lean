import Mathlib

/-!
# One flat namespace of definitions

Entities are declared and defined under names, in a table that has one symbol for a name.  Where a name is taken, a new
symbol gets another name, and is not found any more; some entities add their body to the symbol that they find.

* `Table`, `Op`, `run` — the table, and what is done to it;
* `Own` — the symbol that is found under the name of an entity is its own, with its body and no other;
* `run_eq` — it is, where the names are different.
-/

namespace Visuall.Symbols

/-- A symbol: who has made it, and whose bodies it has got. -/
structure Symbol (ι : Type) where
  owner : ι
  bodies : List ι

/-- The symbols that are found under the names. -/
abbrev Table (ν ι : Type) := ν → Option (Symbol ι)

/-- What is done for an entity. -/
inductive Op (ι : Type)
  | declare (i : ι)
  | define (i : ι)
  deriving DecidableEq

/-- The entity. -/
def Op.entity {ι : Type} : Op ι → ι
  | .declare i | .define i => i

section Table

variable {ν ι : Type} [DecidableEq ν] (name : ι → ν) (reuses : ι → Bool)

/-- A new symbol: where the name is taken, it gets another one. -/
def create (T : Table ν ι) (i : ι) (bodies : List ι) : Table ν ι :=
  if (T (name i)).isSome then T else Function.update T (name i) (some ⟨i, bodies⟩)

/-- A body, in a new symbol, or in the one that is found if the entity uses that again. -/
def define (T : Table ν ι) (i : ι) : Table ν ι :=
  match T (name i), reuses i with
  | some s, true => Function.update T (name i) (some { s with bodies := s.bodies ++ [i] })
  | _, _ => create name T i [i]

def step (T : Table ν ι) : Op ι → Table ν ι
  | .declare i => create name T i []
  | .define i => define name reuses T i

/-- The table behind some operations. -/
def run (ops : List (Op ι)) : Table ν ι := ops.foldl (step name reuses) fun _ => none

/-- What is found under the name of the entity is its own symbol, with the bodies given. -/
def Own (T : Table ν ι) (i : ι) (bodies : List ι) : Prop := T (name i) = some ⟨i, bodies⟩

end Table

section Laws

variable {ν ι : Type} {name : ι → ν} {reuses : ι → Bool} {T : Table ν ι} {i j : ι} {ops : List (Op ι)}

variable [DecidableEq ν]

theorem run_concat (op : Op ι) : run name reuses (ops ++ [op]) = step name reuses (run name reuses ops) op := by
  unfold run
  rw [List.foldl_append]
  rfl

/-- Other names stay as they are. -/
theorem step_of_ne {op : Op ι} {n : ν} (h : n ≠ name op.entity) : step name reuses T op n = T n := by
  have hcreate : ∀ i bodies, n ≠ name i → create name T i bodies n = T n := by
    intro i bodies hn
    unfold create
    by_cases htaken : (T (name i)).isSome = true
    · rw [if_pos htaken]
    · rw [if_neg htaken, Function.update_of_ne hn]
  cases op with
  | declare i => exact hcreate i [] h
  | define i =>
    show define name reuses T i n = T n
    unfold define
    cases T (name i) with
    | none => exact hcreate i [i] h
    | some s =>
      cases reuses i with
      | false => exact hcreate i [i] h
      | true => exact Function.update_of_ne h _ _

theorem create_self {bodies : List ι} :
    create name T i bodies (name i) = match T (name i) with | some s => some s | none => some ⟨i, bodies⟩ := by
  unfold create
  cases h : T (name i) with
  | some s =>
    rw [if_pos (by rfl)]
    exact h
  | none =>
    rw [if_neg (by simp), Function.update_self]

variable [DecidableEq ι]

/-- What is expected under the name of an entity, behind some operations. -/
def expected (ops : List (Op ι)) (i : ι) : Option (Symbol ι) :=
  if .define i ∈ ops then some ⟨i, [i]⟩ else if .declare i ∈ ops then some ⟨i, []⟩ else none

theorem expected_concat_of_ne {op : Op ι} (h : i ≠ op.entity) : expected (ops ++ [op]) i = expected ops i := by
  have hop : ∀ op', op'.entity = i → (op' ∈ ops ++ [op] ↔ op' ∈ ops) := by
    intro op' hop'
    rw [List.mem_append, List.mem_singleton]
    refine or_iff_left fun heq => h ?_
    rw [← hop', heq]
  unfold expected
  simp only [hop (.define i) rfl, hop (.declare i) rfl]

theorem expected_declare : (match expected ops i with | some s => some s | none => some ⟨i, []⟩) =
    expected (ops ++ [.declare i]) i := by
  have hdefine : Op.define i ∈ ops ++ [Op.declare i] ↔ Op.define i ∈ ops := by
    rw [List.mem_append, List.mem_singleton, or_iff_left fun h => by cases h]
  have hdeclare : Op.declare i ∈ ops ++ [Op.declare i] := List.mem_append_right _ (List.mem_singleton_self _)
  unfold expected
  by_cases hd : Op.define i ∈ ops
  · rw [if_pos hd, if_pos (hdefine.mpr hd)]
  · rw [if_neg hd, if_neg fun h => hd (hdefine.mp h), if_pos hdeclare]
    by_cases hdecl : Op.declare i ∈ ops
    · rw [if_pos hdecl]
    · rw [if_neg hdecl]

/-- **What is found where the names are different**, if every entity is defined once at most, and those that are
declared before use the symbol again. -/
theorem run_eq {S : Set ι} (hinj : Set.InjOn name S) (hS : ∀ op ∈ ops, op.entity ∈ S)
    (honce : ∀ i, ops.count (.define i) ≤ 1)
    (hreuse : ∀ i, .declare i ∈ ops → .define i ∈ ops → reuses i = true) (hi : i ∈ S) :
    run name reuses ops (name i) = expected ops i := by
  induction ops using List.reverseRecOn generalizing i with
  | nil => rfl
  | append_singleton ops op ih =>
    have hmem : ∀ op' ∈ ops, op' ∈ ops ++ [op] := fun op' h => List.mem_append_left _ h
    have ih : ∀ i ∈ S, run name reuses ops (name i) = expected ops i := by
      intro i hi
      refine ih (fun op' h => hS op' (hmem op' h)) (fun i => ?_)
        (fun i h h' => hreuse i (hmem _ h) (hmem _ h')) hi
      have hcount := honce i
      rw [List.count_append] at hcount
      exact (Nat.le_add_right _ _).trans hcount
    rw [run_concat]
    by_cases hop : i = op.entity
    · subst hop
      have hbefore := ih op.entity hi
      cases op with
      | declare i =>
        show create name (run name reuses ops) i [] (name i) = expected (ops ++ [.declare i]) i
        rw [create_self, show run name reuses ops (name i) = expected ops i from hbefore]
        exact expected_declare
      | define i =>
        have hlast : Op.define i ∈ ops ++ [Op.define i] := List.mem_append_right _ (List.mem_singleton_self _)
        have hnew : Op.define i ∉ ops := by
          have hcount := honce i
          rw [List.count_append, List.count_singleton_self] at hcount
          exact List.count_eq_zero.mp (by omega)
        have hbefore : run name reuses ops (name i) = if Op.declare i ∈ ops then some ⟨i, []⟩ else none :=
          hbefore.trans (if_neg hnew)
        show define name reuses (run name reuses ops) i (name i) = expected (ops ++ [.define i]) i
        rw [show expected (ops ++ [.define i]) i = some ⟨i, [i]⟩ from if_pos hlast]
        unfold define
        by_cases hdecl : Op.declare i ∈ ops
        · rw [hbefore, if_pos hdecl, hreuse i (hmem _ hdecl) hlast]
          exact Function.update_self _ _ _
        · rw [if_neg hdecl] at hbefore
          rw [hbefore]
          exact create_self.trans (by rw [hbefore])
    · have hname : name i ≠ name op.entity :=
        fun h => hop (hinj hi (hS op (List.mem_append_right _ (List.mem_singleton_self op))) h)
      rw [step_of_ne hname, expected_concat_of_ne hop]
      exact ih i hi

end Laws

end Visuall.Symbols
