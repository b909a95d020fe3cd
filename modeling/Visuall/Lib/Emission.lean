import Mathlib.Data.List.Basic

/-!
# Translations that go through a program once

A translator goes through a program from its beginning to its end.  It keeps a state, and may put something out
for each item; what it puts out depends on the items before and not on those behind.

* `emit` — what is put out;
* `forall_emit_iff` — what holds of all that is put out, by the places in the program.
-/

namespace Visuall.Emission

variable {σ ι ω : Type*} (after : σ → ι → σ) (out : σ → ι → Option ω)

/-- What is put out for a program, from a state on. -/
def emit : σ → List ι → List ω
  | _, [] => []
  | s, i :: items => (out s i).toList ++ emit (after s i) items

variable {after out} {s : σ} {items : List ι} {P : ω → Prop}

theorem forall_emit_cons_iff {i : ι} :
    (∀ o ∈ emit after out s (i :: items), P o) ↔
      (∀ o, out s i = some o → P o) ∧ ∀ o ∈ emit after out (after s i) items, P o := by
  show (∀ o ∈ (out s i).toList ++ emit after out (after s i) items, P o) ↔ _
  rw [List.forall_mem_append]
  simp only [Option.mem_toList]

/-- **All that is put out has a property exactly when it has it at every place of the program.** -/
theorem forall_emit_iff :
    (∀ o ∈ emit after out s items, P o) ↔
      ∀ before i later, items = before ++ i :: later → ∀ o, out (before.foldl after s) i = some o → P o := by
  induction items generalizing s with
  | nil => simp [emit]
  | cons i items ih =>
    rw [forall_emit_cons_iff, ih]
    constructor
    · intro h before i' later heq
      cases before with
      | nil =>
        obtain ⟨rfl, -⟩ := List.cons.inj heq
        exact h.1
      | cons first before =>
        obtain ⟨rfl, hitems⟩ := List.cons.inj heq
        exact h.2 before i' later hitems
    · intro h
      constructor
      · exact h [] i items rfl
      · intro before i' later hitems
        exact h (i :: before) i' later (by rw [hitems]; rfl)

end Visuall.Emission
