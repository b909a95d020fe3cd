import Mathlib.Data.List.Basic

/-!
# Places

Paths through a tree of directories, step by step, from a place that is told by the names above it, the nearest first.

* `go` — a step from a place; `climb` — how far up a path climbs, and what it goes down from there;
* `foldl_go` — where a path leads, by its climb;
* `inside_iff` — exactly when it leads strictly inside the place it starts from.
-/

namespace Visuall.Places

variable {α : Type*}

inductive Step (α : Type*)
  | stay
  | up
  | down (name : α)

/-- A step from a place; above the root is the root. -/
def go : List α → Step α → List α
  | place, .stay => place
  | place, .up => place.tail
  | place, .down name => name :: place

/-- How far up a path climbs from where it starts, and the names that it goes down from there. -/
def climb : ℕ × List α → Step α → ℕ × List α
  | (k, below), .stay => (k, below)
  | (k, []), .up => (k + 1, [])
  | (k, _ :: below), .up => (k, below)
  | (k, below), .down name => (k, name :: below)

/-- A place that is strictly inside another. -/
def Inside (base place : List α) : Prop := base <:+ place ∧ place ≠ base

/-- A path that comes back to where it starts, by the names it has climbed over, and then goes further down. -/
def Returns (place : List α) (steps : List (Step α)) : Prop :=
  Inside (place.take (steps.foldl climb (0, [])).1) (steps.foldl climb (0, [])).2

theorem go_climb (place : List α) (r : ℕ × List α) (s : Step α) :
    go (r.2 ++ place.drop r.1) s = (climb r s).2 ++ place.drop (climb r s).1 := by
  obtain ⟨k, below⟩ := r
  cases s with
  | stay => rfl
  | down name => rfl
  | up =>
    cases below with
    | nil => exact List.tail_drop
    | cons name below => rfl

/-- **Where a path leads.** -/
theorem foldl_go (place : List α) (steps : List (Step α)) (r : ℕ × List α) :
    steps.foldl go (r.2 ++ place.drop r.1) = (steps.foldl climb r).2 ++ place.drop (steps.foldl climb r).1 := by
  induction steps generalizing r with
  | nil => rfl
  | cons s steps ih =>
    rw [List.foldl_cons, List.foldl_cons, go_climb]
    exact ih _

/-- What two places have in common above does not matter. -/
theorem inside_append_iff (base place above : List α) :
    Inside (base ++ above) (place ++ above) ↔ Inside base place := by
  rw [Inside, Inside, List.suffix_append_self_iff, ne_eq, List.append_left_inj]

/-- **A path leads strictly inside** the place it starts from, exactly when it returns there and goes on. -/
theorem inside_iff (place : List α) (steps : List (Step α)) : Inside place (steps.foldl go place) ↔ Returns place steps := by
  have hplace : steps.foldl go place =
      (steps.foldl climb (0, [])).2 ++ place.drop (steps.foldl climb (0, [])).1 := foldl_go place steps (0, [])
  rw [hplace, Returns]
  generalize steps.foldl climb (0, []) = r
  have hcommon := inside_append_iff (place.take r.1) r.2 (place.drop r.1)
  rwa [List.take_append_drop] at hcommon

theorem inside_cons (name : α) (place : List α) : Inside place (name :: place) :=
  ⟨List.suffix_cons name place, fun h => (List.cons_ne_self name place h).elim⟩

end Visuall.Places
