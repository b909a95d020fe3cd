import Mathlib.Data.List.Basic
import Mathlib.Logic.Relation

/-!
# Relations with ranks

A relation whose steps go down in rank has no cycles, and what is reached from a point can be listed.

* `Ranked.reached` — what is reached from a point, by rounds;
* `Ranked.mem_reached_iff` — with as many rounds as the rank, all of it.
-/

namespace Visuall

open Relation

/-- The successors of each point, with ranks that go down along them. -/
structure Ranked (α : Type*) where
  next : α → List α
  rank : α → ℕ
  rank_lt : ∀ a, ∀ b ∈ next a, rank b < rank a

namespace Ranked

variable {α : Type*} (R : Ranked α) {a b : α}

def Step (a b : α) : Prop := b ∈ R.next a

/-- What is reached from `a` in at most `n` steps. -/
def reached : ℕ → α → List α
  | 0, a => [a]
  | n + 1, a => a :: (R.next a).flatMap (reached n)

theorem self_mem_reached (n : ℕ) (a : α) : a ∈ R.reached n a := by
  cases n with
  | zero => exact List.mem_singleton.mpr rfl
  | succ n => exact List.mem_cons_self

theorem reach_of_mem_reached (n : ℕ) (h : b ∈ R.reached n a) : ReflTransGen R.Step a b := by
  induction n generalizing a with
  | zero =>
    rw [List.mem_singleton.mp h]
  | succ n ih =>
    rcases List.mem_cons.mp h with rfl | hrest
    · exact .refl
    · obtain ⟨c, hc, hb⟩ := List.mem_flatMap.mp hrest
      exact .head hc (ih hb)

/-- With as many rounds as the rank of a point, all that is reached from it is listed. -/
theorem mem_reached_iff (n : ℕ) (hn : R.rank a ≤ n) : b ∈ R.reached n a ↔ ReflTransGen R.Step a b := by
  constructor
  · exact R.reach_of_mem_reached n
  · intro h
    induction h using ReflTransGen.head_induction_on generalizing n with
    | refl => exact R.self_mem_reached n b
    | @head a c hac hcb ih =>
      have hlt := R.rank_lt a c hac
      cases n with
      | zero => omega
      | succ n =>
        apply List.mem_cons_of_mem
        exact List.mem_flatMap.mpr ⟨c, hac, ih n (by omega)⟩

end Ranked

end Visuall
