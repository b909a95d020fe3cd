import Visuall.Lib.LinearProbe

/-!
# Ring buffers

A queue of `n` values in `cap` slots, starting at slot `head` and wrapping around.

* `ring buf cap head n` — the values queued, oldest first;
* `ring_pop`, `ring_push` — taking the oldest value and storing a newest one.
-/

namespace Visuall

open Visuall.LinearProbe

variable {α : Type*} {buf : ℕ → α} {cap head n : ℕ}

/-- The values queued in a ring buffer, oldest first. -/
def ring (buf : ℕ → α) (cap head n : ℕ) : List α :=
  (List.range n).map fun i => buf (slotAt cap head i)

@[simp] theorem ring_zero : ring buf cap head 0 = [] := rfl

@[simp] theorem ring_length : (ring buf cap head n).length = n := by simp [ring]

/-- The oldest value is in the head slot; the others start at the next slot. -/
theorem ring_pop (hh : head < cap) :
    ring buf cap head (n + 1) = buf head :: ring buf cap ((head + 1) % cap) n := by
  rw [ring, List.range_succ_eq_map, List.map_cons, List.map_map, ring]
  congr 1
  · rw [slotAt, Nat.add_zero, Nat.mod_eq_of_lt hh]
  · refine List.map_congr_left fun i _ => ?_
    rw [Function.comp_apply, slotAt_mod, slotAt, slotAt, Nat.succ_eq_add_one, Nat.add_right_comm,
      Nat.add_assoc]

theorem slotAt_ne {i j : ℕ} (hij : i < j) (hj : j < cap) : slotAt cap head i ≠ slotAt cap head j := by
  intro h
  have hmod : i ≡ j [MOD cap] := Nat.ModEq.add_left_cancel' head h
  have := Nat.ModEq.eq_of_lt_of_lt hmod (by omega) hj
  omega

/-- A value stored behind the queued ones is the newest. -/
theorem ring_push (hn : n < cap) (v : α) :
    ring (Function.update buf (slotAt cap head n) v) cap head (n + 1) =
      ring buf cap head n ++ [v] := by
  rw [ring, List.range_succ, List.map_append, ring]
  congr 1
  · refine List.map_congr_left fun i hi => ?_
    exact Function.update_of_ne (slotAt_ne (List.mem_range.mp hi) hn) _ _
  · rw [List.map_singleton, Function.update_self]

end Visuall
