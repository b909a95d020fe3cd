import Mathlib

/-!
# Linear probing

Slots `0, …, cap - 1` of an open-addressing table, visited cyclically from a home slot.  Nothing
here fixes what a slot holds: a table enters only through the predicate `occ` (the slot does not
end a search) and the predicate `stop` (the slot ends one).

* `slotAt cap h n` — the slot met at probe `n` from home slot `h`;
* `OnPath cap occ h s` — slot `s` is met from `h` after occupied slots only, the invariant an
  insertion establishes and every later insertion keeps;
* `IsFirst cap stop h n` — probe `n` is the first that stops.
-/

namespace Visuall.LinearProbe

variable {cap h : ℕ}

/-- The slot met at probe `n` from home slot `h` in a table of `cap` slots. -/
def slotAt (cap h n : ℕ) : ℕ := (h + n) % cap

theorem slotAt_lt (hc : 0 < cap) (n : ℕ) : slotAt cap h n < cap := Nat.mod_lt _ hc

theorem slotAt_succ (cap h n : ℕ) : (slotAt cap h n + 1) % cap = slotAt cap h (n + 1) := by
  rw [slotAt, slotAt, Nat.mod_add_mod, Nat.add_assoc]

theorem slotAt_mod (cap h n : ℕ) : slotAt cap (h % cap) n = slotAt cap h n := by
  rw [slotAt, slotAt, Nat.mod_add_mod]

/-- **Every slot is probed.**  The first `cap` probes meet each slot of the table. -/
theorem exists_slotAt {s : ℕ} (hs : s < cap) : ∃ n < cap, slotAt cap h n = s := by
  have hc : 0 < cap := by omega
  have hh : h % cap < cap := Nat.mod_lt _ hc
  rw [show slotAt cap h = slotAt cap (h % cap) from funext fun n => (slotAt_mod cap h n).symm]
  rcases Nat.lt_or_ge s (h % cap) with hlt | hge
  · refine ⟨s + cap - h % cap, by omega, ?_⟩
    rw [slotAt, show h % cap + (s + cap - h % cap) = s + cap by omega, Nat.add_mod_right,
      Nat.mod_eq_of_lt hs]
  · refine ⟨s - h % cap, by omega, ?_⟩
    rw [slotAt, show h % cap + (s - h % cap) = s by omega, Nat.mod_eq_of_lt hs]

/-- Slot `s` is met from home slot `h` after occupied slots only. -/
def OnPath (cap : ℕ) (occ : ℕ → Prop) (h s : ℕ) : Prop :=
  ∃ n < cap, slotAt cap h n = s ∧ ∀ i < n, occ (slotAt cap h i)

theorem OnPath.mono {occ occ' : ℕ → Prop} {s : ℕ} (hocc : ∀ t, occ t → occ' t)
    (hp : OnPath cap occ h s) : OnPath cap occ' h s := by
  obtain ⟨n, hn, hs, hbefore⟩ := hp
  exact ⟨n, hn, hs, fun i hi => hocc _ (hbefore i hi)⟩

/-- Probe `n` from `h` is the first whose slot stops the search. -/
structure IsFirst (cap : ℕ) (stop : ℕ → Prop) (h n : ℕ) : Prop where
  lt : n < cap
  stops : stop (slotAt cap h n)
  before : ∀ i < n, ¬ stop (slotAt cap h i)

/-- A table with a stopping slot has a first stopping probe. -/
theorem exists_isFirst (stop : ℕ → Prop) {s : ℕ} (hs : s < cap) (hstop : stop s) :
    ∃ n, IsFirst cap stop h n := by
  classical
  obtain ⟨m, hm, rfl⟩ := exists_slotAt (h := h) hs
  have hex : ∃ n, stop (slotAt cap h n) := ⟨m, hstop⟩
  exact ⟨Nat.find hex, lt_of_le_of_lt (Nat.find_min' hex hstop) hm, Nat.find_spec hex,
    fun i hi => Nat.find_min hex hi⟩

end Visuall.LinearProbe
