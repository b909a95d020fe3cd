import Visuall.Lib.LinearProbe

/-!
# Deletion by shifting back

A slot of a table with linear probing is emptied without a tombstone: a gap travels along the cluster behind it,
and every content whose path crosses the gap is moved into it.

* `Within cap g d k` — slot `k` is one of the `d` slots behind `g`;
* `Gap cap occ home g d` — the invariant: the paths cross nothing empty but the gap `g`, and the first slots
  behind it do not need the gap;
* `Gap.start`, `Gap.pass`, `Gap.shift`, `Gap.stop` — the emptied slot, a content that stays, one that is moved,
  and the end of the cluster.
-/

namespace Visuall.LinearProbe

variable {cap g d : ℕ} {occ occ' : ℕ → Prop} {home home' : ℕ → ℕ}

theorem slotAt_zero (hg : g < cap) : slotAt cap g 0 = g := Nat.mod_eq_of_lt hg

theorem slotAt_add (cap h m n : ℕ) : slotAt cap (slotAt cap h m) n = slotAt cap h (m + n) := by
  rw [slotAt, slotAt, slotAt, Nat.mod_add_mod, Nat.add_assoc]

theorem slotAt_inj {h m n : ℕ} (hm : m < cap) (hn : n < cap) (heq : slotAt cap h m = slotAt cap h n) : m = n := by
  have hmod : m ≡ n [MOD cap] := Nat.ModEq.add_left_cancel' h heq
  exact Nat.ModEq.eq_of_lt_of_lt hmod hm hn

/-- `k` is one of the `d` slots behind `g`. -/
def Within (cap g d k : ℕ) : Prop := ∃ i, 0 < i ∧ i ≤ d ∧ slotAt cap g i = k

/-- The same by comparing slots. -/
theorem within_iff {j k : ℕ} (hg : g < cap) (hk : k < cap) (hpos : 0 < d) (hd : d < cap) (hj : slotAt cap g d = j) :
    ¬ Within cap g d k ↔ (j > g ∧ (k ≤ g ∨ k > j)) ∨ (j < g ∧ k ≤ g ∧ k > j) := by
  have hslot : ∀ i < cap, slotAt cap g i = if g + i < cap then g + i else g + i - cap := by
    intro i hi
    rw [slotAt]
    split
    · rename_i h
      exact Nat.mod_eq_of_lt h
    · rename_i h
      rw [Nat.mod_eq_sub_mod (by omega), Nat.mod_eq_of_lt (by omega)]
  have hjd := hslot d hd
  rw [hj] at hjd
  constructor
  · intro hnot
    by_contra hcond
    refine hnot ?_
    by_cases hwrap : g + d < cap
    · rw [if_pos hwrap] at hjd
      exact ⟨k - g, by omega, by omega, by rw [hslot _ (by omega), if_pos (by omega)]; omega⟩
    · rw [if_neg hwrap] at hjd
      by_cases hkg : g < k
      · exact ⟨k - g, by omega, by omega, by rw [hslot _ (by omega), if_pos (by omega)]; omega⟩
      · exact ⟨k + cap - g, by omega, by omega, by rw [hslot _ (by omega), if_neg (by omega)]; omega⟩
  · rintro hcond ⟨i, hi, hid, rfl⟩
    rw [hslot i (by omega)] at hcond
    by_cases hwrap : g + d < cap
    · rw [if_pos hwrap] at hjd
      rw [if_pos (by omega)] at hcond
      omega
    · rw [if_neg hwrap] at hjd
      split at hcond <;> omega

/-- **The gap.**  Slot `g` is empty, and a path crosses no other empty slot; the occupied slots up to `d` slots
behind it are reached without it. -/
structure Gap (cap : ℕ) (occ : ℕ → Prop) (home : ℕ → ℕ) (g d : ℕ) : Prop where
  lt : g < cap
  pos : 0 < d
  empty : ¬ occ g
  run : ∀ i, 0 < i → i < d → occ (slotAt cap g i)
  reach : ∀ s < cap, occ s → OnPath cap (fun t => occ t ∨ t = g) (home s) s
  clear : ∀ i, 0 < i → i < d → OnPath cap occ (home (slotAt cap g i)) (slotAt cap g i)

/-- Emptying a slot. -/
theorem Gap.start (hg : g < cap) (hpath : ∀ s < cap, occ s → OnPath cap occ (home s) s)
    (hocc : ∀ s, occ' s ↔ occ s ∧ s ≠ g) (hkept : ∀ s, s ≠ g → home' s = home s) : Gap cap occ' home' g 1 where
  lt := hg
  pos := Nat.one_pos
  empty h := ((hocc g).mp h).2 rfl
  run i hi hi' := by omega
  reach s hs hos := by
    obtain ⟨hos, hsg⟩ := (hocc s).mp hos
    rw [hkept s hsg]
    refine (hpath s hs hos).mono fun t ht => ?_
    by_cases htg : t = g
    · exact .inr htg
    · exact .inl ((hocc t).mpr ⟨ht, htg⟩)
  clear i hi hi' := by omega

/-- A content whose home is behind the gap stays. -/
theorem Gap.pass (h : Gap cap occ home g d) (hd : d < cap) (hocc : occ (slotAt cap g d))
    (hin : Within cap g d (home (slotAt cap g d))) : Gap cap occ home g (d + 1) where
  lt := h.lt
  pos := Nat.succ_pos d
  empty := h.empty
  run i hi hi' := by
    rcases Nat.lt_succ_iff_lt_or_eq.mp hi' with hlt | rfl
    · exact h.run i hi hlt
    · exact hocc
  reach := h.reach
  clear i hi hi' := by
    rcases Nat.lt_succ_iff_lt_or_eq.mp hi' with hlt | rfl
    · exact h.clear i hi hlt
    · -- the path from the home to the slot is a part of the run behind the gap
      obtain ⟨m, hm, hmd, hhome⟩ := hin
      refine ⟨i - m, by omega, ?_, fun n hn => ?_⟩
      · rw [← hhome, slotAt_add, Nat.add_sub_cancel' hmd]
      · rw [← hhome, slotAt_add]
        exact h.run (m + n) (by omega) (by omega)

/-- A path to a slot behind the gap that does not start behind the gap comes by it. -/
theorem Gap.through (h : Gap cap occ home g d) (hd : d < cap) (hocc : occ (slotAt cap g d))
    (hhome : home (slotAt cap g d) < cap) (hout : ¬ Within cap g d (home (slotAt cap g d))) :
    OnPath cap (fun t => occ t ∨ t = g) (home (slotAt cap g d)) g := by
  obtain ⟨n, hn, hslot, hbefore⟩ := h.reach _ (slotAt_lt (by omega) d) hocc
  obtain ⟨m, hm, hback⟩ := exists_slotAt (h := home (slotAt cap g d)) h.lt
  refine ⟨m, hm, hback, fun i hi => hbefore i ?_⟩
  by_contra hlt
  -- otherwise the slot comes before the gap on the path, so the home is between the gap and the slot
  have hmod : n ≡ m + d [MOD cap] := by
    refine Nat.ModEq.add_left_cancel' (home (slotAt cap g d)) ?_
    show slotAt cap _ n = slotAt cap _ (m + d)
    rw [hslot, ← slotAt_add, hback]
  have hsum : m + d = n + cap := by
    have hmod' : n % cap = (m + d) % cap := hmod
    rw [Nat.mod_eq_of_lt hn] at hmod'
    by_cases hsmall : m + d < cap
    · rw [Nat.mod_eq_of_lt hsmall] at hmod'
      omega
    · rw [Nat.mod_eq_sub_mod (by omega), Nat.mod_eq_of_lt (by omega)] at hmod'
      omega
  refine hout ⟨d - n, by omega, by omega, ?_⟩
  have hgap : slotAt cap g (d - n) = slotAt cap (slotAt cap (home (slotAt cap g d)) m) (d - n) := by rw [hback]
  rw [hgap, slotAt_add, show m + (d - n) = cap by omega, slotAt, Nat.add_mod_right, Nat.mod_eq_of_lt hhome]

/-- A content whose path crosses the gap is moved into it, and leaves the gap at its slot. -/
theorem Gap.shift {j : ℕ} (h : Gap cap occ home g d) (hd : d < cap) (hj : slotAt cap g d = j) (hocc : occ j)
    (hhome : home j < cap) (hout : ¬ Within cap g d (home j))
    (hocc' : ∀ s, occ' s ↔ (occ s ∨ s = g) ∧ s ≠ j) (hmoved : home' g = home j)
    (hkept : ∀ s, s ≠ g → s ≠ j → home' s = home s) : Gap cap occ' home' j 1 where
  lt := hj ▸ slotAt_lt (by omega) d
  pos := Nat.one_pos
  empty h' := ((hocc' j).mp h').2 rfl
  run i hi hi' := by omega
  reach s hs hos := by
    have hsame : ∀ t, occ t ∨ t = g → occ' t ∨ t = j := fun t ht => by
      by_cases htj : t = j
      · exact .inr htj
      · exact .inl ((hocc' t).mpr ⟨ht, htj⟩)
    obtain ⟨hs', hsj⟩ := (hocc' s).mp hos
    by_cases hsg : s = g
    · subst hsg
      rw [hmoved]
      subst hj
      exact (h.through hd hocc hhome hout).mono hsame
    · rw [hkept s hsg hsj]
      exact (h.reach s hs (hs'.resolve_right hsg)).mono hsame
  clear i hi hi' := by omega

/-- At an empty slot behind the gap, nothing needs the gap. -/
theorem Gap.stop (h : Gap cap occ home g d) (hd : d < cap) (hempty : ¬ occ (slotAt cap g d)) :
    ∀ s < cap, occ s → OnPath cap occ (home s) s := by
  intro s hs hos
  obtain ⟨n, hn, hslot, hbefore⟩ := h.reach s hs hos
  by_cases hcross : ∃ m < n, slotAt cap (home s) m = g
  · -- behind the gap the path stays in the run
    obtain ⟨m, hm, hgap⟩ := hcross
    have hbehind : ∀ i, slotAt cap g i = slotAt cap (home s) (m + i) := fun i => by rw [← hgap, slotAt_add]
    have hlt : n - m < d := by
      by_contra hge
      rcases Nat.lt_or_eq_of_le (Nat.not_lt.mp hge) with hlt | heq
      · refine (hbefore (m + d) (by omega)).elim (fun ho => hempty ((hbehind d).symm ▸ ho)) fun heq => ?_
        rw [← hbehind] at heq
        have hzero : d = 0 := slotAt_inj hd (by omega) (heq.trans (slotAt_zero h.lt).symm)
        exact absurd hzero h.pos.ne'
      · refine hempty ?_
        rw [hbehind, show m + d = n by omega, hslot]
        exact hos
    have hs' : slotAt cap g (n - m) = s := by rw [hbehind, Nat.add_sub_cancel' hm.le, hslot]
    have hclear := h.clear (n - m) (by omega) hlt
    rwa [hs'] at hclear
  · push Not at hcross
    exact ⟨n, hn, hslot, fun i hi => (hbefore i hi).resolve_right (hcross i hi)⟩

end Visuall.LinearProbe
