import Mathlib

/-!
# Loops with a stride

`for (i = start; i < stop; i += step)`, with `i > stop` for a negative step, over integers that have bounds; and
the slices of a sequence, as Python selects them.

* `Ahead`, `trips`, `progression` — the test of the loop, how often it holds, and the indices;
* `strideLoop`, `strideLoop_eq` — the loop runs its body over the progression, and ends unless the sum behind the
  last index leaves the bounds;
* `bound`, `slice` — `xs[start:stop:step]`.
-/

namespace Visuall.Stride

variable {start stop step i lo hi : ℤ} {k : ℕ}

/-! ### The indices -/

/-- The test of the loop. -/
def Ahead (stop step i : ℤ) : Prop := if 0 < step then i < stop else stop < i

instance : DecidablePred (Ahead stop step) := fun i => by
  unfold Ahead
  infer_instance

theorem ahead_pos (h : 0 < step) : Ahead stop step i ↔ i < stop := by rw [Ahead, if_pos h]

theorem ahead_neg (h : step < 0) : Ahead stop step i ↔ stop < i := by rw [Ahead, if_neg (by omega)]

/-- How often the test holds. -/
def trips (start stop step : ℤ) : ℕ :=
  if 0 < step then ((stop - start + step - 1) / step).toNat else ((start - stop - step - 1) / -step).toNat

theorem lt_trips (hstep : step ≠ 0) : k < trips start stop step ↔ Ahead stop step (start + k * step) := by
  have hcount (d m : ℤ) (hm : 0 < m) : k < ((d + m - 1) / m).toNat ↔ k * m < d := by
    rw [Int.lt_toNat, Int.lt_iff_add_one_le, Int.le_ediv_iff_mul_le hm, add_mul, one_mul]
    omega
  rcases lt_or_gt_of_ne hstep with hneg | hpos
  · rw [ahead_neg hneg, trips, if_neg (by omega), show start - stop - step - 1 = start - stop + -step - 1 by ring,
      hcount _ _ (by omega), mul_neg]
    omega
  · rw [ahead_pos hpos, trips, if_pos hpos, hcount _ _ hpos]
    omega

theorem trips_of_ahead (hstep : step ≠ 0) (h : Ahead stop step i) :
    trips i stop step = trips (i + step) stop step + 1 := by
  refine eq_of_forall_lt_iff fun k => ?_
  cases k with
  | zero => simpa [lt_trips hstep] using h
  | succ k =>
      rw [Nat.succ_lt_succ_iff, lt_trips hstep, lt_trips hstep]
      push_cast
      rw [show i + (k + 1) * step = i + step + k * step by ring]

theorem trips_of_not_ahead (hstep : step ≠ 0) (h : ¬ Ahead stop step i) : trips i stop step = 0 := by
  by_contra hne
  exact h (by simpa using (lt_trips hstep).mp (Nat.pos_of_ne_zero hne))

/-- No two indices are less than one apart. -/
theorem trips_le (start stop : ℤ) (hstep : step ≠ 0) :
    trips start stop step ≤ (if 0 < step then stop - start else start - stop).toNat := by
  by_contra hlt
  have hahead := (lt_trips hstep).mp (not_le.mp hlt)
  have hnonneg := Int.natCast_nonneg (if 0 < step then stop - start else start - stop).toNat
  rcases lt_or_gt_of_ne hstep with hneg | hpos
  · have hmul := mul_le_mul_of_nonneg_left (show step ≤ -1 by omega) hnonneg
    rw [ahead_neg hneg] at hahead
    rw [if_neg (by omega)] at hahead hmul
    omega
  · have hmul := mul_le_mul_of_nonneg_left (show 1 ≤ step by omega) hnonneg
    rw [ahead_pos hpos] at hahead
    rw [if_pos hpos] at hahead hmul
    omega

/-- The values from `start` on that are strictly before `stop`. -/
def progression (start stop step : ℤ) : List ℤ := (List.range (trips start stop step)).map fun k : ℕ => start + k * step

@[simp] theorem length_progression : (progression start stop step).length = trips start stop step := by
  simp [progression]

theorem progression_congr {stop' : ℤ} (h : trips start stop step = trips start stop' step) :
    progression start stop step = progression start stop' step := by
  rw [progression, progression, h]

theorem mem_progression (hstep : step ≠ 0) :
    i ∈ progression start stop step ↔ Ahead stop step i ∧ ∃ k : ℕ, i = start + k * step := by
  rw [progression, List.mem_map]
  constructor
  · rintro ⟨k, hk, rfl⟩
    exact ⟨(lt_trips hstep).mp (List.mem_range.mp hk), k, rfl⟩
  · rintro ⟨hahead, k, rfl⟩
    exact ⟨k, List.mem_range.mpr ((lt_trips hstep).mpr hahead), rfl⟩

theorem progression_of_ahead (hstep : step ≠ 0) (h : Ahead stop step i) :
    progression i stop step = i :: progression (i + step) stop step := by
  rw [progression, progression, trips_of_ahead hstep h, List.range_succ_eq_map, List.map_cons, List.map_map]
  congr 1
  · simp
  · refine List.map_congr_left fun k _ => ?_
    simp only [Function.comp_apply]
    push_cast
    ring

theorem progression_of_not_ahead (hstep : step ≠ 0) (h : ¬ Ahead stop step i) : progression i stop step = [] := by
  rw [progression, trips_of_not_ahead hstep h]
  rfl

/-- The indices of a loop lie between its bounds. -/
theorem between_of_mem (hstep : step ≠ 0) (h : i ∈ progression start stop step) :
    (0 < step → start ≤ i ∧ i < stop) ∧ (step < 0 → stop < i ∧ i ≤ start) := by
  obtain ⟨hahead, k, rfl⟩ := (mem_progression hstep).mp h
  constructor
  · intro hpos
    have := mul_nonneg (Int.natCast_nonneg k) hpos.le
    exact ⟨by omega, (ahead_pos hpos).mp hahead⟩
  · intro hneg
    have := mul_nonpos_of_nonneg_of_nonpos (Int.natCast_nonneg k) hneg.le
    exact ⟨(ahead_neg hneg).mp hahead, by omega⟩

/-- One index further: `0` is one of the values if they come to it. -/
theorem trips_below (hstep : step < 0) (hstart : 0 ≤ start) :
    trips start (-1) step = trips start 0 step ↔ ¬ step ∣ start := by
  have hlt (stop : ℤ) (k : ℕ) : k < trips start stop step ↔ stop < start + k * step := by
    rw [lt_trips (by omega), ahead_neg hstep]
  constructor
  · rintro heq ⟨q, rfl⟩
    have hq : q ≤ 0 := by
      by_contra hpos
      have := mul_neg_of_neg_of_pos hstep (show 0 < q by omega)
      omega
    have hzero : step * q + (q.natAbs : ℤ) * step = 0 := by
      rw [Int.ofNat_natAbs_of_nonpos hq]
      ring
    have hlow : q.natAbs < trips (step * q) (-1) step := (hlt _ _).mpr (by omega)
    rw [heq, hlt] at hlow
    omega
  · intro hdvd
    refine eq_of_forall_lt_iff fun k => ?_
    rw [hlt, hlt]
    have hne : start + k * step ≠ 0 := fun hzero => hdvd ⟨-k, by linarith⟩
    omega

/-! ### The loop -/

section Loop

variable {ε α : Type}

/-- The loop, from index `i` on: `overflow` is where an index leaves the bounds. -/
def strideLoop (lo hi : ℤ) (overflow : ε) (body : α → ℤ → Except ε α) (stop step : ℤ) (hstep : step ≠ 0) (i : ℤ)
    (a : α) : Except ε α :=
  if _h : Ahead stop step i then do
    let a ← body a i
    if lo ≤ i + step ∧ i + step ≤ hi then strideLoop lo hi overflow body stop step hstep (i + step) a
    else .error overflow
  else .ok a
termination_by trips i stop step
decreasing_by
  rw [trips_of_ahead hstep _h]
  exact Nat.lt_succ_self _

variable {overflow : ε} {body : α → ℤ → Except ε α}

/-- **The loop.**  Only the sum behind the last index can leave the bounds. -/
theorem strideLoop_eq (hstep : step ≠ 0) (hstart : lo ≤ start ∧ start ≤ hi) (hstop : lo ≤ stop ∧ stop ≤ hi) (a : α) :
    strideLoop lo hi overflow body stop step hstep start a = (do
      let a ← (progression start stop step).foldlM body a
      if lo ≤ start + trips start stop step * step ∧ start + trips start stop step * step ≤ hi then .ok a
      else .error overflow) := by
  induction hn : trips start stop step generalizing start a with
  | zero =>
      have hahead : ¬ Ahead stop step start := by
        intro h
        rw [trips_of_ahead hstep h] at hn
        cases hn
      rw [strideLoop, dif_neg hahead, progression_of_not_ahead hstep hahead]
      simp [hstart]
  | succ n ih =>
      have hahead : Ahead stop step start := by
        simpa using (lt_trips hstep).mp (show 0 < trips start stop step by omega)
      have hnext : trips (start + step) stop step = n := by
        rw [trips_of_ahead hstep hahead] at hn
        omega
      have hend : start + ↑(n + 1) * step = start + step + n * step := by
        push_cast
        ring
      rw [strideLoop, dif_pos hahead, progression_of_ahead hstep hahead, List.foldlM_cons, hend]
      cases body a start with
      | error e => rfl
      | ok b =>
          by_cases hin : lo ≤ start + step ∧ start + step ≤ hi
          · show (if lo ≤ start + step ∧ start + step ≤ hi then _ else _) = _
            rw [if_pos hin, ih hin b hnext]
            rfl
          · -- an index that is followed by another is between the first and `stop`
            have hlast : n = 0 := by
              by_contra hne
              have hnext' : Ahead stop step (start + step) := by
                simpa using (lt_trips hstep).mp (show 0 < trips (start + step) stop step by omega)
              rcases lt_or_gt_of_ne hstep with hneg | hpos
              · rw [ahead_neg hneg] at hnext'
                omega
              · rw [ahead_pos hpos] at hnext'
                omega
            subst hlast
            have hnone : ¬ Ahead stop step (start + step) := fun h => by
              rw [trips_of_ahead hstep h] at hnext
              cases hnext
            show (if lo ≤ start + step ∧ start + step ≤ hi then _ else _) = _
            rw [if_neg hin, progression_of_not_ahead hstep hnone]
            show _ = if lo ≤ start + step + ↑(0 : ℕ) * step ∧ start + step + ↑(0 : ℕ) * step ≤ hi then Except.ok b else _
            rw [Nat.cast_zero, zero_mul, add_zero, if_neg hin]

end Loop

/-! ### Slices -/

section Slice

variable {α : Type}

/-- A bound of a slice of `n` elements: one below zero counts from the end, and none is further out than where the
slice can begin or end. -/
def bound (n step i : ℤ) : ℤ :=
  if i < 0 then max (i + n) (if 0 < step then 0 else -1) else min i (if 0 < step then n else n - 1)

/-- The indices that `[start:stop:step]` selects of `n` elements. -/
def sliceIndices (n start stop step : ℤ) : List ℤ := progression (bound n step start) (bound n step stop) step

/-- The elements at indices. -/
def elementsAt (xs : List α) (is : List ℤ) : List α := is.filterMap fun i => xs[i.toNat]?

/-- `xs[start:stop:step]`. -/
def slice (xs : List α) (start stop step : ℤ) : List α := elementsAt xs (sliceIndices xs.length start stop step)

theorem elementsAt_cons {xs : List α} {is : List ℤ} (h : i.toNat < xs.length) :
    elementsAt xs (i :: is) = xs.get ⟨i.toNat, h⟩ :: elementsAt xs is :=
  List.filterMap_cons_some (f := fun i : ℤ => xs[i.toNat]?) (List.getElem?_eq_getElem h)

theorem length_elementsAt {xs : List α} {is : List ℤ} (h : ∀ i ∈ is, 0 ≤ i ∧ i < xs.length) :
    (elementsAt xs is).length = is.length := by
  induction is with
  | nil => rfl
  | cons i is ih =>
      obtain ⟨hi, his⟩ := List.forall_mem_cons.mp h
      rw [elementsAt_cons (by omega), List.length_cons, List.length_cons, ih his]

theorem sliceIndices_within {n : ℤ} (hn : 0 ≤ n) (hstep : step ≠ 0) (h : i ∈ sliceIndices n start stop step) :
    0 ≤ i ∧ i < n := by
  have hbetween := between_of_mem hstep h
  unfold bound at hbetween
  rcases lt_or_gt_of_ne hstep with hneg | hpos
  · have := hbetween.2 hneg
    simp only [if_neg (show ¬ 0 < step by omega)] at this
    split_ifs at this <;> omega
  · have := hbetween.1 hpos
    simp only [if_pos hpos] at this
    split_ifs at this <;> omega

/-- A slice selects no element twice. -/
theorem length_sliceIndices_le {n : ℤ} (start stop : ℤ) (hn : 0 ≤ n) (hstep : step ≠ 0) :
    (sliceIndices n start stop step).length ≤ n.toNat := by
  have htrips := trips_le (bound n step start) (bound n step stop) hstep
  rw [sliceIndices, length_progression]
  refine htrips.trans ?_
  unfold bound
  split_ifs <;> omega

/-! ### Bounds that are left out -/

/-- Where a slice begins; without a start, at the first element in the direction of the step. -/
def startBound (n step : ℤ) : Option ℤ → ℤ
  | none => if 0 < step then 0 else n - 1
  | some i => bound n step i

/-- Where a slice ends; without a stop, behind the last element in the direction of the step. -/
def stopBound (n step : ℤ) : Option ℤ → ℤ
  | none => if 0 < step then n else -1
  | some i => bound n step i

/-- `xs[start:stop:step]`, where the bounds may be left out. -/
def openSlice (xs : List α) (start stop : Option ℤ) (step : ℤ) : List α :=
  elementsAt xs (progression (startBound xs.length step start) (stopBound xs.length step stop) step)

/-- Forwards, the bounds that are left out are `0` and the length. -/
theorem openSlice_forward (xs : List α) (start stop : Option ℤ) (hstep : 0 < step) :
    openSlice xs start stop step = slice xs (start.getD 0) (stop.getD xs.length) step := by
  have hstart : startBound xs.length step start = bound xs.length step (start.getD 0) := by
    cases start with
    | none =>
        show (if 0 < step then (0 : ℤ) else _) = bound xs.length step 0
        rw [bound, if_pos hstep, if_neg (lt_irrefl 0), if_pos hstep, min_eq_left (Int.natCast_nonneg _)]
    | some i => rfl
  have hstop : stopBound xs.length step stop = bound xs.length step (stop.getD xs.length) := by
    cases stop with
    | none =>
        show (if 0 < step then (xs.length : ℤ) else _) = bound xs.length step xs.length
        rw [bound, if_pos hstep, if_neg (by omega), if_pos hstep, min_self]
    | some i => rfl
  rw [openSlice, hstart, hstop, slice, sliceIndices]

/-- The elements at indices, if there are none. -/
theorem elementsAt_progression_nil {xs : List α} (hstep : step ≠ 0)
    (hwithin : ∀ i ∈ progression start stop step, 0 ≤ i ∧ i < xs.length) :
    elementsAt xs (progression start stop step) = [] ↔ ¬ Ahead stop step start := by
  rw [← List.length_eq_zero_iff, length_elementsAt hwithin, length_progression]
  constructor
  · intro hnone hahead
    rw [trips_of_ahead hstep hahead] at hnone
    cases hnone
  · exact trips_of_not_ahead hstep

theorem openSlice_within (xs : List α) (start stop : Option ℤ) (hstep : step < 0) :
    ∀ i ∈ progression (startBound xs.length step start) (stopBound xs.length step stop) step, 0 ≤ i ∧ i < xs.length := by
  intro i hi
  have hbetween := (between_of_mem hstep.ne hi).2 hstep
  have hforth : ¬ 0 < step := by omega
  have hlow : -1 ≤ stopBound xs.length step stop := by
    cases stop with
    | none => exact (if_neg hforth).ge
    | some t =>
        rw [stopBound, bound, if_neg hforth, if_neg hforth]
        split_ifs <;> omega
  have hhigh : startBound xs.length step start ≤ xs.length - 1 := by
    cases start with
    | none => exact (if_neg hforth).le
    | some s =>
        rw [startBound, bound, if_neg hforth, if_neg hforth]
        split_ifs <;> omega
  omega

/-- **A slice that goes backwards is empty** exactly when it does not begin behind its end. -/
theorem openSlice_nil (xs : List α) (start stop : Option ℤ) (hstep : step < 0) :
    openSlice xs start stop step = [] ↔ startBound xs.length step start ≤ stopBound xs.length step stop := by
  rw [openSlice, elementsAt_progression_nil hstep.ne (openSlice_within xs start stop hstep), ahead_neg hstep, not_lt]

end Slice

end Visuall.Stride
