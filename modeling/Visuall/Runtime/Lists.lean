import Visuall.Runtime.Dict
import Visuall.Lib.Stride
import Visuall.Lib.Effect

/-!
# Lists: slices and ranges

`__visuall_list_push`, `__visuall_list_slice` and `__visuall_range` of `stdlib/runtime.c`.  An access outside a
list and a sum that leaves 64 bits, on which the C has no defined behaviour, are values of `Stop`, and so is
`exit(1)`; `malloc` and `realloc` are taken to serve every request.

* `VisualList`, `listPush` — a list and how it grows;
* `listSlice`, `range` — the two functions, over the loop of `Visuall.Lib.Stride`;
* `listSlice_iff`, `range_iff` — when they give what Python gives.
-/

namespace Visuall.Runtime

open Visuall.Stride

/-- The ways a function ends without returning. -/
inductive Stop where
  /-- The text goes to `stderr` and the process exits with status 1. -/
  | exit (msg : String)
  /-- Something outside a list, a string or a block is read or written. -/
  | outOfBounds
  /-- A signed sum is not a 64-bit number. -/
  | overflow
deriving DecidableEq

def int64Min : ℤ := -2 ^ 63

def sizeMax : ℕ := 2 ^ 64 - 1

/-- `a + b` in `int64_t`. -/
def addInt64 (a b : ℤ) : Except Stop ℤ :=
  if int64Min ≤ a + b ∧ a + b ≤ int64Max then .ok (a + b) else .error .overflow

/-- `for (int64_t i = start; i < stop; i += step)`, with `i > stop` for a negative step. -/
def forStep {α : Type} (body : α → ℤ → Except Stop α) (start stop step : ℤ) (hstep : step ≠ 0) (a : α) :
    Except Stop α :=
  strideLoop int64Min int64Max .overflow body stop step hstep start a

/-! ### Lists -/

/-- `VisualList`: the first `length` slots of `data`.  The capacity starts at 8 and is doubled, and the buffer is
no larger than a `size_t` can say. -/
structure VisualList (α : Type) where
  data : List α
  capacity : ℕ
  fits : data.length ≤ capacity
  doubled : ∃ k, capacity = 8 * 2 ^ k
  sized : capacity ≤ sizeMax / 8

/-- `__visuall_list_new`. -/
def listNew (α : Type) : VisualList α := ⟨[], 8, Nat.zero_le _, ⟨0, rfl⟩, by norm_num [sizeMax]⟩

variable {α : Type}

/-- `__visuall_list_push`, on a list that is not NULL. -/
def listPush (list : VisualList α) (value : α) : Except Stop (VisualList α) :=
  if _hfull : list.capacity ≤ list.data.length then
    if int64Max / 2 < list.capacity then .error (.exit "list capacity overflow\n")
    else if hsize : sizeMax / 8 < list.capacity * 2 then .error (.exit "list allocation size overflow\n")
    else .ok {
      data := list.data ++ [value]
      capacity := list.capacity * 2
      fits := by
        obtain ⟨k, hk⟩ := list.doubled
        have hpos : 0 < 2 ^ k := Nat.two_pow_pos k
        have := list.fits
        rw [List.length_append, List.length_singleton]
        omega
      doubled := by
        obtain ⟨k, hk⟩ := list.doubled
        exact ⟨k + 1, by rw [hk, pow_succ, mul_assoc]⟩
      sized := by omega }
  else .ok { list with
    data := list.data ++ [value]
    fits := by
      rw [List.length_append, List.length_singleton]
      omega }

/-- As many elements as a list can have: the next doubling is refused. -/
def maxLength : ℕ := 2 ^ 60

theorem VisualList.capacity_le (list : VisualList α) : list.capacity ≤ maxLength := by
  obtain ⟨k, hk⟩ := list.doubled
  have hsized := list.sized
  have hpow : 8 * 2 ^ k = 2 ^ (k + 3) := by ring
  have hlt : 2 ^ (k + 3) < 2 ^ 61 := by
    rw [← hpow, ← hk]
    norm_num [sizeMax] at hsized
    omega
  have hk' : k + 3 < 61 := (Nat.pow_lt_pow_iff_right (by norm_num)).mp hlt
  rw [hk, hpow]
  exact Nat.pow_le_pow_right (by norm_num) (by omega)

theorem VisualList.length_le (list : VisualList α) : list.data.length ≤ maxLength :=
  list.fits.trans list.capacity_le

theorem listPush_ok (list : VisualList α) (value : α) (h : list.data.length < maxLength) :
    ∃ out, listPush list value = .ok out ∧ out.data = list.data ++ [value] := by
  have hcap := list.capacity_le
  unfold listPush
  by_cases hfull : list.capacity ≤ list.data.length
  · -- a full list has a power of two of elements, so the doubled capacity is at most the greatest
    have heq : list.capacity = list.data.length := le_antisymm hfull list.fits
    obtain ⟨k, hk⟩ := list.doubled
    have hpow : 8 * 2 ^ k = 2 ^ (k + 3) := by ring
    have hlt : 2 ^ (k + 3) < 2 ^ 60 := by
      rw [← hpow, ← hk, heq]
      exact h
    have hk' : k + 3 < 60 := (Nat.pow_lt_pow_iff_right (by norm_num)).mp hlt
    have hle : list.capacity ≤ 2 ^ 59 := by
      rw [hk, hpow]
      exact Nat.pow_le_pow_right (by norm_num) (by omega)
    rw [dif_pos hfull, if_neg (by norm_num [int64Max]; omega), dif_neg (by norm_num [sizeMax]; omega)]
    exact ⟨_, rfl, rfl⟩
  · rw [dif_neg hfull]
    exact ⟨_, rfl, rfl⟩

theorem listPush_full {list out : VisualList α} {value : α} (h : list.data.length = maxLength) :
    listPush list value ≠ .ok out := by
  have hcap : list.capacity = maxLength := le_antisymm list.capacity_le (h ▸ list.fits)
  unfold listPush
  rw [dif_pos (by omega), if_neg (by norm_num [hcap, int64Max, maxLength]),
    dif_pos (by norm_num [hcap, sizeMax, maxLength])]
  exact fun h => by cases h

/-- One element after another. -/
theorem pushAll_ok (list : VisualList α) (values : List α) (h : list.data.length + values.length ≤ maxLength) :
    ∃ out, values.foldlM listPush list = .ok out ∧ out.data = list.data ++ values := by
  induction values generalizing list with
  | nil => exact ⟨list, rfl, (List.append_nil _).symm⟩
  | cons value values ih =>
      rw [List.length_cons] at h
      obtain ⟨next, hpush, hnext⟩ := listPush_ok list value (by omega)
      have hlen : next.data.length = list.data.length + 1 := by rw [hnext, List.length_append, List.length_singleton]
      obtain ⟨out, hall, hout⟩ := ih next (by omega)
      refine ⟨out, ?_, by rw [hout, hnext, List.append_assoc, List.singleton_append]⟩
      rw [List.foldlM_cons, hpush]
      exact hall

/-- What was pushed fits. -/
theorem pushAll_length (values : List α) {list out : VisualList α} (h : values.foldlM listPush list = .ok out) :
    list.data.length + values.length ≤ maxLength := by
  induction values generalizing list with
  | nil => exact list.length_le
  | cons value values ih =>
      rw [List.foldlM_cons] at h
      obtain ⟨next, hpush, hall⟩ := Effect.ok_of_bind h
      have hlt : list.data.length < maxLength := by
        refine lt_of_le_of_ne list.length_le fun heq => ?_
        exact listPush_full heq hpush
      obtain ⟨next', hpush', hnext⟩ := listPush_ok list value hlt
      rw [hpush'] at hpush
      cases hpush
      have := ih hall
      rw [hnext, List.length_append, List.length_singleton] at this
      rw [List.length_cons]
      omega

/-! ### Slices -/

/-- `list->data[i]`. -/
def readAt (data : List α) (i : ℤ) : Except Stop α :=
  if h : 0 ≤ i ∧ i < data.length then .ok (data.get ⟨i.toNat, by omega⟩) else .error .outOfBounds

/-- A bound as `__visuall_list_slice` clamps it to `[0, len]`. -/
def clampBound (len i : ℤ) : Except Stop ℤ := do
  let i ← if i < 0 then do
      let i ← addInt64 i len
      pure (if i < 0 then 0 else i)
    else pure i
  return if i > len then len else i

/-- `if (step == 0) step = 1`. -/
def unitStep (step : ℤ) : ℤ := if step = 0 then 1 else step

theorem unitStep_ne (step : ℤ) : unitStep step ≠ 0 := by
  unfold unitStep
  split_ifs <;> omega

/-- `__visuall_list_push(out, list->data[i])`. -/
def copyAt (data : List α) (out : VisualList α) (i : ℤ) : Except Stop (VisualList α) := do
  listPush out (← readAt data i)

/-- `__visuall_list_slice`; `none` is NULL. -/
def listSlice : Option (VisualList α) → Int64 → Int64 → Int64 → Except Stop (VisualList α)
  | none, _, _, _ => .ok (listNew α)
  | some list, start, stop, step => do
    let start ← clampBound list.data.length start.toInt
    let stop ← clampBound list.data.length stop.toInt
    forStep (copyAt list.data) start stop (unitStep step.toInt) (unitStep_ne _) (listNew α)

/-- A bound with what is below zero counted from the end. -/
def wrapped (len i : ℤ) : ℤ := if i < 0 then i + len else i

/-- The bound that the slice of a list has. -/
def clamped (len i : ℤ) : ℤ := min (max (wrapped len i) 0) len

theorem addInt64_ok {a b : ℤ} (h : int64Min ≤ a + b ∧ a + b ≤ int64Max) : addInt64 a b = .ok (a + b) := if_pos h

theorem int64_bounds (x : Int64) : int64Min ≤ x.toInt ∧ x.toInt ≤ int64Max :=
  ⟨x.le_toInt, Int.le_sub_one_of_lt x.toInt_lt⟩

section Bounds

variable {len i : ℤ}

theorem wrapped_bounds (hlen : 0 ≤ len ∧ len ≤ int64Max) (hi : int64Min ≤ i ∧ i ≤ int64Max) :
    int64Min ≤ wrapped len i ∧ wrapped len i ≤ int64Max := by
  unfold wrapped
  split_ifs <;> omega

theorem clamped_bounds (hlen : 0 ≤ len) : 0 ≤ clamped len i ∧ clamped len i ≤ len := by
  unfold clamped
  omega

theorem clampBound_eq (hlen : 0 ≤ len ∧ len ≤ int64Max) (hi : int64Min ≤ i ∧ i ≤ int64Max) :
    clampBound len i = .ok (clamped len i) := by
  have hwrapped := wrapped_bounds hlen hi
  unfold clampBound clamped
  by_cases hneg : i < 0
  · rw [wrapped, if_pos hneg] at hwrapped ⊢
    rw [if_pos hneg, addInt64_ok hwrapped]
    show Except.ok (if (if i + len < 0 then 0 else i + len) > len then len else if i + len < 0 then 0 else i + len) = _
    congr 1
    split_ifs <;> omega
  · rw [wrapped, if_neg hneg, if_neg hneg]
    show Except.ok (if i > len then len else i) = _
    congr 1
    split_ifs <;> omega

end Bounds

/-! #### What the loop copies -/

/-- Indices inside the list: their elements are pushed. -/
theorem copyAll_eq {data : List α} {is : List ℤ} (h : ∀ i ∈ is, 0 ≤ i ∧ i < data.length) (out : VisualList α) :
    is.foldlM (copyAt data) out = (elementsAt data is).foldlM listPush out := by
  induction is generalizing out with
  | nil => rfl
  | cons i is ih =>
      obtain ⟨hi, his⟩ := List.forall_mem_cons.mp h
      have hlt : i.toNat < data.length := by omega
      have hread : readAt data i = .ok (data.get ⟨i.toNat, hlt⟩) := dif_pos hi
      rw [elementsAt_cons hlt, List.foldlM_cons, List.foldlM_cons, copyAt, hread]
      exact bind_congr fun out => ih his out

/-- An index outside the list ends the loop. -/
theorem copyAll_outside {data : List α} {is : List ℤ} {i : ℤ} (hmem : i ∈ is) (h : ¬ (0 ≤ i ∧ i < data.length))
    (out result : VisualList α) : is.foldlM (copyAt data) out ≠ .ok result := by
  induction is generalizing out with
  | nil => cases hmem
  | cons j is ih =>
      intro hall
      rw [List.foldlM_cons] at hall
      obtain ⟨next, hcopy, hrest⟩ := Effect.ok_of_bind hall
      rcases List.mem_cons.mp hmem with rfl | hmem
      · rw [copyAt, readAt, dif_neg h] at hcopy
        cases hcopy
      · exact ih hmem next hrest

/-! #### When a slice is Python's -/

theorem listSlice_eq (list : VisualList α) (start stop step : Int64) :
    listSlice (some list) start stop step =
      (let s := clamped list.data.length start.toInt
       let t := clamped list.data.length stop.toInt
       let u := unitStep step.toInt
       do
        let out ← (progression s t u).foldlM (copyAt list.data) (listNew α)
        if int64Min ≤ s + trips s t u * u ∧ s + trips s t u * u ≤ int64Max then .ok out else .error .overflow) := by
  have hlen : (0 : ℤ) ≤ list.data.length ∧ (list.data.length : ℤ) ≤ int64Max := by
    have := list.length_le
    norm_num [maxLength, int64Max] at this ⊢
    omega
  have hbound (i : ℤ) : int64Min ≤ clamped list.data.length i ∧ clamped list.data.length i ≤ int64Max := by
    have := clamped_bounds (i := i) hlen.1
    norm_num [int64Min] at hlen ⊢
    omega
  rw [listSlice, clampBound_eq hlen (int64_bounds start), clampBound_eq hlen (int64_bounds stop)]
  exact strideLoop_eq (unitStep_ne _) (hbound _) (hbound _) _

/-- When `__visuall_list_slice` selects what Python does.  Forwards, the index behind the last one is still a 64-bit
number.  Backwards, the slice does not begin behind the last element, and if it ends before the first one it does
not come to that. -/
def SlicesRight (n start stop step : ℤ) : Prop :=
  if 0 ≤ step then
    clamped n start + trips (clamped n start) (clamped n stop) (unitStep step) * unitStep step ≤ int64Max
  else
    (n ≤ start → clamped n stop = n) ∧
      (wrapped n stop < 0 → 0 ≤ wrapped n start → wrapped n start < n → ¬ step ∣ wrapped n start)

/-- The copies of a slice whose indices are inside the list. -/
theorem copyAll_ok {list : VisualList α} {is : List ℤ} (h : ∀ i ∈ is, 0 ≤ i ∧ i < list.data.length)
    (hlen : is.length ≤ list.data.length) :
    ∃ out, is.foldlM (copyAt list.data) (listNew α) = .ok out ∧ out.data = elementsAt list.data is := by
  rw [copyAll_eq h]
  have hvalues := length_elementsAt h
  have hle := list.length_le
  obtain ⟨out, hall, hout⟩ := pushAll_ok (listNew α) (elementsAt list.data is) (by
    show 0 + _ ≤ _
    omega)
  exact ⟨out, hall, hout.trans (List.nil_append _)⟩

section Forward

variable {n u i : ℤ}

theorem clamped_eq_bound (hn : 0 ≤ n) (hu : 0 < u) : clamped n i = bound n u i := by
  unfold clamped wrapped bound
  rw [if_pos hu, if_pos hu]
  split_ifs <;> omega

end Forward

/-! Backwards the two bounds are clamped like those of a slice that goes forwards. -/

section Backward

variable {n start stop step : ℤ}

/-- A slice that begins before the first element selects nothing, and neither does the loop. -/
theorem backward_before (stop : ℤ) (hn : 0 ≤ n) (hstep : step < 0) (h : wrapped n start < 0) :
    progression (clamped n start) (clamped n stop) step = [] ∧ sliceIndices n start stop step = [] := by
  have hstop := clamped_bounds (i := stop) hn
  constructor
  · refine progression_of_not_ahead (by omega) fun hahead => ?_
    rw [ahead_neg hstep] at hahead
    unfold clamped at hahead hstop
    omega
  · refine progression_of_not_ahead (by omega) fun hahead => ?_
    rw [ahead_neg hstep] at hahead
    unfold bound at hahead
    unfold wrapped at h
    split_ifs at hahead h <;> omega

/-- A slice that begins behind the last element and ends there selects nothing, and neither does the loop. -/
theorem backward_behind (hn : 0 ≤ n) (hstep : step < 0) (h : n ≤ wrapped n start) (hstop : clamped n stop = n) :
    progression (clamped n start) (clamped n stop) step = [] ∧ sliceIndices n start stop step = [] := by
  have hstart := clamped_bounds (i := start) hn
  constructor
  · refine progression_of_not_ahead (by omega) fun hahead => ?_
    rw [ahead_neg hstep] at hahead
    omega
  · refine progression_of_not_ahead (by omega) fun hahead => ?_
    rw [ahead_neg hstep] at hahead
    unfold bound at hahead
    unfold wrapped at h
    unfold clamped wrapped at hstop
    split_ifs at hahead h hstop <;> omega

/-- A slice that begins at an element: the loop is as long as the slice unless that comes to the first element from
behind a bound before it. -/
theorem backward_inside (stop : ℤ) (hstep : step < 0) (hlow : 0 ≤ wrapped n start) (hhigh : wrapped n start < n) :
    clamped n start = wrapped n start ∧ bound n step start = wrapped n start ∧
      (trips (wrapped n start) (clamped n stop) step = trips (wrapped n start) (bound n step stop) step ↔
        (wrapped n stop < 0 → ¬ step ∣ wrapped n start)) := by
  have hnot : ¬ 0 < step := by omega
  refine ⟨by unfold clamped; omega, ?_, ?_⟩
  · unfold bound
    unfold wrapped at hlow hhigh ⊢
    rw [if_neg hnot, if_neg hnot]
    split_ifs at hlow hhigh ⊢ <;> omega
  · by_cases hstop : wrapped n stop < 0
    · have hclamped : clamped n stop = 0 := by
        unfold clamped
        omega
      have hbound : bound n step stop = -1 := by
        unfold bound
        unfold wrapped at hstop
        rw [if_neg hnot, if_neg hnot]
        split_ifs at hstop ⊢ <;> omega
      rw [hclamped, hbound, eq_comm, trips_below hstep hlow]
      exact ⟨fun h _ => h, fun h => h hstop⟩
    · refine ⟨fun _ h => absurd h hstop, fun _ => ?_⟩
      by_cases hfar : n ≤ wrapped n stop
      · rw [trips_of_not_ahead (by omega), trips_of_not_ahead (by omega)]
        · rw [ahead_neg hstep]
          unfold bound
          unfold wrapped at hfar hstop hhigh ⊢
          rw [if_neg hnot, if_neg hnot]
          split_ifs at hfar hstop hhigh ⊢ <;> omega
        · rw [ahead_neg hstep]
          unfold clamped
          omega
      · congr 1
        unfold clamped bound
        unfold wrapped at hfar hstop ⊢
        rw [if_neg hnot, if_neg hnot]
        split_ifs at hfar hstop ⊢ <;> omega

end Backward

section Right

variable (list : VisualList α) (start stop step : Int64)

/-- A loop whose indices are inside the list. -/
theorem listSlice_within
    (hwithin : ∀ i ∈ progression (clamped list.data.length start.toInt) (clamped list.data.length stop.toInt)
      (unitStep step.toInt), 0 ≤ i ∧ i < list.data.length) :
    ∃ out : VisualList α, out.data = elementsAt list.data
        (progression (clamped list.data.length start.toInt) (clamped list.data.length stop.toInt)
          (unitStep step.toInt)) ∧
      listSlice (some list) start stop step =
        (let s := clamped list.data.length start.toInt
         let t := clamped list.data.length stop.toInt
         let u := unitStep step.toInt
         if int64Min ≤ s + trips s t u * u ∧ s + trips s t u * u ≤ int64Max then .ok out else .error .overflow) := by
  have hstart := clamped_bounds (i := start.toInt) (show (0 : ℤ) ≤ list.data.length by omega)
  have hstop := clamped_bounds (i := stop.toInt) (show (0 : ℤ) ≤ list.data.length by omega)
  have htrips := trips_le (clamped list.data.length start.toInt)
    (clamped list.data.length stop.toInt) (unitStep_ne step.toInt)
  obtain ⟨out, hall, hout⟩ := copyAll_ok hwithin (by
    rw [length_progression]
    split_ifs at htrips <;> omega)
  refine ⟨out, hout, ?_⟩
  rw [listSlice_eq]
  dsimp only
  rw [hall]
  rfl

theorem forward_right (hstep : 0 ≤ step.toInt) :
    (∃ out, listSlice (some list) start stop step = .ok out ∧
      out.data = slice list.data start.toInt stop.toInt (unitStep step.toInt)) ↔
    SlicesRight list.data.length start.toInt stop.toInt step.toInt := by
  have hn : (0 : ℤ) ≤ list.data.length := Int.natCast_nonneg _
  have hunit : 0 < unitStep step.toInt := by
    unfold unitStep
    split_ifs <;> omega
  have hindices : progression (clamped list.data.length start.toInt) (clamped list.data.length stop.toInt)
      (unitStep step.toInt) = sliceIndices list.data.length start.toInt stop.toInt (unitStep step.toInt) := by
    rw [clamped_eq_bound hn hunit, clamped_eq_bound hn hunit]
    rfl
  obtain ⟨out, hout, hrun⟩ := listSlice_within list start stop step (by
    rw [hindices]
    exact fun i hi => sliceIndices_within hn (unitStep_ne _) hi)
  rw [hrun, SlicesRight, if_pos hstep]
  dsimp only
  have hlow : int64Min ≤ clamped list.data.length start.toInt + trips (clamped list.data.length start.toInt)
      (clamped list.data.length stop.toInt) (unitStep step.toInt) * unitStep step.toInt := by
    have := clamped_bounds (i := start.toInt) hn
    have := mul_nonneg (Int.natCast_nonneg (trips (clamped list.data.length start.toInt)
      (clamped list.data.length stop.toInt) (unitStep step.toInt))) hunit.le
    norm_num [int64Min]
    omega
  constructor
  · rintro ⟨result, hresult, -⟩
    by_contra hfar
    rw [if_neg fun h => hfar h.2] at hresult
    cases hresult
  · intro hfits
    rw [if_pos ⟨hlow, hfits⟩]
    exact ⟨out, rfl, by rw [hout, hindices, slice]⟩

/-- A loop that goes backwards ends: the index behind the last one is not so far below zero. -/
theorem backward_fits {s t u : ℤ} (hs : int64Min ≤ s ∧ s ≤ int64Max) (ht : -1 ≤ t) (hu : u < 0) (hmin : int64Min ≤ u) :
    int64Min ≤ s + trips s t u * u ∧ s + trips s t u * u ≤ int64Max := by
  have hmul := mul_nonpos_of_nonneg_of_nonpos (Int.natCast_nonneg (trips s t u)) hu.le
  refine ⟨?_, by omega⟩
  cases hk : trips s t u with
  | zero =>
      rw [Nat.cast_zero, zero_mul, add_zero]
      exact hs.1
  | succ k =>
      have hlast : t < s + k * u :=
        (ahead_neg hu).mp ((lt_trips (by omega)).mp (show k < trips s t u by omega))
      push_cast
      linarith

/-- A slice that begins behind the last element and goes on reads there. -/
theorem backward_reads_behind (hstep : step.toInt < 0)
    (hbehind : clamped list.data.length start.toInt = list.data.length ∧
      clamped list.data.length stop.toInt < list.data.length) (out : VisualList α) :
    listSlice (some list) start stop step ≠ .ok out := by
  intro hout
  rw [listSlice_eq] at hout
  dsimp only at hout
  obtain ⟨result, hall, -⟩ := Effect.ok_of_bind hout
  refine absurd hall (copyAll_outside (i := list.data.length) ?_ (by omega) _ _)
  rw [show unitStep step.toInt = step.toInt from if_neg (by omega), mem_progression (by omega), ahead_neg hstep]
  exact ⟨hbehind.2, 0, by omega⟩

/-- A slice that does not is the list of what the loop copies. -/
theorem backward_returns (hstep : step.toInt < 0)
    (hinside : ¬ (clamped list.data.length start.toInt = list.data.length ∧
      clamped list.data.length stop.toInt < list.data.length)) :
    ∃ out : VisualList α, listSlice (some list) start stop step = .ok out ∧
      out.data = elementsAt list.data (progression (clamped list.data.length start.toInt)
        (clamped list.data.length stop.toInt) step.toInt) := by
  have hn : (0 : ℤ) ≤ list.data.length := Int.natCast_nonneg _
  have hunit : unitStep step.toInt = step.toInt := if_neg (by omega)
  have hstart := clamped_bounds (i := start.toInt) hn
  have hstop := clamped_bounds (i := stop.toInt) hn
  have hmax : (list.data.length : ℤ) ≤ int64Max := by
    have := list.length_le
    norm_num [maxLength, int64Max] at this ⊢
    omega
  obtain ⟨out, hout, hrun⟩ := listSlice_within list start stop step fun i hi => by
    have := (between_of_mem (unitStep_ne _) hi).2 (by omega)
    omega
  have hfits := backward_fits (s := clamped list.data.length start.toInt)
    (t := clamped list.data.length stop.toInt) ⟨by norm_num [int64Min]; omega, by omega⟩ (by omega) hstep
    (int64_bounds step).1
  rw [hunit] at hout hrun
  exact ⟨out, hrun.trans (if_pos hfits), hout⟩

theorem clamped_of_behind {n i : ℤ} (hn : 0 ≤ n) (h : n ≤ i) : clamped n i = n := by
  unfold clamped wrapped
  split_ifs <;> omega

/-- What is copied backwards is Python's slice exactly if the slice does not come to the first element from behind a bound
before it. -/
theorem backward_elements (hstep : step.toInt < 0)
    (hfirst : (list.data.length : ℤ) ≤ start.toInt → clamped list.data.length stop.toInt = list.data.length) :
    elementsAt list.data (progression (clamped list.data.length start.toInt) (clamped list.data.length stop.toInt)
        step.toInt) = slice list.data start.toInt stop.toInt step.toInt ↔
      (wrapped list.data.length stop.toInt < 0 → 0 ≤ wrapped list.data.length start.toInt →
        wrapped list.data.length start.toInt < list.data.length →
          ¬ step.toInt ∣ wrapped list.data.length start.toInt) := by
  have hn : (0 : ℤ) ≤ list.data.length := Int.natCast_nonneg _
  rw [slice]
  rcases lt_or_ge (wrapped list.data.length start.toInt) 0 with hbefore | hlow
  · obtain ⟨hloop, hslice⟩ := backward_before stop.toInt hn hstep hbefore
    rw [hloop, hslice]
    exact ⟨fun _ _ h => absurd h (by omega), fun _ => rfl⟩
  rcases lt_or_ge (wrapped list.data.length start.toInt) list.data.length with hhigh | hfar
  · obtain ⟨hclamped, hbound, htrips⟩ := backward_inside stop.toInt hstep hlow hhigh
    have hpython : ∀ i ∈ sliceIndices list.data.length start.toInt stop.toInt step.toInt,
        0 ≤ i ∧ i < list.data.length := fun i hi => sliceIndices_within hn (by omega) hi
    have hwithin : ∀ i ∈ progression (clamped list.data.length start.toInt) (clamped list.data.length stop.toInt)
        step.toInt, 0 ≤ i ∧ i < list.data.length := by
      intro i hi
      have hstop := clamped_bounds (i := stop.toInt) hn
      have := (between_of_mem (by omega) hi).2 hstep
      omega
    constructor
    · intro hsame hstop _ _
      refine htrips.mp ?_ hstop
      -- the two loops select equally many elements
      have hcount := congrArg List.length hsame
      rw [length_elementsAt hwithin, length_elementsAt hpython, sliceIndices, length_progression,
        length_progression, hclamped, hbound] at hcount
      exact hcount
    · intro hright
      rw [sliceIndices, hclamped, hbound, progression_congr (htrips.mpr fun hstop => hright hstop hlow hhigh)]
  · have hend : clamped list.data.length stop.toInt = list.data.length := by
      have hstop := clamped_bounds (i := stop.toInt) hn
      by_cases hle : (list.data.length : ℤ) ≤ start.toInt
      · exact hfirst hle
      · unfold wrapped at hfar
        split_ifs at hfar <;> omega
    obtain ⟨hloop, hslice⟩ := backward_behind hn hstep hfar hend
    rw [hloop, hslice]
    exact ⟨fun _ _ _ h => absurd h (by omega), fun _ => rfl⟩

theorem backward_right (hstep : step.toInt < 0) :
    (∃ out, listSlice (some list) start stop step = .ok out ∧
      out.data = slice list.data start.toInt stop.toInt (unitStep step.toInt)) ↔
    SlicesRight list.data.length start.toInt stop.toInt step.toInt := by
  have hn : (0 : ℤ) ≤ list.data.length := Int.natCast_nonneg _
  have hunit : unitStep step.toInt = step.toInt := if_neg (by omega)
  have hstop := clamped_bounds (i := stop.toInt) hn
  rw [SlicesRight, if_neg (by omega), hunit]
  by_cases hbehind : clamped list.data.length start.toInt = list.data.length ∧
      clamped list.data.length stop.toInt < list.data.length
  · constructor
    · rintro ⟨out, hout, -⟩
      exact absurd hout (backward_reads_behind list start stop step hstep hbehind out)
    · intro hright
      have hle : (list.data.length : ℤ) ≤ start.toInt := by
        have := hbehind.1
        unfold clamped wrapped at this
        split_ifs at this <;> omega
      exact absurd (hright.1 hle) (by omega)
  · have hfirst : (list.data.length : ℤ) ≤ start.toInt →
        clamped list.data.length stop.toInt = list.data.length := fun hle => by
      have := clamped_of_behind hn hle
      omega
    obtain ⟨out, hrun, hout⟩ := backward_returns list start stop step hstep hbehind
    rw [← backward_elements list start stop step hstep hfirst |>.trans (and_iff_right hfirst).symm, ← hout, hrun]
    constructor
    · rintro ⟨result, hresult, hsame⟩
      cases hresult
      exact hsame
    · exact fun hsame => ⟨out, rfl, hsame⟩

end Right

/-- **Slices of a list.**  Exactly when the slice returned is Python's, no index is read outside the list and no sum
overflows. -/
theorem listSlice_iff (list : VisualList α) (start stop step : Int64) :
    (∃ out, listSlice (some list) start stop step = .ok out ∧
      out.data = slice list.data start.toInt stop.toInt (unitStep step.toInt)) ↔
    SlicesRight list.data.length start.toInt stop.toInt step.toInt := by
  rcases lt_or_ge step.toInt 0 with hneg | hpos
  · exact backward_right list start stop step hneg
  · exact forward_right list start stop step hpos

/-- `[10, 20, 30]`. -/
def tens : VisualList Int64 := ⟨[10, 20, 30], 8, by decide, ⟨0, rfl⟩, by norm_num [sizeMax]⟩

/-- `[10, 20, 30][5:0:-1]` reads behind the last element; in Python it is `[30, 20]`. -/
theorem slice_behind_last :
    slice tens.data 5 0 (-1) = [30, 20] ∧ ¬ ∃ out, listSlice (some tens) 5 0 (-1) = .ok out ∧
      out.data = slice tens.data 5 0 (-1) := by
  refine ⟨by decide, fun hright => ?_⟩
  have h := ((backward_right tens 5 0 (-1) (by decide)).mp hright).1 (by decide)
  exact absurd h (by decide)

/-! ### Ranges -/

/-- `__visuall_range`. -/
def range (start stop step : Int64) : Except Stop (VisualList Int64) :=
  if h : step.toInt = 0 then .ok (listNew Int64)
  else
    forStep (fun list i => listPush list (Int64.ofInt i)) start.toInt stop.toInt step.toInt h (listNew Int64)

/-- When the values fit in a list, and the one behind the last is still a 64-bit number. -/
def RangeFits (start stop step : ℤ) : Prop :=
  trips start stop step ≤ maxLength ∧
    int64Min ≤ start + trips start stop step * step ∧ start + trips start stop step * step ≤ int64Max

/-- The values pushed are those of the progression. -/
theorem toInt_progression {start stop step : Int64} (hstep : step.toInt ≠ 0) :
    ((progression start.toInt stop.toInt step.toInt).map Int64.ofInt).map Int64.toInt =
      progression start.toInt stop.toInt step.toInt := by
  rw [List.map_map]
  refine (List.map_congr_left fun i hi => ?_).trans (List.map_id _)
  have hbetween := between_of_mem hstep hi
  have hstart := int64_bounds start
  have hstop := int64_bounds stop
  norm_num [int64Min, int64Max] at hstart hstop
  have hi : -2 ^ 63 ≤ i ∧ i < 2 ^ 63 := by
    rcases lt_or_gt_of_ne hstep with hneg | hpos
    · have := hbetween.2 hneg
      omega
    · have := hbetween.1 hpos
      omega
  exact Int64.toInt_ofInt_of_le hi.1 hi.2

theorem range_eq {start stop step : Int64} (hstep : step.toInt ≠ 0) :
    range start stop step = (do
      let list ← ((progression start.toInt stop.toInt step.toInt).map Int64.ofInt).foldlM listPush (listNew Int64)
      if int64Min ≤ start.toInt + trips start.toInt stop.toInt step.toInt * step.toInt ∧
          start.toInt + trips start.toInt stop.toInt step.toInt * step.toInt ≤ int64Max then .ok list
      else .error .overflow) := by
  rw [range, dif_neg hstep, forStep, strideLoop_eq hstep (int64_bounds start) (int64_bounds stop), List.foldlM_map]

/-- **Ranges.**  The progression is returned exactly when it fits in a list and the sum behind its last value does not
overflow. -/
theorem range_iff (start stop step : Int64) (hstep : step ≠ 0) :
    (∃ list, range start stop step = .ok list ∧
      list.data.map Int64.toInt = progression start.toInt stop.toInt step.toInt) ↔
    RangeFits start.toInt stop.toInt step.toInt := by
  have hne : step.toInt ≠ 0 := fun h => hstep (Int64.toInt_inj.mp h)
  rw [range_eq hne]
  constructor
  · rintro ⟨list, hlist, -⟩
    obtain ⟨pushed, hall, hend⟩ := Effect.ok_of_bind hlist
    have hlen := pushAll_length _ hall
    rw [List.length_map, length_progression] at hlen
    refine ⟨le_of_add_le_right hlen, ?_⟩
    by_contra hfar
    rw [if_neg hfar] at hend
    cases hend
  · rintro ⟨hlen, hfits⟩
    obtain ⟨list, hall, hlist⟩ := pushAll_ok (listNew Int64)
      ((progression start.toInt stop.toInt step.toInt).map Int64.ofInt) (by
        rw [List.length_map, length_progression]
        exact (Nat.zero_add _).symm ▸ hlen)
    refine ⟨list, ?_, ?_⟩
    · rw [hall]
      exact if_pos hfits
    · rw [hlist]
      exact toInt_progression hne

theorem range_three : ∃ list, range 0 3 1 = .ok list ∧ list.data.map Int64.toInt = progression 0 3 1 :=
  (range_iff 0 3 1 (by decide)).mpr ⟨by decide, by decide, by decide⟩

/-- `range(0, 9223372036854775807, 4611686018427387904)` has two values; the sum behind the second overflows. -/
theorem range_past_stop :
    progression 0 9223372036854775807 4611686018427387904 = [0, 4611686018427387904] ∧
      ¬ ∃ list, range 0 9223372036854775807 4611686018427387904 = .ok list ∧
        list.data.map Int64.toInt = progression 0 9223372036854775807 4611686018427387904 := by
  refine ⟨by decide, ?_⟩
  rintro ⟨list, hlist, -⟩
  rw [range_eq (by decide)] at hlist
  obtain ⟨pushed, -, hend⟩ := Effect.ok_of_bind hlist
  rw [if_neg (by decide)] at hend
  cases hend

end Visuall.Runtime
