import Visuall.Runtime.Lists
import Visuall.Gc.Collector

/-!
# Strings

A string of the runtime is a NUL-terminated block from `__visuall_alloc`, and is written there from its start on.
Of the allocation only the size counts here: requests that the header of a block cannot hold are refused.

* `VisualString`, `Block` — strings and the blocks they are written to;
* `stringSlice` — `__visuall_string_slice`, with its pass that counts and its pass that copies;
* `stringSlice_iff` — when it gives what Python gives.
-/

namespace Visuall.Runtime

open Visuall.Stride

/-! ### Blocks -/

/-- A string, as `__visuall_alloc` has room for it with its terminator. -/
structure VisualString extends CString where
  allocated : Gc.headerSize + (bytes.length + 1) ≤ Gc.uint32Max

theorem CString.ext_bytes {s t : CString} (h : s.bytes = t.bytes) : s = t := by
  obtain ⟨s, _⟩ := s
  obtain ⟨t, _⟩ := t
  subst h
  rfl

theorem VisualString.ext_bytes {s t : VisualString} (h : s.bytes = t.bytes) : s = t := by
  obtain ⟨⟨s, _⟩, _⟩ := s
  obtain ⟨⟨t, _⟩, _⟩ := t
  subst h
  rfl

/-- A zeroed block, with the bytes written to it so far. -/
structure Block where
  size : ℕ
  written : List UInt8
  within : written.length ≤ size
  allocated : Gc.headerSize + size ≤ Gc.uint32Max

/-- The bytes that `__visuall_alloc` takes for a request, with the header. -/
def totalSize (size : ℕ) : ℕ :=
  ((Gc.flClassFor (Gc.headerSize + size)).map Gc.flClassSize).getD (Gc.headerSize + size)

theorem le_totalSize (size : ℕ) : Gc.headerSize + size ≤ totalSize size := by
  unfold totalSize
  cases h : Gc.flClassFor (Gc.headerSize + size) with
  | none => exact le_rfl
  | some c => simpa using List.find?_some h

/-- `__visuall_alloc`. -/
def alloc (size : ℕ) : Except Stop Block :=
  if size > sizeMax - Gc.headerSize then .error (.exit (Gc.overflowMsg size))
  else if h : totalSize size > Gc.uint32Max then .error (.exit (Gc.tooLargeMsg (totalSize size)))
  else .ok ⟨size, [], Nat.zero_le _, (le_totalSize size).trans (not_lt.mp h)⟩

theorem alloc_ok {size : ℕ} (h : Gc.headerSize + size ≤ Gc.uint32Max) : alloc size = .ok ⟨size, [], Nat.zero_le _, h⟩ := by
  have hsmall : ¬ size > sizeMax - Gc.headerSize := by
    norm_num [sizeMax, Gc.headerSize, Gc.uint32Max] at h ⊢
    omega
  have htotal : ¬ totalSize size > Gc.uint32Max := by
    unfold totalSize
    cases hc : Gc.flClassFor (Gc.headerSize + size) with
    | none => exact not_lt.mpr h
    | some c =>
        have hclass : ∀ c, Gc.flClassSize c ≤ Gc.uint32Max := by decide
        exact not_lt.mpr (hclass c)
  rw [alloc, if_neg hsmall, dif_neg htotal]

theorem alloc_size {size : ℕ} {b : Block} (h : alloc size = .ok b) : b.size = size ∧ b.written = [] := by
  unfold alloc at h
  split_ifs at h
  cases h
  exact ⟨rfl, rfl⟩

namespace Block

/-- `memcpy` to the first byte that is not written yet. -/
def put (b : Block) (bytes : List UInt8) : Except Stop Block :=
  if h : b.written.length + bytes.length ≤ b.size then
    .ok { b with written := b.written ++ bytes, within := by rwa [List.length_append] }
  else .error .outOfBounds

theorem put_ok (b : Block) (bytes : List UInt8) (h : b.written.length + bytes.length ≤ b.size) :
    ∃ out, b.put bytes = .ok out ∧ out.size = b.size ∧ out.written = b.written ++ bytes := by
  rw [put, dif_pos h]
  exact ⟨_, rfl, rfl, rfl⟩

/-- The string that begins with the block. -/
def string (b : Block) : Except Stop VisualString :=
  let bytes := (b.written ++ List.replicate (b.size - b.written.length) 0).takeWhile (· ≠ 0)
  if h : bytes.length < b.size then
    .ok ⟨⟨bytes, fun h => by simpa using List.mem_takeWhile_imp h⟩, by
      have := b.allocated
      show _ + (bytes.length + 1) ≤ _
      omega⟩
  else .error .outOfBounds

/-- A block that is written up to a terminator. -/
theorem string_ok (b : Block) (bytes : List UInt8) (hnul : 0 ∉ bytes) (h : b.written = bytes ++ [0]) :
    ∃ s, b.string = .ok s ∧ s.bytes = bytes := by
  have htake : (b.written ++ List.replicate (b.size - b.written.length) 0).takeWhile (· ≠ 0) = bytes := by
    rw [h, List.append_assoc, List.takeWhile_append_of_pos fun x hx => by
      simpa using fun hzero : x = 0 => hnul (hzero ▸ hx)]
    simp
  have hlt : bytes.length < b.size := by
    have := b.within
    rw [h, List.length_append, List.length_singleton] at this
    omega
  unfold string
  dsimp only
  rw [dif_pos (htake.symm ▸ hlt)]
  exact ⟨_, rfl, htake⟩

end Block

/-- `vsl_strdup` of the bytes in front of a terminator. -/
def strdup (bytes : List UInt8) : Except Stop VisualString := do
  let out ← alloc (bytes.length + 1)
  (← out.put (bytes ++ [0])).string

/-- `""`. -/
def emptyString : VisualString := ⟨⟨[], List.not_mem_nil⟩, by decide⟩

theorem strdup_ok (s : VisualString) : strdup s.bytes = .ok s := by
  rw [strdup, alloc_ok s.allocated]
  obtain ⟨b, hput, hsize, hwritten⟩ := Block.put_ok
    ⟨s.bytes.length + 1, [], Nat.zero_le _, s.allocated⟩ (s.bytes ++ [0]) (by simp)
  obtain ⟨t, hstring, ht⟩ := Block.string_ok b _ s.noNul (hwritten.trans (List.nil_append _))
  show (Block.put _ _ >>= Block.string) = _
  rw [hput]
  exact hstring.trans (congrArg _ (VisualString.ext_bytes ht))

/-! ### Slices -/

/-- `if (i < 0) i += len`. -/
def wrapIndex (len i : ℤ) : Except Stop ℤ := if i < 0 then addInt64 i len else .ok i

/-- Where the two loops of `__visuall_string_slice` begin and end. -/
def clampEnds (len start stop step : ℤ) : ℤ × ℤ :=
  if 0 < step then
    (let start := if start < 0 then 0 else start
     if start > len then len else start,
     let stop := if stop < 0 then 0 else stop
     if stop > len then len else stop)
  else
    (let start := if start ≥ len then len - 1 else start
     if start < 0 then -1 else start,
     if stop < -1 then -1 else stop)

/-- `out[j++] = s[i]`. -/
def copyByte (bytes : List UInt8) (out : Block) (i : ℤ) : Except Stop Block := do
  out.put [← readAt bytes i]

/-- `__visuall_string_slice`; `none` is NULL. -/
def stringSlice : Option VisualString → Int64 → Int64 → Int64 → Except Stop VisualString
  | none, _, _, _ => strdup []
  | some s, start, stop, step =>
    if h : step.toInt = 0 then .error (.exit "ValueError: string slice step cannot be zero\n")
    else do
      let start ← wrapIndex s.bytes.length start.toInt
      let stop ← wrapIndex s.bytes.length stop.toInt
      let ends := clampEnds s.bytes.length start stop step.toInt
      let count ← forStep (fun count _ => addInt64 count 1) ends.1 ends.2 step.toInt h 0
      if count ≤ 0 then strdup []
      else
        let out ← alloc (count + 1).toNat
        let out ← forStep (copyByte s.bytes) ends.1 ends.2 step.toInt h out
        (← out.put [0]).string

theorem wrapIndex_eq {len i : ℤ} (hlen : 0 ≤ len ∧ len ≤ int64Max) (hi : int64Min ≤ i ∧ i ≤ int64Max) :
    wrapIndex len i = .ok (wrapped len i) := by
  have hwrapped := wrapped_bounds hlen hi
  unfold wrapIndex wrapped at *
  split_ifs at hwrapped ⊢
  · exact addInt64_ok hwrapped
  · rfl

section Ends

variable {n start stop step : ℤ}

/-- The ends of the loops, from the bounds given. -/
def ends (n start stop step : ℤ) : ℤ × ℤ := clampEnds n (wrapped n start) (wrapped n stop) step

theorem ends_forward (hn : 0 ≤ n) (hstep : 0 < step) : ends n start stop step = (bound n step start, bound n step stop) := by
  unfold ends clampEnds bound wrapped
  rw [if_pos hstep, if_pos hstep, if_pos hstep]
  refine Prod.ext ?_ ?_
  · dsimp only
    split_ifs <;> omega
  · dsimp only
    split_ifs <;> omega

/-- The loops begin where the slice does, and end where it does unless they end at once. -/
theorem ends_backward (start stop : ℤ) (hn : 0 ≤ n) (hstep : step < 0) : (ends n start stop step).1 = bound n step start ∧
    ((ends n start stop step).2 = bound n step stop ∨
      bound n step start ≤ (ends n start stop step).2 ∧ bound n step start ≤ bound n step stop) := by
  unfold ends clampEnds bound wrapped
  have hnot : ¬ 0 < step := by omega
  rw [if_neg hnot, if_neg hnot, if_neg hnot]
  dsimp only
  constructor
  · split_ifs <;> omega
  · split_ifs <;> omega

/-- The loops run over the indices of the slice. -/
theorem progression_ends (hn : 0 ≤ n) (hstep : step ≠ 0) :
    progression (ends n start stop step).1 (ends n start stop step).2 step = sliceIndices n start stop step := by
  rcases lt_or_gt_of_ne hstep with hneg | hpos
  · obtain ⟨hstart, hstop | ⟨hloop, hslice⟩⟩ :=
      ends_backward start stop hn hneg
    · rw [hstart, hstop, sliceIndices]
    · rw [hstart, sliceIndices, progression_of_not_ahead hstep, progression_of_not_ahead hstep]
      · rw [ahead_neg hneg]
        omega
      · rw [ahead_neg hneg]
        omega
  · rw [ends_forward hn hpos, sliceIndices]

theorem trips_ends (hn : 0 ≤ n) (hstep : step ≠ 0) :
    trips (ends n start stop step).1 (ends n start stop step).2 step =
      trips (bound n step start) (bound n step stop) step := by
  rw [← length_progression, progression_ends hn hstep, sliceIndices, length_progression]

end Ends

/-! #### The two passes -/

theorem countAll (is : List ℤ) {count : ℤ} (hcount : 0 ≤ count) (h : count + is.length ≤ int64Max) :
    is.foldlM (fun count _ => addInt64 count 1) count = .ok (count + is.length) := by
  induction is generalizing count with
  | nil => exact congrArg Except.ok (add_zero count).symm
  | cons i is ih =>
      rw [List.length_cons, Nat.cast_succ] at h ⊢
      have hadd : addInt64 count 1 = .ok (count + 1) := addInt64_ok ⟨by norm_num [int64Min]; omega, by omega⟩
      rw [List.foldlM_cons, hadd]
      show is.foldlM _ (count + 1) = _
      rw [ih (by omega) (by omega), add_right_comm, add_assoc]

theorem copyBytes {bytes : List UInt8} (is : List ℤ) (out : Block) (h : ∀ i ∈ is, 0 ≤ i ∧ i < bytes.length)
    (hroom : out.written.length + is.length ≤ out.size) :
    ∃ result, is.foldlM (copyByte bytes) out = .ok result ∧ result.size = out.size ∧
      result.written = out.written ++ elementsAt bytes is := by
  induction is generalizing out with
  | nil => exact ⟨out, rfl, rfl, (List.append_nil _).symm⟩
  | cons i is ih =>
      obtain ⟨hi, his⟩ := List.forall_mem_cons.mp h
      rw [List.length_cons] at hroom
      have hlt : i.toNat < bytes.length := by omega
      have hread : readAt bytes i = .ok (bytes.get ⟨i.toNat, hlt⟩) := dif_pos hi
      obtain ⟨next, hput, hsize, hwritten⟩ :=
        Block.put_ok out [bytes.get ⟨i.toNat, hlt⟩] (by rw [List.length_singleton]; omega)
      obtain ⟨result, hall, hsize', hwritten'⟩ := ih next his (by
        rw [hwritten, hsize, List.length_append, List.length_singleton]
        omega)
      refine ⟨result, ?_, hsize'.trans hsize, ?_⟩
      · rw [List.foldlM_cons, copyByte, hread]
        show (Block.put _ _ >>= _) = _
        rw [hput]
        exact hall
      · rw [hwritten', hwritten, elementsAt_cons hlt, List.append_assoc, List.singleton_append]

/-! #### When a slice is Python's -/

/-- The sum behind the last index of a slice. -/
def lastSum (n start stop step : ℤ) : ℤ :=
  bound n step start + trips (bound n step start) (bound n step stop) step * step

/-- When `__visuall_string_slice` selects what Python does: forwards, the index behind the last one is still a 64-bit
number. -/
def StepFits (n start stop step : ℤ) : Prop := 0 < step → lastSum n start stop step ≤ int64Max

theorem bound_bounds {n : ℤ} (step i : ℤ) (hn : 0 ≤ n) : -1 ≤ bound n step i ∧ bound n step i ≤ n := by
  unfold bound
  split_ifs <;> omega

theorem lastSum_fits {n start stop step : ℤ} (hn : 0 ≤ n ∧ n ≤ int64Max) (hstep : step ≠ 0)
    (hmin : int64Min ≤ step) :
    (int64Min ≤ lastSum n start stop step ∧ lastSum n start stop step ≤ int64Max) ↔ StepFits n start stop step := by
  have hstart := bound_bounds step start hn.1
  have hstop := bound_bounds step stop hn.1
  rcases lt_or_gt_of_ne hstep with hneg | hpos
  · refine ⟨fun _ h => by omega, fun _ => ?_⟩
    exact backward_fits ⟨by norm_num [int64Min]; omega, by omega⟩ hstop.1 hneg hmin
  · have hmul := mul_nonneg
      (Int.natCast_nonneg (trips (bound n step start) (bound n step stop) step)) hpos.le
    refine ⟨fun h _ => h.2, fun h => ⟨?_, h hpos⟩⟩
    unfold lastSum
    norm_num [int64Min]
    omega

theorem VisualString.length_bounds (s : VisualString) :
    (0 : ℤ) ≤ s.bytes.length ∧ (s.bytes.length : ℤ) ≤ int64Max := by
  have := s.allocated
  norm_num [Gc.headerSize, Gc.uint32Max, int64Max] at this ⊢
  omega

/-- The pass that counts and the pass that copies, over one progression. -/
theorem stringSlice_eq (s : VisualString) (start stop : Int64) {step : Int64} (hstep : step.toInt ≠ 0) :
    stringSlice (some s) start stop step =
      (let e := ends s.bytes.length start.toInt stop.toInt step.toInt
       do
        let count ← forStep (fun count _ => addInt64 count 1) e.1 e.2 step.toInt hstep 0
        if count ≤ 0 then strdup []
        else
          let out ← alloc (count + 1).toNat
          let out ← forStep (copyByte s.bytes) e.1 e.2 step.toInt hstep out
          (← out.put [0]).string) := by
  rw [stringSlice, dif_neg hstep, wrapIndex_eq s.length_bounds (int64_bounds start),
    wrapIndex_eq s.length_bounds (int64_bounds stop)]
  rfl

/-- Each pass runs over the indices of the slice, and then ends or not. -/
theorem forStep_ends {β : Type} (s : VisualString) (start stop : Int64) {step : Int64} (hstep : step.toInt ≠ 0)
    (body : β → ℤ → Except Stop β) (b : β) :
    forStep body (ends s.bytes.length start.toInt stop.toInt step.toInt).1
        (ends s.bytes.length start.toInt stop.toInt step.toInt).2 step.toInt hstep b = (do
      let b ← (sliceIndices s.bytes.length start.toInt stop.toInt step.toInt).foldlM body b
      if int64Min ≤ lastSum s.bytes.length start.toInt stop.toInt step.toInt ∧
          lastSum s.bytes.length start.toInt stop.toInt step.toInt ≤ int64Max then .ok b
      else .error .overflow) := by
  have hn := s.length_bounds
  have hfirst : (ends s.bytes.length start.toInt stop.toInt step.toInt).1 =
      bound s.bytes.length step.toInt start.toInt := by
    rcases lt_or_gt_of_ne hstep with hneg | hpos
    · exact (ends_backward start.toInt stop.toInt hn.1 hneg).1
    · rw [ends_forward hn.1 hpos]
  have hsecond : int64Min ≤ (ends s.bytes.length start.toInt stop.toInt step.toInt).2 ∧
      (ends s.bytes.length start.toInt stop.toInt step.toInt).2 ≤ int64Max := by
    have hstop := wrapped_bounds hn (int64_bounds stop)
    norm_num [int64Min, int64Max] at hn hstop ⊢
    unfold ends clampEnds
    dsimp only
    split_ifs
    all_goals omega
  have hbound := bound_bounds step.toInt start.toInt hn.1
  rw [forStep, strideLoop_eq hstep ?_ hsecond, progression_ends hn.1 hstep, trips_ends hn.1 hstep, hfirst, lastSum]
  rw [hfirst]
  norm_num [int64Min] at hn ⊢
  omega

/-- The pass that copies, into a block with room for the bytes and the terminator. -/
theorem copyPass {bytes : List UInt8} {is : List ℤ} (h : ∀ i ∈ is, 0 ≤ i ∧ i < bytes.length)
    (hnul : 0 ∉ bytes) (hsize : Gc.headerSize + (is.length + 1) ≤ Gc.uint32Max) :
    ∃ out, (do
        let out ← alloc (is.length + 1)
        let out ← is.foldlM (copyByte bytes) out
        (← out.put [0]).string) = .ok out ∧ out.bytes = elementsAt bytes is := by
  obtain ⟨copied, hall, hroom, hcopied⟩ := copyBytes is ⟨is.length + 1, [], Nat.zero_le _, hsize⟩ h
    (by show 0 + is.length ≤ is.length + 1; omega)
  rw [List.nil_append] at hcopied
  obtain ⟨closed, hput, -, hclosed⟩ := Block.put_ok copied [0] (by
    rw [hcopied, hroom, length_elementsAt h, List.length_singleton])
  obtain ⟨out, hout, hbytes⟩ := Block.string_ok closed (elementsAt bytes is) (fun hmem => by
    obtain ⟨i, -, hi⟩ := List.mem_filterMap.mp hmem
    exact hnul (List.mem_of_getElem? hi)) (by rw [hclosed, hcopied])
  refine ⟨out, ?_, hbytes⟩
  rw [alloc_ok hsize]
  show (is.foldlM (copyByte bytes) _ >>= _) = _
  rw [hall]
  show (copied.put [0] >>= Block.string) = _
  rw [hput]
  exact hout

/-- A slice that is returned has ended. -/
theorem lastSum_of_ok {s out : VisualString} {start stop step : Int64} (hne : step.toInt ≠ 0)
    (h : stringSlice (some s) start stop step = .ok out) :
    int64Min ≤ lastSum s.bytes.length start.toInt stop.toInt step.toInt ∧
      lastSum s.bytes.length start.toInt stop.toInt step.toInt ≤ int64Max := by
  rw [stringSlice_eq s start stop hne] at h
  dsimp only at h
  obtain ⟨count, hcounted, -⟩ := Effect.ok_of_bind h
  rw [forStep_ends] at hcounted
  obtain ⟨counted, -, hend⟩ := Effect.ok_of_bind hcounted
  by_contra hfar
  rw [if_neg hfar] at hend
  cases hend

theorem stringSlice_right (s : VisualString) (start stop step : Int64) (hstep : step ≠ 0) :
    (∃ out, stringSlice (some s) start stop step = .ok out ∧
      out.bytes = slice s.bytes start.toInt stop.toInt step.toInt) ↔
    StepFits s.bytes.length start.toInt stop.toInt step.toInt := by
  have hne : step.toInt ≠ 0 := fun h => hstep (Int64.toInt_inj.mp h)
  have hn := s.length_bounds
  have hwithin : ∀ i ∈ sliceIndices s.bytes.length start.toInt stop.toInt step.toInt,
      0 ≤ i ∧ i < s.bytes.length := fun i hi => sliceIndices_within hn.1 hne hi
  have hcount : (sliceIndices s.bytes.length start.toInt stop.toInt step.toInt).length ≤ s.bytes.length := by
    have := length_sliceIndices_le start.toInt stop.toInt hn.1 hne
    omega
  rw [← lastSum_fits hn hne (int64_bounds step).1]
  constructor
  · rintro ⟨out, hout, -⟩
    exact lastSum_of_ok hne hout
  · intro hfits
    rw [stringSlice_eq s start stop hne]
    dsimp only
    have hpass {β : Type} (body : β → ℤ → Except Stop β) (b : β) :
        forStep body (ends s.bytes.length start.toInt stop.toInt step.toInt).1
          (ends s.bytes.length start.toInt stop.toInt step.toInt).2 step.toInt hne b =
        (sliceIndices s.bytes.length start.toInt stop.toInt step.toInt).foldlM body b := by
      rw [forStep_ends]
      simp only [if_pos hfits]
      exact bind_pure _
    simp only [hpass]
    rw [countAll _ le_rfl (by omega), zero_add]
    by_cases hempty : sliceIndices s.bytes.length start.toInt stop.toInt step.toInt = []
    · refine ⟨emptyString, ?_, ?_⟩
      · rw [hempty]
        exact strdup_ok emptyString
      · rw [slice, hempty]
        rfl
    · have hpos := List.length_pos_iff.mpr hempty
      have hallocated := s.allocated
      obtain ⟨out, hout, hbytes⟩ := copyPass hwithin s.noNul (by omega)
      refine ⟨out, ?_, hbytes⟩
      rw [← hout]
      exact if_neg (by omega)

/-- **Slices of a string.**  Exactly when the string returned is Python's, every byte is read inside the string, the
two passes agree and no sum overflows. -/
theorem stringSlice_iff (s : VisualString) (start stop step : Int64) (hstep : step ≠ 0) :
    (∃ out, stringSlice (some s) start stop step = .ok out ∧
      out.bytes = slice s.bytes start.toInt stop.toInt step.toInt) ↔
    StepFits s.bytes.length start.toInt stop.toInt step.toInt :=
  stringSlice_right s start stop step hstep

/-- `"ab"`. -/
def letters : VisualString := ⟨⟨[97, 98], by decide⟩, by decide⟩

theorem slice_letters : ∃ out, stringSlice (some letters) (-1) (-3) (-1) = .ok out ∧
    out.bytes = slice letters.bytes (-1) (-3) (-1) :=
  (stringSlice_iff letters (-1) (-3) (-1) (by decide)).mpr fun h => absurd h (by decide)

/-- `"ab"[1:2:9223372036854775807]` is `"b"`; the sum behind its only index overflows. -/
theorem slice_past_end : slice letters.bytes 1 2 9223372036854775807 = [98] ∧
    ¬ ∃ out, stringSlice (some letters) 1 2 9223372036854775807 = .ok out ∧
      out.bytes = slice letters.bytes 1 2 9223372036854775807 := by
  refine ⟨by decide, ?_⟩
  rintro ⟨out, hout, -⟩
  exact absurd (lastSum_of_ok (by decide) hout).2 (by decide)

end Visuall.Runtime
