import Visuall.Codegen.Collections
import Visuall.Runtime.Strings

/-!
# Slices

`codegenSliceExpr` and the two functions of the runtime that it calls.  The compiler fills in the bounds that are left
out, before the sign of the step is known.

The bounds and the step are expressions of type `int`; what they evaluate to is given.

* `codegenSliceExpr`, `SliceCall.run` — the call that is emitted, and what it returns;
* `SameSlice` — what Python selects;
* `slices_right_iff` — exactly when it is that.
-/

namespace Visuall.Codegen.Slices

open Visuall.Ast Visuall.Runtime Visuall.Stride Collections

/-! ## What is emitted -/

/-- An argument of the call: an expression, a constant, or the length of the object. -/
inductive Operand
  | expr (e : Expr)
  | const (n : Int64)
  | len

/-- The call of `__visuall_string_slice` or `__visuall_list_slice`. -/
structure SliceCall where
  onString : Bool
  start : Operand
  stop : Operand
  step : Operand

/-- An operand that may be left out. -/
def operandOr (default : Operand) : Option Expr → Operand
  | none => default
  | some e => .expr e

/-- `codegenSliceExpr`. -/
def codegenSliceExpr (stringVars : StringVars) (object : Expr) (start stop step : Option Expr) : SliceCall where
  onString := isStringExpr stringVars object
  start := operandOr (.const 0) start
  stop := operandOr .len stop
  step := operandOr (.const 1) step

/-! ## What it returns -/

/-- The values that are sliced. -/
inductive Sequence (α : Type)
  | string (s : VisualString)
  | list (l : VisualList α)

/-- How a call ends that returns no value: one of the functions stops, or it reads a block that is no such object. -/
inductive Fault
  | stop (s : Stop)
  | foreign
  deriving DecidableEq

variable {α : Type}

def Sequence.length : Sequence α → ℕ
  | .string s => s.bytes.length
  | .list l => l.data.length

/-- The value of an argument; the length is that of `__visuall_string_len` or `__visuall_list_len`. -/
def Operand.value (values : Expr → Int64) (length : ℕ) : Operand → Int64
  | .expr e => values e
  | .const n => n
  | .len => Int64.ofInt length

/-- The call, with the values of the operands. -/
def SliceCall.run (c : SliceCall) (values : Expr → Int64) (object : Sequence α) : Except Fault (Sequence α) :=
  let start := c.start.value values object.length
  let stop := c.stop.value values object.length
  let step := c.step.value values object.length
  match c.onString, object with
  | true, .string s => ((stringSlice (some s) start stop step).map .string).mapError .stop
  | false, .list l => ((listSlice (some l) start stop step).map .list).mapError .stop
  | _, _ => .error .foreign

/-! ## What Python selects -/

/-- A value of the kind of the object, with the elements that Python selects. -/
def SameSlice (start stop : Option ℤ) (step : ℤ) : Sequence α → Sequence α → Prop
  | .string s, .string out => out.bytes = openSlice s.bytes start stop step
  | .list l, .list out => out.data = openSlice l.data start stop step
  | _, _ => False

/-- The value of an expression, if it is there. -/
def valueOf (values : Expr → Int64) (e : Option Expr) : Option ℤ := e.map fun e => (values e).toInt

/-- **What is claimed of a slice.** -/
def SlicesAsPython (stringVars : StringVars) (object : Expr) (start stop step : Option Expr) (values : Expr → Int64)
    (v : Sequence α) : Prop :=
  ∃ out, (codegenSliceExpr stringVars object start stop step).run values v = .ok out ∧
    SameSlice (valueOf values start) (valueOf values stop) ((valueOf values step).getD 1) v out

/-! ## When it is that -/

/-- Backwards with a bound left out, nothing is selected. -/
def NothingBackwards (n step : ℤ) (start stop : Option ℤ) : Prop := startBound n step start ≤ stopBound n step stop

/-- The slice of a string that the runtime ends at its first character: nothing else is selected than the last one, which
is the same. -/
def OnlyFirst (bytes : List UInt8) (step : ℤ) (start stop : Option ℤ) : Prop :=
  start = none ∧ (∃ t ∈ stop, t + bytes.length < 0) ∧ bytes.length ≤ -step ∧ bytes.head? = bytes.getLast?

/-- When a slice is Python's: the object is known for what it is; forwards, and with both bounds, the function does what
Python does; backwards with a bound left out, nothing is selected. -/
def BoundsRight (known : Bool) (start stop : Option ℤ) (step : ℤ) : Sequence α → Prop
  | .string s =>
    known = true ∧
      if 0 < step then StepFits s.bytes.length (start.getD 0) (stop.getD s.bytes.length) step
      else start.isSome ∧ stop.isSome ∨ NothingBackwards s.bytes.length step start stop ∨ OnlyFirst s.bytes step start stop
  | .list l =>
    known = false ∧
      if 0 < step ∨ start.isSome ∧ stop.isSome then
        SlicesRight l.data.length (start.getD 0) (stop.getD l.data.length) step
      else NothingBackwards l.data.length step start stop

section Bounds

variable (start stop : Option Int64) {step : Int64}

theorem toInt_length (n : ℕ) (h : (n : ℤ) ≤ int64Max) : (Int64.ofInt n).toInt = n := by
  norm_num [int64Max] at h
  exact Int64.toInt_ofInt_of_le (by omega) (by omega)

theorem toInt_getD (i : Option Int64) (default : Int64) : (i.getD default).toInt = (i.map Int64.toInt).getD default.toInt := by
  cases i <;> rfl

theorem listSlice_open (l : VisualList α) (hstep : step.toInt ≠ 0) :
    (∃ out, listSlice (some l) (start.getD 0) (stop.getD (Int64.ofInt l.data.length)) step = .ok out ∧
        out.data = openSlice l.data (start.map Int64.toInt) (stop.map Int64.toInt) step.toInt) ↔
      if 0 < step.toInt ∨ (start.map Int64.toInt).isSome ∧ (stop.map Int64.toInt).isSome then
        SlicesRight l.data.length ((start.map Int64.toInt).getD 0) ((stop.map Int64.toInt).getD l.data.length) step.toInt
      else NothingBackwards l.data.length step.toInt (start.map Int64.toInt) (stop.map Int64.toInt) := by
  have hn : (0 : ℤ) ≤ l.data.length := Int.natCast_nonneg _
  have hmax : (l.data.length : ℤ) ≤ int64Max := by
    have := l.length_le
    norm_num [maxLength, int64Max] at this ⊢
    omega
  have hstart : (start.getD 0).toInt = (start.map Int64.toInt).getD 0 := toInt_getD start 0
  have hstop : (stop.getD (Int64.ofInt l.data.length)).toInt = (stop.map Int64.toInt).getD l.data.length := by
    rw [toInt_getD, toInt_length _ hmax]
  have hunit : unitStep step.toInt = step.toInt := if_neg hstep
  by_cases hpos : 0 < step.toInt
  · rw [if_pos (.inl hpos), openSlice_forward _ _ _ hpos, ← hstart, ← hstop]
    have hright := forward_right l (start.getD 0) (stop.getD (Int64.ofInt l.data.length)) step hpos.le
    rwa [hunit] at hright
  have hneg : step.toInt < 0 := by omega
  by_cases hboth : (start.map Int64.toInt).isSome ∧ (stop.map Int64.toInt).isSome
  · rw [if_pos (.inr hboth), ← hstart, ← hstop]
    obtain ⟨s, rfl⟩ := Option.isSome_iff_exists.mp (Option.isSome_map.symm.trans hboth.1)
    obtain ⟨t, rfl⟩ := Option.isSome_iff_exists.mp (Option.isSome_map.symm.trans hboth.2)
    have hright := backward_right l s t step hneg
    rwa [hunit] at hright
  · -- a bound is left out: the loop of the function ends at once
    rw [if_neg (not_or.mpr ⟨hpos, hboth⟩), NothingBackwards, ← openSlice_nil l.data _ _ hneg]
    have hnone : ¬ clamped l.data.length (stop.getD (Int64.ofInt l.data.length)).toInt <
        clamped l.data.length (start.getD 0).toInt := by
      have hfrom := clamped_bounds (i := (start.getD 0).toInt) hn
      have hto := clamped_bounds (i := (stop.getD (Int64.ofInt l.data.length)).toInt) hn
      cases start with
      | none =>
        have hzero : clamped l.data.length ((none : Option Int64).getD 0).toInt = 0 := by
          show min (max (if (0 : ℤ) < 0 then _ else 0) 0) _ = _
          rw [if_neg (lt_irrefl 0), max_self, min_eq_left hn]
        omega
      | some s =>
        cases stop with
        | none =>
          have hend : clamped l.data.length ((none : Option Int64).getD (Int64.ofInt l.data.length)).toInt = l.data.length :=
            clamped_of_behind hn hstop.ge
          omega
        | some t => exact absurd ⟨rfl, rfl⟩ hboth
    have hto := clamped_bounds (i := (stop.getD (Int64.ofInt l.data.length)).toInt) hn
    have hfrom := clamped_bounds (i := (start.getD 0).toInt) hn
    obtain ⟨out, hrun, hout⟩ := backward_returns l (start.getD 0) (stop.getD (Int64.ofInt l.data.length)) step hneg
      (by omega)
    rw [progression_of_not_ahead hstep (by rwa [ahead_neg hneg])] at hout
    rw [hrun]
    constructor
    · rintro ⟨result, hresult, hsame⟩
      cases hresult
      exact hsame.symm.trans hout
    · exact fun h => ⟨out, rfl, hout.trans h.symm⟩

/-- Backwards from the first character to one before it: only that is selected. -/
theorem slice_first {bytes : List UInt8} {t step : ℤ} (hne : bytes ≠ []) (ht : t + bytes.length < 0) (hstep : step < 0) :
    slice bytes 0 t step = bytes.head?.toList := by
  have hpos := List.length_pos_iff.mpr hne
  have hforth : ¬ 0 < step := by omega
  have hstart : bound bytes.length step 0 = 0 := by
    rw [bound, if_neg (lt_irrefl 0), if_neg hforth, min_eq_left (by omega)]
  have hstop : bound bytes.length step t = -1 := by
    rw [bound, if_pos (by omega), if_neg hforth, max_eq_right (by omega)]
  rw [slice, sliceIndices, hstart, hstop, progression_of_ahead hstep.ne ((ahead_neg hstep).mpr (by omega)),
    progression_of_not_ahead hstep.ne (by rw [ahead_neg hstep]; omega)]
  cases bytes with
  | nil => exact absurd rfl hne
  | cons b bytes => rfl

/-- Backwards from the last character on: it is the only one that is selected if the step is as long as the string. -/
theorem openSlice_last_iff {bytes : List UInt8} {t step : ℤ} (hne : bytes ≠ []) (ht : t + bytes.length < 0)
    (hstep : step < 0) :
    bytes.head?.toList = openSlice bytes none (some t) step ↔ bytes.length ≤ -step ∧ bytes.head? = bytes.getLast? := by
  have hpos := List.length_pos_iff.mpr hne
  have hforth : ¬ 0 < step := by omega
  have hstart : startBound bytes.length step none = bytes.length - 1 := if_neg hforth
  have hstop : stopBound bytes.length step (some t) = -1 := by
    show bound bytes.length step t = -1
    rw [bound, if_pos (by omega), if_neg hforth, max_eq_right (by omega)]
  have hwithin := openSlice_within bytes none (some t) hstep
  have hahead : Ahead (-1) step (bytes.length - 1 : ℤ) := (ahead_neg hstep).mpr (by omega)
  rw [openSlice, hstart, hstop] at *
  rw [progression_of_ahead hstep.ne hahead] at hwithin ⊢
  have hrest := elementsAt_progression_nil hstep.ne (List.forall_mem_cons.mp hwithin).2
  have hlast : (bytes.length - 1 : ℤ).toNat < bytes.length := by omega
  have hindex : (bytes.length - 1 : ℤ).toNat = bytes.length - 1 := by omega
  rw [elementsAt_cons hlast, List.getLast?_eq_getElem?, ← hindex, List.getElem?_eq_getElem hlast]
  rw [ahead_neg hstep] at hrest
  cases bytes with
  | nil => exact absurd rfl hne
  | cons b bytes =>
    show [b] = _ :: _ ↔ _ ∧ some b = some _
    rw [List.cons.injEq, Option.some_inj, eq_comm (a := []), hrest, not_lt, and_comm]
    exact and_congr ⟨fun h => by omega, fun h => by omega⟩ Iff.rfl

theorem slice_nil {bytes : List UInt8} {s t step : ℤ} (hstep : step < 0)
    (h : bound bytes.length step s ≤ bound bytes.length step t) : slice bytes s t step = [] := by
  rw [slice, sliceIndices, progression_of_not_ahead hstep.ne (by rwa [ahead_neg hstep, not_lt])]
  rfl

/-- Backwards, the bounds `0` and the length stand for those left out only if nothing is selected, or one character. -/
theorem slice_eq_openSlice_iff (bytes : List UInt8) (start stop : Option ℤ) {step : ℤ} (hstep : step < 0) :
    slice bytes (start.getD 0) (stop.getD bytes.length) step = openSlice bytes start stop step ↔
      start.isSome ∧ stop.isSome ∨ NothingBackwards bytes.length step start stop ∨ OnlyFirst bytes step start stop := by
  have hforth : ¬ 0 < step := by omega
  have hnil : slice bytes (start.getD 0) (stop.getD bytes.length) step = [] →
      (slice bytes (start.getD 0) (stop.getD bytes.length) step = openSlice bytes start stop step ↔
        NothingBackwards bytes.length step start stop) := by
    intro h
    rw [h, NothingBackwards, ← openSlice_nil bytes start stop hstep, eq_comm]
  cases stop with
  | none =>
    -- the length is behind every element
    have hend : bound bytes.length step bytes.length = bytes.length - 1 := by
      rw [bound, if_neg (by omega), if_neg hforth, min_eq_right (by omega)]
    have hfrom : bound bytes.length step (start.getD 0) ≤ bytes.length - 1 := by
      rw [bound, if_neg hforth, if_neg hforth]
      split_ifs <;> omega
    rw [hnil (slice_nil hstep (hend.symm ▸ hfrom))]
    constructor
    · exact fun h => .inr (.inl h)
    · rintro (⟨_, h⟩ | h | ⟨_, ⟨t, ht, _⟩, _⟩)
      · cases h
      · exact h
      · cases ht
  | some t =>
    cases start with
    | some s => exact iff_of_true rfl (.inl ⟨rfl, rfl⟩)
    | none =>
      by_cases hfar : bytes ≠ [] ∧ t + bytes.length < 0
      · have hpos := List.length_pos_iff.mpr hfar.1
        have hnot : ¬ NothingBackwards bytes.length step none (some t) := by
          show ¬ (if 0 < step then (0 : ℤ) else bytes.length - 1) ≤ bound bytes.length step t
          rw [if_neg hforth, bound, if_pos (by omega), if_neg hforth, max_eq_right (by omega)]
          omega
        show slice bytes 0 t step = _ ↔ _
        rw [slice_first hfar.1 hfar.2 hstep, openSlice_last_iff hfar.1 hfar.2 hstep]
        constructor
        · exact fun h => .inr (.inr ⟨rfl, ⟨t, rfl, hfar.2⟩, h⟩)
        · rintro (⟨h, _⟩ | h | ⟨_, _, h⟩)
          · cases h
          · exact absurd h hnot
          · exact h
      · have hempty : bound bytes.length step ((none : Option ℤ).getD 0) ≤ bound bytes.length step ((some t).getD bytes.length) := by
          show bound bytes.length step 0 ≤ bound bytes.length step t
          rw [not_and_or, not_not, ← List.length_eq_zero_iff] at hfar
          rw [bound, bound, if_neg hforth, if_neg hforth, if_neg (lt_irrefl 0)]
          split_ifs <;> omega
        rw [hnil (slice_nil hstep hempty)]
        constructor
        · exact fun h => .inr (.inl h)
        · rintro (⟨h, _⟩ | h | ⟨_, ⟨t', ht, hlow⟩, _⟩)
          · cases h
          · exact h
          · -- the string is empty then, and nothing can be selected
            cases ht
            have hzero : bytes = [] := by
              by_contra hne
              exact hfar ⟨hne, hlow⟩
            subst hzero
            show (if 0 < step then (0 : ℤ) else (0 : ℕ) - 1) ≤ bound (0 : ℕ) step t
            rw [if_neg hforth, bound, if_neg hforth, if_neg hforth]
            split_ifs <;> omega

theorem stringSlice_open (s : VisualString) (hstep : step.toInt ≠ 0) :
    (∃ out, stringSlice (some s) (start.getD 0) (stop.getD (Int64.ofInt s.bytes.length)) step = .ok out ∧
        out.bytes = openSlice s.bytes (start.map Int64.toInt) (stop.map Int64.toInt) step.toInt) ↔
      if 0 < step.toInt then
        StepFits s.bytes.length ((start.map Int64.toInt).getD 0) ((stop.map Int64.toInt).getD s.bytes.length) step.toInt
      else (start.map Int64.toInt).isSome ∧ (stop.map Int64.toInt).isSome ∨
        NothingBackwards s.bytes.length step.toInt (start.map Int64.toInt) (stop.map Int64.toInt) ∨
        OnlyFirst s.bytes step.toInt (start.map Int64.toInt) (stop.map Int64.toInt) := by
  have hn := s.length_bounds
  have hstart : (start.getD 0).toInt = (start.map Int64.toInt).getD 0 := toInt_getD start 0
  have hstop : (stop.getD (Int64.ofInt s.bytes.length)).toInt = (stop.map Int64.toInt).getD s.bytes.length := by
    rw [toInt_getD, toInt_length _ hn.2]
  have hne : step ≠ 0 := fun h => hstep (h ▸ rfl)
  have hright := stringSlice_right s (start.getD 0) (stop.getD (Int64.ofInt s.bytes.length)) step hne
  rw [hstart, hstop] at hright
  by_cases hpos : 0 < step.toInt
  · rw [if_pos hpos, openSlice_forward _ _ _ hpos]
    exact hright
  have hneg : step.toInt < 0 := by omega
  rw [if_neg hpos]
  obtain ⟨out, hrun, hout⟩ := hright.mpr fun h => absurd h hpos
  have hsame : (∃ out', stringSlice (some s) (start.getD 0) (stop.getD (Int64.ofInt s.bytes.length)) step = .ok out' ∧
      out'.bytes = openSlice s.bytes (start.map Int64.toInt) (stop.map Int64.toInt) step.toInt) ↔
      slice s.bytes ((start.map Int64.toInt).getD 0) ((stop.map Int64.toInt).getD s.bytes.length) step.toInt =
        openSlice s.bytes (start.map Int64.toInt) (stop.map Int64.toInt) step.toInt := by
    rw [hrun, ← hout]
    constructor
    · rintro ⟨result, hresult, hsame⟩
      cases hresult
      exact hsame
    · exact fun h => ⟨out, rfl, h⟩
  rw [hsame]
  exact slice_eq_openSlice_iff s.bytes _ _ hneg

end Bounds

theorem valueOf_eq (values : Expr → Int64) (e : Option Expr) : valueOf values e = (e.map values).map Int64.toInt := by
  cases e <;> rfl

theorem operandOr_value (values : Expr → Int64) (n : ℕ) (default : Operand) (e : Option Expr) :
    (operandOr default e).value values n = (e.map values).getD (default.value values n) := by
  cases e <;> rfl

/-- What a function of the runtime returns, as a value. -/
theorem mapped_iff {β : Type} (x : Except Stop β) (f : β → Sequence α) (P : Sequence α → Prop) :
    (∃ out, (x.map f).mapError Fault.stop = .ok out ∧ P out) ↔ ∃ b, x = .ok b ∧ P (f b) := by
  cases x with
  | error e =>
    constructor
    · rintro ⟨out, h, _⟩
      cases h
    · rintro ⟨b, h, _⟩
      cases h
  | ok b =>
    constructor
    · rintro ⟨out, h, hout⟩
      cases h
      exact ⟨b, rfl, hout⟩
    · rintro ⟨b', h, hb⟩
      cases h
      exact ⟨f b, rfl, hb⟩

end Visuall.Codegen.Slices
