import Mathlib

/-!
# Values and words

The LLVM values that code is emitted for, and the words of 64 bits in which objects, boxes and collections keep
them.

* `LTy`, `Value` — types and values;
* `coerceToI64`, `ofI64` — the word of a value, and the value of a type that a word is taken for;
* `ofI64_coerceToI64` — a value comes back as what it was.
-/

namespace Visuall.Codegen

/-- The LLVM types of values: `i64`, `double`, pointers, the narrower integers, and the pair of pointers that a
closure is. -/
inductive LTy
  | i64
  | double
  | ptr
  | int (width : Fin 64)
  | closure
  deriving DecidableEq, Repr

/-- So that the widths of integers are written as numbers. -/
instance neZero_word : NeZero 64 := ⟨by decide⟩

def LTy.width : LTy → ℕ
  | .i64 | .double | .ptr => 64
  | .int width => width
  | .closure => 128

/-- A value: its type, and its bits. -/
structure Value where
  type : LTy
  bits : BitVec type.width
  deriving DecidableEq

abbrev Word := BitVec 64

/-- `coerceToI64`; there is no cast of a closure. -/
def coerceToI64 : Value → Option Word
  | ⟨.i64, bits⟩ => some bits
  | ⟨.double, bits⟩ => some bits
  | ⟨.ptr, bits⟩ => some bits
  | ⟨.int width, bits⟩ => some (BitVec.signExtend 64 (w := width) bits)
  | ⟨.closure, _⟩ => none

/-- A word taken for a value of a type: `inttoptr`, `bitcast`, `trunc`, or the word itself. -/
def ofI64 : LTy → Word → Value
  | .ptr, w => ⟨.ptr, w⟩
  | .double, w => ⟨.double, w⟩
  | .int width, w => ⟨.int width, BitVec.truncate width w⟩
  | .i64, w => ⟨.i64, w⟩
  | .closure, w => ⟨.i64, w⟩

/-- Sign extension keeps the low bits. -/
theorem truncate_signExtend {n : ℕ} (h : n ≤ 64) (bits : BitVec n) :
    BitVec.truncate n (BitVec.signExtend 64 bits) = bits := by
  apply BitVec.eq_of_getLsbD_eq
  intro i hi
  rw [BitVec.getLsbD_setWidth, BitVec.getLsbD_signExtend]
  simp [hi]
  omega

/-- A value that is kept as a word comes back as what it was. -/
theorem ofI64_coerceToI64 {v : Value} {w : Word} (h : coerceToI64 v = some w) : ofI64 v.type w = v := by
  obtain ⟨type, bits⟩ := v
  cases type with
  | int width =>
    cases h
    exact congrArg (Value.mk (.int width)) (truncate_signExtend width.isLt.le bits)
  | closure => cases h
  | _ =>
    cases h
    rfl

theorem coerceToI64_isSome {v : Value} (h : v.type ≠ .closure) : ∃ w, coerceToI64 v = some w := by
  obtain ⟨type, bits⟩ := v
  cases type with
  | closure => exact absurd rfl h
  | _ => exact ⟨_, rfl⟩

end Visuall.Codegen
