import Visuall.Runtime.FStrings

/-!
# Integers and their texts

The number that `fast_i64_to_buf` of `stdlib/runtime.c` divides is computed in 64 bits, and `__visuall_str_to_int`
reads a text with `strtoll`.

* `magnitude` — the arithmetic in front of the digits, which does not overflow;
* `strToInt` — the reader;
* `fastI64ToBuf_strToInt` — an integer comes back from its text.
-/

namespace Visuall.Runtime

open Visuall.Decimal

/-! ## The number without its sign -/

/-- `-a` in `int64_t`. -/
def negInt64 (a : ℤ) : Except Stop ℤ :=
  if int64Min ≤ -a ∧ -a ≤ int64Max then .ok (-a) else .error .overflow

/-- What `fast_i64_to_buf` keeps in `uv`: `(uint64_t)(-(val + 1)) + 1` for a negative number. -/
def magnitude (val : Int64) : Except Stop UInt64 :=
  if val.toInt < 0 then do
    let next ← addInt64 val.toInt 1
    let negated ← negInt64 next
    return UInt64.ofInt negated + 1
  else .ok (UInt64.ofInt val.toInt)

theorem toNat_ofInt {n : ℕ} (hn : n < 2 ^ 64) : (UInt64.ofInt n).toNat = n := by
  have hmod : ((n : ℤ) % 2 ^ 64).toNat = n := by omega
  rw [UInt64.ofInt, UInt64.toNat_ofNat', hmod]
  exact Nat.mod_eq_of_lt hn

/-- **No overflow**, the least number included, whose magnitude is not an `int64_t`. -/
theorem magnitude_ok (val : Int64) : ∃ uv, magnitude val = .ok uv ∧ uv.toNat = val.toInt.natAbs := by
  have hlow := Int64.le_toInt val
  have hhigh := Int64.toInt_lt val
  rw [magnitude]
  split
  · next hneg =>
    have hadd : addInt64 val.toInt 1 = .ok (val.toInt + 1) := addInt64_ok (by norm_num [int64Min, int64Max]; omega)
    have hnegate : negInt64 (val.toInt + 1) = .ok (-(val.toInt + 1)) := if_pos (by norm_num [int64Min, int64Max]; omega)
    refine ⟨UInt64.ofInt (-(val.toInt + 1)) + 1, ?_, ?_⟩
    · rw [hadd, Effect.ok_bind, hnegate]
      rfl
    · have hnat : -(val.toInt + 1) = ((val.toInt.natAbs - 1 : ℕ) : ℤ) := by omega
      rw [UInt64.toNat_add, hnat, toNat_ofInt (by omega)]
      show (val.toInt.natAbs - 1 + 1) % 2 ^ 64 = _
      omega
  · next hpos =>
    have hnat : val.toInt = (val.toInt.natAbs : ℤ) := by omega
    refine ⟨_, rfl, ?_⟩
    rw [hnat, toNat_ofInt (by omega), Int.natAbs_natCast]

/-! ## The reader -/

/-- The result of `strtoll`: the number, clamped, whether it did not fit, and whether there was one. -/
structure Strtoll where
  val : ℤ
  errno : Bool
  converted : Bool

/-- `strtoll` in base 10. -/
def strtoll (s : List UInt8) : Strtoll :=
  let (negative, s) := signOf (s.dropWhile isSpace)
  let digits := s.takeWhile isDigit
  let n : ℤ := if negative then -value digits else value digits
  ⟨max int64Min (min n int64Max), decide (n < int64Min ∨ int64Max < n), decide (digits ≠ [])⟩

def invalidLiteral (s : List UInt8) : String :=
  "ValueError: invalid literal for int(): '" ++ String.ofList (s.map fun b => Char.ofNat b.toNat) ++ "'\n"

/-- `__visuall_str_to_int`. -/
def strToInt : Option CString → Except Stop Int64
  | none => .ok 0
  | some s =>
    let r := strtoll s.bytes
    if r.errno || !r.converted then .error (.exit (invalidLiteral s.bytes)) else .ok (Int64.ofInt r.val)

/-- A numeral is read as its number. -/
theorem strtoll_intNumeral {i : ℤ} (hi : int64Min ≤ i ∧ i ≤ int64Max) : strtoll (intNumeral i) = ⟨i, false, true⟩ := by
  have hvalue : (if decide (i < 0) = true then -(value (numeral i.natAbs) : ℤ) else value (numeral i.natAbs)) = i := by
    rw [value_numeral]
    split_ifs with hneg
    · have := of_decide_eq_true hneg
      omega
    · have := of_decide_eq_false (Bool.eq_false_of_not_eq_true hneg)
      omega
  rw [strtoll, dropWhile_intNumeral, signOf_intNumeral]
  simp only [takeWhile_numeral, hvalue]
  rw [decide_eq_true (numeral_ne_nil _), decide_eq_false (by omega), min_eq_left hi.2, max_eq_right hi.1]

/-- **An integer comes back from its text.**  Every `int64_t` is written as its numeral, into 24 bytes with the
terminator, without an overflow on the way, and the numeral is read as the integer. -/
theorem fastI64ToBuf_strToInt (val : Int64) :
    (∃ uv, magnitude val = .ok uv ∧ uv.toNat = val.toInt.natAbs) ∧
    fastI64ToBuf val.toInt = .ok (intNumeral val.toInt) ∧ (intNumeral val.toInt).length + 1 ≤ 24 ∧
    ∃ s : CString, s.bytes = intNumeral val.toInt ∧ strToInt (some s) = .ok val := by
  have hbounds := int64_bounds val
  have hlow := Int64.le_toInt val
  have hhigh := Int64.toInt_lt val
  refine ⟨magnitude_ok val, fastI64ToBuf_ok ⟨hlow, hhigh⟩, ?_, ⟨_, zero_notMem_intNumeral val.toInt⟩, rfl, ?_⟩
  · have hlength : (numeral val.toInt.natAbs).length ≤ 19 := length_numeral_le (by norm_num) (by norm_num; omega)
    rw [intNumeral]
    split
    · rw [List.length_cons]
      omega
    · omega
  · rw [strToInt]
    simp only [strtoll_intNumeral hbounds]
    exact congrArg Except.ok (Int64.ofInt_toInt val)

end Visuall.Runtime
