import Mathlib

/-!
# Decimal numerals

Numbers written in decimal as texts of bytes, and read again.

* `numeral n`, `intNumeral i` — the shortest numeral, with a sign where there is one;
* `value s` — the value of digits;
* `value_numeral`, `numeral_inj`, `intNumeral_inj` — reading gives the number back, so numerals differ;
* `head?_intNumeral` — the sign is seen from the first byte;
* `takeWhile_numeral`, `signOf_intNumeral` — a numeral read as the C library does.
-/

namespace Visuall.Decimal

/-- The byte is one of `0` to `9`. -/
def isDigit (b : UInt8) : Bool := 48 ≤ b && b ≤ 57

/-- The byte of a digit. -/
def digit (d : ℕ) : UInt8 := (48 + d).toUInt8

/-- The numeral of a number. -/
def numeral (n : ℕ) : List UInt8 := if n = 0 then [48] else (Nat.digits 10 n).reverse.map digit

/-- The numeral of an integer. -/
def intNumeral (i : ℤ) : List UInt8 := if i < 0 then 45 :: numeral i.natAbs else numeral i.natAbs

/-- The value of digits. -/
def value (s : List UInt8) : ℕ := s.foldl (fun n b => 10 * n + (b.toNat - 48)) 0

/-- The white space that the functions of the C library skip in front of a number. -/
def isSpace (b : UInt8) : Bool := b == 32 || (9 ≤ b && b ≤ 13)

/-- The sign of a number, and what stands behind it. -/
def signOf : List UInt8 → Bool × List UInt8
  | 45 :: s => (true, s)
  | 43 :: s => (false, s)
  | s => (false, s)

variable {d n m : ℕ} {i j : ℤ} {b : UInt8}

theorem digit_toNat (hd : d < 10) : (digit d).toNat = 48 + d := by
  rw [digit, Nat.toUInt8_eq, UInt8.toNat_ofNat']
  exact Nat.mod_eq_of_lt (by omega)

theorem isDigit_digit (hd : d < 10) : isDigit (digit d) = true := by
  have hnat := digit_toNat hd
  rw [isDigit, Bool.and_eq_true, decide_eq_true_eq, decide_eq_true_eq, UInt8.le_iff_toNat_le, UInt8.le_iff_toNat_le, hnat]
  exact ⟨Nat.le_add_right _ _, show 48 + d ≤ 57 by omega⟩

theorem value_append (s : List UInt8) (b : UInt8) : value (s ++ [b]) = 10 * value s + (b.toNat - 48) := by
  rw [value, List.foldl_append]
  rfl

/-- The value of digits, the last one first. -/
theorem value_reverse (ds : List ℕ) (hds : ∀ d ∈ ds, d < 10) : value (ds.reverse.map digit) = Nat.ofDigits 10 ds := by
  induction ds with
  | nil => rfl
  | cons d ds ih =>
      obtain ⟨hd, hrest⟩ := List.forall_mem_cons.mp hds
      rw [List.reverse_cons, List.map_append, List.map_singleton, value_append, ih hrest, digit_toNat hd, Nat.ofDigits_cons]
      omega

/-- **Reading a numeral.** -/
theorem value_numeral (n : ℕ) : value (numeral n) = n := by
  rw [numeral]
  split
  · next hn => exact hn.symm
  · rw [value_reverse _ fun d hd => Nat.digits_lt_base (by norm_num) hd, Nat.ofDigits_digits]

theorem numeral_inj : numeral n = numeral m ↔ n = m := by
  constructor
  · intro h
    rw [← value_numeral n, h, value_numeral]
  · exact fun h => congrArg numeral h

theorem isDigit_of_mem (h : b ∈ numeral n) : isDigit b = true := by
  rw [numeral] at h
  split at h
  · rw [List.mem_singleton.mp h]
    rfl
  · obtain ⟨d, hd, rfl⟩ := List.mem_map.mp h
    exact isDigit_digit (Nat.digits_lt_base (by norm_num) (List.mem_reverse.mp hd))

theorem numeral_ne_nil (n : ℕ) : numeral n ≠ [] := by
  rw [numeral]
  split
  · exact List.cons_ne_nil _ _
  · next hn =>
    intro h
    rw [List.map_eq_nil_iff, List.reverse_eq_nil_iff, Nat.digits_eq_nil_iff_eq_zero] at h
    exact hn h

theorem numeral_of_ten_le (hn : 10 ≤ n) : numeral n = numeral (n / 10) ++ [digit (n % 10)] := by
  rw [numeral, if_neg (by omega), numeral, if_neg (by omega), Nat.digits_def' (by norm_num) (by omega), List.reverse_cons,
    List.map_append, List.map_singleton]

theorem numeral_of_lt_ten (hn : n < 10) : numeral n = [digit n] := by
  rw [numeral]
  split
  · next hzero =>
    subst hzero
    rfl
  · next hne => rw [Nat.digits_of_lt 10 n hne hn, List.reverse_singleton, List.map_singleton]

/-- The length of a numeral. -/
theorem length_numeral_le {k : ℕ} (hk : 0 < k) (hn : n < 10 ^ k) : (numeral n).length ≤ k := by
  rw [numeral]
  split
  · exact hk
  · rw [List.length_map, List.length_reverse]
    exact (Nat.digits_length_le_iff (by norm_num) n).mpr hn

theorem intNumeral_ne_nil (i : ℤ) : intNumeral i ≠ [] := by
  rw [intNumeral]
  split
  · exact List.cons_ne_nil _ _
  · exact numeral_ne_nil _

/-- A sign is seen from the first byte. -/
theorem head?_intNumeral (i : ℤ) : (intNumeral i).head? = some 45 ↔ i < 0 := by
  rw [intNumeral]
  split
  · next hneg => exact iff_of_true rfl hneg
  · next hpos =>
    refine iff_of_false (fun h => ?_) hpos
    have hdigit := isDigit_of_mem (List.mem_of_head? h)
    exact absurd hdigit (by decide)

theorem intNumeral_inj : intNumeral i = intNumeral j ↔ i = j := by
  constructor
  · intro h
    have hsign : i < 0 ↔ j < 0 := by rw [← head?_intNumeral, ← head?_intNumeral, h]
    rw [intNumeral, intNumeral] at h
    by_cases hneg : i < 0
    · rw [if_pos hneg, if_pos (hsign.mp hneg)] at h
      have habs := numeral_inj.mp (List.tail_eq_of_cons_eq h)
      have := hsign.mp hneg
      omega
    · rw [if_neg hneg, if_neg fun hj => hneg (hsign.mpr hj)] at h
      have habs := numeral_inj.mp h
      have := fun hj => hneg (hsign.mpr hj)
      omega
  · exact fun h => congrArg intNumeral h

/-! ## Numerals read from a text -/

theorem takeWhile_numeral (n : ℕ) : (numeral n).takeWhile isDigit = numeral n :=
  List.takeWhile_eq_self_iff.mpr fun _ hb => isDigit_of_mem hb

theorem dropWhile_numeral (n : ℕ) : (numeral n).dropWhile isSpace = numeral n := by
  cases hs : numeral n with
  | nil => exact absurd hs (numeral_ne_nil n)
  | cons b s =>
      have hdigit : isDigit b = true := isDigit_of_mem (hs ▸ List.mem_cons_self)
      have hspace : isSpace b = false := by
        simp only [isDigit, isSpace, Bool.and_eq_true, decide_eq_true_eq, UInt8.le_iff_toNat_le] at hdigit ⊢
        simp only [Bool.or_eq_false_iff, beq_eq_false_iff_ne, Bool.and_eq_false_iff, decide_eq_false_iff_not]
        refine ⟨fun h => ?_, .inr ?_⟩
        · subst h
          exact absurd hdigit.1 (by decide)
        · show ¬ b.toNat ≤ 13
          have : 48 ≤ b.toNat := hdigit.1
          omega
      exact List.dropWhile_cons_of_neg fun h => Bool.false_ne_true (hspace.symm.trans h)

theorem signOf_numeral (n : ℕ) : signOf (numeral n) = (false, numeral n) := by
  cases hs : numeral n with
  | nil => exact absurd hs (numeral_ne_nil n)
  | cons b s =>
      have hdigit : isDigit b = true := isDigit_of_mem (hs ▸ List.mem_cons_self)
      unfold signOf
      split
      · next heq =>
        cases heq
        exact absurd hdigit (by decide)
      · next heq =>
        cases heq
        exact absurd hdigit (by decide)
      · rfl

/-- The sign of a numeral. -/
theorem signOf_intNumeral (i : ℤ) : signOf (intNumeral i) = (decide (i < 0), numeral i.natAbs) := by
  rw [intNumeral]
  split
  · next hneg =>
    rw [decide_eq_true hneg]
    rfl
  · next hpos => rw [decide_eq_false hpos, signOf_numeral]

theorem dropWhile_intNumeral (i : ℤ) : (intNumeral i).dropWhile isSpace = intNumeral i := by
  rw [intNumeral]
  split
  · exact List.dropWhile_cons_of_neg (by decide)
  · exact dropWhile_numeral _

end Visuall.Decimal
