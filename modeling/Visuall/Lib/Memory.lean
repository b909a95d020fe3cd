import Mathlib

/-!
# Byte-addressed memory

A memory gives every address a byte.  Words are stored low byte first, and a word is read back from
the bytes it was stored in, wherever another word overlaps it or not.

* `load m a n`, `store m a n v` — words of `n` bytes at address `a`;
* `fill m a n b` — `memset`;
* `load_store_self`, `load_store_of_disjoint` — what a stored word leaves in memory.
-/

namespace Visuall

/-- The byte at every address. -/
abbrev Mem := ℕ → UInt8

/-- The word of `n` bytes at address `a`. -/
def load (m : Mem) (a : ℕ) : ℕ → ℕ
  | 0 => 0
  | n + 1 => (m a).toNat + 256 * load m (a + 1) n

/-- Memory with the low `n` bytes of `v` stored at address `a`. -/
def store (m : Mem) (a n v : ℕ) : Mem := fun x =>
  if a ≤ x ∧ x < a + n then UInt8.ofNat (v / 256 ^ (x - a)) else m x

/-- Memory with the `n` bytes at address `a` set to `b`. -/
def fill (m : Mem) (a n : ℕ) (b : UInt8) : Mem := fun x =>
  if a ≤ x ∧ x < a + n then b else m x

section Words

variable {m m' : Mem} {a b n k v x : ℕ}

theorem load_congr (h : ∀ x, a ≤ x → x < a + n → m x = m' x) : load m a n = load m' a n := by
  induction n generalizing a with
  | zero => rfl
  | succ n ih =>
      rw [load, load, h a (by omega) (by omega), ih fun x hx hx' => h x (by omega) (by omega)]

/-- A word of bytes that are 0. -/
theorem load_of_zero (h : ∀ x, a ≤ x → x < a + n → m x = 0) : load m a n = 0 := by
  induction n generalizing a with
  | zero => rfl
  | succ n ih =>
      rw [load, h a le_rfl (by omega), ih fun x hx hx' => h x (by omega) (by omega)]
      rfl

theorem load_lt (m : Mem) (a n : ℕ) : load m a n < 256 ^ n := by
  induction n generalizing a with
  | zero => exact Nat.one_pos
  | succ n ih =>
      have hbyte : (m a).toNat < 256 := (m a).toNat_lt
      have hrest := ih (a + 1)
      rw [load, pow_succ']
      omega

theorem load_one : load m a 1 = (m a).toNat := by
  rw [load, load, Nat.mul_zero, Nat.add_zero]

theorem store_of_notMem (h : ¬ (a ≤ x ∧ x < a + n)) : store m a n v x = m x := if_neg h

theorem fill_of_notMem {c : UInt8} (h : ¬ (a ≤ x ∧ x < a + n)) : fill m a n c x = m x := if_neg h

theorem load_store_of_disjoint (h : b + k ≤ a ∨ a + n ≤ b) :
    load (store m a n v) b k = load m b k :=
  load_congr fun x hx hx' => store_of_notMem (by omega)

theorem load_fill_of_disjoint {c : UInt8} (h : b + k ≤ a ∨ a + n ≤ b) :
    load (fill m a n c) b k = load m b k :=
  load_congr fun x hx hx' => fill_of_notMem (by omega)

/-- **Reading back.** -/
theorem load_store_self : load (store m a n v) a n = v % 256 ^ n := by
  induction n generalizing m a v with
  | zero => rw [load, pow_zero, Nat.mod_one]
  | succ n ih =>
      have hhead : (store m a (n + 1) v a).toNat = v % 256 := by
        have hbyte : store m a (n + 1) v a = UInt8.ofNat v := by
          rw [store, if_pos (by omega), Nat.sub_self, pow_zero, Nat.div_one]
        rw [hbyte, UInt8.toNat_ofNat']
      have htail : load (store m a (n + 1) v) (a + 1) n = v / 256 % 256 ^ n := by
        rw [← ih (m := m) (a := a + 1)]
        refine load_congr fun x hx hx' => ?_
        rw [store, store, if_pos (by omega), if_pos (by omega)]
        rw [show x - a = x - (a + 1) + 1 by omega, pow_succ', Nat.div_div_eq_div_mul]
      rw [load, hhead, htail, pow_succ', Nat.mod_mul]

theorem load_store_of_lt (h : v < 256 ^ n) : load (store m a n v) a n = v := by
  rw [load_store_self, Nat.mod_eq_of_lt h]

end Words

end Visuall
