import Visuall.Runtime.Lists

/-!
# Random numbers

`__visuall_random_randint`, `__visuall_random_choice` and `__visuall_random_shuffle` of `stdlib/runtime.c`.  A
64-bit range or length is cast to `int` before `rand()` is reduced by it, so a multiple of `2 ^ 32` becomes the
divisor zero.

* `castInt`, `remainder`, `remainder_ok`, `remainder_zero` — the cast and the reduction;
* `randint`, `choice`, `shuffle` — the three functions;
* `random_iff` — when each does what it is for.
-/

namespace Visuall.Runtime

/-- The ways one of the functions ends without returning. -/
inductive RandomStop where
  /-- The text goes to `stderr` and the process exits with status 1. -/
  | exit (msg : String)
  /-- Something outside a list is read or written. -/
  | outOfBounds
  /-- A signed sum is not a 64-bit number. -/
  | overflow
  | divideByZero
deriving DecidableEq

/-- A value of `rand()`: an `int` that is not negative. -/
abbrev RandValue := Fin (2 ^ 31)

/-- `(int)x`. -/
def castInt (x : ℤ) : ℤ := Int.bmod x (2 ^ 32)

/-- `rand() % divisor` on two `int`s. -/
def remainder (r : RandValue) (divisor : ℤ) : Except RandomStop ℤ :=
  if divisor = 0 then .error .divideByZero else .ok (Int.tmod r.val divisor)

/-- A sum or a difference in `int64_t`. -/
def checkInt64 (x : ℤ) : Except RandomStop ℤ :=
  if int64Min ≤ x ∧ x ≤ int64Max then .ok x else .error .overflow

/-- `__visuall_random_randint`. -/
def randint (lo hi : Int64) (r : RandValue) : Except RandomStop ℤ := do
  if hi < lo then return lo.toInt
  let range ← checkInt64 ((← checkInt64 (hi.toInt - lo.toInt)) + 1)
  checkInt64 (lo.toInt + (← remainder r (castInt range)))

/-- `lst->data[i]`. -/
def elementAt (data : List Int64) (i : ℤ) : Except RandomStop Int64 :=
  if h : 0 ≤ i ∧ i < data.length then .ok (data.get ⟨i.toNat, by omega⟩) else .error .outOfBounds

/-- `__visuall_random_choice`; `none` is NULL. -/
def choice (lst : Option (VisualList Int64)) (r : RandValue) : Except RandomStop Int64 :=
  match lst with
  | none => .error (.exit "RandomError: choice from empty list\n")
  | some lst => do
    if lst.data.length = 0 then throw (.exit "RandomError: choice from empty list\n")
    elementAt lst.data (← remainder r (castInt lst.data.length))

/-- The exchange in the loop of `__visuall_random_shuffle`. -/
def exchange (data : List Int64) (i : ℕ) (j : ℤ) : Except RandomStop (List Int64) := do
  let tmp ← elementAt data i
  let other ← elementAt data j
  return (data.set i other).set j.toNat tmp

/-- `for (int64_t i = …; i > 0; i--)`; `rand n` is what the `n`-th call of `rand()` returns. -/
def shuffleLoop (rand : ℕ → RandValue) : ℕ → ℕ → List Int64 → Except RandomStop (List Int64)
  | _, 0, data => .ok data
  | calls, i + 1, data => do
    let j ← remainder (rand calls) (castInt (← checkInt64 (((i + 1 : ℕ) : ℤ) + 1)))
    shuffleLoop rand (calls + 1) i (← exchange data (i + 1) j)

/-- `__visuall_random_shuffle` on a list that is not NULL: the elements afterwards.  No turn is made from `-1`,
where the loop over an empty list starts. -/
def shuffle (rand : ℕ → RandValue) (lst : VisualList Int64) : Except RandomStop (List Int64) :=
  shuffleLoop rand 0 (lst.data.length - 1) lst.data

/-! ### One reduction -/

theorem checkInt64_ok {x : ℤ} (h : int64Min ≤ x ∧ x ≤ int64Max) : checkInt64 x = .ok x := if_pos h

theorem of_checkInt64 {x y : ℤ} (h : checkInt64 x = .ok y) : y = x ∧ x ≤ int64Max := by
  unfold checkInt64 at h
  split at h
  · rename_i hx
    cases h
    exact ⟨rfl, hx.2⟩
  · cases h

theorem elementAt_ok {data : List Int64} {i : ℕ} (h : i < data.length) :
    elementAt data i = .ok (data.get ⟨i, h⟩) := by
  have hi : (0 : ℤ) ≤ (i : ℤ) ∧ (i : ℤ) < data.length := by omega
  rw [elementAt, dif_pos hi]
  rfl

theorem remainder_zero {n : ℤ} (hdvd : 2 ^ 32 ∣ n) (r : RandValue) :
    remainder r (castInt n) = .error .divideByZero := by
  have hzero : castInt n = 0 := Int.bmod_eq_zero_of_dvd (by exact_mod_cast hdvd)
  rw [remainder, if_pos hzero]

/-- Any other positive number leaves a remainder below it, also where the cast changes it. -/
theorem remainder_ok {n : ℤ} (hpos : 0 < n) (hdvd : ¬ 2 ^ 32 ∣ n) (r : RandValue) :
    ∃ m : ℕ, remainder r (castInt n) = .ok m ∧ (m : ℤ) < n := by
  have hne : castInt n ≠ 0 := by
    intro hzero
    have hsub : ((2 ^ 32 : ℕ) : ℤ) ∣ Int.bmod n (2 ^ 32) - n := Int.dvd_bmod_sub_self
    rw [show Int.bmod n (2 ^ 32) = 0 from hzero, zero_sub, Int.dvd_neg] at hsub
    exact hdvd (by exact_mod_cast hsub)
  obtain ⟨m, hm⟩ := Int.eq_ofNat_of_zero_le (Int.tmod_nonneg (castInt n) (Int.natCast_nonneg r.val))
  have hmod : m = r.val % (castInt n).natAbs := by
    have h := Int.natAbs_tmod (r.val : ℤ) (castInt n)
    rwa [hm, Int.natAbs_natCast, Int.natAbs_natCast] at h
  refine ⟨m, by rw [remainder, if_neg hne, hm], ?_⟩
  by_cases hsmall : n < 2 ^ 31
  · -- the cast leaves the number as it is
    have hcast : castInt n = n := Int.bmod_eq_of_le (by omega) (by omega)
    rw [hcast] at hmod hne
    have hlt : m < n.natAbs := hmod ▸ Nat.mod_lt _ (Int.natAbs_pos.mpr hne)
    omega
  · -- whatever the cast gives, `rand()` itself is below the number
    have hle : m ≤ r.val := hmod ▸ Nat.mod_le _ _
    have := r.isLt
    omega

/-! ### The functions -/

/-- `randint` returns a number between the bounds. -/
def RandintRight (lo hi : Int64) (r : RandValue) : Prop :=
  ∃ x, randint lo hi r = .ok x ∧ lo.toInt ≤ x ∧ x ≤ hi.toInt

theorem randint_eq {lo hi : Int64} (h : lo ≤ hi) (r : RandValue) : randint lo hi r = (do
    let range ← checkInt64 ((← checkInt64 (hi.toInt - lo.toInt)) + 1)
    checkInt64 (lo.toInt + (← remainder r (castInt range)))) := by
  have hlt : ¬ hi < lo := by
    rw [Int64.lt_iff_toInt_lt]
    have := Int64.le_iff_toInt_le.mp h
    omega
  rw [randint, if_neg hlt]

/-- The range has to be a 64-bit number, and no multiple of `2 ^ 32`. -/
theorem randint_iff {lo hi : Int64} (h : lo ≤ hi) (r : RandValue) :
    RandintRight lo hi r ↔ hi.toInt - lo.toInt < int64Max ∧ ¬ 2 ^ 32 ∣ hi.toInt - lo.toInt + 1 := by
  have hle : lo.toInt ≤ hi.toInt := Int64.le_iff_toInt_le.mp h
  have hlo := int64_bounds lo
  have hhi := int64_bounds hi
  have hmin : int64Min ≤ 0 := by norm_num [int64Min]
  rw [RandintRight, randint_eq h]
  constructor
  · rintro ⟨x, hx, -, -⟩
    obtain ⟨diff, hdiff, hx⟩ := Effect.ok_of_bind hx
    obtain ⟨range, hrange, hx⟩ := Effect.ok_of_bind hx
    obtain ⟨rfl, -⟩ := of_checkInt64 hdiff
    obtain ⟨rfl, hfit⟩ := of_checkInt64 hrange
    refine ⟨by omega, fun hdvd => ?_⟩
    rw [remainder_zero hdvd] at hx
    cases hx
  · rintro ⟨hfit, hdvd⟩
    obtain ⟨m, hm, hlt⟩ := remainder_ok (by omega) hdvd r
    refine ⟨lo.toInt + m, ?_, by omega, by omega⟩
    rw [checkInt64_ok (x := hi.toInt - lo.toInt) (by omega), Effect.ok_bind,
      checkInt64_ok (x := hi.toInt - lo.toInt + 1) (by omega), Effect.ok_bind, hm, Effect.ok_bind]
    exact checkInt64_ok (by omega)

/-- `choice` returns an element; of a list without one it says so and exits. -/
def ChoiceRight (lst : VisualList Int64) (r : RandValue) : Prop :=
  if lst.data.length = 0 then choice (some lst) r = .error (.exit "RandomError: choice from empty list\n")
  else ∃ i : Fin lst.data.length, choice (some lst) r = .ok (lst.data.get i)

/-- The length must not be a multiple of `2 ^ 32`, unless it is zero. -/
theorem choice_iff (lst : VisualList Int64) (r : RandValue) :
    ChoiceRight lst r ↔ lst.data.length = 0 ∨ ¬ 2 ^ 32 ∣ lst.data.length := by
  by_cases hzero : lst.data.length = 0
  · rw [ChoiceRight, if_pos hzero, choice, if_pos hzero]
    exact ⟨fun _ => .inl hzero, fun _ => rfl⟩
  · have hchoice : choice (some lst) r =
        (do elementAt lst.data (← remainder r (castInt lst.data.length))) := by
      rw [choice, if_neg hzero]
    rw [ChoiceRight, if_neg hzero, hchoice]
    constructor
    · rintro ⟨i, hi⟩
      refine .inr fun hdvd => ?_
      rw [remainder_zero (by exact_mod_cast hdvd)] at hi
      cases hi
    · rintro (h | hdvd)
      · exact absurd h hzero
      obtain ⟨m, hm, hlt⟩ := remainder_ok (n := lst.data.length) (by omega) (by exact_mod_cast hdvd) r
      have hlt' : m < lst.data.length := by omega
      exact ⟨⟨m, hlt'⟩, by rw [hm]; exact elementAt_ok hlt'⟩

/-! ### The shuffle -/

theorem exchange_ok {data : List Int64} {i j : ℕ} (hi : i < data.length) (hj : j < data.length) :
    ∃ out, exchange data i j = .ok out ∧ out.Perm data := by
  refine ⟨(data.set i (data.get ⟨j, hj⟩)).set j (data.get ⟨i, hi⟩), ?_, List.set_set_perm hi hj⟩
  rw [exchange, elementAt_ok hi, Effect.ok_bind, elementAt_ok hj]
  rfl

/-- `i + 1` for an index is no overflow, so a turn is a reduction and an exchange. -/
theorem shuffleLoop_eq {rand : ℕ → RandValue} {calls i : ℕ} {data : List Int64} (hi : i + 1 < data.length)
    (hlen : data.length ≤ maxLength) : shuffleLoop rand calls (i + 1) data = (do
      let j ← remainder (rand calls) (castInt (i + 2 : ℕ))
      shuffleLoop rand (calls + 1) i (← exchange data (i + 1) j)) := by
  have hcheck : checkInt64 (((i + 1 : ℕ) : ℤ) + 1) = .ok ((i + 2 : ℕ) : ℤ) := by
    have hsum : ((i + 1 : ℕ) : ℤ) + 1 = (i + 2 : ℕ) := by push_cast; ring
    rw [hsum]
    refine checkInt64_ok ⟨by norm_num [int64Min]; omega, ?_⟩
    have hmax : (maxLength : ℤ) ≤ int64Max := by norm_num [maxLength, int64Max]
    omega
  rw [shuffleLoop, hcheck, Effect.ok_bind]

/-- One turn at index `i + 1`: a turn whose divisor is not cast to zero exchanges two elements. -/
theorem shuffleLoop_succ (rand : ℕ → RandValue) (calls : ℕ) {i : ℕ} {data : List Int64} (hi : i + 1 < data.length)
    (hlen : data.length ≤ maxLength) (hdvd : ¬ 2 ^ 32 ∣ i + 2) :
    ∃ out, shuffleLoop rand calls (i + 1) data = shuffleLoop rand (calls + 1) i out ∧ out.Perm data := by
  obtain ⟨m, hm, hlt⟩ := remainder_ok (n := (i + 2 : ℕ)) (by omega) (by exact_mod_cast hdvd) (rand calls)
  obtain ⟨out, hout, hperm⟩ := exchange_ok hi (j := m) (by omega)
  refine ⟨out, ?_, hperm⟩
  rw [shuffleLoop_eq hi hlen, hm, Effect.ok_bind, hout, Effect.ok_bind]

/-- Below index `2 ^ 32` no divisor is a multiple of it. -/
theorem shuffleLoop_ok (rand : ℕ → RandValue) {calls i : ℕ} {data : List Int64} (hi : i < data.length)
    (hlen : data.length ≤ maxLength) (hsmall : i + 1 < 2 ^ 32) :
    ∃ out, shuffleLoop rand calls i data = .ok out ∧ out.Perm data := by
  induction i generalizing calls data with
  | zero => exact ⟨data, rfl, List.Perm.refl _⟩
  | succ i ih =>
      have hdvd : ¬ 2 ^ 32 ∣ i + 2 := Nat.not_dvd_of_pos_of_lt (by omega) hsmall
      obtain ⟨next, hturn, hnext⟩ := shuffleLoop_succ rand calls hi hlen hdvd
      have hlength := hnext.length_eq
      obtain ⟨out, hout, hperm⟩ : ∃ out, shuffleLoop rand (calls + 1) i next = .ok out ∧ out.Perm next :=
        ih (by omega) (by omega) (by omega)
      exact ⟨out, hturn.trans hout, hperm.trans hnext⟩

/-- From index `2 ^ 32 - 1` on the loop comes by the divisor zero. -/
theorem shuffleLoop_stops (rand : ℕ → RandValue) {calls i : ℕ} {data : List Int64} (hi : i < data.length)
    (hlen : data.length ≤ maxLength) (hlarge : 2 ^ 32 ≤ i + 1) :
    shuffleLoop rand calls i data = .error .divideByZero := by
  induction i generalizing calls data with
  | zero => omega
  | succ i ih =>
      by_cases hdvd : 2 ^ 32 ∣ i + 2
      · rw [shuffleLoop_eq hi hlen]
        rw [remainder_zero (by exact_mod_cast hdvd)]
        rfl
      · have hne : i + 2 ≠ 2 ^ 32 := fun heq => hdvd (heq ▸ dvd_rfl)
        obtain ⟨next, hturn, hnext⟩ := shuffleLoop_succ rand calls hi hlen hdvd
        have hlength := hnext.length_eq
        exact hturn.trans (ih (by omega) (by omega) (by omega))

/-- `shuffle` leaves the same elements, each as often as before. -/
def ShuffleRight (rand : ℕ → RandValue) (lst : VisualList Int64) : Prop :=
  ∃ out, shuffle rand lst = .ok out ∧ out.Perm lst.data

theorem shuffle_iff (rand : ℕ → RandValue) (lst : VisualList Int64) :
    ShuffleRight rand lst ↔ lst.data.length < 2 ^ 32 := by
  have hlen := lst.length_le
  rw [ShuffleRight, shuffle]
  by_cases hempty : lst.data.length = 0
  · rw [hempty]
    exact ⟨fun _ => by norm_num, fun _ => ⟨lst.data, rfl, List.Perm.refl _⟩⟩
  constructor
  · rintro ⟨out, hout, -⟩
    by_contra hlarge
    rw [shuffleLoop_stops rand (by omega) hlen (by omega)] at hout
    cases hout
  · intro hsmall
    exact shuffleLoop_ok rand (by omega) hlen (by omega)

/-- **Random numbers.**  Exactly when each of the three functions does what it is for, whatever `rand()` gives. -/
theorem random_iff {lo hi : Int64} (h : lo ≤ hi) (r : RandValue) (lst : VisualList Int64) (rand : ℕ → RandValue) :
    (RandintRight lo hi r ↔ hi.toInt - lo.toInt < int64Max ∧ ¬ 2 ^ 32 ∣ hi.toInt - lo.toInt + 1) ∧
    (ChoiceRight lst r ↔ lst.data.length = 0 ∨ ¬ 2 ^ 32 ∣ lst.data.length) ∧
    (ShuffleRight rand lst ↔ lst.data.length < 2 ^ 32) :=
  ⟨randint_iff h r, choice_iff lst r, shuffle_iff rand lst⟩

/-- A die, and an empty list. -/
theorem random_iff_die :
    (RandintRight 1 6 0 ↔ (6 : Int64).toInt - (1 : Int64).toInt < int64Max ∧
      ¬ 2 ^ 32 ∣ (6 : Int64).toInt - (1 : Int64).toInt + 1) ∧
    (ChoiceRight (listNew Int64) 0 ↔ (listNew Int64).data.length = 0 ∨ ¬ 2 ^ 32 ∣ (listNew Int64).data.length) ∧
    (ShuffleRight (fun _ => 0) (listNew Int64) ↔ (listNew Int64).data.length < 2 ^ 32) :=
  random_iff (by decide) 0 (listNew Int64) fun _ => 0

/-- `randint(0, 4294967295)` divides by zero. -/
theorem randint_zero_divisor : randint 0 4294967295 7 = .error .divideByZero := by decide

end Visuall.Runtime
