import Mathlib

/-!
# Machines and the programs they run

A machine steps on states, shows a trace that only grows, and stays where it is once it has ended.  A program
with fuel gives, for every amount of fuel, the trace it has shown and what it ended with, if it has.

* `Reach n s t` — at least `n` steps lead from `s` to `t`;
* `Ends`, `Shows` — what the machine ends with, and what it shows, whether it ends or not;
* `Matches` — the machine gets as far as the program does with that much fuel;
* `ends_iff`, `shows_iff` — a machine that matches a program for every fuel ends as the program ends, and
  shows what the program shows.
-/

namespace Visuall

/-- A machine with states `σ`, traces of `τ` and endings `ρ`. -/
structure Machine (σ τ ρ : Type*) where
  step : σ → σ
  trace : σ → List τ
  ended : σ → Option ρ
  ended_step : ∀ s r, ended s = some r → step s = s
  trace_step : ∀ s, trace s <+: trace (step s)

namespace Machine

variable {σ τ ρ : Type*} (M : Machine σ τ ρ)

/-- At least `n` steps lead from `s` to `t`. -/
def Reach (n : ℕ) (s t : σ) : Prop := ∃ m, n ≤ m ∧ M.step^[m] s = t

/-- From `s` the machine ends with `r`, having shown `t`. -/
def Ends (s : σ) (r : ρ) (t : List τ) : Prop :=
  ∃ m, M.ended (M.step^[m] s) = some r ∧ M.trace (M.step^[m] s) = t

/-- From `s` the machine shows `t`. -/
def Shows (s : σ) (t : List τ) : Prop := ∃ m, t <+: M.trace (M.step^[m] s)

variable {M} {s t u : σ} {m n k : ℕ}

namespace Reach

theorem refl (s : σ) : M.Reach 0 s s := ⟨0, le_refl 0, rfl⟩

theorem trans (h : M.Reach m s t) (h' : M.Reach n t u) : M.Reach (m + n) s u := by
  obtain ⟨a, ha, hs⟩ := h
  obtain ⟨b, hb, ht⟩ := h'
  refine ⟨b + a, by omega, ?_⟩
  rw [Function.iterate_add_apply, hs, ht]

theorem mono (h : M.Reach n s t) (hle : m ≤ n) : M.Reach m s t := by
  obtain ⟨a, ha, hs⟩ := h
  exact ⟨a, le_trans hle ha, hs⟩

theorem single (h : M.step s = t) : M.Reach 1 s t := ⟨1, le_refl 1, h⟩

theorem head (h : M.step s = t) (h' : M.Reach n t u) : M.Reach n s u :=
  ((single h).trans h').mono (by omega)

/-- Any number of steps, and then those that are known of. -/
theorem after (h : M.Reach 0 s t) (h' : M.Reach n t u) : M.Reach n s u := (h.trans h').mono (by omega)

end Reach

/-- Once it has ended, a machine stays where it is. -/
theorem iterate_ended {r : ρ} (h : M.ended (M.step^[m] s) = some r) (hle : m ≤ k) :
    M.step^[k] s = M.step^[m] s := by
  induction k, hle using Nat.le_induction with
  | base => rfl
  | succ k hk ih => rw [Function.iterate_succ_apply', ih, M.ended_step _ r h]

/-- The trace only grows. -/
theorem trace_iterate (hle : m ≤ k) : M.trace (M.step^[m] s) <+: M.trace (M.step^[k] s) := by
  induction k, hle using Nat.le_induction with
  | base => exact List.prefix_rfl
  | succ k hk ih =>
    rw [Function.iterate_succ_apply']
    exact ih.trans (M.trace_step _)

/-- A machine ends in one way only. -/
theorem Ends.unique {r r' : ρ} {x y : List τ} (h : M.Ends s r x) (h' : M.Ends s r' y) :
    r = r' ∧ x = y := by
  obtain ⟨a, ha, hx⟩ := h
  obtain ⟨b, hb, hy⟩ := h'
  have hab : M.step^[a] s = M.step^[b] s := by
    rcases le_total a b with hle | hle
    · exact (iterate_ended ha hle).symm
    · exact iterate_ended hb hle
  rw [hab] at ha hx
  exact ⟨Option.some.inj (ha.symm.trans hb), hx.symm.trans hy⟩

/-! ## Programs with fuel -/

/-- With some amount of fuel the program ends with `r`, having shown `t`. -/
def FuelEnds (exec : ℕ → List τ × Option ρ) (r : ρ) (t : List τ) : Prop := ∃ n, exec n = (t, some r)

/-- With some amount of fuel the program shows `t`. -/
def FuelShows (exec : ℕ → List τ × Option ρ) (t : List τ) : Prop := ∃ n, t <+: (exec n).1

theorem fuelEnds_map {ρ' : Type*} (exec : ℕ → List τ × Option ρ) (f : ρ → ρ') (r : ρ') (x : List τ) :
    FuelEnds (fun n => ((exec n).1, (exec n).2.map f)) r x ↔ ∃ r₀, FuelEnds exec r₀ x ∧ f r₀ = r := by
  constructor
  · rintro ⟨n, hn⟩
    obtain ⟨hx, hr⟩ := Prod.mk.inj hn
    obtain ⟨r₀, hr₀, hf⟩ := Option.map_eq_some_iff.mp hr
    exact ⟨r₀, ⟨n, Prod.ext hx hr₀⟩, hf⟩
  · rintro ⟨r₀, ⟨n, hn⟩, rfl⟩
    refine ⟨n, ?_⟩
    show ((exec n).1, (exec n).2.map f) = (x, some (f r₀))
    rw [hn]
    rfl

variable (M) in
/-- The machine gets as far as a program that was given `n` units of fuel: to the ending, or through as many
steps. -/
def Matches (s : σ) (n : ℕ) : List τ × Option ρ → Prop
  | (x, some r) => ∃ t, M.Reach 0 s t ∧ M.ended t = some r ∧ M.trace t = x
  | (x, none) => ∃ t, M.Reach n s t ∧ M.ended t = none ∧ M.trace t = x

section Agree

variable {exec : ℕ → List τ × Option ρ} (h : ∀ n, M.Matches s n (exec n))

include h

theorem ends_iff (r : ρ) (x : List τ) : FuelEnds exec r x ↔ M.Ends s r x := by
  constructor
  · rintro ⟨n, hn⟩
    have hm := h n
    rw [hn] at hm
    obtain ⟨t, ⟨m, -, rfl⟩, hr, hx⟩ := hm
    exact ⟨m, hr, hx⟩
  · intro hends
    obtain ⟨m, hr, hx⟩ := id hends
    have hm := h (m + 1)
    -- with more fuel than the machine took steps the program has ended
    rcases he : exec (m + 1) with ⟨y, _ | r'⟩
    · rw [he] at hm
      obtain ⟨t, ⟨k, hk, rfl⟩, hnone, -⟩ := hm
      rw [iterate_ended hr (by omega), hr] at hnone
      cases hnone
    · rw [he] at hm
      obtain ⟨t, ⟨k, -, rfl⟩, hr', hy⟩ := hm
      obtain ⟨rfl, rfl⟩ := hends.unique ⟨k, hr', hy⟩
      exact ⟨m + 1, he⟩

theorem shows_iff (x : List τ) : FuelShows exec x ↔ M.Shows s x := by
  constructor
  · rintro ⟨n, hn⟩
    have hm := h n
    rcases he : exec n with ⟨y, _ | r⟩ <;> rw [he] at hm hn <;> obtain ⟨t, ⟨k, -, rfl⟩, -, hy⟩ := hm
    · exact ⟨k, by rw [hy]; exact hn⟩
    · exact ⟨k, by rw [hy]; exact hn⟩
  · rintro ⟨m, hx⟩
    have hm := h m
    refine ⟨m, hx.trans ?_⟩
    rcases he : exec m with ⟨y, _ | r⟩ <;> rw [he] at hm
    · obtain ⟨t, ⟨k, hk, rfl⟩, -, rfl⟩ := hm
      exact trace_iterate hk
    · obtain ⟨t, ⟨k, -, rfl⟩, hr, rfl⟩ := hm
      rcases le_total m k with hle | hle
      · exact trace_iterate hle
      · rw [iterate_ended hr hle]

end Agree

end Machine

end Visuall
