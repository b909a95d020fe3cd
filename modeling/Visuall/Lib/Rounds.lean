import Mathlib

/-!
# Loops by rounds

A loop over states `σ` that shows events `ε` and ends with a result `ρ`.  A round shows some events, and then gives
the state before the next round, or the result.

* `Rounds.run` — what is shown in `n` rounds, and where the loop stands after them;
* `Rounds.same_iff` — exactly when two loops are the same, however many rounds one looks at;
* `Rounds.ends_of_measure` — a loop whose rounds decrease a measure ends.
-/

namespace Visuall

/-- A loop, by what one of its rounds does. -/
structure Rounds (σ ε ρ : Type*) where
  round : σ → List ε × (σ ⊕ ρ)

namespace Rounds

variable {σ ε ρ : Type*} (A B : Rounds σ ε ρ)

/-- At most `n` rounds. -/
def run : ℕ → σ → List ε × (σ ⊕ ρ)
  | 0, s => ([], .inl s)
  | n + 1, s =>
    match A.round s with
    | (es, .inl t) => (es ++ (run n t).1, (run n t).2)
    | (es, .inr r) => (es, .inr r)

/-- The states before the rounds of a loop. -/
inductive Reaches (s : σ) : σ → Prop
  | start : Reaches s s
  | next {t u : σ} {es : List ε} (h : Reaches s t) (ht : B.round t = (es, .inl u)) : Reaches s u

/-- The loop comes to a result. -/
def Ends (s : σ) : Prop := ∃ n r, (A.run n s).2 = .inr r

variable {A B} {s t u : σ} {es : List ε} {r : ρ}

theorem run_one (s : σ) : A.run 1 s = A.round s := by
  unfold run
  rcases A.round s with ⟨es, t | r⟩
  · simp [run]
  · rfl

theorem run_succ_of_inl (h : A.round s = (es, .inl t)) (n : ℕ) :
    A.run (n + 1) s = (es ++ (A.run n t).1, (A.run n t).2) := by
  rw [run, h]

theorem run_succ_of_inr (h : A.round s = (es, .inr r)) (n : ℕ) : A.run (n + 1) s = (es, .inr r) := by
  rw [run, h]

/-- A state that the first round leads to is the start of the rest. -/
theorem Reaches.head (h : B.round s = (es, .inl t)) (hu : B.Reaches t u) : B.Reaches s u := by
  induction hu with
  | start => exact .next .start h
  | next _ hv ih => exact .next ih hv

/-- A state that is reached is the first one, or the first round goes on. -/
theorem Reaches.eq_or_first (h : B.Reaches s t) : t = s ∨ ∃ es u, B.round s = (es, .inl u) := by
  induction h with
  | start => exact .inl rfl
  | next _ ht ih =>
    rcases ih with rfl | hfirst
    · exact .inr ⟨_, _, ht⟩
    · exact .inr hfirst

/-- Two loops that are the same from a state on are the same from the states that they come to. -/
theorem agree_of_reaches (h : ∀ n, A.run n s = B.run n s) (ht : B.Reaches s t) : ∀ n, A.run n t = B.run n t := by
  induction ht with
  | start => exact h
  | @next u v es _ hv ih =>
    have hround : A.round u = (es, .inl v) := by rw [← run_one, ih 1, run_one, hv]
    intro n
    have hn := ih (n + 1)
    rw [run_succ_of_inl hround, run_succ_of_inl hv] at hn
    have hfst : (A.run n v).1 = (B.run n v).1 := List.append_cancel_left (congrArg Prod.fst hn)
    have hsnd : (A.run n v).2 = (B.run n v).2 := congrArg (fun x => x.2) hn
    exact Prod.ext hfst hsnd

/-- **Two loops are the same** exactly when each round of the one is the round of the other. -/
theorem same_iff : (∀ n, A.run n s = B.run n s) ↔ ∀ t, B.Reaches s t → A.round t = B.round t := by
  constructor
  · intro h t ht
    rw [← run_one, agree_of_reaches h ht 1, run_one]
  · intro h n
    induction n generalizing s with
    | zero => rfl
    | succ n ih =>
      have hs := h s .start
      rcases hround : B.round s with ⟨es, t | r⟩
      · rw [run_succ_of_inl (hs.trans hround), run_succ_of_inl hround,
          ih fun u hu => h u (hu.head hround)]
      · rw [run_succ_of_inr (hs.trans hround), run_succ_of_inr hround]

theorem Ends.of_round (h : A.round s = (es, .inl t)) (ht : A.Ends t) : A.Ends s := by
  obtain ⟨n, r, hr⟩ := ht
  exact ⟨n + 1, r, by rw [run_succ_of_inl h]; exact hr⟩

/-- A loop ends when its rounds decrease a measure. -/
theorem ends_of_measure (m : σ → ℕ) (h : ∀ s es t, A.round s = (es, .inl t) → m t < m s) (s : σ) : A.Ends s := by
  induction hm : m s using Nat.strong_induction_on generalizing s with
  | _ k ih =>
    rcases hround : A.round s with ⟨es, t | r⟩
    · exact .of_round hround (ih (m t) (hm ▸ h s es t hround) t rfl)
    · exact ⟨1, r, by rw [run_one, hround]⟩

end Rounds

end Visuall
