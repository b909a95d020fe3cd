import Visuall.Lib.Descent

/-!
# Two parsers in lockstep

Parsers on two lists of tokens whose tokens correspond: they move alike, and end alike, with results that correspond.

* `EndAlike` — how they end: both with a result, or both early;
* `Lockstep` — from every index they end alike at the same index;
* `Lockstep.bind`, `Lockstep.loop` — the rules.
-/

namespace Visuall.Descent

variable {τ ε α α' β β' : Type}

/-- Two results that correspond, or two early ends. -/
inductive EndAlike (R : α → α' → Prop) : Except (Halt ε) α → Except (Halt ε) α' → Prop
  | ok {a : α} {a' : α'} : R a a' → EndAlike R (.ok a) (.ok a')
  | error {h h' : Halt ε} : EndAlike R (.error h) (.error h')

theorem EndAlike.of_ok {R : α → α' → Prop} {x : Except (Halt ε) α} {a' : α'} (h : EndAlike R x (.ok a')) :
    ∃ a, x = .ok a ∧ R a a' := by
  cases h with
  | ok hr => exact ⟨_, rfl, hr⟩

theorem EndAlike.of_error {R : α → α' → Prop} {x : Except (Halt ε) α} {e : Halt ε} (h : EndAlike R x (.error e)) :
    ∃ e', x = .error e' := by
  cases h with
  | error => exact ⟨_, rfl⟩

/-- From every index the parsers end alike, at the same index. -/
def Lockstep (ts ts' : List τ) (R : α → α' → Prop) (p : Parser τ ε α) (p' : Parser τ ε α') : Prop :=
  ∀ i, (p ts i).2 = (p' ts' i).2 ∧ EndAlike R (p ts i).1 (p' ts' i).1

/-- Turns that go on from what corresponds, or end with what does. -/
inductive TurnsAlike (I : α → α' → Prop) (R : β → β' → Prop) : Turn α β → Turn α' β' → Prop
  | done {b : β} {b' : β'} : R b b' → TurnsAlike I R (.done b) (.done b')
  | again {a : α} {a' : α'} : I a a' → TurnsAlike I R (.again a) (.again a')

namespace Lockstep

open Descent.Parser

variable {ts ts' : List τ} {R : α → α' → Prop} {S : β → β' → Prop}

theorem pure {a : α} {a' : α'} (h : R a a') :
    Lockstep ts ts' R (Pure.pure a : Parser τ ε α) (Pure.pure a') := fun _ => ⟨rfl, .ok h⟩

theorem throw (e e' : ε) : Lockstep ts ts' R (Parser.throw e : Parser τ ε α) (Parser.throw e') := fun _ => ⟨rfl, .error⟩

theorem ofExcept {r : Except (Halt ε) α} {r' : Except (Halt ε) α'} (h : EndAlike R r r') :
    Lockstep ts ts' R (Parser.ofExcept r) (Parser.ofExcept r') := fun _ => ⟨rfl, h⟩

theorem index : Lockstep ts ts' Eq (Parser.index : Parser τ ε ℕ) Parser.index := fun _ => ⟨rfl, .ok rfl⟩

theorem moveTo (j : ℕ) : Lockstep ts ts' Eq (Parser.moveTo j : Parser τ ε Unit) (Parser.moveTo j) :=
  fun _ => ⟨rfl, .ok rfl⟩

/-- Tokens at one index correspond, or are both outside. -/
theorem token {T : τ → τ → Prop} (h : List.Forall₂ T ts ts') (j : ℕ) :
    Lockstep ts ts' T (Parser.token j : Parser τ ε τ) (Parser.token j) := by
  intro i
  unfold Parser.token
  by_cases hj : j < ts.length
  · have hj' : j < ts'.length := h.length_eq ▸ hj
    rw [List.getElem?_eq_getElem hj, List.getElem?_eq_getElem hj']
    exact ⟨rfl, .ok (h.get hj hj')⟩
  · have hj' : ¬ j < ts'.length := h.length_eq ▸ hj
    rw [List.getElem?_eq_none (not_lt.mp hj), List.getElem?_eq_none (not_lt.mp hj')]
    exact ⟨rfl, .error⟩

theorem bind {p : Parser τ ε α} {p' : Parser τ ε α'} {f : α → Parser τ ε β} {f' : α' → Parser τ ε β'}
    (hp : Lockstep ts ts' R p p') (hf : ∀ a a', R a a' → Lockstep ts ts' S (f a) (f' a')) :
    Lockstep ts ts' S (p >>= f) (p' >>= f') := by
  intro i
  obtain ⟨hend, halike⟩ := hp i
  rcases hpi : p ts i with ⟨r, j⟩
  rcases hpi' : p' ts' i with ⟨r', j'⟩
  rw [hpi, hpi'] at hend halike
  change j = j' at hend
  subst hend
  cases halike with
  | ok h =>
      rw [bind_of_ok hpi, bind_of_ok hpi']
      exact hf _ _ h j
  | error =>
      rw [bind_of_error hpi, bind_of_error hpi']
      exact ⟨rfl, .error⟩

/-- The branches of one test. -/
theorem ite {c : Prop} [Decidable c] {p q : Parser τ ε α} {p' q' : Parser τ ε α'} (hp : Lockstep ts ts' R p p')
    (hq : Lockstep ts ts' R q q') : Lockstep ts ts' R (if c then p else q) (if c then p' else q') := by
  by_cases hc : c
  · rw [if_pos hc, if_pos hc]
    exact hp
  · rw [if_neg hc, if_neg hc]
    exact hq

/-- A parser whose result is tested. -/
theorem test {c : Parser τ ε Bool} {p q : Parser τ ε α} {p' q' : Parser τ ε α'} (hc : Lockstep ts ts' Eq c c)
    (hp : Lockstep ts ts' R p p') (hq : Lockstep ts ts' R q q') :
    Lockstep ts ts' R (do if ← c then p else q) (do if ← c then p' else q') := by
  refine hc.bind fun b b' hb => ?_
  subst hb
  exact ite hp hq

/-- Turns that correspond. -/
theorem turns {I : α → α' → Prop} {step : α → Parser τ ε (Turn α β)} {step' : α' → Parser τ ε (Turn α' β')}
    (hstep : ∀ a a', I a a' → Lockstep ts ts' (TurnsAlike I S) (step a) (step' a')) :
    ∀ n a a', I a a' → Lockstep ts ts' S (turns step n a) (turns step' n a') := by
  intro n
  induction n with
  | zero => exact fun _ _ _ => ofExcept .error
  | succ n ih =>
      intro a a' ha
      refine (hstep a a' ha).bind fun r r' hr => ?_
      cases hr with
      | done h => exact pure h
      | again h => exact ih _ _ h

/-- **Loops.**  What each turn starts from corresponds. -/
theorem loop (I : α → α' → Prop) {step : α → Parser τ ε (Turn α β)} {step' : α' → Parser τ ε (Turn α' β')} {a : α}
    {a' : α'} (hlength : ts.length = ts'.length) (ha : I a a')
    (hstep : ∀ a a', I a a' → Lockstep ts ts' (TurnsAlike I S) (step a) (step' a')) :
    Lockstep ts ts' S (loop step a) (loop step' a') := by
  intro i
  unfold Parser.loop
  rw [hlength]
  exact turns hstep _ a a' ha i

end Lockstep

end Visuall.Descent
