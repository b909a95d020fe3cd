import Mathlib

/-!
# Recursive descent over a list of tokens

A parser reads tokens by their index and moves an index; it may throw, read outside the list, or use up the
turns it was given.

* `Parser`, `Parser.loop` — parsers, and a loop, which has one more turn than there are tokens;
* `Within` — a parser stays in the list, goes back no further than a given index, and ends of its own accord;
* `Stays` — the same, without the bounds as conditions;
* `Quiet` — a parser throws nothing;
* `Consumes` — from an index on it goes back no further than where it began, and takes a token when it succeeds;
* `Within.bind`, `Within.loop` — the rules.
-/

namespace Visuall.Descent

/-- How a parser ends early. -/
inductive Halt (ε : Type) : Type
  | thrown (e : ε)
  | outside
  | exhausted
  deriving DecidableEq, Repr

/-- What a turn of a loop ends with: the result of the loop, or what the next turn starts from. -/
inductive Turn (α β : Type) : Type
  | done (b : β)
  | again (a : α)
  deriving DecidableEq, Repr

/-- What a parser does with a list of tokens from an index on: its result, and the index it ends at. -/
def Parser (τ ε α : Type) : Type := List τ → ℕ → Except (Halt ε) α × ℕ

variable {τ ε α β : Type}

namespace Parser

instance : Monad (Parser τ ε) where
  pure a := fun _ i => (.ok a, i)
  bind p f := fun ts i =>
    match p ts i with
    | (.ok a, j) => f a ts j
    | (.error h, j) => (.error h, j)

/-- The token at an index. -/
def token (i : ℕ) : Parser τ ε τ := fun ts j =>
  match ts[i]? with
  | some t => (.ok t, j)
  | none => (.error .outside, j)

/-- The index. -/
def index : Parser τ ε ℕ := fun _ i => (.ok i, i)

def moveTo (j : ℕ) : Parser τ ε Unit := fun _ _ => (.ok (), j)

def throw (e : ε) : Parser τ ε α := fun _ i => (.error (.thrown e), i)

/-- The result of something that reads no token. -/
def ofExcept (r : Except (Halt ε) α) : Parser τ ε α := fun _ i => (r, i)

/-- A result or the exception thrown. -/
def attempt (p : Parser τ ε α) : Parser τ ε (Except ε α) := fun ts i =>
  match p ts i with
  | (.ok a, j) => (.ok (.ok a), j)
  | (.error (.thrown e), j) => (.ok (.error e), j)
  | (.error h, j) => (.error h, j)

/-- At most `n` turns, until one is the last. -/
def turns (step : α → Parser τ ε (Turn α β)) : ℕ → α → Parser τ ε β
  | 0, _ => ofExcept (.error .exhausted)
  | n + 1, a => do
    match ← step a with
    | .done b => pure b
    | .again a' => turns step n a'

/-- Turns until one is the last. -/
def loop (step : α → Parser τ ε (Turn α β)) (a : α) : Parser τ ε β := fun ts i =>
  turns step (ts.length + 1) a ts i

end Parser

open Descent.Parser

/-- A parser after one that ends with a result. -/
theorem bind_of_ok {p : Parser τ ε α} {f : α → Parser τ ε β} {ts : List τ} {i j : ℕ} {a : α}
    (h : p ts i = (.ok a, j)) : (p >>= f) ts i = f a ts j := by
  have hrun : (p >>= f) ts i = match p ts i with
      | (.ok a, j) => f a ts j
      | (.error h, j) => (.error h, j) := rfl
  rw [hrun, h]

theorem bind_of_error {p : Parser τ ε α} {f : α → Parser τ ε β} {ts : List τ} {i j : ℕ} {h : Halt ε}
    (hp : p ts i = (.error h, j)) : (p >>= f) ts i = (.error h, j) := by
  have hrun : (p >>= f) ts i = match p ts i with
      | (.ok a, j) => f a ts j
      | (.error h, j) => (.error h, j) := rfl
  rw [hrun, hp]

/-- What an attempt ends with. -/
theorem attempt_run {p : Parser τ ε α} {ts : List τ} {i j : ℕ} {r : Except ε α} (h : p.attempt ts i = (.ok r, j)) :
    p ts i = (r.mapError Halt.thrown, j) := by
  rw [Parser.attempt] at h
  split at h
  · rename_i a k hp
    cases h
    exact hp
  · rename_i e k hp
    cases h
    exact hp
  · cases h

/-- From index `i`, the parser goes back no further than `b`, stays in the list, and ends with a result of which
`Q` holds or with an exception. -/
structure Within (ts : List τ) (b i : ℕ) (p : Parser τ ε α) (Q : α → ℕ → Prop) : Prop where
  le : b ≤ (p ts i).2
  lt : (p ts i).2 < ts.length
  ok : ∀ a, (p ts i).1 = .ok a → Q a (p ts i).2
  error : ∀ h, (p ts i).1 = .error h → ∃ e, h = .thrown e

namespace Within

variable {ts : List τ} {b i j : ℕ} {Q R : α → ℕ → Prop}

/-- The two ways to end. -/
theorem of_ok {p : Parser τ ε α} {a : α} (hrun : p ts i = (.ok a, j)) (hle : b ≤ j) (hlt : j < ts.length)
    (hQ : Q a j) : Within ts b i p Q := by
  refine ⟨by rwa [hrun], by rwa [hrun], ?_, ?_⟩
  · intro a' ha
    rw [hrun] at ha ⊢
    cases ha
    exact hQ
  · intro h hh
    rw [hrun] at hh
    cases hh

theorem of_thrown {p : Parser τ ε α} {e : ε} (hrun : p ts i = (.error (.thrown e), j)) (hle : b ≤ j)
    (hlt : j < ts.length) : Within ts b i p Q := by
  refine ⟨by rwa [hrun], by rwa [hrun], ?_, ?_⟩
  · intro a ha
    rw [hrun] at ha
    cases ha
  · intro h hh
    rw [hrun] at hh
    cases hh
    exact ⟨e, rfl⟩

/-- How it ends. -/
theorem cases {p : Parser τ ε α} (h : Within ts b i p Q) :
    ∃ j, b ≤ j ∧ j < ts.length ∧
      ((∃ a, p ts i = (.ok a, j) ∧ Q a j) ∨ ∃ e, p ts i = (.error (.thrown e), j)) := by
  rcases hp : p ts i with ⟨_ | a, j⟩
  · rename_i e
    obtain ⟨e, rfl⟩ := h.error e (by rw [hp])
    exact ⟨j, by simpa [hp] using h.le, by simpa [hp] using h.lt, .inr ⟨e, rfl⟩⟩
  · exact ⟨j, by simpa [hp] using h.le, by simpa [hp] using h.lt,
      .inl ⟨a, rfl, by simpa [hp] using h.ok a (by rw [hp])⟩⟩

theorem mono {p : Parser τ ε α} {c : ℕ} (h : Within ts c i p Q) (hle : b ≤ c)
    (hQ : ∀ a j, c ≤ j → j < ts.length → Q a j → R a j) : Within ts b i p R :=
  ⟨hle.trans h.le, h.lt, fun a ha => hQ a _ h.le h.lt (h.ok a ha), h.error⟩

/-- What it ends with is what it ends with. -/
theorem run {p : Parser τ ε α} (h : Within ts b i p Q) : Within ts b i p fun a j => Q a j ∧ p ts i = (.ok a, j) :=
  ⟨h.le, h.lt, fun a ha => ⟨h.ok a ha, Prod.ext ha rfl⟩, h.error⟩

theorem pure {a : α} (hle : b ≤ i) (hlt : i < ts.length) (hQ : Q a i) :
    Within ts b i (Pure.pure a : Parser τ ε α) Q :=
  of_ok rfl hle hlt hQ

theorem throw (e : ε) (hle : b ≤ i) (hlt : i < ts.length) :
    Within ts b i (Parser.throw e : Parser τ ε α) Q :=
  of_thrown rfl hle hlt

theorem bind {p : Parser τ ε α} {f : α → Parser τ ε β} {R : β → ℕ → Prop} (hp : Within ts b i p Q)
    (hf : ∀ a j, b ≤ j → j < ts.length → Q a j → Within ts b j (f a) R) : Within ts b i (p >>= f) R := by
  have hrun : (p >>= f) ts i = match p ts i with
      | (.ok a, j) => f a ts j
      | (.error h, j) => (.error h, j) := rfl
  obtain ⟨j, hle, hlt, ⟨a, hpi, hQ⟩ | ⟨e, hpi⟩⟩ := hp.cases
  · rw [hpi] at hrun
    obtain ⟨k, hle', hlt', ⟨c, hfa, hR⟩ | ⟨e, hfa⟩⟩ := (hf a j hle hlt hQ).cases
    · exact of_ok (hrun.trans hfa) hle' hlt' hR
    · exact of_thrown (hrun.trans hfa) hle' hlt'
  · rw [hpi] at hrun
    exact of_thrown hrun hle hlt

theorem index (hle : b ≤ i) (hlt : i < ts.length) :
    Within ts b i (Parser.index : Parser τ ε ℕ) fun j k => j = i ∧ k = i :=
  of_ok rfl hle hlt ⟨rfl, rfl⟩

theorem token (hle : b ≤ i) (hlt : i < ts.length) (hj : j < ts.length) :
    Within ts b i (Parser.token j : Parser τ ε τ) fun t k => ts[j]? = some t ∧ k = i := by
  have ht := List.getElem?_eq_getElem hj
  exact of_ok (a := ts[j]) (by rw [Parser.token, ht]) hle hlt ⟨ht, rfl⟩

theorem moveTo (hle : b ≤ j) (hlt : j < ts.length) :
    Within ts b i (Parser.moveTo j : Parser τ ε Unit) fun _ k => k = j :=
  of_ok rfl hle hlt rfl

theorem ofExcept {r : Except (Halt ε) α} (hle : b ≤ i) (hlt : i < ts.length) (hok : ∀ a, r = .ok a → Q a i)
    (herror : ∀ h, r = .error h → ∃ e, h = .thrown e) : Within ts b i (Parser.ofExcept r) Q :=
  ⟨hle, hlt, hok, herror⟩

theorem attempt {p : Parser τ ε α} {Q : Except ε α → ℕ → Prop} (hp : Within ts b i p fun a j => Q (.ok a) j)
    (herror : ∀ e j, b ≤ j → j < ts.length → Q (.error e) j) : Within ts b i p.attempt Q := by
  obtain ⟨j, hle, hlt, ⟨a, hpi, hQ⟩ | ⟨e, hpi⟩⟩ := hp.cases
  · exact of_ok (a := .ok a) (by rw [Parser.attempt, hpi]) hle hlt hQ
  · exact of_ok (a := .error e) (by rw [Parser.attempt, hpi]) hle hlt (herror e j hle hlt)

/-- The branches of a test. -/
theorem ite {c : Prop} [Decidable c] {p q : Parser τ ε α} (hp : c → Within ts b i p Q)
    (hq : ¬ c → Within ts b i q Q) : Within ts b i (if c then p else q) Q := by
  by_cases hc : c
  · rw [if_pos hc]
    exact hp hc
  · rw [if_neg hc]
    exact hq hc

/-- Each turn that goes on takes a token, so the turns suffice. -/
theorem turns {I : α → ℕ → Prop} {Q : β → ℕ → Prop} {step : α → Parser τ ε (Turn α β)}
    (hstep : ∀ a j, b ≤ j → j < ts.length → I a j → Within ts b j (step a) fun r k =>
      match r with
      | .done c => Q c k
      | .again a' => j < k ∧ I a' k) :
    ∀ n a j, ts.length ≤ j + n → b ≤ j → j < ts.length → I a j → Within ts b j (turns step n a) Q := by
  intro n
  induction n with
  | zero =>
    intro a j hn _ hlt _
    omega
  | succ n ih =>
    intro a j hn hle hlt hI
    refine (hstep a j hle hlt hI).bind fun r k hk hlt' hr => ?_
    cases r with
    | done c => exact pure hk hlt' hr
    | again a' => exact ih a' k (by omega) hk hlt' hr.2

/-- **Loops.**  An invariant of the turns, of which each that goes on takes a token. -/
theorem loop (I : α → ℕ → Prop) {Q : β → ℕ → Prop} {step : α → Parser τ ε (Turn α β)} {a : α} (hle : b ≤ i)
    (hlt : i < ts.length) (hI : I a i)
    (hstep : ∀ a j, b ≤ j → j < ts.length → I a j → Within ts b j (step a) fun r k =>
      match r with
      | .done c => Q c k
      | .again a' => j < k ∧ I a' k) : Within ts b i (loop step a) Q := by
  have h := turns hstep (ts.length + 1) a i (by omega) hle hlt hI
  exact ⟨h.le, h.lt, h.ok, h.error⟩

end Within

/-- The same of an index that is in the list and not in front of `b`. -/
def Stays (ts : List τ) (b i : ℕ) (p : Parser τ ε α) (Q : α → ℕ → Prop) : Prop :=
  b ≤ i → i < ts.length → Within ts b i p Q

namespace Stays

variable {ts : List τ} {b c i j : ℕ} {p : Parser τ ε α} {Q R : α → ℕ → Prop}

theorem mono (h : Stays ts b i p Q) (hQ : ∀ a j, Q a j → R a j) : Stays ts b i p R :=
  fun hle hlt => (h hle hlt).mono le_rfl fun a j _ _ => hQ a j

theorem pure {a : α} (hQ : Q a i) : Stays ts b i (Pure.pure a : Parser τ ε α) Q :=
  fun hle hlt => Within.pure hle hlt hQ

theorem throw (e : ε) : Stays ts b i (Parser.throw e : Parser τ ε α) Q :=
  fun hle hlt => Within.throw e hle hlt

theorem bind {f : α → Parser τ ε β} {R : β → ℕ → Prop} (hp : Stays ts b i p Q)
    (hf : ∀ a j, Q a j → Stays ts b j (f a) R) : Stays ts b i (p >>= f) R :=
  fun hle hlt => (hp hle hlt).bind fun a j hle hlt hQ => hf a j hQ hle hlt

theorem index : Stays ts b i (Parser.index : Parser τ ε ℕ) fun j k => j = i ∧ k = i :=
  fun hle hlt => Within.index hle hlt

theorem moveTo (hle : b ≤ j) (hlt : j < ts.length) :
    Stays ts b i (Parser.moveTo j : Parser τ ε Unit) fun _ k => k = j :=
  fun _ _ => Within.moveTo hle hlt

theorem ofExcept {r : Except (Halt ε) α} (herror : ∀ h, r = .error h → ∃ e, h = .thrown e) :
    Stays ts b i (Parser.ofExcept r) fun _ k => k = i :=
  fun hle hlt => Within.ofExcept hle hlt (fun _ _ => rfl) herror

theorem ite {c : Prop} [Decidable c] {q : Parser τ ε α} (hp : c → Stays ts b i p Q) (hq : ¬ c → Stays ts b i q Q) :
    Stays ts b i (if c then p else q) Q :=
  fun hle hlt => Within.ite (fun hc => hp hc hle hlt) fun hc => hq hc hle hlt

theorem loop (I : α → ℕ → Prop) {Q : β → ℕ → Prop} {step : α → Parser τ ε (Turn α β)} {a : α} (hI : I a i)
    (hstep : ∀ a j, I a j → Stays ts b j (step a) fun r k =>
      match r with
      | .done c => Q c k
      | .again a' => j < k ∧ I a' k) : Stays ts b i (loop step a) Q :=
  fun hle hlt => Within.loop I hle hlt hI fun a j hle hlt hI => hstep a j hI hle hlt

end Stays

/-- From `b` on, the parser goes back no further than where it began, and takes a token when it succeeds. -/
def Consumes (ts : List τ) (b : ℕ) (p : Parser τ ε α) : Prop :=
  ∀ i, b ≤ i → i < ts.length → Within ts i i p fun _ j => i < j

namespace Consumes

variable {ts : List τ} {b c i : ℕ} {p : Parser τ ε α}

theorem intro (h : ∀ i, b ≤ i → Stays ts i i p fun _ j => i < j) : Consumes ts b p := fun i hi => h i hi le_rfl

/-- Behind the last token there is nothing to show. -/
theorem of_length_le (h : ts.length ≤ b) : Consumes ts b p := by
  intro i hi hlt
  omega

theorem stays (h : Consumes ts c p) (hc : c ≤ i) : Stays ts b i p fun _ j => i < j :=
  fun hle hlt => (h i hc hlt).mono hle fun _ _ _ _ hj => hj

/-- First of all. -/
theorem bind {f : α → Parser τ ε β} {Q : β → ℕ → Prop} (h : Consumes ts c p) (hc : c ≤ i)
    (hf : ∀ a j, i < j → Stays ts b j (f a) Q) : Stays ts b i (p >>= f) Q :=
  (h.stays hc).bind hf

/-- As the whole result. -/
theorem map {f : α → β} (h : Consumes ts c p) (hc : c ≤ i) : Stays ts b i (do return f (← p)) fun _ j => i < j :=
  h.bind hc fun _ _ hj => Stays.pure hj

end Consumes

/-- The parser throws nothing, wherever it begins. -/
def Quiet (p : Parser τ ε α) : Prop := ∀ ts i e, (p ts i).1 ≠ .error (.thrown e)

namespace Quiet

theorem pure (a : α) : Quiet (Pure.pure a : Parser τ ε α) := fun _ _ _ h => by cases h

theorem bind {p : Parser τ ε α} {f : α → Parser τ ε β} (hp : Quiet p) (hf : ∀ a, Quiet (f a)) :
    Quiet (p >>= f) := by
  intro ts i e
  have hrun : (p >>= f) ts i = match p ts i with
      | (.ok a, j) => f a ts j
      | (.error h, j) => (.error h, j) := rfl
  rw [hrun]
  rcases hpi : p ts i with ⟨h | a, j⟩
  · have hthrown := hp ts i e
    rw [hpi] at hthrown
    intro heq
    cases heq
    exact hthrown rfl
  · exact hf a ts j e

theorem index : Quiet (Parser.index : Parser τ ε ℕ) := fun _ _ _ h => by cases h

theorem moveTo (j : ℕ) : Quiet (Parser.moveTo j : Parser τ ε Unit) := fun _ _ _ h => by cases h

theorem outside : Quiet (Parser.ofExcept (.error .outside) : Parser τ ε α) := fun _ _ _ h => by cases h

theorem token (j : ℕ) : Quiet (Parser.token j : Parser τ ε τ) := by
  intro ts i e
  show (match ts[j]? with
    | some t => (.ok t, i)
    | none => (.error .outside, i) : Except (Halt ε) τ × ℕ).1 ≠ _
  cases ts[j]? with
  | some t => exact fun h => by cases h
  | none => exact fun h => by cases h

/-- What is thrown inside is a result. -/
theorem attempt (p : Parser τ ε α) : Quiet p.attempt := by
  intro ts i e
  rw [Parser.attempt]
  split
  · exact fun h => by cases h
  · exact fun h => by cases h
  · rename_i h j hne hpi
    intro heq
    cases heq
    exact hne e rfl

theorem ite {c : Prop} [Decidable c] {p q : Parser τ ε α} (hp : Quiet p) (hq : Quiet q) :
    Quiet (if c then p else q) := by
  by_cases hc : c
  · rwa [if_pos hc]
  · rwa [if_neg hc]

theorem loop {step : α → Parser τ ε (Turn α β)} (hstep : ∀ a, Quiet (step a)) (a : α) : Quiet (loop step a) := by
  have hturns : ∀ n a, Quiet (turns step n a) := by
    intro n
    induction n with
    | zero => exact fun _ _ _ _ h => by cases h
    | succ n ih =>
      intro a
      refine (hstep a).bind fun r => ?_
      cases r with
      | done c => exact pure c
      | again a' => exact ih a'
  exact fun ts i => hturns (ts.length + 1) a ts i

end Quiet

end Visuall.Descent
