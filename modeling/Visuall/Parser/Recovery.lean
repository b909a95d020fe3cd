import Visuall.Parser.Progress

/-!
# The loop of `Parser::parse`

A turn of the loop begins a statement at an index.  It is parsed, or its `ParseError` is caught and the loop goes on
behind what `synchronize` leaves; any other exception leaves the loop.

* `Caught`, `Next`, `Begins` — an error that is caught, one turn, and the indices where statements begin;
* `caught_further` — the loop goes on further in the list;
* `parseLoop_ends` — it ends, and an exception leaves it exactly when a statement throws one that is not caught.
-/

namespace Visuall.Parser

open Visuall.Ast Visuall.Descent Descent.Parser

/-- Whether the loop of `parse` catches an exception. -/
def Thrown.caught : Thrown → Bool
  | .parse _ => true
  | .lex _ => false
  | .outOfRange => false
  | .nullPointer => false

section Turns

variable (N : Nested) (ts : List Token)

/-- The statement at index `i` throws a `ParseError` at index `j`, and the loop goes on at index `k`. -/
structure Caught (i : ℕ) (e : ParseError) (j k : ℕ) : Prop where
  live : Live ts i
  thrown : parseStatement N ts i = (.error (.thrown (.parse e)), j)
  resumed : (synchronize >>= fun _ => skipNewlines) ts j = (.ok (), k)

/-- A turn from one index to another: over a statement, or after an error. -/
inductive Next (i k : ℕ) : Prop
  | statement {stmt : Stmt} {j : ℕ} : Live ts i → parseStatement N ts i = (.ok stmt, j) →
      skipNewlines ts j = (.ok (), k) → Next i k
  | error {e : ParseError} {j : ℕ} : Caught N ts i e j k → Next i k

/-- The loop comes to an index. -/
inductive Begins : ℕ → Prop
  | first {i : ℕ} : skipNewlines ts 0 = (.ok (), i) → Begins i
  | next {i k : ℕ} : Begins i → Next N ts i k → Begins k

/-- The statement at index `i` throws nothing that is not caught. -/
def Calm (i : ℕ) : Prop := ∀ e, (parseStatement N ts i).1 = .error (.thrown e) → e.caught = true

end Turns

variable {N : Nested} {ts : List Token} {i j k : ℕ}

theorem Next.live (h : Next N ts i k) : Live ts i := by
  cases h with
  | statement hlive => exact hlive
  | error hcaught => exact hcaught.live

/-- There is one turn from an index. -/
theorem Next.unique (h : Next N ts i j) (h' : Next N ts i k) : j = k := by
  cases h with
  | statement _ hparse hskip =>
      cases h' with
      | statement _ hparse' hskip' =>
          cases hparse.symm.trans hparse'
          cases hskip.symm.trans hskip'
          rfl
      | error hcaught => cases hparse.symm.trans hcaught.thrown
  | error hcaught =>
      cases h' with
      | statement _ hparse _ => cases hcaught.thrown.symm.trans hparse
      | error hcaught' =>
          cases hcaught.thrown.symm.trans hcaught'.thrown
          cases hcaught.resumed.symm.trans hcaught'.resumed
          rfl

variable (h : Ended ts) (hN : Ready ts 1 N)
include h hN

omit hN in
/-- What is skipped behind an error. -/
theorem resuming (hlt : j < ts.length) :
    Within ts j j (synchronize >>= fun _ => skipNewlines) fun _ k => j ≤ k ∧ (Live ts j → j < k) := by
  refine (synchronize_within h le_rfl hlt).bind fun _ k hle hlt hk => ?_
  refine (skipNewlines_within h hle hlt).mono le_rfl fun _ l _ _ hl => ⟨by omega, fun hlive => ?_⟩
  have := hk.2 hlive
  omega

/-- **After an error the loop goes on further**, behind the token at which it was thrown if that is not the end. -/
theorem caught_further {e : ParseError} (hcaught : Caught N ts i e j k) : i < k ∧ j ≤ k ∧ (Live ts j → j < k) := by
  have hstatement := parseStatement_consumes h hN i (Nat.zero_le i) hcaught.live.lt
  have hij := hstatement.le
  have hjlt := hstatement.lt
  rw [hcaught.thrown] at hij hjlt
  have hresume := (resuming h hjlt).ok ()
  rw [hcaught.resumed] at hresume
  obtain ⟨hjk, hlive⟩ := hresume rfl
  refine ⟨?_, hjk, hlive⟩
  -- a statement that throws at its first token throws at one that is not the end
  rcases Nat.eq_or_lt_of_le hij with rfl | hlt
  · exact hlive hcaught.live
  · exact lt_of_lt_of_le hlt hjk

/-- How the loop ends: every statement throws what is caught, or the exception of one that does not is left. -/
def LoopEnds (N : Nested) (ts : List Token) (r : ParseRun) : Prop :=
  (r.uncaught = none ∧ ∀ i, Begins N ts i → Live ts i → Calm N ts i) ∨
    ∃ e, r.uncaught = some e ∧ e.caught = false ∧ ∃ i, Begins N ts i ∧ Live ts i ∧ ¬ Calm N ts i

omit h hN in
/-- An exception that is not caught. -/
theorem escaped {stmts : List Stmt} {errors : List ParseError} {e : Thrown} (hbegins : Begins N ts i)
    (hlive : Live ts i) (hparse : parseStatement N ts i = (.error (.thrown e), j)) (he : e.caught = false) :
    LoopEnds N ts ⟨stmts, errors, some e⟩ := by
  refine .inr ⟨e, rfl, he, i, hbegins, hlive, fun hcalm => ?_⟩
  rw [hcalm e (by rw [hparse])] at he
  cases he

omit h hN

/-- The loop comes to an index: what begins before it is calm, and what else begins is still to come. -/
structure Coming (N : Nested) (ts : List Token) (i : ℕ) : Prop where
  begins : Begins N ts i
  come : ∀ m, Begins N ts m → (Live ts m → Calm N ts m) ∨ Relation.ReflTransGen (Next N ts) i m

theorem Coming.first (h : skipNewlines ts 0 = (.ok (), i)) : Coming N ts i := by
  refine ⟨.first h, fun m hm => .inr ?_⟩
  induction hm with
  | first hskip =>
      cases h.symm.trans hskip
      exact .refl
  | next _ hnext ih => exact ih.tail hnext

/-- After a calm turn what is still to come is what comes after it. -/
theorem Coming.turn (h : Coming N ts i) (hcalm : Calm N ts i) (hnext : Next N ts i j) : Coming N ts j := by
  refine ⟨h.begins.next hnext, fun m hm => ?_⟩
  rcases h.come m hm with hcalm' | hreach
  · exact .inl hcalm'
  · rcases hreach.cases_head with rfl | ⟨l, hnext', hreach'⟩
    · exact .inl fun _ => hcalm
    · exact .inr (hnext.unique hnext' ▸ hreach')

/-- At the end nothing is still to come. -/
theorem Coming.calm (h : Coming N ts i) (hend : ¬ Live ts i) (m : ℕ) (hm : Begins N ts m) (hlive : Live ts m) :
    Calm N ts m := by
  rcases h.come m hm with hcalm | hreach
  · exact hcalm hlive
  · rcases hreach.cases_head with rfl | ⟨l, hnext, -⟩
    · exact absurd hlive hend
    · exact absurd hnext.live hend

include h hN

/-- **The loop of `parse`.**  The turns before an index were calm, and what else begins is still to come. -/
theorem parseLoop_ends : Within ts 0 0 (parseLoop N) fun r _ => LoopEnds N ts r := by
  refine (skipNewlines_within h le_rfl h.length_pos).run.bind fun _ i _ hlt hi => ?_
  refine Within.loop (fun _ j => Coming N ts j) (Nat.zero_le _) hlt (.first hi.2) fun (stmts, errors) j _ hlt hj => ?_
  refine (isAtEnd_within (Nat.zero_le _) hlt).bind fun r k _ hlt hk => ?_
  obtain ⟨rfl, hr⟩ := hk
  refine Within.ite (fun hc => ?_) fun hc => ?_
  · -- at the end there is no turn any more
    have hend : ¬ Live ts k := fun hlive => by
      rw [hr.mpr hlive] at hc
      exact Bool.false_ne_true hc
    exact Within.pure (Nat.zero_le _) hlt (.inl ⟨rfl, hj.calm hend⟩)
  · have hlive := hr.mp (by simpa using hc)
    have hattempt : Within ts k k (parseStatement N).attempt fun r l =>
        match r with
        | .ok _ => k < l
        | .error _ => k ≤ l :=
      (parseStatement_consumes h hN k (Nat.zero_le k) hlt).attempt fun _ _ hl _ => hl
    refine (hattempt.run.mono (Nat.zero_le k) fun _ _ _ _ hl => hl).bind fun r l _ hlt hl => ?_
    obtain ⟨hl, hrun⟩ := hl
    have hparse := attempt_run hrun
    match r, hl with
    | .ok stmt, hl =>
      have hcalm : Calm N ts k := fun e he => by
        rw [hparse] at he
        cases he
      refine (previous_within (by omega) (Nat.zero_le _) hlt).bind fun _ m _ hlt hm => ?_
      obtain ⟨rfl, -⟩ := hm
      refine (skipNewlines_within h (Nat.zero_le _) hlt).run.bind fun _ n _ hlt hn => ?_
      exact Within.pure (Nat.zero_le _) hlt ⟨lt_of_lt_of_le hl hn.1, hj.turn hcalm (.statement hlive hparse hn.2)⟩
    | .error (.parse e), hl =>
      have hcalm : Calm N ts k := fun e' he => by
        rw [hparse] at he
        cases he
        rfl
      refine (synchronize_within h (Nat.zero_le _) hlt).run.bind fun _ m _ hlt hm => ?_
      refine (skipNewlines_within h (Nat.zero_le _) hlt).run.bind fun _ n _ hlt hn => ?_
      have hcaught : Caught N ts k e l n := ⟨hlive, hparse, (bind_of_ok hm.2).trans hn.2⟩
      exact Within.pure (Nat.zero_le _) hlt ⟨(caught_further h hN hcaught).1, hj.turn hcalm (.error hcaught)⟩
    | .error (.lex e), hl => exact Within.pure (Nat.zero_le _) hlt (escaped hj.begins hlive hparse rfl)
    | .error .outOfRange, hl => exact Within.pure (Nat.zero_le _) hlt (escaped hj.begins hlive hparse rfl)
    | .error .nullPointer, hl => exact Within.pure (Nat.zero_le _) hlt (escaped hj.begins hlive hparse rfl)

end Visuall.Parser
