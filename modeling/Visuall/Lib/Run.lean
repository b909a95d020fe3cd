import Mathlib

/-!
# Runs of a labelled transition system

A step relation `Step s e s'` and its finite runs from a state, recorded as the list of events
with the states they lead to.

* `Run Step s tr` — `tr` is a run from `s`;
* `states s tr`, `steps s tr` — the states it visits, and its steps as (state before, event);
* `Run.invariant` — what every good step preserves holds in every state of a run of good steps;
* `Run.forall_states_iff` — exactly when a run keeps a property;
* `Run.forall_iterate_iff` — the same for the iterates of a function.
-/

namespace Visuall

variable {σ ε : Type*} {Step : σ → ε → σ → Prop} {s t : σ} {tr : List (ε × σ)}

/-- `tr` is a run of the system from the given state. -/
def Run (Step : σ → ε → σ → Prop) : σ → List (ε × σ) → Prop
  | _, [] => True
  | s, (e, s') :: tr => Step s e s' ∧ Run Step s' tr

namespace Run

/-- The states a run visits, the first included. -/
def states (s : σ) : List (ε × σ) → List σ
  | [] => [s]
  | (_, s') :: tr => s :: states s' tr

/-- The steps of a run: the state before each, and its event. -/
def steps (s : σ) : List (ε × σ) → List (σ × ε)
  | [] => []
  | (e, s') :: tr => (s, e) :: steps s' tr

theorem mem_states_self (s : σ) (tr : List (ε × σ)) : s ∈ states s tr := by
  cases tr with
  | nil => exact List.mem_singleton_self s
  | cons p tr => exact List.mem_cons_self

theorem mem_states_of_mem_steps {p : σ × ε} (hp : p ∈ steps s tr) : p.1 ∈ states s tr := by
  induction tr generalizing s with
  | nil => cases hp
  | cons q tr ih =>
      obtain ⟨e, s'⟩ := q
      rcases List.mem_cons.mp hp with rfl | hp
      · exact List.mem_cons_self
      · exact List.mem_cons_of_mem _ (ih hp)

/-- **Invariant rule.**  What every good step preserves holds in every state of a run whose steps
are good. -/
theorem invariant {I : σ → Prop} {G : σ → ε → Prop}
    (hstep : ∀ s e s', I s → G s e → Step s e s' → I s') (hs : I s) (hrun : Run Step s tr)
    (hgood : ∀ p ∈ steps s tr, G p.1 p.2) : ∀ t ∈ states s tr, I t := by
  induction tr generalizing s with
  | nil =>
      intro t ht
      rw [List.mem_singleton.mp ht]
      exact hs
  | cons p tr ih =>
      obtain ⟨e, s'⟩ := p
      have hs' : I s' := hstep s e s' hs (hgood (s, e) List.mem_cons_self) hrun.1
      intro t ht
      rcases List.mem_cons.mp ht with rfl | ht
      · exact hs
      · exact ih hs' hrun.2 (fun q hq => hgood q (List.mem_cons_of_mem _ hq)) t ht

/-- **Exactly when a run keeps a property.**  If each step from a state with `I` and `J` keeps `I`,
and keeps `J` exactly when it is not bad, then `J` holds throughout a run exactly when no step is
bad. -/
theorem forall_states_iff {I J : σ → Prop} {B : σ → ε → Prop}
    (hstep : ∀ s e s', I s → J s → Step s e s' → I s' ∧ (J s' ↔ ¬ B s e)) (hI : I s) (hJ : J s)
    (hrun : Run Step s tr) :
    (∀ t ∈ states s tr, J t) ↔ ∀ p ∈ steps s tr, ¬ B p.1 p.2 := by
  constructor
  · intro hall
    induction tr generalizing s with
    | nil => exact fun p hp => absurd hp List.not_mem_nil
    | cons q tr ih =>
        obtain ⟨e, s'⟩ := q
        obtain ⟨hI', hiff⟩ := hstep s e s' hI hJ hrun.1
        have hJ' : J s' := hall s' (List.mem_cons_of_mem _ (mem_states_self s' tr))
        intro p hp
        rcases List.mem_cons.mp hp with rfl | hp
        · exact hiff.mp hJ'
        · exact ih hI' hJ' hrun.2 (fun t ht => hall t (List.mem_cons_of_mem _ ht)) p hp
  · intro hgood t ht
    refine (hrun.invariant (I := fun s => I s ∧ J s) (G := fun s e => ¬ B s e) ?_ ⟨hI, hJ⟩ hgood t ht).2
    intro s e s' hs hG h
    obtain ⟨hI', hiff⟩ := hstep s e s' hs.1 hs.2 h
    exact ⟨hI', hiff.mpr hG⟩

/-- **Exactly when the iterates of a function keep a property.**  Each step from an iterate with the
property keeps it exactly when it is not bad. -/
theorem forall_iterate_iff {f : σ → σ} {J B : σ → Prop} (hJ : J s)
    (hstep : ∀ n, J (f^[n] s) → (J (f^[n + 1] s) ↔ ¬ B (f^[n] s))) :
    (∀ n, J (f^[n] s)) ↔ ∀ n, ¬ B (f^[n] s) := by
  constructor
  · intro hall n
    exact (hstep n (hall n)).mp (hall (n + 1))
  · intro hgood n
    induction n with
    | zero => exact hJ
    | succ n ih => exact (hstep n ih).mpr (hgood n)

end Run

end Visuall
