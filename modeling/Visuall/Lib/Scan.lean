import Visuall.Lib.Memory

/-!
# Scans of memory

A scan is a program that reads memory and visits some of the words it reads; a visit may change the
memory.  Where the visits leave alone what the scan reads, running it is visiting, one after the
other, the words that it meets in the memory it starts from.

* `Scan` — the programs; `Scan.run` — running one, `Scan.andThen` — one after another;
* `Scan.words` — the words met in an unchanging memory, if the scan ends; `Scan.Visits` — whether a word is met;
* `Scan.Reads` — which bytes are read on the way;
* `Scan.Meets`, `Scan.run_invariant` — a property of every word that a run visits, and what such a run keeps;
* `Scan.run_eq_foldlM` — a run is a fold over the words.
-/

namespace Visuall

/-- A program that reads memory and visits words.  `endless` is a loop that does not end. -/
inductive Scan where
  | done
  | endless
  | load (a n : ℕ) (k : ℕ → Scan)
  | visit (w : ℕ) (k : Scan)

namespace Scan

variable {ε : Type*}

/-- Runs a scan; `stop` is the error of a loop that does not end. -/
def run (visit : Mem → ℕ → Except ε Mem) (stop : ε) : Scan → Mem → Except ε Mem
  | done, m => .ok m
  | endless, _ => .error stop
  | load a n k, m => (k (Visuall.load m a n)).run visit stop m
  | Scan.visit w k, m => do
      let m' ← visit m w
      k.run visit stop m'

/-- One scan after another. -/
def andThen : Scan → Scan → Scan
  | done, t => t
  | endless, _ => endless
  | load a n k, t => load a n fun v => (k v).andThen t
  | visit w k, t => visit w (k.andThen t)

/-- The words met in memory `m`. -/
def words (m : Mem) : Scan → Option (List ℕ)
  | done => some []
  | endless => none
  | load a n k => (k (Visuall.load m a n)).words m
  | visit w k => (k.words m).map (w :: ·)

/-- The scan meets the word `w` in memory `m`, whether it ends or not. -/
def Visits (m : Mem) : Scan → ℕ → Prop
  | done, _ => False
  | endless, _ => False
  | load a n k, w => (k (Visuall.load m a n)).Visits m w
  | visit v k, w => v = w ∨ k.Visits m w

/-- Every word that a run visits satisfies `Q`, in the memory at that time. -/
def Meets (visit : Mem → ℕ → Except ε Mem) (Q : Mem → ℕ → Prop) : Scan → Mem → Prop
  | done, _ => True
  | endless, _ => True
  | load a n k, m => (k (Visuall.load m a n)).Meets visit Q m
  | Scan.visit w k, m => Q m w ∧ ∀ m', visit m w = .ok m' → k.Meets visit Q m'

/-- Every byte the scan reads in memory `m` is in `P`. -/
def Reads (P : ℕ → Prop) (m : Mem) : Scan → Prop
  | done => True
  | endless => True
  | load a n k => (∀ x, a ≤ x → x < a + n → P x) ∧ (k (Visuall.load m a n)).Reads P m
  | visit _ k => k.Reads P m

variable {P : ℕ → Prop} {m m' m₁ : Mem} {s t : Scan} {ws vs : List ℕ}

/-- What follows a scan that ends is met, too. -/
theorem visits_andThen {w : ℕ} (hs : s.words m = some ws) :
    (s.andThen t).Visits m w ↔ s.Visits m w ∨ t.Visits m w := by
  induction s generalizing ws with
  | done => exact (false_or _).symm.to_iff
  | endless => cases hs
  | load a n k ih => exact ih _ hs
  | visit v k ih =>
      obtain ⟨us, hus, rfl⟩ := Option.map_eq_some_iff.mp hs
      rw [andThen, Visits, Visits, ih hus, or_assoc]

section Run

variable {visit : Mem → ℕ → Except ε Mem} {stop : ε} {S : Mem → Prop}

/-- **Invariant rule.**  What the visits of such words keep, a run keeps. -/
theorem run_invariant {I : Mem → Prop} {Q : Mem → ℕ → Prop}
    (hvisit : ∀ m₁ w m₂, I m₁ → Q m₁ w → visit m₁ w = .ok m₂ → I m₂) (hs : s.Meets visit Q m) (hm : I m)
    (hrun : s.run visit stop m = .ok m') : I m' := by
  induction s generalizing m with
  | done =>
      cases hrun
      exact hm
  | endless => cases hrun
  | load a n k ih => exact ih _ hs hm hrun
  | visit w k ih =>
      obtain ⟨hw, hrest⟩ := hs
      rw [run] at hrun
      cases hv : visit m w with
      | error e =>
          rw [hv] at hrun
          cases hrun
      | ok m₂ =>
          rw [hv] at hrun
          exact ih (hrest m₂ hv) (hvisit m w m₂ hm hw hv) hrun

/-- **A run visits the words met at the start**, as long as the visits of these words keep the
memories in a set `S` that agrees with the first memory wherever the scan reads. -/
theorem run_eq_foldlM (hS : ∀ m', S m' → ∀ x, P x → m' x = m x)
    (hvisit : ∀ m₁ w m₂, S m₁ → w ∈ ws → visit m₁ w = .ok m₂ → S m₂)
    (hs : s.Reads P m) (hwords : s.words m = some ws) (hm₁ : S m₁) :
    s.run visit stop m₁ = ws.foldlM visit m₁ := by
  induction s generalizing ws m₁ with
  | done =>
      cases hwords
      rfl
  | endless => cases hwords
  | load a n k ih =>
      have hload : Visuall.load m₁ a n = Visuall.load m a n :=
        load_congr fun x hx hx' => hS m₁ hm₁ x (hs.1 x hx hx')
      rw [run, hload]
      exact ih _ hvisit hs.2 hwords hm₁
  | visit w k ih =>
      obtain ⟨vs, hvs, rfl⟩ := Option.map_eq_some_iff.mp hwords
      rw [run, List.foldlM_cons]
      cases hw : visit m₁ w with
      | error e => rfl
      | ok m₂ =>
          exact ih (fun m₃ u m₄ hm₃ hu => hvisit m₃ u m₄ hm₃ (List.mem_cons_of_mem _ hu)) hs hvs
            (hvisit m₁ w m₂ hm₁ List.mem_cons_self hw)

end Run

end Scan

end Visuall
