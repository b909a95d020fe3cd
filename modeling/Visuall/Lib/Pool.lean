import Mathlib.Data.List.Forall2

/-!
# Objects that are asked in turns

Objects are created, and asked one after the other, in any order.  An object that is asked answers, and may change
itself and a world that all of them share; whoever asks may change the world in between.

* `Kind` — how objects are created, and what one does when it is asked;
* `answers` — what is answered along a list of calls;
* `answers_eq` — two kinds whose objects answer alike, each for itself, answer alike in every interleaving.
-/

namespace Visuall.Pool

/-- A call: a new object, a question to the object of that number, for which it is given so many steps, or a change
of the world. -/
inductive Call (ι ω : Type*)
  | create (args : ι)
  | next (object steps : ℕ)
  | act (f : ω → ω)

/-- A kind of objects.  An object that does not answer in the steps it is given is as if it had not been asked. -/
structure Kind (ι α ω ρ : Type*) where
  create : ι → α
  next : ℕ → α → ω → Option (ρ × α × ω)

variable {ι α β ω ρ : Type*}

/-- One call. -/
def step (κ : Kind ι α ω ρ) (s : List α × ω) : Call ι ω → Option ρ × List α × ω
  | .create args => (none, s.1 ++ [κ.create args], s.2)
  | .act f => (none, s.1, f s.2)
  | .next i n =>
    match s.1[i]? with
    | none => (none, s)
    | some a =>
      match κ.next n a s.2 with
      | none => (none, s)
      | some (r, a', w) => (some r, s.1.set i a', w)

/-- The answers along a list of calls. -/
def answers (κ : Kind ι α ω ρ) : List α × ω → List (Call ι ω) → List (Option ρ)
  | _, [] => []
  | s, call :: calls => (step κ s call).1 :: answers κ (step κ s call).2 calls

/-- Every question along a list of calls is a good one. -/
def AllGood (κ : Kind ι α ω ρ) (Good : ℕ → α → ω → Prop) : List α × ω → List (Call ι ω) → Prop
  | _, [] => True
  | s, call :: calls =>
    (∀ i n a, call = .next i n → s.1[i]? = some a → Good n a s.2) ∧ AllGood κ Good (step κ s call).2 calls

instance decidableAllGood (κ : Kind ι α ω ρ) (Good : ℕ → α → ω → Prop) [∀ n a w, Decidable (Good n a w)] :
    ∀ s calls, Decidable (AllGood κ Good s calls)
  | _, [] => isTrue trivial
  | s, .next i n :: calls =>
    have : Decidable (AllGood κ Good (step κ s (.next i n)).2 calls) := decidableAllGood κ Good _ calls
    decidable_of_iff ((∀ a ∈ s.1[i]?, Good n a s.2) ∧ AllGood κ Good (step κ s (.next i n)).2 calls) <|
      and_congr_left fun _ => ⟨fun h _ _ a heq ha => by cases heq; exact h a ha, fun h a ha => h i n a rfl ha⟩
  | s, .create args :: calls =>
    have : Decidable (AllGood κ Good (step κ s (.create args)).2 calls) := decidableAllGood κ Good _ calls
    decidable_of_iff (AllGood κ Good (step κ s (.create args)).2 calls)
      ⟨fun h => ⟨fun _ _ _ heq => (by cases heq), h⟩, And.right⟩
  | s, .act f :: calls =>
    have : Decidable (AllGood κ Good (step κ s (.act f)).2 calls) := decidableAllGood κ Good _ calls
    decidable_of_iff (AllGood κ Good (step κ s (.act f)).2 calls)
      ⟨fun h => ⟨fun _ _ _ heq => (by cases heq), h⟩, And.right⟩

/-- The outcomes of two questions: neither answers, or both answer the same and leave related objects. -/
def Alike (R : α → β → Prop) (x : Option (ρ × α × ω)) (y : Option (ρ × β × ω)) : Prop :=
  x = none ∧ y = none ∨ ∃ r a b w, x = some (r, a, w) ∧ y = some (r, b, w) ∧ R a b

theorem forall₂_set {R : α → β → Prop} {as : List α} {bs : List β} {a : α} {b : β} (h : List.Forall₂ R as bs)
    (hab : R a b) (i : ℕ) : List.Forall₂ R (as.set i a) (bs.set i b) := by
  induction h generalizing i with
  | nil => exact .nil
  | cons hxy hrest ih =>
    cases i with
    | zero => exact .cons hab hrest
    | succ i => exact .cons hxy (ih i)

section Agree

variable {κ : Kind ι α ω ρ} {κ' : Kind ι β ω ρ} {R : α → β → Prop} {Good : ℕ → α → ω → Prop}
  (hcreate : ∀ args, R (κ.create args) (κ'.create args))
  (hnext : ∀ n a b w, R a b → Good n a w → Alike R (κ.next n a w) (κ'.next n b w))

include hcreate hnext

/-- One good call keeps the objects related, and is answered alike. -/
theorem step_alike {s : List α × ω} {t : List β × ω} (hobjects : List.Forall₂ R s.1 t.1) (hworld : s.2 = t.2)
    (call : Call ι ω) (hgood : ∀ i n a, call = .next i n → s.1[i]? = some a → Good n a s.2) :
    (step κ s call).1 = (step κ' t call).1 ∧ List.Forall₂ R (step κ s call).2.1 (step κ' t call).2.1 ∧
      (step κ s call).2.2 = (step κ' t call).2.2 := by
  obtain ⟨as, w⟩ := s
  obtain ⟨bs, w'⟩ := t
  obtain rfl : w = w' := hworld
  cases call with
  | create args => exact ⟨rfl, List.rel_append hobjects (.cons (hcreate args) .nil), rfl⟩
  | act f => exact ⟨rfl, hobjects, rfl⟩
  | next i n =>
    have hlength : as.length = bs.length := hobjects.length_eq
    unfold step
    cases hi : as[i]? with
    | none =>
      have hi' : bs[i]? = none := by
        rw [List.getElem?_eq_none_iff] at hi ⊢
        omega
      simp only [hi, hi']
      exact ⟨trivial, hobjects, trivial⟩
    | some a =>
      obtain ⟨hlt, ha⟩ := List.getElem?_eq_some_iff.mp hi
      have hlt' : i < bs.length := hlength ▸ hlt
      have hi' : bs[i]? = some bs[i] := List.getElem?_eq_getElem hlt'
      have hab : R a bs[i] := by
        rw [← ha]
        exact hobjects.get hlt hlt'
      simp only [hi, hi']
      rcases hnext n a bs[i] w hab (hgood i n a rfl hi) with ⟨hx, hy⟩ | ⟨r, a', b', w', hx, hy, hr⟩
      · rw [hx, hy]
        exact ⟨rfl, hobjects, rfl⟩
      · rw [hx, hy]
        exact ⟨rfl, forall₂_set hobjects hr i, rfl⟩

/-- **Two kinds whose objects answer alike, each for itself, answer alike in every interleaving.** -/
theorem answers_eq {s : List α × ω} {t : List β × ω} (hobjects : List.Forall₂ R s.1 t.1) (hworld : s.2 = t.2)
    (calls : List (Call ι ω)) (hgood : AllGood κ Good s calls) : answers κ s calls = answers κ' t calls := by
  induction calls generalizing s t with
  | nil => rfl
  | cons call calls ih =>
    obtain ⟨hanswer, hobjects', hworld'⟩ := step_alike hcreate hnext hobjects hworld call hgood.1
    show _ :: _ = _ :: _
    rw [hanswer, ih hobjects' hworld' hgood.2]

end Agree

end Visuall.Pool
