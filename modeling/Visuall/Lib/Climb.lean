import Mathlib.Data.Finset.Card
import Mathlib.Data.Nat.Find
import Mathlib.Logic.Relation

/-!
# Searches that mark nothing

A search that decides at a node, or goes on to further nodes one after the other until one of them answers yes, and
does not notice where it has been before.  Around a circle it never ends.

* `search` — with a bound on the depth; `none` where the bound is reached;
* `search_true`, `search_false` — what the answers say of the nodes that can be reached;
* `search_isSome_of_acyclic`, `search_of_circle` — when the search ends.
-/

namespace Visuall.Climb

open Relation

variable {α : Type*}

/-! ## One after the other -/

/-- Yes if one of the nodes answers yes, once those before it have answered no. -/
def anyOf (f : α → Option Bool) (xs : List α) : Option Bool :=
  xs.foldlM (fun found x => if found then some true else f x) false

section AnyOf

variable {f g : α → Option Bool} {x : α} {xs : List α} {b : Bool}

theorem foldlM_found (f : α → Option Bool) (xs : List α) :
    xs.foldlM (fun found x => if found then some true else f x) true = some true := by
  induction xs with
  | nil => rfl
  | cons x xs ih => exact ih

theorem anyOf_cons (f : α → Option Bool) (x : α) (xs : List α) :
    anyOf f (x :: xs) = (f x).bind fun found => if found then some true else anyOf f xs := by
  show (f x).bind (fun found => xs.foldlM _ found) = _
  cases f x with
  | none => rfl
  | some b =>
    cases b with
    | false => rfl
    | true => exact foldlM_found f xs

theorem anyOf_singleton (f : α → Option Bool) (x : α) : anyOf f [x] = f x := by
  rw [anyOf_cons]
  rcases f x with _ | _ | _ <;> rfl

theorem anyOf_true (h : anyOf f xs = some true) : ∃ x ∈ xs, f x = some true := by
  induction xs with
  | nil => cases h
  | cons x xs ih =>
    rw [anyOf_cons] at h
    cases hx : f x with
    | none =>
      rw [hx] at h
      cases h
    | some b =>
      rw [hx] at h
      cases b with
      | true => exact ⟨x, List.mem_cons_self, hx⟩
      | false =>
        obtain ⟨y, hy, hfy⟩ := ih h
        exact ⟨y, List.mem_cons_of_mem _ hy, hfy⟩

theorem anyOf_false (h : anyOf f xs = some false) : ∀ x ∈ xs, f x = some false := by
  induction xs with
  | nil => exact fun x hx => absurd hx List.not_mem_nil
  | cons x xs ih =>
    rw [anyOf_cons] at h
    cases hx : f x with
    | none =>
      rw [hx] at h
      cases h
    | some b =>
      rw [hx] at h
      cases b with
      | true => cases h
      | false =>
        intro y hy
        rcases List.mem_cons.mp hy with rfl | hy
        · exact hx
        · exact ih h y hy

/-- There is an answer, where each node has one. -/
theorem anyOf_isSome (h : ∀ x ∈ xs, (f x).isSome = true) : (anyOf f xs).isSome = true := by
  induction xs with
  | nil => rfl
  | cons x xs ih =>
    obtain ⟨b, hb⟩ := Option.isSome_iff_exists.mp (h x List.mem_cons_self)
    rw [anyOf_cons, hb]
    cases b with
    | true => rfl
    | false => exact ih fun y hy => h y (List.mem_cons_of_mem _ hy)

end AnyOf

/-! ## The search -/

section Search

variable (visit : α → Bool ⊕ List α)

/-- The search from a node, at most so many nodes deep. -/
def search : ℕ → α → Option Bool
  | 0, _ => none
  | n + 1, a =>
    match visit a with
    | .inl b => some b
    | .inr next => anyOf (search n) next

/-- The search goes on from one node to another. -/
def Step (a b : α) : Prop := ∃ next, visit a = .inr next ∧ b ∈ next

variable {visit} {a c d : α} {b : Bool} {n m : ℕ} {next : List α}

theorem search_inl (h : visit a = .inl b) (n : ℕ) : search visit (n + 1) a = some b := by
  rw [search, h]

theorem search_inr (h : visit a = .inr next) (n : ℕ) :
    search visit (n + 1) a = anyOf (search visit n) next := by
  rw [search, h]

theorem step_of_inr (h : visit a = .inr next) (hc : c ∈ next) : Step visit a c := ⟨next, h, hc⟩

/-- A search that answers yes has found a node that does. -/
theorem search_true (h : search visit n a = some true) : ∃ d, ReflTransGen (Step visit) a d ∧ visit d = .inl true := by
  induction n generalizing a with
  | zero => cases h
  | succ n ih =>
    cases hv : visit a with
    | inl b =>
      rw [search_inl hv] at h
      exact ⟨a, .refl, hv.trans (congrArg _ (Option.some.inj h))⟩
    | inr next =>
      rw [search_inr hv] at h
      obtain ⟨x, hx, hfound⟩ := anyOf_true h
      obtain ⟨d, hreach, hd⟩ := ih hfound
      exact ⟨d, .head (step_of_inr hv hx) hreach, hd⟩

/-- A search that answers no has answered no at every node it can go on to, and less deep. -/
theorem search_false_step (h : search visit n a = some false) (hstep : Step visit a c) :
    ∃ m < n, search visit m c = some false := by
  obtain ⟨next, hv, hc⟩ := hstep
  cases n with
  | zero => cases h
  | succ n =>
    rw [search_inr hv] at h
    exact ⟨n, Nat.lt_succ_self n, anyOf_false h c hc⟩

theorem search_false_reach (h : search visit n a = some false) (hreach : ReflTransGen (Step visit) a c) :
    ∃ m ≤ n, search visit m c = some false := by
  induction hreach with
  | refl => exact ⟨n, Nat.le_refl n, h⟩
  | tail _ hstep ih =>
    obtain ⟨m, hm, hsearch⟩ := ih
    obtain ⟨k, hk, hsearch⟩ := search_false_step hsearch hstep
    exact ⟨k, by omega, hsearch⟩

theorem search_false (h : search visit n a = some false) (hreach : ReflTransGen (Step visit) a d) :
    visit d ≠ .inl true := by
  obtain ⟨m, -, hsearch⟩ := search_false_reach h hreach
  intro hd
  cases m with
  | zero => cases hsearch
  | succ m =>
    rw [search_inl hd] at hsearch
    cases hsearch

/-- What a search that ends answers. -/
theorem search_eq_true_iff (h : (search visit n a).isSome = true) :
    search visit n a = some true ↔ ∃ d, ReflTransGen (Step visit) a d ∧ visit d = .inl true := by
  refine ⟨search_true, fun ⟨d, hreach, hd⟩ => ?_⟩
  obtain ⟨b, hb⟩ := Option.isSome_iff_exists.mp h
  cases b with
  | true => exact hb
  | false => exact absurd hd (search_false hb hreach)

/-! ## Where it ends -/

/-- A search around a circle never ends, if no node that can be reached answers yes. -/
theorem search_of_circle (hcircle : TransGen (Step visit) a a)
    (hno : ∀ d, ReflTransGen (Step visit) a d → visit d ≠ .inl true) (n : ℕ) : search visit n a = none := by
  induction n using Nat.strong_induction_on with
  | _ n ih =>
    cases hsearch : search visit n a with
    | none => rfl
    | some b =>
      cases b with
      | true =>
        obtain ⟨d, hreach, hd⟩ := search_true hsearch
        exact absurd hd (hno d hreach)
      | false =>
        obtain ⟨c, hac, hca⟩ := TransGen.head'_iff.mp hcircle
        obtain ⟨m, hm, hc⟩ := search_false_step hsearch hac
        obtain ⟨k, hk, ha⟩ := search_false_reach hc hca
        have hnone := ih k (by omega)
        rw [ha] at hnone
        cases hnone

section Bounded

variable [DecidableEq α] {nodes : Finset α}

/-- On a path without circles each node that goes on is a new one. -/
theorem search_isSome_of_path (hnodes : ∀ a next, visit a = .inr next → a ∈ nodes)
    (hacyclic : ∀ a, ¬ TransGen (Step visit) a a) (n : ℕ) (above : Finset α) (habove : above ⊆ nodes)
    (hpath : ∀ v ∈ above, TransGen (Step visit) v a) (hn : nodes.card < n + above.card) :
    (search visit n a).isSome = true := by
  induction n generalizing a above with
  | zero =>
    have := Finset.card_le_card habove
    omega
  | succ n ih =>
    cases hv : visit a with
    | inl b =>
      rw [search_inl hv]
      rfl
    | inr next =>
      rw [search_inr hv]
      apply anyOf_isSome
      intro c hc
      have hnew : a ∉ above := fun ha => hacyclic a (hpath a ha)
      have hstep : Step visit a c := step_of_inr hv hc
      apply ih (insert a above)
      · exact Finset.insert_subset (hnodes a next hv) habove
      · intro v hmem
        rcases Finset.mem_insert.mp hmem with rfl | hmem
        · exact .single hstep
        · exact (hpath v hmem).tail hstep
      · rw [Finset.card_insert_of_notMem hnew]
        omega

/-- Without circles the search ends. -/
theorem search_isSome_of_acyclic (hnodes : ∀ a next, visit a = .inr next → a ∈ nodes)
    (hacyclic : ∀ a, ¬ TransGen (Step visit) a a) (hn : nodes.card < n) (a : α) :
    (search visit n a).isSome = true :=
  search_isSome_of_path hnodes hacyclic n ∅ (Finset.empty_subset _)
    (fun v hv => absurd hv (Finset.notMem_empty v)) (by simpa using hn)

end Bounded

end Search

end Visuall.Climb
