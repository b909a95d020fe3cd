import Mathlib

/-!
# Depth-first marking

Marking a node marks everything that its successors lead to, stopping at nodes marked before.

* `Leads succ r x` — `x` is reached from a node of `r` along successors;
* `mark succ n V x` — the nodes marked once `x` has been, when `V` were before;
* `markAll_eq_reached` — from no marks, marking every node of a list marks exactly what the list
  leads to;
* `markAll_isSome` — on finitely many nodes, the recursion ends.
-/

namespace Visuall.DepthFirst

variable {α : Type*}

/-- `x` is reached along successors from a node of `roots`. -/
inductive Leads (succ : α → List α) (roots : List α) : α → Prop
  | root {x : α} : x ∈ roots → Leads succ roots x
  | step {x y : α} : Leads succ roots x → y ∈ succ x → Leads succ roots y

theorem Leads.mono {succ : α → List α} {roots roots' : List α} {y : α}
    (h : ∀ r ∈ roots, Leads succ roots' r) (hy : Leads succ roots y) : Leads succ roots' y := by
  induction hy with
  | root hx => exact h _ hx
  | step _ hz ih => exact .step ih hz

variable [DecidableEq α]

/-- Marks `x` and what it leads to.  `fuel` bounds the depth of the recursion. -/
def mark (succ : α → List α) : ℕ → Finset α → α → Option (Finset α)
  | 0, _, _ => none
  | fuel + 1, V, x =>
      if x ∈ V then some V else (succ x).foldlM (mark succ fuel) (insert x V)

/-- Marks the nodes of a list, one after the other. -/
def markAll (succ : α → List α) (fuel : ℕ) (V : Finset α) (xs : List α) : Option (Finset α) :=
  xs.foldlM (mark succ fuel) V

variable {succ : α → List α} {fuel : ℕ} {V V' U : Finset α} {x y : α} {xs : List α}

/-! ### What is marked -/

/-- What marking `roots` does to the marks: it keeps them, adds the roots, and adds nothing else
than nodes that the roots lead to, with their successors. -/
structure Marked (succ : α → List α) (roots : List α) (V V' : Finset α) : Prop where
  keeps : V ⊆ V'
  roots_mem : ∀ x ∈ roots, x ∈ V'
  leads : ∀ y ∈ V', y ∉ V → Leads succ roots y
  closed : ∀ y ∈ V', y ∉ V → ∀ z ∈ succ y, z ∈ V'

/-- One list after another. -/
theorem Marked.trans {W : Finset α} {ys : List α} (h : Marked succ xs V W)
    (h' : Marked succ ys W V') : Marked succ (xs ++ ys) V V' where
  keeps := h.keeps.trans h'.keeps
  roots_mem z hz := by
    rcases List.mem_append.mp hz with hz | hz
    · exact h'.keeps (h.roots_mem z hz)
    · exact h'.roots_mem z hz
  leads y hy hyV := by
    by_cases hyW : y ∈ W
    · exact (h.leads y hyW hyV).mono fun r hr => .root (List.mem_append_left _ hr)
    · exact (h'.leads y hy hyW).mono fun r hr => .root (List.mem_append_right _ hr)
  closed y hy hyV z hz := by
    by_cases hyW : y ∈ W
    · exact h'.keeps (h.closed y hyW hyV z hz)
    · exact h'.closed y hy hyW z hz

theorem markAll_cons : markAll succ fuel V (x :: xs) =
    (mark succ fuel V x).bind fun W => markAll succ fuel W xs := by
  rw [markAll, List.foldlM_cons]
  rfl

theorem marked_of_forall
    (hmark : ∀ V V' x, mark succ fuel V x = some V' → Marked succ [x] V V')
    (h : markAll succ fuel V xs = some V') : Marked succ xs V V' := by
  induction xs generalizing V with
  | nil =>
      cases h
      exact ⟨Finset.Subset.refl _, fun x hx => absurd hx List.not_mem_nil,
        fun y hy hyV => absurd hy hyV, fun y hy hyV => absurd hy hyV⟩
  | cons x xs ih =>
      rw [markAll_cons] at h
      obtain ⟨W, hW, hrest⟩ := Option.bind_eq_some_iff.mp h
      exact (hmark V W x hW).trans (ih hrest)

/-- **What one call marks.** -/
theorem mark_marked (h : mark succ fuel V x = some V') : Marked succ [x] V V' := by
  induction fuel generalizing V V' x with
  | zero => cases h
  | succ fuel ih =>
      rw [mark] at h
      split at h
      · next hx =>
        cases h
        refine ⟨Finset.Subset.refl V, fun y hy => ?_, fun y hy hyV => absurd hy hyV,
          fun y hy hyV => absurd hy hyV⟩
        rw [List.mem_singleton.mp hy]
        exact hx
      · next hx =>
        have hsucc : Marked succ (succ x) (insert x V) V' := marked_of_forall (fun _ _ _ => ih) h
        have hxV' : x ∈ V' := hsucc.keeps (Finset.mem_insert_self x V)
        have hx' : Leads succ [x] x := .root (List.mem_singleton_self x)
        refine ⟨(Finset.subset_insert x V).trans hsucc.keeps, fun y hy => ?_, fun y hy hyV => ?_,
          fun y hy hyV z hz => ?_⟩
        · rw [List.mem_singleton.mp hy]
          exact hxV'
        · by_cases hyx : y = x
          · rw [hyx]
            exact hx'
          · refine (hsucc.leads y hy fun hmem => ?_).mono fun r hr => .step hx' hr
            exact (Finset.mem_insert.mp hmem).elim hyx hyV
        · by_cases hyx : y = x
          · subst hyx
            exact hsucc.roots_mem z hz
          · refine hsucc.closed y hy (fun hmem => ?_) z hz
            exact (Finset.mem_insert.mp hmem).elim hyx hyV

theorem markAll_marked (h : markAll succ fuel V xs = some V') : Marked succ xs V V' :=
  marked_of_forall (fun _ _ _ => mark_marked) h

/-- **From no marks, exactly what the roots lead to is marked.** -/
theorem markAll_eq_reached (h : markAll succ fuel ∅ xs = some V') : y ∈ V' ↔ Leads succ xs y := by
  have hm := markAll_marked h
  constructor
  · exact fun hy => hm.leads y hy (Finset.notMem_empty y)
  · intro hy
    induction hy with
    | root hx => exact hm.roots_mem _ hx
    | step _ hz ih => exact hm.closed _ ih (Finset.notMem_empty _) _ hz

/-! ### The recursion ends -/

/-- Within a set of nodes that successors do not leave, as many calls deep as there are unmarked
nodes is deep enough. -/
theorem markAll_isSome (hU : ∀ y ∈ U, ∀ z ∈ succ y, z ∈ U) (hV : V ⊆ U) (hxs : ∀ x ∈ xs, x ∈ U)
    (hfuel : (U \ V).card < fuel) : ∃ V', markAll succ fuel V xs = some V' ∧ V' ⊆ U := by
  induction fuel generalizing V xs with
  | zero => exact absurd hfuel (Nat.not_lt_zero _)
  | succ fuel ih =>
      induction xs generalizing V with
      | nil => exact ⟨V, rfl, hV⟩
      | cons x xs ihxs =>
          have hx : x ∈ U := hxs x List.mem_cons_self
          obtain ⟨W, hW, hWU, hVW⟩ : ∃ W, mark succ (fuel + 1) V x = some W ∧ W ⊆ U ∧ V ⊆ W := by
            rw [mark]
            split
            · exact ⟨V, rfl, hV, Finset.Subset.refl V⟩
            · next hxV =>
              have hins : insert x V ⊆ U := Finset.insert_subset hx hV
              have hcard : (U \ insert x V).card < fuel := by
                have hlt : (U \ insert x V).card < (U \ V).card := by
                  refine Finset.card_lt_card ⟨Finset.sdiff_subset_sdiff (Finset.Subset.refl U)
                    (Finset.subset_insert x V), fun hsub => ?_⟩
                  have hmem := hsub (Finset.mem_sdiff.mpr ⟨hx, hxV⟩)
                  exact (Finset.mem_sdiff.mp hmem).2 (Finset.mem_insert_self x V)
                omega
              obtain ⟨W, hW, hWU⟩ := ih hins (hU x hx) hcard
              have hkeeps := (markAll_marked hW).keeps
              exact ⟨W, hW, hWU, (Finset.subset_insert x V).trans hkeeps⟩
          have hcard : (U \ W).card < fuel + 1 :=
            lt_of_le_of_lt (Finset.card_le_card (Finset.sdiff_subset_sdiff
              (Finset.Subset.refl U) hVW)) hfuel
          obtain ⟨V', hV', hV'U⟩ := ihxs hWU (fun y hy => hxs y (List.mem_cons_of_mem x hy)) hcard
          exact ⟨V', by rw [markAll_cons, hW]; exact hV', hV'U⟩

end Visuall.DepthFirst
