import Mathlib.Data.List.Basic
import Mathlib.Data.List.Chain

/-!
# A champion and its challengers

The first of a list meets the others one after the other, and of the two that meet one goes on, or the contest is
broken off.

* `Runs`, `Result` — the contest, over a relation that tells who goes on;
* `result_of_winner` — one that goes on against each of the others wins in any order;
* `Chained`, `chained_iff` — when there is an order in which nothing is broken off;
* `orderFree_iff` — exactly when the order does not matter.
-/

namespace Visuall.Knockout

variable {α : Type*}

section Definitions

variable (R : α → α → α → Prop)

/-- The champion meets the challengers, and one of them all is left. -/
def Runs (champion : α) : List α → α → Prop
  | [], last => last = champion
  | x :: xs, last => ∃ next, R champion x next ∧ Runs next xs last

/-- The contest of a list; the first one is the first champion. -/
def Result : List α → α → Prop
  | [], _ => False
  | x :: xs, last => Runs R x xs last

/-- The order of the list does not matter. -/
def OrderFree (xs : List α) : Prop := ∀ ys, xs.Perm ys → ∀ last, Result R xs last ↔ Result R ys last

/-- Two that can meet, whoever comes first. -/
def Meet (a b : α) : Prop := (∃ c, R a b c) ∧ ∃ c, R b a c

/-- One that goes on against each of the others, and any two can meet. -/
def Settled (xs : List α) : Prop := (∃ w ∈ xs, ∀ a ∈ xs, a = w ∨ R w a w) ∧ xs.Pairwise (Meet R)

/-- Each of a chain gives way to the next one, and each of the others falls to some one of the chain. -/
def Chained (xs : List α) : Prop :=
  ∃ chain others, chain ≠ [] ∧ xs.Perm (chain ++ others) ∧ chain.IsChain (fun a b => R a b b) ∧
    ∀ x ∈ others, ∃ c ∈ chain, R c x c

end Definitions

variable {R : α → α → α → Prop} {a w x champion last : α} {xs ys : List α}

/-! ## Runs -/

/-- The last one has been there from the beginning. -/
theorem Runs.mem (hsel : ∀ a b c, R a b c → c = a ∨ c = b) (h : Runs R champion xs last) : last ∈ champion :: xs := by
  induction xs generalizing champion with
  | nil => exact List.mem_singleton.mpr h
  | cons x xs ih =>
    obtain ⟨next, hnext, hrest⟩ := h
    rcases List.mem_cons.mp (ih hrest) with rfl | hmem
    · rcases hsel _ _ _ hnext with rfl | rfl
      · exact List.mem_cons_self
      · exact List.mem_cons_of_mem _ List.mem_cons_self
    · exact List.mem_cons_of_mem _ (List.mem_cons_of_mem _ hmem)

theorem Runs.unique (hfun : ∀ a b c d, R a b c → R a b d → c = d) {last' : α} (h : Runs R champion xs last)
    (h' : Runs R champion xs last') : last = last' := by
  induction xs generalizing champion with
  | nil => exact h.trans h'.symm
  | cons x xs ih =>
    obtain ⟨next, hnext, hrest⟩ := h
    obtain ⟨next', hnext', hrest'⟩ := h'
    rw [← hfun _ _ _ _ hnext hnext'] at hrest'
    exact ih hrest hrest'

theorem runs_append : Runs R champion (xs ++ ys) last ↔ ∃ mid, Runs R champion xs mid ∧ Runs R mid ys last := by
  induction xs generalizing champion with
  | nil =>
    constructor
    · exact fun h => ⟨champion, rfl, h⟩
    · rintro ⟨mid, hmid, h⟩
      obtain rfl : mid = champion := hmid
      exact h
  | cons x xs ih =>
    constructor
    · rintro ⟨next, hnext, hrest⟩
      obtain ⟨mid, hmid, hlast⟩ := ih.mp hrest
      exact ⟨mid, ⟨next, hnext, hmid⟩, hlast⟩
    · rintro ⟨mid, ⟨next, hnext, hmid⟩, hlast⟩
      exact ⟨next, hnext, ih.mpr ⟨mid, hmid, hlast⟩⟩

/-- One to whom all the challengers fall stays. -/
theorem runs_stay (h : ∀ x ∈ xs, R champion x champion) : Runs R champion xs champion := by
  induction xs with
  | nil => rfl
  | cons x xs ih => exact ⟨champion, h x List.mem_cons_self, ih fun y hy => h y (List.mem_cons_of_mem _ hy)⟩

/-! ## A winner -/

section Winner

variable (hsel : ∀ a b c, R a b c → c = a ∨ c = b) (hfun : ∀ a b c d, R a b c → R a b d → c = d)
  (hself : ∀ a, R a a a) (hmirror : ∀ a w, R w a w → a ≠ w → R a w w)

include hsel hfun hself hmirror in
/-- One that goes on against each of the others wins, wherever it stands. -/
theorem runs_of_winner (hpairs : (champion :: xs).Pairwise (Meet R)) (hw : w ∈ champion :: xs)
    (hwin : ∀ a ∈ champion :: xs, a = w ∨ R w a w) : Runs R champion xs w := by
  induction xs generalizing champion with
  | nil => exact List.mem_singleton.mp hw
  | cons x xs ih =>
    by_cases hfirst : champion = w
    · rw [hfirst]
      refine runs_stay fun y hy => ?_
      rcases hwin y (List.mem_cons_of_mem _ hy) with rfl | hfalls
      · exact hself y
      · exact hfalls
    · have hmeet : Meet R champion x := (List.pairwise_cons.mp hpairs).1 x List.mem_cons_self
      obtain ⟨⟨next, hnext⟩, -⟩ := hmeet
      -- who goes on is one of the two, and it is the winner if that is the challenger
      have hor := hsel _ _ _ hnext
      have hw' : w ∈ next :: xs := by
        rcases List.mem_cons.mp hw with heq | hmem
        · exact absurd heq.symm hfirst
        · rcases List.mem_cons.mp hmem with rfl | hmem
          · have hgives : R champion w w :=
              hmirror champion w ((hwin champion List.mem_cons_self).resolve_left hfirst) hfirst
            rw [hfun _ _ _ _ hnext hgives]
            exact List.mem_cons_self
          · exact List.mem_cons_of_mem _ hmem
      have htail := List.pairwise_cons.mp hpairs
      have htail' := List.pairwise_cons.mp htail.2
      refine ⟨next, hnext, ih ?_ hw' ?_⟩
      · rcases hor with rfl | rfl
        · exact List.pairwise_cons.mpr ⟨fun y hy => htail.1 y (List.mem_cons_of_mem _ hy), htail'.2⟩
        · exact htail.2
      · intro a ha
        rcases List.mem_cons.mp ha with rfl | ha
        · rcases hor with rfl | rfl
          · exact hwin a List.mem_cons_self
          · exact hwin a (List.mem_cons_of_mem _ List.mem_cons_self)
        · exact hwin a (List.mem_cons_of_mem _ (List.mem_cons_of_mem _ ha))

theorem meet_symm {a b : α} (h : Meet R a b) : Meet R b a := ⟨h.2, h.1⟩

include hsel hfun hself hmirror in
/-- In any order. -/
theorem result_of_settled (h : Settled R xs) : ∃ w, ∀ ys, xs.Perm ys → Result R ys w := by
  obtain ⟨⟨w, hw, hwin⟩, hpairs⟩ := h
  refine ⟨w, fun ys hperm => ?_⟩
  cases ys with
  | nil =>
    rw [hperm.eq_nil] at hw
    cases hw
  | cons y ys =>
    exact runs_of_winner hsel hfun hself hmirror ((hperm.pairwise_iff meet_symm).mp hpairs) (hperm.mem_iff.mp hw)
      fun a ha => hwin a (hperm.mem_iff.mpr ha)

include hsel in
/-- Where the same one wins in all orders, it goes on against each of the others. -/
theorem settled_of_result (hall : ∀ ys, xs.Perm ys → Result R ys w) : Settled R xs := by
  have hw : w ∈ xs := by
    have hres := hall xs (.refl _)
    cases xs with
    | nil => cases hres
    | cons x xs => exact Runs.mem hsel hres
  refine ⟨⟨w, hw, fun a ha => ?_⟩, List.pairwise_of_forall_sublist fun {a b} hsub => ?_⟩
  · by_cases heq : a = w
    · exact .inl heq
    · -- the order in which `a` comes last
      obtain ⟨before, after, rfl⟩ := List.append_of_mem ha
      have hperm : (before ++ a :: after).Perm ((before ++ after) ++ [a]) :=
        List.perm_middle.trans (List.perm_append_singleton a (before ++ after)).symm
      have hres := hall _ hperm
      cases hrest : before ++ after with
      | nil =>
        rw [hrest] at hres
        have hlast : w = a := hres
        exact absurd hlast.symm heq
      | cons y ys =>
        rw [hrest] at hres
        obtain ⟨mid, -, next, hnext, hlast⟩ := runs_append.mp (show Runs R y (ys ++ [a]) w from hres)
        obtain rfl : w = next := hlast
        rcases hsel _ _ _ hnext with rfl | rfl
        · exact .inr hnext
        · exact absurd rfl heq
  · -- the orders in which `a` and `b` meet first
    obtain ⟨rest, hperm⟩ := hsub.exists_perm_append
    have hab := hall _ hperm
    have hba := hall _ (hperm.trans (List.Perm.swap b a rest))
    obtain ⟨c, hc, -⟩ := show Runs R a (b :: rest) w from hab
    obtain ⟨d, hd, -⟩ := show Runs R b (a :: rest) w from hba
    exact ⟨⟨c, hc⟩, ⟨d, hd⟩⟩

end Winner

/-! ## Orders in which nothing is broken off -/

/-- The champions of a run are a chain. -/
theorem chained_of_runs (hsel : ∀ a b c, R a b c → c = a ∨ c = b) (h : Runs R champion xs last) :
    ∃ chain others, (champion :: xs).Perm ((champion :: chain) ++ others) ∧
      (champion :: chain).IsChain (fun a b => R a b b) ∧ ∀ x ∈ others, ∃ c ∈ champion :: chain, R c x c := by
  induction xs generalizing champion with
  | nil => exact ⟨[], [], .refl _, .singleton _, fun x hx => absurd hx List.not_mem_nil⟩
  | cons x xs ih =>
    obtain ⟨next, hnext, hrest⟩ := h
    obtain ⟨chain, others, hperm, hchain, hothers⟩ := ih hrest
    rcases hsel _ _ _ hnext with rfl | rfl
    · refine ⟨chain, x :: others, ?_, hchain, ?_⟩
      · calc List.Perm (next :: x :: xs) (x :: next :: xs) := .swap _ _ _
          List.Perm _ (x :: ((next :: chain) ++ others)) := hperm.cons x
          List.Perm _ ((next :: chain) ++ x :: others) := List.perm_middle.symm
      · intro y hy
        rcases List.mem_cons.mp hy with rfl | hy
        · exact ⟨next, List.mem_cons_self, hnext⟩
        · exact hothers y hy
    · refine ⟨next :: chain, others, hperm.cons champion, .cons_cons hnext hchain, ?_⟩
      intro y hy
      obtain ⟨c, hc, hfalls⟩ := hothers y hy
      exact ⟨c, List.mem_cons_of_mem _ hc, hfalls⟩

/-- Along a chain, each one meets first those that fall to it. -/
theorem runs_of_chain {chain others : List α} (hchain : (champion :: chain).IsChain (fun a b => R a b b))
    (hothers : ∀ x ∈ others, ∃ c ∈ champion :: chain, R c x c) :
    ∃ ys last, (champion :: ys).Perm ((champion :: chain) ++ others) ∧ Runs R champion ys last := by
  classical
  induction chain generalizing champion others with
  | nil =>
    refine ⟨others, champion, .refl _, runs_stay fun x hx => ?_⟩
    obtain ⟨c, hc, hfalls⟩ := hothers x hx
    rwa [List.mem_singleton.mp hc] at hfalls
  | cons next chain ih =>
    obtain ⟨hgives, hrest⟩ := List.isChain_cons_cons.mp hchain
    -- those that fall to the champion, and the others
    have hsplit := List.filter_append_perm (fun x => decide (R champion x champion)) others
    have hleft : ∀ x ∈ others.filter (fun x => !decide (R champion x champion)), ∃ c ∈ next :: chain, R c x c := by
      intro x hx
      obtain ⟨hx, hnot⟩ := List.mem_filter.mp hx
      obtain ⟨c, hc, hfalls⟩ := hothers x hx
      rcases List.mem_cons.mp hc with rfl | hc
      · simp [hfalls] at hnot
      · exact ⟨c, hc, hfalls⟩
    obtain ⟨ys, last, hperm, hruns⟩ := ih hrest hleft
    refine ⟨others.filter (fun x => decide (R champion x champion)) ++ next :: ys, last, ?_, ?_⟩
    · refine List.Perm.cons champion ?_
      have hfall := List.Perm.append_left (others.filter fun x => decide (R champion x champion)) hperm
      refine hfall.trans ?_
      rw [← List.append_assoc]
      refine (List.perm_append_comm.append_right _).trans ?_
      rw [List.append_assoc]
      exact hsplit.append_left _
    · refine runs_append.mpr ⟨champion, runs_stay fun x hx => ?_, next, hgives, hruns⟩
      exact of_decide_eq_true (List.mem_filter.mp hx).2

/-- There is an order in which nothing is broken off. -/
theorem chained_iff (hsel : ∀ a b c, R a b c → c = a ∨ c = b) :
    Chained R xs ↔ ∃ ys last, xs.Perm ys ∧ Result R ys last := by
  constructor
  · rintro ⟨chain, others, hne, hperm, hchain, hothers⟩
    obtain ⟨c, chain, rfl⟩ := List.exists_cons_of_ne_nil hne
    obtain ⟨ys, last, hperm', hruns⟩ := runs_of_chain hchain hothers
    exact ⟨c :: ys, last, hperm.trans hperm'.symm, hruns⟩
  · rintro ⟨ys, last, hperm, hres⟩
    cases ys with
    | nil => cases hres
    | cons y ys =>
      obtain ⟨chain, others, hperm', hchain, hothers⟩ := chained_of_runs hsel hres
      exact ⟨y :: chain, others, List.cons_ne_nil _ _, hperm.trans hperm', hchain, hothers⟩

/-! ## Order -/

/-- **When the order does not matter**: the same one goes on against all the others and any two can meet, or there is
no order at all in which nothing is broken off. -/
theorem orderFree_iff (hsel : ∀ a b c, R a b c → c = a ∨ c = b) (hfun : ∀ a b c d, R a b c → R a b d → c = d)
    (hself : ∀ a, R a a a) (hmirror : ∀ a w, R w a w → a ≠ w → R a w w) (xs : List α) :
    OrderFree R xs ↔ Settled R xs ∨ ¬ Chained R xs := by
  constructor
  · intro h
    by_cases hchained : Chained R xs
    · obtain ⟨ys, last, hperm, hres⟩ := (chained_iff hsel).mp hchained
      have hfirst := (h ys hperm last).mpr hres
      exact .inl (settled_of_result hsel fun zs hperm' => (h zs hperm' last).mp hfirst)
    · exact .inr hchained
  · rintro (hsettled | hnot)
    · obtain ⟨w, hall⟩ := result_of_settled hsel hfun hself hmirror hsettled
      have hunique {ys : List α} {last : α} (hres : Result R ys w) (hres' : Result R ys last) : last = w := by
        cases ys with
        | nil => cases hres
        | cons y ys => exact Runs.unique hfun hres' hres
      intro ys hperm last
      constructor
      · intro hres
        rw [hunique (hall xs (.refl _)) hres]
        exact hall ys hperm
      · intro hres
        rw [hunique (hall ys hperm) hres]
        exact hall xs (.refl _)
    · intro ys hperm last
      refine iff_of_false (fun hres => hnot ?_) fun hres => hnot ?_
      · exact (chained_iff hsel).mpr ⟨xs, last, .refl _, hres⟩
      · exact (chained_iff hsel).mpr ⟨ys, last, hperm, hres⟩

end Visuall.Knockout
