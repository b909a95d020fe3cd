import Mathlib.Algebra.BigOperators.Group.Finset.Basic
import Mathlib.Data.Finset.Basic
import Mathlib.Data.Nat.Find
import Mathlib.Logic.Relation

/-!
# What a breadth-first search finds first

A queue of nodes is searched for one with a property.  A node that has been visited is passed over; one without
the property puts its successors at the end of the queue.

* `level` — the nodes that are so many steps away, in the order in which they are reached;
* `First` — the first node with the property in the nearest level that has one;
* `search`, `search_eq_some_iff` — the search finds just that node.
-/

namespace Visuall.Breadth

variable {α : Type*}

/-- The nodes that are `n` steps away from the roots. -/
def level (next : α → List α) (roots : List α) : ℕ → List α
  | 0 => roots
  | n + 1 => (level next roots n).flatMap next

/-- Some level has a node with the property, no level before it has one, and the node is the first in it. -/
def First (next : α → List α) (p : α → Bool) (roots : List α) (x : α) : Prop :=
  ∃ n, (∀ k < n, ∀ y ∈ level next roots k, p y = false) ∧ (level next roots n).find? p = some x

variable {next : α → List α} {p : α → Bool} {roots queue more visited : List α} {x y : α} {n : ℕ}

/-! ## Levels -/

theorem level_nil : level next [] n = [] := by
  induction n with
  | zero => rfl
  | succ n ih => rw [level, ih, List.flatMap_nil]

theorem level_append : level next (roots ++ more) n = level next roots n ++ level next more n := by
  induction n with
  | zero => rfl
  | succ n ih => rw [level, ih, List.flatMap_append, level, level]

theorem level_next : level next (next x) n = level next [x] (n + 1) := by
  induction n with
  | zero => simp [level]
  | succ n ih =>
    show (level next (next x) n).flatMap next = (level next [x] (n + 1)).flatMap next
    rw [ih]

/-- The levels hold what can be reached. -/
theorem mem_level_iff_reach : (∃ n, y ∈ level next [x] n) ↔ Relation.ReflTransGen (fun a b => b ∈ next a) x y := by
  constructor
  · rintro ⟨n, hn⟩
    induction n generalizing y with
    | zero =>
      rw [List.mem_singleton.mp hn]
    | succ n ih =>
      obtain ⟨z, hz, hy⟩ := List.mem_flatMap.mp hn
      exact (ih hz).tail hy
  · intro h
    induction h with
    | refl => exact ⟨0, List.mem_singleton.mpr rfl⟩
    | tail _ hstep ih =>
      obtain ⟨n, hn⟩ := ih
      exact ⟨n + 1, List.mem_flatMap.mpr ⟨_, hn, hstep⟩⟩

/-! ## The first node -/

theorem First.property (h : First next p roots x) : p x = true := by
  obtain ⟨n, -, hn⟩ := h
  exact List.find?_some hn

theorem First.mem_level (h : First next p roots x) : ∃ n, x ∈ level next roots n := by
  obtain ⟨n, -, hn⟩ := h
  exact ⟨n, List.mem_of_find?_eq_some hn⟩

/-- There is one first node. -/
theorem First.unique (hx : First next p roots x) (hy : First next p roots y) : x = y := by
  obtain ⟨n, hn, hfindn⟩ := hx
  obtain ⟨m, hm, hfindm⟩ := hy
  have hle : ∀ {i j : ℕ} {z w : α}, (∀ k < i, ∀ y ∈ level next roots k, p y = false) →
      (level next roots i).find? p = some z → (level next roots j).find? p = some w → i ≤ j := by
    intro i j z w hi _ hfindj
    by_contra hlt
    have := hi j (by omega) w (List.mem_of_find?_eq_some hfindj)
    rw [List.find?_some hfindj] at this
    cases this
  have heq : n = m := Nat.le_antisymm (hle hn hfindn hfindm) (hle hm hfindm hfindn)
  rw [heq] at hfindn
  exact Option.some.inj (hfindn.symm.trans hfindm)

/-- Where some node with the property can be reached, there is a first one. -/
theorem exists_first (hy : y ∈ level next roots n) (hp : p y = true) : ∃ x, First next p roots x := by
  classical
  have hex : ∃ n, ∃ y ∈ level next roots n, p y = true := ⟨n, y, hy, hp⟩
  obtain ⟨z, hz, hpz⟩ := Nat.find_spec hex
  obtain ⟨x, hx⟩ := Option.isSome_iff_exists.mp (List.find?_isSome.mpr ⟨z, hz, hpz⟩)
  refine ⟨x, Nat.find hex, ?_, hx⟩
  intro k hk w hw
  by_contra hpw
  exact Nat.find_min hex hk ⟨w, hw, Bool.eq_true_of_not_eq_false hpw⟩

theorem First.reach (h : First next p [x] y) : Relation.ReflTransGen (fun a b => b ∈ next a) x y :=
  mem_level_iff_reach.mp h.mem_level

/-- Where no root has the property, one that is next to them does, and it comes first among those, it is the first. -/
theorem first_next (hx : p x = false) (hy : (next x).find? p = some y) : First next p [x] y := by
  refine ⟨1, fun k hk z hz => ?_, ?_⟩
  · obtain rfl : k = 0 := by omega
    rw [List.mem_singleton.mp hz, hx]
  · show ([x].flatMap next).find? p = some y
    rwa [List.flatMap_singleton]

theorem not_first_nil : ¬ First next p [] x := by
  intro h
  obtain ⟨n, -, hn⟩ := h
  rw [level_nil] at hn
  cases hn

/-- A node with the property at the head of the queue is the first. -/
theorem first_cons_of_pos (hp : p x = true) : First next p (x :: queue) y ↔ x = y := by
  have hx : First next p (x :: queue) x := ⟨0, by simp, List.find?_cons_of_pos hp⟩
  constructor
  · intro h
    exact hx.unique h
  · intro h
    rw [← h]
    exact hx

/-- A node without the property at the head of the queue gives way to its successors at the end. -/
theorem first_cons_of_neg (hp : p x = false) :
    First next p (x :: queue) y ↔ First next p (queue ++ next x) y := by
  have hcons (n : ℕ) : level next (x :: queue) n = level next [x] n ++ level next queue n := by
    show level next ([x] ++ queue) n = level next [x] n ++ level next queue n
    exact level_append
  have hback (n : ℕ) : level next (queue ++ next x) n = level next queue n ++ level next [x] (n + 1) := by
    rw [level_append, level_next]
  constructor
  · intro h
    obtain ⟨n, hn, hfind⟩ := h
    have hown (k : ℕ) (hk : k < n) : ∀ z ∈ level next [x] k, p z = false := fun z hz =>
      hn k hk z (by rw [hcons]; exact List.mem_append_left _ hz)
    have hqueue (k : ℕ) (hk : k < n) : ∀ z ∈ level next queue k, p z = false := fun z hz =>
      hn k hk z (by rw [hcons]; exact List.mem_append_right _ hz)
    rw [hcons, List.find?_append] at hfind
    cases hfirst : (level next [x] n).find? p with
    | some z =>
      rw [hfirst] at hfind
      obtain rfl : z = y := Option.some.inj hfind
      cases n with
      | zero =>
        rw [level, List.find?_singleton, hp] at hfirst
        cases hfirst
      | succ n =>
        refine ⟨n, ?_, ?_⟩
        · intro k hk w hw
          rw [hback, List.mem_append] at hw
          cases hw with
          | inl hw => exact hqueue k (by omega) w hw
          | inr hw => exact hown (k + 1) (by omega) w hw
        · rw [hback, List.find?_append,
            List.find?_eq_none.mpr fun w hw => by simp [hqueue n (by omega) w hw], hfirst]
          rfl
    | none =>
      rw [hfirst, Option.none_or] at hfind
      refine ⟨n, ?_, ?_⟩
      · intro k hk w hw
        rw [hback, List.mem_append] at hw
        cases hw with
        | inl hw => exact hqueue k hk w hw
        | inr hw =>
          by_cases hkn : k + 1 = n
          · rw [hkn] at hw
            simpa using List.find?_eq_none.mp hfirst w hw
          · exact hown (k + 1) (by omega) w hw
      · rw [hback, List.find?_append, hfind]
        rfl
  · intro h
    obtain ⟨m, hm, hfind⟩ := h
    have hown (k : ℕ) (hk : k ≤ m) : ∀ z ∈ level next [x] k, p z = false := by
      intro z hz
      cases k with
      | zero =>
        rw [level, List.mem_singleton] at hz
        rw [hz, hp]
      | succ k => exact hm k (by omega) z (by rw [hback]; exact List.mem_append_right _ hz)
    have hqueue (k : ℕ) (hk : k < m) : ∀ z ∈ level next queue k, p z = false := fun z hz =>
      hm k hk z (by rw [hback]; exact List.mem_append_left _ hz)
    rw [hback, List.find?_append] at hfind
    cases hfirst : (level next queue m).find? p with
    | some z =>
      rw [hfirst] at hfind
      obtain rfl : z = y := Option.some.inj hfind
      refine ⟨m, ?_, ?_⟩
      · intro k hk w hw
        rw [hcons, List.mem_append] at hw
        cases hw with
        | inl hw => exact hown k (by omega) w hw
        | inr hw => exact hqueue k hk w hw
      · rw [hcons, List.find?_append,
          List.find?_eq_none.mpr fun w hw => by simp [hown m le_rfl w hw], hfirst]
        rfl
    | none =>
      rw [hfirst, Option.none_or] at hfind
      refine ⟨m + 1, ?_, ?_⟩
      · intro k hk w hw
        rw [hcons, List.mem_append] at hw
        cases hw with
        | inl hw => exact hown k (by omega) w hw
        | inr hw =>
          by_cases hkm : k = m
          · rw [hkm] at hw
            simpa using List.find?_eq_none.mp hfirst w hw
          · exact hqueue k (by omega) w hw
      · rw [hcons, List.find?_append, hfind]
        rfl

/-! ## Nodes that were visited -/

/-- The visited nodes lack the property, and their successors have been visited or wait in the queue. -/
structure Covered (next : α → List α) (p : α → Bool) (visited queue : List α) : Prop where
  lacking : ∀ v ∈ visited, p v = false
  waiting : ∀ v ∈ visited, ∀ w ∈ next v, w ∈ visited ∨ w ∈ queue

/-- What is reached from covered nodes has been visited or is reached from the queue no later. -/
theorem Covered.level (hc : Covered next p visited queue) (hmore : ∀ w ∈ more, w ∈ visited ∨ w ∈ queue) :
    ∀ n, ∀ w ∈ level next more n, w ∈ visited ∨ ∃ k ≤ n, w ∈ Breadth.level next queue k := by
  intro n
  induction n with
  | zero =>
    intro w hw
    exact (hmore w hw).imp_right fun h => ⟨0, le_rfl, h⟩
  | succ n ih =>
    intro w hw
    rw [Breadth.level, List.mem_flatMap] at hw
    obtain ⟨v, hv, hvw⟩ := hw
    cases ih v hv with
    | inl hvisited =>
      exact (hc.waiting v hvisited w hvw).imp_right fun h => ⟨0, by omega, h⟩
    | inr hlevel =>
      obtain ⟨k, hk, hvk⟩ := hlevel
      exact .inr ⟨k + 1, by omega, List.mem_flatMap.mpr ⟨v, hvk, hvw⟩⟩

/-- Nodes that were visited or that wait already need not be put into the queue. -/
theorem first_append_iff (hc : Covered next p visited queue) (hmore : ∀ w ∈ more, w ∈ visited ∨ w ∈ queue) :
    First next p (queue ++ more) y ↔ First next p queue y := by
  -- a node with the property that is reached from `more` is reached from the queue
  have hreached {n : ℕ} {w : α} (hw : w ∈ level next more n) (hp : p w = true) :
      ∃ k ≤ n, w ∈ level next queue k := by
    cases hc.level hmore n w hw with
    | inl hvisited =>
      rw [hc.lacking w hvisited] at hp
      cases hp
    | inr hlevel => exact hlevel
  constructor
  · intro h
    obtain ⟨n, hn, hfind⟩ := h
    have hqueue (k : ℕ) (hk : k < n) : ∀ z ∈ level next queue k, p z = false := fun z hz =>
      hn k hk z (by rw [level_append]; exact List.mem_append_left _ hz)
    refine ⟨n, hqueue, ?_⟩
    rw [level_append, List.find?_append] at hfind
    cases hfirst : (level next queue n).find? p with
    | some z =>
      rw [hfirst] at hfind
      exact hfind
    | none =>
      rw [hfirst, Option.none_or] at hfind
      obtain ⟨k, hk, hyk⟩ := hreached (List.mem_of_find?_eq_some hfind) (List.find?_some hfind)
      have hpy : p y = false := by
        by_cases hkn : k = n
        · rw [hkn] at hyk
          simpa using List.find?_eq_none.mp hfirst y hyk
        · exact hqueue k (by omega) y hyk
      rw [List.find?_some hfind] at hpy
      cases hpy
  · intro h
    obtain ⟨n, hn, hfind⟩ := h
    refine ⟨n, ?_, ?_⟩
    · intro k hk z hz
      rw [level_append, List.mem_append] at hz
      cases hz with
      | inl hz => exact hn k hk z hz
      | inr hz =>
        by_contra hp
        obtain ⟨j, hj, hzj⟩ := hreached hz (Bool.eq_true_of_not_eq_false hp)
        exact hp (hn j (by omega) z hzj)
    · rw [level_append, List.find?_append, hfind]
      rfl

/-! ## The search -/

variable [DecidableEq α]

/-- The search, for as many nodes as there is fuel. -/
def search (next : α → List α) (p : α → Bool) : ℕ → List α → List α → Option α
  | 0, _, _ => none
  | _ + 1, [], _ => none
  | fuel + 1, x :: queue, visited =>
    if x ∈ visited then search next p fuel queue visited
    else if p x then some x
    else search next p fuel (queue ++ next x) (x :: visited)

/-- What is still to be taken off the queue, at most: each node that has successors puts them there once. -/
def rest (next : α → List α) (nodes : Finset α) (queue visited : List α) : ℕ :=
  queue.length + ∑ v ∈ nodes \ visited.toFinset, (next v).length

/-- A node that is visited for the first time puts no more into the queue than was to come. -/
theorem rest_visit {nodes : Finset α} (hnodes : ∀ v ∉ nodes, next v = []) (hx : x ∉ visited) :
    rest next nodes (queue ++ next x) (x :: visited) + 1 = rest next nodes (x :: queue) visited := by
  unfold rest
  by_cases hmem : x ∈ nodes
  · have hsplit : nodes \ visited.toFinset = insert x (nodes \ (x :: visited).toFinset) := by
      ext v
      simp only [Finset.mem_sdiff, Finset.mem_insert, List.toFinset_cons]
      by_cases hv : v = x
      · simp [hv, hmem, hx]
      · simp [hv]
    rw [hsplit, Finset.sum_insert (by simp), List.length_append, List.length_cons]
    omega
  · have hsame : nodes \ (x :: visited).toFinset = nodes \ visited.toFinset := by
      ext v
      simp only [Finset.mem_sdiff, Finset.mem_insert, List.toFinset_cons]
      by_cases hv : v = x
      · simp [hv, hmem]
      · simp [hv]
    rw [hsame, hnodes x hmem, List.append_nil, List.length_cons]
    omega

/-- With enough fuel the search finds the first node with the property, and nothing else. -/
theorem search_iff_first {nodes : Finset α} (hnodes : ∀ v ∉ nodes, next v = []) : ∀ (fuel : ℕ) (queue visited : List α),
    rest next nodes queue visited ≤ fuel → Covered next p visited queue →
    (search next p fuel queue visited = some y ↔ First next p queue y) := by
  intro fuel
  induction fuel with
  | zero =>
    intro queue visited hfuel _
    obtain rfl : queue = [] := List.eq_nil_of_length_eq_zero (by rw [rest] at hfuel; omega)
    simp [search, not_first_nil]
  | succ fuel ih =>
    intro queue visited hfuel hc
    cases queue with
    | nil => simp [search, not_first_nil]
    | cons x queue =>
      rw [search]
      by_cases hx : x ∈ visited
      · have hc' : Covered next p visited queue := ⟨hc.lacking, fun v hv w hw => by
          cases hc.waiting v hv w hw with
          | inl hw => exact .inl hw
          | inr hw =>
            cases List.mem_cons.mp hw with
            | inl hwx => exact .inl (hwx ▸ hx)
            | inr hw => exact .inr hw⟩
        rw [if_pos hx, ih queue visited (by rw [rest, List.length_cons] at hfuel; rw [rest]; omega) hc',
          first_cons_of_neg (hc.lacking x hx), first_append_iff hc' (hc'.waiting x hx)]
      · rw [if_neg hx]
        cases hp : p x with
        | true =>
          rw [if_pos rfl, first_cons_of_pos hp]
          exact Option.some_inj
        | false =>
          have hc' : Covered next p (x :: visited) (queue ++ next x) := by
            constructor
            · intro v hv
              cases List.mem_cons.mp hv with
              | inl hvx => rw [hvx, hp]
              | inr hv => exact hc.lacking v hv
            · intro v hv w hw
              cases List.mem_cons.mp hv with
              | inl hvx => exact .inr (List.mem_append_right _ (hvx ▸ hw))
              | inr hv =>
                cases hc.waiting v hv w hw with
                | inl hw => exact .inl (List.mem_cons_of_mem _ hw)
                | inr hw =>
                  cases List.mem_cons.mp hw with
                  | inl hwx => exact .inl (hwx ▸ List.mem_cons_self)
                  | inr hw => exact .inr (List.mem_append_left _ hw)
          have hrest : rest next nodes (queue ++ next x) (x :: visited) + 1 = rest next nodes (x :: queue) visited :=
            rest_visit hnodes hx
          rw [if_neg Bool.false_ne_true, first_cons_of_neg hp,
            ih (queue ++ next x) (x :: visited) (by omega) hc']

/-- **A breadth-first search finds the first node with the property.** -/
theorem search_eq_some_iff {nodes : Finset α} {fuel : ℕ} (hnodes : ∀ v ∉ nodes, next v = [])
    (hfuel : 1 + ∑ v ∈ nodes, (next v).length ≤ fuel) :
    search next p fuel [x] [] = some y ↔ First next p [x] y :=
  search_iff_first hnodes fuel [x] [] (by simpa [rest] using hfuel) ⟨by simp, by simp⟩

end Visuall.Breadth
