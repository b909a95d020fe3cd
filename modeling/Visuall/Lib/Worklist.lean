import Mathlib

/-!
# Worklists

A worklist algorithm takes items off a queue.  Every item it takes is met; one whose key has not been seen
is also expanded, and the items it gives go to the end of the queue.  Meeting and expanding may fail.

* `Worklist.run` — the loop, with fuel; `Steps` — the items it takes, in the order in which it takes them;
* `run_ok_iff`, `run_error_iff` — how a run ends, in terms of its steps;
* `Reached`, `Steps.reached`, `Steps.complete` — what is taken is what can be reached;
* `walk`, `exists_mem_walk` — the breadth-first walk, and its fairness;
* `Steps.subperm_walk`, `Steps.perm` — up to its order, what is taken does not depend on the order in which
  items are given;
* `run_terminates` — a run over finitely many keys ends.
-/

namespace Visuall

/-- A worklist algorithm on items `ι` with keys `κ`, over a state `σ`, that fails with `ε`. -/
structure Worklist (ι κ σ ε : Type*) where
  key : ι → κ
  meet : σ → ι → Except ε σ
  expand : σ → ι → Except ε (σ × List ι)

namespace Worklist

variable {ι κ σ ε : Type*}

/-- The queue, the keys seen, and the state of the algorithm. -/
structure State (ι κ σ : Type*) where
  queue : List ι
  seen : List κ
  acc : σ

variable [DecidableEq κ] (W : Worklist ι κ σ ε)

/-- One item, taken off a queue of which `s.queue` is left. -/
def step (item : ι) (s : State ι κ σ) : Except ε (State ι κ σ) :=
  match W.meet s.acc item with
  | .error e => .error e
  | .ok acc =>
    if W.key item ∈ s.seen then .ok { s with acc := acc }
    else
      match W.expand acc item with
      | .error e => .error e
      | .ok (acc, items) =>
        .ok { queue := s.queue ++ items, seen := W.key item :: s.seen, acc := acc }

/-- The loop, for as many items as there is fuel. -/
def run : ℕ → State ι κ σ → Option (Except ε σ)
  | fuel, s =>
    match s.queue with
    | [] => some (.ok s.acc)
    | item :: queue =>
      match fuel with
      | 0 => none
      | fuel + 1 =>
        match W.step item { s with queue := queue } with
        | .error e => some (.error e)
        | .ok s' => run fuel s'

/-! ## The steps of a run -/

/-- The items are taken one after another, and none fails. -/
inductive Steps : State ι κ σ → List ι → State ι κ σ → Prop
  | nil {s} : Steps s [] s
  | cons {s s' t item queue items} : s.queue = item :: queue →
      W.step item { s with queue := queue } = .ok s' → Steps s' items t → Steps s (item :: items) t

variable {W} {s s' t : State ι κ σ} {item : ι} {items queue : List ι} {fuel : ℕ}

theorem run_nil (h : s.queue = []) : W.run fuel s = some (.ok s.acc) := by
  unfold run
  rw [h]

theorem run_error {e : ε} (h : s.queue = item :: queue)
    (hstep : W.step item { s with queue := queue } = .error e) :
    W.run (fuel + 1) s = some (.error e) := by
  unfold run
  rw [h]
  dsimp only
  rw [hstep]

theorem run_ok (h : s.queue = item :: queue)
    (hstep : W.step item { s with queue := queue } = .ok s') : W.run (fuel + 1) s = W.run fuel s' := by
  conv_lhs => unfold run
  rw [h]
  dsimp only
  rw [hstep]

theorem Steps.run (h : W.Steps s items t) : W.run (items.length + fuel) s = W.run fuel t := by
  induction h with
  | nil => rw [List.length_nil, Nat.zero_add]
  | @cons s s' t item queue items hqueue hstep _ ih =>
      have hlen : (item :: items).length + fuel = items.length + fuel + 1 := by
        rw [List.length_cons]
        omega
      rw [hlen, run_ok hqueue hstep, ih]

/-- A run takes items until the queue is empty, one fails, or the fuel is gone. -/
theorem run_cases (W : Worklist ι κ σ ε) (fuel : ℕ) (s : State ι κ σ) :
    ∃ items t, W.Steps s items t ∧
      ((W.run fuel s = some (.ok t.acc) ∧ t.queue = []) ∨
        (∃ e item queue, W.run fuel s = some (.error e) ∧ t.queue = item :: queue ∧
          W.step item { t with queue := queue } = .error e) ∨
        (W.run fuel s = none ∧ items.length = fuel)) := by
  induction fuel generalizing s with
  | zero =>
      cases hqueue : s.queue with
      | nil => exact ⟨[], s, .nil, .inl ⟨run_nil hqueue, hqueue⟩⟩
      | cons item queue =>
          refine ⟨[], s, .nil, .inr (.inr ⟨?_, rfl⟩)⟩
          unfold run
          rw [hqueue]
  | succ fuel ih =>
      cases hqueue : s.queue with
      | nil => exact ⟨[], s, .nil, .inl ⟨run_nil hqueue, hqueue⟩⟩
      | cons item queue =>
          cases hstep : W.step item { s with queue := queue } with
          | error e =>
              exact ⟨[], s, .nil, .inr (.inl ⟨e, item, queue, run_error hqueue hstep, hqueue, hstep⟩)⟩
          | ok s' =>
              obtain ⟨items, t, hsteps, hend⟩ := ih s'
              rw [← run_ok hqueue hstep] at hend
              refine ⟨item :: items, t, .cons hqueue hstep hsteps, ?_⟩
              rcases hend with hend | hend | ⟨hnone, hlen⟩
              · exact .inl hend
              · exact .inr (.inl hend)
              · exact .inr (.inr ⟨hnone, congrArg Nat.succ hlen⟩)

/-- More fuel does not change how a run ends. -/
theorem run_add {out : Except ε σ} (h : W.run fuel s = some out) (n : ℕ) :
    W.run (fuel + n) s = some out := by
  induction fuel generalizing s with
  | zero =>
      cases hqueue : s.queue with
      | nil =>
          rw [run_nil hqueue] at h ⊢
          exact h
      | cons item queue =>
          unfold run at h
          rw [hqueue] at h
          cases h
  | succ fuel ih =>
      have hfuel : fuel + 1 + n = fuel + n + 1 := by omega
      rw [hfuel]
      cases hqueue : s.queue with
      | nil =>
          rw [run_nil hqueue] at h ⊢
          exact h
      | cons item queue =>
          cases hstep : W.step item { s with queue := queue } with
          | error e =>
              rw [run_error hqueue hstep] at h ⊢
              exact h
          | ok s' =>
              rw [run_ok hqueue hstep] at h ⊢
              exact ih h

theorem run_ok_iff {acc : σ} :
    (∃ fuel, W.run fuel s = some (.ok acc)) ↔
      ∃ items t, W.Steps s items t ∧ t.queue = [] ∧ t.acc = acc := by
  constructor
  · rintro ⟨fuel, h⟩
    obtain ⟨items, t, hsteps, ⟨hrun, hqueue⟩ | ⟨e, item, queue, hrun, _⟩ | ⟨hrun, _⟩⟩ := run_cases W fuel s
    · rw [h] at hrun
      cases hrun
      exact ⟨items, t, hsteps, hqueue, rfl⟩
    · rw [h] at hrun
      cases hrun
    · rw [h] at hrun
      cases hrun
  · rintro ⟨items, t, hsteps, hqueue, rfl⟩
    exact ⟨items.length + 0, hsteps.run.trans (run_nil hqueue)⟩

theorem run_error_iff {e : ε} :
    (∃ fuel, W.run fuel s = some (.error e)) ↔
      ∃ items t item queue, W.Steps s items t ∧ t.queue = item :: queue ∧
        W.step item { t with queue := queue } = .error e := by
  constructor
  · rintro ⟨fuel, h⟩
    obtain ⟨items, t, hsteps, ⟨hrun, _⟩ | ⟨e', item, queue, hrun, hfail⟩ | ⟨hrun, _⟩⟩ := run_cases W fuel s
    · rw [h] at hrun
      cases hrun
    · rw [h] at hrun
      cases hrun
      exact ⟨items, t, item, queue, hsteps, hfail⟩
    · rw [h] at hrun
      cases hrun
  · rintro ⟨items, t, item, queue, hsteps, hqueue, hstep⟩
    exact ⟨items.length + 1, hsteps.run.trans (run_error hqueue hstep)⟩

/-- **Invariant rule.**  What every step keeps holds after the steps. -/
theorem Steps.invariant {I : List ι → State ι κ σ → Prop} (h : W.Steps s items t) (hs : I [] s)
    (hstep : ∀ taken s item queue s', I taken s → s.queue = item :: queue →
      W.step item { s with queue := queue } = .ok s' → I (taken ++ [item]) s') : I items t := by
  have hgen : ∀ taken, I taken s → I (taken ++ items) t := by
    clear hs
    induction h with
    | nil =>
        intro taken hs
        rwa [List.append_nil]
    | @cons s s' t item queue items hqueue hnext _ ih =>
        intro taken hs
        have happend : taken ++ item :: items = taken ++ [item] ++ items := by simp
        rw [happend]
        exact ih _ (hstep taken s item queue s' hs hqueue hnext)
  exact hgen [] hs

/-! ## What is taken -/

/-- What a step does: the item is met, and expanded if its key is new. -/
theorem step_cases (h : W.step item s = .ok s') :
    ∃ acc, W.meet s.acc item = .ok acc ∧
      ((W.key item ∈ s.seen ∧ s' = { s with acc := acc }) ∨
        (W.key item ∉ s.seen ∧ ∃ acc' items, W.expand acc item = .ok (acc', items) ∧
          s' = { queue := s.queue ++ items, seen := W.key item :: s.seen, acc := acc' })) := by
  unfold step at h
  cases hmeet : W.meet s.acc item with
  | error e =>
      rw [hmeet] at h
      cases h
  | ok acc =>
      rw [hmeet] at h
      refine ⟨acc, rfl, ?_⟩
      dsimp only at h
      split_ifs at h with hseen
      · cases h
        exact .inl ⟨hseen, rfl⟩
      · cases hexpand : W.expand acc item with
        | error e =>
            rw [hexpand] at h
            cases h
        | ok q =>
            obtain ⟨acc', items⟩ := q
            rw [hexpand] at h
            cases h
            exact .inr ⟨hseen, acc', items, rfl, rfl⟩

/-- Where a step fails. -/
theorem step_error {e : ε} (h : W.step item s = .error e) :
    W.meet s.acc item = .error e ∨
      ∃ acc, W.meet s.acc item = .ok acc ∧ W.key item ∉ s.seen ∧ W.expand acc item = .error e := by
  unfold step at h
  cases hmeet : W.meet s.acc item with
  | error e' =>
      rw [hmeet] at h
      cases h
      exact .inl rfl
  | ok acc =>
      rw [hmeet] at h
      dsimp only at h
      split_ifs at h with hseen
      cases hexpand : W.expand acc item with
      | error e' =>
          rw [hexpand] at h
          cases h
          exact .inr ⟨acc, rfl, hseen, hexpand⟩
      | ok q =>
          rw [hexpand] at h
          cases h

/-- The items whose key has not been seen, nor is the key of an earlier one. -/
def fresh (key : ι → κ) : List κ → List ι → List ι
  | _, [] => []
  | seen, item :: items =>
    if key item ∈ seen then fresh key seen items else item :: fresh key (key item :: seen) items

theorem mem_of_mem_fresh {key : ι → κ} {seen : List κ} (h : item ∈ fresh key seen items) :
    item ∈ items ∧ key item ∉ seen := by
  induction items generalizing seen with
  | nil => cases h
  | cons i items ih =>
      unfold fresh at h
      split_ifs at h with hseen
      · obtain ⟨hmem, hnot⟩ := ih h
        exact ⟨List.mem_cons_of_mem _ hmem, hnot⟩
      · rcases List.mem_cons.mp h with rfl | h
        · exact ⟨List.mem_cons_self, hseen⟩
        · obtain ⟨hmem, hnot⟩ := ih h
          exact ⟨List.mem_cons_of_mem _ hmem, fun hkey => hnot (List.mem_cons_of_mem _ hkey)⟩

/-- Every new key is the key of an item that is fresh. -/
theorem exists_fresh (key : ι → κ) (seen : List κ) (hmem : item ∈ items) (hnot : key item ∉ seen) :
    ∃ i ∈ fresh key seen items, key i = key item := by
  induction items generalizing seen with
  | nil => cases hmem
  | cons i items ih =>
      unfold fresh
      split_ifs with hseen
      · rcases List.mem_cons.mp hmem with rfl | hmem
        · exact absurd hseen hnot
        · exact ih seen hmem hnot
      · by_cases hi : key i = key item
        · exact ⟨i, List.mem_cons_self, hi⟩
        · have hmem' : item ∈ items := by
            rcases List.mem_cons.mp hmem with rfl | hmem
            · exact absurd rfl hi
            · exact hmem
          obtain ⟨j, hj, hkey⟩ := ih (key i :: seen) hmem' (by
            intro hkey
            rcases List.mem_cons.mp hkey with hkey | hkey
            · exact hi hkey.symm
            · exact hnot hkey)
          exact ⟨j, List.mem_cons_of_mem _ hj, hkey⟩

theorem fresh_keys_nodup (key : ι → κ) (seen : List κ) (items : List ι) :
    ((fresh key seen items).map key).Nodup := by
  induction items generalizing seen with
  | nil => exact List.nodup_nil
  | cons i items ih =>
      unfold fresh
      split_ifs with hseen
      · exact ih seen
      · rw [List.map_cons, List.nodup_cons]
        refine ⟨?_, ih _⟩
        intro hmem
        obtain ⟨j, hj, hkey⟩ := List.mem_map.mp hmem
        apply (mem_of_mem_fresh hj).2
        rw [hkey]
        exact List.mem_cons_self

/-- One item more. -/
theorem fresh_concat (key : ι → κ) (seen : List κ) (items : List ι) (item : ι) :
    fresh key seen (items ++ [item]) =
      if key item ∈ seen ∨ key item ∈ items.map key then fresh key seen items
      else fresh key seen items ++ [item] := by
  induction items generalizing seen with
  | nil =>
      show (if key item ∈ seen then _ else _) = _
      simp [fresh]
  | cons i items ih =>
      rw [List.cons_append]
      unfold fresh
      rw [ih seen, ih (key i :: seen), List.map_cons]
      simp only [List.mem_cons]
      by_cases hi : key i ∈ seen
      · rw [if_pos hi, if_pos hi]
        by_cases hseen : key item ∈ seen
        · simp [hseen]
        · have hne : key item ≠ key i := fun h => hseen (h ▸ hi)
          simp [hne]
      · rw [if_neg hi, if_neg hi]
        split_ifs
        · rfl
        · tauto
        · tauto
        · rfl

theorem fresh_append_prefix (key : ι → κ) (seen : List κ) (items more : List ι) :
    fresh key seen items <+: fresh key seen (items ++ more) := by
  induction items generalizing seen with
  | nil => exact List.nil_prefix
  | cons i items ih =>
      rw [List.cons_append]
      unfold fresh
      split_ifs
      · exact ih seen
      · exact (List.prefix_cons_inj i).mpr (ih _)

variable {children : ι → List ι}

/-- Expanding an item gives its children. -/
def Gives (W : Worklist ι κ σ ε) (children : ι → List ι) : Prop :=
  ∀ acc item acc' items, W.expand acc item = .ok (acc', items) → items = children item

/-- **The order of the items.**  The items taken, and those in the queue behind them, are the first ones
and then the children of the fresh ones. -/
theorem Steps.order (hW : W.Gives children) (h : W.Steps s items t) :
    items ++ t.queue = s.queue ++ (fresh W.key s.seen items).flatMap children := by
  induction h with
  | nil =>
      unfold fresh
      rw [List.flatMap_nil, List.append_nil, List.nil_append]
  | @cons s s' t item queue items hqueue hstep hsteps ih =>
      obtain ⟨acc, _, ⟨hseen, rfl⟩ | ⟨hseen, acc', new, hexpand, rfl⟩⟩ := step_cases hstep
      · have hfresh : fresh W.key s.seen (item :: items) = fresh W.key s.seen items := if_pos hseen
        rw [hfresh, hqueue, List.cons_append, ih]
        rfl
      · have hfresh : fresh W.key s.seen (item :: items) =
            item :: fresh W.key (W.key item :: s.seen) items := if_neg hseen
        have hnew : new = children item := hW acc item acc' new hexpand
        rw [hfresh, hqueue, List.cons_append, ih, List.flatMap_cons, hnew, List.append_assoc]
        rfl

/-- Every fresh item was expanded. -/
theorem Steps.expanded (h : W.Steps s items t) :
    ∀ i ∈ fresh W.key s.seen items, ∃ acc acc' new, W.expand acc i = .ok (acc', new) := by
  induction h with
  | nil => exact fun i hi => absurd hi List.not_mem_nil
  | @cons s s' t item queue items hqueue hstep hsteps ih =>
      intro i hi
      unfold fresh at hi
      obtain ⟨acc, _, ⟨hseen, rfl⟩ | ⟨hseen, acc', new, hexpand, rfl⟩⟩ := step_cases hstep
      · rw [if_pos hseen] at hi
        exact ih i hi
      · rw [if_neg hseen] at hi
        rcases List.mem_cons.mp hi with rfl | hi
        · exact ⟨acc, acc', new, hexpand⟩
        · exact ih i hi

/-- The first items of the breadth-first walk. -/
def walk (key : ι → κ) (children : ι → List ι) : ℕ → List κ → List ι → List ι
  | 0, _, _ => []
  | _ + 1, _, [] => []
  | n + 1, seen, item :: queue =>
    item :: if key item ∈ seen then walk key children n seen queue
      else walk key children n (key item :: seen) (queue ++ children item)

theorem walk_cons (key : ι → κ) (children : ι → List ι) (n : ℕ) (seen : List κ) (item : ι) (queue : List ι) :
    walk key children (n + 1) seen (item :: queue) =
      item :: if key item ∈ seen then walk key children n seen queue
        else walk key children n (key item :: seen) (queue ++ children item) := rfl

theorem Steps.walk_add (hW : W.Gives children) (h : W.Steps s items t) (n : ℕ) :
    walk W.key children (items.length + n) s.seen s.queue = items ++ walk W.key children n t.seen t.queue := by
  induction h with
  | nil => rw [List.length_nil, Nat.zero_add, List.nil_append]
  | @cons s s' t item queue items hqueue hstep hsteps ih =>
      have hlen : (item :: items).length + n = items.length + n + 1 := by
        rw [List.length_cons]
        omega
      rw [hlen, hqueue, walk_cons, List.cons_append]
      obtain ⟨acc, _, ⟨hseen, rfl⟩ | ⟨hseen, acc', new, hexpand, rfl⟩⟩ := step_cases hstep
      · rw [if_pos hseen]
        exact congrArg _ ih
      · rw [if_neg hseen, ← hW acc item acc' new hexpand]
        exact congrArg _ ih

theorem walk_nil (key : ι → κ) (children : ι → List ι) (n : ℕ) (seen : List κ) :
    walk key children n seen [] = [] := by
  cases n <;> rfl

theorem walk_prefix (key : ι → κ) (children : ι → List ι) (n m : ℕ) (seen : List κ) (queue : List ι) :
    walk key children n seen queue <+: walk key children (n + m) seen queue := by
  induction n generalizing seen queue with
  | zero => exact List.nil_prefix
  | succ n ih =>
      have hn : n + 1 + m = n + m + 1 := by omega
      rw [hn]
      cases queue with
      | nil => exact List.prefix_rfl
      | cons item queue =>
          rw [walk_cons, walk_cons, List.prefix_cons_inj]
          split_ifs
          · exact ih _ _
          · exact ih _ _

/-- The walk of a finished run: its items, or the first of them. -/
theorem Steps.walk_prefix (hW : W.Gives children) (h : W.Steps s items t) (hqueue : t.queue = []) (n : ℕ) :
    walk W.key children n s.seen s.queue <+: items := by
  have hwalk := h.walk_add hW n
  rw [hqueue, walk_nil, List.append_nil] at hwalk
  rw [← hwalk, Nat.add_comm]
  exact Worklist.walk_prefix _ _ _ _ _ _

/-- What the items given first, and the children of what is reached, are. -/
inductive Reached (children : ι → List ι) (first : List ι) : ι → Prop
  | first {i} : i ∈ first → Reached children first i
  | child {i j} : Reached children first i → j ∈ children i → Reached children first j

/-- What is taken, and what is in the queue, can be reached. -/
theorem Steps.reached (hW : W.Gives children) (h : W.Steps s items t) :
    ∀ i ∈ items ++ t.queue, Reached children s.queue i := by
  have hgen : ∀ first, (∀ i ∈ s.queue, Reached children first i) →
      ∀ i ∈ items ++ t.queue, Reached children first i := by
    induction h with
    | nil => exact fun first hfirst => hfirst
    | @cons s s' t item queue items hqueue hstep hsteps ih =>
        intro first hfirst i hi
        rw [hqueue] at hfirst
        have hitem := hfirst item List.mem_cons_self
        rcases List.mem_cons.mp hi with rfl | hi
        · exact hitem
        refine ih first ?_ i hi
        obtain ⟨acc, _, ⟨_, rfl⟩ | ⟨_, acc', new, hexpand, rfl⟩⟩ := step_cases hstep
        · exact fun j hj => hfirst j (List.mem_cons_of_mem _ hj)
        · intro j hj
          rcases List.mem_append.mp hj with hj | hj
          · exact hfirst j (List.mem_cons_of_mem _ hj)
          · rw [hW acc item acc' new hexpand] at hj
            exact .child hitem hj
  exact hgen s.queue fun i hi => .first hi

/-- Among what can be reached, items with the same key have the same children. -/
def KeyDetermines (key : ι → κ) (children : ι → List ι) (first : List ι) : Prop :=
  ∀ i j, Reached children first i → Reached children first j → key i = key j → children i = children j

/-- **Completeness.**  When the queue is empty, everything that can be reached has been taken. -/
theorem Steps.complete (hW : W.Gives children) (hkey : KeyDetermines W.key children s.queue)
    (h : W.Steps s items t) (hseen : s.seen = []) (hqueue : t.queue = []) {i : ι}
    (hi : Reached children s.queue i) : i ∈ items := by
  have horder := h.order hW
  rw [hqueue, List.append_nil, hseen] at horder
  have hreached := h.reached hW
  rw [hqueue, List.append_nil] at hreached
  induction hi with
  | first hi =>
      rw [horder]
      exact List.mem_append_left _ hi
  | @child i j hi hj ih =>
      obtain ⟨i', hi', hkeys⟩ := exists_fresh W.key [] ih List.not_mem_nil
      have hmem := (mem_of_mem_fresh hi').1
      rw [hkey i i' hi (hreached i' hmem) hkeys.symm] at hj
      rw [horder]
      exact List.mem_append_right _ (List.mem_flatMap.mpr ⟨i', hi', hj⟩)

/-! ## Two runs -/

theorem Reached.congr {children₁ children₂ : ι → List ι} {first₁ first₂ : List ι} {i : ι}
    (hfirst : first₁ ⊆ first₂) (hchildren : ∀ i, children₁ i ⊆ children₂ i)
    (h : Reached children₁ first₁ i) : Reached children₂ first₂ i := by
  induction h with
  | first hi => exact .first (hfirst hi)
  | child _ hj ih => exact .child ih (hchildren _ hj)

/-- The children of the item in the list that has the key. -/
def childrenOf (key : ι → κ) (children : ι → List ι) (items : List ι) (k : κ) : List ι :=
  ((items.find? fun i => key i = k).map children).getD []

theorem childrenOf_key {key : ι → κ} (hnodup : (items.map key).Nodup) (hitem : item ∈ items) :
    childrenOf key children items (key item) = children item := by
  have hfind : items.find? (fun i => key i = key item) = some item := by
    obtain ⟨before, behind, rfl⟩ := List.append_of_mem hitem
    rw [List.find?_append, List.find?_eq_none.mpr, Option.none_or]
    · exact List.find?_cons_of_pos (by simp)
    · intro i hi hkey
      rw [List.map_append, List.map_cons, List.nodup_append] at hnodup
      exact hnodup.2.2 (key i) (List.mem_map_of_mem hi) (key item) List.mem_cons_self (by simpa using hkey)
  unfold childrenOf
  rw [hfind]
  rfl

theorem flatMap_subperm {α β : Type*} {l₁ l₂ : List α} (f : α → List β) (h : l₁.Subperm l₂) :
    (l₁.flatMap f).Subperm (l₂.flatMap f) := by
  obtain ⟨l, hperm, hsub⟩ := h
  exact (hperm.symm.flatMap_right f).subperm.trans (hsub.flatMap f).subperm

variable {W₁ W₂ : Worklist ι κ σ ε} {s₁ t₁ s₂ t₂ : State ι κ σ} {items₁ items₂ : List ι}
  {children₁ children₂ : ι → List ι}

/-- The order of the walk: the first items, and then the children of the fresh ones. -/
theorem walk_order (key : ι → κ) (children : ι → List ι) (n : ℕ) (seen : List κ) (queue : List ι) :
    ∃ left, walk key children n seen queue ++ left =
        queue ++ (fresh key seen (walk key children n seen queue)).flatMap children ∧
      ((walk key children n seen queue).length < n → left = []) := by
  induction n generalizing seen queue with
  | zero => exact ⟨queue, by simp [walk, fresh], fun h => absurd h (Nat.not_lt_zero _)⟩
  | succ n ih =>
      cases queue with
      | nil => exact ⟨[], by simp [walk, fresh], fun _ => rfl⟩
      | cons item queue =>
          rw [walk_cons]
          unfold fresh
          split_ifs with hseen
          · obtain ⟨left, hleft, hlen⟩ := ih seen queue
            refine ⟨left, ?_, fun h => hlen (Nat.lt_of_succ_lt_succ h)⟩
            rw [List.cons_append, hleft]
            rfl
          · obtain ⟨left, hleft, hlen⟩ := ih (key item :: seen) (queue ++ children item)
            refine ⟨left, ?_, fun h => hlen (Nat.lt_of_succ_lt_succ h)⟩
            rw [List.cons_append, hleft, List.flatMap_cons, List.append_assoc]
            rfl

/-- The walk goes on to the children of what it has met. -/
theorem walk_grows (key : ι → κ) (children : ι → List ι) (n : ℕ) (first : List ι) :
    ∃ m, first ++ (fresh key [] (walk key children n [] first)).flatMap children <+:
      walk key children m [] first := by
  refine ⟨n + (first ++ (fresh key [] (walk key children n [] first)).flatMap children).length, ?_⟩
  generalize hm : n + (first ++ (fresh key [] (walk key children n [] first)).flatMap children).length = m
  obtain ⟨left, hleft, hlen⟩ := walk_order key children m [] first
  obtain ⟨more, hmore⟩ : walk key children n [] first <+: walk key children m [] first := by
    rw [← hm]
    exact Worklist.walk_prefix _ _ _ _ _ _
  obtain ⟨others, hothers⟩ := fresh_append_prefix key [] (walk key children n [] first) more
  have hahead : first ++ (fresh key [] (walk key children n [] first)).flatMap children <+:
      walk key children m [] first ++ left := by
    rw [hleft, ← hmore, ← hothers, List.flatMap_append, ← List.append_assoc]
    exact List.prefix_append _ _
  by_cases hshort : (walk key children m [] first).length < m
  · rwa [hlen hshort, List.append_nil] at hahead
  · exact List.prefix_of_prefix_length_le hahead (List.prefix_append _ _) (by omega)

/-- The walk meets what can be reached. -/
theorem walk_reached (key : ι → κ) (children : ι → List ι) (n : ℕ) (first : List ι) :
    ∀ j ∈ walk key children n [] first, Reached children first j := by
  have hgen : ∀ n seen queue, (∀ j ∈ queue, Reached children first j) →
      ∀ j ∈ walk key children n seen queue, Reached children first j := by
    intro n
    induction n with
    | zero => exact fun seen queue _ j hj => absurd hj List.not_mem_nil
    | succ n ih =>
        intro seen queue hqueue j hj
        cases queue with
        | nil => cases hj
        | cons item queue =>
            rw [walk_cons] at hj
            have hitem := hqueue item List.mem_cons_self
            rcases List.mem_cons.mp hj with rfl | hj
            · exact hitem
            · split_ifs at hj
              · exact ih _ _ (fun k hk => hqueue k (List.mem_cons_of_mem _ hk)) j hj
              · refine ih _ _ (fun k hk => ?_) j hj
                rcases List.mem_append.mp hk with hk | hk
                · exact hqueue k (List.mem_cons_of_mem _ hk)
                · exact .child hitem hk
  exact hgen n [] first fun j hj => .first hj

/-- **Fairness.**  The walk comes to everything that can be reached. -/
theorem exists_mem_walk {key : ι → κ} {first : List ι} (hdet : KeyDetermines key children first)
    {i : ι} (h : Reached children first i) : ∃ n, i ∈ walk key children n [] first := by
  induction h with
  | @first i hi =>
      obtain ⟨m, hm⟩ := walk_grows key children 0 first
      exact ⟨m, hm.subset (List.mem_append_left _ hi)⟩
  | @child i j hi hj ih =>
      obtain ⟨n, hn⟩ := ih
      obtain ⟨i', hi', hkey⟩ := exists_fresh key [] hn List.not_mem_nil
      obtain ⟨m, hm⟩ := walk_grows key children n first
      refine ⟨m, hm.subset (List.mem_append_right _ (List.mem_flatMap.mpr ⟨i', hi', ?_⟩))⟩
      rw [hdet i' i (walk_reached _ _ _ _ i' (mem_of_mem_fresh hi').1) hi hkey]
      exact hj

theorem exists_subset_walk {key : ι → κ} {first : List ι} (hdet : KeyDetermines key children first)
    (h : ∀ i ∈ items, Reached children first i) : ∃ n, items ⊆ walk key children n [] first := by
  induction items with
  | nil => exact ⟨0, List.nil_subset _⟩
  | cons i items ih =>
      obtain ⟨n, hn⟩ := ih fun j hj => h j (List.mem_cons_of_mem _ hj)
      obtain ⟨m, hm⟩ := exists_mem_walk hdet (h i List.mem_cons_self)
      refine ⟨n + m, List.cons_subset.mpr ⟨?_, ?_⟩⟩
      · rw [Nat.add_comm]
        exact (Worklist.walk_prefix key children m n [] first).subset hm
      · exact fun j hj => (Worklist.walk_prefix key children n m [] first).subset (hn hj)

/-- **Up to their order, the items of a run are among those of any walk that goes far enough.** -/
theorem Steps.subperm_walk {first : List ι} (h : W.Steps s items t) (hW : W.Gives children₁)
    (hfirst : s.queue.Perm first) (hchildren : ∀ i, (children₁ i).Perm (children i))
    (hdet : KeyDetermines W.key children first) (hseen : s.seen = []) :
    ∃ n, (items ++ t.queue).Subperm (walk W.key children n [] first) := by
  have hreached : ∀ i ∈ items, Reached children first i := fun i hi =>
    (h.reached hW i (List.mem_append_left _ hi)).congr hfirst.subset fun i => (hchildren i).subset
  obtain ⟨n, hn⟩ := exists_subset_walk hdet hreached
  obtain ⟨m, hm⟩ := walk_grows W.key children n first
  refine ⟨m, List.Subperm.trans ?_ hm.sublist.subperm⟩
  have horder := h.order hW
  rw [hseen] at horder
  rw [horder]
  generalize hfar : fresh W.key [] (walk W.key children n [] first) = far
  have hnodup : (far.map W.key).Nodup := by
    rw [← hfar]
    exact fresh_keys_nodup _ _ _
  have hin : ∀ i ∈ fresh W.key [] items, ∃ j ∈ far, W.key j = W.key i := by
    intro i hi
    rw [← hfar]
    exact exists_fresh W.key [] (hn (mem_of_mem_fresh hi).1) List.not_mem_nil
  have hsub : (fresh W.key [] items).map W.key ⊆ far.map W.key := by
    intro k hk
    obtain ⟨i, hi, rfl⟩ := List.mem_map.mp hk
    obtain ⟨j, hj, hkey⟩ := hin i hi
    exact List.mem_map.mpr ⟨j, hj, hkey⟩
  -- both are read off the keys, through the items of the walk
  have hflat : far.flatMap children = (far.map W.key).flatMap (childrenOf W.key children far) := by
    rw [List.flatMap_map]
    exact List.flatMap_congr fun i hi => (childrenOf_key hnodup hi).symm
  have hflat' : ((fresh W.key [] items).flatMap children₁).Perm
      (((fresh W.key [] items).map W.key).flatMap (childrenOf W.key children far)) := by
    rw [List.flatMap_map]
    apply List.Perm.flatMap_left
    intro i hi
    obtain ⟨j, hj, hkey⟩ := hin i hi
    have hj' : Reached children first j := by
      rw [← hfar] at hj
      exact walk_reached _ _ _ _ j (mem_of_mem_fresh hj).1
    rw [← hkey, childrenOf_key hnodup hj,
      hdet j i hj' (hreached i (mem_of_mem_fresh hi).1) hkey]
    exact hchildren i
  rw [hflat]
  refine List.Subperm.trans ?_
    ((List.subperm_append_left first).mpr
      (flatMap_subperm _ (List.subperm_of_subset (fresh_keys_nodup _ _ _) hsub)))
  exact (hfirst.append hflat').subperm

/-- **Two finished runs take the same items**, up to their order. -/
theorem Steps.perm (h₁ : W₁.Steps s₁ items₁ t₁) (h₂ : W₂.Steps s₂ items₂ t₂)
    (hW₁ : W₁.Gives children₁) (hW₂ : W₂.Gives children₂) (hkeys : W₁.key = W₂.key)
    (hfirst : s₁.queue.Perm s₂.queue) (hchildren : ∀ i, (children₁ i).Perm (children₂ i))
    (hdet₁ : KeyDetermines W₁.key children₁ s₁.queue) (hdet₂ : KeyDetermines W₂.key children₂ s₂.queue)
    (hseen₁ : s₁.seen = []) (hseen₂ : s₂.seen = []) (hqueue₁ : t₁.queue = []) (hqueue₂ : t₂.queue = []) :
    items₁.Perm items₂ := by
  obtain ⟨n, hn⟩ := h₁.subperm_walk hW₁ hfirst hchildren (hkeys ▸ hdet₂) hseen₁
  obtain ⟨m, hm⟩ := h₂.subperm_walk hW₂ hfirst.symm (fun i => (hchildren i).symm) (hkeys ▸ hdet₁) hseen₂
  have hwalk₁ := h₁.walk_prefix hW₁ hqueue₁ m
  have hwalk₂ := h₂.walk_prefix hW₂ hqueue₂ n
  rw [hseen₁, hkeys] at hwalk₁
  rw [hseen₂, ← hkeys] at hwalk₂
  rw [hqueue₁, List.append_nil] at hn
  rw [hqueue₂, List.append_nil] at hm
  exact (hn.trans hwalk₂.sublist.subperm).antisymm (hm.trans hwalk₁.sublist.subperm)

/-! ## Termination -/

/-- **Termination.**  A run ends when the keys that can be reached are finitely many: an item with a new
key takes one of them, and any other item only leaves the queue. -/
theorem run_terminates (hW : W.Gives children) (keys : Finset κ)
    (hkeys : ∀ i, Reached children s.queue i → W.key i ∈ keys) : ∃ fuel out, W.run fuel s = some out := by
  have hgen : ∀ first, (∀ i, Reached children first i → W.key i ∈ keys) → ∀ n queue (s : State ι κ σ),
      s.queue = queue → (∀ i ∈ queue, Reached children first i) → (keys \ s.seen.toFinset).card = n →
      ∃ fuel out, W.run fuel s = some out := by
    intro first hfirst n
    induction n using Nat.strong_induction_on with
    | _ n ihn =>
      intro queue
      induction queue with
      | nil => exact fun s hqueue _ _ => ⟨0, _, run_nil hqueue⟩
      | cons item queue ih =>
          intro s hqueue hreached hcard
          have hitem := hreached item List.mem_cons_self
          cases hstep : W.step item { s with queue := queue } with
          | error e => exact ⟨1, _, run_error hqueue hstep⟩
          | ok s' =>
              suffices h : ∃ fuel out, W.run fuel s' = some out by
                obtain ⟨fuel, out, hrun⟩ := h
                exact ⟨fuel + 1, out, (run_ok hqueue hstep).trans hrun⟩
              obtain ⟨acc, _, ⟨_, rfl⟩ | ⟨hseen, acc', new, hexpand, rfl⟩⟩ := step_cases hstep
              · exact ih _ rfl (fun i hi => hreached i (List.mem_cons_of_mem _ hi)) hcard
              · refine ihn _ ?_ _ _ rfl ?_ rfl
                · rw [← hcard]
                  apply Finset.card_lt_card
                  rw [Finset.ssubset_iff_of_subset]
                  · refine ⟨W.key item, ?_, ?_⟩
                    · rw [Finset.mem_sdiff, List.mem_toFinset]
                      exact ⟨hfirst item hitem, hseen⟩
                    · simp
                  · intro k hk
                    rw [Finset.mem_sdiff, List.mem_toFinset] at hk ⊢
                    exact ⟨hk.1, fun h => hk.2 (List.mem_cons_of_mem _ h)⟩
                · intro i hi
                  rcases List.mem_append.mp hi with hi | hi
                  · exact hreached i (List.mem_cons_of_mem _ hi)
                  · rw [hW acc item acc' new hexpand] at hi
                    exact .child hitem hi
  exact hgen s.queue hkeys _ _ s rfl (fun i hi => .first hi) rfl

end Worklist

end Visuall
