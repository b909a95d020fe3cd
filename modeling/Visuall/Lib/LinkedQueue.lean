import Mathlib

/-!
# Intrusive linked lists

A list threaded through its own nodes: `next a` is the node after `a`, and a list is given by the
node at its head.  The same `next` may thread several lists; the frame lemmas say when changing it
leaves one of them alone.

* `Linked next head l` — following `next` from `head` meets exactly the nodes `l` and then ends;
* `Linked.unique`, `Linked.nodup` — a terminated list is determined by its head and has no cycle;
* `lastFrom` — the walk to the last node;
* `Linked.snoc`, `Linked.bypass` — appending a node at the end, leaving one out.
-/

namespace Visuall

variable {α : Type*} {next next' : α → Option α} {head : Option α} {a b : α} {l m : List α}

/-- Following `next` from `head` meets the nodes `l`, then ends. -/
def Linked (next : α → Option α) : Option α → List α → Prop
  | head, [] => head = none
  | head, a :: l => head = some a ∧ Linked next (next a) l

namespace Linked

@[simp] theorem nil_iff : Linked next head [] ↔ head = none := Iff.rfl

@[simp] theorem cons_iff :
    Linked next head (a :: l) ↔ head = some a ∧ Linked next (next a) l := Iff.rfl

theorem none_iff : Linked next none l ↔ l = [] := by
  cases l with
  | nil => simp
  | cons a l => simp

theorem some_iff : Linked next (some a) l ↔ ∃ m, l = a :: m ∧ Linked next (next a) m := by
  cases l with
  | nil => simp
  | cons b l =>
      rw [cons_iff, Option.some.injEq]
      constructor
      · rintro ⟨rfl, h⟩
        exact ⟨l, rfl, h⟩
      · rintro ⟨m, hm, h⟩
        obtain ⟨rfl, rfl⟩ := List.cons.inj hm
        exact ⟨rfl, h⟩

/-- The head determines the list. -/
theorem unique (hl : Linked next head l) (hm : Linked next head m) : l = m := by
  induction l generalizing head m with
  | nil =>
      rw [nil_iff] at hl
      subst hl
      exact (none_iff.mp hm).symm
  | cons a l ih =>
      obtain ⟨rfl, hl⟩ := hl
      obtain ⟨m', rfl, hm'⟩ := some_iff.mp hm
      rw [ih hl hm']

/-- The list from any of its nodes on is a suffix. -/
theorem exists_suffix (hl : Linked next head l) (ha : a ∈ l) :
    ∃ m, Linked next (some a) (a :: m) ∧ (a :: m) <:+ l := by
  induction l generalizing head with
  | nil => exact absurd ha List.not_mem_nil
  | cons b l ih =>
      obtain ⟨rfl, hl'⟩ := hl
      rcases List.mem_cons.mp ha with rfl | ha
      · exact ⟨l, ⟨rfl, hl'⟩, List.suffix_rfl⟩
      · obtain ⟨m, hm, hsuf⟩ := ih hl' ha
        exact ⟨m, hm, hsuf.trans (List.suffix_cons b l)⟩

/-- **A terminated list has no cycle.** -/
theorem nodup (hl : Linked next head l) : l.Nodup := by
  induction l generalizing head with
  | nil => exact List.nodup_nil
  | cons a l ih =>
      obtain ⟨rfl, hl'⟩ := hl
      refine List.nodup_cons.mpr ⟨fun ha => ?_, ih hl'⟩
      -- a second visit to `a` would be followed by the same list again, which is too long
      obtain ⟨m, hm, hsuf⟩ := hl'.exists_suffix ha
      have heq : a :: l = a :: m := unique ⟨rfl, hl'⟩ hm
      have := hsuf.length_le
      rw [← heq, List.length_cons] at this
      omega

/-- Only the links of the nodes on the list matter. -/
theorem congr (hl : Linked next head l) (h : ∀ a ∈ l, next' a = next a) : Linked next' head l := by
  induction l generalizing head with
  | nil => exact hl
  | cons a l ih =>
      obtain ⟨rfl, hl'⟩ := hl
      refine ⟨rfl, ?_⟩
      rw [h a List.mem_cons_self]
      exact ih hl' fun b hb => h b (List.mem_cons_of_mem _ hb)

/-- The list behind one of its nodes. -/
theorem behind (hl : Linked next head (l ++ b :: m)) : Linked next (next b) m := by
  induction l generalizing head with
  | nil => exact hl.2
  | cons a l ih => exact ih hl.2

section Update

variable [DecidableEq α]

theorem update_of_notMem {n : Option α} (hl : Linked next head l) (ha : a ∉ l) :
    Linked (Function.update next a n) head l :=
  hl.congr fun _ hb => Function.update_of_ne (ne_of_mem_of_not_mem hb ha) _ _

theorem tail (hl : Linked next head (a :: l)) :
    Linked (Function.update next a none) (next a) l :=
  hl.2.update_of_notMem (List.nodup_cons.mp hl.nodup).1

/-- Leaving out the node behind another one. -/
theorem bypass (hl : Linked next head (l ++ a :: b :: m)) :
    Linked (Function.update next a (next b)) head (l ++ a :: m) := by
  have hnodup := hl.nodup
  induction l generalizing head with
  | nil =>
      obtain ⟨ha, -, hm⟩ := hl
      have hnot : a ∉ m := fun h => (List.nodup_cons.mp hnodup).1 (List.mem_cons_of_mem _ h)
      refine ⟨ha, ?_⟩
      rw [Function.update_self]
      exact hm.update_of_notMem hnot
  | cons c l ih =>
      obtain ⟨hc, hl'⟩ := hl
      obtain ⟨hnot, hnodup'⟩ := List.nodup_cons.mp hnodup
      have hca : c ≠ a := by
        rintro rfl
        exact hnot (List.mem_append_right _ List.mem_cons_self)
      refine ⟨hc, ?_⟩
      rw [Function.update_of_ne hca]
      exact ih hl' hnodup'

/-- **Appending.**  Linking a new last node behind the old one. -/
theorem snoc (hl : Linked next head (l ++ [b])) (hc : next a = none) (ha : a ∉ l ++ [b]) :
    Linked (Function.update next b (some a)) head (l ++ [b] ++ [a]) := by
  induction l generalizing head with
  | nil =>
      obtain ⟨hb, -⟩ := hl
      have hab : a ≠ b := by simpa using ha
      simp [hb, Function.update_of_ne hab, hc]
  | cons c l ih =>
      obtain ⟨hac, hl'⟩ := hl
      have hbc : c ≠ b := by
        have hnd : (c :: (l ++ [b])).Nodup := nodup ⟨hac, hl'⟩
        intro h
        exact (List.nodup_cons.mp hnd).1 (by simp [h])
      refine ⟨hac, ?_⟩
      rw [Function.update_of_ne hbc]
      exact ih hl' fun h => ha (List.mem_cons_of_mem _ h)

end Update

end Linked

/-- The walk to the last node: `while (cur->next) cur = cur->next`, within `fuel` tests. -/
def lastFrom (next : α → Option α) : ℕ → α → Option α
  | 0, _ => none
  | fuel + 1, cur =>
      match next cur with
      | none => some cur
      | some b => lastFrom next fuel b

/-- A walk that ends, ends at the last node. -/
theorem lastFrom_eq_last {fuel : ℕ} (hl : Linked next (some a) l)
    (h : lastFrom next fuel a = some b) : ∃ m, l = m ++ [b] := by
  induction fuel generalizing a l with
  | zero => exact absurd h (by simp [lastFrom])
  | succ fuel ih =>
      obtain ⟨m, rfl, hm⟩ := Linked.some_iff.mp hl
      rw [lastFrom] at h
      cases hn : next a with
      | none =>
          rw [hn] at h hm
          obtain rfl := Linked.none_iff.mp hm
          exact ⟨[], by rw [Option.some.inj h, List.nil_append]⟩
      | some c =>
          rw [hn] at h hm
          obtain ⟨m', rfl⟩ := ih hm h
          exact ⟨a :: m', rfl⟩

end Visuall
