import Mathlib

/-!
# Separate chaining

A hash table as a list of chains.  Every record stands in the chain of its home bucket, and no key has two records.

* `Chained` — the invariant;
* `find?_chain` — a search in the home chain finds the record of a key, wherever it stands;
* `push`, `pushAll` — new records in front of their chains, for an insertion and for a larger table;
* `set_map` — a change of the record of one key.
-/

namespace Visuall.Chaining

variable {α κ : Type} {key : α → κ} {home : κ → ℕ} {bs : List (List α)} {a : α} {k : κ}

/-- A table for the keys of its records. -/
structure Chained (key : α → κ) (home : κ → ℕ) (bs : List (List α)) : Prop where
  bounded : ∀ k, home k < bs.length
  placed : ∀ i, ∀ a ∈ bs.getD i [], home (key a) = i
  nodup : (bs.flatten.map key).Nodup

theorem mem_flatten_iff : a ∈ bs.flatten ↔ ∃ i, a ∈ bs.getD i [] := by
  constructor
  · intro h
    obtain ⟨chain, hchain, ha⟩ := List.mem_flatten.mp h
    obtain ⟨i, hi, rfl⟩ := List.getElem_of_mem hchain
    exact ⟨i, by rwa [List.getD_eq_getElem _ _ hi]⟩
  · rintro ⟨i, ha⟩
    by_cases hi : i < bs.length
    · rw [List.getD_eq_getElem _ _ hi] at ha
      exact List.mem_flatten.mpr ⟨_, List.getElem_mem hi, ha⟩
    · rw [List.getD_eq_default _ _ (Nat.not_lt.mp hi)] at ha
      cases ha

theorem Chained.unique (h : Chained key home bs) {b : α} (ha : a ∈ bs.flatten) (hb : b ∈ bs.flatten)
    (heq : key a = key b) : a = b :=
  List.inj_on_of_nodup_map h.nodup ha hb heq

/-- The home chain has the keys of the table that belong there. -/
theorem Chained.mem_chain_iff (h : Chained key home bs) : k ∈ (bs.getD (home k) []).map key ↔ k ∈ bs.flatten.map key := by
  rw [List.mem_map, List.mem_map]
  constructor
  · rintro ⟨a, ha, rfl⟩
    exact ⟨a, mem_flatten_iff.mpr ⟨_, ha⟩, rfl⟩
  · rintro ⟨a, ha, rfl⟩
    obtain ⟨i, hi⟩ := mem_flatten_iff.mp ha
    exact ⟨a, by rwa [h.placed i a hi], rfl⟩

theorem Chained.chain_nodup (h : Chained key home bs) (i : ℕ) : ((bs.getD i []).map key).Nodup := by
  by_cases hi : i < bs.length
  · have hnodup := h.nodup
    rw [List.map_flatten, List.nodup_flatten] at hnodup
    rw [List.getD_eq_getElem _ _ hi]
    exact hnodup.1 _ (List.mem_map_of_mem (List.getElem_mem hi))
  · rw [List.getD_eq_default _ _ (Nat.not_lt.mp hi)]
    exact List.nodup_nil

section Search

variable [DecidableEq κ]

/-- The search in the home chain. -/
theorem find?_chain (h : Chained key home bs) :
    (bs.getD (home k) []).find? (fun b => key b = k) = some a ↔ a ∈ bs.flatten ∧ key a = k := by
  constructor
  · intro hfind
    exact ⟨mem_flatten_iff.mpr ⟨_, List.mem_of_find?_eq_some hfind⟩, by simpa using List.find?_some hfind⟩
  · rintro ⟨ha, rfl⟩
    obtain ⟨i, hi⟩ := mem_flatten_iff.mp ha
    rw [← h.placed i a hi] at hi
    cases hfind : (bs.getD (home (key a)) []).find? fun b => key b = key a with
    | none => exact absurd (decide_eq_true rfl) (List.find?_eq_none.mp hfind a hi)
    | some b =>
        have hb : b ∈ bs.flatten := mem_flatten_iff.mpr ⟨_, List.mem_of_find?_eq_some hfind⟩
        have heq : key b = key a := by simpa using List.find?_some hfind
        rw [h.unique hb ha heq]

theorem find?_chain_none (h : Chained key home bs) :
    (bs.getD (home k) []).find? (fun b => key b = k) = none ↔ ∀ a ∈ bs.flatten, key a ≠ k := by
  constructor
  · intro hfind a ha heq
    rw [(find?_chain h).mpr ⟨ha, heq⟩] at hfind
    cases hfind
  · intro hall
    cases hfind : (bs.getD (home k) []).find? fun b => key b = k with
    | none => rfl
    | some b =>
        obtain ⟨hb, heq⟩ := (find?_chain h).mp hfind
        exact absurd heq (hall b hb)

end Search

theorem getD_replicate (n i : ℕ) : (List.replicate n ([] : List α)).getD i [] = [] := by
  rw [List.getD_eq_getElem?_getD, List.getElem?_replicate]
  split <;> rfl

theorem Chained.empty {n : ℕ} (h : ∀ k, home k < n) : Chained key home (List.replicate n []) where
  bounded k := by
    rw [List.length_replicate]
    exact h k
  placed i a ha := by
    rw [getD_replicate] at ha
    cases ha
  nodup := by
    rw [List.flatten_replicate_nil]
    exact List.nodup_nil

/-! ### New records -/

/-- A record at the head of its chain. -/
def push (key : α → κ) (home : κ → ℕ) (bs : List (List α)) (a : α) : List (List α) :=
  bs.set (home (key a)) (a :: bs.getD (home (key a)) [])

theorem getD_set {i j : ℕ} (hi : i < bs.length) (chain : List α) :
    (bs.set i chain).getD j [] = if j = i then chain else bs.getD j [] := by
  rw [List.getD_eq_getElem?_getD, List.getD_eq_getElem?_getD, List.getElem?_set]
  by_cases h : i = j
  · subst h
    rw [if_pos rfl, if_pos hi, if_pos rfl]
    rfl
  · rw [if_neg h, if_neg (Ne.symm h)]

theorem push_perm (hbound : home (key a) < bs.length) : (push key home bs a).flatten.Perm (a :: bs.flatten) := by
  rw [push, List.getD_eq_getElem _ _ hbound]
  generalize home (key a) = i at hbound
  have hsplit : bs = bs.take i ++ bs[i] :: bs.drop (i + 1) := by
    rw [List.getElem_cons_drop, List.take_append_drop]
  rw [List.set_eq_take_append_cons_drop, if_pos hbound]
  calc (bs.take i ++ (a :: bs[i]) :: bs.drop (i + 1)).flatten
      = (bs.take i).flatten ++ a :: (bs[i] ++ (bs.drop (i + 1)).flatten) := by
        rw [List.flatten_append, List.flatten_cons, List.cons_append]
    _ |>.Perm <| a :: ((bs.take i).flatten ++ (bs[i] ++ (bs.drop (i + 1)).flatten)) := List.perm_middle
    _ = a :: bs.flatten := by
        rw [← List.flatten_cons, ← List.flatten_append, ← hsplit]

theorem Chained.push (h : Chained key home bs) (hnew : ∀ b ∈ bs.flatten, key b ≠ key a) :
    Chained key home (push key home bs a) where
  bounded k := by
    rw [Chaining.push, List.length_set]
    exact h.bounded k
  placed i b hb := by
    rw [Chaining.push, getD_set (h.bounded _)] at hb
    split at hb
    · rename_i hi
      rcases List.mem_cons.mp hb with rfl | hb
      · exact hi.symm
      · exact (h.placed _ b hb).trans hi.symm
    · exact h.placed i b hb
  nodup := by
    rw [((push_perm (h.bounded _)).map key).nodup_iff, List.map_cons, List.nodup_cons]
    refine ⟨fun hmem => ?_, h.nodup⟩
    obtain ⟨b, hb, heq⟩ := List.mem_map.mp hmem
    exact hnew b hb heq

/-- Records with different keys, pushed into an empty table. -/
theorem pushAll {as : List α} (h : Chained key home bs) (hnodup : ((as ++ bs.flatten).map key).Nodup) :
    Chained key home (as.foldl (Chaining.push key home) bs) ∧
      (as.foldl (Chaining.push key home) bs).flatten.Perm (as ++ bs.flatten) := by
  induction as generalizing bs with
  | nil => exact ⟨h, List.Perm.refl _⟩
  | cons a as ih =>
      have hperm : (Chaining.push key home bs a).flatten.Perm (a :: bs.flatten) := push_perm (h.bounded _)
      have hmoved : (as ++ (Chaining.push key home bs a).flatten).Perm (a :: as ++ bs.flatten) :=
        (hperm.append_left as).trans List.perm_middle
      rw [List.cons_append, List.map_cons, List.nodup_cons] at hnodup
      have hnew : ∀ b ∈ bs.flatten, key b ≠ key a := fun b hb heq =>
        hnodup.1 (List.mem_map.mpr ⟨b, List.mem_append_right _ hb, heq⟩)
      obtain ⟨hchained, hall⟩ := ih (h.push hnew) (by
        rw [(hmoved.map key).nodup_iff, List.cons_append, List.map_cons, List.nodup_cons]
        exact hnodup)
      exact ⟨hchained, hall.trans hmoved⟩

/-! ### A change of one record -/

/-- A change of the record of one key in its chain is the change in the whole table. -/
theorem set_map (h : Chained key home bs) {f : α → α} (hf : ∀ a, key a ≠ k → f a = a) :
    bs.set (home k) ((bs.getD (home k) []).map f) = bs.map (List.map f) := by
  refine List.ext_getElem (by rw [List.length_set, List.length_map]) fun i hi hi' => ?_
  rw [List.length_set] at hi
  rw [List.getElem_map, List.getElem_set]
  split
  · rename_i heq
    subst heq
    rw [List.getD_eq_getElem _ _ hi]
  · rename_i hne
    have hfix : bs[i].map f = bs[i].map id := List.map_congr_left fun a ha => hf a fun heq => hne <| by
      rw [← heq]
      exact h.placed i a (by rwa [List.getD_eq_getElem _ _ hi])
    rw [hfix, List.map_id]

theorem Chained.map (h : Chained key home bs) {f : α → α} (hf : ∀ a, key (f a) = key a) :
    Chained key home (bs.map (List.map f)) where
  bounded k := by
    rw [List.length_map]
    exact h.bounded k
  placed i a ha := by
    have hchain : (bs.map (List.map f)).getD i [] = (bs.getD i []).map f := by
      rw [List.getD_eq_getElem?_getD, List.getD_eq_getElem?_getD, List.getElem?_map]
      cases bs[i]? <;> rfl
    rw [hchain] at ha
    obtain ⟨b, hb, rfl⟩ := List.mem_map.mp ha
    rw [hf]
    exact h.placed i b hb
  nodup := by
    rw [← List.map_flatten, List.map_map, show key ∘ f = key from funext hf]
    exact h.nodup

end Visuall.Chaining
