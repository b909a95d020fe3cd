import Visuall.Lib.Split

/-!
# Cutting a text at a pattern

The leftmost occurrences of a pattern that do not overlap, and the parts of the text between them.

* `cutAt` — the parts; put together with the pattern between them they are the text;
* `occurrences` — how many occurrences there are, counted from left to right;
* `find_cases` — a search finds the first occurrence, or there is none.
-/

namespace Visuall.Split

variable {α : Type*} [DecidableEq α] {pat s m : List α} {i : ℕ}

/-! ### The first occurrence -/

/-- The text in front of an occurrence, the occurrence and the text behind it. -/
theorem find_cut (h : find pat s = some i) :
    i + pat.length ≤ s.length ∧ s = s.take i ++ (pat ++ s.drop (i + pat.length)) := by
  obtain ⟨⟨r, hr⟩, hi, -⟩ := find_spec h
  have hlen := congrArg List.length hr
  rw [List.length_append, List.length_drop] at hlen
  refine ⟨by omega, ?_⟩
  rw [← List.drop_drop, ← hr, List.drop_left, hr, List.take_append_drop]

theorem not_infix_of_find_none (h : find pat s = none) : ¬ pat <:+: s := by
  rintro ⟨u, r, rfl⟩
  obtain ⟨i, -, hi⟩ := find_isSome u pat r
  rw [List.append_assoc] at h
  rw [h] at hi
  cases hi

/-- In front of the first occurrence there is none. -/
theorem not_infix_take (hpat : pat ≠ []) (h : find pat s = some i) : ¬ pat <:+: s.take i := by
  rintro ⟨u, r, hur⟩
  have hpos := List.length_pos_iff.mpr hpat
  have hlen := congrArg List.length hur
  rw [List.length_append, List.length_append, List.length_take] at hlen
  refine (find_spec h).2.2 u.length (by omega) ⟨r ++ s.drop i, ?_⟩
  have hs : s = u ++ (pat ++ (r ++ s.drop i)) := by
    rw [← List.append_assoc, ← List.append_assoc, hur, List.take_append_drop]
  rw [show s.drop u.length = pat ++ (r ++ s.drop i) by
    nth_rewrite 1 [hs]
    exact List.drop_left]

theorem length_behind (hpat : pat ≠ []) (h : find pat s = some i) : (s.drop (i + pat.length)).length < s.length := by
  have hpos := List.length_pos_iff.mpr hpat
  have := (find_cut h).1
  rw [List.length_drop]
  omega

/-! ### The parts -/

/-- The parts of a text between the leftmost occurrences of the pattern that do not overlap. -/
def cutAt (pat : List α) (hpat : pat ≠ []) (s : List α) : List (List α) :=
  match _h : find pat s with
  | none => [s]
  | some i => s.take i :: cutAt pat hpat (s.drop (i + pat.length))
termination_by s.length
decreasing_by exact length_behind hpat _h

theorem cutAt_of_none (hpat : pat ≠ []) (h : find pat s = none) : cutAt pat hpat s = [s] := by
  rw [cutAt]
  split
  · rfl
  · next heq =>
    rw [h] at heq
    cases heq

theorem cutAt_of_some (hpat : pat ≠ []) (h : find pat s = some i) :
    cutAt pat hpat s = s.take i :: cutAt pat hpat (s.drop (i + pat.length)) := by
  rw [cutAt]
  split
  · next heq =>
    rw [h] at heq
    cases heq
  · next heq =>
    rw [h] at heq
    cases heq
    rfl

/-- **Induction over the occurrences.** -/
theorem occurrence_induction {P : List α → Prop} (hpat : pat ≠ []) (hnone : ∀ s, find pat s = none → P s)
    (hsome : ∀ s i, find pat s = some i → P (s.drop (i + pat.length)) → P s) (s : List α) : P s := by
  induction hn : s.length using Nat.strong_induction_on generalizing s with
  | _ n ih =>
      cases hf : find pat s with
      | none => exact hnone s hf
      | some i => exact hsome s i hf (ih _ (hn ▸ length_behind hpat hf) _ rfl)

theorem cutAt_ne_nil (hpat : pat ≠ []) : cutAt pat hpat s ≠ [] := by
  cases h : find pat s with
  | none =>
      rw [cutAt_of_none hpat h]
      exact List.cons_ne_nil _ _
  | some i =>
      rw [cutAt_of_some hpat h]
      exact List.cons_ne_nil _ _

/-- The parts with the pattern between them are the text. -/
theorem intercalate_cutAt (hpat : pat ≠ []) (s : List α) : pat.intercalate (cutAt pat hpat s) = s := by
  induction s using occurrence_induction hpat with
  | hnone s h => rw [cutAt_of_none hpat h, List.intercalate_singleton]
  | hsome s i h ih =>
      rw [cutAt_of_some hpat h, List.intercalate_cons_of_ne_nil (cutAt_ne_nil hpat), ih, List.append_assoc]
      exact (find_cut h).2.symm

/-- No part contains the pattern. -/
theorem not_infix_of_mem_cutAt (hpat : pat ≠ []) (h : m ∈ cutAt pat hpat s) : ¬ pat <:+: m := by
  induction s using occurrence_induction hpat with
  | hnone s hnone =>
      rw [cutAt_of_none hpat hnone, List.mem_singleton] at h
      exact h ▸ not_infix_of_find_none hnone
  | hsome s i hsome ih =>
      rw [cutAt_of_some hpat hsome] at h
      rcases List.mem_cons.mp h with rfl | h
      · exact not_infix_take hpat hsome
      · exact ih h

/-! ### How many there are -/

/-- The number of leftmost occurrences that do not overlap: where the pattern stands, the text is passed by its
length, and elsewhere by one. -/
def occurrences (pat : List α) (hpat : pat ≠ []) (s : List α) : ℕ :=
  match s with
  | [] => 0
  | a :: s =>
    if pat <+: a :: s then occurrences pat hpat ((a :: s).drop pat.length) + 1 else occurrences pat hpat s
termination_by s.length
decreasing_by
  · have := List.length_pos_iff.mpr hpat
    rw [List.length_drop, List.length_cons]
    omega
  · exact Nat.lt_succ_self _

theorem occurrences_of_none (hpat : pat ≠ []) (h : find pat s = none) : occurrences pat hpat s = 0 := by
  induction s with
  | nil => rw [occurrences]
  | cons a s ih =>
      rw [find] at h
      split at h
      · cases h
      · next hnot =>
        rw [occurrences, if_neg hnot]
        exact ih (by simpa using h)

theorem occurrences_of_some (hpat : pat ≠ []) (h : find pat s = some i) :
    occurrences pat hpat s = occurrences pat hpat (s.drop (i + pat.length)) + 1 := by
  induction s generalizing i with
  | nil =>
      rw [find, if_neg hpat] at h
      cases h
  | cons a s ih =>
      rw [find] at h
      split at h
      · next hstands =>
        cases h
        rw [occurrences, if_pos hstands, Nat.zero_add]
      · next hnot =>
        obtain ⟨j, hj, rfl⟩ := Option.map_eq_some_iff.mp h
        rw [occurrences, if_neg hnot, ih hj, show j + 1 + pat.length = j + pat.length + 1 by omega, List.drop_succ_cons]

theorem length_cutAt (hpat : pat ≠ []) (s : List α) :
    (cutAt pat hpat s).length = occurrences pat hpat s + 1 := by
  induction s using occurrence_induction hpat with
  | hnone s h => rw [cutAt_of_none hpat h, occurrences_of_none hpat h, List.length_singleton]
  | hsome s i h ih => rw [cutAt_of_some hpat h, occurrences_of_some hpat h, List.length_cons, ih]

/-- The length of the text with another text in place of each occurrence. -/
theorem length_intercalate_cutAt (hpat : pat ≠ []) (new s : List α) :
    (new.intercalate (cutAt pat hpat s)).length + occurrences pat hpat s * pat.length =
      s.length + occurrences pat hpat s * new.length := by
  induction s using occurrence_induction hpat with
  | hnone s h => rw [cutAt_of_none hpat h, occurrences_of_none hpat h, List.intercalate_singleton, zero_mul, zero_mul]
  | hsome s i h ih =>
      have hcut := (find_cut h).1
      rw [List.length_drop] at ih
      rw [cutAt_of_some hpat h, occurrences_of_some hpat h, List.intercalate_cons_of_ne_nil (cutAt_ne_nil hpat),
        List.length_append, List.length_append, List.length_take, Nat.add_one_mul, Nat.add_one_mul]
      omega

theorem occurrences_le (hpat : pat ≠ []) (s : List α) : occurrences pat hpat s ≤ s.length := by
  induction s using occurrence_induction hpat with
  | hnone s h => rw [occurrences_of_none hpat h]; exact Nat.zero_le _
  | hsome s i h ih =>
      have := length_behind hpat h
      rw [occurrences_of_some hpat h]
      omega

end Visuall.Split
