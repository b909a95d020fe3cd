import Mathlib

/-!
# Joining and splitting texts

Texts are lists of characters, and pieces are joined with one separator between them.  Two ways of
taking them apart again: at every separator, and at the separators outside brackets.  Both are
described by what they do to a *prefix* of a joined text, which covers texts cut short as well.

* `joinWith sep ms` — the pieces `ms` with `sep` between them;
* `splitAll`, `splitAll_cut` — splitting at every separator;
* `splitTop`, `splitTop_prefix` — splitting at the separators outside brackets;
* `find`, `rfindChar` — the first occurrence of a text, the last of a character.
-/

namespace Visuall

/-- Texts are compared by what they are. -/
instance instLawfulBEqText : LawfulBEq (List Char) := inferInstance

/-! ### Joining -/

section Join

variable {α : Type*} {sep a : α} {s : List α} {ms : List (List α)}

/-- The pieces with the separator between them. -/
def joinWith (sep : α) : List (List α) → List α
  | [] => []
  | [s] => s
  | s :: t :: ms => s ++ sep :: joinWith sep (t :: ms)

@[simp] theorem joinWith_nil : joinWith sep [] = [] := rfl

@[simp] theorem joinWith_singleton : joinWith sep [s] = s := rfl

theorem joinWith_cons_cons {t : List α} :
    joinWith sep (s :: t :: ms) = s ++ sep :: joinWith sep (t :: ms) := rfl

theorem joinWith_cons (h : ms ≠ []) : joinWith sep (s :: ms) = s ++ sep :: joinWith sep ms := by
  cases ms with
  | nil => exact absurd rfl h
  | cons t ms => rfl

theorem joinWith_append {ns : List (List α)} (hm : ms ≠ []) (hn : ns ≠ []) :
    joinWith sep (ms ++ ns) = joinWith sep ms ++ sep :: joinWith sep ns := by
  induction ms with
  | nil => exact absurd rfl hm
  | cons s ms ih =>
      cases ms with
      | nil => rw [List.singleton_append, joinWith_cons hn, joinWith_singleton]
      | cons t ms =>
          have hne : t :: ms ++ ns ≠ [] := by simp
          rw [List.cons_append, joinWith_cons hne, ih (List.cons_ne_nil t ms),
            joinWith_cons (List.cons_ne_nil t ms), List.append_assoc, List.cons_append]

theorem mem_joinWith :
    a ∈ joinWith sep ms ↔ (∃ m ∈ ms, a ∈ m) ∨ (a = sep ∧ 2 ≤ ms.length) := by
  induction ms with
  | nil => simp
  | cons s ms ih =>
      cases ms with
      | nil => simp
      | cons t ms =>
          rw [joinWith_cons_cons, List.mem_append, List.mem_cons, ih]
          simp only [List.length_cons, List.mem_cons, exists_eq_or_imp]
          constructor
          · rintro (h | h | h | ⟨h, _⟩)
            · exact .inl (.inl h)
            · exact .inr ⟨h, by omega⟩
            · exact .inl (.inr h)
            · exact .inr ⟨h, by omega⟩
          · rintro ((h | h) | ⟨h, _⟩)
            · exact .inl h
            · exact .inr (.inr (.inl h))
            · exact .inr (.inl h)

/-- A piece is no longer than the joined text, and shorter if it is not the only one. -/
theorem length_le_joinWith (sep : α) {m : List α} (hm : m ∈ ms) :
    m.length ≤ (joinWith sep ms).length ∧ (2 ≤ ms.length → m.length < (joinWith sep ms).length) := by
  induction ms with
  | nil => exact absurd hm List.not_mem_nil
  | cons s ms ih =>
      cases ms with
      | nil =>
          rw [List.mem_singleton.mp hm]
          exact ⟨le_rfl, fun h => absurd h (by simp)⟩
      | cons t ms =>
          rw [joinWith_cons_cons, List.length_append, List.length_cons]
          rcases List.mem_cons.mp hm with rfl | hm
          · exact ⟨by omega, fun _ => by omega⟩
          · have := (ih hm).1
            exact ⟨by omega, fun _ => by omega⟩

/-- A prefix of a text with a separator in it ends before the separator or reaches past it. -/
theorem prefix_append_cons {p q r : List α} (h : q <+: p ++ a :: r) :
    q <+: p ∨ ∃ q', q = p ++ a :: q' ∧ q' <+: r := by
  rcases List.prefix_or_prefix_of_prefix h (List.prefix_append p (a :: r)) with hq | hp
  · exact .inl hq
  · obtain ⟨t, rfl⟩ := hp
    rw [List.prefix_append_right_inj] at h
    cases t with
    | nil => exact .inl (by rw [List.append_nil])
    | cons b t =>
        obtain ⟨rfl, ht⟩ := List.cons_prefix_cons.mp h
        exact .inr ⟨t, rfl, ht⟩

end Join

/-! ### Pieces -/

/-- A piece has only what the text has, and none of the separators. -/
theorem of_mem_splitOnP {α : Type*} {p : α → Bool} {s c : List α} {x : α} (hc : c ∈ s.splitOnP p) (hx : x ∈ c) :
    p x = false ∧ x ∈ s := by
  induction s generalizing c with
  | nil =>
      rw [List.mem_singleton.mp hc] at hx
      cases hx
  | cons a s ih =>
      rw [List.splitOnP_cons_eq_if_modifyHead] at hc
      by_cases ha : p a
      · rw [if_pos ha] at hc
        rcases List.mem_cons.mp hc with rfl | hc
        · cases hx
        · obtain ⟨hnot, hmem⟩ := ih hc hx
          exact ⟨hnot, List.mem_cons_of_mem _ hmem⟩
      · rw [if_neg ha] at hc
        obtain ⟨l, ls, hl⟩ := List.exists_cons_of_ne_nil (List.splitOnP_ne_nil p s)
        rw [hl, List.modifyHead_cons] at hc
        rcases List.mem_cons.mp hc with rfl | hc
        · rcases List.mem_cons.mp hx with rfl | hx
          · exact ⟨Bool.eq_false_of_not_eq_true ha, List.mem_cons_self⟩
          · obtain ⟨hnot, hmem⟩ := ih (hl ▸ List.mem_cons_self) hx
            exact ⟨hnot, List.mem_cons_of_mem _ hmem⟩
        · obtain ⟨hnot, hmem⟩ := ih (hl ▸ List.mem_cons_of_mem _ hc) hx
          exact ⟨hnot, List.mem_cons_of_mem _ hmem⟩

/-! ### Splitting at every separator -/

section SplitAll

variable {α : Type*} [DecidableEq α] {sep : α} {p q s : List α} {fuel : ℕ}

/-- The loop that cuts a text at every separator; nothing is left after a last separator.  Each
round drops a character, so `fuel` is the length. -/
def splitLoop (sep : α) : ℕ → List α → List (List α)
  | 0, _ => []
  | fuel + 1, s =>
      if s = [] then []
      else
        let piece := s.takeWhile (· ≠ sep)
        piece :: splitLoop sep fuel (s.drop (piece.length + 1))

/-- The pieces between the separators. -/
def splitAll (sep : α) (s : List α) : List (List α) := splitLoop sep s.length s

/-- More rounds than characters change nothing. -/
theorem splitLoop_fuel {fuel' : ℕ} (hf : s.length ≤ fuel) (hf' : s.length ≤ fuel') :
    splitLoop sep fuel s = splitLoop sep fuel' s := by
  induction fuel generalizing s fuel' with
  | zero =>
      obtain rfl := List.length_eq_zero_iff.mp (Nat.le_zero.mp hf)
      cases fuel' <;> rfl
  | succ fuel ih =>
      cases s with
      | nil => cases fuel' <;> rfl
      | cons a s =>
          obtain ⟨fuel', rfl⟩ : ∃ k, fuel' = k + 1 := ⟨fuel' - 1, by simp at hf'; omega⟩
          rw [splitLoop, splitLoop, if_neg (List.cons_ne_nil a s), if_neg (List.cons_ne_nil a s)]
          simp only [List.cons.injEq, true_and]
          exact ih (by simp at hf ⊢; omega) (by simp at hf' ⊢; omega)

@[simp] theorem splitAll_nil : splitAll sep [] = [] := rfl

theorem splitAll_of_ne_nil (hs : s ≠ []) :
    splitAll sep s = s.takeWhile (· ≠ sep) ::
      splitAll sep (s.drop ((s.takeWhile (· ≠ sep)).length + 1)) := by
  cases s with
  | nil => exact absurd rfl hs
  | cons a s =>
      rw [splitAll, List.length_cons, splitLoop, if_neg hs]
      simp only [splitAll, List.cons.injEq, true_and]
      exact splitLoop_fuel (by simp) le_rfl

theorem splitAll_of_notMem (hs : s ≠ []) (h : sep ∉ s) : splitAll sep s = [s] := by
  have htake : s.takeWhile (· ≠ sep) = s := by
    rw [List.takeWhile_eq_self_iff]
    intro a ha
    simpa using ne_of_mem_of_not_mem ha h
  rw [splitAll_of_ne_nil hs, htake, List.drop_eq_nil_of_le (by omega), splitAll_nil]

theorem takeWhile_append_sep (h : sep ∉ p) : (p ++ sep :: s).takeWhile (· ≠ sep) = p := by
  rw [List.takeWhile_append_of_pos, List.takeWhile_cons_of_neg (by simp), List.append_nil]
  intro a ha
  simpa using ne_of_mem_of_not_mem ha h

theorem splitAll_append_sep (h : sep ∉ p) : splitAll sep (p ++ sep :: s) = p :: splitAll sep s := by
  rw [splitAll_of_ne_nil (by simp), takeWhile_append_sep h, List.drop_length_add_append]
  rfl

theorem splitAll_joinWith {ms : List (List α)} (h : ∀ m ∈ ms, sep ∉ m ∧ m ≠ []) :
    splitAll sep (joinWith sep ms) = ms := by
  induction ms with
  | nil => rfl
  | cons m ms ih =>
      obtain ⟨hm, hne⟩ := h m List.mem_cons_self
      cases ms with
      | nil => exact splitAll_of_notMem hne hm
      | cons t ms =>
          rw [joinWith_cons_cons, splitAll_append_sep hm,
            ih fun m hm => h m (List.mem_cons_of_mem _ hm)]

/-- A text is longer than the pieces between its separators, when it has one. -/
theorem length_of_mem_splitAll {m : List α} (hm : m ∈ splitAll sep s) :
    m.length ≤ s.length ∧ (sep ∈ s → m.length < s.length) := by
  induction h : s.length using Nat.strong_induction_on generalizing s with
  | _ n ih =>
      cases s with
      | nil => exact absurd hm List.not_mem_nil
      | cons a s =>
          rw [splitAll_of_ne_nil (List.cons_ne_nil a s)] at hm
          rcases List.mem_cons.mp hm with rfl | hm
          · have hle := (List.takeWhile_prefix (· ≠ sep) (l := a :: s)).length_le
            refine ⟨h ▸ hle, fun hmem => lt_of_le_of_ne (h ▸ hle) fun heq => ?_⟩
            have htake := (List.takeWhile_prefix (· ≠ sep) (l := a :: s)).eq_of_length (by omega)
            rw [List.takeWhile_eq_self_iff] at htake
            simpa using htake sep hmem
          · have := (ih _ (by rw [← h]; simp) hm rfl).1
            simp only [List.length_drop, List.length_cons] at this h
            exact ⟨by omega, fun _ => by omega⟩

/-- **Splitting a text cut short.**  The pieces `ms` are written as `text` and stand for `value`,
and no text cut short is read as its value.  If the pieces of a prefix of the joined texts are read
as the values, then the prefix is everything and no text has a separator in it. -/
theorem splitAll_cut {γ β : Type*} {text : γ → List α} {value : γ → β} {read : List α → β}
    {ms : List γ} (hcut : ∀ m ∈ ms, ∀ p, p <+: text m → p ≠ text m → read p ≠ value m)
    (hq : q <+: joinWith sep (ms.map text)) (h : (splitAll sep q).map read = ms.map value) :
    q = joinWith sep (ms.map text) ∧ ∀ m ∈ ms, sep ∉ text m ∧ read (text m) = value m := by
  induction ms generalizing q with
  | nil =>
      rw [List.map_nil, joinWith_nil, List.prefix_nil] at hq
      exact ⟨hq, fun m hm => absurd hm List.not_mem_nil⟩
  | cons m ms ih =>
      have hcutm := hcut m List.mem_cons_self
      have hne : q ≠ [] := by
        rintro rfl
        simp at h
      rw [splitAll_of_ne_nil hne, List.map_cons, List.map_cons, List.cons.injEq] at h
      -- the first piece is read as the first value, so it is not cut short
      have hfirst : ∀ {p}, p = q.takeWhile (· ≠ sep) → p <+: text m → p = text m := by
        intro p hp hpre
        by_contra hpm
        exact hcutm p hpre hpm (hp ▸ h.1)
      have hnot : sep ∉ q.takeWhile (· ≠ sep) := fun hmem => by
        simpa using List.mem_takeWhile_imp hmem
      have hwhole : q <+: text m → q = text m ∧ sep ∉ text m := by
        intro hpre
        have htake := hfirst rfl ((List.takeWhile_prefix _).trans hpre)
        exact ⟨hpre.eq_of_length_le (htake ▸ (List.takeWhile_prefix _).length_le), htake ▸ hnot⟩
      cases ms with
      | nil =>
          obtain ⟨hqm, hsep⟩ := hwhole hq
          refine ⟨hqm, fun m' hm' => ?_⟩
          rw [List.mem_singleton.mp hm']
          refine ⟨hsep, ?_⟩
          have htake := hfirst rfl ((List.takeWhile_prefix _).trans (hqm ▸ List.prefix_rfl))
          rw [← htake]
          exact h.1
      | cons t ms =>
          rw [List.map_cons, List.map_cons, joinWith_cons_cons] at hq
          rcases prefix_append_cons hq with hpre | ⟨q', rfl, hq'⟩
          · -- too few pieces
            obtain ⟨rfl, hsep⟩ := hwhole hpre
            have htake : (text m).takeWhile (· ≠ sep) = text m := by
              rw [List.takeWhile_eq_self_iff]
              intro a ha
              simpa using ne_of_mem_of_not_mem ha hsep
            rw [htake, List.drop_eq_nil_of_le (by omega)] at h
            simp at h
          · have hpre : (text m ++ sep :: q').takeWhile (· ≠ sep) <+: text m := by
              rcases prefix_append_cons (List.takeWhile_prefix (l := text m ++ sep :: q') (· ≠ sep))
                with hp | ⟨r, hr, -⟩
              · exact hp
              · exact absurd (by rw [hr]; simp) hnot
            have htake := hfirst rfl hpre
            have hsep : sep ∉ text m := htake ▸ hnot
            rw [htake, List.drop_length_add_append] at h
            obtain ⟨rfl, hrest⟩ := ih (fun m' hm' => hcut m' (List.mem_cons_of_mem _ hm')) hq' h.2
            refine ⟨rfl, fun m' hm' => ?_⟩
            rcases List.mem_cons.mp hm' with rfl | hm'
            · exact ⟨hsep, h.1⟩
            · exact hrest m' hm'

end SplitAll

/-! ### Splitting outside brackets -/

section SplitTop

variable {α : Type*} [DecidableEq α] {opens closes : α → Bool} {sep : α} {s t cur : List α}

/-- Cuts a text at the separators met at bracket depth 0.  Only a separator ends a piece, so the
last piece needs one behind it. -/
def splitTop (opens closes : α → Bool) (sep : α) : List α → List α → ℤ → List (List α)
  | [], _, _ => []
  | a :: s, cur, depth =>
      if opens a then splitTop opens closes sep s (cur ++ [a]) (depth + 1)
      else if closes a then splitTop opens closes sep s (cur ++ [a]) (depth - 1)
      else if a = sep ∧ depth = 0 then cur :: splitTop opens closes sep s [] depth
      else splitTop opens closes sep s (cur ++ [a]) depth

/-- The bracket depth after a text that starts at depth `d`, closes no bracket it did not open and
has no separator at depth 0. -/
def nest (opens closes : α → Bool) (sep : α) : ℕ → List α → Option ℕ
  | d, [] => some d
  | d, a :: s =>
      if opens a then nest opens closes sep (d + 1) s
      else if closes a then
        match d with
        | 0 => none
        | d + 1 => nest opens closes sep d s
      else if a = sep ∧ d = 0 then none
      else nest opens closes sep d s

/-- The text closes the brackets it opens, and its separators are inside them. -/
def Balanced (opens closes : α → Bool) (sep : α) (s : List α) : Prop :=
  nest opens closes sep 0 s = some 0

theorem nest_cons (d : ℕ) (a : α) (s : List α) :
    nest opens closes sep d (a :: s) =
      if opens a then nest opens closes sep (d + 1) s
      else if closes a then d.casesOn none fun e => nest opens closes sep e s
      else if a = sep ∧ d = 0 then none
      else nest opens closes sep d s := by
  cases d <;> rfl

theorem nest_append (d : ℕ) :
    nest opens closes sep d (s ++ t) =
      (nest opens closes sep d s).bind fun e => nest opens closes sep e t := by
  induction s generalizing d with
  | nil => rfl
  | cons a s ih =>
      rw [List.cons_append, nest_cons, nest_cons]
      split
      · exact ih _
      · split
        · cases d with
          | zero => rfl
          | succ d => exact ih d
        · split
          · rfl
          · exact ih d

/-- A text that may start at depth `d` may start deeper. -/
theorem nest_add {d e : ℕ} (h : nest opens closes sep d s = some e) (k : ℕ) :
    nest opens closes sep (d + k) s = some (e + k) := by
  induction s generalizing d with
  | nil =>
      cases h
      rfl
  | cons a s ih =>
      rw [nest_cons] at h ⊢
      split at h
      · next ho =>
        rw [if_pos ho, Nat.add_right_comm]
        exact ih h
      · next ho =>
        rw [if_neg ho]
        split at h
        · next hc =>
          rw [if_pos hc]
          cases d with
          | zero => cases h
          | succ d =>
              rw [Nat.add_right_comm]
              exact ih h
        · next hc =>
          rw [if_neg hc]
          split at h
          · cases h
          · next hs =>
            rw [if_neg fun hk => hs ⟨hk.1, by omega⟩]
            exact ih h

theorem Balanced.nest (h : Balanced opens closes sep s) (k : ℕ) :
    nest opens closes sep k s = some k := by
  simpa using nest_add h k

/-- Up to a text without separators at depth 0, only the current piece grows. -/
theorem splitTop_append {d e : ℕ} (h : nest opens closes sep d s = some e) (t cur : List α) :
    splitTop opens closes sep (s ++ t) cur d = splitTop opens closes sep t (cur ++ s) e := by
  induction s generalizing d cur with
  | nil =>
      cases h
      rw [List.nil_append, List.append_nil]
  | cons a s ih =>
      rw [nest_cons] at h
      rw [List.cons_append, splitTop]
      split at h
      · next ho =>
        rw [if_pos ho, ← Nat.cast_succ, ih h, List.append_assoc, List.singleton_append]
      · next ho =>
        rw [if_neg ho]
        split at h
        · next hc =>
          rw [if_pos hc]
          cases d with
          | zero => cases h
          | succ d =>
              rw [Nat.cast_succ, add_sub_cancel_right, ih h, List.append_assoc,
                List.singleton_append]
        · next hc =>
          rw [if_neg hc]
          split at h
          · cases h
          · next hs =>
            rw [if_neg fun hk => hs ⟨hk.1, by exact_mod_cast hk.2⟩, ih h, List.append_assoc,
              List.singleton_append]

/-- The pieces outside brackets that are not empty. -/
def topPieces (opens closes : α → Bool) (sep : α) (s : List α) : List (List α) :=
  (splitTop opens closes sep (s ++ [sep]) [] 0).filter (· ≠ [])

theorem topPieces_append_sep (ho : opens sep = false) (hc : closes sep = false)
    (hs : Balanced opens closes sep s) (hne : s ≠ []) :
    topPieces opens closes sep (s ++ sep :: t) = s :: topPieces opens closes sep t := by
  have hsplit := splitTop_append hs (sep :: (t ++ [sep])) []
  rw [Nat.cast_zero] at hsplit
  rw [topPieces, List.append_assoc, List.cons_append, hsplit, splitTop, ho, hc]
  simp [hne, topPieces]

/-- A text without separators at depth 0 is one piece, or none when a bracket is left open. -/
theorem topPieces_of_nest {e : ℕ} (ho : opens sep = false) (hc : closes sep = false)
    (hs : nest opens closes sep 0 s = some e) :
    topPieces opens closes sep s = if e = 0 ∧ s ≠ [] then [s] else [] := by
  have hsplit := splitTop_append hs [sep] []
  rw [Nat.cast_zero] at hsplit
  rw [topPieces, hsplit, splitTop, ho, hc]
  rcases Nat.eq_zero_or_pos e with rfl | he
  · by_cases hne : s = []
    · simp [hne, splitTop]
    · simp [hne, splitTop]
  · have he' : e ≠ 0 := by omega
    simp [he', splitTop]

theorem topPieces_joinWith (ho : opens sep = false) (hc : closes sep = false) {ms : List (List α)}
    (h : ∀ m ∈ ms, Balanced opens closes sep m ∧ m ≠ []) :
    topPieces opens closes sep (joinWith sep ms) = ms := by
  induction ms with
  | nil => simp [topPieces, splitTop, ho, hc]
  | cons m ms ih =>
      obtain ⟨hm, hne⟩ := h m List.mem_cons_self
      cases ms with
      | nil => rw [joinWith_singleton, topPieces_of_nest ho hc hm, if_pos ⟨rfl, hne⟩]
      | cons t ms =>
          rw [joinWith_cons_cons, topPieces_append_sep ho hc hm hne,
            ih fun m hm => h m (List.mem_cons_of_mem _ hm)]

/-- A prefix of a balanced text has no separator at depth 0 either. -/
theorem Balanced.nest_prefix {q : List α} (h : Balanced opens closes sep s) (hq : q <+: s) :
    ∃ e, Visuall.nest opens closes sep 0 q = some e := by
  obtain ⟨t, rfl⟩ := hq
  rw [Balanced, nest_append] at h
  cases hn : Visuall.nest opens closes sep 0 q with
  | none => rw [hn] at h; cases h
  | some e => exact ⟨e, rfl⟩

/-- Brackets make a balanced text of balanced pieces. -/
theorem nest_joinWith {ms : List (List α)} (h : ∀ m ∈ ms, Balanced opens closes sep m)
    (ho : opens sep = false) (hc : closes sep = false) (k : ℕ) :
    nest opens closes sep (k + 1) (joinWith sep ms) = some (k + 1) := by
  induction ms with
  | nil => rfl
  | cons m ms ih =>
      cases ms with
      | nil => exact (h m List.mem_cons_self).nest (k + 1)
      | cons t ms =>
          rw [joinWith_cons_cons, nest_append, (h m List.mem_cons_self).nest (k + 1),
            Option.bind_some, nest, ho, hc]
          simpa using ih fun m hm => h m (List.mem_cons_of_mem _ hm)

/-- **Splitting a text cut short, outside brackets.** -/
theorem topPieces_cut {γ β : Type*} {text : γ → List α} {value : γ → β} {read : List α → β}
    {ms : List γ} {q : List α} (ho : opens sep = false) (hc : closes sep = false)
    (hbal : ∀ m ∈ ms, Balanced opens closes sep (text m) ∧ text m ≠ [])
    (hcut : ∀ m ∈ ms, ∀ p, p <+: text m → p ≠ text m → read p ≠ value m)
    (hq : q <+: joinWith sep (ms.map text))
    (h : (topPieces opens closes sep q).map read = ms.map value) :
    q = joinWith sep (ms.map text) ∧ ∀ m ∈ ms, read (text m) = value m := by
  induction ms generalizing q with
  | nil =>
      rw [List.map_nil, joinWith_nil, List.prefix_nil] at hq
      exact ⟨hq, fun m hm => absurd hm List.not_mem_nil⟩
  | cons m ms ih =>
      obtain ⟨hbalm, hnem⟩ := hbal m List.mem_cons_self
      -- a prefix of the first text is at most one piece, and that piece is the first text
      have hwhole : q <+: text m → q = text m ∧ ms = [] ∧ read (text m) = value m := by
        intro hpre
        obtain ⟨e, he⟩ := hbalm.nest_prefix hpre
        rw [topPieces_of_nest ho hc he] at h
        split at h
        · simp only [List.map_cons, List.map_nil, List.cons.injEq] at h
          have hqm : q = text m := by
            by_contra hqm
            exact hcut m List.mem_cons_self q hpre hqm h.1
          exact ⟨hqm, List.map_eq_nil_iff.mp h.2.symm, hqm ▸ h.1⟩
        · simp at h
      cases ms with
      | nil =>
          obtain ⟨hqm, -, hread⟩ := hwhole hq
          refine ⟨hqm, fun m' hm' => ?_⟩
          rw [List.mem_singleton.mp hm']
          exact hread
      | cons t ms =>
          rw [List.map_cons, List.map_cons, joinWith_cons_cons] at hq
          rcases prefix_append_cons hq with hpre | ⟨q', rfl, hq'⟩
          · exact absurd (hwhole hpre).2.1 (List.cons_ne_nil t ms)
          · rw [topPieces_append_sep ho hc hbalm hnem, List.map_cons, List.map_cons,
              List.cons.injEq] at h
            obtain ⟨rfl, hrest⟩ := ih (fun m' hm' => hbal m' (List.mem_cons_of_mem _ hm'))
              (fun m' hm' => hcut m' (List.mem_cons_of_mem _ hm')) hq' h.2
            refine ⟨rfl, fun m' hm' => ?_⟩
            rcases List.mem_cons.mp hm' with rfl | hm'
            · exact h.1
            · exact hrest m' hm'

end SplitTop

/-! ### Searching -/

section Find

variable {α : Type*} [DecidableEq α] {a : α} {pat p q r s u : List α} {i : ℕ}

/-- The index of the first occurrence of a text. -/
def find (pat : List α) : List α → Option ℕ
  | [] => if pat = [] then some 0 else none
  | a :: s => if pat <+: a :: s then some 0 else (find pat s).map (· + 1)

/-- The index of the last occurrence of a character. -/
def rfindChar (c : α) : List α → Option ℕ
  | [] => none
  | a :: s =>
      match rfindChar c s with
      | some i => some (i + 1)
      | none => if a = c then some 0 else none

/-- A text that starts with a character found nowhere before is found where it stands. -/
theorem find_append (h : a ∉ u) (pat r : List α) :
    find (a :: pat) (u ++ (a :: pat ++ r)) = some u.length := by
  induction u with
  | nil => simp [find]
  | cons b u ih =>
      have hba : a ≠ b := fun hab => h (by simp [hab])
      rw [List.cons_append, find, if_neg fun hp => hba (List.cons_prefix_cons.mp hp).1,
        ih fun hm => h (List.mem_cons_of_mem _ hm)]
      rfl

/-- A text that occurs is found, no later than where it occurs. -/
theorem find_isSome (u pat r : List α) : ∃ i ≤ u.length, find pat (u ++ (pat ++ r)) = some i := by
  induction u with
  | nil =>
      refine ⟨0, le_rfl, ?_⟩
      cases hs : pat ++ r with
      | nil => simp [find, (List.append_eq_nil_iff.mp hs).1]
      | cons b s =>
          rw [List.nil_append, find, if_pos (hs ▸ List.prefix_append pat r)]
  | cons b u ih =>
      obtain ⟨i, hi, hf⟩ := ih
      rw [List.cons_append, find]
      split
      · exact ⟨0, Nat.zero_le _, rfl⟩
      · exact ⟨i + 1, by simpa using hi, by rw [hf]; rfl⟩

/-- Where a text is found, it stands, and nowhere before. -/
theorem find_spec (hf : find pat q = some i) :
    pat <+: q.drop i ∧ i ≤ q.length ∧ ∀ j < i, ¬ pat <+: q.drop j := by
  induction q generalizing i with
  | nil =>
      rw [find] at hf
      split at hf
      · next hp =>
        cases hf
        exact ⟨by simp [hp], le_rfl, fun j hj => absurd hj (by omega)⟩
      · cases hf
  | cons b q ih =>
      rw [find] at hf
      split at hf
      · next hp =>
        cases hf
        exact ⟨hp, Nat.zero_le _, fun j hj => absurd hj (by omega)⟩
      · next hp =>
        obtain ⟨k, hk, rfl⟩ := Option.map_eq_some_iff.mp hf
        obtain ⟨hpre, hle, hmin⟩ := ih hk
        refine ⟨hpre, by simpa using hle, fun j hj => ?_⟩
        cases j with
        | zero => exact hp
        | succ j => exact hmin j (by omega)

/-- What is found in a prefix of a text that has an occurrence is no later than that. -/
theorem find_prefix (hq : q <+: u ++ (pat ++ r)) (hf : find pat q = some i) :
    q.take i <+: u ∧ (q.take i = u → q.drop (i + pat.length) <+: r) := by
  obtain ⟨hpre, hle, hmin⟩ := find_spec hf
  have hlen := hpre.length_le
  rw [List.length_drop] at hlen
  have hi : i ≤ u.length := by
    by_contra hlt
    refine hmin u.length (by omega) ?_
    have hupat : u ++ pat <+: q := by
      refine List.prefix_of_prefix_length_le ?_ hq ?_
      · rw [← List.append_assoc]
        exact List.prefix_append _ _
      · rw [List.length_append]
        omega
    obtain ⟨t, rfl⟩ := hupat
    rw [List.append_assoc, List.drop_left]
    exact List.prefix_append pat t
  have htake : q.take i <+: u := by
    refine List.prefix_of_prefix_length_le ((List.take_prefix i q).trans hq)
      (List.prefix_append u _) ?_
    rw [List.length_take]
    omega
  refine ⟨htake, fun heq => ?_⟩
  obtain ⟨t, ht⟩ := hpre
  have hqt : q = u ++ (pat ++ t) := by rw [ht, ← heq, List.take_append_drop]
  have hiu : i = u.length := by
    have := congrArg List.length heq
    rw [List.length_take] at this
    omega
  rw [hqt, List.prefix_append_right_inj, List.prefix_append_right_inj] at hq
  rw [hqt, hiu, ← List.drop_drop, List.drop_left, List.drop_left]
  exact hq

theorem rfindChar_eq_none : rfindChar a s = none ↔ a ∉ s := by
  induction s with
  | nil => simp [rfindChar]
  | cons b s ih =>
      rw [rfindChar]
      cases h : rfindChar a s with
      | some i => simp [← ih, h]
      | none =>
          rw [h] at ih
          simp [ih.mp rfl, eq_comm]

theorem rfindChar_append (h : a ∉ s) : rfindChar a (u ++ a :: s) = some u.length := by
  induction u with
  | nil => simp [rfindChar, rfindChar_eq_none.mpr h]
  | cons b u ih => rw [List.cons_append, rfindChar, ih, List.length_cons]

/-- The last occurrence of a character splits the text. -/
theorem rfindChar_eq_some (h : rfindChar a s = some i) :
    ∃ u r, s = u ++ a :: r ∧ a ∉ r ∧ u.length = i := by
  induction s generalizing i with
  | nil => cases h
  | cons b s ih =>
      rw [rfindChar] at h
      cases hr : rfindChar a s with
      | some j =>
          rw [hr] at h
          cases h
          obtain ⟨u, r, rfl, hnot, rfl⟩ := ih hr
          exact ⟨b :: u, r, rfl, hnot, rfl⟩
      | none =>
          rw [hr] at h
          by_cases hb : b = a
          · simp only [hb, ↓reduceIte, Option.some.injEq] at h
            exact ⟨[], s, by rw [hb, List.nil_append], rfindChar_eq_none.mp hr, h⟩
          · simp [hb] at h

end Find

end Visuall
