import Visuall.Runtime.Dict

/-!
# The dictionary runtime refines a finite map

The abstract object is Mathlib's `Finmap` from C strings to 64-bit integers.  `TableInv` is the
invariant of the slot array alone: every used slot is keyed, no key is used twice, and every used
slot is met from the home slot of its key after non-empty slots only.  The three ways an operation
changes a slot (`put`, `update`, `tombstone`) each keep it, and a search on a table that satisfies
it is exact (`find_of_holds`, `find_of_absent`).

`Represents d m` adds the bookkeeping of the record: `length` counts the used slots, at least one
slot is not used, and the content is `m`.  Tombstones are invisible to it: the load factor ignores
them, but a search needs only one slot that is not used, and that is what the load factor leaves.
-/

namespace Visuall.Runtime

open Visuall.LinearProbe

/-! ### Slots and their content -/

/-- Slot `s` holds `key` with `value`. -/
def Holds (entries : List DictEntry) (s : ℕ) (key : CString) (value : Int64) : Prop :=
  s < entries.length ∧ entryAt entries s = ⟨some key, value, .used⟩

/-- The number of used entries. -/
def usedCount (entries : List DictEntry) : ℕ := entries.countP (fun e => e.state = .used)

/-- The home slot of a key. -/
def homeSlot (cap : ℕ) (key : CString) : ℕ := (dictHash key).toNat % cap

/-- The slot does not end a search for another key. -/
def NonEmpty (entries : List DictEntry) (s : ℕ) : Prop := (entryAt entries s).state ≠ .empty

theorem entryAt_of_lt {entries : List DictEntry} {s : ℕ} (hs : s < entries.length) :
    entryAt entries s = entries[s] := by
  rw [entryAt, List.getD_eq_getElem _ _ hs]

theorem entryAt_set {entries : List DictEntry} {s t : ℕ} {e : DictEntry} (hs : s < entries.length) :
    entryAt (entries.set s e) t = if s = t then e else entryAt entries t := by
  rw [entryAt, entryAt, List.getD_eq_getElem?_getD, List.getD_eq_getElem?_getD, List.getElem?_set]
  split
  · rename_i h
    subst h
    simp
  · rfl

theorem usedCount_set {entries : List DictEntry} {s : ℕ} (e : DictEntry) (hs : s < entries.length) :
    usedCount (entries.set s e) + (if (entryAt entries s).state = .used then 1 else 0)
      = usedCount entries + (if e.state = .used then 1 else 0) := by
  have hle : (if (entryAt entries s).state = .used then 1 else 0) ≤ usedCount entries := by
    split
    · rename_i hu
      rw [usedCount]
      refine Nat.succ_le_of_lt (List.countP_pos_iff.mpr ⟨entries[s], List.getElem_mem hs, ?_⟩)
      simpa [entryAt_of_lt hs] using hu
    · exact Nat.zero_le _
  rw [entryAt_of_lt hs] at hle ⊢
  rw [usedCount, usedCount, List.countP_set hs]
  simp only [decide_eq_true_eq, usedCount] at hle ⊢
  omega

/-- A table that is not full of used entries has a slot that is not used. -/
theorem exists_not_used {entries : List DictEntry} (h : usedCount entries < entries.length) :
    ∃ s < entries.length, (entryAt entries s).state ≠ .used := by
  by_contra hall
  push Not at hall
  have heq : usedCount entries = entries.length := by
    rw [usedCount, List.countP_eq_length]
    intro e he
    obtain ⟨s, hs, rfl⟩ := List.getElem_of_mem he
    simpa [entryAt_of_lt hs] using hall s hs
  omega

/-- **The invariant of the slot array.** -/
structure TableInv (cap : ℕ) (entries : List DictEntry) : Prop where
  length_eq : entries.length = cap
  keyed : ∀ s < cap, (entryAt entries s).state = .used →
    ∃ key, (entryAt entries s).key = some key
  path : ∀ s key value, Holds entries s key value →
    OnPath cap (NonEmpty entries) (homeSlot cap key) s
  unique : ∀ s t key v w, Holds entries s key v → Holds entries t key w → s = t

namespace TableInv

variable {cap : ℕ} {entries : List DictEntry} {key : CString}

theorem holds_of_hit (inv : TableInv cap entries) {s : ℕ} (hs : s < cap)
    (hit : Hit (fun s => (entryAt entries s).state) (fun s => keyIs (entryAt entries s) key) s) :
    Holds entries s key (entryAt entries s).value := by
  have hk : (entryAt entries s).key = some key := by simpa [keyIs] using hit.2
  refine ⟨by rw [inv.length_eq]; exact hs, ?_⟩
  cases he : entryAt entries s with
  | mk k v st =>
    rw [he] at hk
    have hst : st = .used := by simpa [he] using hit.1
    rw [hst, show k = some key from hk]

/-- A present key is found at its slot. -/
theorem find_of_holds (inv : TableInv cap entries) {s : ℕ} {value : Int64}
    (hh : Holds entries s key value) : dictFindSlot entries cap key = some s := by
  have hs : s < cap := by rw [← inv.length_eq]; exact hh.1
  have hit : Hit (fun s => (entryAt entries s).state)
      (fun s => keyIs (entryAt entries s) key) s := by
    simp [Hit, keyIs, hh.2]
  have hspec := dictFindSlot_spec (by omega : 0 < cap) entries key
  cases hr : dictFindSlot entries cap key with
  | none =>
    rw [hr] at hspec
    cases hspec with
    | full hfull => exact absurd hit (hfull s hs).2
  | some t =>
    rw [hr] at hspec
    cases hspec with
    | hit ht hit' => rw [inv.unique t s key _ _ (inv.holds_of_hit ht hit') hh]
    | free _ _ _ hnone => exact absurd hit (hnone s (inv.path s key value hh))

/-- An absent key is given a slot that is not used, on its path. -/
theorem find_of_absent (inv : TableInv cap entries) (habs : ∀ s value, ¬ Holds entries s key value)
    (hroom : usedCount entries < cap) :
    ∃ s < cap, dictFindSlot entries cap key = some s ∧ (entryAt entries s).state ≠ .used ∧
      OnPath cap (NonEmpty entries) (homeSlot cap key) s := by
  have hspec := dictFindSlot_spec (by omega : 0 < cap) entries key
  cases hr : dictFindSlot entries cap key with
  | none =>
    rw [hr] at hspec
    cases hspec with
    | full hfull =>
      obtain ⟨s, hs, hnu⟩ := exists_not_used (by rw [inv.length_eq]; exact hroom)
      exact absurd (hfull s (by rw [← inv.length_eq]; exact hs)).1 hnu
  | some t =>
    rw [hr] at hspec
    cases hspec with
    | hit ht hit' => exact absurd (inv.holds_of_hit ht hit') (habs t _)
    | free ht hnu hpath _ => exact ⟨t, ht, rfl, hnu, hpath⟩

/-- Storing an entry in a slot leaves the other slots as they are. -/
theorem holds_set (inv : TableInv cap entries) {s : ℕ} (hs : s < cap) (e : DictEntry)
    (t : ℕ) (k : CString) (v : Int64) :
    Holds (entries.set s e) t k v ↔
      (s = t ∧ e = ⟨some k, v, .used⟩) ∨ (s ≠ t ∧ Holds entries t k v) := by
  have hs' : s < entries.length := by rw [inv.length_eq]; exact hs
  rw [Holds, Holds, List.length_set, entryAt_set hs']
  by_cases hst : s = t
  · subst hst
    simp [hs']
  · simp [hst]

/-- Every non-empty slot stays non-empty when the stored entry is not an empty one. -/
theorem nonEmpty_set (inv : TableInv cap entries) {s : ℕ} (hs : s < cap) {e : DictEntry}
    (he : e.state ≠ .empty) (t : ℕ) (ht : NonEmpty entries t) : NonEmpty (entries.set s e) t := by
  rw [NonEmpty, entryAt_set (by rw [inv.length_eq]; exact hs)]
  split
  · exact he
  · exact ht

/-- **Inserting a new key** at a free slot of its path. -/
theorem put (inv : TableInv cap entries) {s : ℕ} (hs : s < cap) (value : Int64)
    (habs : ∀ s value, ¬ Holds entries s key value)
    (hpath : OnPath cap (NonEmpty entries) (homeSlot cap key) s) :
    TableInv cap (entries.set s ⟨some key, value, .used⟩) := by
  have hne := inv.nonEmpty_set hs (e := ⟨some key, value, .used⟩) (by simp)
  refine ⟨by rw [List.length_set, inv.length_eq], ?_, ?_, ?_⟩
  · intro t ht hu
    rw [entryAt_set (by rw [inv.length_eq]; exact hs)] at hu ⊢
    split at hu
    · exact ⟨key, by rename_i h; simp [h]⟩
    · rename_i h
      simpa [h] using inv.keyed t ht hu
  · intro t k v hh
    rcases (inv.holds_set hs _ t k v).mp hh with ⟨rfl, he⟩ | ⟨_, hold⟩
    · obtain rfl : key = k := by simpa using congrArg DictEntry.key he
      exact hpath.mono hne
    · exact (inv.path t k v hold).mono hne
  · intro t u k v w ht hu
    rcases (inv.holds_set hs _ t k v).mp ht with ⟨rfl, he⟩ | ⟨_, hold⟩ <;>
      rcases (inv.holds_set hs _ u k w).mp hu with ⟨rfl, he'⟩ | ⟨_, hold'⟩
    · rfl
    · obtain rfl : key = k := by simpa using congrArg DictEntry.key he
      exact absurd hold' (habs _ _)
    · obtain rfl : key = k := by simpa using congrArg DictEntry.key he'
      exact absurd hold (habs _ _)
    · exact inv.unique t u k v w hold hold'

/-- **Overwriting the value** of a present key. -/
theorem update (inv : TableInv cap entries) {s : ℕ} {old : Int64} (hh : Holds entries s key old)
    (value : Int64) : TableInv cap (entries.set s ⟨some key, value, .used⟩) := by
  have hs : s < cap := by rw [← inv.length_eq]; exact hh.1
  have hne := inv.nonEmpty_set hs (e := ⟨some key, value, .used⟩) (by simp)
  have back : ∀ t k v, Holds (entries.set s ⟨some key, value, .used⟩) t k v →
      ∃ w, Holds entries t k w := by
    intro t k v ht
    rcases (inv.holds_set hs _ t k v).mp ht with ⟨rfl, he⟩ | ⟨_, hold⟩
    · obtain rfl : key = k := by simpa using congrArg DictEntry.key he
      exact ⟨old, hh⟩
    · exact ⟨v, hold⟩
  refine ⟨by rw [List.length_set, inv.length_eq], ?_, ?_, ?_⟩
  · intro t ht hu
    rw [entryAt_set hh.1] at hu ⊢
    split at hu
    · exact ⟨key, by rename_i h; simp [h]⟩
    · rename_i h
      simpa [h] using inv.keyed t ht hu
  · intro t k v ht
    obtain ⟨w, hold⟩ := back t k v ht
    exact (inv.path t k w hold).mono hne
  · intro t u k v w ht hu
    obtain ⟨v', hold⟩ := back t k v ht
    obtain ⟨w', hold'⟩ := back u k w hu
    exact inv.unique t u k v' w' hold hold'

/-- **Leaving a tombstone** in the slot of a present key. -/
theorem tombstone (inv : TableInv cap entries) {s : ℕ} (hs : s < cap) (e : DictEntry)
    (he : e.state = .deleted) : TableInv cap (entries.set s e) := by
  have hne := inv.nonEmpty_set hs (e := e) (by rw [he]; decide)
  have back : ∀ t k v, Holds (entries.set s e) t k v → Holds entries t k v := by
    intro t k v ht
    rcases (inv.holds_set hs _ t k v).mp ht with ⟨_, heq⟩ | ⟨_, hold⟩
    · simp [heq] at he
    · exact hold
  refine ⟨by rw [List.length_set, inv.length_eq], ?_, ?_, ?_⟩
  · intro t ht hu
    rw [entryAt_set (by rw [inv.length_eq]; exact hs)] at hu ⊢
    split at hu
    · rw [he] at hu
      exact absurd hu (by decide)
    · rename_i h
      simpa [h] using inv.keyed t ht hu
  · exact fun t k v ht => (inv.path t k v (back t k v ht)).mono hne
  · exact fun t u k v w ht hu => inv.unique t u k v w (back t k v ht) (back u k w hu)

/-- A zeroed table holds nothing. -/
theorem fresh (cap : ℕ) : TableInv cap (List.replicate cap default) := by
  have hempty : ∀ s, (entryAt (List.replicate cap default) s).state = .empty := by
    intro s
    rw [entryAt, List.getD_eq_getElem?_getD, List.getElem?_replicate]
    split <;> rfl
  have hnone : ∀ s k v, ¬ Holds (List.replicate cap default) s k v := by
    intro s k v hh
    have := hempty s
    simp [hh.2] at this
  refine ⟨List.length_replicate, ?_, ?_, ?_⟩
  · intro s _ hu
    rw [hempty s] at hu
    exact absurd hu (by decide)
  · exact fun s k v hh => absurd hh (hnone s k v)
  · exact fun s t k v w hh => absurd hh (hnone s k v)

end TableInv

/-! ### The representation relation -/

/-- The abstract map. -/
abbrev DictMap := Finmap (fun _ : CString => Int64)

/-- **`d` represents the finite map `m`.** -/
structure Represents (d : VisualDict) (m : DictMap) : Prop where
  table : TableInv d.capacity d.entries
  capPow : ∃ j ≤ 62, d.capacity = 2 ^ j
  length_eq : d.length = usedCount d.entries
  room : d.length < d.capacity
  content : ∀ key value, m.lookup key = some value ↔ ∃ s, Holds d.entries s key value

namespace Represents

variable {d : VisualDict} {m : DictMap}

theorem capacity_pos (hr : Represents d m) : 0 < d.capacity := by
  have := hr.room
  omega

theorem absent (hr : Represents d m) {key : CString} (hk : m.lookup key = none) (s : ℕ)
    (value : Int64) : ¬ Holds d.entries s key value := by
  intro hh
  rw [(hr.content key value).mpr ⟨s, hh⟩] at hk
  exact absurd hk (by simp)

/-- The search decides presence. -/
theorem find_cases (hr : Represents d m) (key : CString) :
    (∃ s value, m.lookup key = some value ∧ Holds d.entries s key value ∧
      dictFindSlot d.entries d.capacity key = some s) ∨
    (∃ s < d.capacity, m.lookup key = none ∧ dictFindSlot d.entries d.capacity key = some s ∧
      (entryAt d.entries s).state ≠ .used ∧
      OnPath d.capacity (NonEmpty d.entries) (homeSlot d.capacity key) s) := by
  cases hl : m.lookup key with
  | some value =>
    obtain ⟨s, hh⟩ := (hr.content key value).mp hl
    exact .inl ⟨s, value, rfl, hh, hr.table.find_of_holds hh⟩
  | none =>
    obtain ⟨s, hs, hf, hnu, hp⟩ :=
      hr.table.find_of_absent (hr.absent hl) (by rw [← hr.length_eq]; exact hr.room)
    exact .inr ⟨s, hs, rfl, hf, hnu, hp⟩

end Represents

/-! ### Reading operations -/

section Reading

variable {d : VisualDict} {m : DictMap}

theorem dictGet_of_lookup (hr : Represents d m) {key : CString} {value : Int64}
    (hl : m.lookup key = some value) : dictGet d (some key) = .ok value := by
  obtain ⟨s, hh⟩ := (hr.content key value).mp hl
  simp [dictGet, hr.table.find_of_holds hh, hh.2]

/-- An absent key takes the `KeyError` path. -/
theorem dictGet_of_absent (hr : Represents d m) {key : CString} (hl : m.lookup key = none) :
    dictGet d (some key) = .error (.exit ("KeyError: '" ++ key.text ++ "'\n")) := by
  rcases hr.find_cases key with ⟨_, _, hsome, _, _⟩ | ⟨s, _, _, hf, hnu, _⟩
  · rw [hl] at hsome
    exact absurd hsome (by simp)
  · simp [dictGet, hf, hnu]

theorem dictHas_iff (hr : Represents d m) (key : CString) :
    dictHas d (some key) = true ↔ key ∈ m := by
  rcases hr.find_cases key with ⟨s, value, hl, hh, hf⟩ | ⟨s, _, hl, hf, hnu, _⟩
  · have hmem : key ∈ m := Finmap.mem_iff.mpr ⟨value, hl⟩
    simp [dictHas, hf, hh.2, hmem]
  · have hmem : key ∉ m := Finmap.lookup_eq_none.mp hl
    simp [dictHas, hf, hnu, hmem]

/-- The keys as C strings: what `__visuall_dict_keys` lists is never NULL. -/
def presentKeys (entries : List DictEntry) : List CString :=
  (entries.filter (fun e => e.state = .used)).filterMap DictEntry.key

theorem used_entry_keyed (hr : Represents d m) {e : DictEntry} (he : e ∈ d.entries)
    (hu : e.state = .used) : ∃ s key, e.key = some key ∧ Holds d.entries s key e.value := by
  obtain ⟨s, hs, rfl⟩ := List.getElem_of_mem he
  rw [← entryAt_of_lt hs] at hu
  obtain ⟨key, hk⟩ := hr.table.keyed s (by rw [← hr.table.length_eq]; exact hs) hu
  rw [entryAt_of_lt hs] at hk hu
  refine ⟨s, key, hk, hs, ?_⟩
  rw [entryAt_of_lt hs, ← hk, ← hu]

theorem dictKeys_eq (hr : Represents d m) :
    dictKeys d = (presentKeys d.entries).map some := by
  have key_some : ∀ l : List DictEntry, (∀ e ∈ l, ∃ key, e.key = some key) →
      l.map DictEntry.key = (l.filterMap DictEntry.key).map some := by
    intro l hl
    induction l with
    | nil => rfl
    | cons e es ih =>
      obtain ⟨key, hk⟩ := hl e List.mem_cons_self
      rw [List.map_cons, List.filterMap_cons, hk, List.map_cons,
        ih fun x hx => hl x (List.mem_cons_of_mem _ hx)]
  refine key_some _ fun e he => ?_
  obtain ⟨hmem, hu⟩ := List.mem_filter.mp he
  obtain ⟨_, key, hk, _⟩ := used_entry_keyed hr hmem (by simpa using hu)
  exact ⟨key, hk⟩

/-- Two different positions of the table never carry the same used key. -/
theorem pairwise_keys (hr : Represents d m) :
    d.entries.Pairwise (fun e f => e.state = .used → f.state = .used → e.key ≠ f.key) := by
  rw [List.pairwise_iff_getElem]
  intro i j hi hj hij hui huj heq
  obtain ⟨key, hk⟩ := hr.table.keyed i (by rw [← hr.table.length_eq]; exact hi)
    (by rw [entryAt_of_lt hi]; exact hui)
  rw [entryAt_of_lt hi] at hk
  have hhi : Holds d.entries i key (d.entries[i]).value :=
    ⟨hi, by rw [entryAt_of_lt hi, ← hk, ← hui]⟩
  have hhj : Holds d.entries j key (d.entries[j]).value :=
    ⟨hj, by rw [entryAt_of_lt hj, ← hk, heq, ← huj]⟩
  exact absurd (hr.table.unique i j key _ _ hhi hhj) (by omega)

theorem presentKeys_nodup (hr : Represents d m) : (presentKeys d.entries).Nodup := by
  rw [presentKeys, List.Nodup, List.pairwise_filterMap]
  refine (List.Pairwise.filter _ (pairwise_keys hr)).imp_of_mem ?_
  intro e f he hf hne k hk k' hk' heq
  have hue : e.state = .used := by simpa using (List.mem_filter.mp he).2
  have huf : f.state = .used := by simpa using (List.mem_filter.mp hf).2
  exact hne hue huf (by rw [hk, hk', heq])

theorem mem_presentKeys (hr : Represents d m) (key : CString) :
    key ∈ presentKeys d.entries ↔ key ∈ m := by
  rw [presentKeys, List.mem_filterMap, Finmap.mem_iff]
  constructor
  · rintro ⟨e, he, hk⟩
    obtain ⟨hmem, hu⟩ := List.mem_filter.mp he
    obtain ⟨s, key', hk', hh⟩ := used_entry_keyed hr hmem (by simpa using hu)
    obtain rfl : key = key' := by simpa [hk'] using hk.symm
    exact ⟨e.value, (hr.content key e.value).mpr ⟨s, hh⟩⟩
  · rintro ⟨value, hl⟩
    obtain ⟨s, hs, he⟩ := (hr.content key value).mp hl
    refine ⟨d.entries[s], List.mem_filter.mpr ⟨List.getElem_mem hs, ?_⟩, ?_⟩ <;>
      simp [← entryAt_of_lt hs, he]

theorem presentKeys_length (hr : Represents d m) :
    (presentKeys d.entries).length = usedCount d.entries := by
  have hmap := congrArg List.length (dictKeys_eq hr)
  rw [dictKeys, List.length_map, List.length_map] at hmap
  rw [usedCount, List.countP_eq_length_filter, ← hmap]

/-- `length` is the number of keys. -/
theorem dictLen_eq (hr : Represents d m) : dictLen d = m.keys.card := by
  have hset : (presentKeys d.entries).toFinset = m.keys := by
    ext key
    rw [List.mem_toFinset, mem_presentKeys hr, Finmap.mem_keys]
  rw [dictLen, hr.length_eq, ← presentKeys_length hr, ← hset,
    List.toFinset_card_of_nodup (presentKeys_nodup hr)]

end Reading

/-! ### Growing -/

/-- The table after the rehashing loop has run over `done`: it is well formed, its counter is its
number of used entries, and it holds the used entries of `done`. -/
structure Rehashed (cap : ℕ) (done : List DictEntry) (acc : List DictEntry × ℕ) : Prop where
  table : TableInv cap acc.1
  count : acc.2 = usedCount acc.1
  count_done : acc.2 = usedCount done
  content : ∀ key value, (∃ s, Holds acc.1 s key value) ↔ ⟨some key, value, .used⟩ ∈ done

/-- One iteration: the next old entry is rehashed, and a slot is found for it. -/
theorem Rehashed.step {cap : ℕ} {done : List DictEntry} {acc : List DictEntry × ℕ}
    (hr : Rehashed cap done acc) (e : DictEntry)
    (hkeyed : e.state = .used → ∃ key, e.key = some key)
    (hfresh : ∀ f ∈ done, f.state = .used → e.state = .used → f.key ≠ e.key)
    (hroom : usedCount done < cap) :
    ∃ acc', rehashEntry cap acc e = .ok acc' ∧ Rehashed cap (done ++ [e]) acc' := by
  by_cases hu : e.state = .used
  · obtain ⟨key, hk⟩ := hkeyed hu
    have he : e = ⟨some key, e.value, .used⟩ := by rw [← hk, ← hu]
    have habs : ∀ s value, ¬ Holds acc.1 s key value := by
      intro s value hh
      have hmem := (hr.content key value).mp ⟨s, hh⟩
      exact hfresh _ hmem rfl hu hk.symm
    obtain ⟨s, hs, hf, hnu, hpath⟩ := hr.table.find_of_absent habs
      (by rw [← hr.count, hr.count_done]; exact hroom)
    have hs' : s < acc.1.length := by rw [hr.table.length_eq]; exact hs
    refine ⟨(acc.1.set s ⟨some key, e.value, .used⟩, acc.2 + 1), ?_, ?_, ?_, ?_, ?_⟩
    · simp [rehashEntry, hu, hk, hf]
    · exact hr.table.put hs e.value habs hpath
    · have hcount := usedCount_set (⟨some key, e.value, .used⟩ : DictEntry) hs'
      simp only [if_neg hnu, if_pos] at hcount
      change acc.2 + 1 = usedCount (acc.1.set s ⟨some key, e.value, .used⟩)
      rw [hr.count]
      omega
    · simp [usedCount, hu, hr.count_done]
    · intro k v
      rw [List.mem_append, List.mem_singleton, ← hr.content k v]
      simp only [hr.table.holds_set hs]
      constructor
      · rintro ⟨t, ⟨_, heq⟩ | ⟨_, hold⟩⟩
        · exact .inr (by rw [he, heq])
        · exact .inl ⟨t, hold⟩
      · rintro (⟨t, hold⟩ | heq)
        · refine ⟨t, .inr ⟨?_, hold⟩⟩
          rintro rfl
          exact hnu (by rw [hold.2])
        · exact ⟨s, .inl ⟨rfl, by rw [← he, heq]⟩⟩
  · refine ⟨acc, by simp [rehashEntry, hu], hr.table, hr.count, ?_, ?_⟩
    · simp [usedCount, hu, hr.count_done]
    · intro k v
      rw [List.mem_append, List.mem_singleton, hr.content k v]
      refine ⟨.inl, fun h => h.elim id fun heq => ?_⟩
      exact absurd (by rw [← heq]) hu

/-- **The rehashing loop**, by induction on the entries still to be moved. -/
theorem Rehashed.run {cap : ℕ} (todo done : List DictEntry) (acc : List DictEntry × ℕ)
    (hr : Rehashed cap done acc)
    (hkeyed : ∀ e ∈ todo, e.state = .used → ∃ key, e.key = some key)
    (hpw : (done ++ todo).Pairwise
      (fun e f => e.state = .used → f.state = .used → e.key ≠ f.key))
    (hroom : usedCount (done ++ todo) < cap) :
    ∃ acc', todo.foldlM (rehashEntry cap) acc = .ok acc' ∧ Rehashed cap (done ++ todo) acc' := by
  induction todo generalizing done acc with
  | nil => exact ⟨acc, rfl, by simpa using hr⟩
  | cons e es ih =>
    have hfresh : ∀ f ∈ done, f.state = .used → e.state = .used → f.key ≠ e.key :=
      fun f hf => (List.pairwise_append.mp hpw).2.2 f hf e List.mem_cons_self
    have hroom' : usedCount done < cap := by
      rw [usedCount, List.countP_append] at hroom
      rw [usedCount]
      omega
    obtain ⟨acc₁, hstep, hr₁⟩ := hr.step e (hkeyed e List.mem_cons_self) hfresh hroom'
    obtain ⟨acc', hrun, hr'⟩ := ih (done ++ [e]) acc₁ hr₁
      (fun f hf => hkeyed f (List.mem_cons_of_mem _ hf)) (by simpa using hpw) (by simpa using hroom)
    refine ⟨acc', ?_, by simpa using hr'⟩
    rw [List.foldlM_cons, hstep]
    exact hrun

section Writing

variable {d : VisualDict} {m : DictMap} (malloc : ℕ → Bool)

/-- **`dict_resize` keeps the content**, or the table cannot be allocated. -/
theorem dictResize_represents (hr : Represents d m) (hcap : 2 * d.capacity ≤ 2 ^ 62) :
    (malloc (24 * (d.capacity * 2)) = false ∧
      dictResize malloc d (d.capacity * 2) = .error (.exit "out of memory\n")) ∨
    (∃ d', dictResize malloc d (d.capacity * 2) = .ok d' ∧ Represents d' m ∧
      d'.capacity = d.capacity * 2 ∧ d'.length = d.length) := by
  cases hm : malloc (24 * (d.capacity * 2)) with
  | false => exact .inl ⟨rfl, by simp [dictResize, newEntries, hm]; rfl⟩
  | true =>
    right
    have hfresh := TableInv.fresh (d.capacity * 2)
    have hnone : ∀ k v, ¬ ∃ s, Holds (List.replicate (d.capacity * 2) default) s k v := by
      rintro k v ⟨s, hs, he⟩
      rw [entryAt_of_lt hs, List.getElem_replicate] at he
      have hst : SlotState.empty = .used := congrArg DictEntry.state he
      exact absurd hst (by decide)
    have hzero : usedCount (List.replicate (d.capacity * 2) default) = 0 := by
      rw [usedCount, List.countP_replicate]
      rfl
    have hstart : Rehashed (d.capacity * 2) []
        (List.replicate (d.capacity * 2) default, 0) :=
      ⟨hfresh, hzero.symm, rfl, fun k v => by simpa using hnone k v⟩
    have hroom : usedCount d.entries < d.capacity * 2 := by
      have := hr.room
      rw [← hr.length_eq]
      omega
    obtain ⟨acc, hrun, hacc⟩ := hstart.run d.entries [] _
      (fun e he hu => by
        obtain ⟨_, key, hk, _⟩ := used_entry_keyed hr he hu
        exact ⟨key, hk⟩)
      (by simpa using pairwise_keys hr) (by simpa using hroom)
    refine ⟨⟨acc.1, d.capacity * 2, acc.2⟩, ?_, ?_, rfl, ?_⟩
    · simp only [dictResize, newEntries, hm, if_true]
      change (d.entries.foldlM (rehashEntry (d.capacity * 2))
        (List.replicate (d.capacity * 2) default, 0) >>= _) = _
      rw [hrun]
      rfl
    · refine ⟨hacc.table, ?_, hacc.count, ?_, ?_⟩
      · obtain ⟨j, hj, hd⟩ := hr.capPow
        refine ⟨j + 1, ?_, by rw [hd, pow_succ]⟩
        have hpow : 2 ^ (j + 1) ≤ 2 ^ 62 := by rw [pow_succ, ← hd]; omega
        exact (Nat.pow_le_pow_iff_right (by omega)).mp hpow
      · have := hacc.count_done
        simp only [List.nil_append] at this
        change acc.2 < d.capacity * 2
        omega
      · intro key value
        rw [hr.content key value, hacc.content key value, List.nil_append]
        constructor
        · rintro ⟨s, hs, he⟩
          rw [← he, entryAt_of_lt hs]
          exact List.getElem_mem hs
        · intro hmem
          obtain ⟨s, key', hk, hh⟩ := used_entry_keyed hr hmem rfl
          obtain rfl : key = key' := by simpa using hk
          exact ⟨s, hh⟩
    · rw [hr.length_eq]
      simpa using hacc.count_done

/-- Storing under a key whose slot the search has found. -/
theorem dictStore_represents (hr : Represents d m) (hload : d.length + 1 < d.capacity)
    {key : CString} {s : ℕ} (hf : dictFindSlot d.entries d.capacity key = some s) (value : Int64) :
    (malloc (key.bytes.length + 1) = false ∧ dictStore malloc d s key value =
      .error (.exit s!"out of memory (GC alloc {key.bytes.length + 1} bytes)\n")) ∨
    (∃ d', dictStore malloc d s key value = .ok d' ∧ Represents d' (m.insert key value)) := by
  have lookup_insert : ∀ k v, (m.insert key value).lookup k = some v ↔
      (key = k ∧ value = v) ∨ (key ≠ k ∧ m.lookup k = some v) := by
    intro k v
    by_cases hkk : key = k
    · subst hkk
      simp [Finmap.lookup_insert]
    · simp [Finmap.lookup_insert_of_ne _ (Ne.symm hkk), hkk]
  rcases hr.find_cases key with ⟨t, old, hl, hh, hf'⟩ | ⟨t, ht, hl, hf', hnu, hpath⟩
  · -- the key is present: its value is overwritten in place
    obtain rfl : s = t := by simpa [hf] using hf'
    right
    have hs : s < d.capacity := by rw [← hr.table.length_eq]; exact hh.1
    refine ⟨{ d with entries := d.entries.set s ⟨some key, value, .used⟩ }, ?_, ?_, hr.capPow,
      ?_, hr.room, ?_⟩
    · simp [dictStore, hh.2]
    · exact hr.table.update hh value
    · have hcount := usedCount_set (⟨some key, value, .used⟩ : DictEntry) hh.1
      simp only [hh.2, if_true] at hcount
      change d.length = usedCount (d.entries.set s ⟨some key, value, .used⟩)
      rw [hr.length_eq]
      omega
    · intro k v
      rw [lookup_insert, hr.content k v]
      simp only [hr.table.holds_set hs]
      constructor
      · rintro (⟨rfl, rfl⟩ | ⟨hne, t, hold⟩)
        · exact ⟨s, .inl ⟨rfl, rfl⟩⟩
        · refine ⟨t, .inr ⟨?_, hold⟩⟩
          rintro rfl
          exact hne (by simpa [hh.2] using congrArg DictEntry.key hold.2)
      · rintro ⟨t, ⟨_, heq⟩ | ⟨hne, hold⟩⟩
        · simp only [DictEntry.mk.injEq, Option.some.injEq] at heq
          exact .inl ⟨heq.1, heq.2.1⟩
        · refine .inr ⟨?_, t, hold⟩
          rintro rfl
          exact hne (hr.table.unique s t key _ _ hh hold)
  · -- the key is absent: a copy of it is stored at the slot found
    obtain rfl : s = t := by simpa [hf] using hf'
    have hs' : s < d.entries.length := by rw [hr.table.length_eq]; exact ht
    have habs := hr.absent hl
    cases hm : malloc (key.bytes.length + 1) with
    | false =>
      refine .inl ⟨rfl, ?_⟩
      simp only [dictStore, hnu, if_false, vslStrdup, hm]
      rfl
    | true =>
      right
      refine ⟨{ d with
          entries := d.entries.set s ⟨some key, value, .used⟩, length := d.length + 1 },
        ?_, hr.table.put ht value habs hpath, hr.capPow, ?_, hload, ?_⟩
      · simp only [dictStore, hnu, if_false, vslStrdup, hm, if_true]
        rfl
      · have hcount := usedCount_set (⟨some key, value, .used⟩ : DictEntry) hs'
        simp only [if_neg hnu, if_pos] at hcount
        change d.length + 1 = usedCount (d.entries.set s ⟨some key, value, .used⟩)
        rw [hr.length_eq]
        omega
      · intro k v
        rw [lookup_insert, hr.content k v]
        simp only [hr.table.holds_set ht]
        constructor
        · rintro (⟨rfl, rfl⟩ | ⟨hne, t, hold⟩)
          · exact ⟨s, .inl ⟨rfl, rfl⟩⟩
          · refine ⟨t, .inr ⟨?_, hold⟩⟩
            rintro rfl
            exact hnu (by rw [hold.2])
        · rintro ⟨t, ⟨_, heq⟩ | ⟨_, hold⟩⟩
          · simp only [DictEntry.mk.injEq, Option.some.injEq] at heq
            exact .inl ⟨heq.1, heq.2.1⟩
          · refine .inr ⟨?_, t, hold⟩
            rintro rfl
            exact habs t v hold

/-! ### The load factor leaves a slot -/

/-- Rounding to a double never crosses a power of two. -/
theorem toDouble_ge_pow {n j : ℕ} (h : 2 ^ j ≤ n) : 2 ^ j ≤ toDouble n := by
  unfold toDouble
  split
  · exact h
  · rename_i hbig
    have hn : n ≠ 0 := by
      have := Nat.one_le_two_pow (n := j)
      omega
    have hj : j ≤ n.log2 := (Nat.le_log2 hn).mpr h
    have hlog : 53 ≤ n.log2 := (Nat.le_log2 hn).mpr (by omega)
    have hdown : 2 ^ j ≤ n / 2 ^ (n.log2 - 52) * 2 ^ (n.log2 - 52) := by
      rcases Nat.le_total (n.log2 - 52) j with hle | hge
      · -- `2 ^ j` is itself a multiple of the last place
        have hsplit : 2 ^ j = 2 ^ (j - (n.log2 - 52)) * 2 ^ (n.log2 - 52) := by
          rw [← pow_add, Nat.sub_add_cancel hle]
        rw [hsplit] at h ⊢
        exact Nat.mul_le_mul_right _ ((Nat.le_div_iff_mul_le (by positivity)).mpr h)
      · -- the quotient keeps 52 bits
        have hq : 1 ≤ n / 2 ^ (n.log2 - 52) := by
          refine (Nat.le_div_iff_mul_le (by positivity)).mpr ?_
          rw [one_mul]
          exact (Nat.pow_le_pow_right (by omega) (by omega)).trans (Nat.log2_self_le hn)
        calc 2 ^ j ≤ 2 ^ (n.log2 - 52) := Nat.pow_le_pow_right (by omega) hge
          _ ≤ n / 2 ^ (n.log2 - 52) * 2 ^ (n.log2 - 52) := Nat.le_mul_of_pos_left _ hq
    simp only
    split
    · exact hdown.trans (Nat.mul_le_mul_right _ (Nat.le_succ _))
    · exact hdown

/-- A table that is not over the load factor has room for one more key. -/
theorem room_of_not_overLoaded (hr : Represents d m)
    (h : overLoaded d.length d.capacity = false) : d.length + 1 < d.capacity := by
  obtain ⟨j, _, hd⟩ := hr.capPow
  have hle : toDouble (d.length + 1) * 2 ^ 53 ≤ d.capacity * 6305039478318694 := by
    simpa [overLoaded] using h
  by_contra hge
  have hge' : d.capacity ≤ toDouble (d.length + 1) := by
    rw [hd]
    exact toDouble_ge_pow (by omega)
  have hpos := hr.capacity_pos
  have : d.capacity * 2 ^ 53 ≤ d.capacity * 6305039478318694 :=
    (Nat.mul_le_mul_right _ hge').trans hle
  exact absurd (Nat.le_of_mul_le_mul_left this hpos) (by norm_num)

/-- The allocator refuses a request, or the capacity cannot be doubled. -/
def Exhausted (malloc : ℕ → Bool) (d : VisualDict) (msg : String) : Prop :=
  (∃ n, malloc n = false ∧
    (msg = "out of memory\n" ∨ msg = s!"out of memory (GC alloc {n} bytes)\n")) ∨
  (int64Max / 2 < d.capacity ∧ msg = "dict capacity overflow\n")

/-- Growing keeps the content and leaves room for one more key. -/
theorem dictGrow_represents (hr : Represents d m) :
    (∃ msg, dictGrow malloc d = .error (.exit msg) ∧ Exhausted malloc d msg) ∨
    (∃ d', dictGrow malloc d = .ok d' ∧ Represents d' m ∧ d'.length + 1 < d'.capacity) := by
  unfold dictGrow
  cases hload : overLoaded d.length d.capacity with
  | false => exact .inr ⟨d, rfl, hr, room_of_not_overLoaded hr hload⟩
  | true =>
    by_cases hmax : int64Max / 2 < d.capacity
    · simp only [if_true, if_pos hmax]
      exact .inl ⟨_, rfl, .inr ⟨hmax, rfl⟩⟩
    · simp only [if_true, if_neg hmax]
      have hcap : 2 * d.capacity ≤ 2 ^ 62 := by
        -- the capacity is a power of two below `2 ^ 62`
        obtain ⟨j, _, hd⟩ := hr.capPow
        have hlt : 2 ^ j < 2 ^ 62 := by
          rw [← hd]
          norm_num [int64Max] at hmax ⊢
          omega
        have hj : j < 62 := (Nat.pow_lt_pow_iff_right (by omega)).mp hlt
        rw [hd, ← pow_succ']
        exact Nat.pow_le_pow_right (by omega) hj
      rcases dictResize_represents malloc hr hcap with ⟨hm, he⟩ | ⟨d', he, hr', hc, hl⟩
      · exact .inl ⟨_, he, .inl ⟨_, hm, .inl rfl⟩⟩
      · refine .inr ⟨d', he, hr', ?_⟩
        have := hr.room
        omega

theorem dictFindSlot_isSome (hr : Represents d m) (key : CString) :
    ∃ s, dictFindSlot d.entries d.capacity key = some s := by
  rcases hr.find_cases key with ⟨s, _, _, _, hf⟩ | ⟨s, _, _, hf, _⟩ <;> exact ⟨s, hf⟩

/-- **`__visuall_dict_set` inserts**, unless memory runs out. -/
theorem dictSet_represents (hr : Represents d m) (key : CString) (value : Int64) :
    (∃ msg, dictSet malloc d (some key) value = .error (.exit msg) ∧ Exhausted malloc d msg) ∨
    (∃ d', dictSet malloc d (some key) value = .ok d' ∧
      Represents d' (m.insert key value)) := by
  rcases dictGrow_represents malloc hr with ⟨msg, he, hx⟩ | ⟨d₁, he, hr₁, hload⟩
  · refine .inl ⟨msg, ?_, hx⟩
    simp only [dictSet, he]
    rfl
  · obtain ⟨s, hf⟩ := dictFindSlot_isSome hr₁ key
    have hset : dictSet malloc d (some key) value = dictStore malloc d₁ s key value := by
      simp only [dictSet, he]
      change (dictSlotForSet malloc d₁ key >>= fun p => dictStore malloc p.1 p.2 key value) = _
      rw [dictSlotForSet, hf]
      rfl
    rw [hset]
    rcases dictStore_represents malloc hr₁ hload hf value with ⟨hm, he'⟩ | ⟨d', he', hr'⟩
    · exact .inl ⟨_, he', .inl ⟨_, hm, .inr rfl⟩⟩
    · exact .inr ⟨d', he', hr'⟩

/-! ### Deleting -/

/-- The C probes `(h + i) mod 2⁶⁴ mod capacity`; the capacity divides `2⁶⁴`. -/
theorem remove_slot (hr : Represents d m) (key : CString) (i : ℕ) :
    ((dictHash key).toNat + i) % 2 ^ 64 % d.capacity =
      slotAt d.capacity (homeSlot d.capacity key) i := by
  obtain ⟨j, hj, hd⟩ := hr.capPow
  have hdvd : d.capacity ∣ 2 ^ 64 := by
    rw [hd]
    exact Nat.pow_dvd_pow 2 (by omega)
  rw [Nat.mod_mod_of_dvd _ hdvd, homeSlot, slotAt_mod, slotAt]

/-- The loop of `__visuall_dict_remove`: it deletes the key at its slot, or the key is on no
path. -/
theorem dictRemoveLoop_cases (hr : Represents d m) (key : CString) (rem i : ℕ)
    (hsum : i + rem = d.capacity)
    (hp : Passed d.capacity (homeSlot d.capacity key) (fun s => (entryAt d.entries s).state)
      (fun s => keyIs (entryAt d.entries s) key) i) :
    (∃ s value, Holds d.entries s key value ∧ dictRemoveLoop d key rem i =
      { d with entries := d.entries.set s ⟨some key, value, .deleted⟩
               length := d.length - 1 }) ∨
    (dictRemoveLoop d key rem i = d ∧ m.lookup key = none) := by
  have absent_of_end : (i = d.capacity ∨
      (entryAt d.entries (slotAt d.capacity (homeSlot d.capacity key) i)).state = .empty) →
      m.lookup key = none := by
    intro hend
    rcases hr.find_cases key with ⟨s, value, _, hh, _⟩ | ⟨_, _, hl, _⟩
    · have hit : Hit (fun s => (entryAt d.entries s).state)
          (fun s => keyIs (entryAt d.entries s) key) s := by simp [Hit, keyIs, hh.2]
      exact absurd hit (hp.no_hit hend s (hr.table.path s key value hh))
    · exact hl
  induction rem generalizing i with
  | zero => exact .inr ⟨rfl, absent_of_end (.inl (by omega))⟩
  | succ rem ih =>
    have hnext : ∀ (hne : (entryAt d.entries
          (slotAt d.capacity (homeSlot d.capacity key) i)).state ≠ .empty)
        (hnh : ¬ Hit (fun s => (entryAt d.entries s).state)
          (fun s => keyIs (entryAt d.entries s) key)
          (slotAt d.capacity (homeSlot d.capacity key) i)), _ :=
      fun hne hnh => ih (i + 1) (by omega) (hp.succ hne hnh) fun hend => by
        rcases hr.find_cases key with ⟨s, value, _, hh, _⟩ | ⟨_, _, hl, _⟩
        · have hit : Hit (fun s => (entryAt d.entries s).state)
              (fun s => keyIs (entryAt d.entries s) key) s := by simp [Hit, keyIs, hh.2]
          exact absurd hit
            ((hp.succ hne hnh).no_hit hend s (hr.table.path s key value hh))
        · exact hl
    rw [dictRemoveLoop, remove_slot hr]
    generalize hslot : slotAt d.capacity (homeSlot d.capacity key) i = slot at *
    have hlt : slot < d.capacity := by
      rw [← hslot]
      exact slotAt_lt hr.capacity_pos i
    cases hst : (entryAt d.entries slot).state with
    | empty => simpa [hst] using .inr (absent_of_end (.inr hst))
    | deleted => simpa [hst] using hnext (by simp [hst]) (by simp [Hit, hst])
    | used =>
      by_cases hk : keyIs (entryAt d.entries slot) key = true
      · have hh := hr.table.holds_of_hit hlt ⟨hst, hk⟩
        refine .inl ⟨slot, _, hh, ?_⟩
        have hkey : (entryAt d.entries slot).key = some key := by simpa [keyIs] using hk
        simp [hk, hkey]
      · simpa [hst, hk] using hnext (by simp [hst]) (by simp [Hit, hk])

/-- **`__visuall_dict_remove` erases.** -/
theorem dictRemove_represents (hr : Represents d m) (key : CString) :
    Represents (dictRemove d (some key)) (m.erase key) := by
  have lookup_erase : ∀ k v, (m.erase key).lookup k = some v ↔ key ≠ k ∧ m.lookup k = some v := by
    intro k v
    by_cases hkk : key = k
    · subst hkk
      simp
    · simp [Finmap.lookup_erase_ne (Ne.symm hkk), hkk]
  rcases dictRemoveLoop_cases hr key d.capacity 0 (by omega) (fun j hj => absurd hj (by omega))
    with ⟨s, value, hh, he⟩ | ⟨he, hl⟩
  · rw [dictRemove, he]
    have hs : s < d.capacity := by rw [← hr.table.length_eq]; exact hh.1
    have hcount := usedCount_set (⟨some key, value, .deleted⟩ : DictEntry) hh.1
    simp only [hh.2, if_true, reduceCtorEq, if_false] at hcount
    refine ⟨hr.table.tombstone hs _ rfl, hr.capPow, ?_, ?_, ?_⟩
    · change d.length - 1 = usedCount (d.entries.set s ⟨some key, value, .deleted⟩)
      rw [hr.length_eq]
      omega
    · have := hr.room
      change d.length - 1 < d.capacity
      omega
    · intro k v
      rw [lookup_erase, hr.content k v]
      simp only [hr.table.holds_set hs]
      constructor
      · rintro ⟨hne, t, hold⟩
        refine ⟨t, .inr ⟨?_, hold⟩⟩
        rintro rfl
        exact hne (by simpa [hh.2] using congrArg DictEntry.key hold.2)
      · rintro ⟨t, ⟨_, heq⟩ | ⟨hne, hold⟩⟩
        · exact absurd heq (by simp)
        · refine ⟨?_, t, hold⟩
          rintro rfl
          exact hne (hr.table.unique s t key _ _ hh hold)
  · rw [dictRemove, he]
    have herase : m.erase key = m := by
      refine Finmap.ext_lookup fun k => ?_
      by_cases hkk : key = k
      · subst hkk
        rw [Finmap.lookup_erase, hl]
      · rw [Finmap.lookup_erase_ne (Ne.symm hkk)]
    rw [herase]
    exact hr

/-- A new dictionary represents the empty map. -/
theorem dictNew_represents : (malloc (24 * dictInitCap) = false ∧
      dictNew malloc = .error (.exit "out of memory\n")) ∨
    (∃ d, dictNew malloc = .ok d ∧ Represents d ∅) := by
  cases hm : malloc (24 * dictInitCap) with
  | false =>
    refine .inl ⟨rfl, ?_⟩
    simp only [dictNew, newEntries, hm]
    rfl
  | true =>
    refine .inr ⟨⟨List.replicate dictInitCap default, dictInitCap, 0⟩, ?_,
      TableInv.fresh _, ⟨4, by omega, rfl⟩, rfl, by decide, fun key value => ?_⟩
    · simp only [dictNew, newEntries, hm, if_true]
      rfl
    · rw [Finmap.lookup_empty]
      constructor
      · exact fun h => absurd h (by simp)
      · rintro ⟨s, hs, he⟩
        rw [entryAt_of_lt hs, List.getElem_replicate] at he
        have hst : SlotState.empty = .used := congrArg DictEntry.state he
        exact absurd hst (by decide)

end Writing

/-! ### Runs -/

/-- The dictionary operations of a client. -/
inductive DictOp where
  | set (key : CString) (value : Int64)
  | remove (key : CString)
  | get (key : CString)
  | has (key : CString)
  | len
  | keys

/-- What an operation returns. -/
inductive DictResult where
  | done
  | value (v : Int64)
  | flag (b : Bool)
  | count (n : ℕ)
  | keys (l : List (Option CString))

/-- One operation on the runtime's dictionary. -/
def dictStep (malloc : ℕ → Bool) (d : VisualDict) : DictOp → Except DictStop (DictResult × VisualDict)
  | .set key value => do
      let d' ← dictSet malloc d (some key) value
      return (.done, d')
  | .remove key => .ok (.done, dictRemove d (some key))
  | .get key => do
      let v ← dictGet d (some key)
      return (.value v, d)
  | .has key => .ok (.flag (dictHas d (some key)), d)
  | .len => .ok (.count (dictLen d), d)
  | .keys => .ok (.keys (dictKeys d), d)

/-- The same operation on the finite map. -/
def mapStep (m : DictMap) : DictOp → DictMap
  | .set key value => m.insert key value
  | .remove key => m.erase key
  | _ => m

/-- The result an operation may return on the finite map `m`. -/
def ResultAgrees (m : DictMap) : DictOp → DictResult → Prop
  | .set _ _, .done => True
  | .remove _, .done => True
  | .get key, .value v => m.lookup key = some v
  | .has key, .flag b => b = true ↔ key ∈ m
  | .len, .count n => n = m.keys.card
  | .keys, .keys l => ∃ ks : List CString, l = ks.map some ∧ ks.Nodup ∧ ∀ key, key ∈ ks ↔ key ∈ m
  | _, _ => False

/-- The ways an operation may end the process on the finite map `m`: reading an absent key, and
running out of memory while setting.  No operation may leave through slot `-1`. -/
def StopAgrees (malloc : ℕ → Bool) (d : VisualDict) (m : DictMap) : DictOp → DictStop → Prop
  | .get key, .exit msg => key ∉ m ∧ msg = "KeyError: '" ++ key.text ++ "'\n"
  | .set _ _, .exit msg => Exhausted malloc d msg
  | _, _ => False

/-- Whenever an insertion has made room, its search returns a slot. -/
def InsertionSlotFound (malloc : ℕ → Bool) (d : VisualDict) : DictOp → Prop
  | .set key _ => ∀ d', dictGrow malloc d = .ok d' →
      dictFindSlot d'.entries d'.capacity key ≠ none
  | _ => True

/-- Along a sequence of operations, each with the allocator it meets, the dictionary answers as the
finite map does until the process exits. -/
def RunAgrees : List (DictOp × (ℕ → Bool)) → VisualDict → DictMap → Prop
  | [], _, _ => True
  | (op, malloc) :: ops, d, m =>
      InsertionSlotFound malloc d op ∧
      match dictStep malloc d op with
      | .ok (r, d') => ResultAgrees m op r ∧ RunAgrees ops d' (mapStep m op)
      | .error stop => StopAgrees malloc d m op stop

/-- The search of an insertion never returns `-1`. -/
theorem insertionSlotFound {d : VisualDict} {m : DictMap} (hr : Represents d m)
    (malloc : ℕ → Bool) (op : DictOp) : InsertionSlotFound malloc d op := by
  cases op with
  | set key value =>
    intro d' hd
    rcases dictGrow_represents malloc hr with ⟨msg, he, _⟩ | ⟨d₁, he, hr₁, _⟩
    · rw [he] at hd
      exact absurd hd (by simp)
    · obtain rfl : d₁ = d' := by simpa [he] using hd
      obtain ⟨s, hf⟩ := dictFindSlot_isSome hr₁ key
      simp [hf]
  | _ => trivial

/-- **One operation.**  It answers as the finite map does and keeps the representation. -/
theorem dictStep_agrees {d : VisualDict} {m : DictMap} (hr : Represents d m) (malloc : ℕ → Bool)
    (op : DictOp) :
    (∃ r d', dictStep malloc d op = .ok (r, d') ∧ ResultAgrees m op r ∧
      Represents d' (mapStep m op)) ∨
    (∃ stop, dictStep malloc d op = .error stop ∧ StopAgrees malloc d m op stop) := by
  cases op with
  | set key value =>
    rcases dictSet_represents malloc hr key value with ⟨msg, he, hx⟩ | ⟨d', he, hr'⟩
    · exact .inr ⟨.exit msg, by simp only [dictStep, he]; rfl, hx⟩
    · exact .inl ⟨.done, d', by simp only [dictStep, he]; rfl, trivial, hr'⟩
  | remove key => exact .inl ⟨_, _, rfl, trivial, dictRemove_represents hr key⟩
  | get key =>
    cases hl : m.lookup key with
    | some value =>
      exact .inl ⟨.value value, d, by simp only [dictStep, dictGet_of_lookup hr hl]; rfl, hl, hr⟩
    | none =>
      exact .inr ⟨.exit _, by simp only [dictStep, dictGet_of_absent hr hl]; rfl,
        Finmap.lookup_eq_none.mp hl, rfl⟩
  | has key => exact .inl ⟨_, _, rfl, dictHas_iff hr key, hr⟩
  | len => exact .inl ⟨_, _, rfl, dictLen_eq hr, hr⟩
  | keys =>
    exact .inl ⟨_, _, rfl, ⟨_, dictKeys_eq hr, presentKeys_nodup hr, mem_presentKeys hr⟩, hr⟩

/-- A run from a represented state agrees with the finite map, by induction on the operations. -/
theorem runAgrees_of_represents (ops : List (DictOp × (ℕ → Bool))) {d : VisualDict} {m : DictMap}
    (hr : Represents d m) : RunAgrees ops d m := by
  induction ops generalizing d m with
  | nil => trivial
  | cons head ops ih =>
    obtain ⟨op, malloc⟩ := head
    refine ⟨insertionSlotFound hr malloc op, ?_⟩
    rcases dictStep_agrees hr malloc op with ⟨r, d', he, hres, hr'⟩ | ⟨stop, he, hstop⟩
    · rw [he]
      exact ⟨hres, ih hr'⟩
    · rw [he]
      exact hstop

/-- **The dictionary refines a finite map.**  From `__visuall_dict_new`, along every sequence of
operations and whatever the allocator does, each answer is the one of the finite map, an absent key
takes the `KeyError` path, and no search of an insertion or of a rehash returns `-1`. -/
theorem dict_refines_finmap (mallocNew : ℕ → Bool) (ops : List (DictOp × (ℕ → Bool))) :
    (∃ d, dictNew mallocNew = .ok d ∧ RunAgrees ops d ∅) ∨
    (mallocNew (24 * dictInitCap) = false ∧
      dictNew mallocNew = .error (.exit "out of memory\n")) := by
  rcases dictNew_represents mallocNew with hfail | ⟨d, he, hr⟩
  · exact .inr hfail
  · exact .inl ⟨d, he, runAgrees_of_represents ops hr⟩

end Visuall.Runtime
