import Visuall.Gc.PtrMap
import Visuall.Lib.BackwardShift

/-!
# The pointer map refines a finite map

`ptr_map_remove`, and what a sequence of calls does: the map from keys to headers is Mathlib's `Finmap`.

* `ptrMapRemove`, `ptrMapRemove_table` — deletion without tombstones, over `Visuall.Lib.BackwardShift`;
* `Represents pm m` — the table stores the finite map `m`, with a quarter of its slots empty;
* `runMap`, `runMap_refines` — any sequence of insertions, removals, growths and rebuilds.
-/

namespace Visuall.Gc

open LinearProbe

/-- The entry at `j`, whose home slot is `k`, belongs in the gap at `idx`. -/
def shiftsBack (idx j k : ℕ) : Bool := (j > idx && (k ≤ idx || k > j)) || (j < idx && (k ≤ idx && k > j))

/-- The inner loop of `ptr_map_remove`, with the gap at `idx` and within `fuel` turns. -/
def backwardShift (mask : ℕ) : ℕ → List PtrMapEntry → ℕ → ℕ → Except Stop (List PtrMapEntry)
  | 0, _, _, _ => .error .endless
  | fuel + 1, entries, idx, j =>
      if (entryAt entries j).key = 0 then .ok entries
      else
        let k := ptrHash (entryAt entries j).key mask
        if shiftsBack idx j k then
          backwardShift mask fuel ((entries.set idx (entryAt entries j)).set j ⟨0, 0⟩) j ((j + 1) &&& mask)
        else backwardShift mask fuel entries idx ((j + 1) &&& mask)

/-- `ptr_map_remove`. -/
def ptrMapRemove (pm : Option PtrMap) (key : ℕ) : Except Stop (Option PtrMap) :=
  match pm with
  | none => .ok none
  | some pm =>
      if key = 0 then .ok (some pm)
      else do
        let mask := pm.cap - 1
        let idx ← probe (fun e => e.key = 0 || e.key = key) pm.entries mask pm.cap (ptrHash key mask)
        if (entryAt pm.entries idx).key = 0 then return some pm
        let entries ← backwardShift mask pm.cap (pm.entries.set idx ⟨0, 0⟩) idx ((idx + 1) &&& mask)
        return some { pm with entries := entries, size := pm.size - 1 }

/-! ### Deletion -/

section Deletion

variable {cap k g d m fuel : ℕ} {entries : List PtrMapEntry}

/-- The home slot of what a slot holds. -/
def homeOf (cap : ℕ) (entries : List PtrMapEntry) (s : ℕ) : ℕ := ptrHash (entryAt entries s).key (cap - 1)

/-- Every occupied slot is met from its home after occupied slots only. -/
def Placed (cap : ℕ) (entries : List PtrMapEntry) : Prop :=
  ∀ s < cap, Occupied entries s → OnPath cap (Occupied entries) (homeOf cap entries s) s

/-- Slot `j` moved to the empty slot `g`: the same is stored. -/
theorem stored_move {j : ℕ} (hg : g < entries.length) (hj : j < entries.length) (hne : j ≠ g)
    (hempty : (entryAt entries g).key = 0) (hocc : Occupied entries j) :
    (stored ((entries.set g (entryAt entries j)).set j ⟨0, 0⟩)).Perm (stored entries) := by
  obtain ⟨rest, hold, hnew⟩ := stored_set hg
  have hcopied := hnew (entryAt entries j)
  rw [stored_empty hempty] at hold
  rw [stored_occupied hocc] at hcopied
  have hj' : j < (entries.set g (entryAt entries j)).length := by rwa [List.length_set]
  obtain ⟨rest', hold', hnew'⟩ := stored_set hj'
  have hcleared := hnew' ⟨0, 0⟩
  have hkept : entryAt (entries.set g (entryAt entries j)) j = entryAt entries j := by rw [entryAt_set hg, if_neg hne]
  rw [hkept, stored_occupied hocc] at hold'
  rw [stored_empty rfl] at hcleared
  -- with the entry twice, both are that entry and the rest
  have hrest : rest.Perm rest' := (List.perm_cons _).mp (hcopied.symm.trans hold')
  exact hcleared.trans (hrest.symm.trans hold.symm)

theorem shiftsBack_iff {j : ℕ} (hg : g < cap) (hk : k < cap) (hpos : 0 < d) (hd : d < cap)
    (hj : slotAt cap g d = j) : shiftsBack g j k = true ↔ ¬ Within cap g d k := by
  rw [within_iff hg hk hpos hd hj]
  simp only [shiftsBack, Bool.or_eq_true, Bool.and_eq_true, decide_eq_true_eq]

/-- **The loop** restores the paths, up to the first empty slot behind the gap. -/
theorem backwardShift_spec (hcap : cap = 2 ^ k) (fuel : ℕ) (entries : List PtrMapEntry) (hlen : entries.length = cap)
    (hgap : Gap cap (Occupied entries) (homeOf cap entries) g d) (hdm : d ≤ m) (hm : m < cap)
    (hempty : ¬ Occupied entries (slotAt cap g m)) (hfuel : m - d < fuel) :
    ∃ out, backwardShift (cap - 1) fuel entries g (slotAt cap g d) = .ok out ∧ out.length = cap ∧
      (stored out).Perm (stored entries) ∧ Placed cap out := by
  induction fuel generalizing entries g d m with
  | zero => omega
  | succ fuel ih =>
      have hnext : (slotAt cap g d + 1) &&& (cap - 1) = slotAt cap g (d + 1) := by rw [and_mask hcap, slotAt_succ]
      by_cases hstop : (entryAt entries (slotAt cap g d)).key = 0
      · refine ⟨entries, by rw [backwardShift, if_pos hstop], hlen, .refl _, ?_⟩
        exact hgap.stop (by omega) (not_not.mpr hstop)
      have hne : d ≠ m := fun h => hempty (h ▸ hstop)
      have hhome : homeOf cap entries (slotAt cap g d) < cap := ptrHash_lt hcap _
      have hg := hgap.lt
      have hjlt : slotAt cap g d < cap := slotAt_lt (by omega) d
      have hjg : slotAt cap g d ≠ g := fun h =>
        hgap.pos.ne' (slotAt_inj (by omega) (by omega) (h.trans (slotAt_zero hg).symm))
      by_cases hshift : shiftsBack g (slotAt cap g d) (homeOf cap entries (slotAt cap g d)) = true
      · -- the entry moves, and the gap with it
        generalize hmoved : (entries.set g (entryAt entries (slotAt cap g d))).set (slotAt cap g d) ⟨0, 0⟩ = moved
        have hset : ∀ t, entryAt moved t = if t = slotAt cap g d then ⟨0, 0⟩
            else if t = g then entryAt entries (slotAt cap g d) else entryAt entries t := by
          intro t
          rw [← hmoved, entryAt_set (by rw [List.length_set]; omega), entryAt_set (by omega)]
        have hocc : ∀ t, Occupied moved t ↔ (Occupied entries t ∨ t = g) ∧ t ≠ slotAt cap g d := by
          intro t
          rw [Occupied, hset]
          by_cases htj : t = slotAt cap g d
          · rw [if_pos htj]
            exact ⟨fun h => absurd rfl h, fun h => absurd htj h.2⟩
          · rw [if_neg htj]
            by_cases htg : t = g
            · rw [if_pos htg]
              exact ⟨fun _ => ⟨.inr htg, htj⟩, fun _ => hstop⟩
            · rw [if_neg htg]
              exact ⟨fun h => ⟨.inl h, htj⟩, fun h => h.1.resolve_right htg⟩
        have hgap' : Gap cap (Occupied moved) (homeOf cap moved) (slotAt cap g d) 1 := by
          refine hgap.shift (by omega) rfl hstop hhome ((shiftsBack_iff hg hhome hgap.pos (by omega) rfl).mp hshift)
            hocc ?_ fun t htg htj => ?_
          · rw [homeOf, hset, if_neg hjg.symm, if_pos rfl, homeOf]
          · rw [homeOf, hset, if_neg htj, if_neg htg, homeOf]
        have hahead : slotAt cap (slotAt cap g d) (m - d) = slotAt cap g m := by
          rw [slotAt_add, Nat.add_sub_cancel' hdm]
        have hempty' : ¬ Occupied moved (slotAt cap (slotAt cap g d) (m - d)) := by
          rw [hahead, hocc]
          rintro ⟨ho | hmg, -⟩
          · exact hempty ho
          · exact absurd (slotAt_inj hm (by omega) (hmg.trans (slotAt_zero hg).symm)) (by have := hgap.pos; omega)
        obtain ⟨out, hout, hlen', hperm, hplaced⟩ := ih moved (by rw [← hmoved, List.length_set, List.length_set, hlen])
          hgap' (by omega) (by omega) hempty' (by omega)
        refine ⟨out, ?_, hlen', hperm.trans ?_, hplaced⟩
        · rw [backwardShift, if_neg hstop]
          show (if shiftsBack g (slotAt cap g d) (homeOf cap entries (slotAt cap g d)) = true then _ else _) = _
          rw [if_pos hshift, hmoved, hnext, ← slotAt_add]
          exact hout
        · rw [← hmoved]
          exact stored_move (by omega) (by omega) hjg (not_not.mp hgap.empty) hstop
      · have hin : Within cap g d (homeOf cap entries (slotAt cap g d)) := by
          by_contra hout
          exact hshift ((shiftsBack_iff hg hhome hgap.pos (by omega) rfl).mpr hout)
        obtain ⟨out, hout, hrest⟩ := ih entries hlen (hgap.pass (by omega) hstop hin) (m := m) (by omega) hm hempty
          (by omega)
        refine ⟨out, ?_, hrest⟩
        rw [backwardShift, if_neg hstop]
        show (if shiftsBack g (slotAt cap g d) (homeOf cap entries (slotAt cap g d)) = true then _ else _) = _
        rw [if_neg hshift, hnext]
        exact hout

end Deletion

variable {pm : PtrMap} {es es' : List PtrMapEntry} {e : PtrMapEntry} {key : ℕ}

/-- **`ptr_map_remove`** takes the entry of a key out of a table with another empty slot. -/
theorem ptrMapRemove_table (ht : pm.Table es) (key : ℕ) :
    (∃ e rest pm', es.Perm (e :: rest) ∧ e.key = key ∧ ptrMapRemove (some pm) key = .ok (some pm') ∧
        pm'.Table rest ∧ pm'.cap = pm.cap) ∨
      ((∀ e ∈ es, e.key ≠ key) ∧ ptrMapRemove (some pm) key = .ok (some pm)) := by
  by_cases hkey : key = 0
  · exact .inr ⟨fun e he => hkey ▸ ht.key_ne he, by rw [ptrMapRemove, if_pos hkey]⟩
  obtain ⟨k, hk⟩ := ht.pow
  obtain ⟨s, hs, hprobe, hcase⟩ := ht.search hkey
  have heq : ptrMapRemove (some pm) key = (do
      if (entryAt pm.entries s).key = 0 then return some pm
      let entries ← backwardShift (pm.cap - 1) pm.cap (pm.entries.set s ⟨0, 0⟩) s ((s + 1) &&& (pm.cap - 1))
      return some { pm with entries := entries, size := pm.size - 1 }) := by
    rw [ptrMapRemove, if_neg hkey]
    simp only [hprobe]
    rfl
  rcases hcase with ⟨hmem, hfound⟩ | ⟨hnone, hzero, -⟩
  · have hocc : (entryAt pm.entries s).key ≠ 0 := hfound ▸ hkey
    have hlen : s < pm.entries.length := ht.length ▸ hs
    obtain ⟨rest, hold, hnew⟩ := stored_set hlen
    have hcleared := hnew ⟨0, 0⟩
    rw [stored_occupied hocc] at hold
    rw [stored_empty rfl, List.nil_append] at hcleared
    have hperm : es.Perm (entryAt pm.entries s :: rest) := ht.contents.symm.trans hold
    have hlength : es.length = rest.length + 1 := hperm.length_eq
    -- the paths of the other entries cross the emptied slot and nothing else that is empty
    have hkept : ∀ t, t ≠ s → entryAt (pm.entries.set s ⟨0, 0⟩) t = entryAt pm.entries t := fun t hts => by
      rw [entryAt_set hlen, if_neg hts]
    have hocc' : ∀ t, Occupied (pm.entries.set s ⟨0, 0⟩) t ↔ Occupied pm.entries t ∧ t ≠ s := by
      intro t
      by_cases hts : t = s
      · rw [Occupied, entryAt_set hlen, if_pos hts]
        exact ⟨fun h => absurd rfl h, fun h => absurd hts h.2⟩
      · rw [Occupied, hkept t hts]
        exact ⟨fun h => ⟨h, hts⟩, fun h => h.1⟩
    have hgap : Gap pm.cap (Occupied (pm.entries.set s ⟨0, 0⟩)) (homeOf pm.cap (pm.entries.set s ⟨0, 0⟩)) s 1 :=
      .start hs ht.placed hocc' fun t hts => by rw [homeOf, hkept t hts]
    obtain ⟨t, htlt, hempty⟩ := ht.exists_empty
    have hts : t ≠ s := fun h => hempty (h ▸ hocc)
    obtain ⟨m, hm, hslot⟩ := exists_slotAt (h := s) htlt
    have hpos : 0 < m := by
      rcases Nat.eq_zero_or_pos m with rfl | hpos
      · exact absurd (hslot.symm.trans (slotAt_zero hs)) hts
      · exact hpos
    obtain ⟨out, hout, hlen', hstored, hplaced⟩ := backwardShift_spec hk pm.cap (pm.entries.set s ⟨0, 0⟩)
      (by rw [List.length_set]; exact ht.length) hgap hpos hm
      (by rw [hslot, hocc']; exact fun h => hempty h.1) (by omega)
    refine .inl ⟨_, rest, { pm with entries := out, size := pm.size - 1 }, hperm, hfound, ?_, ?_, rfl⟩
    · have hnext : (s + 1) &&& (pm.cap - 1) = slotAt pm.cap s 1 := and_mask hk (s + 1)
      rw [heq, if_neg hocc, hnext, hout]
      rfl
    · have hsize := ht.size
      have hroom := ht.room
      refine ⟨ht.pow, hlen', hstored.trans hcleared, ?_, ?_, hplaced⟩
      · show pm.size - 1 = rest.length
        omega
      · show rest.length < pm.cap
        omega
  · exact .inr ⟨hnone, by rw [heq, if_pos hzero]; rfl⟩

/-! ### The finite map -/

/-- The abstract map, from keys to headers. -/
abbrev AddrMap := Finmap (fun _ : ℕ => ℕ)

/-- The table stores the finite map, with a quarter of its slots empty. -/
structure Represents (pm : Option PtrMap) (m : AddrMap) (es : List PtrMapEntry) : Prop where
  table : (tableOf pm).Table es
  large : ptrMapInitCap ≤ (tableOf pm).cap
  load : es.length * 4 ≤ (tableOf pm).cap * 3
  nodup : (es.map (·.key)).Nodup
  content : ∀ key value, m.lookup key = some value ↔ ⟨key, value⟩ ∈ es

namespace Represents

variable {pm : Option PtrMap} {m : AddrMap}

theorem mem_iff (hr : Represents pm m es) : key ∈ m ↔ key ∈ es.map (·.key) := by
  rw [Finmap.mem_iff, List.mem_map]
  constructor
  · rintro ⟨value, hvalue⟩
    exact ⟨_, (hr.content key value).mp hvalue, rfl⟩
  · rintro ⟨e, he, rfl⟩
    exact ⟨e.value, (hr.content e.key e.value).mpr he⟩

theorem card_keys (hr : Represents pm m es) : m.keys.card = es.length := by
  have hkeys : m.keys = (es.map (·.key)).toFinset := by
    ext key
    rw [Finmap.mem_keys, List.mem_toFinset, hr.mem_iff]
  rw [hkeys, List.toFinset_card_of_nodup hr.nodup, List.length_map]

/-- Entries that are the same but for their order. -/
theorem perm (hr : Represents pm m es) (hperm : es.Perm es') : Represents pm m es' where
  table := hr.table.perm hperm
  large := hr.large
  load := hperm.length_eq ▸ hr.load
  nodup := (hperm.map _).nodup_iff.mp hr.nodup
  content key value := (hr.content key value).trans hperm.mem_iff

theorem rest_ne {rest : List PtrMapEntry} (hr : Represents pm m (e :: rest)) : ∀ e' ∈ rest, e'.key ≠ e.key := by
  intro e' he' heq
  have hnodup := hr.nodup
  rw [List.map_cons, List.nodup_cons] at hnodup
  exact hnodup.1 (List.mem_map.mpr ⟨e', he', heq⟩)

/-- Another key is looked up among the other entries. -/
theorem rest_content {rest : List PtrMapEntry} (hr : Represents pm m (e :: rest)) {k : ℕ} (hk : k ≠ e.key) (v : ℕ) :
    m.lookup k = some v ↔ ⟨k, v⟩ ∈ rest := by
  rw [hr.content, List.mem_cons]
  constructor
  · rintro (heq | hmem)
    · exact absurd (congrArg PtrMapEntry.key heq) hk
    · exact hmem
  · exact Or.inr

end Represents

variable {m : AddrMap}

theorem represents_none : Represents none ∅ [] where
  table := emptyMap_table (k := 10) rfl
  large := le_rfl
  load := Nat.zero_le _
  nodup := List.nodup_nil
  content key value := by
    rw [Finmap.lookup_empty]
    exact ⟨fun h => (by cases h), fun h => absurd h List.not_mem_nil⟩

section Operations

variable {pm : Option PtrMap}

/-- The content with a value for a key that the other entries do not have. -/
theorem insert_content {rest : List PtrMapEntry} (hne : ∀ e ∈ rest, e.key ≠ key)
    (hrest : ∀ k v, k ≠ key → (m.lookup k = some v ↔ ⟨k, v⟩ ∈ rest)) (value k v : ℕ) :
    (m.insert key value).lookup k = some v ↔ (⟨k, v⟩ : PtrMapEntry) ∈ (⟨key, value⟩ : PtrMapEntry) :: rest := by
  rw [List.mem_cons]
  by_cases hk : k = key
  · subst hk
    rw [Finmap.lookup_insert]
    constructor
    · intro h
      cases h
      exact .inl rfl
    · rintro (heq | hmem)
      · cases heq
        rfl
      · exact absurd rfl (hne _ hmem)
  · rw [Finmap.lookup_insert_of_ne _ hk, hrest k v hk]
    exact ⟨.inr, fun h => h.resolve_left fun heq => hk (congrArg PtrMapEntry.key heq)⟩

theorem erase_content {rest : List PtrMapEntry} (hne : ∀ e ∈ rest, e.key ≠ key)
    (hrest : ∀ k v, k ≠ key → (m.lookup k = some v ↔ ⟨k, v⟩ ∈ rest)) (k v : ℕ) :
    (m.erase key).lookup k = some v ↔ (⟨k, v⟩ : PtrMapEntry) ∈ rest := by
  by_cases hk : k = key
  · subst hk
    rw [Finmap.lookup_erase]
    exact ⟨fun h => (by cases h), fun hmem => absurd rfl (hne _ hmem)⟩
  · rw [Finmap.lookup_erase_ne hk, hrest k v hk]

theorem ptrMapInsert_represents (hr : Represents pm m es) (hkey : key ≠ 0) (value : ℕ) :
    ∃ pm' es', ptrMapInsert pm key value = .ok pm' ∧ Represents (some pm') (m.insert key value) es' := by
  obtain ⟨pm', hinsert, hlarge, hload, hcase⟩ := ptrMapInsert_table hr.table hr.large hkey value
  -- the capacity is a multiple of four, so one more entry does not fill more than three quarters
  have hmore : (es.length + 1) * 4 ≤ pm'.cap * 3 := by
    obtain ⟨k, hk⟩ : ∃ k, pm'.cap = 2 ^ k := hcase.elim (fun ⟨_, _, _, _, ht⟩ => ht.pow) fun h => h.2.pow
    have hinit : ptrMapInitCap = 1024 := rfl
    obtain ⟨j, rfl⟩ : ∃ j, k = j + 2 := by
      refine ⟨k - 2, ?_⟩
      by_contra hsmall
      have := Nat.pow_le_pow_right (n := 2) (by omega) (show k ≤ 1 by omega)
      omega
    rw [pow_add] at hk
    omega
  rcases hcase with ⟨e, rest, hperm, hk, ht⟩ | ⟨hnew, ht⟩
  · have hr' := hr.perm hperm
    subst hk
    refine ⟨pm', _, hinsert, ht, hlarge, ?_, hr'.nodup, insert_content hr'.rest_ne
      (fun k v hk => hr'.rest_content hk v) value⟩
    have hlength := hperm.length_eq
    rw [List.length_cons] at hlength ⊢
    show (rest.length + 1) * 4 ≤ pm'.cap * 3
    omega
  · refine ⟨pm', _, hinsert, ht, hlarge, hmore, ?_, insert_content hnew (fun k v _ => hr.content k v) value⟩
    rw [List.map_cons, List.nodup_cons]
    refine ⟨fun hmem => ?_, hr.nodup⟩
    obtain ⟨e, he, hek⟩ := List.mem_map.mp hmem
    exact hnew e he hek

theorem ptrMapRemove_represents (hr : Represents pm m es) (key : ℕ) :
    ∃ pm' es', ptrMapRemove pm key = .ok pm' ∧ Represents pm' (m.erase key) es' := by
  cases pm with
  | none =>
      have hnil : es = [] := (hr.table.contents.symm.trans (emptyMap_table (k := 10) rfl).contents).eq_nil
      subst hnil
      refine ⟨none, [], rfl, hr.table, hr.large, hr.load, hr.nodup, erase_content (fun e he => ?_) fun k v _ => ?_⟩
      · exact absurd he List.not_mem_nil
      · exact hr.content k v
  | some pm =>
      rcases ptrMapRemove_table hr.table key with ⟨e, rest, pm', hperm, hk, hremove, ht, hcap⟩ | ⟨hnone, hremove⟩
      · have hr' := hr.perm hperm
        subst hk
        refine ⟨some pm', rest, hremove, ht, ?_, ?_, ?_, erase_content hr'.rest_ne fun k v hk => hr'.rest_content hk v⟩
        · show ptrMapInitCap ≤ pm'.cap
          rw [hcap]
          exact hr.large
        · have hload := hr'.load
          rw [List.length_cons] at hload
          show rest.length * 4 ≤ pm'.cap * 3
          rw [hcap]
          show rest.length * 4 ≤ (tableOf (some pm)).cap * 3
          omega
        · have hnodup := hr'.nodup
          rw [List.map_cons, List.nodup_cons] at hnodup
          exact hnodup.2
      · exact ⟨some pm, es, hremove, hr.table, hr.large, hr.load, hr.nodup,
          erase_content hnone fun k v _ => hr.content k v⟩

theorem ptrMapLookup_represents (hr : Represents pm m es) (key : ℕ) :
    ptrMapLookup pm key = .ok (m.lookup key) := by
  rcases ptrMapLookup_table hr.table key with ⟨e, he, rfl, hlookup⟩ | ⟨hnone, hlookup⟩
  · rw [hlookup, (hr.content e.key e.value).mpr he]
  · rw [hlookup]
    cases hm : m.lookup key with
    | none => rfl
    | some value => exact absurd rfl (hnone _ ((hr.content key value).mp hm))

theorem ptrMapGrow_represents {pm : PtrMap} (hr : Represents (some pm) m es) :
    ∃ pm', ptrMapGrow pm = .ok pm' ∧ Represents (some pm') m es := by
  have ht : pm.Table es := hr.table
  have hlarge : ptrMapInitCap ≤ pm.cap := hr.large
  have hload : es.length * 4 ≤ pm.cap * 3 := hr.load
  have hroom := ht.room
  obtain ⟨k, hk⟩ := ht.pow
  obtain ⟨pm', hgrow, ht', hcap⟩ := ptrMapRehash_table (pm.cap * 2) ht (by rw [hk, ← pow_succ]) (by omega)
  refine ⟨pm', hgrow, ht', ?_, ?_, hr.nodup, hr.content⟩
  · show ptrMapInitCap ≤ pm'.cap
    omega
  · show es.length * 4 ≤ pm'.cap * 3
    omega

end Operations

/-! ### Sequences of calls -/

/-- The map of the objects of a heap list. -/
def objectMap : List ℕ → AddrMap
  | [] => ∅
  | h :: hs => (objectMap hs).insert (h + headerSize) h

theorem objectMap_keys (hs : List ℕ) : (objectMap hs).keys = (hs.map (· + headerSize)).toFinset := by
  induction hs with
  | nil => rfl
  | cons h hs ih =>
      ext key
      rw [List.map_cons, List.toFinset_cons, Finset.mem_insert, ← ih, Finmap.mem_keys, Finmap.mem_keys, objectMap,
        Finmap.mem_insert]

theorem objectMap_content (hs : List ℕ) (key value : ℕ) :
    (objectMap hs).lookup key = some value ↔ (⟨key, value⟩ : PtrMapEntry) ∈ hs.map entryOf := by
  induction hs with
  | nil =>
      rw [objectMap, Finmap.lookup_empty]
      exact ⟨fun h => (by cases h), fun h => absurd h List.not_mem_nil⟩
  | cons h hs ih =>
      rw [objectMap, List.map_cons, List.mem_cons]
      by_cases hkey : key = h + headerSize
      · subst hkey
        rw [Finmap.lookup_insert]
        constructor
        · intro heq
          cases heq
          exact .inl rfl
        · rintro (heq | hmem)
          · cases heq
            rfl
          · obtain ⟨h', -, heq⟩ := List.mem_map.mp hmem
            obtain ⟨hk, rfl⟩ := PtrMapEntry.mk.inj heq
            rw [Nat.add_right_cancel hk]
      · rw [Finmap.lookup_insert_of_ne _ hkey, ih]
        exact ⟨.inr, fun h => h.resolve_left fun heq => hkey (congrArg PtrMapEntry.key heq)⟩

/-- **`ptr_map_rebuild`**, on a heap list whose objects are in the map. -/
theorem ptrMapRebuild_represents {pm : Option PtrMap} {hs : List ℕ} (hr : Represents pm m es) (hnodup : hs.Nodup)
    (hmapped : ∀ h ∈ hs, m.lookup (h + headerSize) = some h) :
    ∃ pm', ptrMapRebuild pm hs = .ok pm' ∧ Represents pm' (objectMap hs) (hs.map entryOf) := by
  have hkeys : (hs.map entryOf).map (·.key) = hs.map (· + headerSize) := List.map_map
  have hkeysNodup : ((hs.map entryOf).map (·.key)).Nodup := by
    rw [hkeys]
    exact hnodup.map fun a b hab => Nat.add_right_cancel hab
  have hsub : hs.map entryOf ⊆ es := by
    intro e he
    obtain ⟨h, hh, rfl⟩ := List.mem_map.mp he
    exact (hr.content _ _).mp (hmapped h hh)
  have hlen := (List.subperm_of_subset hkeysNodup.of_map hsub).length_le
  rw [List.length_map] at hlen
  cases pm with
  | none =>
      have hnil : es = [] := (hr.table.contents.symm.trans (emptyMap_table (k := 10) rfl).contents).eq_nil
      subst hnil
      have hs_nil : hs = [] := List.eq_nil_of_length_eq_zero (Nat.le_zero.mp hlen)
      subst hs_nil
      exact ⟨none, rfl, represents_none⟩
  | some pm =>
      have hload : es.length * 4 ≤ pm.cap * 3 := hr.load
      obtain ⟨pm', hrebuild, ht, hlarge, hload'⟩ := ptrMapRebuild_table (show pm.Table _ from hr.table) hr.large
        (show hs.length * 4 ≤ _ by omega)
      exact ⟨some pm', hrebuild, ht, hlarge, by rw [List.length_map]; exact hload', hkeysNodup, objectMap_content hs⟩

/-- One call. -/
inductive MapOp where
  | insert (key value : ℕ)
  | remove (key : ℕ)
  | grow
  | rebuild (hs : List ℕ)

/-- One call on the table; there is no growth before there is a table. -/
def stepMap (pm : Option PtrMap) : MapOp → Except Stop (Option PtrMap)
  | .insert key value => do return some (← ptrMapInsert pm key value)
  | .remove key => ptrMapRemove pm key
  | .grow => match pm with
    | none => .ok none
    | some pm => do return some (← ptrMapGrow pm)
  | .rebuild hs => ptrMapRebuild pm hs

/-- One call on the finite map. -/
def stepAbstract (m : AddrMap) : MapOp → AddrMap
  | .insert key value => m.insert key value
  | .remove key => m.erase key
  | .grow => m
  | .rebuild hs => objectMap hs

/-- What the callers see to: no key is NULL, and the objects of the heap list have been inserted. -/
def Allowed (m : AddrMap) : MapOp → Prop
  | .insert key _ => key ≠ 0
  | .rebuild hs => hs.Nodup ∧ ∀ h ∈ hs, m.lookup (h + headerSize) = some h
  | _ => True

def runMap (pm : Option PtrMap) (ops : List MapOp) : Except Stop (Option PtrMap) := ops.foldlM stepMap pm

def runAbstract (m : AddrMap) (ops : List MapOp) : AddrMap := ops.foldl stepAbstract m

/-- Every call is allowed where it is made. -/
def AllowedRun : AddrMap → List MapOp → Prop
  | _, [] => True
  | m, op :: ops => Allowed m op ∧ AllowedRun (stepAbstract m op) ops

/-- One call keeps the table and the finite map together. -/
theorem stepMap_represents {pm : Option PtrMap} {op : MapOp} (hr : Represents pm m es) (hop : Allowed m op) :
    ∃ pm' es', stepMap pm op = .ok pm' ∧ Represents pm' (stepAbstract m op) es' := by
  cases op with
  | insert key value =>
      obtain ⟨pm', es', hinsert, hr'⟩ := ptrMapInsert_represents hr hop value
      exact ⟨some pm', es', by rw [stepMap, hinsert]; rfl, hr'⟩
  | remove key => exact ptrMapRemove_represents hr key
  | grow =>
      cases pm with
      | none => exact ⟨none, es, rfl, hr⟩
      | some pm =>
          obtain ⟨pm', hgrow, hr'⟩ := ptrMapGrow_represents hr
          exact ⟨some pm', es, by rw [stepMap, hgrow]; rfl, hr'⟩
  | rebuild hs =>
      obtain ⟨pm', hrebuild, hr'⟩ := ptrMapRebuild_represents hr hop.1 hop.2
      exact ⟨pm', _, hrebuild, hr'⟩

theorem runMap_represents {pm : Option PtrMap} (ops : List MapOp) (hr : Represents pm m es) (hops : AllowedRun m ops) :
    ∃ pm' es', runMap pm ops = .ok pm' ∧ Represents pm' (runAbstract m ops) es' := by
  induction ops generalizing pm m es with
  | nil => exact ⟨pm, es, rfl, hr⟩
  | cons op ops ih =>
      obtain ⟨next, es₁, hstep, hnext⟩ := stepMap_represents hr hops.1
      obtain ⟨pm', es', hrun, hr'⟩ := ih hnext hops.2
      exact ⟨pm', es', by rw [runMap, List.foldlM_cons, hstep]; exact hrun, hr'⟩

/-- What the table shows of a finite map. -/
structure Shows (pm : Option PtrMap) (m : AddrMap) : Prop where
  lookup : ∀ key, ptrMapLookup pm key = .ok (m.lookup key)
  size : (tableOf pm).size = m.keys.card
  keys : ∀ key, key ∈ (stored (tableOf pm).entries).map (·.key) ↔ key ∈ m
  quarter : (tableOf pm).cap ≤ 4 * ((tableOf pm).entries.filter fun e => e.key = 0).length

theorem Represents.shows {pm : Option PtrMap} (hr : Represents pm m es) : Shows pm m where
  lookup := ptrMapLookup_represents hr
  size := hr.table.size.trans hr.card_keys.symm
  keys key := by rw [hr.mem_iff, (hr.table.contents.map (·.key)).mem_iff]
  quarter := by
    have hsplit := List.length_eq_length_filter_add (l := (tableOf pm).entries) fun e => decide (e.key ≠ 0)
    have hempty : ((tableOf pm).entries.filter fun e => !decide (e.key ≠ 0)) =
        (tableOf pm).entries.filter fun e => e.key = 0 := by
      refine List.filter_congr fun e _ => ?_
      by_cases h : e.key = 0 <;> simp [h]
    have hstored : ((tableOf pm).entries.filter fun e => decide (e.key ≠ 0)).length = es.length :=
      hr.table.contents.length_eq
    have hload := hr.load
    have hlength := hr.table.length
    rw [hempty, hstored] at hsplit
    omega

/-- **The pointer map refines a finite map.**  In any sequence of calls every search ends, the table shows the
finite map, and after a rebuild its keys are the user pointers of the heap list. -/
theorem runMap_refines {ops : List MapOp} (hops : AllowedRun ∅ ops) :
    ∃ pm, runMap none ops = .ok pm ∧ Shows pm (runAbstract ∅ ops) ∧
      ∀ before hs, ops = before ++ [.rebuild hs] →
        ∀ key, key ∈ (stored (tableOf pm).entries).map (·.key) ↔ ∃ h ∈ hs, key = h + headerSize := by
  obtain ⟨pm, es, hrun, hr⟩ := runMap_represents ops represents_none hops
  refine ⟨pm, hrun, hr.shows, ?_⟩
  rintro before hs rfl key
  have hlast : runAbstract ∅ (before ++ [.rebuild hs]) = objectMap hs := by
    rw [runAbstract, List.foldl_append]
    rfl
  rw [hr.shows.keys, hlast, ← Finmap.mem_keys, objectMap_keys, List.mem_toFinset, List.mem_map]
  exact ⟨fun ⟨h, hh, heq⟩ => ⟨h, hh, heq.symm⟩, fun ⟨h, hh, heq⟩ => ⟨h, hh, heq.symm⟩⟩

/-- Two objects, of which one is removed again. -/
def twoObjects : List MapOp := [.insert 1048 1024, .insert 2072 2048, .remove 2072, .grow, .rebuild [1024]]

theorem twoObjects_allowed : AllowedRun ∅ twoObjects := by
  refine ⟨Nat.succ_ne_zero 1047, Nat.succ_ne_zero 2071, trivial, trivial, ⟨List.nodup_singleton _, fun h hh => ?_⟩,
    trivial⟩
  rw [List.mem_singleton.mp hh]
  rfl

theorem runMap_refines_twoObjects :
    ∃ pm, runMap none twoObjects = .ok pm ∧ Shows pm (runAbstract ∅ twoObjects) ∧
      ∀ before hs, twoObjects = before ++ [.rebuild hs] →
        ∀ key, key ∈ (stored (tableOf pm).entries).map (·.key) ↔ ∃ h ∈ hs, key = h + headerSize :=
  runMap_refines twoObjects_allowed

end Visuall.Gc
