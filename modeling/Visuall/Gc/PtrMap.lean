import Visuall.Lib.LinearProbe

/-!
# The pointer map

`ptr_map` is an open-addressing table from the user pointer of every object to its header.  A slot
with key 0 is empty.

* `ptrMapInsert`, `ptrMapLookup`, `ptrMapRebuild` — the operations;
* `PtrMap.Table` — the table stores exactly the given entries, each where a search for its key comes by;
* `ptrMapInsert_table`, `ptrMapLookup_table`, `ptrMapRebuild_table` — what each operation does to it;
* `PtrMap.Holds` — the same for the user pointers of the collector's headers.
-/

namespace Visuall.Gc

open LinearProbe

/-- How the collector ends without a result: `exit(1)` with a message, or a loop without end. -/
inductive Stop where
  | exit (msg : String)
  | endless
deriving DecidableEq

/-- `sizeof(GCHeader)`. -/
def headerSize : ℕ := 24

/-- A slot of the map. -/
structure PtrMapEntry where
  key : ℕ
  value : ℕ
deriving DecidableEq, Inhabited

/-- `ptr_map`, `ptr_map_cap` and `ptr_map_size`. -/
structure PtrMap where
  cap : ℕ
  size : ℕ
  entries : List PtrMapEntry

def ptrMapInitCap : ℕ := 1024

/-- `ptr_hash`, on 64-bit words. -/
def ptrHash (p mask : ℕ) : ℕ :=
  let h := p ^^^ (p >>> 16)
  let h := h * 0x45d9f3b % 2 ^ 64
  let h := h ^^^ (h >>> 16)
  h &&& mask

/-- `ptr_map[i]`. -/
def entryAt (entries : List PtrMapEntry) (i : ℕ) : PtrMapEntry := entries.getD i ⟨0, 0⟩

/-- An empty table. -/
def emptyMap (cap : ℕ) : PtrMap := ⟨cap, 0, List.replicate cap ⟨0, 0⟩⟩

/-- `while (…) idx = (idx + 1) & mask`: the first slot that stops the loop, within `fuel` tests. -/
def probe (stops : PtrMapEntry → Bool) (entries : List PtrMapEntry) (mask : ℕ) :
    ℕ → ℕ → Except Stop ℕ
  | 0, _ => .error .endless
  | fuel + 1, idx =>
      if stops (entryAt entries idx) then .ok idx
      else probe stops entries mask fuel ((idx + 1) &&& mask)

/-- Stores a key known not to be in the table in the first empty slot of its path. -/
def ptrMapPlace (pm : PtrMap) (key value : ℕ) : Except Stop PtrMap := do
  let mask := pm.cap - 1
  let idx ← probe (fun e => e.key = 0) pm.entries mask pm.cap (ptrHash key mask)
  return { pm with entries := pm.entries.set idx ⟨key, value⟩, size := pm.size + 1 }

/-- The slots of one table stored in an empty one. -/
def ptrMapRehash (cap : ℕ) (old : List PtrMapEntry) : Except Stop PtrMap :=
  (old.filter fun e => e.key ≠ 0).foldlM (fun pm e => ptrMapPlace pm e.key e.value) (emptyMap cap)

/-- `ptr_map_grow`. -/
def ptrMapGrow (pm : PtrMap) : Except Stop PtrMap := ptrMapRehash (pm.cap * 2) pm.entries

/-- Room for one more key: the table grows at a load of 75%. -/
def ptrMapReserve (pm : PtrMap) : Except Stop PtrMap :=
  if pm.size * 4 ≥ pm.cap * 3 then ptrMapGrow pm else .ok pm

/-- `ptr_map_insert`. -/
def ptrMapInsert (pm : Option PtrMap) (key value : ℕ) : Except Stop PtrMap := do
  let pm ← ptrMapReserve (pm.getD (emptyMap ptrMapInitCap))
  let mask := pm.cap - 1
  let idx ← probe (fun e => e.key = 0 || e.key = key) pm.entries mask pm.cap (ptrHash key mask)
  return { pm with
    entries := pm.entries.set idx ⟨key, value⟩
    size := if (entryAt pm.entries idx).key = 0 then pm.size + 1 else pm.size }

/-- `ptr_map_lookup`. -/
def ptrMapLookup (pm : Option PtrMap) (key : ℕ) : Except Stop (Option ℕ) :=
  match pm with
  | none => .ok none
  | some pm =>
      if key = 0 then .ok none
      else do
        let mask := pm.cap - 1
        let idx ← probe (fun e => e.key = 0 || e.key = key) pm.entries mask pm.cap
          (ptrHash key mask)
        let e := entryAt pm.entries idx
        return if e.key = 0 then none else some e.value

/-- `while (ptr_map_cap > PTR_MAP_INIT_CAP && ptr_map_size * 8 < ptr_map_cap) …`. -/
def ptrMapShrink : ℕ → PtrMap → Except Stop PtrMap
  | 0, _ => .error .endless
  | fuel + 1, pm =>
      if pm.cap > ptrMapInitCap ∧ pm.size * 8 < pm.cap then do
        let pm ← ptrMapRehash (pm.cap / 2) pm.entries
        ptrMapShrink fuel pm
      else .ok pm

/-- `ptr_map_rebuild`, over the headers of the heap list. -/
def ptrMapRebuild (pm : Option PtrMap) (hs : List ℕ) : Except Stop (Option PtrMap) :=
  match pm with
  | none => .ok none
  | some pm => do
      let pm ← hs.foldlM (fun pm h => ptrMapPlace pm (h + headerSize) h) (emptyMap pm.cap)
      let pm ← ptrMapShrink (pm.cap + 1) pm
      return some pm

/-! ### Probing -/

/-- Slot `i` is occupied. -/
def Occupied (entries : List PtrMapEntry) (i : ℕ) : Prop := (entryAt entries i).key ≠ 0

theorem entryAt_mem {entries : List PtrMapEntry} {i : ℕ} (h : i < entries.length) :
    entryAt entries i ∈ entries := by
  rw [entryAt, List.getD_eq_getElem _ _ h]
  exact List.getElem_mem h

theorem entryAt_set {entries : List PtrMapEntry} {i j : ℕ} {e : PtrMapEntry}
    (h : i < entries.length) :
    entryAt (entries.set i e) j = if j = i then e else entryAt entries j := by
  by_cases hij : j = i
  · subst hij
    rw [if_pos rfl, entryAt, List.getD_eq_getElem _ _ (by simpa using h), List.getElem_set_self]
  · rw [if_neg hij, entryAt, entryAt, List.getD_eq_getElem?_getD, List.getD_eq_getElem?_getD,
      List.getElem?_set_ne (Ne.symm hij)]

variable {k cap fuel : ℕ} {stops : PtrMapEntry → Bool} {entries : List PtrMapEntry}

theorem and_mask (hcap : cap = 2 ^ k) (i : ℕ) : i &&& (cap - 1) = i % cap := by
  rw [hcap, Nat.and_two_pow_sub_one_eq_mod]

theorem ptrHash_lt (hcap : cap = 2 ^ k) (p : ℕ) : ptrHash p (cap - 1) < cap := by
  rw [ptrHash, and_mask hcap]
  exact Nat.mod_lt _ (hcap ▸ Nat.two_pow_pos k)

/-- The loop ends at the first slot of the path that stops it. -/
theorem probe_eq {h n : ℕ} (hcap : cap = 2 ^ k)
    (hn : IsFirst cap (fun s => stops (entryAt entries s) = true) h n) (hfuel : n < fuel)
    (i : ℕ) (hi : i ≤ n) :
    probe stops entries (cap - 1) (fuel - i) (slotAt cap h i) = .ok (slotAt cap h n) := by
  induction hd : n - i generalizing i with
  | zero =>
      obtain rfl : i = n := by omega
      obtain ⟨f, hf⟩ : ∃ f, fuel - i = f + 1 := ⟨fuel - i - 1, by omega⟩
      rw [hf, probe, if_pos hn.stops]
  | succ d ih =>
      obtain ⟨f, hf⟩ : ∃ f, fuel - i = f + 1 := ⟨fuel - i - 1, by omega⟩
      rw [hf, probe, if_neg (hn.before i (by omega)), and_mask hcap, slotAt_succ,
        show f = fuel - (i + 1) by omega]
      exact ih (i + 1) (by omega) (by omega)

/-- From the home slot, a table with a stopping slot is searched to the first one on the path. -/
theorem probe_home (stops : PtrMapEntry → Bool) (entries : List PtrMapEntry) {h s : ℕ} (hcap : cap = 2 ^ k) (hh : h < cap) (hs : s < cap)
    (hstop : stops (entryAt entries s) = true) :
    ∃ n, IsFirst cap (fun s => stops (entryAt entries s) = true) h n ∧
      probe stops entries (cap - 1) cap h = .ok (slotAt cap h n) := by
  obtain ⟨n, hn⟩ := exists_isFirst (h := h) (fun s => stops (entryAt entries s) = true)
    hs hstop
  refine ⟨n, hn, ?_⟩
  have hp := probe_eq hcap hn hn.lt 0 (Nat.zero_le n)
  rwa [Nat.sub_zero, slotAt, Nat.add_zero, Nat.mod_eq_of_lt hh] at hp

/-! ### What a table stores -/

/-- The occupied slots. -/
def stored (entries : List PtrMapEntry) : List PtrMapEntry := entries.filter fun e => e.key ≠ 0

theorem mem_stored {e : PtrMapEntry} : e ∈ stored entries ↔ e ∈ entries ∧ e.key ≠ 0 := by
  rw [stored, List.mem_filter, decide_eq_true_iff]

/-- Overwriting a slot exchanges one content for another. -/
theorem stored_set {s : ℕ} (hs : s < entries.length) : ∃ rest,
    (stored entries).Perm (stored [entryAt entries s] ++ rest) ∧
      ∀ e, (stored (entries.set s e)).Perm (stored [e] ++ rest) := by
  refine ⟨stored (entries.eraseIdx s), ?_, fun e => ?_⟩
  · have hold : (entries[s] :: entries.eraseIdx s).Perm entries := List.getElem_cons_eraseIdx_perm hs
    rw [entryAt, List.getD_eq_getElem _ _ hs]
    refine (hold.symm.filter _).trans ?_
    rw [← List.singleton_append, List.filter_append]
    exact .refl _
  · refine ((List.set_perm_cons_eraseIdx hs e).filter _).trans ?_
    rw [← List.singleton_append, List.filter_append]
    exact .refl _

theorem stored_occupied {e : PtrMapEntry} (h : e.key ≠ 0) : stored [e] = [e] :=
  List.filter_cons_of_pos (by simpa using h)

theorem stored_empty {e : PtrMapEntry} (h : e.key = 0) : stored [e] = [] :=
  List.filter_cons_of_neg (by simpa using h)

/-- The table stores the given entries, each on the path from the home slot of its key. -/
structure PtrMap.Table (pm : PtrMap) (es : List PtrMapEntry) : Prop where
  pow : ∃ k, pm.cap = 2 ^ k
  length : pm.entries.length = pm.cap
  contents : (stored pm.entries).Perm es
  size : pm.size = es.length
  room : es.length < pm.cap
  placed : ∀ i < pm.cap, Occupied pm.entries i →
    OnPath pm.cap (Occupied pm.entries) (ptrHash (entryAt pm.entries i).key (pm.cap - 1)) i

variable {pm : PtrMap} {es es' : List PtrMapEntry} {e : PtrMapEntry} {hs hs' : List ℕ} {key value h : ℕ}

namespace PtrMap.Table

theorem perm (ht : pm.Table es) (hperm : es.Perm es') : pm.Table es' :=
  ⟨ht.pow, ht.length, ht.contents.trans hperm, ht.size.trans hperm.length_eq,
    hperm.length_eq ▸ ht.room, ht.placed⟩

theorem key_ne (ht : pm.Table es) (he : e ∈ es) : e.key ≠ 0 :=
  (mem_stored.mp (ht.contents.mem_iff.mpr he)).2

theorem exists_slot (ht : pm.Table es) (he : e ∈ es) : ∃ s < pm.cap, entryAt pm.entries s = e := by
  obtain ⟨i, hi, rfl⟩ := List.mem_iff_getElem.mp (mem_stored.mp (ht.contents.mem_iff.mpr he)).1
  exact ⟨i, ht.length ▸ hi, by rw [entryAt, List.getD_eq_getElem _ _ hi]⟩

theorem entry_mem (ht : pm.Table es) {s : ℕ} (hs : s < pm.cap) (hocc : Occupied pm.entries s) :
    entryAt pm.entries s ∈ es :=
  ht.contents.mem_iff.mp (mem_stored.mpr ⟨entryAt_mem (ht.length ▸ hs), hocc⟩)

/-- Some slot is empty. -/
theorem exists_empty (ht : pm.Table es) : ∃ s < pm.cap, ¬ Occupied pm.entries s := by
  by_contra hall
  have hfilter : stored pm.entries = pm.entries := by
    rw [stored, List.filter_eq_self]
    intro e he
    obtain ⟨i, hi, rfl⟩ := List.mem_iff_getElem.mp he
    have hocc : Occupied pm.entries i := by
      by_contra hempty
      exact hall ⟨i, ht.length ▸ hi, hempty⟩
    rw [Occupied, entryAt, List.getD_eq_getElem _ _ hi] at hocc
    simpa using hocc
  have hlen := ht.contents.length_eq
  rw [hfilter, ht.length] at hlen
  exact absurd ht.room (by omega)

/-- **The search** for a key ends at its slot, or, when no entry has it, at the first empty slot of its path. -/
theorem search (ht : pm.Table es) (hkey : key ≠ 0) : ∃ s < pm.cap,
    probe (fun e => e.key = 0 || e.key = key) pm.entries (pm.cap - 1) pm.cap (ptrHash key (pm.cap - 1)) = .ok s ∧
      ((entryAt pm.entries s ∈ es ∧ (entryAt pm.entries s).key = key) ∨
        ((∀ e ∈ es, e.key ≠ key) ∧ (entryAt pm.entries s).key = 0 ∧ ∃ n, slotAt pm.cap (ptrHash key (pm.cap - 1)) n = s ∧
          IsFirst pm.cap (fun s => ¬ Occupied pm.entries s) (ptrHash key (pm.cap - 1)) n)) := by
  obtain ⟨k, hk⟩ := ht.pow
  obtain ⟨t, hlt, hempty⟩ := ht.exists_empty
  have hzero : (entryAt pm.entries t).key = 0 := not_not.mp hempty
  obtain ⟨n, hn, hprobe⟩ := probe_home (fun e => e.key = 0 || e.key = key) pm.entries hk (ptrHash_lt hk key) hlt
    (by simp [hzero])
  have hslot : slotAt pm.cap (ptrHash key (pm.cap - 1)) n < pm.cap := slotAt_lt (by omega) n
  refine ⟨_, hslot, hprobe, ?_⟩
  have hstops : (entryAt pm.entries (slotAt pm.cap (ptrHash key (pm.cap - 1)) n)).key = 0 ∨
      (entryAt pm.entries (slotAt pm.cap (ptrHash key (pm.cap - 1)) n)).key = key := by simpa using hn.stops
  have hbefore : ∀ i < n, Occupied pm.entries (slotAt pm.cap (ptrHash key (pm.cap - 1)) i) ∧
      (entryAt pm.entries (slotAt pm.cap (ptrHash key (pm.cap - 1)) i)).key ≠ key := fun i hi => by
    simpa [Occupied] using hn.before i hi
  rcases hstops with hstop | hstop
  · refine .inr ⟨fun e he hek => ?_, hstop, n, rfl, hn.lt, not_not.mpr hstop, fun i hi => not_not.mpr (hbefore i hi).1⟩
    -- the slot of an entry with the key would come no later on the path than the empty one
    obtain ⟨s, hs, rfl⟩ := ht.exists_slot he
    obtain ⟨m, -, hms, hpath⟩ := ht.placed s hs (ht.key_ne he)
    rw [hek] at hms hpath
    rcases Nat.lt_trichotomy m n with hlt | rfl | hgt
    · exact (hbefore m hlt).2 (hms ▸ hek)
    · rw [hms, hek] at hstop
      exact hkey hstop
    · exact hpath n hgt hstop
  · exact .inl ⟨ht.entry_mem hslot fun h => hkey (hstop.symm.trans h), hstop⟩

/-- Filling an empty slot at the end of a path. -/
theorem fill (ht : pm.Table es) {n : ℕ} (hkey : e.key ≠ 0) (hroom : es.length + 1 < pm.cap)
    (hn : IsFirst pm.cap (fun s => ¬ Occupied pm.entries s) (ptrHash e.key (pm.cap - 1)) n) :
    PtrMap.Table { pm with
      entries := pm.entries.set (slotAt pm.cap (ptrHash e.key (pm.cap - 1)) n) e
      size := pm.size + 1 } (e :: es) := by
  have hs : slotAt pm.cap (ptrHash e.key (pm.cap - 1)) n < pm.cap := slotAt_lt (by omega) n
  generalize hslot : slotAt pm.cap (ptrHash e.key (pm.cap - 1)) n = s at hs
  have hlen : s < pm.entries.length := ht.length ▸ hs
  have hempty : (entryAt pm.entries s).key = 0 := not_not.mp (hslot ▸ hn.stops)
  have hgrow : ∀ t, Occupied pm.entries t → Occupied (pm.entries.set s e) t := by
    intro t ht
    rw [Occupied, entryAt_set hlen]
    split
    · exact hkey
    · exact ht
  refine ⟨ht.pow, by rw [List.length_set]; exact ht.length, ?_, ?_, ?_, ?_⟩
  · obtain ⟨rest, hold, hnew⟩ := stored_set hlen
    rw [stored_empty hempty, List.nil_append] at hold
    have hset := hnew e
    rw [stored_occupied hkey] at hset
    exact hset.trans ((hold.symm.trans ht.contents).cons e)
  · show pm.size + 1 = (e :: es).length
    rw [List.length_cons, ht.size]
  · exact hroom
  · intro i hi hocc
    show OnPath pm.cap _ (ptrHash (entryAt (pm.entries.set s e) i).key (pm.cap - 1)) i
    by_cases his : i = s
    · rw [entryAt_set hlen, if_pos his]
      exact ⟨n, hn.lt, hslot.trans his.symm, fun j hj => hgrow _ (not_not.mp (hn.before j hj))⟩
    · rw [Occupied, entryAt_set hlen, if_neg his] at hocc
      rw [entryAt_set hlen, if_neg his]
      exact (ht.placed i hi hocc).mono hgrow

/-- Overwriting the value of a key. -/
theorem update (ht : pm.Table es) {s : ℕ} (hs : s < pm.cap) (hkey : key ≠ 0)
    (hk : (entryAt pm.entries s).key = key) (value : ℕ) :
    ∃ rest, es.Perm (entryAt pm.entries s :: rest) ∧
      PtrMap.Table { pm with entries := pm.entries.set s ⟨key, value⟩ } (⟨key, value⟩ :: rest) := by
  have hlen : s < pm.entries.length := ht.length ▸ hs
  obtain ⟨rest, hold, hnew⟩ := stored_set hlen
  rw [stored_occupied (hk ▸ hkey)] at hold
  have hset := hnew ⟨key, value⟩
  rw [stored_occupied hkey] at hset
  have hcontents : es.Perm (entryAt pm.entries s :: rest) := ht.contents.symm.trans hold
  have hlength : es.length = (⟨key, value⟩ :: rest : List PtrMapEntry).length := hcontents.length_eq
  have hkeys : ∀ t, (entryAt (pm.entries.set s ⟨key, value⟩) t).key = (entryAt pm.entries t).key := by
    intro t
    rw [entryAt_set hlen]
    split
    · rename_i hts
      rw [hts, hk]
    · rfl
  refine ⟨rest, hcontents, ht.pow, by rw [List.length_set]; exact ht.length, hset, ht.size.trans hlength,
    hlength ▸ ht.room, ?_⟩
  intro i hi hocc
  have hocc' : Occupied pm.entries i := by
    rw [Occupied, hkeys] at hocc
    exact hocc
  show OnPath pm.cap _ (ptrHash (entryAt (pm.entries.set s ⟨key, value⟩) i).key (pm.cap - 1)) i
  rw [hkeys]
  exact (ht.placed i hi hocc').mono fun t ht => by rwa [Occupied, hkeys]

end PtrMap.Table

theorem emptyMap_table (hk : cap = 2 ^ k) : (emptyMap cap).Table [] where
  pow := ⟨k, hk⟩
  length := List.length_replicate
  contents := by
    have hnil : stored (emptyMap cap).entries = [] := by
      rw [stored, List.filter_eq_nil_iff]
      intro e he
      rw [List.eq_of_mem_replicate he]
      simp
    rw [hnil]
  size := rfl
  room := hk ▸ Nat.two_pow_pos k
  placed i hi hocc := by
    have hentry : entryAt (emptyMap cap).entries i = ⟨0, 0⟩ := by
      rw [entryAt, List.getD_eq_getElem _ _ (by simpa [emptyMap] using hi)]
      exact List.getElem_replicate _
    rw [Occupied, hentry] at hocc
    exact absurd rfl hocc

/-! ### The operations on a table -/

/-- **Placing an entry** in a table with room. -/
theorem ptrMapPlace_table (ht : pm.Table es) (hkey : e.key ≠ 0) (hroom : es.length + 1 < pm.cap) :
    ∃ pm', ptrMapPlace pm e.key e.value = .ok pm' ∧ pm'.Table (e :: es) ∧ pm'.cap = pm.cap := by
  obtain ⟨k, hk⟩ := ht.pow
  obtain ⟨s, hs, hempty⟩ := ht.exists_empty
  obtain ⟨n, hn, hprobe⟩ := probe_home (fun e => e.key = 0) pm.entries hk
    (ptrHash_lt hk e.key) hs (decide_eq_true (not_not.mp hempty))
  have hn' : IsFirst pm.cap (fun s => ¬ Occupied pm.entries s) (ptrHash e.key (pm.cap - 1)) n :=
    ⟨hn.lt, not_not.mpr (of_decide_eq_true hn.stops),
      fun i hi hocc => hn.before i hi (decide_eq_true (not_not.mp hocc))⟩
  refine ⟨_, ?_, ht.fill hkey hroom hn', rfl⟩
  rw [ptrMapPlace]
  simp only [hprobe]
  rfl

/-- Placing entries one after the other. -/
theorem placeAll_table (xs : List PtrMapEntry) (hkeys : ∀ e ∈ xs, e.key ≠ 0) (ht : pm.Table es)
    (hroom : es.length + xs.length < pm.cap) :
    ∃ pm', xs.foldlM (fun pm e => ptrMapPlace pm e.key e.value) pm = .ok pm' ∧
      pm'.Table (xs.reverse ++ es) ∧ pm'.cap = pm.cap := by
  induction xs generalizing pm es with
  | nil => exact ⟨pm, rfl, ht, rfl⟩
  | cons x xs ih =>
      obtain ⟨hx, hxs⟩ := List.forall_mem_cons.mp hkeys
      rw [List.length_cons] at hroom
      obtain ⟨pm₁, h₁, ht₁, hcap₁⟩ := ptrMapPlace_table ht hx (by omega)
      obtain ⟨pm₂, h₂, ht₂, hcap₂⟩ := ih hxs ht₁ (by rw [List.length_cons, hcap₁]; omega)
      refine ⟨pm₂, ?_, ?_, hcap₂.trans hcap₁⟩
      · rw [List.foldlM_cons, h₁]
        exact h₂
      · rw [List.reverse_cons, List.append_assoc]
        exact ht₂

theorem ptrMapRehash_table (cap : ℕ) (ht : pm.Table es) (hk : cap = 2 ^ k) (hroom : es.length < cap) :
    ∃ pm', ptrMapRehash cap pm.entries = .ok pm' ∧ pm'.Table es ∧ pm'.cap = cap := by
  have hlen := ht.contents.length_eq
  obtain ⟨pm', h', ht', hcap'⟩ := placeAll_table (stored pm.entries) (fun e he => (mem_stored.mp he).2)
    (emptyMap_table hk) (by rw [hlen, List.length_nil, Nat.zero_add]; exact hroom)
  refine ⟨pm', h', ?_, hcap'⟩
  rw [List.append_nil] at ht'
  exact ht'.perm ((List.reverse_perm _).trans ht.contents)

theorem ptrMapReserve_table (ht : pm.Table es) (hlarge : ptrMapInitCap ≤ pm.cap) :
    ∃ pm', ptrMapReserve pm = .ok pm' ∧ pm'.Table es ∧ es.length * 4 < pm'.cap * 3 ∧ pm.cap ≤ pm'.cap := by
  have hsize := ht.size
  have hlt := ht.room
  obtain ⟨k, hk⟩ := ht.pow
  have hinit : ptrMapInitCap = 1024 := rfl
  rw [ptrMapReserve]
  split
  · obtain ⟨pm', h', ht', hcap'⟩ := ptrMapRehash_table (pm.cap * 2) ht (by rw [hk, ← pow_succ]) (by omega)
    exact ⟨pm', h', ht', by omega, by omega⟩
  · exact ⟨pm, rfl, ht, by omega, le_rfl⟩

/-- The tables that the map has; before the first insertion it has none. -/
def tableOf (pm : Option PtrMap) : PtrMap := pm.getD (emptyMap ptrMapInitCap)

/-- **`ptr_map_insert`** replaces the value of a key, or adds the key. -/
theorem ptrMapInsert_table {pm : Option PtrMap} (ht : (tableOf pm).Table es) (hlarge : ptrMapInitCap ≤ (tableOf pm).cap)
    (hkey : key ≠ 0) (value : ℕ) :
    ∃ pm', ptrMapInsert pm key value = .ok pm' ∧ ptrMapInitCap ≤ pm'.cap ∧ es.length * 4 < pm'.cap * 3 ∧
      ((∃ e rest, es.Perm (e :: rest) ∧ e.key = key ∧ pm'.Table (⟨key, value⟩ :: rest)) ∨
        ((∀ e ∈ es, e.key ≠ key) ∧ pm'.Table (⟨key, value⟩ :: es))) := by
  obtain ⟨pm₁, h₁, ht₁, hload, hcap₁⟩ := ptrMapReserve_table ht hlarge
  have hinit : ptrMapInitCap = 1024 := rfl
  have h₁ : ptrMapReserve (pm.getD (emptyMap ptrMapInitCap)) = .ok pm₁ := h₁
  obtain ⟨s, hs, hprobe, hcase⟩ := ht₁.search hkey
  have heq : ptrMapInsert pm key value = .ok { pm₁ with
      entries := pm₁.entries.set s ⟨key, value⟩
      size := if (entryAt pm₁.entries s).key = 0 then pm₁.size + 1 else pm₁.size } := by
    rw [ptrMapInsert, h₁]
    show (probe _ _ _ _ _ >>= _) = _
    rw [hprobe]
    rfl
  refine ⟨_, heq, hlarge.trans hcap₁, hload, ?_⟩
  rcases hcase with ⟨-, hk⟩ | ⟨hnone, hzero, n, rfl, hn⟩
  · obtain ⟨rest, hperm, htable⟩ := ht₁.update hs hkey hk value
    refine .inl ⟨_, rest, hperm, hk, ?_⟩
    rw [if_neg (hk ▸ hkey)]
    exact htable
  · refine .inr ⟨hnone, ?_⟩
    rw [if_pos hzero]
    exact ht₁.fill (e := ⟨key, value⟩) hkey (by omega) hn

/-- **`ptr_map_lookup`** finds the value of a key. -/
theorem ptrMapLookup_table {pm : Option PtrMap} (ht : (tableOf pm).Table es) (key : ℕ) :
    (∃ e ∈ es, e.key = key ∧ ptrMapLookup pm key = .ok (some e.value)) ∨
      ((∀ e ∈ es, e.key ≠ key) ∧ ptrMapLookup pm key = .ok none) := by
  cases pm with
  | none =>
      have hnil : es = [] := (ht.contents.symm.trans (emptyMap_table (k := 10) rfl).contents).eq_nil
      subst hnil
      exact .inr ⟨fun e he => absurd he List.not_mem_nil, rfl⟩
  | some pm =>
      have ht : pm.Table es := ht
      by_cases hkey : key = 0
      · exact .inr ⟨fun e he => hkey ▸ ht.key_ne he, by rw [ptrMapLookup, if_pos hkey]⟩
      obtain ⟨s, hs, hprobe, hcase⟩ := ht.search hkey
      have heq : ptrMapLookup (some pm) key =
          .ok (if (entryAt pm.entries s).key = 0 then none else some (entryAt pm.entries s).value) := by
        rw [ptrMapLookup, if_neg hkey]
        simp only [hprobe]
        rfl
      rcases hcase with ⟨hmem, hk⟩ | ⟨hnone, hzero, -⟩
      · exact .inl ⟨_, hmem, hk, by rw [heq, if_neg (hk ▸ hkey)]⟩
      · exact .inr ⟨hnone, by rw [heq, if_pos hzero]⟩

theorem ptrMapShrink_table (fuel : ℕ) (ht : pm.Table es) (hlarge : ptrMapInitCap ≤ pm.cap)
    (hload : es.length * 4 ≤ pm.cap * 3) (hfuel : pm.cap < fuel) :
    ∃ pm', ptrMapShrink fuel pm = .ok pm' ∧ pm'.Table es ∧ ptrMapInitCap ≤ pm'.cap ∧
      es.length * 4 ≤ pm'.cap * 3 := by
  induction fuel generalizing pm with
  | zero => exact absurd hfuel (Nat.not_lt_zero _)
  | succ fuel ih =>
      rw [ptrMapShrink]
      split
      · next hcond =>
        obtain ⟨k, hk⟩ := ht.pow
        have hinit : ptrMapInitCap = 2 ^ 10 := rfl
        have hk10 : 10 < k := by
          by_contra hle
          have := Nat.pow_le_pow_right (n := 2) (by omega) (Nat.not_lt.mp hle)
          omega
        obtain ⟨j, rfl⟩ : ∃ j, k = j + 1 := ⟨k - 1, by omega⟩
        have hhalf : pm.cap / 2 = 2 ^ j := by rw [hk, pow_succ, Nat.mul_div_cancel _ (by omega)]
        have hdouble : pm.cap = 2 ^ j * 2 := by rw [hk, pow_succ]
        have hsize := ht.size
        obtain ⟨pm₁, h₁, ht₁, hcap₁⟩ := ptrMapRehash_table _ ht hhalf (by omega)
        have hj : 2 ^ 10 ≤ 2 ^ j := Nat.pow_le_pow_right (by omega) (by omega)
        rw [h₁]
        exact ih ht₁ (by omega) (by omega) (by omega)
      · exact ⟨pm, rfl, ht, hlarge, hload⟩

/-- The entry of an object. -/
def entryOf (h : ℕ) : PtrMapEntry := ⟨h + headerSize, h⟩

/-- **`ptr_map_rebuild`** leaves the table with the objects of the heap list. -/
theorem ptrMapRebuild_table (ht : pm.Table es) (hlarge : ptrMapInitCap ≤ pm.cap)
    (hload : hs.length * 4 ≤ pm.cap * 3) :
    ∃ pm', ptrMapRebuild (some pm) hs = .ok (some pm') ∧ pm'.Table (hs.map entryOf) ∧ ptrMapInitCap ≤ pm'.cap ∧
      hs.length * 4 ≤ pm'.cap * 3 := by
  obtain ⟨k, hk⟩ := ht.pow
  have hinit : ptrMapInitCap = 1024 := rfl
  obtain ⟨pm₁, h₁, ht₁, hcap₁⟩ := placeAll_table (hs.map entryOf) (fun e he => by
      obtain ⟨h, -, rfl⟩ := List.mem_map.mp he
      exact Nat.succ_ne_zero _) (emptyMap_table hk) (by
      rw [List.length_nil, List.length_map]
      show 0 + hs.length < pm.cap
      omega)
  rw [List.append_nil] at ht₁
  rw [List.foldlM_map] at h₁
  have hcap : pm₁.cap = pm.cap := hcap₁
  obtain ⟨pm₂, h₂, ht₂, hlarge₂, hload₂⟩ := ptrMapShrink_table (pm₁.cap + 1)
    (ht₁.perm (List.reverse_perm _)) (by omega) (by rw [List.length_map]; omega) (by omega)
  rw [List.length_map] at hload₂
  refine ⟨pm₂, ?_, ht₂, hlarge₂, hload₂⟩
  rw [ptrMapRebuild]
  show (hs.foldlM (fun pm h => ptrMapPlace pm (h + headerSize) h) (emptyMap pm.cap) >>= _) = _
  rw [show hs.foldlM (fun pm h => ptrMapPlace pm (h + headerSize) h) (emptyMap pm.cap) = .ok pm₁ from h₁]
  show (ptrMapShrink (pm₁.cap + 1) pm₁ >>= _) = _
  rw [h₂]
  rfl

/-! ### The map of the collector -/

/-- The map holds the user pointers of the headers `hs`. -/
structure PtrMap.Holds (pm : PtrMap) (hs : List ℕ) : Prop where
  pow : ∃ k, pm.cap = 2 ^ k
  length : pm.entries.length = pm.cap
  keyed : ∀ e ∈ pm.entries, e.key ≠ 0 → e.key = e.value + headerSize
  contents : ((pm.entries.filter fun e => e.key ≠ 0).map (·.value)).Perm hs
  size : pm.size = hs.length
  room : hs.length < pm.cap
  placed : ∀ i < pm.cap, Occupied pm.entries i →
    OnPath pm.cap (Occupied pm.entries) (ptrHash (entryAt pm.entries i).key (pm.cap - 1)) i

/-- That is a table with the entries of the headers. -/
theorem PtrMap.holds_iff : pm.Holds hs ↔ pm.Table (hs.map entryOf) := by
  constructor
  · intro hp
    have hself : ((stored pm.entries).map (·.value)).map entryOf = stored pm.entries := by
      rw [List.map_map]
      refine (List.map_congr_left fun e he => ?_).trans (List.map_id _)
      obtain ⟨he, hne⟩ := mem_stored.mp he
      show entryOf e.value = e
      rw [entryOf, ← hp.keyed e he hne]
    refine ⟨hp.pow, hp.length, ?_, by rw [List.length_map]; exact hp.size, by rw [List.length_map]; exact hp.room,
      hp.placed⟩
    rw [← hself]
    exact hp.contents.map entryOf
  · intro ht
    have hvalues : (hs.map entryOf).map (·.value) = hs := by
      rw [List.map_map]
      exact List.map_id hs
    have hsize := ht.size
    have hroom := ht.room
    rw [List.length_map] at hsize hroom
    refine ⟨ht.pow, ht.length, fun e he hne => ?_, ?_, hsize, hroom, ht.placed⟩
    · obtain ⟨h, -, rfl⟩ := List.mem_map.mp (ht.contents.mem_iff.mp (mem_stored.mpr ⟨he, hne⟩))
      rfl
    · have hcontents := ht.contents.map (·.value)
      rwa [hvalues] at hcontents

theorem emptyMap_holds (hk : cap = 2 ^ k) : (emptyMap cap).Holds [] := PtrMap.holds_iff.mpr (emptyMap_table hk)

/-- The maps the collector works with. -/
structure MapOk (pm : Option PtrMap) (hs : List ℕ) : Prop where
  holds : (pm.getD (emptyMap ptrMapInitCap)).Holds hs
  large : ptrMapInitCap ≤ (pm.getD (emptyMap ptrMapInitCap)).cap
  /-- Without a table there are no objects. -/
  nil : pm = none → hs = []

/-- **`ptr_map_insert`** adds a header that the map does not hold. -/
theorem ptrMapInsert_holds {pm : Option PtrMap} (hp : MapOk pm hs) (hh : h ∉ hs) :
    ∃ pm', ptrMapInsert pm (h + headerSize) h = .ok pm' ∧ MapOk (some pm') (h :: hs) := by
  obtain ⟨pm', hinsert, hlarge, -, hcase⟩ := ptrMapInsert_table (PtrMap.holds_iff.mp hp.holds) hp.large
    (show h + headerSize ≠ 0 from Nat.succ_ne_zero _) h
  refine ⟨pm', hinsert, ?_, hlarge, fun hnone => by cases hnone⟩
  rcases hcase with ⟨e, rest, hperm, hkey, -⟩ | ⟨-, ht⟩
  · obtain ⟨h', hmem, rfl⟩ := List.mem_map.mp (hperm.mem_iff.mpr List.mem_cons_self)
    have heq : h' = h := Nat.add_right_cancel hkey
    exact absurd (heq ▸ hmem) hh
  · exact PtrMap.holds_iff.mpr ht

/-- **Looking up a user pointer** of an object finds its header. -/
theorem ptrMapLookup_user {pm : Option PtrMap} (hp : MapOk pm hs) (hh : h ∈ hs) :
    ptrMapLookup pm (h + headerSize) = .ok (some h) := by
  rcases ptrMapLookup_table (PtrMap.holds_iff.mp hp.holds) (h + headerSize) with
    ⟨e, he, hkey, hlookup⟩ | ⟨hnone, -⟩
  · obtain ⟨h', -, rfl⟩ := List.mem_map.mp he
    have heq : h' = h := Nat.add_right_cancel hkey
    exact heq ▸ hlookup
  · exact absurd rfl (hnone (entryOf h) (List.mem_map.mpr ⟨h, hh, rfl⟩))

end Visuall.Gc
