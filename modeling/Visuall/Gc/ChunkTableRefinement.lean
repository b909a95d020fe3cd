import Visuall.Gc.Collector
import Visuall.Lib.Chaining

/-!
# The chunk table refines the walk over the heap list

What the table of one collection holds after all objects have been added, and what a lookup in it finds.

* `ChunkCall`, `chunkCalls` — the calls of `chunk_table_insert_entry`, in order;
* `Records t calls` — the table has one record for each chunk in the calls, with the entries of these calls;
* `chunkTableInsertEntry_records`, `chunkTableLookup_records` — the two operations;
* `buildChunks32` — the construction as far as `1u << chunk_table_log2` has a value;
* `chunkTable_agrees_iff` — a lookup finds the object whose payload has the address, while that is so.
-/

namespace Visuall.Gc

open Chaining

/-- A call of `chunk_table_insert_entry`: a chunk and an entry for it. -/
abbrev ChunkCall := ℕ × ChunkAllocEntry

/-- The entries given for a chunk, in order. -/
def entriesFor (calls : List ChunkCall) (chunkId : ℕ) : List ChunkAllocEntry :=
  (calls.filter fun c => c.1 = chunkId).map Prod.snd

/-- The bucket of a chunk. -/
def chunkHome (log2 chunkId : ℕ) : ℕ := chunkHash chunkId (2 ^ log2 - 1)

/-- The table after the calls. -/
structure Records (t : ChunkTable) (calls : List ChunkCall) : Prop where
  chained : Chaining.Chained ChunkInfo.chunkId (chunkHome t.log2) t.buckets
  entries : ∀ info ∈ t.buckets.flatten, info.entries = entriesFor calls info.chunkId
  ids : ∀ id, id ∈ t.buckets.flatten.map ChunkInfo.chunkId ↔ id ∈ calls.map Prod.fst
  count : t.count = t.buckets.flatten.length

section Insert

variable {t : ChunkTable} {calls : List ChunkCall} {chunkId log2 : ℕ} {e : ChunkAllocEntry}

theorem entriesFor_snoc (id : ℕ) :
    entriesFor (calls ++ [(chunkId, e)]) id = entriesFor calls id ++ if chunkId = id then [e] else [] := by
  rw [entriesFor, entriesFor, List.filter_append, List.map_append]
  by_cases h : chunkId = id
  · rw [if_pos h, List.filter_cons_of_pos (by simpa using h)]
    rfl
  · rw [if_neg h, List.filter_cons_of_neg (by simpa using h)]
    rfl

theorem entriesFor_of_not_mem (h : chunkId ∉ calls.map Prod.fst) : entriesFor calls chunkId = [] := by
  rw [entriesFor, List.filter_eq_nil_iff.mpr fun c hc heq => h ?_]
  · rfl
  · exact List.mem_map.mpr ⟨c, hc, by simpa using heq⟩

theorem chunkHome_lt (log2 chunkId : ℕ) : chunkHome log2 chunkId < 2 ^ log2 := by
  rw [chunkHome, chunkHash, Nat.and_two_pow_sub_one_eq_mod]
  exact Nat.mod_lt _ (Nat.two_pow_pos _)

theorem emptyChunks_records (log2 : ℕ) : Records (emptyChunks log2) [] where
  chained := .empty (chunkHome_lt log2)
  entries info hinfo := by
    rw [emptyChunks, List.flatten_replicate_nil] at hinfo
    cases hinfo
  ids id := by
    rw [emptyChunks, List.flatten_replicate_nil]
    rfl
  count := by
    rw [emptyChunks, List.flatten_replicate_nil]
    rfl

theorem foldl_pushInfo (infos : List ChunkInfo) (t : ChunkTable) : infos.foldl pushInfo t =
    ⟨t.log2, t.count + infos.length, infos.foldl (push ChunkInfo.chunkId (chunkHome t.log2)) t.buckets⟩ := by
  induction infos generalizing t with
  | nil => rfl
  | cons info infos ih =>
      rw [List.foldl_cons, ih, List.foldl_cons, List.length_cons]
      show ChunkTable.mk _ (t.count + 1 + infos.length) _ = _
      rw [Nat.add_assoc, Nat.add_comm 1]
      rfl

/-- A larger table has the same records. -/
theorem chunkTableGrow_records (h : Records t calls) : Records (chunkTableGrow t) calls := by
  have hnil : (emptyChunks (t.log2 + 1)).buckets.flatten = [] := List.flatten_replicate_nil
  have hnodup : ((t.buckets.flatten ++ (emptyChunks (t.log2 + 1)).buckets.flatten).map ChunkInfo.chunkId).Nodup := by
    rw [hnil, List.append_nil]
    exact h.chained.nodup
  obtain ⟨hchained, hperm⟩ := pushAll (emptyChunks_records (t.log2 + 1)).chained hnodup
  rw [hnil, List.append_nil] at hperm
  rw [chunkTableGrow, foldl_pushInfo]
  exact {
    chained := hchained
    entries := fun info hinfo => h.entries info (hperm.mem_iff.mp hinfo)
    ids := fun id => (hperm.map ChunkInfo.chunkId).mem_iff.trans (h.ids id)
    count := (Nat.zero_add _).trans hperm.length_eq.symm }

/-- The record of the chunk with one more entry; the other records as they are. -/
def withEntry (chunkId : ℕ) (e : ChunkAllocEntry) (info : ChunkInfo) : ChunkInfo :=
  if info.chunkId = chunkId then { info with entries := info.entries ++ [e] } else info

theorem withEntry_chunkId (info : ChunkInfo) : (withEntry chunkId e info).chunkId = info.chunkId := by
  rw [withEntry]
  split <;> rfl

theorem addToChain_eq {chain : List ChunkInfo} (h : (chain.map ChunkInfo.chunkId).Nodup) :
    addToChain chunkId e chain =
      if chunkId ∈ chain.map ChunkInfo.chunkId then some (chain.map (withEntry chunkId e)) else none := by
  induction chain with
  | nil => rfl
  | cons info chain ih =>
      rw [List.map_cons, List.nodup_cons] at h
      rw [addToChain, ih h.2, List.map_cons]
      by_cases hinfo : info.chunkId = chunkId
      · have hrest : chain.map (withEntry chunkId e) = chain.map id := by
          refine List.map_congr_left fun i hi => if_neg fun heq => h.1 ?_
          exact List.mem_map.mpr ⟨i, hi, heq.trans hinfo.symm⟩
        rw [if_pos hinfo, if_pos (hinfo ▸ List.mem_cons_self), List.map_cons, hrest, List.map_id, withEntry, if_pos hinfo]
      · rw [if_neg hinfo]
        by_cases hmem : chunkId ∈ chain.map ChunkInfo.chunkId
        · rw [if_pos hmem, if_pos (List.mem_cons_of_mem _ hmem), List.map_cons, withEntry, if_neg hinfo]
          rfl
        · rw [if_neg hmem, if_neg fun h => (List.mem_cons.mp h).elim (fun heq => hinfo heq.symm) hmem]
          rfl

/-- An entry for a chunk that has a record. -/
theorem Records.snoc_known (h : Records t calls) (hknown : chunkId ∈ t.buckets.flatten.map ChunkInfo.chunkId) :
    Records { t with buckets := t.buckets.map (List.map (withEntry chunkId e)) } (calls ++ [(chunkId, e)]) := by
  have hflatten : (t.buckets.map (List.map (withEntry chunkId e))).flatten = t.buckets.flatten.map (withEntry chunkId e) :=
    List.map_flatten.symm
  have hids : (t.buckets.flatten.map (withEntry chunkId e)).map ChunkInfo.chunkId = t.buckets.flatten.map ChunkInfo.chunkId := by
    rw [List.map_map]
    exact List.map_congr_left fun info _ => withEntry_chunkId info
  refine ⟨h.chained.map withEntry_chunkId, fun info hinfo => ?_, fun id => ?_, ?_⟩
  · rw [hflatten] at hinfo
    obtain ⟨old, hold, rfl⟩ := List.mem_map.mp hinfo
    rw [withEntry_chunkId, entriesFor_snoc, ← h.entries old hold, withEntry]
    by_cases heq : old.chunkId = chunkId
    · rw [if_pos heq, if_pos heq.symm]
    · rw [if_neg heq, if_neg (Ne.symm heq), List.append_nil]
  · rw [hflatten, hids, h.ids, List.map_append, List.mem_append]
    refine ⟨.inl, fun hid => hid.elim (fun h => h) fun heq => ?_⟩
    rw [List.mem_singleton.mp heq]
    exact (h.ids chunkId).mp hknown
  · rw [hflatten, List.length_map]
    exact h.count

/-- The first entry of a chunk. -/
theorem Records.snoc_new (h : Records t calls) (hnew : chunkId ∉ t.buckets.flatten.map ChunkInfo.chunkId) :
    Records (pushInfo t ⟨chunkId, [e]⟩) (calls ++ [(chunkId, e)]) := by
  have hperm : (pushInfo t ⟨chunkId, [e]⟩).buckets.flatten.Perm (⟨chunkId, [e]⟩ :: t.buckets.flatten) :=
    push_perm (show chunkHome t.log2 (ChunkInfo.chunkId ⟨chunkId, [e]⟩) < t.buckets.length from h.chained.bounded chunkId)
  refine ⟨h.chained.push fun info hinfo heq => hnew (List.mem_map.mpr ⟨info, hinfo, heq⟩), fun info hinfo => ?_,
    fun id => ?_, ?_⟩
  · rw [entriesFor_snoc]
    rcases List.mem_cons.mp (hperm.mem_iff.mp hinfo) with rfl | hinfo
    · rw [entriesFor_of_not_mem fun hmem => hnew ((h.ids chunkId).mpr hmem), if_pos rfl]
      rfl
    · rw [if_neg fun heq => hnew (List.mem_map.mpr ⟨info, hinfo, heq.symm⟩), List.append_nil]
      exact h.entries info hinfo
  · rw [(hperm.map ChunkInfo.chunkId).mem_iff, List.map_cons, List.mem_cons, h.ids, List.map_append, List.mem_append, or_comm,
      List.map_singleton, List.mem_singleton]
  · rw [hperm.length_eq, List.length_cons, ← h.count]
    rfl

/-- One more call. -/
theorem chunkTableInsertEntry_records (h : Records t calls) :
    Records (chunkTableInsertEntry t chunkId e) (calls ++ [(chunkId, e)]) := by
  have hgrown : Records (if t.count * 4 ≥ 2 ^ t.log2 * 3 then chunkTableGrow t else t) calls := by
    split
    · exact chunkTableGrow_records h
    · exact h
  rw [chunkTableInsertEntry]
  generalize (if t.count * 4 ≥ 2 ^ t.log2 * 3 then chunkTableGrow t else t) = u at hgrown
  have hadd : addToChain chunkId e (u.buckets.getD (chunkHash chunkId (2 ^ u.log2 - 1)) []) =
      if chunkId ∈ (u.buckets.getD (chunkHome u.log2 chunkId) []).map ChunkInfo.chunkId then
        some ((u.buckets.getD (chunkHome u.log2 chunkId) []).map (withEntry chunkId e))
      else none := addToChain_eq (hgrown.chained.chain_nodup _)
  rw [hadd]
  have hmem : chunkId ∈ (u.buckets.getD (chunkHome u.log2 chunkId) []).map ChunkInfo.chunkId ↔
      chunkId ∈ u.buckets.flatten.map ChunkInfo.chunkId := hgrown.chained.mem_chain_iff
  by_cases hfound : chunkId ∈ u.buckets.flatten.map ChunkInfo.chunkId
  · rw [if_pos (hmem.mpr hfound)]
    show Records { u with buckets := u.buckets.set (chunkHome u.log2 chunkId) _ } _
    rw [set_map hgrown.chained (f := withEntry chunkId e) fun info hne => if_neg hne]
    exact hgrown.snoc_known hfound
  · rw [if_neg (fun h => hfound (hmem.mp h))]
    exact hgrown.snoc_new hfound

/-- What a lookup sees of the calls. -/
theorem chunkTableLookup_records (h : Records t calls) (ptr : ℕ) : chunkTableLookup t ptr =
    ((entriesFor calls (ptr >>> chunkShift)).find? fun e => e.base ≤ ptr ∧ ptr < e.base + e.size).map (·.header) := by
  show (((t.buckets.getD (chunkHome t.log2 (ptr >>> chunkShift)) []).find? _).bind _ : Option ℕ) = _
  cases hfind : (t.buckets.getD (chunkHome t.log2 (ptr >>> chunkShift)) []).find?
      fun info => info.chunkId = ptr >>> chunkShift with
  | none =>
      have hnone := (find?_chain_none h.chained).mp hfind
      rw [entriesFor_of_not_mem fun hmem => ?_]
      · rfl
      · obtain ⟨info, hinfo, heq⟩ := List.mem_map.mp ((h.ids _).mpr hmem)
        exact hnone info hinfo heq
  | some info =>
      obtain ⟨hinfo, heq⟩ := (find?_chain h.chained).mp hfind
      rw [← heq, ← h.entries info hinfo]
      show (List.find? _ info.entries).bind (fun e => some e.header) = _
      exact Option.map_eq_bind.symm

/-- The chunks that have a record. -/
def distinctChunks (calls : List ChunkCall) : ℕ := (calls.map Prod.fst).toFinset.card

theorem Records.count_eq (h : Records t calls) : t.count = distinctChunks calls := by
  have hset : (calls.map Prod.fst).toFinset = (t.buckets.flatten.map ChunkInfo.chunkId).toFinset := by
    ext id
    rw [List.mem_toFinset, List.mem_toFinset, h.ids]
  rw [distinctChunks, hset, List.toFinset_card_of_nodup h.chained.nodup, List.length_map, h.count]

end Insert

/-! ### The construction -/

/-- The calls of `chunk_table_add_range`. -/
def rangeCalls (user size header : ℕ) : List ChunkCall :=
  if size = 0 then []
  else
    let first := user >>> chunkShift
    let last := (user + size - 1) >>> chunkShift
    (List.range' first (last + 1 - first)).map fun chunkId => (chunkId, ⟨user, size, header⟩)

/-- The calls of one collection. -/
def chunkCalls (m : Mem) (hs : List ℕ) : List ChunkCall :=
  hs.flatMap fun h => rangeCalls (userOf h) (payloadOf (sizeOf m h)) h

/-- A call on a table for which `1u << chunk_table_log2` is one of the 32-bit numbers. -/
def chunkTableInsert32 (t : ChunkTable) (c : ChunkCall) : Option ChunkTable :=
  let t := chunkTableInsertEntry t c.1 c.2
  if t.log2 < 32 then some t else none

/-- The loop of `__visuall_collect` that builds the chunk table; `none` is a shift by 32. -/
def buildChunks32 (m : Mem) (hs : List ℕ) : Option ChunkTable :=
  (chunkCalls m hs).foldlM chunkTableInsert32 chunkTableInit

section Build

variable {t : ChunkTable} {m : Mem} {hs : List ℕ} {calls : List ChunkCall} {h p : ℕ}

/-- The load of the table, which the growth keeps below 75% before each call. -/
structure Loaded (t : ChunkTable) : Prop where
  initial : chunkTableInitLog2 ≤ t.log2
  load : t.count * 4 ≤ 2 ^ t.log2 * 3

theorem chunkTableGrow_log2 (t : ChunkTable) : (chunkTableGrow t).log2 = t.log2 + 1 := by
  rw [chunkTableGrow, foldl_pushInfo]
  rfl

theorem chunkTableInsertEntry_log2 (t : ChunkTable) (c : ChunkCall) : (chunkTableInsertEntry t c.1 c.2).log2 =
    if t.count * 4 ≥ 2 ^ t.log2 * 3 then t.log2 + 1 else t.log2 := by
  have hlog2 : (if t.count * 4 ≥ 2 ^ t.log2 * 3 then chunkTableGrow t else t).log2 =
      if t.count * 4 ≥ 2 ^ t.log2 * 3 then t.log2 + 1 else t.log2 := by
    split
    · exact chunkTableGrow_log2 t
    · rfl
  rw [← hlog2, chunkTableInsertEntry]
  split <;> rfl

theorem distinctChunks_snoc_le (c : ChunkCall) : distinctChunks calls ≤ distinctChunks (calls ++ [c]) ∧
    distinctChunks (calls ++ [c]) ≤ distinctChunks calls + 1 := by
  rw [distinctChunks, distinctChunks, List.map_append, List.toFinset_append]
  exact ⟨Finset.card_le_card Finset.subset_union_left, Finset.card_union_le _ _⟩

theorem chunkTableInsertEntry_loaded (hr : Records t calls) (hl : Loaded t) (c : ChunkCall) :
    Loaded (chunkTableInsertEntry t c.1 c.2) := by
  have hcount : (chunkTableInsertEntry t c.1 c.2).count = distinctChunks (calls ++ [c]) :=
    (chunkTableInsertEntry_records hr).count_eq
  have hsnoc : distinctChunks (calls ++ [c]) ≤ distinctChunks calls + 1 := (distinctChunks_snoc_le c).2
  rw [← hr.count_eq] at hsnoc
  obtain ⟨k, hk⟩ := Nat.exists_eq_add_of_le hl.initial
  have hpow : 2 ^ t.log2 = 256 * 2 ^ k := by rw [hk, pow_add]; rfl
  have hpos := Nat.two_pow_pos k
  have hinit := hl.initial
  have hload := hl.load
  constructor
  · rw [chunkTableInsertEntry_log2]
    split <;> omega
  · rw [chunkTableInsertEntry_log2, hcount]
    split
    · rw [pow_succ]
      omega
    · omega

/-- The number of chunks that 2³¹ buckets are enough for. -/
def maxChunks : ℕ := 3 * 2 ^ 29

theorem distinctChunks_dropLast_le (calls : List ChunkCall) : distinctChunks calls.dropLast ≤ distinctChunks calls := by
  refine Finset.card_le_card fun id hid => ?_
  rw [List.mem_toFinset] at hid ⊢
  exact ((List.dropLast_sublist calls).map Prod.fst).subset hid

/-- The construction goes through just when the calls before the last one leave a bucket in four free, of 2³¹. -/
theorem foldlM_insert32 (calls : List ChunkCall) :
    (distinctChunks calls.dropLast < maxChunks → ∃ t, calls.foldlM chunkTableInsert32 chunkTableInit = some t ∧
      Records t calls ∧ Loaded t ∧ t.log2 < 32) ∧
    (¬ distinctChunks calls.dropLast < maxChunks → calls.foldlM chunkTableInsert32 chunkTableInit = none) := by
  induction calls using List.reverseRecOn with
  | nil =>
      refine ⟨fun _ => ⟨_, rfl, emptyChunks_records _, ⟨le_rfl, Nat.zero_le _⟩, by decide⟩, fun h => absurd ?_ h⟩
      decide
  | append_singleton calls c ih =>
      have hdrop := distinctChunks_dropLast_le calls
      rw [List.dropLast_concat, List.foldlM_append]
      constructor
      · intro hfew
        obtain ⟨t, hrun, hr, hl, h32⟩ := ih.1 (by omega)
        have hlog2 : (chunkTableInsertEntry t c.1 c.2).log2 < 32 := by
          rw [chunkTableInsertEntry_log2]
          split
          · rename_i hfull
            by_contra hbig
            have heq : t.log2 = 31 := by omega
            rw [heq, hr.count_eq] at hfull
            rw [maxChunks] at hfew
            omega
          · exact h32
        refine ⟨_, ?_, chunkTableInsertEntry_records hr, chunkTableInsertEntry_loaded hr hl c, hlog2⟩
        rw [hrun]
        show (chunkTableInsert32 t c >>= pure) = _
        rw [bind_pure, chunkTableInsert32, if_pos hlog2]
      · intro hmany
        by_cases hbefore : distinctChunks calls.dropLast < maxChunks
        · obtain ⟨t, hrun, hr, hl, h32⟩ := ih.1 hbefore
          have hload := hl.load
          have hmax : 2 ^ 31 ≤ 2 ^ t.log2 := by
            rw [hr.count_eq] at hload
            rw [maxChunks] at hmany
            omega
          have heq : t.log2 = 31 := le_antisymm (by omega) ((Nat.pow_le_pow_iff_right (by omega)).mp hmax)
          have hlog2 : ¬ (chunkTableInsertEntry t c.1 c.2).log2 < 32 := by
            rw [chunkTableInsertEntry_log2, heq, hr.count_eq, if_pos (by rw [maxChunks] at hmany; omega)]
            omega
          rw [hrun]
          show (chunkTableInsert32 t c >>= pure) = _
          rw [bind_pure, chunkTableInsert32, if_neg hlog2]
        · rw [ih.2 hbefore]
          rfl

/-- The payload of an object. -/
def payload (m : Mem) (h : ℕ) : Set ℕ := Set.Ico (userOf h) (userOf h + payloadOf (sizeOf m h))

theorem mem_rangeCalls {user size : ℕ} {c : ChunkCall} : c ∈ rangeCalls user size h ↔
    size ≠ 0 ∧ user >>> chunkShift ≤ c.1 ∧ c.1 ≤ (user + size - 1) >>> chunkShift ∧ c.2 = ⟨user, size, h⟩ := by
  rw [rangeCalls]
  split
  · rename_i hzero
    exact iff_of_false List.not_mem_nil fun h => h.1 hzero
  · rename_i hne
    rw [List.mem_map]
    constructor
    · rintro ⟨id, hid, rfl⟩
      rw [List.mem_range'_1] at hid
      exact ⟨hne, hid.1, by omega, rfl⟩
    · rintro ⟨_, hfirst, hlast, heq⟩
      exact ⟨c.1, List.mem_range'_1.mpr ⟨hfirst, by omega⟩, Prod.ext rfl heq.symm⟩

/-- An address in a payload is in one of its chunks. -/
theorem chunk_of_payload {user size : ℕ} (hp : user ≤ p ∧ p < user + size) :
    user >>> chunkShift ≤ p >>> chunkShift ∧ p >>> chunkShift ≤ (user + size - 1) >>> chunkShift := by
  rw [Nat.shiftRight_eq_div_pow, Nat.shiftRight_eq_div_pow, Nat.shiftRight_eq_div_pow]
  exact ⟨Nat.div_le_div_right hp.1, Nat.div_le_div_right (by omega)⟩

/-- The entries for the chunk of an address, as far as they have it, are the objects whose payload has it. -/
theorem mem_entriesFor {e : ChunkAllocEntry} :
    (e ∈ entriesFor (chunkCalls m hs) (p >>> chunkShift) ∧ e.base ≤ p ∧ p < e.base + e.size) ↔
      ∃ h ∈ hs, p ∈ payload m h ∧ e = ⟨userOf h, payloadOf (sizeOf m h), h⟩ := by
  rw [entriesFor]
  constructor
  · rintro ⟨hmem, hcovers⟩
    obtain ⟨c, hc, rfl⟩ := List.mem_map.mp hmem
    obtain ⟨h, hh, hcall⟩ := List.mem_flatMap.mp (List.mem_filter.mp hc).1
    obtain ⟨_, _, _, heq⟩ := mem_rangeCalls.mp hcall
    rw [heq] at hcovers ⊢
    exact ⟨h, hh, hcovers, rfl⟩
  · rintro ⟨h, hh, hp, rfl⟩
    obtain ⟨hfirst, hlast⟩ := chunk_of_payload hp
    have hsize : payloadOf (sizeOf m h) ≠ 0 := by
      have hlow : userOf h ≤ p := hp.1
      have hhigh : p < userOf h + payloadOf (sizeOf m h) := hp.2
      omega
    have hcall : (p >>> chunkShift, ⟨userOf h, payloadOf (sizeOf m h), h⟩) ∈ chunkCalls m hs :=
      List.mem_flatMap.mpr ⟨h, hh, mem_rangeCalls.mpr ⟨hsize, hfirst, hlast, rfl⟩⟩
    exact ⟨List.mem_map.mpr ⟨_, List.mem_filter.mpr ⟨hcall, decide_eq_true rfl⟩, rfl⟩, hp⟩

/-- A lookup in the table of disjoint objects. -/
theorem chunkTableLookup_iff {t : ChunkTable} (hr : Records t (chunkCalls m hs))
    (hdisj : ∀ h ∈ hs, ∀ h' ∈ hs, h ≠ h' → Disjoint (payload m h) (payload m h')) :
    chunkTableLookup t p = some h ↔ h ∈ hs ∧ p ∈ payload m h := by
  rw [chunkTableLookup_records hr]
  constructor
  · intro hlookup
    obtain ⟨e, he, rfl⟩ := Option.map_eq_some_iff.mp hlookup
    have hcovers := List.find?_some he
    rw [decide_eq_true_eq] at hcovers
    obtain ⟨h, hh, hp, rfl⟩ := mem_entriesFor.mp ⟨List.mem_of_find?_eq_some he, hcovers⟩
    exact ⟨hh, hp⟩
  · rintro ⟨hh, hp⟩
    obtain ⟨hmem, hcovers⟩ := mem_entriesFor.mpr ⟨h, hh, hp, rfl⟩
    cases hfind : (entriesFor (chunkCalls m hs) (p >>> chunkShift)).find?
        fun e => e.base ≤ p ∧ p < e.base + e.size with
    | none => exact absurd (decide_eq_true hcovers) (List.find?_eq_none.mp hfind _ hmem)
    | some e =>
        have hcovers' := List.find?_some hfind
        rw [decide_eq_true_eq] at hcovers'
        obtain ⟨h', hh', hp', rfl⟩ := mem_entriesFor.mp ⟨List.mem_of_find?_eq_some hfind, hcovers'⟩
        by_contra hne
        have hne : h ≠ h' := fun heq => hne (by rw [heq]; rfl)
        exact Set.disjoint_left.mp (hdisj h hh h' hh' hne) hp hp'

/-- **The table agrees with the walk.**  Of disjoint objects, a lookup finds the one whose payload has the address
and no other, as long as the shift that gives the size of the table is one by less than 32: the calls before the
last are for fewer than 3 · 2²⁹ chunks. -/
theorem chunkTable_agrees_iff (m : Mem) (hs : List ℕ)
    (hdisj : ∀ h ∈ hs, ∀ h' ∈ hs, h ≠ h' → Disjoint (payload m h) (payload m h')) :
    (∃ t, buildChunks32 m hs = some t ∧ ∀ p h, chunkTableLookup t p = some h ↔ h ∈ hs ∧ p ∈ payload m h) ↔
      distinctChunks (chunkCalls m hs).dropLast < maxChunks := by
  obtain ⟨hfew, hmany⟩ := foldlM_insert32 (chunkCalls m hs)
  constructor
  · rintro ⟨t, ht, _⟩
    by_contra hbig
    rw [buildChunks32, hmany hbig] at ht
    cases ht
  · intro h
    obtain ⟨t, ht, hr, _, _⟩ := hfew h
    exact ⟨t, ht, fun p h => chunkTableLookup_iff hr hdisj⟩

/-! ### A heap of objects of the greatest size -/

/-- Every size is 2³² - 1. -/
def fullMem : Mem := fun _ => 255

/-- `n` objects side by side, of 2²⁰ chunks each. -/
def fullHeap (n : ℕ) : List ℕ := (List.range n).map fun i => 2 ^ 32 * (i + 1) - 16

theorem payloadOf_full (h : ℕ) : payloadOf (sizeOf fullMem h) = 4294967271 := by
  have hbyte : fullMem = fun _ => 255 := rfl
  have hvalue : UInt8.toNat 255 = 255 := rfl
  rw [sizeOf, load, load, load, load, load, hbyte, hvalue]
  norm_num [payloadOf, headerSize]

theorem payload_full (h : ℕ) : payload fullMem h = Set.Ico (h + 24) (h + 24 + 4294967271) := by
  rw [payload, payloadOf_full, userOf, headerSize]

theorem fullHeap_disjoint (n : ℕ) : ∀ h ∈ fullHeap n, ∀ h' ∈ fullHeap n, h ≠ h' →
    Disjoint (payload fullMem h) (payload fullMem h') := by
  intro h hh h' hh' hne
  obtain ⟨i, _, rfl⟩ := List.mem_map.mp hh
  obtain ⟨j, _, rfl⟩ := List.mem_map.mp hh'
  have hij : i ≠ j := fun heq => hne (by rw [heq])
  rw [payload_full, payload_full, Set.disjoint_left]
  intro p hp hp'
  rw [Set.mem_Ico] at hp hp'
  omega

theorem chunkTable_agrees_iff_two : (∃ t, buildChunks32 fullMem (fullHeap 2) = some t ∧
    ∀ p h, chunkTableLookup t p = some h ↔ h ∈ fullHeap 2 ∧ p ∈ payload fullMem h) ↔
      distinctChunks (chunkCalls fullMem (fullHeap 2)).dropLast < maxChunks :=
  chunkTable_agrees_iff fullMem (fullHeap 2) (fullHeap_disjoint 2)

/-- The chunks of the objects follow each other. -/
theorem fullHeap_chunks (n : ℕ) :
    (chunkCalls fullMem (fullHeap n)).map Prod.fst = List.range' (2 ^ 20) (n * 2 ^ 20) := by
  induction n with
  | zero => rfl
  | succ n ih =>
      have hheap : fullHeap (n + 1) = fullHeap n ++ [2 ^ 32 * (n + 1) - 16] := by
        rw [fullHeap, List.range_succ, List.map_append]
        rfl
      have hlast : (rangeCalls (userOf (2 ^ 32 * (n + 1) - 16)) 4294967271 (2 ^ 32 * (n + 1) - 16)).map Prod.fst =
          List.range' (2 ^ 20 * (n + 1)) (2 ^ 20) := by
        have hfirst : userOf (2 ^ 32 * (n + 1) - 16) >>> chunkShift = 2 ^ 20 * (n + 1) := by
          rw [userOf, headerSize, chunkShift, Nat.shiftRight_eq_div_pow]
          omega
        have hend : (userOf (2 ^ 32 * (n + 1) - 16) + 4294967271 - 1) >>> chunkShift = 2 ^ 20 * (n + 2) - 1 := by
          rw [userOf, headerSize, chunkShift, Nat.shiftRight_eq_div_pow]
          omega
        have hlen : 2 ^ 20 * (n + 2) - 1 + 1 - 2 ^ 20 * (n + 1) = 2 ^ 20 := by omega
        rw [rangeCalls, if_neg (by omega), hfirst, hend]
        dsimp only
        rw [hlen, List.map_map]
        exact List.map_id _
      have hcalls : chunkCalls fullMem (fullHeap (n + 1)) = chunkCalls fullMem (fullHeap n) ++
          rangeCalls (userOf (2 ^ 32 * (n + 1) - 16)) 4294967271 (2 ^ 32 * (n + 1) - 16) := by
        rw [hheap, chunkCalls, List.flatMap_append, List.flatMap_singleton, payloadOf_full, chunkCalls]
      have hstart : 2 ^ 20 * (n + 1) = 2 ^ 20 + n * 2 ^ 20 := by ring
      rw [hcalls, List.map_append, ih, hlast, hstart, List.range'_append_1, Nat.succ_mul]

/-- 1537 objects of 4 GB have chunks enough. -/
theorem chunkTable_overflow : (∀ h ∈ fullHeap 1537, ∀ h' ∈ fullHeap 1537, h ≠ h' →
    Disjoint (payload fullMem h) (payload fullMem h')) ∧ buildChunks32 fullMem (fullHeap 1537) = none := by
  refine ⟨fullHeap_disjoint 1537, (foldlM_insert32 _).2 ?_⟩
  have hcount : 1537 * 2 ^ 20 = 1611661311 + 1 := by norm_num
  rw [distinctChunks, List.map_dropLast, fullHeap_chunks, hcount, List.range'_concat, List.dropLast_concat,
    List.toFinset_card_of_nodup List.nodup_range', List.length_range', maxChunks]
  norm_num

end Build

end Visuall.Gc
