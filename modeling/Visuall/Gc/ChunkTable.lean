import Visuall.Gc.PtrMap

/-!
# The chunk table

For the time of one collection, a hash table by 4 KB chunk of address space lists the objects that
overlap each chunk, so that a word pointing inside an object finds it.

* `chunkTableInsertEntry`, `chunkTableAddRange`, `chunkTableLookup` — the operations;
* `ChunkTable.All` — every entry of the table satisfies a predicate;
* `chunkTableLookup_sound` — a header is found only through an entry whose range has the word.
-/

namespace Visuall.Gc

def chunkShift : ℕ := 12

def chunkTableInitLog2 : ℕ := 8

/-- An object that overlaps a chunk: its user pointer, payload size and header. -/
structure ChunkAllocEntry where
  base : ℕ
  size : ℕ
  header : ℕ

/-- The objects of one chunk, the inline entries and the overflow array in one list. -/
structure ChunkInfo where
  chunkId : ℕ
  entries : List ChunkAllocEntry

/-- `chunk_table`, with its buckets as chains of records. -/
structure ChunkTable where
  log2 : ℕ
  count : ℕ
  buckets : List (List ChunkInfo)

/-- `chunk_hash`, on 64-bit words. -/
def chunkHash (chunkId mask : ℕ) : ℕ :=
  let h := chunkId ^^^ (chunkId >>> 16)
  let h := h * 0x45d9f3b % 2 ^ 64
  let h := h ^^^ (h >>> 8)
  h &&& mask

/-- An empty table of `2 ^ log2` buckets. -/
def emptyChunks (log2 : ℕ) : ChunkTable := ⟨log2, 0, List.replicate (2 ^ log2) []⟩

/-- `chunk_table_init`. -/
def chunkTableInit : ChunkTable := emptyChunks chunkTableInitLog2

/-- Puts a record at the head of its chain. -/
def pushInfo (t : ChunkTable) (info : ChunkInfo) : ChunkTable :=
  let idx := chunkHash info.chunkId (2 ^ t.log2 - 1)
  { t with
    buckets := t.buckets.set idx (info :: t.buckets.getD idx [])
    count := t.count + 1 }

/-- `chunk_table_grow`. -/
def chunkTableGrow (t : ChunkTable) : ChunkTable :=
  t.buckets.flatten.foldl pushInfo (emptyChunks (t.log2 + 1))

/-- Adds an entry to the record of a chunk, if the chain has one. -/
def addToChain (chunkId : ℕ) (e : ChunkAllocEntry) : List ChunkInfo → Option (List ChunkInfo)
  | [] => none
  | info :: chain =>
      if info.chunkId = chunkId then some ({ info with entries := info.entries ++ [e] } :: chain)
      else (addToChain chunkId e chain).map (info :: ·)

/-- `chunk_table_insert_entry`. -/
def chunkTableInsertEntry (t : ChunkTable) (chunkId : ℕ) (e : ChunkAllocEntry) : ChunkTable :=
  let t := if t.count * 4 ≥ 2 ^ t.log2 * 3 then chunkTableGrow t else t
  let idx := chunkHash chunkId (2 ^ t.log2 - 1)
  match addToChain chunkId e (t.buckets.getD idx []) with
  | some chain => { t with buckets := t.buckets.set idx chain }
  | none => pushInfo t ⟨chunkId, [e]⟩

/-- `chunk_table_add_range`: one entry for every chunk the payload overlaps. -/
def chunkTableAddRange (t : ChunkTable) (user size header : ℕ) : ChunkTable :=
  if size = 0 then t
  else
    let first := user >>> chunkShift
    let last := (user + size - 1) >>> chunkShift
    (List.range' first (last + 1 - first)).foldl
      (fun t chunkId => chunkTableInsertEntry t chunkId ⟨user, size, header⟩) t

/-- `chunk_table_lookup`. -/
def chunkTableLookup (t : ChunkTable) (ptr : ℕ) : Option ℕ := do
  let chunkId := ptr >>> chunkShift
  let chain := t.buckets.getD (chunkHash chunkId (2 ^ t.log2 - 1)) []
  let info ← chain.find? fun info => info.chunkId = chunkId
  let e ← info.entries.find? fun e => e.base ≤ ptr ∧ ptr < e.base + e.size
  return e.header

/-! ### What the table holds -/

/-- Every entry of the table satisfies `P`. -/
def ChunkTable.All (P : ChunkAllocEntry → Prop) (t : ChunkTable) : Prop :=
  ∀ chain ∈ t.buckets, ∀ info ∈ chain, ∀ e ∈ info.entries, P e

variable {P : ChunkAllocEntry → Prop} {t : ChunkTable} {chunkId ptr h : ℕ} {e : ChunkAllocEntry}

theorem emptyChunks_all (log2 : ℕ) : (emptyChunks log2).All P := by
  intro chain hchain info hinfo
  rw [List.eq_of_mem_replicate hchain] at hinfo
  exact absurd hinfo List.not_mem_nil

/-- The chain in a bucket, or the empty one. -/
theorem ChunkTable.All.getD (ht : t.All P) (idx : ℕ) :
    ∀ info ∈ t.buckets.getD idx [], ∀ e ∈ info.entries, P e := by
  intro info hinfo
  by_cases hidx : idx < t.buckets.length
  · rw [List.getD_eq_getElem _ _ hidx] at hinfo
    exact ht _ (List.getElem_mem hidx) info hinfo
  · rw [List.getD_eq_default _ _ (Nat.not_lt.mp hidx)] at hinfo
    exact absurd hinfo List.not_mem_nil

theorem ChunkTable.All.set {chain : List ChunkInfo} {idx count log2 : ℕ} (ht : t.All P)
    (hchain : ∀ info ∈ chain, ∀ e ∈ info.entries, P e) :
    ChunkTable.All P ⟨log2, count, t.buckets.set idx chain⟩ := by
  intro c hc
  rcases List.mem_or_eq_of_mem_set hc with hc | rfl
  · exact ht c hc
  · exact hchain

theorem pushInfo_all {info : ChunkInfo} (ht : t.All P) (hinfo : ∀ e ∈ info.entries, P e) :
    (pushInfo t info).All P := by
  refine ht.set fun i hi => ?_
  rcases List.mem_cons.mp hi with rfl | hi
  · exact hinfo
  · exact ht.getD _ i hi

theorem chunkTableGrow_all (ht : t.All P) : (chunkTableGrow t).All P := by
  have hinfos : ∀ info ∈ t.buckets.flatten, ∀ e ∈ info.entries, P e := by
    intro info hinfo
    obtain ⟨chain, hchain, hinfo⟩ := List.mem_flatten.mp hinfo
    exact ht chain hchain info hinfo
  have hfold : ∀ (infos : List ChunkInfo) (u : ChunkTable), u.All P →
      (∀ info ∈ infos, ∀ e ∈ info.entries, P e) → (infos.foldl pushInfo u).All P := by
    intro infos
    induction infos with
    | nil => exact fun u hu _ => hu
    | cons info infos ih =>
        intro u hu hall
        exact ih _ (pushInfo_all hu (hall info List.mem_cons_self))
          fun i hi => hall i (List.mem_cons_of_mem _ hi)
  exact hfold _ _ (emptyChunks_all _) hinfos

theorem addToChain_all {chain chain' : List ChunkInfo} (he : P e)
    (hchain : ∀ info ∈ chain, ∀ e ∈ info.entries, P e)
    (h : addToChain chunkId e chain = some chain') :
    ∀ info ∈ chain', ∀ e ∈ info.entries, P e := by
  induction chain generalizing chain' with
  | nil => cases h
  | cons info chain ih =>
      have hrest : ∀ i ∈ chain, ∀ e ∈ i.entries, P e :=
        fun i hi => hchain i (List.mem_cons_of_mem _ hi)
      rw [addToChain] at h
      split at h
      · cases h
        intro i hi
        rcases List.mem_cons.mp hi with rfl | hi
        · intro d hd
          rcases List.mem_append.mp hd with hd | hd
          · exact hchain info List.mem_cons_self d hd
          · rw [List.mem_singleton.mp hd]
            exact he
        · exact hrest i hi
      · obtain ⟨chain₁, h₁, rfl⟩ := Option.map_eq_some_iff.mp h
        intro i hi
        rcases List.mem_cons.mp hi with rfl | hi
        · exact hchain _ List.mem_cons_self
        · exact ih hrest h₁ i hi

theorem chunkTableInsertEntry_all (ht : t.All P) (he : P e) :
    (chunkTableInsertEntry t chunkId e).All P := by
  have hgrown : (if t.count * 4 ≥ 2 ^ t.log2 * 3 then chunkTableGrow t else t).All P := by
    split
    · exact chunkTableGrow_all ht
    · exact ht
  rw [chunkTableInsertEntry]
  split
  · next chain hchain => exact hgrown.set (addToChain_all he (hgrown.getD _) hchain)
  · refine pushInfo_all hgrown fun d hd => ?_
    rw [List.mem_singleton.mp hd]
    exact he

/-- Adding an object adds only entries for it. -/
theorem chunkTableAddRange_all {user size header : ℕ} (ht : t.All P)
    (he : P ⟨user, size, header⟩) : (chunkTableAddRange t user size header).All P := by
  rw [chunkTableAddRange]
  split
  · exact ht
  · show (List.foldl _ t _).All P
    generalize List.range' (user >>> chunkShift) _ = ids
    induction ids generalizing t with
    | nil => exact ht
    | cons c ids ih => exact ih (chunkTableInsertEntry_all ht he)

/-- **What a lookup finds.** -/
theorem chunkTableLookup_sound (ht : t.All P) (h : chunkTableLookup t ptr = some h') :
    ∃ e, P e ∧ e.base ≤ ptr ∧ ptr < e.base + e.size ∧ e.header = h' := by
  rw [chunkTableLookup] at h
  obtain ⟨info, hinfo, h⟩ := Option.bind_eq_some_iff.mp h
  obtain ⟨e, he, h⟩ := Option.bind_eq_some_iff.mp h
  have hmem := ht.getD _ info (List.mem_of_find?_eq_some hinfo) e (List.mem_of_find?_eq_some he)
  have hrange := List.find?_some he
  simp only [Bool.decide_and, Bool.and_eq_true, decide_eq_true_eq] at hrange
  exact ⟨e, hmem, hrange.1, hrange.2, Option.some.inj h⟩

end Visuall.Gc
