import Visuall.Gc.Sweeping
import Visuall.Lib.Run

/-!
# The accounts of the heap

The operations of the collector one after the other, in any order, with the program's writes between them.

* `visuallGcInit`, `gcShutdown` — the beginning and the end;
* `GcEvent`, `Step` — the operations, and what `malloc` and the program promise;
* `Accounted` — the counters, the lists and the bounds of the heap agree;
* `Good` — what an operation must not come by;
* `Balanced` — what the operations keep: `visuallAlloc_balanced`, `visuallAllocObject_balanced`, `gcShutdown_balanced`, ….
-/

namespace Visuall.Gc

open Effect

/-! ### The beginning and the end -/

/-- The static variables of `gc.c` before any call, and the scheduler's. -/
def gcStatic (mem : Mem) : Collector where
  mem := mem
  heapHead := 0
  heapBytes := 0
  gcThreshold := initialThreshold
  stackBottom := 0
  globalRoots := []
  heapLo := uintptrMax
  heapHi := 0
  flHeads := fun _ => 0
  flCounts := fun _ => 0
  ptrMap := none
  readyHead := 0
  blocks := fun _ => none

/-- `__visuall_gc_init`. -/
def visuallGcInit (g : Collector) (stackBottom : ℕ) : Collector :=
  { g with
    stackBottom := stackBottom
    heapHead := 0
    heapBytes := 0
    gcThreshold := initialThreshold
    heapLo := uintptrMax
    heapHi := 0
    globalRoots := []
    ptrMap := some (emptyMap ptrMapInitCap) }

/-- The loop of `__visuall_gc_shutdown` over the heap list. -/
def shutdownLoop : ℕ → ℕ → Collector → Except Stop Collector
  | 0, _, _ => .error .endless
  | fuel + 1, h, g => if h = 0 then .ok g else shutdownLoop fuel (nextWord g.mem h) (recordFree (finalize g h) h)

/-- The loop of `fl_free_all` over a free list. -/
def flFreeLoop : ℕ → ℕ → Collector → Except Stop Collector
  | 0, _, _ => .error .endless
  | fuel + 1, h, g => if h = 0 then .ok g else flFreeLoop fuel (nextWord g.mem h) (recordFree g h)

/-- `fl_free_all`. -/
def flFreeAll (g : Collector) : Except Stop Collector :=
  (List.finRange 4).foldlM (fun g c => do
    let g ← flFreeLoop (2 ^ 64) (g.flHeads c) g
    return { g with
      flHeads := Function.update g.flHeads c 0
      flCounts := Function.update g.flCounts c 0 }) g

/-- `__visuall_gc_shutdown`. -/
def gcShutdown (g : Collector) : Except Stop Collector := do
  let g ← shutdownLoop (2 ^ 64) g.heapHead g
  flFreeAll { g with
    heapHead := 0
    heapBytes := 0
    ptrMap := none }

/-! ### The operations -/

/-- The operations of the collector, and what happens between them. -/
inductive GcEvent
  | inits (stackBottom : ℕ)
  | allocs (size tag : ℕ) (a : Answers)
  | allocsObject (payload fieldCount : ℕ) (fieldOffsets : Option (List ℕ)) (a : Answers)
  | collects (sp : ℕ)
  | registers (ptr : ℕ)
  | shutsDown
  /-- A store of the program or of the runtime. -/
  | stores (addr n v : ℕ)
  /-- The scheduler changes its ready queue. -/
  | queues (readyHead : ℕ)

/-- What an event does. -/
def effect (g : Collector) : GcEvent → Except Stop Collector
  | .inits stackBottom => .ok (visuallGcInit g stackBottom)
  | .allocs size tag a => (visuallAlloc g size tag a).map Prod.snd
  | .allocsObject payload fieldCount fieldOffsets a => (visuallAllocObject g payload fieldCount fieldOffsets a).map Prod.snd
  | .collects sp => collect g sp
  | .registers ptr => .ok (registerGlobal g ptr)
  | .shutsDown => gcShutdown g
  | .stores addr n v => .ok { g with mem := store g.mem addr n v }
  | .queues readyHead => .ok { g with readyHead := readyHead }

/-- The bytes behind the header that an allocation needs, the free list it may take a block from, and the answers. -/
def request : GcEvent → Option (ℕ × Option (Fin 4) × Answers)
  | .allocs size _ a => some (size, flClassFor (headerSize + size), a)
  | .allocsObject payload fieldCount _ a => some ((payload + fieldCount * 4) % 2 ^ 64, none, a)
  | _ => none

/-- The size of the block for a request. -/
def totalOf (size : ℕ) (cls : Option (Fin 4)) : ℕ := (cls.map flClassSize).getD (headerSize + size)

/-- The collections of a request: the state in front of each, with the stack pointer. -/
def requestCollections (g : Collector) (size : ℕ) (cls : Option (Fin 4)) (a : Answers) : List (Collector × ℕ) :=
  (if (g.heapBytes + headerSize + size) % 2 ^ 64 > g.gcThreshold then [(g, a.sp)] else []) ++
    match collectIfFull g size a.sp with
    | .ok g => if (flPop g cls).isNone ∧ a.malloc = 0 then [(g, a.sp)] else []
    | .error _ => []

/-- The collections of an event. -/
def collections (g : Collector) (e : GcEvent) : List (Collector × ℕ) :=
  match e, request e with
  | .collects sp, _ => [(g, sp)]
  | _, some (size, cls, a) => requestCollections g size cls a
  | _, none => []

/-- The bytes of the objects on the heap list. -/
def liveBytes (g : Collector) : ℕ :=
  match heapList g.mem (2 ^ 64) g.heapHead with
  | .ok hs => sizes g.mem hs
  | .error _ => 0

/-- The bytes that a collection leaves. -/
def survivors (s : ℕ) (p : Collector × ℕ) : ℕ :=
  match collect p.1 p.2 with
  | .ok g => liveBytes g
  | .error _ => s

/-- A block that is on the heap list or on a free list. -/
def Listed (g : Collector) (b : ℕ) : Prop :=
  (∃ hs, heapList g.mem (2 ^ 64) g.heapHead = .ok hs ∧ b ∈ hs) ∨
    ∃ c hs, heapList g.mem (2 ^ 64) (g.flHeads c) = .ok hs ∧ b ∈ hs

/-- A block as `malloc` returns it: in the lower half of the address space, apart from the blocks in use. -/
structure Fresh (g : Collector) (addr n : ℕ) : Prop where
  low : addr + n ≤ 2 ^ 63
  unused : g.blocks addr = none
  apart : ∀ b l, g.blocks b = some l → addr + n ≤ b ∨ b + l ≤ addr

/-- What the collector is promised: `malloc` returns NULL or such a block, and no header is written by others. -/
def Promised (g : Collector) : GcEvent → Prop
  | .stores addr n _ => ∀ b, Listed g b → addr + n ≤ b ∨ b + headerSize ≤ addr
  | e => ∀ size cls a, request e = some (size, cls, a) → ∀ g₁, collectIfFull g size a.sp = .ok g₁ → flPop g₁ cls = none →
      (a.malloc ≠ 0 → Fresh g₁ a.malloc (totalOf size cls)) ∧
        (a.malloc = 0 → ∀ g₂, collect g₁ a.sp = .ok g₂ → a.retry ≠ 0 → Fresh g₂ a.retry (totalOf size cls))

/-- The collector, and the bytes that the last collection has left since the beginning. -/
structure GcWorld where
  gc : Collector
  survived : ℕ

/-- The bytes that the last collection has left, behind an event. -/
def survivedAfter (w : GcWorld) : GcEvent → ℕ
  | .inits _ => 0
  | e => (collections w.gc e).foldl survivors w.survived

/-- One event. -/
structure GcStep (w : GcWorld) (e : GcEvent) (w' : GcWorld) : Prop where
  promised : Promised w.gc e
  effect : effect w.gc e = .ok w'.gc
  survived : w'.survived = survivedAfter w e

/-! ### The accounts -/

/-- The accounts, where `hs` is the heap list and `fl` are the free lists. -/
structure AccountedBy (w : GcWorld) (hs : List ℕ) (fl : Fin 4 → List ℕ) : Prop where
  heap : heapList w.gc.mem (2 ^ 64) w.gc.heapHead = .ok hs
  free : ∀ c, heapList w.gc.mem (2 ^ 64) (w.gc.flHeads c) = .ok (fl c)
  bytes : w.gc.heapBytes = sizes w.gc.mem hs
  counts : ∀ c, w.gc.flCounts c = (fl c).length ∧ w.gc.flCounts c ≤ 32768
  apart : ∀ c, ∀ b ∈ fl c, b ∉ hs
  inside : ∀ h ∈ hs, w.gc.heapLo ≤ h ∧ h + sizeOf w.gc.mem h ≤ w.gc.heapHi
  guard : ∀ h ∈ hs, ∀ p, h ≤ p → p < h + sizeOf w.gc.mem h → ¬ (p < w.gc.heapLo ∨ p ≥ w.gc.heapHi)
  threshold : max (1024 * 1024) (2 * w.survived) ≤ w.gc.gcThreshold

/-- **The accounts of the heap are right.** -/
def Accounted (w : GcWorld) : Prop := ∃ hs fl, AccountedBy w hs fl

/-- What an operation must not come by: a mark in the size or the link of an object, a free block that is smaller than
its free list says, and a payload so large that it overflows together with the offsets. -/
structure Good (g : Collector) (e : GcEvent) : Prop where
  aimed : ∀ p ∈ collections g e, Aimed p.1 p.2
  fits : ∀ size cls a, request e = some (size, cls, a) → ∀ g₁, collectIfFull g size a.sp = .ok g₁ →
    ∀ hdr g₂, flPop g₁ cls = some (hdr, g₂) → ∃ k, g₁.blocks hdr = some k ∧ totalOf size cls ≤ k
  payload : ∀ payload fieldCount fieldOffsets a, e = .allocsObject payload fieldCount fieldOffsets a →
    payload + fieldCount * 4 < 2 ^ 64

/-! ### Allocation -/

section Allocation

variable {g g' g₁ : Collector} {hs : List ℕ} {fl : Fin 4 → List ℕ} {h k size total tag fieldCount user : ℕ} {cls : Option (Fin 4)}
  {a : Answers} {m : Mem} {w w' : GcWorld} {e : GcEvent}

/-- A header that has just been filled in. -/
theorem linkHeader_fields (g : Collector) (h tag fieldCount : ℕ) (htotal : total < 2 ^ 32) (hhead : g.heapHead < 2 ^ 64) :
    tagOf (linkHeader g h tag total fieldCount).mem h = tag % 256 ∧ sizeOf (linkHeader g h tag total fieldCount).mem h = total ∧
      nextWord (linkHeader g h tag total fieldCount).mem h = g.heapHead := by
  refine ⟨?_, ?_, ?_⟩
  · show load (store (store (store (store (store (store g.mem h 1 tag) _ _ _) _ _ _) _ _ _) _ _ _) (h + 16) 8 _) h 1 = _
    rw [load_store_of_disjoint (by omega), load_store_of_disjoint (by omega), load_store_of_disjoint (by omega),
      load_store_of_disjoint (by omega), load_store_of_disjoint (by omega), load_store_self]
    rfl
  · show load (store (store (store _ (h + 4) 4 total) (h + 8) 4 _) (h + 16) 8 _) (h + 4) 4 = _
    rw [load_store_of_disjoint (by omega), load_store_of_disjoint (by omega)]
    exact load_store_of_lt (htotal.trans_eq (by norm_num))
  · exact load_store_of_lt (hhead.trans_eq (by norm_num))

/-- Filling in a header writes in the header only. -/
theorem linkHeader_frame (g : Collector) (h tag total fieldCount : ℕ) {x : ℕ} (hx : ¬ (h ≤ x ∧ x < h + headerSize)) :
    (linkHeader g h tag total fieldCount).mem x = g.mem x := by
  have h24 : headerSize = 24 := rfl
  show store (store (store (store (store (store g.mem h 1 _) (h + 1) 1 _) (h + 2) 2 _) (h + 4) 4 _) (h + 8) 4 _) (h + 16) 8 _ x = _
  rw [store_of_notMem (by omega), store_of_notMem (by omega), store_of_notMem (by omega), store_of_notMem (by omega),
    store_of_notMem (by omega), store_of_notMem (by omega)]

/-- A new object in the pointer map. -/
theorem insert_mapped {pm : Option PtrMap} {pm' : PtrMap} (hmap : Mapped pm hs) (hh : h ∉ hs)
    (hrun : ptrMapInsert pm (userOf h) h = .ok pm') : Mapped (some pm') (h :: hs) := by
  obtain ⟨pm₁, hinsert, hlarge, hload, hcase⟩ := ptrMapInsert_table hmap.table hmap.large (Nat.succ_ne_zero (h + 23)) h
  cases hrun.symm.trans hinsert
  rw [List.length_map] at hload
  rcases hcase with ⟨e, rest, hperm, hkey, -⟩ | ⟨-, htable⟩
  · obtain ⟨b, hb, rfl⟩ := List.mem_map.mp (hperm.mem_iff.mpr List.mem_cons_self)
    have heq : b = h := Nat.add_right_cancel hkey
    exact absurd (heq ▸ hb) hh
  · refine ⟨htable, hlarge, ?_⟩
    -- the capacity is a multiple of four
    obtain ⟨j, hj⟩ := htable.pow
    have hinit : ptrMapInitCap = 1024 := rfl
    have h2 : 2 ≤ j := by
      by_contra hlt
      have hle : 2 ^ j ≤ 2 ^ 1 := Nat.pow_le_pow_right (by omega) (by omega)
      omega
    have hfour : 4 ∣ pm'.cap := hj ▸ pow_dvd_pow 2 h2
    show (h :: hs).length * 4 ≤ pm'.cap * 3
    rw [List.length_cons]
    omega

/-- **A new object**, in a block that is large enough. -/
theorem publish_kept (hk : Kept g hs fl) (hs' : Spare g hs fl h k) (htotal : total ≤ k) (hmin : headerSize ≤ total)
    (hmax : total < 2 ^ 32) (harray : ownsArray (tag % 256) = true → headerSize + 8 ≤ total)
    (hm : ∀ x, ¬ (h + headerSize ≤ x ∧ x < h + total) → m x = (linkHeader g h tag total fieldCount).mem x)
    (hrun : publish { linkHeader g h tag total fieldCount with mem := m } h total = .ok (user, g')) :
    Kept g' (h :: hs) fl ∧ g'.gcThreshold = g.gcThreshold := by
  have h24 : headerSize = 24 := rfl
  obtain ⟨pm, hinsert, hend⟩ := ok_of_bind hrun
  cases hend
  have hchain := hk.counted.chained
  have hframe : ∀ x, ¬ (h ≤ x ∧ x < h + k) → m x = g.mem x := by
    intro x hx
    rw [hm x (by omega), linkHeader_frame g h tag total fieldCount (by omega)]
  have hhead : g.heapHead < 2 ^ 64 := by
    have hheap := hchain.heap
    cases hs with
    | nil =>
        rw [linkOf_eq_none.mp hheap]
        exact Nat.two_pow_pos 64
    | cons b bs =>
        have haddr := hchain.owned_addr (.inl (List.mem_cons_self (a := b)))
        rw [(linkOf_eq_some.mp hheap.1).1]
        omega
  obtain ⟨htag, hsize, hnext⟩ := linkHeader_fields g h tag fieldCount hmax hhead
  have hheader : ∀ x, h ≤ x → x < h + headerSize → m x = (linkHeader g h tag total fieldCount).mem x :=
    fun x hx hx' => hm x (by omega)
  have htag' : tagOf m h = tag % 256 := (load_congr fun x hx hx' => hheader x hx (by omega)).trans htag
  have hsize' : sizeOf m h = total := (load_congr fun x hx hx' => hheader x (by omega) (by omega)).trans hsize
  have hnext' : nextWord m h = g.heapHead := (load_congr fun x hx hx' => hheader x (by omega) (by omega)).trans hnext
  have hspare : Spare { g with mem := m } hs fl h k := ⟨hs'.block, hs'.large, hs'.not_heap, hs'.not_free⟩
  have hlinked := (hchain.frame hs' hframe).link hspare (hsize'.trans_le htotal) (hmin.trans_eq hsize'.symm)
    (fun hown => (harray (htag' ▸ hown)).trans_eq hsize'.symm) hnext'
  have hsame : ∀ b ∈ hs, sizeOf m b = sizeOf g.mem b := fun b hb => (hchain.frame_fields hs' hframe (.inl hb)).size
  have hsizes : sizes m (h :: hs) = total + g.heapBytes := by
    rw [sizes_cons, hsize', sizes_congr hsame, hk.counted.bytes]
  have hlt := sizes_lt hlinked hk.counted.low
  have hlt : total + g.heapBytes < 2 ^ 63 := hsizes ▸ hlt
  refine ⟨⟨⟨hlinked.congr rfl rfl rfl rfl fun _ _ => ⟨rfl, rfl, rfl⟩, ?_, hk.counted.cap, hk.counted.low⟩,
    insert_mapped hk.mapped hs'.not_heap hinsert, ?_⟩, rfl⟩
  · show (g.heapBytes + total) % 2 ^ 64 = sizes m (h :: hs)
    rw [hsizes]
    omega
  · refine List.forall_mem_cons.mpr ⟨⟨min_le_right _ _, ?_⟩, fun b hb => ?_⟩
    · show h + sizeOf m h ≤ _
      rw [hsize']
      exact le_max_right _ _
    · obtain ⟨hlo, hhi⟩ := hk.bounded b hb
      refine ⟨(min_le_left _ _).trans hlo, ?_⟩
      show b + sizeOf m b ≤ _
      rw [hsame b hb]
      exact hhi.trans (le_max_left _ _)

/-- The accounts are kept, and the threshold suits the bytes that the last collection has left. -/
def Balanced (g : Collector) (s : ℕ) : Prop :=
  ∃ hs fl, Kept g hs fl ∧ max initialThreshold (2 * s) ≤ g.gcThreshold

/-- The same, with a spare block of some size. -/
def Taken (g : Collector) (s h total : ℕ) : Prop :=
  ∃ hs fl k, Kept g hs fl ∧ max initialThreshold (2 * s) ≤ g.gcThreshold ∧ Spare g hs fl h k ∧ total ≤ k

theorem collect_balanced {s sp : ℕ} (hb : Balanced g s) (haim : Aimed g sp) (hrun : collect g sp = .ok g') :
    Balanced g' (survivors s (g, sp)) := by
  obtain ⟨hs, fl, hk, -⟩ := hb
  obtain ⟨hs', fl', hk', hthreshold⟩ := collect_kept hk haim hrun
  have hlive : survivors s (g, sp) = sizes g'.mem hs' := by
    rw [survivors, hrun]
    show liveBytes g' = _
    rw [liveBytes, hk'.counted.chained.heapList_eq]
  refine ⟨hs', fl', hk', ?_⟩
  rw [hlive, hthreshold, max_comm]

theorem collectIfFull_balanced {s sp : ℕ} (hb : Balanced g s)
    (haim : ∀ p ∈ (if (g.heapBytes + headerSize + size) % 2 ^ 64 > g.gcThreshold then [(g, sp)] else []), Aimed p.1 p.2)
    (hrun : collectIfFull g size sp = .ok g₁) :
    Balanced g₁ ((if (g.heapBytes + headerSize + size) % 2 ^ 64 > g.gcThreshold then [(g, sp)] else []).foldl survivors s) := by
  rw [collectIfFull] at hrun
  split at hrun
  · next hfull =>
    rw [if_pos hfull] at haim ⊢
    exact collect_balanced hb (haim _ (List.mem_singleton_self _)) hrun
  · next hfull =>
    rw [if_neg hfull]
    cases hrun
    exact hb

theorem pop_taken {s : ℕ} {r : ℕ × Collector} (hb : Balanced g s) (hpop : flPop g cls = some r)
    (hfits : ∃ k, g.blocks r.1 = some k ∧ total ≤ k) : Taken r.2 s r.1 total := by
  obtain ⟨hs, fl, hk, hthreshold⟩ := hb
  cases cls with
  | none => cases hpop
  | some c =>
      by_cases hhead : g.flHeads c = 0
      · rw [flPop, if_pos hhead] at hpop
        cases hpop
      · simp only [flPop, hhead, if_false] at hpop
        cases hpop
        have hlist := hk.counted.chained.free c
        cases hfl : fl c with
        | nil =>
            rw [hfl] at hlist
            exact absurd (linkOf_eq_none.mp hlist) hhead
        | cons h rest =>
            rw [hfl] at hlist
            have heq : g.flHeads c = h := (linkOf_eq_some.mp hlist.1).1
            obtain ⟨hpopped, k, hspare⟩ := hk.counted.chained.pop hfl
            obtain ⟨k', hk', hle⟩ := hfits
            have hsame : k' = k := by
              have hblock := hspare.block
              rw [heq] at hk'
              exact Option.some_injective _ (hk'.symm.trans hblock)
            subst hsame
            rw [heq]
            refine ⟨hs, Function.update fl c rest, k', ⟨⟨hpopped, hk.counted.bytes, ?_, hk.counted.low⟩, hk.mapped, hk.bounded⟩,
              hthreshold, hspare, hle⟩
            intro d
            by_cases hdc : d = c
            · subst hdc
              have hcap := hk.counted.cap d
              rw [hfl, List.length_cons] at hcap
              rw [Function.update_self]
              omega
            · rw [Function.update_of_ne hdc]
              exact hk.counted.cap d

theorem malloc_taken {s addr : ℕ} (hb : Balanced g s) (hmin : headerSize ≤ total) (hne : addr ≠ 0) (hfresh : Fresh g addr total) :
    Taken (recordMalloc g addr total) s addr total := by
  obtain ⟨hs, fl, hk, hthreshold⟩ := hb
  obtain ⟨hchain, hspare⟩ := hk.counted.chained.malloc hmin (Nat.pos_of_ne_zero hne)
    (hfresh.low.trans (by norm_num)) hfresh.unused hfresh.apart
  refine ⟨hs, fl, total, ⟨⟨hchain, hk.counted.bytes, hk.counted.cap, fun b l hbl => ?_⟩, hk.mapped, hk.bounded⟩, hthreshold, hspare, le_rfl⟩
  have hbl : Function.update g.blocks addr (some total) b = some l := hbl
  by_cases hba : b = addr
  · rw [hba, Function.update_self] at hbl
    cases hbl
    rw [hba]
    exact hfresh.low
  · rw [Function.update_of_ne hba] at hbl
    exact hk.counted.low b l hbl

theorem mallocOrCollect_taken {s : ℕ} {msg : String} {r : ℕ × Collector} (hb : Balanced g s) (hmin : headerSize ≤ total)
    (hfirst : a.malloc ≠ 0 → Fresh g a.malloc total)
    (hretry : a.malloc = 0 → ∀ g₂, collect g a.sp = .ok g₂ → a.retry ≠ 0 → Fresh g₂ a.retry total)
    (haim : a.malloc = 0 → Aimed g a.sp) (hrun : mallocOrCollect g total a msg = .ok r) :
    Taken r.2 (if a.malloc = 0 then survivors s (g, a.sp) else s) r.1 total := by
  rw [mallocOrCollect] at hrun
  by_cases hmalloc : a.malloc = 0
  · rw [if_neg fun h => h hmalloc] at hrun
    rw [if_pos hmalloc]
    obtain ⟨g₂, hcollect, hend⟩ := ok_of_bind hrun
    split at hend
    · next hne =>
      cases hend
      exact malloc_taken (collect_balanced hb (haim hmalloc) hcollect) hmin hne (hretry hmalloc g₂ hcollect hne)
    · cases hend
  · rw [if_pos hmalloc] at hrun
    rw [if_neg hmalloc]
    cases hrun
    exact malloc_taken hb hmin hmalloc (hfirst hmalloc)

/-- The header and the payload of a block that has been taken. -/
theorem taken_balanced {s : ℕ} (ht : Taken g s h total) (hmin : headerSize ≤ total) (hmax : total < 2 ^ 32)
    (harray : ownsArray (tag % 256) = true → headerSize + 8 ≤ total)
    (hm : ∀ x, ¬ (h + headerSize ≤ x ∧ x < h + total) → m x = (linkHeader g h tag total fieldCount).mem x)
    (hrun : publish { linkHeader g h tag total fieldCount with mem := m } h total = .ok (user, g')) : Balanced g' s := by
  obtain ⟨hs, fl, k, hk, hthreshold, hspare, hle⟩ := ht
  obtain ⟨hkept, hsame⟩ := publish_kept hk hspare hle hmin hmax harray hm hrun
  exact ⟨h :: hs, fl, hkept, hthreshold.trans_eq hsame.symm⟩

theorem totalOf_class (size : ℕ) : headerSize + size ≤ totalOf size (flClassFor (headerSize + size)) ∧
    32 ≤ totalOf size (flClassFor (headerSize + size)) := by
  cases hcls : flClassFor (headerSize + size) with
  | none =>
      have hlarge := List.find?_eq_none.mp hcls 3 (List.mem_finRange 3)
      have hnot : ¬ headerSize + size ≤ 256 := fun hle => hlarge (decide_eq_true hle)
      exact ⟨le_rfl, show 32 ≤ headerSize + size by omega⟩
  | some c =>
      have hle : headerSize + size ≤ flClassSize c := of_decide_eq_true <|
        List.find?_some (p := fun c => decide (headerSize + size ≤ flClassSize c)) hcls
      refine ⟨hle, ?_⟩
      show 32 ≤ flClassSize c
      fin_cases c <;> decide

/-- The first collection of a request: the account behind it, and that of the second one. -/
theorem requestCollections_balanced {s : ℕ} (hb : Balanced g s) (hfull : collectIfFull g size a.sp = .ok g₁)
    (haim : ∀ p ∈ requestCollections g size cls a, Aimed p.1 p.2) :
    ∃ s₁, Balanced g₁ s₁ ∧ (flPop g₁ cls = none → a.malloc = 0 → Aimed g₁ a.sp) ∧
      (requestCollections g size cls a).foldl survivors s =
        if (flPop g₁ cls).isNone ∧ a.malloc = 0 then survivors s₁ (g₁, a.sp) else s₁ := by
  rw [requestCollections, hfull] at haim ⊢
  dsimp only at haim ⊢
  rw [List.foldl_append]
  have hfirst := collectIfFull_balanced hb (fun p hp => haim p (List.mem_append_left _ hp)) hfull
  refine ⟨_, hfirst, fun hpop hzero => haim (g₁, a.sp) (List.mem_append_right _ ?_), ?_⟩
  · rw [hpop, if_pos ⟨rfl, hzero⟩]
    exact List.mem_singleton_self _
  · by_cases hsecond : (flPop g₁ cls).isNone ∧ a.malloc = 0
    · rw [if_pos hsecond, if_pos hsecond]
      rfl
    · rw [if_neg hsecond, if_neg hsecond]
      rfl

/-- **`__visuall_alloc`.** -/
theorem visuallAlloc_balanced {s : ℕ} (hb : Balanced g s) (hgood : Good g (.allocs size tag a))
    (hpromised : Promised g (.allocs size tag a)) (hrun : visuallAlloc g size tag a = .ok (user, g')) :
    Balanced g' ((collections g (.allocs size tag a)).foldl survivors s) := by
  obtain ⟨g₁, hfull, hrest⟩ := ok_of_bind hrun
  have hfits := hgood.fits _ _ _ rfl g₁ hfull
  have hanswers := hpromised _ _ _ rfl g₁ hfull
  obtain ⟨s₁, hfirst, haim, hsurvived⟩ := requestCollections_balanced hb hfull hgood.aimed
  rw [show collections g (.allocs size tag a) = requestCollections g size (flClassFor (headerSize + size)) a from rfl, hsurvived]
  obtain ⟨hsize, hmin⟩ := totalOf_class size
  have h24 : headerSize = 24 := rfl
  have hfill : ∀ g₂ hdr x, ¬ (hdr + headerSize ≤ x ∧ x < hdr + totalOf size (flClassFor (headerSize + size))) →
      fill (linkHeader g₂ hdr tag (totalOf size (flClassFor (headerSize + size))) 0).mem (userOf hdr) size 0 x =
        (linkHeader g₂ hdr tag (totalOf size (flClassFor (headerSize + size))) 0).mem x := by
    intro g₂ hdr x hx
    refine fill_of_notMem ?_
    rw [userOf]
    omega
  split at hrest
  · cases hrest
  · have hblock : ∃ g₂ hdr s₂, Taken g₂ s₂ hdr (totalOf size (flClassFor (headerSize + size))) ∧
        (if (flPop g₁ (flClassFor (headerSize + size))).isNone ∧ a.malloc = 0 then survivors s₁ (g₁, a.sp) else s₁) = s₂ ∧
        (if totalOf size (flClassFor (headerSize + size)) > uint32Max then
            .error (.exit (tooLargeMsg (totalOf size (flClassFor (headerSize + size)))))
          else publish { linkHeader g₂ hdr tag (totalOf size (flClassFor (headerSize + size))) 0 with
            mem := fill (linkHeader g₂ hdr tag (totalOf size (flClassFor (headerSize + size))) 0).mem (userOf hdr) size 0 } hdr
              (totalOf size (flClassFor (headerSize + size)))) = .ok (user, g') := by
      cases hpop : flPop g₁ (flClassFor (headerSize + size)) with
      | some popped =>
          simp only [hpop] at hrest
          exact ⟨popped.2, popped.1, s₁, pop_taken hfirst hpop (hfits popped.1 popped.2 hpop), rfl, hrest⟩
      | none =>
          simp only [hpop] at hrest
          obtain ⟨r, hmalloc, hend⟩ := ok_of_bind hrest
          obtain ⟨hfresh, hretry⟩ := hanswers hpop
          refine ⟨r.2, r.1, _, mallocOrCollect_taken hfirst (by omega) hfresh hretry (haim hpop) hmalloc, ?_, hend⟩
          exact if_congr (and_iff_right rfl) rfl rfl
    obtain ⟨g₂, hdr, s₂, htaken, rfl, hend⟩ := hblock
    split at hend
    · cases hend
    · next hmax =>
      have hmax32 : totalOf size (flClassFor (headerSize + size)) < 2 ^ 32 := by
        have huint : uint32Max = 2 ^ 32 - 1 := rfl
        omega
      exact taken_balanced htaken (by omega) hmax32 (fun _ => by omega) (hfill g₂ hdr) hend

theorem storeOffsets_frame (offsets : List ℕ) (m : Mem) (tail : ℕ) {x : ℕ} (hx : ¬ (tail ≤ x ∧ x < tail + 4 * offsets.length)) :
    storeOffsets m tail offsets x = m x := by
  induction offsets generalizing m tail with
  | nil => rfl
  | cons offset offsets ih =>
      rw [List.length_cons] at hx
      rw [storeOffsets, ih _ _ (by omega), store_of_notMem (by omega)]

/-- **`__visuall_alloc_object`.** -/
theorem visuallAllocObject_balanced {s payload : ℕ} {fieldOffsets : Option (List ℕ)} (hb : Balanced g s)
    (hgood : Good g (.allocsObject payload fieldCount fieldOffsets a))
    (hpromised : Promised g (.allocsObject payload fieldCount fieldOffsets a))
    (hrun : visuallAllocObject g payload fieldCount fieldOffsets a = .ok (user, g')) :
    Balanced g' ((collections g (.allocsObject payload fieldCount fieldOffsets a)).foldl survivors s) := by
  obtain ⟨g₁, hfull, hrest⟩ := ok_of_bind hrun
  have hanswers := hpromised _ _ _ rfl g₁ hfull rfl
  obtain ⟨s₁, hfirst, haim, hsurvived⟩ := requestCollections_balanced hb hfull hgood.aimed
  rw [show collections g (.allocsObject payload fieldCount fieldOffsets a) =
    requestCollections g ((payload + fieldCount * 4) % 2 ^ 64) none a from rfl, hsurvived]
  rw [if_congr (show (flPop g₁ none).isNone = true ∧ a.malloc = 0 ↔ a.malloc = 0 from and_iff_right rfl) rfl rfl]
  have htotal : totalOf ((payload + fieldCount * 4) % 2 ^ 64) none = headerSize + (payload + fieldCount * 4) % 2 ^ 64 := rfl
  have hsmall : (payload + fieldCount * 4) % 2 ^ 64 = payload + fieldCount * 4 := Nat.mod_eq_of_lt (hgood.payload _ _ _ _ rfl)
  rw [htotal] at hanswers
  obtain ⟨hfresh, hretry⟩ := hanswers
  split at hrest
  · cases hrest
  · dsimp only at hrest
    split at hrest
    · cases hrest
    · next hmax =>
      obtain ⟨r, hmalloc, hend⟩ := ok_of_bind hrest
      have htaken := mallocOrCollect_taken hfirst (Nat.le_add_right _ _) hfresh hretry (haim rfl) hmalloc
      have hmax32 : headerSize + (payload + fieldCount * 4) % 2 ^ 64 < 2 ^ 32 := by
        have huint : uint32Max = 2 ^ 32 - 1 := rfl
        omega
      refine taken_balanced htaken (Nat.le_add_right _ _) hmax32 (fun hown => by cases hown) (fun x hx => ?_) hend
      have hlength : ((fieldOffsets.getD []).take fieldCount).length ≤ fieldCount := List.length_take_le _ _
      rw [storeOffsets_frame, fill_of_notMem]
      · rw [userOf]
        omega
      · rw [userOf]
        omega

/-! ### The other operations -/

theorem mapped_emptyMap : Mapped (some (emptyMap ptrMapInitCap)) [] := ⟨emptyMap_table (k := 10) rfl, le_rfl, Nat.zero_le _⟩

theorem static_balanced (mem : Mem) : Balanced (gcStatic mem) 0 := by
  have hchain : Chained (gcStatic mem) [] fun _ => [] := {
    heap := rfl
    free := fun _ => rfl
    counts := fun _ => rfl
    heap_block := fun h hh => absurd hh List.not_mem_nil
    heap_size := fun h hh => absurd hh List.not_mem_nil
    array_size := fun h hh => absurd hh List.not_mem_nil
    free_block := fun _ h hh => absurd hh List.not_mem_nil
    apart := fun a k b l ha => by cases ha
    addr := fun b k hb => by cases hb
    not_free := fun _ h hh => absurd hh List.not_mem_nil
    one_class := fun _ _ h hh => absurd hh List.not_mem_nil }
  exact ⟨[], fun _ => [], ⟨⟨hchain, rfl, fun _ => Nat.zero_le _, fun b k hb => by cases hb⟩, ⟨mapped_emptyMap.table, le_rfl, Nat.zero_le _⟩,
    fun h hh => absurd hh List.not_mem_nil⟩, le_rfl⟩

theorem visuallGcInit_balanced {s : ℕ} (hb : Balanced g s) (stackBottom : ℕ) : Balanced (visuallGcInit g stackBottom) 0 := by
  obtain ⟨hs, fl, hk, -⟩ := hb
  have hchain : Chained (visuallGcInit g stackBottom) [] fl := hk.counted.chained.restrict rfl
    (fun b hb => absurd hb List.not_mem_nil) rfl rfl rfl (fun _ _ => ⟨rfl, rfl⟩) fun _ _ _ => rfl
  exact ⟨[], fl, ⟨⟨hchain, rfl, hk.counted.cap, hk.counted.low⟩, mapped_emptyMap, fun h hh => absurd hh List.not_mem_nil⟩, le_rfl⟩

/-- Freeing a block leaves the other ones. -/
theorem blocks_recordFree (g : Collector) (h : ℕ) : ∀ b l, (recordFree g h).blocks b = some l → g.blocks b = some l := by
  intro b l hb
  have hb : Function.update g.blocks h none b = some l := hb
  by_cases hbh : b = h
  · rw [hbh, Function.update_self] at hb
    cases hb
  · rwa [Function.update_of_ne hbh] at hb

theorem shutdownLoop_blocks (fuel : ℕ) (hrun : shutdownLoop fuel h g = .ok g') :
    (∀ b l, g'.blocks b = some l → g.blocks b = some l) ∧ g'.gcThreshold = g.gcThreshold := by
  induction fuel generalizing h g with
  | zero => cases hrun
  | succ fuel ih =>
      rw [shutdownLoop] at hrun
      split at hrun
      · cases hrun
        exact ⟨fun _ _ hb => hb, rfl⟩
      · obtain ⟨hblocks, hthreshold⟩ := ih hrun
        have hfinal : (finalize g h).blocks = g.blocks ∧ (finalize g h).gcThreshold = g.gcThreshold := by
          rw [finalize]
          split <;> exact ⟨rfl, rfl⟩
        refine ⟨fun b l hb => ?_, hthreshold.trans hfinal.2⟩
        rw [← hfinal.1]
        exact blocks_recordFree _ _ b l (hblocks b l hb)

theorem flFreeLoop_blocks (fuel : ℕ) (hrun : flFreeLoop fuel h g = .ok g') :
    ∃ blocks, g' = { g with blocks := blocks } ∧ ∀ b l, blocks b = some l → g.blocks b = some l := by
  induction fuel generalizing h g with
  | zero => cases hrun
  | succ fuel ih =>
      rw [flFreeLoop] at hrun
      split at hrun
      · cases hrun
        exact ⟨_, rfl, fun _ _ hb => hb⟩
      · obtain ⟨blocks, rfl, hblocks⟩ := ih hrun
        exact ⟨blocks, rfl, fun b l hb => blocks_recordFree g h b l (hblocks b l hb)⟩

theorem flFreeAll_blocks (hrun : flFreeAll g = .ok g') :
    ∃ blocks, g' = { g with
      flHeads := fun _ => 0
      flCounts := fun _ => 0
      blocks := blocks } ∧ ∀ b l, blocks b = some l → g.blocks b = some l := by
  have hfold : ∀ (cs : List (Fin 4)) (g g' : Collector), (cs.foldlM (fun g c => do
        let g ← flFreeLoop (2 ^ 64) (g.flHeads c) g
        return { g with
          flHeads := Function.update g.flHeads c 0
          flCounts := Function.update g.flCounts c 0 }) g : Except Stop Collector) = .ok g' →
      ∃ blocks, g' = { g with
        flHeads := fun c => if c ∈ cs then 0 else g.flHeads c
        flCounts := fun c => if c ∈ cs then 0 else g.flCounts c
        blocks := blocks } ∧ ∀ b l, blocks b = some l → g.blocks b = some l := by
    intro cs
    induction cs with
    | nil =>
        intro g g' hrun
        cases hrun
        exact ⟨_, rfl, fun _ _ hb => hb⟩
    | cons c cs ih =>
        intro g g' hrun
        rw [List.foldlM_cons] at hrun
        obtain ⟨g₁, hstep, hrest⟩ := ok_of_bind hrun
        obtain ⟨g₂, hloop, hend⟩ := ok_of_bind hstep
        cases hend
        obtain ⟨blocks, rfl, hblocks⟩ := flFreeLoop_blocks _ hloop
        obtain ⟨blocks', rfl, hblocks'⟩ := ih _ _ hrest
        have hzero : ∀ f : Fin 4 → ℕ, (fun d => if d ∈ cs then 0 else Function.update f c 0 d) =
            fun d => if d ∈ c :: cs then 0 else f d := by
          intro f
          funext d
          by_cases hdc : d = c
          · subst hdc
            rw [Function.update_self, if_pos List.mem_cons_self, ite_self]
          · rw [Function.update_of_ne hdc]
            simp only [List.mem_cons, hdc, false_or]
        refine ⟨blocks', ?_, fun b l hb => hblocks b l (hblocks' b l hb)⟩
        rw [← hzero, ← hzero]
  obtain ⟨blocks, rfl, hblocks⟩ := hfold _ g g' hrun
  refine ⟨blocks, ?_, hblocks⟩
  simp only [List.mem_finRange, if_true]

theorem gcShutdown_balanced {s : ℕ} (hb : Balanced g s) (hrun : gcShutdown g = .ok g') : Balanced g' s := by
  obtain ⟨hs, fl, hk, hthreshold⟩ := hb
  obtain ⟨g₁, hloop, hrest⟩ := ok_of_bind hrun
  obtain ⟨hblocks, hsame⟩ := shutdownLoop_blocks _ hloop
  obtain ⟨blocks, rfl, hfree⟩ := flFreeAll_blocks hrest
  have hfrom : ∀ b l, blocks b = some l → g.blocks b = some l := fun b l hb => hblocks b l (hfree b l hb)
  have hchain : Chained { g₁ with
      heapHead := 0
      heapBytes := 0
      ptrMap := none
      flHeads := fun _ => 0
      flCounts := fun _ => 0
      blocks := blocks } [] fun _ => [] := {
    heap := rfl
    free := fun _ => rfl
    counts := fun _ => rfl
    heap_block := fun h hh => absurd hh List.not_mem_nil
    heap_size := fun h hh => absurd hh List.not_mem_nil
    array_size := fun h hh => absurd hh List.not_mem_nil
    free_block := fun _ h hh => absurd hh List.not_mem_nil
    apart := fun a k b l ha hb => hk.counted.chained.apart a k b l (hfrom a k ha) (hfrom b l hb)
    addr := fun b k hb => hk.counted.chained.addr b k (hfrom b k hb)
    not_free := fun _ h hh => absurd hh List.not_mem_nil
    one_class := fun _ _ h hh => absurd hh List.not_mem_nil }
  exact ⟨[], fun _ => [], ⟨⟨hchain, rfl, fun _ => Nat.zero_le _, fun b k hb => hk.counted.low b k (hfrom b k hb)⟩,
    ⟨mapped_emptyMap.table, le_rfl, Nat.zero_le _⟩, fun h hh => absurd hh List.not_mem_nil⟩, hthreshold.trans_eq hsame.symm⟩

/-- The blocks of the lists are those that are found on them. -/
theorem listed_of_owned (hk : Kept g hs fl) {b : ℕ} (hb : Owned hs fl b) : Listed g b := by
  rcases hb with hb | ⟨c, hb⟩
  · exact .inl ⟨hs, hk.counted.chained.heapList_eq, hb⟩
  · have hcap := hk.counted.cap c
    have hmax : flMaxPerClass = 32768 := rfl
    exact .inr ⟨c, fl c, heapList_eq (hk.counted.chained.free c) (by omega), hb⟩

theorem stores_balanced {s addr n v : ℕ} (hb : Balanced g s) (hpromised : Promised g (.stores addr n v)) :
    Balanced { g with mem := store g.mem addr n v } s := by
  obtain ⟨hs, fl, hk, hthreshold⟩ := hb
  have hsame : ∀ b, Owned hs fl b → SameFields g.mem (store g.mem addr n v) b := fun b hb =>
    (sameHeader_of_disjoint (hpromised b (listed_of_owned hk hb))).fields
  refine ⟨hs, fl, ⟨hk.counted.congr hsame, hk.mapped, fun b hb => ?_⟩, hthreshold⟩
  show _ ∧ b + sizeOf (store g.mem addr n v) b ≤ _
  rw [(hsame b (.inl hb)).size]
  exact hk.bounded b hb

end Allocation

end Visuall.Gc
