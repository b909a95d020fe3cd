import Visuall.Gc.ChunkTable
import Visuall.Gc.Layout

/-!
# The collector

Allocation, marking, sweeping and the free lists of `gc.c`, over a state that holds its globals and
the memory.  `malloc` and `free` are the system's: a call's result is an argument, and `blocks`
records which blocks the collector has from `malloc` and has not freed.

* `Collector` — the state;
* `markInternal`, `markRoots`, `sweepLoop`, `collect` — a collection;
* `visuallAlloc`, `visuallAllocObject`, `registerGlobal` — the calls of the runtime.
-/

namespace Visuall.Gc

/-! ### State -/

/-- The globals of the collector, the scheduler's `ready_head`, the memory, and the sizes of the
blocks the collector has from `malloc`. -/
structure Collector where
  mem : Mem
  heapHead : ℕ
  heapBytes : ℕ
  gcThreshold : ℕ
  stackBottom : ℕ
  globalRoots : List ℕ
  heapLo : ℕ
  heapHi : ℕ
  flHeads : Fin 4 → ℕ
  flCounts : Fin 4 → ℕ
  ptrMap : Option PtrMap
  readyHead : ℕ
  blocks : ℕ → Option ℕ

/-- `UINTPTR_MAX`. -/
def uintptrMax : ℕ := 2 ^ 64 - 1

/-- `UINT32_MAX`. -/
def uint32Max : ℕ := 2 ^ 32 - 1

def initialThreshold : ℕ := 1 * 1024 * 1024

def maxGlobalRoots : ℕ := 4096

/-- After `__visuall_gc_init`, with no block allocated before. -/
def gcInit (mem : Mem) (stackBottom readyHead : ℕ) : Collector where
  mem := mem
  heapHead := 0
  heapBytes := 0
  gcThreshold := initialThreshold
  stackBottom := stackBottom
  globalRoots := []
  heapLo := uintptrMax
  heapHi := 0
  flHeads := fun _ => 0
  flCounts := fun _ => 0
  ptrMap := some (emptyMap ptrMapInitCap)
  readyHead := readyHead
  blocks := fun _ => none

/-! ### Free lists -/

def flMaxPerClass : ℕ := 32768

/-- `fl_class_sizes`. -/
def flClassSize : Fin 4 → ℕ := ![32, 64, 128, 256]

/-- `fl_class_for`: the smallest class that fits. -/
def flClassFor (total : ℕ) : Option (Fin 4) :=
  (List.finRange 4).find? fun c => total ≤ flClassSize c

/-- `fl_pop`. -/
def flPop (g : Collector) (cls : Option (Fin 4)) : Option (ℕ × Collector) :=
  match cls with
  | none => none
  | some c =>
      if g.flHeads c = 0 then none
      else
        let hdr := g.flHeads c
        some (hdr, { g with
          flHeads := Function.update g.flHeads c (nextWord g.mem hdr)
          flCounts := Function.update g.flCounts c (g.flCounts c - 1) })

/-- `fl_push`, or `none` when the block is not cached. -/
def flPush (g : Collector) (hdr : ℕ) : Option Collector :=
  match flClassFor (sizeOf g.mem hdr) with
  | none => none
  | some c =>
      if g.flCounts c ≥ flMaxPerClass then none
      else some { g with
        mem := store g.mem (nextField hdr) 8 (g.flHeads c)
        flHeads := Function.update g.flHeads c hdr
        flCounts := Function.update g.flCounts c (g.flCounts c + 1) }

/-- `malloc` of `size` bytes at address `addr`. -/
def recordMalloc (g : Collector) (addr size : ℕ) : Collector :=
  { g with blocks := Function.update g.blocks addr (some size) }

/-- `free`. -/
def recordFree (g : Collector) (addr : ℕ) : Collector :=
  { g with blocks := Function.update g.blocks addr none }

/-! ### Marking -/

/-- The headers of a list linked through `next`; `2 ^ 64` steps are a loop. -/
def heapList (m : Mem) : ℕ → ℕ → Except Stop (List ℕ)
  | 0, _ => .error .endless
  | fuel + 1, h =>
      if h = 0 then .ok []
      else do
        let hs ← heapList m fuel (nextWord m h)
        return h :: hs

/-- The loop of `__visuall_collect` that builds the chunk table. -/
def buildChunks (m : Mem) (hs : List ℕ) : ChunkTable :=
  hs.foldl (fun t h => chunkTableAddRange t (userOf h) (payloadOf (sizeOf m h)) h) chunkTableInit

/-- `find_gc_header`. -/
def findGcHeader (g : Collector) (chunks : ChunkTable) (ptr : ℕ) : Except Stop (Option ℕ) :=
  if ptr = 0 then .ok none
  else do
    match ← ptrMapLookup g.ptrMap ptr with
    | some h => return some h
    | none =>
        if ptr < g.heapLo ∨ ptr ≥ g.heapHi then return none
        else return chunkTableLookup chunks ptr

/-- `if (find_gc_header(w)) mark_internal(w)`. -/
def visitWord (find : ℕ → Except Stop (Option ℕ)) (mark : Mem → ℕ → Except Stop Mem) (m : Mem)
    (w : ℕ) : Except Stop Mem := do
  match ← find w with
  | some _ => mark m w
  | none => return m

/-- `mark_internal`.  The depth of the recursion is bounded by the number of objects. -/
def markInternal (find : ℕ → Except Stop (Option ℕ)) : ℕ → Mem → ℕ → Except Stop Mem
  | 0, _, _ => .error .endless
  | fuel + 1, m, ptr =>
      if ptr = 0 then .ok m
      else
        let hdr := getHeader ptr
        if hdr = 0 then .ok m
        else if markedOf m hdr ≠ 0 then .ok m
        else
          (objectScan hdr ptr).run (visitWord find (markInternal find fuel)) .endless
            (store m (hdr + 1) 1 1)

/-- The words `mark_roots` looks at. -/
def rootsOf (g : Collector) (sp : ℕ) : Scan := rootScan g.globalRoots g.stackBottom sp g.readyHead

/-- `mark_roots`. -/
def markRoots (g : Collector) (chunks : ChunkTable) (sp : ℕ) : Except Stop Mem :=
  let find := findGcHeader g chunks
  (rootsOf g sp).run (visitWord find (markInternal find (2 ^ 64))) .endless g.mem

/-! ### Sweeping -/

/-- Tags whose finalizer frees an array that the first word of the object points to. -/
def ownsArray (tag : ℕ) : Bool :=
  tag = tagList || tag = tagTuple || tag = tagDict || tag = tagSet

/-- `finalize`. -/
def finalize (g : Collector) (hdr : ℕ) : Collector :=
  if ownsArray (tagOf g.mem hdr) ∧ load g.mem (userOf hdr) 8 ≠ 0 then
    { g with mem := store g.mem (userOf hdr) 8 0 }
  else g

/-- `*pp`, where `pp` is the address of a link, or `&heap_head`. -/
def readLink (g : Collector) : Option ℕ → ℕ
  | none => g.heapHead
  | some a => load g.mem a 8

/-- `*pp = h`. -/
def writeLink (g : Collector) (h : ℕ) : Option ℕ → Collector
  | none => { g with heapHead := h }
  | some a => { g with mem := store g.mem a 8 h }

/-- What `sweep` does with a dead object: unlink it, finalize it, and cache or free its block. -/
def sweepDead (g : Collector) (pp : Option ℕ) (hdr : ℕ) : Collector :=
  let g := writeLink g (nextWord g.mem hdr) pp
  let g := { g with heapBytes := (g.heapBytes + 2 ^ 64 - sizeOf g.mem hdr) % 2 ^ 64 }
  let g := finalize g hdr
  (flPush g hdr).getD (recordFree g hdr)

/-- The loop of `sweep` over the heap list. -/
def sweepLoop : ℕ → Option ℕ → Collector → Except Stop Collector
  | 0, _, _ => .error .endless
  | fuel + 1, pp, g =>
      let hdr := readLink g pp
      if hdr = 0 then .ok g
      else if markedOf g.mem hdr ≠ 0 then
        sweepLoop fuel (some (nextField hdr)) { g with mem := store g.mem (hdr + 1) 1 0 }
      else sweepLoop fuel pp (sweepDead g pp hdr)

/-- The bounds of the heap, from the headers of its objects. -/
def heapBounds (m : Mem) (hs : List ℕ) : ℕ × ℕ :=
  if hs = [] then (uintptrMax, 0)
  else hs.foldl (fun b h => (min b.1 h, max b.2 (h + sizeOf m h))) (uintptrMax, 0)

/-- `sweep`. -/
def sweep (g : Collector) : Except Stop Collector := do
  let g ← sweepLoop (2 ^ 64) none g
  let hs ← heapList g.mem (2 ^ 64) g.heapHead
  let ptrMap ← ptrMapRebuild g.ptrMap hs
  let (lo, hi) := heapBounds g.mem hs
  return { g with ptrMap := ptrMap, heapLo := lo, heapHi := hi }

/-! ### Collection -/

/-- `__visuall_collect`, with the stack pointer at the call. -/
def collect (g : Collector) (sp : ℕ) : Except Stop Collector := do
  let hs ← heapList g.mem (2 ^ 64) g.heapHead
  let mem ← markRoots g (buildChunks g.mem hs) sp
  let g ← sweep { g with mem := mem }
  let newThreshold := g.heapBytes * 2 % 2 ^ 64
  return { g with gcThreshold := max newThreshold initialThreshold }

/-! ### Allocation -/

/-- What the system answers during one call: the stack pointer, and the results of the first call
of `malloc` and of the one after a collection (0 is NULL). -/
structure Answers where
  sp : ℕ
  malloc : ℕ
  retry : ℕ

/-- `if (heap_bytes + sizeof(GCHeader) + size > gc_threshold) __visuall_collect()`. -/
def collectIfFull (g : Collector) (size sp : ℕ) : Except Stop Collector :=
  if (g.heapBytes + headerSize + size) % 2 ^ 64 > g.gcThreshold then collect g sp else .ok g

/-- `malloc`, and after a collection once more. -/
def mallocOrCollect (g : Collector) (total : ℕ) (a : Answers) (msg : String) : Except Stop (ℕ × Collector) :=
  if a.malloc ≠ 0 then .ok (a.malloc, recordMalloc g a.malloc total)
  else do
    let g ← collect g a.sp
    if a.retry ≠ 0 then return (a.retry, recordMalloc g a.retry total)
    else .error (.exit msg)

/-- The fields of a new header, and the object at the head of the heap list. -/
def linkHeader (g : Collector) (hdr tag total fieldCount : ℕ) : Collector :=
  let m := store g.mem hdr 1 tag
  let m := store m (hdr + 1) 1 0
  let m := store m (hdr + 2) 2 0
  let m := store m (hdr + 4) 4 total
  let m := store m (hdr + 8) 4 fieldCount
  let m := store m (nextField hdr) 8 g.heapHead
  { g with mem := m, heapHead := hdr, heapBytes := (g.heapBytes + total) % 2 ^ 64 }

/-- The entry of a new object in the pointer map, and the bounds of the heap. -/
def publish (g : Collector) (hdr total : ℕ) : Except Stop (ℕ × Collector) := do
  let ptrMap ← ptrMapInsert g.ptrMap (userOf hdr) hdr
  return (userOf hdr, { g with
    ptrMap := some ptrMap
    heapLo := min g.heapLo hdr
    heapHi := max g.heapHi (hdr + total) })

/-- The message of a size that overflows. -/
def overflowMsg (size : ℕ) : String := s!"GC: allocation size overflow ({size} bytes)\n"

/-- The message of a size that the header cannot hold. -/
def tooLargeMsg (total : ℕ) : String :=
  s!"GC: allocation too large: {total} bytes (max {uint32Max})\n"

/-- `__visuall_alloc`. -/
def visuallAlloc (g : Collector) (size tag : ℕ) (a : Answers) : Except Stop (ℕ × Collector) := do
  let g ← collectIfFull g size a.sp
  if size > 2 ^ 64 - 1 - headerSize then .error (.exit (overflowMsg size))
  else
    let cls := flClassFor (headerSize + size)
    let total := (cls.map flClassSize).getD (headerSize + size)
    let (hdr, g) ← match flPop g cls with
      | some popped => .ok popped
      | none => mallocOrCollect g total a s!"out of memory (GC alloc {size} bytes)\n"
    if total > uint32Max then .error (.exit (tooLargeMsg total))
    else
      let g := linkHeader g hdr tag total 0
      publish { g with mem := fill g.mem (userOf hdr) size 0 } hdr total

/-- The field offsets of an object as `__visuall_alloc_object` copies them behind the payload. -/
def storeOffsets (m : Mem) (tail : ℕ) : List ℕ → Mem
  | [] => m
  | offset :: offsets => storeOffsets (store m tail 4 offset) (tail + 4) offsets

/-- `__visuall_alloc_object`; `fieldOffsets` is an array of `fieldCount` offsets, or NULL. -/
def visuallAllocObject (g : Collector) (payload fieldCount : ℕ) (fieldOffsets : Option (List ℕ))
    (a : Answers) : Except Stop (ℕ × Collector) := do
  let totalPayload := (payload + fieldCount * 4) % 2 ^ 64
  let g ← collectIfFull g totalPayload a.sp
  if totalPayload > 2 ^ 64 - 1 - headerSize then
    .error (.exit s!"GC: allocation size overflow ({totalPayload} payload)\n")
  else
    let total := headerSize + totalPayload
    if total > uint32Max then .error (.exit (tooLargeMsg total))
    else
      let (hdr, g) ← mallocOrCollect g total a
        s!"out of memory (GC alloc_object {totalPayload} bytes)\n"
      let g := linkHeader g hdr tagObject total fieldCount
      let m := fill g.mem (userOf hdr) payload 0
      let m := storeOffsets m (userOf hdr + payload) ((fieldOffsets.getD []).take fieldCount)
      publish { g with mem := m } hdr total

/-- `__visuall_register_global`. -/
def registerGlobal (g : Collector) (ptr : ℕ) : Collector :=
  if g.globalRoots.length < maxGlobalRoots then { g with globalRoots := g.globalRoots ++ [ptr] }
  else g

end Visuall.Gc
