import Visuall.Gc.AccountingRuns

/-!
# What compiled code allocates

The calls of `__visuall_alloc` that `src/codegen.cpp` emits, with the size and the tag that stand there, and the layouts
that `codegen.cpp`, `stdlib/scheduler.c` and `stdlib/gc.c` each have for the blocks.

* `Emitted` — a block, and what its slots hold when a collection runs;
* `Emitted.request`, `Emitted.accesses` — what is asked for it, and where it is read and written;
* `Holds` — the block is in memory; `holds_of_alloc` — it is, when it has been allocated and filled;
* `Understood` — every access is inside the payload, and marking visits every pointer;
* `understood_iff` — the result, kind by kind.
-/

namespace Visuall.Gc

/-! ### Blocks -/

/-- A slot of eight bytes: what it holds, and whether that is a pointer to an object of the heap. -/
structure Slot where
  word : ℕ
  isHeap : Bool
  word_lt : word < 2 ^ 64
  heap_ne : isHeap = true → word ≠ 0

/-- A block that compiled code obtains from `__visuall_alloc`: the environment of a closure, the arguments and the task
of a `go` statement, the box of a captured variable, the elements of a list or a tuple that is on the stack, and the
entries of such a dictionary. -/
inductive Emitted
  | closureEnv (captures : List Slot)
  | goArgs (args : List Slot)
  | task (fnPtr env : Slot)
  | box (value : Slot)
  | elementBuf (elements : List Slot)
  | dictEntries (entries : List (Option (Slot × Slot)))

namespace Emitted

/-- The size that is asked for. -/
def size : Emitted → ℕ
  | closureEnv captures => 8 * captures.length
  | goArgs args => 8 * args.length
  | task _ _ => 32
  | box _ => 8
  | elementBuf elements => 8 * elements.length
  | dictEntries entries => 24 * entries.length

/-- The tag that is asked for. -/
def tag : Emitted → ℕ
  | closureEnv _ => tagClosure
  | goArgs _ | task _ _ => tagTask
  | box _ => tagBoxed
  | elementBuf _ | dictEntries _ => tagString

/-- The call, which is not made where there would be no slot. -/
def request (b : Emitted) : Option (ℕ × ℕ) := if b.size = 0 then none else some (b.size, b.tag)

/-- Slots one behind the other, from an offset on. -/
def slotsFrom : ℕ → List Slot → List (ℕ × Slot)
  | _, [] => []
  | offset, s :: slots => (offset, s) :: slotsFrom (offset + 8) slots

/-- The keys and values of the entries in use. -/
def entriesFrom : ℕ → List (Option (Slot × Slot)) → List (ℕ × Slot)
  | _, [] => []
  | offset, none :: entries => entriesFrom (offset + 24) entries
  | offset, some (key, value) :: entries => (offset, key) :: (offset + 8, value) :: entriesFrom (offset + 24) entries

/-- The slots that compiled code stores, by their offsets. -/
def slots : Emitted → List (ℕ × Slot)
  | closureEnv captures => slotsFrom 0 captures
  | goArgs args => slotsFrom 0 args
  | task fnPtr env => slotsFrom 0 [fnPtr, env]
  | box value => slotsFrom 0 [value]
  | elementBuf elements => slotsFrom 0 elements
  | dictEntries entries => entriesFrom 0 entries

/-- The fields of `VisuallTask`: `fn_ptr`, `env`, `state`, `recv_value`, `has_recv` and `next`. -/
def taskFields : List (ℕ × ℕ) := [(0, 8), (8, 8), (16, 8), (24, 8), (32, 1), (40, 8)]

/-- Where compiled code and the scheduler read and write: offsets, and numbers of bytes. -/
def accesses : Emitted → List (ℕ × ℕ)
  | task _ _ => taskFields
  | dictEntries entries =>
      (List.range entries.length).flatMap fun i => [(24 * i, 8), (24 * i + 8, 8), (24 * i + 16, 1)]
  | b => b.slots.map fun p => (p.1, 8)

end Emitted

/-- The size of the block that `__visuall_alloc` takes for a request, header included. -/
def grantedSize (size : ℕ) : ℕ := ((flClassFor (headerSize + size)).map flClassSize).getD (headerSize + size)

/-- The block has its header at `hdr`, and its slots behind it. -/
structure Holds (m : Mem) (hdr : ℕ) (b : Emitted) : Prop where
  size_pos : 0 < b.size
  size_le : grantedSize b.size ≤ uint32Max
  tag : tagOf m hdr = b.tag
  size : sizeOf m hdr = grantedSize b.size
  slots : ∀ p ∈ b.slots, load m (userOf hdr + p.1) 8 = p.2.word

/-- **The collector understands the block**: every access is inside the payload, that of the collector too, and marking
the block visits every pointer that its slots hold. -/
structure Understood (m : Mem) (hdr : ℕ) (b : Emitted) : Prop where
  inside : ∀ a ∈ b.accesses, a.1 + a.2 ≤ payloadOf (sizeOf m hdr)
  collector : (objectScan hdr (userOf hdr)).Reads
    (fun x => hdr ≤ x ∧ x < userOf hdr + payloadOf (sizeOf m hdr)) m
  visited : ∃ ws, (objectScan hdr (userOf hdr)).words m = some ws ∧
    ∀ p ∈ b.slots, p.2.isHeap = true → p.2.word ∈ ws

/-- **What the blocks have to be like**: an environment has no pointer but the one in its first slot, arguments are two
at least and have no pointer but the one in the second slot, there are no tasks, and there are no pointers in boxes and
buffers. -/
def Traced : Emitted → Prop
  | .closureEnv captures => ∀ c ∈ captures, c.isHeap = true → captures.head?.map Slot.word = some c.word
  | .goArgs args => 2 ≤ args.length ∧ ∀ a ∈ args, a.isHeap = true → args[1]?.map Slot.word = some a.word
  | .task _ _ => False
  | .box value => value.isHeap = false
  | .elementBuf elements => ∀ e ∈ elements, e.isHeap = false
  | .dictEntries entries =>
      ∀ e ∈ entries, ∀ key value, e = some (key, value) → key.isHeap = false ∧ value.isHeap = false

/-! ### Allocating and filling a block -/

variable {m m' : Mem} {g g' : Collector} {b : Emitted} {hdr user size tag : ℕ} {a : Answers}

theorem le_grantedSize (size : ℕ) : headerSize + size ≤ grantedSize size := by
  unfold grantedSize
  cases h : flClassFor (headerSize + size) with
  | none => exact le_rfl
  | some c =>
    have hfit := List.find?_some h
    exact of_decide_eq_true hfit

/-- The header of a block that is linked and filled. -/
theorem publish_header {total : ℕ} (htag : tag < 256)
    (h : (if total > uint32Max then .error (.exit (tooLargeMsg total)) else
      publish { linkHeader g hdr tag total 0 with
        mem := fill (linkHeader g hdr tag total 0).mem (userOf hdr) size 0 } hdr total) = .ok (user, g')) :
    user = userOf hdr ∧ tagOf g'.mem hdr = tag ∧ sizeOf g'.mem hdr = total ∧ total ≤ uint32Max := by
  by_cases hlarge : total > uint32Max
  · rw [if_pos hlarge] at h
    cases h
  · rw [if_neg hlarge] at h
    obtain ⟨pm, _, hreturn⟩ := Effect.ok_of_bind h
    cases hreturn
    have htotal : total < 256 ^ 4 := by
      unfold uint32Max at hlarge
      omega
    refine ⟨rfl, ?_, ?_, le_of_not_gt hlarge⟩
    · show load (fill _ (hdr + headerSize) size 0) hdr 1 = tag
      rw [load_fill_of_disjoint (.inl (by unfold headerSize; omega))]
      show load (store (store (store (store (store (store _ _ _ _) _ _ _) _ _ _) _ _ _) _ _ _) (hdr + 16) _ _) _ _ = _
      rw [load_store_of_disjoint (.inl (by omega)), load_store_of_disjoint (.inl (by omega)),
        load_store_of_disjoint (.inl (by omega)), load_store_of_disjoint (.inl (by omega)),
        load_store_of_disjoint (.inl (by omega)), load_store_of_lt htag]
    · show load (fill _ (hdr + headerSize) size 0) (hdr + 4) 4 = total
      rw [load_fill_of_disjoint (.inl (by unfold headerSize; omega))]
      show load (store (store (store (store (store (store _ _ _ _) _ _ _) _ _ _) _ _ _) _ _ _) (hdr + 16) _ _) _ _ = _
      rw [load_store_of_disjoint (.inl (by omega)), load_store_of_disjoint (.inl (by omega)),
        load_store_of_lt htotal]

/-- The header that `__visuall_alloc` leaves. -/
theorem visuallAlloc_header (h : visuallAlloc g size tag a = .ok (user, g')) (htag : tag < 256) :
    ∃ hdr, user = userOf hdr ∧ tagOf g'.mem hdr = tag ∧ sizeOf g'.mem hdr = grantedSize size ∧
      grantedSize size ≤ uint32Max := by
  unfold visuallAlloc at h
  obtain ⟨g₁, _, hrest⟩ := Effect.ok_of_bind h
  by_cases hover : size > 2 ^ 64 - 1 - headerSize
  · rw [if_pos hover] at hrest
    cases hrest
  · rw [if_neg hover] at hrest
    cases hpop : flPop g₁ (flClassFor (headerSize + size)) with
    | some popped =>
      simp only [hpop] at hrest
      exact ⟨popped.1, publish_header htag hrest⟩
    | none =>
      simp only [hpop] at hrest
      obtain ⟨⟨hdr, g₂⟩, _, hlink⟩ := Effect.ok_of_bind hrest
      exact ⟨hdr, publish_header htag hlink⟩

/-- The stores that fill a block. -/
def storeSlots (m : Mem) (ptr : ℕ) : List (ℕ × Slot) → Mem
  | [] => m
  | (offset, s) :: slots => storeSlots (store m (ptr + offset) 8 s.word) ptr slots

/-- Slots in the order of their offsets, from one on. -/
def Ascending (offset : ℕ) (slots : List (ℕ × Slot)) : Prop :=
  (∀ p ∈ slots, offset ≤ p.1) ∧ slots.Pairwise fun p q => p.1 + 8 ≤ q.1

theorem Ascending.cons {offset : ℕ} {s : Slot} {slots : List (ℕ × Slot)} (h : Ascending (offset + 8) slots) :
    Ascending offset ((offset, s) :: slots) := by
  refine ⟨fun p hp => ?_, List.pairwise_cons.mpr ⟨h.1, h.2⟩⟩
  rcases List.mem_cons.mp hp with rfl | hp
  · exact le_rfl
  · exact (Nat.le_add_right _ 8).trans (h.1 p hp)

theorem Ascending.mono {offset offset' : ℕ} {slots : List (ℕ × Slot)} (h : Ascending offset' slots)
    (hle : offset ≤ offset') : Ascending offset slots :=
  ⟨fun p hp => hle.trans (h.1 p hp), h.2⟩

theorem slotsFrom_ascending (slots : List Slot) (offset : ℕ) : Ascending offset (Emitted.slotsFrom offset slots) := by
  induction slots generalizing offset with
  | nil => exact ⟨fun _ h => absurd h List.not_mem_nil, List.Pairwise.nil⟩
  | cons s slots ih => exact (ih (offset + 8)).cons

theorem entriesFrom_ascending (entries : List (Option (Slot × Slot))) (offset : ℕ) :
    Ascending offset (Emitted.entriesFrom offset entries) := by
  induction entries generalizing offset with
  | nil => exact ⟨fun _ h => absurd h List.not_mem_nil, List.Pairwise.nil⟩
  | cons e entries ih =>
    have hrest := ih (offset + 24)
    cases e with
    | none => exact hrest.mono (by omega)
    | some kv => exact ((hrest.mono (by omega)).cons (s := kv.2)).cons (s := kv.1)

theorem Emitted.slots_ascending (b : Emitted) : Ascending 0 b.slots := by
  cases b with
  | dictEntries entries => exact entriesFrom_ascending entries 0
  | _ => exact slotsFrom_ascending _ 0

/-- Words in front of what is stored stay. -/
theorem load_storeSlots_before {ptr at' n : ℕ} {slots : List (ℕ × Slot)} (h : ∀ p ∈ slots, at' + n ≤ ptr + p.1) :
    load (storeSlots m ptr slots) at' n = load m at' n := by
  induction slots generalizing m with
  | nil => rfl
  | cons p slots ih =>
    obtain ⟨offset, s⟩ := p
    have hfirst : at' + n ≤ ptr + offset := h (offset, s) List.mem_cons_self
    rw [storeSlots, ih fun q hq => h q (List.mem_cons_of_mem _ hq), load_store_of_disjoint (.inl hfirst)]

theorem load_storeSlots {ptr : ℕ} {slots : List (ℕ × Slot)} (h : slots.Pairwise fun p q => p.1 + 8 ≤ q.1)
    {p : ℕ × Slot} (hp : p ∈ slots) : load (storeSlots m ptr slots) (ptr + p.1) 8 = p.2.word := by
  induction slots generalizing m with
  | nil => cases hp
  | cons q slots ih =>
    obtain ⟨hfirst, hrest⟩ := List.pairwise_cons.mp h
    rcases List.mem_cons.mp hp with rfl | hp
    · obtain ⟨offset, s⟩ := p
      have hbefore : ∀ q ∈ slots, ptr + offset + 8 ≤ ptr + q.1 := fun q hq => by
        have := hfirst q hq
        simp only at this
        omega
      rw [storeSlots, load_storeSlots_before hbefore, load_store_of_lt s.word_lt]
    · exact ih hrest hp

theorem Emitted.tag_lt (b : Emitted) : b.tag < 256 := by
  cases b <;> simp [Emitted.tag, tagClosure, tagTask, tagBoxed, tagString]

theorem Emitted.request_eq (h : b.request = some (size, tag)) : 0 < b.size ∧ size = b.size ∧ tag = b.tag := by
  unfold Emitted.request at h
  by_cases hsize : b.size = 0
  · rw [if_pos hsize] at h
    cases h
  · rw [if_neg hsize] at h
    cases h
    exact ⟨Nat.pos_of_ne_zero hsize, rfl, rfl⟩

/-- The word in a slot, if marking visits it. -/
def nonNull (w : ℕ) : List ℕ := if w = 0 then [] else [w]

theorem words_visitNonNull {w : ℕ} : (visitNonNull w .done).words m = some (nonNull w) := by
  unfold visitNonNull nonNull
  by_cases hw : w = 0
  · rw [if_pos hw, if_pos hw]
    rfl
  · rw [if_neg hw, if_neg hw]
    rfl

theorem reads_visitNonNull {P : ℕ → Prop} {w : ℕ} : (visitNonNull w .done).Reads P m := by
  unfold visitNonNull
  by_cases hw : w = 0
  · rw [if_pos hw]
    trivial
  · rw [if_neg hw]
    trivial

/-- The offset of the only slot that marking reads. -/
def Emitted.visitedOffset : Emitted → Option ℕ
  | .closureEnv _ => some 0
  | .goArgs _ | .task _ _ => some 8
  | .box _ | .elementBuf _ | .dictEntries _ => none

/-- Marking looks at the slot at an offset, or at none. -/
def scanAt (ptr : ℕ) : Option ℕ → Scan
  | none => .done
  | some offset => .load (ptr + offset) 8 fun w => visitNonNull w .done

theorem words_scanAt_none {ptr : ℕ} : (scanAt ptr none).words m = some [] := by
  rw [scanAt, Scan.words]

theorem words_scanAt_some {ptr offset : ℕ} :
    (scanAt ptr (some offset)).words m = some (nonNull (load m (ptr + offset) 8)) := by
  rw [scanAt, Scan.words, words_visitNonNull]

theorem reads_scanAt {P : ℕ → Prop} {ptr : ℕ} {offset : Option ℕ} :
    (scanAt ptr offset).Reads P m ↔ ∀ o ∈ offset, ∀ x, ptr + o ≤ x → x < ptr + o + 8 → P x := by
  cases offset with
  | none =>
    rw [scanAt, Scan.Reads]
    exact ⟨fun _ o ho => absurd ho (Option.not_mem_none o), fun _ => trivial⟩
  | some o =>
    rw [scanAt, Scan.Reads]
    constructor
    · rintro ⟨hreads, _⟩ o' ho'
      rw [← Option.mem_some_iff.mp ho']
      exact hreads
    · intro h
      refine ⟨h o rfl, ?_⟩
      generalize load m (ptr + o) 8 = w
      exact reads_visitNonNull

/-- **What marking does with the blocks**: it looks at one slot, or at none. -/
theorem objectScan_eq (h : Holds m hdr b) : ∃ k, objectScan hdr (userOf hdr) = .load hdr 1 k ∧
    k (load m hdr 1) = scanAt (userOf hdr) b.visitedOffset := by
  refine ⟨_, rfl, ?_⟩
  rw [show load m hdr 1 = b.tag from h.tag]
  cases b <;> simp [Emitted.tag, Emitted.visitedOffset, scanAt, tagString, tagList, tagDict, tagClosure, tagObject,
    tagTuple, tagBoxed, tagGenerator, tagTask, tagChannel]

theorem objectScan_words (h : Holds m hdr b) :
    (objectScan hdr (userOf hdr)).words m = (scanAt (userOf hdr) b.visitedOffset).words m := by
  obtain ⟨k, hscan, hk⟩ := objectScan_eq h
  rw [hscan, Scan.words, hk]

/-- The collector stays inside a block that has the slot. -/
theorem objectScan_reads (h : Holds m hdr b) {n : ℕ} : (objectScan hdr (userOf hdr)).Reads
    (fun x => hdr ≤ x ∧ x < userOf hdr + n) m ↔ ∀ offset ∈ b.visitedOffset, offset + 8 ≤ n := by
  have htag : ∀ x, hdr ≤ x → x < hdr + 1 → hdr ≤ x ∧ x < userOf hdr + n := by
    intro x hx hx'
    refine ⟨hx, ?_⟩
    unfold userOf headerSize
    omega
  obtain ⟨k, hscan, hk⟩ := objectScan_eq h
  rw [hscan, Scan.Reads, hk, reads_scanAt]
  constructor
  · rintro ⟨_, hslot⟩ offset hoffset
    have hlast := (hslot offset hoffset (userOf hdr + offset + 7) (by omega) (by omega)).2
    omega
  · intro hinside
    refine ⟨htag, fun offset hoffset x hx hx' => ⟨?_, ?_⟩⟩
    · unfold userOf at hx
      omega
    · have hle := hinside offset hoffset
      omega

/-! ### Kind by kind -/

theorem mem_slotsFrom {slots : List Slot} {offset : ℕ} {p : ℕ × Slot} :
    p ∈ Emitted.slotsFrom offset slots ↔ ∃ i, slots[i]? = some p.2 ∧ p.1 = offset + 8 * i := by
  induction slots generalizing offset with
  | nil => exact ⟨fun h => absurd h List.not_mem_nil, fun ⟨i, hi, _⟩ => by cases hi⟩
  | cons s slots ih =>
    rw [Emitted.slotsFrom, List.mem_cons, ih]
    constructor
    · rintro (rfl | ⟨i, hi, hoffset⟩)
      · exact ⟨0, rfl, rfl⟩
      · exact ⟨i + 1, hi, by omega⟩
    · rintro ⟨i, hi, hoffset⟩
      cases i with
      | zero =>
        cases hi
        exact .inl (Prod.ext hoffset rfl)
      | succ i => exact .inr ⟨i, hi, by omega⟩

theorem mem_entriesFrom {entries : List (Option (Slot × Slot))} {offset : ℕ} {s : Slot} :
    (∃ o, (o, s) ∈ Emitted.entriesFrom offset entries) ↔
      ∃ key value, some (key, value) ∈ entries ∧ (s = key ∨ s = value) := by
  induction entries generalizing offset with
  | nil => exact ⟨fun ⟨o, h⟩ => absurd h List.not_mem_nil, fun ⟨_, _, h, _⟩ => absurd h List.not_mem_nil⟩
  | cons e entries ih =>
    have hrest := @ih (offset + 24)
    cases e with
    | none =>
      rw [Emitted.entriesFrom, hrest]
      constructor
      · rintro ⟨key, value, hmem, hs⟩
        exact ⟨key, value, List.mem_cons_of_mem _ hmem, hs⟩
      · rintro ⟨key, value, hmem, hs⟩
        exact ⟨key, value, (List.mem_cons.mp hmem).resolve_left (by rintro ⟨⟩), hs⟩
    | some kv =>
      obtain ⟨key, value⟩ := kv
      rw [Emitted.entriesFrom]
      constructor
      · rintro ⟨o, ho⟩
        rcases List.mem_cons.mp ho with heq | ho
        · exact ⟨key, value, List.mem_cons_self, .inl (Prod.ext_iff.mp heq).2⟩
        · rcases List.mem_cons.mp ho with heq | ho
          · exact ⟨key, value, List.mem_cons_self, .inr (Prod.ext_iff.mp heq).2⟩
          · obtain ⟨key', value', hmem, hs⟩ := hrest.mp ⟨o, ho⟩
            exact ⟨key', value', List.mem_cons_of_mem _ hmem, hs⟩
      · rintro ⟨key', value', hmem, hs⟩
        rcases List.mem_cons.mp hmem with heq | hmem
        · cases heq
          rcases hs with rfl | rfl
          · exact ⟨offset, List.mem_cons_self⟩
          · exact ⟨offset + 8, List.mem_cons_of_mem _ List.mem_cons_self⟩
        · obtain ⟨o, ho⟩ := hrest.mpr ⟨key', value', hmem, hs⟩
          exact ⟨o, List.mem_cons_of_mem _ (List.mem_cons_of_mem _ ho)⟩

theorem Holds.payload (h : Holds m hdr b) : payloadOf (sizeOf m hdr) = grantedSize b.size - headerSize := by
  have hle := le_grantedSize b.size
  have hlt := h.size_le
  rw [h.size]
  unfold payloadOf
  unfold headerSize at *
  unfold uint32Max at hlt
  omega

theorem mem_nonNull {v w : ℕ} (hv : v ≠ 0) : v ∈ nonNull w ↔ w = v := by
  unfold nonNull
  by_cases hw : w = 0
  · rw [if_pos hw, hw]
    exact ⟨fun h => absurd h List.not_mem_nil, fun h => absurd h.symm hv⟩
  · rw [if_neg hw, List.mem_singleton, eq_comm]

/-- Slots one behind the other are inside the payload. -/
theorem slots_inside {slots : List Slot} {n : ℕ} (hn : 8 * slots.length ≤ n) :
    ∀ a ∈ (Emitted.slotsFrom 0 slots).map fun p => (p.1, 8), a.1 + a.2 ≤ n := by
  intro a ha
  obtain ⟨p, hp, rfl⟩ := List.mem_map.mp ha
  obtain ⟨i, hi, hoffset⟩ := mem_slotsFrom.mp hp
  have hlt := (List.getElem?_eq_some_iff.mp hi).1
  show p.1 + 8 ≤ n
  omega

/-- Where no slot is looked at, there must be no pointer. -/
theorem visited_none (h : Holds m hdr b) (hnone : b.visitedOffset = none) :
    (∃ ws, (objectScan hdr (userOf hdr)).words m = some ws ∧
      ∀ p ∈ b.slots, p.2.isHeap = true → p.2.word ∈ ws) ↔ ∀ p ∈ b.slots, p.2.isHeap = false := by
  rw [objectScan_words h, hnone, words_scanAt_none]
  constructor
  · rintro ⟨ws, hws, hall⟩ p hp
    cases hws
    exact Bool.eq_false_iff.mpr fun hheap => absurd (hall p hp hheap) List.not_mem_nil
  · intro hall
    refine ⟨[], rfl, fun p hp hheap => ?_⟩
    rw [hall p hp] at hheap
    cases hheap

/-- Where one slot is looked at, every pointer must be the one in that slot. -/
theorem visited_some (h : Holds m hdr b) {offset : ℕ} {s : Slot} (hsome : b.visitedOffset = some offset)
    (hs : (offset, s) ∈ b.slots) :
    (∃ ws, (objectScan hdr (userOf hdr)).words m = some ws ∧
      ∀ p ∈ b.slots, p.2.isHeap = true → p.2.word ∈ ws) ↔
      ∀ p ∈ b.slots, p.2.isHeap = true → s.word = p.2.word := by
  rw [objectScan_words h, hsome, words_scanAt_some, h.slots _ hs]
  constructor
  · rintro ⟨ws, hws, hall⟩ p hp hheap
    cases hws
    exact (mem_nonNull (p.2.heap_ne hheap)).mp (hall p hp hheap)
  · exact fun hall => ⟨_, rfl, fun p hp hheap => (mem_nonNull (p.2.heap_ne hheap)).mpr (hall p hp hheap)⟩

theorem forall_slotsFrom (slots : List Slot) (P : Slot → Prop) :
    (∀ p ∈ Emitted.slotsFrom 0 slots, P p.2) ↔ ∀ s ∈ slots, P s := by
  constructor
  · intro h s hs
    obtain ⟨i, hi⟩ := List.mem_iff_getElem?.mp hs
    exact h (8 * i, s) (mem_slotsFrom.mpr ⟨i, hi, (Nat.zero_add _).symm⟩)
  · intro h p hp
    obtain ⟨i, hi, _⟩ := mem_slotsFrom.mp hp
    exact h p.2 (List.mem_of_getElem? hi)

theorem forall_entriesFrom (entries : List (Option (Slot × Slot))) (P : Slot → Prop) :
    (∀ p ∈ Emitted.entriesFrom 0 entries, P p.2) ↔
      ∀ e ∈ entries, ∀ key value, e = some (key, value) → P key ∧ P value := by
  constructor
  · rintro h e he key value rfl
    obtain ⟨o, ho⟩ := mem_entriesFrom.mpr ⟨key, value, he, .inl rfl⟩
    obtain ⟨o', ho'⟩ := mem_entriesFrom.mpr ⟨key, value, he, .inr rfl⟩
    exact ⟨h _ ho, h _ ho'⟩
  · intro h p hp
    obtain ⟨key, value, he, hs⟩ := mem_entriesFrom.mp ⟨p.1, hp⟩
    obtain ⟨hkey, hvalue⟩ := h _ he key value rfl
    rcases hs with hs | hs
    · exact hs ▸ hkey
    · exact hs ▸ hvalue

/-- What has to be shown of a block. -/
theorem understood_parts (h : Holds m hdr b) : Understood m hdr b ↔
    (∀ a ∈ b.accesses, a.1 + a.2 ≤ grantedSize b.size - headerSize) ∧
      (∀ offset ∈ b.visitedOffset, offset + 8 ≤ grantedSize b.size - headerSize) ∧
      ∃ ws, (objectScan hdr (userOf hdr)).words m = some ws ∧
        ∀ p ∈ b.slots, p.2.isHeap = true → p.2.word ∈ ws := by
  rw [← h.payload, ← objectScan_reads h]
  exact ⟨fun hu => ⟨hu.inside, hu.collector, hu.visited⟩, fun hu => ⟨hu.1, hu.2.1, hu.2.2⟩⟩

theorem Holds.room (_ : Holds m hdr b) : b.size ≤ grantedSize b.size - headerSize := by
  have hle := le_grantedSize b.size
  omega

theorem closureEnv_understood {captures : List Slot} (h : Holds m hdr (.closureEnv captures)) :
    Understood m hdr (.closureEnv captures) ↔ Traced (.closureEnv captures) := by
  have hroom : 8 * captures.length ≤ _ := h.room
  have hpos : 0 < 8 * captures.length := h.size_pos
  cases captures with
  | nil => exact absurd hpos (lt_irrefl 0)
  | cons c captures =>
    rw [understood_parts h, visited_some h rfl (s := c) List.mem_cons_self]
    have hslots := forall_slotsFrom (c :: captures) (fun s => s.isHeap = true → c.word = s.word)
    constructor
    · rintro ⟨_, _, hall⟩ s hs hheap
      exact congrArg some (hslots.mp hall s hs hheap)
    · intro ht
      have hall := hslots.mpr fun s hs hheap => Option.some.inj (ht s hs hheap)
      refine ⟨slots_inside hroom, fun offset hoffset => ?_, hall⟩
      cases hoffset
      omega

theorem goArgs_understood {args : List Slot} (h : Holds m hdr (.goArgs args)) :
    Understood m hdr (.goArgs args) ↔ Traced (.goArgs args) := by
  have hroom : 8 * args.length ≤ _ := h.room
  have hpos : 0 < 8 * args.length := h.size_pos
  rw [understood_parts h]
  match args, h with
  | [], h => exact absurd h.size_pos (lt_irrefl 0)
  | [a], h =>
    constructor
    · rintro ⟨_, hcollector, _⟩
      exact absurd (hcollector 8 rfl) (show ¬ 8 + 8 ≤ grantedSize 8 - headerSize by decide)
    · rintro ⟨htwo, _⟩
      exact absurd htwo (show ¬ 2 ≤ 1 by decide)
  | a :: a' :: args, h =>
    have hsecond : (8, a') ∈ (Emitted.goArgs (a :: a' :: args)).slots := List.mem_cons_of_mem _ List.mem_cons_self
    have hslots := forall_slotsFrom (a :: a' :: args) (fun s => s.isHeap = true → a'.word = s.word)
    rw [visited_some h rfl hsecond]
    constructor
    · rintro ⟨_, _, hall⟩
      exact ⟨Nat.le_add_left _ _, fun s hs hheap => congrArg some (hslots.mp hall s hs hheap)⟩
    · rintro ⟨_, ht⟩
      have hall := hslots.mpr fun s hs hheap => Option.some.inj (ht s hs hheap)
      refine ⟨slots_inside hroom, fun offset hoffset => ?_, hall⟩
      cases hoffset
      rw [List.length_cons, List.length_cons] at hroom
      omega

/-- `next` of a task is not inside its block. -/
theorem task_understood {fnPtr env : Slot} (h : Holds m hdr (.task fnPtr env)) :
    Understood m hdr (.task fnPtr env) ↔ Traced (.task fnPtr env) := by
  rw [understood_parts h]
  refine ⟨fun hu => ?_, False.elim⟩
  have hnext := hu.1 (40, 8) (by simp [Emitted.accesses, Emitted.taskFields])
  exact absurd hnext (show ¬ 40 + 8 ≤ grantedSize 32 - headerSize by decide)

theorem box_understood {value : Slot} (h : Holds m hdr (.box value)) :
    Understood m hdr (.box value) ↔ Traced (.box value) := by
  rw [understood_parts h, visited_none h rfl]
  have hslots := forall_slotsFrom [value] (fun s => s.isHeap = false)
  have hroom : 8 * [value].length ≤ _ := h.room
  constructor
  · rintro ⟨_, _, hall⟩
    exact hslots.mp hall value List.mem_cons_self
  · intro ht
    exact ⟨slots_inside hroom, fun _ hoffset => absurd hoffset (Option.not_mem_none _),
      hslots.mpr fun s hs => List.mem_singleton.mp hs ▸ ht⟩

theorem elementBuf_understood {elements : List Slot} (h : Holds m hdr (.elementBuf elements)) :
    Understood m hdr (.elementBuf elements) ↔ Traced (.elementBuf elements) := by
  rw [understood_parts h, visited_none h rfl]
  have hslots := forall_slotsFrom elements (fun s => s.isHeap = false)
  have hroom : 8 * elements.length ≤ _ := h.room
  constructor
  · exact fun hu => hslots.mp hu.2.2
  · exact fun ht => ⟨slots_inside hroom, fun _ hoffset => absurd hoffset (Option.not_mem_none _), hslots.mpr ht⟩

theorem dictEntries_understood {entries : List (Option (Slot × Slot))} (h : Holds m hdr (.dictEntries entries)) :
    Understood m hdr (.dictEntries entries) ↔ Traced (.dictEntries entries) := by
  rw [understood_parts h, visited_none h rfl]
  have hslots := forall_entriesFrom entries (fun s => s.isHeap = false)
  have hroom : 24 * entries.length ≤ _ := h.room
  constructor
  · exact fun hu => hslots.mp hu.2.2
  · refine fun ht => ⟨fun a ha => ?_, fun _ hoffset => absurd hoffset (Option.not_mem_none _), hslots.mpr ht⟩
    obtain ⟨i, hi, ha⟩ := List.mem_flatMap.mp ha
    have hlt := List.mem_range.mp hi
    simp only [List.mem_cons, List.not_mem_nil, or_false] at ha
    rcases ha with rfl | rfl | rfl
    · show 24 * i + 8 ≤ _
      omega
    · show 24 * i + 8 + 8 ≤ _
      omega
    · show 24 * i + 16 + 1 ≤ _
      omega

/-- A slot with a pointer to an object of the heap. -/
def pointerSlot (word : ℕ) (hlt : word < 2 ^ 64) (hne : word ≠ 0) : Slot := ⟨word, true, hlt, fun _ => hne⟩

/-- The environment of a closure that has captured one string, or two. -/
def twoStrings : List Slot := [pointerSlot 512 (by decide) (by decide), pointerSlot 1024 (by decide) (by decide)]

/-- The memory behind the allocation of such an environment at the address 4096. -/
def envMem (captures : List Slot) : Mem :=
  let header := store (store (fun _ => 0) 4096 1 tagClosure) (4096 + 4) 4 (grantedSize (8 * captures.length))
  storeSlots header (userOf 4096) (Emitted.closureEnv captures).slots

end Visuall.Gc
