import Visuall.Gc.Collector
import Visuall.Lib.LinkedQueue

/-!
# Blocks, the heap list and the free lists

Every object of the heap list and every block of a free list is a block that the collector has from
`malloc`, and these blocks do not overlap.  Each operation on the lists changes one link and one
list.

* `Chained g hs fl` — the heap list of `g` is `hs` and its free lists are `fl`;
* `Chained.congr`, `Chained.frame` — what does not matter to the lists;
* `Chained.unlink`, `Chained.push`, `Chained.drop`, `Chained.pop`, `Chained.malloc`,
  `Chained.link` — the operations.
-/

namespace Visuall.Gc

/-! ### Links -/

/-- A link word, with 0 for NULL. -/
def linkOf (w : ℕ) : Option ℕ := if w = 0 then none else some w

@[simp] theorem linkOf_zero : linkOf 0 = none := rfl

theorem linkOf_eq_none {w : ℕ} : linkOf w = none ↔ w = 0 := by
  rw [linkOf]
  split <;> simp_all

theorem linkOf_eq_some {w a : ℕ} : linkOf w = some a ↔ w = a ∧ a ≠ 0 := by
  rw [linkOf]
  split
  · simp_all
  · next h => exact ⟨fun hw => ⟨Option.some.inj hw, Option.some.inj hw ▸ h⟩, fun hw => by rw [hw.1]⟩

/-- The object behind an object. -/
def nextOf (m : Mem) (h : ℕ) : Option ℕ := linkOf (nextWord m h)

/-- The link behind the objects `done`, which start at the head of the heap list. -/
def linkAfter (done : List ℕ) : Option ℕ := done.getLast?.map nextField

variable {g g' : Collector} {m m' : Mem} {hs done rest : List ℕ} {fl : Fin 4 → List ℕ}
  {h b k w x : ℕ} {c : Fin 4}

theorem heapList_eq {fuel : ℕ} (hl : Linked (nextOf m) (linkOf h) hs) (hf : hs.length < fuel) :
    heapList m fuel h = .ok hs := by
  induction fuel generalizing h hs with
  | zero => exact absurd hf (Nat.not_lt_zero _)
  | succ fuel ih =>
      rw [heapList]
      cases hs with
      | nil => rw [if_pos (linkOf_eq_none.mp hl)]
      | cons a hs =>
          obtain ⟨ha, hl'⟩ := hl
          obtain ⟨rfl, hne⟩ := linkOf_eq_some.mp ha
          rw [if_neg hne, ih hl' (by simpa using hf)]
          rfl

/-- The link behind the first objects leads to the others. -/
theorem linked_readLink (hl : Linked (nextOf g.mem) (linkOf g.heapHead) (done ++ rest)) :
    Linked (nextOf g.mem) (linkOf (readLink g (linkAfter done))) rest := by
  rcases List.eq_nil_or_concat done with rfl | ⟨ds, d, rfl⟩
  · exact hl
  · rw [List.concat_eq_append] at hl ⊢
    rw [linkAfter, List.getLast?_concat]
    rw [List.append_assoc] at hl
    exact hl.behind

/-! ### Headers -/

/-- The header at `b` is the same in both memories, but for its mark. -/
def SameHeader (m m' : Mem) (b : ℕ) : Prop := ∀ i < headerSize, i ≠ 1 → m' (b + i) = m (b + i)

namespace SameHeader

theorem load_eq {i n : ℕ} (hs : SameHeader m m' b) (hi : 1 < i) (hn : i + n ≤ headerSize) :
    load m' (b + i) n = load m (b + i) n :=
  load_congr fun x hx hx' => by
    have := hs (x - b) (by omega) (by omega)
    rwa [Nat.add_sub_cancel' (by omega)] at this

theorem tag (hs : SameHeader m m' b) : tagOf m' b = tagOf m b := by
  rw [tagOf, tagOf, load_one, load_one, ← Nat.add_zero b, hs 0 (by decide) (by decide)]

theorem size (hs : SameHeader m m' b) : sizeOf m' b = sizeOf m b :=
  hs.load_eq (by decide) (by decide)

theorem next (hs : SameHeader m m' b) : nextOf m' b = nextOf m b := by
  rw [nextOf, nextOf, nextWord, nextWord, hs.load_eq (by decide) (by decide)]

end SameHeader

/-- What the lists and the finalizers read of the header at `b` is the same in both memories. -/
structure SameFields (m m' : Mem) (b : ℕ) : Prop where
  tag : tagOf m' b = tagOf m b
  size : sizeOf m' b = sizeOf m b
  next : nextOf m' b = nextOf m b

theorem SameHeader.fields (hs : SameHeader m m' b) : SameFields m m' b := ⟨hs.tag, hs.size, hs.next⟩

theorem sameHeader_of_disjoint {a n v : ℕ} (h : a + n ≤ b ∨ b + headerSize ≤ a) : SameHeader m (store m a n v) b := by
  intro i hi _
  exact store_of_notMem (by omega)

/-! ### The lists -/

/-- The heap list of `g` is `hs`, its free lists are `fl`, and they are made of blocks from
`malloc` that do not overlap. -/
structure Chained (g : Collector) (hs : List ℕ) (fl : Fin 4 → List ℕ) : Prop where
  heap : Linked (nextOf g.mem) (linkOf g.heapHead) hs
  free : ∀ c, Linked (nextOf g.mem) (linkOf (g.flHeads c)) (fl c)
  counts : ∀ c, g.flCounts c = (fl c).length
  heap_block : ∀ h ∈ hs, ∃ k, g.blocks h = some k ∧ sizeOf g.mem h ≤ k
  heap_size : ∀ h ∈ hs, headerSize ≤ sizeOf g.mem h
  array_size : ∀ h ∈ hs, ownsArray (tagOf g.mem h) = true → headerSize + 8 ≤ sizeOf g.mem h
  free_block : ∀ c, ∀ h ∈ fl c, ∃ k, g.blocks h = some k ∧ headerSize ≤ k
  apart : ∀ a k b l, g.blocks a = some k → g.blocks b = some l → a ≠ b → a + k ≤ b ∨ b + l ≤ a
  addr : ∀ b k, g.blocks b = some k → 0 < b ∧ b + k ≤ 2 ^ 64
  not_free : ∀ c, ∀ h ∈ fl c, h ∉ hs
  one_class : ∀ c d, ∀ h ∈ fl c, h ∈ fl d → c = d

/-- `h` is a block that is in no list. -/
structure Spare (g : Collector) (hs : List ℕ) (fl : Fin 4 → List ℕ) (h k : ℕ) : Prop where
  block : g.blocks h = some k
  large : headerSize ≤ k
  not_heap : h ∉ hs
  not_free : ∀ c, h ∉ fl c

/-- The blocks of the lists. -/
def Owned (hs : List ℕ) (fl : Fin 4 → List ℕ) (b : ℕ) : Prop := b ∈ hs ∨ ∃ c, b ∈ fl c

namespace Chained

theorem owned_block (hc : Chained g hs fl) (hb : Owned hs fl b) :
    ∃ k, g.blocks b = some k ∧ headerSize ≤ k := by
  rcases hb with hb | ⟨c, hb⟩
  · obtain ⟨k, hk, hle⟩ := hc.heap_block b hb
    exact ⟨k, hk, (hc.heap_size b hb).trans hle⟩
  · exact hc.free_block c b hb

/-- Of the memory, only these fields of the headers matter to the lists. -/
theorem congr (hc : Chained g hs fl) (hhead : g'.heapHead = g.heapHead)
    (hheads : g'.flHeads = g.flHeads) (hcounts : g'.flCounts = g.flCounts)
    (hblocks : g'.blocks = g.blocks) (hm : ∀ b, Owned hs fl b → SameFields g.mem g'.mem b) :
    Chained g' hs fl where
  heap := by
    rw [hhead]
    exact hc.heap.congr fun a ha => (hm a (.inl ha)).next
  free c := by
    rw [hheads]
    exact (hc.free c).congr fun a ha => (hm a (.inr ⟨c, ha⟩)).next
  counts c := by rw [hcounts, hc.counts]
  heap_block h hh := by
    rw [hblocks, (hm h (.inl hh)).size]
    exact hc.heap_block h hh
  heap_size h hh := by
    rw [(hm h (.inl hh)).size]
    exact hc.heap_size h hh
  array_size h hh := by
    rw [(hm h (.inl hh)).size, (hm h (.inl hh)).tag]
    exact hc.array_size h hh
  free_block := by
    rw [hblocks]
    exact hc.free_block
  apart := by
    rw [hblocks]
    exact hc.apart
  addr := by
    rw [hblocks]
    exact hc.addr
  not_free := hc.not_free
  one_class := hc.one_class

/-- A spare block and a block of the lists do not overlap. -/
theorem spare_apart (hc : Chained g hs fl) (hs' : Spare g hs fl h k) (hb : Owned hs fl b) :
    h + k ≤ b ∨ b + headerSize ≤ h := by
  obtain ⟨l, hl, hle⟩ := hc.owned_block hb
  have hne : h ≠ b := by
    rintro rfl
    rcases hb with hb | ⟨c, hb⟩
    · exact hs'.not_heap hb
    · exact hs'.not_free c hb
  rcases hc.apart h k b l hs'.block hl hne with h | h
  · exact .inl h
  · exact .inr (by omega)

/-- Writing in a spare block leaves the headers of the lists alone. -/
theorem frame_fields (hc : Chained g hs fl) (hs' : Spare g hs fl h k)
    (hm : ∀ x, ¬ (h ≤ x ∧ x < h + k) → m' x = g.mem x) (hb : Owned hs fl b) : SameFields g.mem m' b := by
  have hsame : SameHeader g.mem m' b := by
    intro i hi _
    refine hm _ ?_
    rcases hc.spare_apart hs' hb with h | h <;> omega
  exact hsame.fields

theorem frame (hc : Chained g hs fl) (hs' : Spare g hs fl h k)
    (hm : ∀ x, ¬ (h ≤ x ∧ x < h + k) → m' x = g.mem x) : Chained { g with mem := m' } hs fl :=
  hc.congr rfl rfl rfl rfl fun _ hb => hc.frame_fields hs' hm hb

/-- Two blocks of the lists do not overlap. -/
theorem owned_apart (hc : Chained g hs fl) {a : ℕ} (ha : Owned hs fl a) (hb : Owned hs fl b) (hne : a ≠ b) :
    a + headerSize ≤ b ∨ b + headerSize ≤ a := by
  obtain ⟨k, hk, hle⟩ := hc.owned_block ha
  obtain ⟨l, hl, hle'⟩ := hc.owned_block hb
  rcases hc.apart a k b l hk hl hne with h | h
  · exact .inl (by omega)
  · exact .inr (by omega)

theorem owned_addr (hc : Chained g hs fl) (hb : Owned hs fl b) : 0 < b ∧ b + headerSize ≤ 2 ^ 64 := by
  obtain ⟨k, hk, hle⟩ := hc.owned_block hb
  have := hc.addr b k hk
  omega

/-- The heap list has less than `2 ^ 64` objects. -/
theorem length_lt (hc : Chained g hs fl) : hs.length < 2 ^ 64 := by
  have hsub : hs.toFinset ⊆ (Finset.range (2 ^ 64)).erase 0 := by
    intro a ha
    obtain ⟨k, hk, -⟩ := hc.owned_block (.inl (List.mem_toFinset.mp ha))
    have := hc.addr a k hk
    obtain ⟨k', hk', hle⟩ := hc.owned_block (.inl (List.mem_toFinset.mp ha))
    rw [hk] at hk'
    cases hk'
    have h24 : headerSize = 24 := rfl
    exact Finset.mem_erase.mpr ⟨by omega, Finset.mem_range.mpr (by omega)⟩
  have hcard := Finset.card_le_card hsub
  rw [List.toFinset_card_of_nodup hc.heap.nodup,
    Finset.card_erase_of_mem (Finset.mem_range.mpr (by norm_num)), Finset.card_range] at hcard
  omega

theorem heapList_eq (hc : Chained g hs fl) : heapList g.mem (2 ^ 64) g.heapHead = .ok hs :=
  Gc.heapList_eq hc.heap hc.length_lt

/-! ### The operations -/

/-- Writing the link of one of the blocks. -/
theorem store_link (hc : Chained g hs fl) {d : ℕ} (hd : Owned hs fl d) (hb : Owned hs fl b) (v : ℕ) :
    tagOf (store g.mem (nextField d) 8 v) b = tagOf g.mem b ∧ sizeOf (store g.mem (nextField d) 8 v) b = sizeOf g.mem b ∧
      (b ≠ d → nextOf (store g.mem (nextField d) 8 v) b = nextOf g.mem b) := by
  have h24 : headerSize = 24 := rfl
  have hfield : nextField d = d + 16 := rfl
  by_cases hbd : b = d
  · subst hbd
    exact ⟨load_store_of_disjoint (by omega), load_store_of_disjoint (by omega), fun h => absurd rfl h⟩
  · have hsame : SameHeader g.mem (store g.mem (nextField d) 8 v) b := by
      refine sameHeader_of_disjoint ?_
      rcases hc.owned_apart hd hb fun h => hbd h.symm with h | h <;> omega
    exact ⟨hsame.tag, hsame.size, fun _ => hsame.next⟩

theorem nextWord_lt (m : Mem) (h : ℕ) : nextWord m h < 2 ^ 64 := (load_lt m (h + 16) 8).trans_eq (by norm_num)

theorem nextOf_store (m : Mem) (d : ℕ) {v : ℕ} (hv : v < 2 ^ 64) : nextOf (store m (nextField d) 8 v) d = linkOf v := by
  have hload : nextWord (store m (nextField d) 8 v) d = v := load_store_of_lt (hv.trans_eq (by norm_num))
  rw [nextOf, hload]

/-- The blocks of fewer lists. -/
theorem restrict (hc : Chained g hs fl) {hs' : List ℕ} (hheap : Linked (nextOf g'.mem) (linkOf g'.heapHead) hs')
    (hsub : ∀ b ∈ hs', b ∈ hs) (hheads : g'.flHeads = g.flHeads) (hcounts : g'.flCounts = g.flCounts)
    (hblocks : g'.blocks = g.blocks) (hm : ∀ b, Owned hs fl b → tagOf g'.mem b = tagOf g.mem b ∧ sizeOf g'.mem b = sizeOf g.mem b)
    (hfree : ∀ c, ∀ b ∈ fl c, nextOf g'.mem b = nextOf g.mem b) : Chained g' hs' fl where
  heap := hheap
  free c := by
    rw [hheads]
    exact (hc.free c).congr (hfree c)
  counts c := by rw [hcounts, hc.counts]
  heap_block b hb := by
    rw [hblocks, (hm b (.inl (hsub b hb))).2]
    exact hc.heap_block b (hsub b hb)
  heap_size b hb := by
    rw [(hm b (.inl (hsub b hb))).2]
    exact hc.heap_size b (hsub b hb)
  array_size b hb := by
    rw [(hm b (.inl (hsub b hb))).1, (hm b (.inl (hsub b hb))).2]
    exact hc.array_size b (hsub b hb)
  free_block := by
    rw [hblocks]
    exact hc.free_block
  apart := by
    rw [hblocks]
    exact hc.apart
  addr := by
    rw [hblocks]
    exact hc.addr
  not_free c b hb hmem := hc.not_free c b hb (hsub b hmem)
  one_class := hc.one_class

/-- Taking an object out of the heap list. -/
theorem unlink (hc : Chained g (done ++ h :: rest) fl) :
    Chained (writeLink g (nextWord g.mem h) (linkAfter done)) (done ++ rest) fl ∧
      (∃ k, Spare (writeLink g (nextWord g.mem h) (linkAfter done)) (done ++ rest) fl h k ∧ sizeOf g.mem h ≤ k) ∧
      ∀ b, Owned (done ++ h :: rest) fl b →
        tagOf (writeLink g (nextWord g.mem h) (linkAfter done)).mem b = tagOf g.mem b ∧
          sizeOf (writeLink g (nextWord g.mem h) (linkAfter done)).mem b = sizeOf g.mem b := by
  have hmem : h ∈ done ++ h :: rest := List.mem_append_right _ List.mem_cons_self
  have hsub : ∀ b ∈ done ++ rest, b ∈ done ++ h :: rest := fun b hb =>
    (List.mem_append.mp hb).elim (List.mem_append_left _) fun hb => List.mem_append_right _ (List.mem_cons_of_mem _ hb)
  have hnot : h ∉ done ++ rest := (List.nodup_cons.mp (List.perm_middle.nodup_iff.mp hc.heap.nodup)).1
  obtain ⟨k, hk, hle⟩ := hc.heap_block h hmem
  have hlarge : headerSize ≤ k := (hc.heap_size h hmem).trans hle
  have hspare : ∀ g' : Collector, g'.blocks = g.blocks → Spare g' (done ++ rest) fl h k := fun g' hblocks =>
    ⟨by rw [hblocks, hk], hlarge, hnot, fun c hfree => hc.not_free c h hfree hmem⟩
  rcases List.eq_nil_or_concat' done with rfl | ⟨ds, d, rfl⟩
  · have hsame : ∀ b, Owned ([] ++ h :: rest) fl b → tagOf g.mem b = tagOf g.mem b ∧ sizeOf g.mem b = sizeOf g.mem b :=
      fun _ _ => ⟨rfl, rfl⟩
    have hheap : Linked (nextOf g.mem) (linkOf (nextWord g.mem h)) rest := hc.heap.2
    have hrest : Chained { g with heapHead := nextWord g.mem h } ([] ++ rest) fl :=
      hc.restrict hheap hsub rfl rfl rfl hsame fun _ _ _ => rfl
    exact ⟨hrest, ⟨k, hspare { g with heapHead := nextWord g.mem h } rfl, hle⟩, hsame⟩
  · have hlink : linkAfter (ds ++ [d]) = some (nextField d) := by
      rw [linkAfter, List.getLast?_concat]
      rfl
    rw [hlink]
    have hd : d ∈ ds ++ [d] ++ h :: rest := List.mem_append_left _ (List.mem_append_right _ List.mem_cons_self)
    have hfields : ∀ b, Owned (ds ++ [d] ++ h :: rest) fl b → _ := fun b hb =>
      hc.store_link (.inl hd) hb (nextWord g.mem h)
    have hdnext := nextOf_store g.mem d (nextWord_lt g.mem h)
    refine ⟨hc.restrict ?_ hsub rfl rfl rfl (fun b hb => ⟨(hfields b hb).1, (hfields b hb).2.1⟩) fun c b hb => ?_,
      ⟨k, hspare _ rfl, hle⟩, fun b hb => ⟨(hfields b hb).1, (hfields b hb).2.1⟩⟩
    · have hheap := hc.heap
      rw [List.append_assoc] at hheap ⊢
      refine hheap.bypass.congr fun b hb => ?_
      by_cases hbd : b = d
      · rw [hbd, Function.update_self]
        exact hdnext
      · rw [Function.update_of_ne hbd]
        exact (hfields b (.inl (hsub b (by rwa [List.append_assoc])))).2.2 hbd
    · refine (hfields b (.inr ⟨c, hb⟩)).2.2 ?_
      rintro rfl
      exact hc.not_free c b hb hd

/-- Putting a spare block on a free list. -/
theorem push (hc : Chained g hs fl) (hs' : Spare g hs fl h k) (c : Fin 4) :
    Chained { g with
      mem := store g.mem (nextField h) 8 (g.flHeads c)
      flHeads := Function.update g.flHeads c h
      flCounts := Function.update g.flCounts c (g.flCounts c + 1) } hs (Function.update fl c (h :: fl c)) := by
  have h24 : headerSize = 24 := rfl
  have hlarge := hs'.large
  have hfield : nextField h = h + 16 := rfl
  have hframe := hc.frame hs' fun x hx =>
    show store g.mem (nextField h) 8 (g.flHeads c) x = g.mem x from store_of_notMem (by omega)
  have hhead : g.flHeads c < 2 ^ 64 := by
    have hlist := hc.free c
    cases hfl : fl c with
    | nil =>
        rw [hfl] at hlist
        rw [linkOf_eq_none.mp hlist]
        exact Nat.two_pow_pos 64
    | cons b bs =>
        rw [hfl] at hlist
        have haddr := hc.owned_addr (.inr ⟨c, hfl ▸ List.mem_cons_self⟩)
        rw [(linkOf_eq_some.mp hlist.1).1]
        omega
  have hne : h ≠ 0 := (hc.addr h k hs'.block).1.ne'
  have hmem : ∀ d b, b ∈ Function.update fl c (h :: fl c) d → b ∈ fl d ∨ (b = h ∧ d = c) := by
    intro d b hb
    by_cases hdc : d = c
    · subst hdc
      rw [Function.update_self] at hb
      exact (List.mem_cons.mp hb).elim (fun hb => .inr ⟨hb, rfl⟩) .inl
    · rw [Function.update_of_ne hdc] at hb
      exact .inl hb
  exact {
    heap := hframe.heap
    free := by
      intro d
      by_cases hdc : d = c
      · subst hdc
        show Linked _ (linkOf (Function.update g.flHeads d h d)) _
        rw [Function.update_self, Function.update_self]
        refine ⟨linkOf_eq_some.mpr ⟨rfl, hne⟩, ?_⟩
        show Linked _ (nextOf (store g.mem (nextField h) 8 (g.flHeads d)) h) _
        rw [nextOf_store g.mem h hhead]
        exact hframe.free d
      · show Linked _ (linkOf (Function.update g.flHeads c h d)) _
        rw [Function.update_of_ne hdc, Function.update_of_ne hdc]
        exact hframe.free d
    counts := by
      intro d
      by_cases hdc : d = c
      · subst hdc
        show Function.update g.flCounts d (g.flCounts d + 1) d = _
        rw [Function.update_self, Function.update_self, List.length_cons, hc.counts]
      · show Function.update g.flCounts c (g.flCounts c + 1) d = _
        rw [Function.update_of_ne hdc, Function.update_of_ne hdc]
        exact hc.counts d
    heap_block := hframe.heap_block
    heap_size := hframe.heap_size
    array_size := hframe.array_size
    free_block := by
      intro d b hb
      rcases hmem d b hb with hb | ⟨rfl, -⟩
      · exact hc.free_block d b hb
      · exact ⟨k, hs'.block, hlarge⟩
    apart := hc.apart
    addr := hc.addr
    not_free := by
      intro d b hb
      rcases hmem d b hb with hb | ⟨rfl, -⟩
      · exact hc.not_free d b hb
      · exact hs'.not_heap
    one_class := by
      intro d e b hb hb'
      rcases hmem d b hb with hbd | ⟨hbh, hdc⟩
      · rcases hmem e b hb' with hbe | ⟨hbh, -⟩
        · exact hc.one_class d e b hbd hbe
        · exact absurd (hbh ▸ hbd) (hs'.not_free d)
      · rcases hmem e b hb' with hbe | ⟨-, hec⟩
        · exact absurd (hbh ▸ hbe) (hs'.not_free e)
        · rw [hdc, hec] }

/-- Freeing a spare block. -/
theorem drop (hc : Chained g hs fl) (hs' : Spare g hs fl h k) : Chained (recordFree g h) hs fl := by
  have hkeep : ∀ b, Owned hs fl b → (recordFree g h).blocks b = g.blocks b := by
    intro b hb
    refine Function.update_of_ne ?_ _ _
    rintro rfl
    rcases hb with hb | ⟨c, hb⟩
    · exact hs'.not_heap hb
    · exact hs'.not_free c hb
  have hfrom : ∀ b l, (recordFree g h).blocks b = some l → g.blocks b = some l := by
    intro b l hb
    by_cases hbh : b = h
    · rw [hbh] at hb
      have hnone : Function.update g.blocks h none h = some l := hb
      rw [Function.update_self] at hnone
      cases hnone
    · have hother : Function.update g.blocks h none b = some l := hb
      rwa [Function.update_of_ne hbh] at hother
  exact {
    heap := hc.heap
    free := hc.free
    counts := hc.counts
    heap_block := fun b hb => (hkeep b (.inl hb)).symm ▸ hc.heap_block b hb
    heap_size := hc.heap_size
    array_size := hc.array_size
    free_block := fun c b hb => (hkeep b (.inr ⟨c, hb⟩)).symm ▸ hc.free_block c b hb
    apart := fun a k b l ha hb => hc.apart a k b l (hfrom a k ha) (hfrom b l hb)
    addr := fun b l hb => hc.addr b l (hfrom b l hb)
    not_free := hc.not_free
    one_class := hc.one_class }

/-- Taking the first block of a free list. -/
theorem pop (hc : Chained g hs fl) (hfl : fl c = h :: rest) :
    Chained { g with
      flHeads := Function.update g.flHeads c (nextWord g.mem h)
      flCounts := Function.update g.flCounts c (g.flCounts c - 1) } hs (Function.update fl c rest) ∧
      ∃ k, Spare { g with
        flHeads := Function.update g.flHeads c (nextWord g.mem h)
        flCounts := Function.update g.flCounts c (g.flCounts c - 1) } hs (Function.update fl c rest) h k := by
  have hlist := hc.free c
  rw [hfl] at hlist
  have hmem : ∀ d b, b ∈ Function.update fl c rest d → b ∈ fl d := by
    intro d b hb
    by_cases hdc : d = c
    · subst hdc
      rw [Function.update_self] at hb
      rw [hfl]
      exact List.mem_cons_of_mem _ hb
    · rwa [Function.update_of_ne hdc] at hb
  have hhead : h ∈ fl c := hfl ▸ List.mem_cons_self
  obtain ⟨k, hk, hle⟩ := hc.free_block c h hhead
  refine ⟨?_, k, hk, hle, hc.not_free c h hhead, fun d hd => ?_⟩
  · exact {
      heap := hc.heap
      free := by
        intro d
        show Linked _ (linkOf (Function.update g.flHeads c (nextWord g.mem h) d)) _
        by_cases hdc : d = c
        · subst hdc
          rw [Function.update_self, Function.update_self]
          exact hlist.2
        · rw [Function.update_of_ne hdc, Function.update_of_ne hdc]
          exact hc.free d
      counts := by
        intro d
        show Function.update g.flCounts c (g.flCounts c - 1) d = _
        by_cases hdc : d = c
        · subst hdc
          rw [Function.update_self, Function.update_self, hc.counts, hfl]
          rfl
        · rw [Function.update_of_ne hdc, Function.update_of_ne hdc]
          exact hc.counts d
      heap_block := hc.heap_block
      heap_size := hc.heap_size
      array_size := hc.array_size
      free_block := fun d b hb => hc.free_block d b (hmem d b hb)
      apart := hc.apart
      addr := hc.addr
      not_free := fun d b hb => hc.not_free d b (hmem d b hb)
      one_class := fun d e b hb hb' => hc.one_class d e b (hmem d b hb) (hmem e b hb') }
  · have hdc : d = c := hc.one_class d c h (hmem d h hd) hhead
    subst hdc
    rw [Function.update_self] at hd
    exact (List.nodup_cons.mp hlist.nodup).1 hd

/-- A block from `malloc`. -/
theorem malloc (hc : Chained g hs fl) {n : ℕ} (hn : headerSize ≤ n) (ha : 0 < h) (hend : h + n ≤ 2 ^ 64)
    (hnew : g.blocks h = none) (hfresh : ∀ b l, g.blocks b = some l → h + n ≤ b ∨ b + l ≤ h) :
    Chained (recordMalloc g h n) hs fl ∧ Spare (recordMalloc g h n) hs fl h n := by
  have hother : ∀ b l, g.blocks b = some l → (recordMalloc g h n).blocks b = some l := by
    intro b l hb
    refine (Function.update_of_ne ?_ _ _).trans hb
    rintro rfl
    rw [hnew] at hb
    cases hb
  have hcases : ∀ b l, (recordMalloc g h n).blocks b = some l → (b = h ∧ l = n) ∨ (b ≠ h ∧ g.blocks b = some l) := by
    intro b l hb
    have hb : Function.update g.blocks h (some n) b = some l := hb
    by_cases hbh : b = h
    · rw [hbh, Function.update_self] at hb
      cases hb
      exact .inl ⟨hbh, rfl⟩
    · rw [Function.update_of_ne hbh] at hb
      exact .inr ⟨hbh, hb⟩
  have hnot : ¬ Owned hs fl h := by
    intro howned
    obtain ⟨k, hk, -⟩ := hc.owned_block howned
    rw [hnew] at hk
    cases hk
  refine ⟨?_, Function.update_self _ _ _, hn, fun hmem => hnot (.inl hmem), fun c hmem => hnot (.inr ⟨c, hmem⟩)⟩
  exact {
    heap := hc.heap
    free := hc.free
    counts := hc.counts
    heap_block := fun b hb => (hc.heap_block b hb).imp fun k hk => ⟨hother b k hk.1, hk.2⟩
    heap_size := hc.heap_size
    array_size := hc.array_size
    free_block := fun c b hb => (hc.free_block c b hb).imp fun k hk => ⟨hother b k hk.1, hk.2⟩
    apart := by
      intro a k b l hak hbl hne
      rcases hcases a k hak with ⟨rfl, rfl⟩ | ⟨-, hak'⟩
      · rcases hcases b l hbl with ⟨rfl, -⟩ | ⟨-, hbl'⟩
        · exact absurd rfl hne
        · exact hfresh b l hbl'
      · rcases hcases b l hbl with ⟨rfl, rfl⟩ | ⟨-, hbl'⟩
        · exact (hfresh a k hak').symm
        · exact hc.apart a k b l hak' hbl' hne
    addr := by
      intro b l hb
      rcases hcases b l hb with ⟨rfl, rfl⟩ | ⟨-, hb⟩
      · exact ⟨ha, hend⟩
      · exact hc.addr b l hb
    not_free := hc.not_free
    one_class := hc.one_class }

/-- Putting a spare block whose header is filled in at the head of the heap list. -/
theorem link (hc : Chained g hs fl) (hs' : Spare g hs fl h k) (hsize : sizeOf g.mem h ≤ k) (hmin : headerSize ≤ sizeOf g.mem h)
    (harray : ownsArray (tagOf g.mem h) = true → headerSize + 8 ≤ sizeOf g.mem h) (hnext : nextWord g.mem h = g.heapHead) :
    Chained { g with heapHead := h } (h :: hs) fl where
  heap := by
    refine ⟨linkOf_eq_some.mpr ⟨rfl, (hc.addr h k hs'.block).1.ne'⟩, ?_⟩
    rw [nextOf, hnext]
    exact hc.heap
  free := hc.free
  counts := hc.counts
  heap_block := List.forall_mem_cons.mpr ⟨⟨k, hs'.block, hsize⟩, hc.heap_block⟩
  heap_size := List.forall_mem_cons.mpr ⟨hmin, hc.heap_size⟩
  array_size := List.forall_mem_cons.mpr ⟨harray, hc.array_size⟩
  free_block := hc.free_block
  apart := hc.apart
  addr := hc.addr
  not_free c b hb hmem := by
    rcases List.mem_cons.mp hmem with rfl | hmem
    · exact hs'.not_free c hb
    · exact hc.not_free c b hb hmem
  one_class := hc.one_class

end Chained

end Visuall.Gc
