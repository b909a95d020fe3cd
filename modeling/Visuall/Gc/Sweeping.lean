import Visuall.Gc.Marking

/-!
# What a collection counts

The bytes of the heap list, the lengths of the free lists and the bounds of the heap, through the sweep and the rest of a
collection.

* `Counted`, `Kept` — the counters and the bounds are right;
* `sweepDead_counted`, `sweepLoop_counted` — one dead object, and all of them;
* `Subtracts` — the sweep never subtracts more than there is;
* `collect_kept` — a whole collection.
-/

namespace Visuall.Gc

open Effect

/-- The bytes of objects. -/
def sizes (m : Mem) (hs : List ℕ) : ℕ := (hs.map (sizeOf m)).sum

/-- The lists, with the counters of the collector. -/
structure Counted (g : Collector) (hs : List ℕ) (fl : Fin 4 → List ℕ) : Prop where
  chained : Chained g hs fl
  bytes : g.heapBytes = sizes g.mem hs
  cap : ∀ c, (fl c).length ≤ flMaxPerClass
  low : ∀ b k, g.blocks b = some k → b + k ≤ 2 ^ 63

/-- The sweep never subtracts more bytes than it has counted. -/
def Subtracts : ℕ → Option ℕ → Collector → Prop
  | 0, _, _ => True
  | fuel + 1, pp, g => readLink g pp ≠ 0 →
      if markedOf g.mem (readLink g pp) ≠ 0 then
        Subtracts fuel (some (nextField (readLink g pp))) { g with mem := store g.mem (readLink g pp + 1) 1 0 }
      else sizeOf g.mem (readLink g pp) ≤ g.heapBytes ∧ Subtracts fuel pp (sweepDead g pp (readLink g pp))

section Counting

variable {g g' : Collector} {hs done rest : List ℕ} {fl : Fin 4 → List ℕ} {h k : ℕ} {m m' : Mem}

theorem sizes_congr (hsame : ∀ b ∈ hs, sizeOf m' b = sizeOf m b) : sizes m' hs = sizes m hs :=
  congrArg List.sum (List.map_congr_left hsame)

theorem sizes_cons (m : Mem) (h : ℕ) (hs : List ℕ) : sizes m (h :: hs) = sizeOf m h + sizes m hs := List.sum_cons

theorem sizes_middle (m : Mem) (done rest : List ℕ) (h : ℕ) : sizes m (done ++ h :: rest) = sizeOf m h + sizes m (done ++ rest) := by
  rw [sizes, (List.perm_middle.map (sizeOf m)).sum_eq]
  exact sizes_cons m h (done ++ rest)

/-- The objects do not overlap, so all of them together are smaller than the address space. -/
theorem sizes_lt (hc : Chained g hs fl) (hlow : ∀ b k, g.blocks b = some k → b + k ≤ 2 ^ 63) : sizes g.mem hs < 2 ^ 63 := by
  have hcard : ∀ h ∈ hs.toFinset, (Finset.Ico h (h + sizeOf g.mem h)).card = sizeOf g.mem h := fun h _ => by
    rw [Nat.card_Ico, Nat.add_sub_cancel_left]
  have hdisjoint : Set.PairwiseDisjoint (hs.toFinset : Set ℕ) fun h => Finset.Ico h (h + sizeOf g.mem h) := by
    intro a ha b hb hne
    obtain ⟨k, hk, hka⟩ := hc.heap_block a (List.mem_toFinset.mp ha)
    obtain ⟨l, hl, hlb⟩ := hc.heap_block b (List.mem_toFinset.mp hb)
    refine Finset.disjoint_left.mpr fun x hxa hxb => ?_
    have hxa := Finset.mem_Ico.mp hxa
    have hxb := Finset.mem_Ico.mp hxb
    rcases hc.apart a k b l hk hl hne with hap | hap <;> omega
  have hsub : hs.toFinset.biUnion (fun h => Finset.Ico h (h + sizeOf g.mem h)) ⊆ Finset.Ico 1 (2 ^ 63) := by
    intro x hx
    obtain ⟨h, hh, hx⟩ := Finset.mem_biUnion.mp hx
    obtain ⟨k, hk, hle⟩ := hc.heap_block h (List.mem_toFinset.mp hh)
    have hx := Finset.mem_Ico.mp hx
    have haddr := (hc.addr h k hk).1
    have hend := hlow h k hk
    exact Finset.mem_Ico.mpr ⟨by omega, by omega⟩
  have hsum : sizes g.mem hs = ∑ h ∈ hs.toFinset, sizeOf g.mem h := (List.sum_toFinset _ hc.heap.nodup).symm
  rw [hsum, ← Finset.sum_congr rfl hcard, ← Finset.card_biUnion hdisjoint]
  refine (Finset.card_le_card hsub).trans_lt ?_
  rw [Nat.card_Ico]
  norm_num

/-- What the sweep leaves alone. -/
structure Untouched (g g' : Collector) : Prop where
  ptrMap : g'.ptrMap = g.ptrMap
  blocks : ∀ b k, g'.blocks b = some k → g.blocks b = some k

theorem Untouched.trans {g'' : Collector} (h : Untouched g g') (h' : Untouched g' g'') : Untouched g g'' :=
  ⟨h'.ptrMap.trans h.ptrMap, fun b k hb => h.blocks b k (h'.blocks b k hb)⟩

theorem writeLink_untouched (g : Collector) (h : ℕ) (pp : Option ℕ) :
    Untouched g (writeLink g h pp) ∧ (writeLink g h pp).heapBytes = g.heapBytes := by
  cases pp <;> exact ⟨⟨rfl, fun _ _ hb => hb⟩, rfl⟩

/-- The objects of a list are the same in both memories, but for their links. -/
def SameObjects (m m' : Mem) (hs : List ℕ) : Prop :=
  ∀ h ∈ hs, ∀ x, h ≤ x → x < h + sizeOf m h → ¬ (h + 16 ≤ x ∧ x < h + 24) → m' x = m x

/-- Writing the link behind the first objects. -/
theorem writeLink_same (hc : Chained g (done ++ rest) fl) (w : ℕ) :
    SameObjects g.mem (writeLink g w (linkAfter done)).mem (done ++ rest) := by
  rcases List.eq_nil_or_concat' done with rfl | ⟨ds, d, rfl⟩
  · exact fun _ _ _ _ _ _ => rfl
  · intro b hb x hx hlt hlink
    have hd : d ∈ ds ++ [d] ++ rest := List.mem_append_left _ (List.mem_append_right _ List.mem_cons_self)
    have hlinkAfter : linkAfter (ds ++ [d]) = some (nextField d) := by
      rw [linkAfter, List.getLast?_concat]
      rfl
    rw [hlinkAfter]
    refine store_of_notMem ?_
    rw [nextField]
    by_cases hbd : b = d
    · omega
    · obtain ⟨k, hk, hle⟩ := hc.heap_block b hb
      obtain ⟨l, hl, hle'⟩ := hc.owned_block (.inl hd)
      have h24 : headerSize = 24 := rfl
      rcases hc.apart b k d l hk hl hbd with hap | hap <;> omega

/-- `finalize` writes in the object only. -/
theorem finalize_frame (g : Collector) (harray : ownsArray (tagOf g.mem h) = true → headerSize + 8 ≤ k) :
    ∃ m, finalize g h = { g with mem := m } ∧ ∀ x, ¬ (h ≤ x ∧ x < h + k) → m x = g.mem x := by
  rw [finalize]
  split
  · next hcond =>
    refine ⟨_, rfl, fun x hx => store_of_notMem ?_⟩
    have := harray hcond.1
    rw [userOf]
    omega
  · exact ⟨g.mem, rfl, fun _ _ => rfl⟩

namespace Counted

/-- The same lists in a memory with the same headers. -/
theorem congr (hc : Counted g hs fl) (hsame : ∀ b, Owned hs fl b → SameFields g.mem m' b) : Counted { g with mem := m' } hs fl where
  chained := hc.chained.congr rfl rfl rfl rfl hsame
  bytes := hc.bytes.trans (sizes_congr fun b hb => (hsame b (.inl hb)).size).symm
  cap := hc.cap
  low := hc.low

end Counted

/-- A dead block goes to a free list that is not full, or back to the system. -/
theorem recycle_counted (hc : Counted g hs fl) (hs' : Spare g hs fl h k) :
    ∃ fl', Counted ((flPush g h).getD (recordFree g h)) hs fl' ∧ Untouched g ((flPush g h).getD (recordFree g h)) ∧
      ∀ x, ¬ (h ≤ x ∧ x < h + k) → ((flPush g h).getD (recordFree g h)).mem x = g.mem x := by
  have hlarge := hs'.large
  have h24 : headerSize = 24 := rfl
  cases hpush : flPush g h with
  | none =>
      have hfrom : ∀ b l, (recordFree g h).blocks b = some l → g.blocks b = some l := by
        intro b l hb
        have hb : Function.update g.blocks h none b = some l := hb
        by_cases hbh : b = h
        · rw [hbh, Function.update_self] at hb
          cases hb
        · rwa [Function.update_of_ne hbh] at hb
      exact ⟨fl, ⟨hc.chained.drop hs', hc.bytes, hc.cap, fun b l hb => hc.low b l (hfrom b l hb)⟩, ⟨rfl, hfrom⟩, fun _ _ => rfl⟩
  | some g' =>
      rw [flPush] at hpush
      split at hpush
      · cases hpush
      · next c _ =>
        split at hpush
        · cases hpush
        · next hroom =>
          cases hpush
          have hin : ∀ x, ¬ (h ≤ x ∧ x < h + k) → store g.mem (nextField h) 8 (g.flHeads c) x = g.mem x := by
            intro x hx
            refine store_of_notMem ?_
            rw [nextField]
            omega
          refine ⟨Function.update fl c (h :: fl c), ⟨hc.chained.push hs' c, ?_, ?_, hc.low⟩, ⟨rfl, fun _ _ hb => hb⟩, hin⟩
          · exact hc.bytes.trans (sizes_congr fun b hb => (hc.chained.frame_fields hs' hin (.inl hb)).size).symm
          · intro d
            by_cases hdc : d = c
            · subst hdc
              have hcount := hc.chained.counts d
              rw [Function.update_self, List.length_cons]
              omega
            · rw [Function.update_of_ne hdc]
              exact hc.cap d

/-- A dead object that is no longer linked. -/
theorem retire_counted (hc : Counted g hs fl) (hs' : Spare g hs fl h k)
    (harray : ownsArray (tagOf g.mem h) = true → headerSize + 8 ≤ k) :
    ∃ fl', Counted ((flPush (finalize g h) h).getD (recordFree (finalize g h) h)) hs fl' ∧
      Untouched g ((flPush (finalize g h) h).getD (recordFree (finalize g h) h)) ∧
      ∀ x, ¬ (h ≤ x ∧ x < h + k) → ((flPush (finalize g h) h).getD (recordFree (finalize g h) h)).mem x = g.mem x := by
  obtain ⟨m, hfinal, hm⟩ := finalize_frame g harray
  rw [hfinal]
  have hcounted : Counted { g with mem := m } hs fl := hc.congr fun _ hb => hc.chained.frame_fields hs' hm hb
  obtain ⟨fl', hdone, huntouched, hsame⟩ := recycle_counted hcounted ⟨hs'.block, hs'.large, hs'.not_heap, hs'.not_free⟩
  exact ⟨fl', hdone, ⟨huntouched.ptrMap, huntouched.blocks⟩, fun x hx => (hsame x hx).trans (hm x hx)⟩

/-- **One dead object.** -/
theorem sweepDead_counted (hc : Counted g (done ++ h :: rest) fl) :
    sizeOf g.mem h ≤ g.heapBytes ∧ ∃ fl', Counted (sweepDead g (linkAfter done) h) (done ++ rest) fl' ∧
      Untouched g (sweepDead g (linkAfter done) h) ∧ SameObjects g.mem (sweepDead g (linkAfter done) h).mem (done ++ rest) := by
  have hmem : h ∈ done ++ h :: rest := List.mem_append_right _ List.mem_cons_self
  have hsub : ∀ b ∈ done ++ rest, b ∈ done ++ h :: rest := fun b hb =>
    (List.mem_append.mp hb).elim (List.mem_append_left _) fun hb => List.mem_append_right _ (List.mem_cons_of_mem _ hb)
  have hbytes := hc.bytes
  rw [sizes_middle] at hbytes
  have hlt := sizes_lt hc.chained hc.low
  rw [sizes_middle] at hlt
  refine ⟨by omega, ?_⟩
  obtain ⟨hlists, ⟨k, hspare, hle⟩, hfields⟩ := hc.chained.unlink
  obtain ⟨huntouched, hkept⟩ := writeLink_untouched g (nextWord g.mem h) (linkAfter done)
  have hlink := writeLink_same hc.chained (nextWord g.mem h)
  have hown : ∀ b ∈ done ++ rest, Owned (done ++ h :: rest) fl b := fun b hb => .inl (hsub b hb)
  rw [sweepDead]
  -- unlinked
  generalize writeLink g (nextWord g.mem h) (linkAfter done) = g₁ at hlists hspare hfields huntouched hkept hlink ⊢
  have hsize : sizeOf g₁.mem h = sizeOf g.mem h := (hfields h (.inl hmem)).2
  have hsizes : sizes g₁.mem (done ++ rest) = sizes g.mem (done ++ rest) :=
    sizes_congr fun b hb => (hfields b (hown b hb)).2
  -- subtracted
  have hsubtract : (g₁.heapBytes + 2 ^ 64 - sizeOf g₁.mem h) % 2 ^ 64 = sizes g₁.mem (done ++ rest) := by
    rw [hsize, hkept, hsizes]
    omega
  have hcounted : Counted { g₁ with heapBytes := (g₁.heapBytes + 2 ^ 64 - sizeOf g₁.mem h) % 2 ^ 64 } (done ++ rest) fl :=
    ⟨hlists.congr rfl rfl rfl rfl fun _ _ => ⟨rfl, rfl, rfl⟩, hsubtract, hc.cap, fun b l hb => hc.low b l (huntouched.blocks b l hb)⟩
  have hspare₂ : Spare { g₁ with heapBytes := (g₁.heapBytes + 2 ^ 64 - sizeOf g₁.mem h) % 2 ^ 64 } (done ++ rest) fl h k :=
    ⟨hspare.block, hspare.large, hspare.not_heap, hspare.not_free⟩
  have harray : ownsArray (tagOf g₁.mem h) = true → headerSize + 8 ≤ k := by
    intro htag
    rw [(hfields h (.inl hmem)).1] at htag
    exact (hc.chained.array_size h hmem htag).trans hle
  obtain ⟨fl', hdone, hrest, hframe⟩ := retire_counted hcounted hspare₂ harray
  refine ⟨fl', hdone, huntouched.trans ⟨hrest.ptrMap, hrest.blocks⟩, fun b hb x hx hlt hnext => ?_⟩
  obtain ⟨l, hl, hlb⟩ := hc.chained.heap_block b (hsub b hb)
  have hbh : b ≠ h := fun heq => hspare.not_heap (heq ▸ hb)
  have hblock := hc.chained.apart b l h k hl (huntouched.blocks h k hspare.block) hbh
  exact (hframe x (by omega)).trans (hlink b (hsub b hb) x hx hlt hnext)

/-- The objects of a list have the same size and payload in both memories. -/
def SameContents (m m' : Mem) (hs : List ℕ) : Prop :=
  ∀ h ∈ hs, sizeOf m' h = sizeOf m h ∧ ∀ x, userOf h ≤ x → x < h + sizeOf m h → m' x = m x

theorem SameContents.trans {m₁ m₂ : Mem} (h : SameContents m m₁ hs) (h' : SameContents m₁ m₂ rest)
    (hsub : ∀ b ∈ rest, b ∈ hs) : SameContents m m₂ rest := by
  intro b hb
  obtain ⟨hsize, hsame⟩ := h b (hsub b hb)
  obtain ⟨hsize', hsame'⟩ := h' b hb
  exact ⟨hsize'.trans hsize, fun x hx hlt => (hsame' x hx (hsize ▸ hlt)).trans (hsame x hx hlt)⟩

/-- The memories are the same but for marks. -/
def SameButMarks (m m' : Mem) (hs : List ℕ) : Prop := ∀ x, m' x ≠ m x → ∃ h ∈ hs, x = h + 1

theorem SameButMarks.header (hm : SameButMarks g.mem m hs) (hc : Chained g hs fl) {b : ℕ} (hb : Owned hs fl b) :
    SameHeader g.mem m b := by
  intro i hi hi1
  by_contra hne
  obtain ⟨h, hh, hx⟩ := hm _ hne
  have h24 : headerSize = 24 := rfl
  by_cases hbh : b = h
  · omega
  · rcases hc.owned_apart hb (.inl hh) hbh with hap | hap <;> omega

theorem SameButMarks.contents (hm : SameButMarks g.mem m hs) (hc : Chained g hs fl) : SameContents g.mem m hs := by
  refine fun b hb => ⟨(hm.header hc (.inl hb)).size, fun x hx hlt => ?_⟩
  by_contra hne
  obtain ⟨h, hh, hxh⟩ := hm x hne
  obtain ⟨k, hk, hle⟩ := hc.heap_block b hb
  obtain ⟨l, hl, hle'⟩ := hc.owned_block (.inl hh)
  have h24 : headerSize = 24 := rfl
  rw [userOf] at hx
  by_cases hbh : b = h
  · omega
  · rcases hc.apart b k h l hk hl hbh with hap | hap <;> omega

/-- Objects that are the same but for their links have the same marks and contents. -/
theorem SameObjects.contents (hsame : SameObjects m m' hs) (hmin : ∀ h ∈ hs, headerSize ≤ sizeOf m h) :
    SameContents m m' hs ∧ ∀ h ∈ hs, markedOf m' h = markedOf m h := by
  have h24 : headerSize = 24 := rfl
  constructor
  · intro h hh
    have := hmin h hh
    refine ⟨load_congr fun x hx hx' => hsame h hh x (by omega) (by omega) (by omega), fun x hx hlt => ?_⟩
    rw [userOf] at hx
    exact hsame h hh x (by omega) hlt (by omega)
  · intro h hh
    have := hmin h hh
    exact load_congr fun x hx hx' => hsame h hh x (by omega) (by omega) (by omega)

/-- The marked objects of a list. -/
def markedIn (m : Mem) (hs : List ℕ) : List ℕ := hs.filter fun h => markedOf m h ≠ 0

theorem mem_markedIn {b : ℕ} : b ∈ markedIn m hs ↔ b ∈ hs ∧ markedOf m b ≠ 0 := by simp [markedIn]

theorem markedIn_congr (h : ∀ b ∈ hs, markedOf m' b = markedOf m b) : markedIn m' hs = markedIn m hs :=
  List.filter_congr fun b hb => by rw [h b hb]

/-- **All dead objects.**  What has been swept is unmarked; of the rest, the marked objects stay. -/
theorem sweepLoop_counted (fuel : ℕ) (hc : Counted g (done ++ rest) fl) : Subtracts fuel (linkAfter done) g ∧
    (rest.length < fuel → ∃ g', sweepLoop fuel (linkAfter done) g = .ok g') ∧
    ∀ g', sweepLoop fuel (linkAfter done) g = .ok g' →
      ∃ fl', Counted g' (done ++ markedIn g.mem rest) fl' ∧ Untouched g g' ∧
        SameContents g.mem g'.mem (done ++ markedIn g.mem rest) ∧
        ((∀ b ∈ done, markedOf g.mem b = 0) → ∀ b ∈ done ++ markedIn g.mem rest, markedOf g'.mem b = 0) := by
  induction fuel generalizing done rest g fl with
  | zero => exact ⟨trivial, fun hlt => absurd hlt (Nat.not_lt_zero _), fun g' hrun => by cases hrun⟩
  | succ fuel ih =>
      have hlink := linked_readLink hc.chained.heap
      cases rest with
      | nil =>
          have hend : readLink g (linkAfter done) = 0 := linkOf_eq_none.mp hlink
          rw [sweepLoop, if_pos hend]
          refine ⟨fun hne => absurd hend hne, fun _ => ⟨g, rfl⟩, fun g' hrun => ?_⟩
          cases hrun
          exact ⟨fl, hc, ⟨rfl, fun _ _ hb => hb⟩, fun _ _ => ⟨rfl, fun _ _ _ => rfl⟩, fun hdone b hb => hdone b ((List.append_nil done).subst hb)⟩
      | cons h rest =>
          obtain ⟨hhead, hne⟩ := linkOf_eq_some.mp hlink.1
          have hmem : h ∈ done ++ h :: rest := List.mem_append_right _ List.mem_cons_self
          have hkept : ∀ b ∈ done ++ markedIn g.mem rest, b ∈ done ++ rest := fun b hb =>
            (List.mem_append.mp hb).elim (List.mem_append_left _) fun hb => List.mem_append_right _ (mem_markedIn.mp hb).1
          have hnot : h ∉ done ++ rest := (List.nodup_cons.mp (List.perm_middle.nodup_iff.mp hc.chained.heap.nodup)).1
          rw [Subtracts, sweepLoop, hhead, if_neg hne]
          by_cases hmarked : markedOf g.mem h ≠ 0
          · -- it survives, and its mark is cleared
            rw [if_pos hmarked, if_pos hmarked]
            have hmark : SameButMarks g.mem (store g.mem (h + 1) 1 0) (done ++ h :: rest) := by
              intro x hx
              by_contra hnone
              exact hx (store_of_notMem fun hat => hnone ⟨h, hmem, by omega⟩)
            have hmarks : ∀ b ∈ done ++ rest, markedOf (store g.mem (h + 1) 1 0) b = markedOf g.mem b := fun b hb =>
              load_store_of_disjoint (by
                have hbh : b ≠ h := fun heq => hnot (heq ▸ hb)
                omega)
            have hnext := hc.congr fun b hb => (hmark.header hc.chained hb).fields
            rw [← List.singleton_append, ← List.append_assoc] at hnext
            have hlinkAfter : linkAfter (done ++ [h]) = some (nextField h) := by
              rw [linkAfter, List.getLast?_concat]
              rfl
            obtain ⟨hsub, hends, hrest⟩ := ih hnext
            rw [hlinkAfter] at hsub hends hrest
            refine ⟨fun _ => hsub, fun hlt => hends (by rw [List.length_cons] at hlt; omega), fun g' hrun => ?_⟩
            obtain ⟨fl', hcounted, huntouched, hcontents, hclear⟩ := hrest g' hrun
            rw [markedIn_congr fun b hb => hmarks b (List.mem_append_right _ hb), List.append_assoc] at hcounted hcontents hclear
            rw [show markedIn g.mem (h :: rest) = h :: markedIn g.mem rest from List.filter_cons_of_pos (decide_eq_true hmarked)]
            refine ⟨fl', hcounted, ⟨huntouched.ptrMap, huntouched.blocks⟩,
              (hmark.contents hc.chained).trans hcontents fun b hb => ?_, fun hdone => hclear fun b hb => ?_⟩
            · exact List.perm_middle.mem_iff.mpr <| (List.mem_cons.mp (List.perm_middle.mem_iff.mp hb)).elim
                (fun hb => hb ▸ List.mem_cons_self) fun hb => List.mem_cons_of_mem _ (hkept b hb)
            rcases List.mem_append.mp hb with hb | hb
            · exact (hmarks b (List.mem_append_left _ hb)).trans (hdone b hb)
            · rw [List.mem_singleton.mp hb]
              exact load_store_self
          · rw [if_neg hmarked, if_neg hmarked,
              show markedIn g.mem (h :: rest) = markedIn g.mem rest from List.filter_cons_of_neg (by simpa using hmarked)]
            obtain ⟨hle, fl₁, hcounted₁, huntouched₁, hsame⟩ := sweepDead_counted hc
            obtain ⟨hcontents₁, hmarks⟩ := hsame.contents fun b hb => hc.chained.heap_size b <|
              List.perm_middle.mem_iff.mpr (List.mem_cons_of_mem _ hb)
            obtain ⟨hsub, hends, hrest⟩ := ih hcounted₁
            refine ⟨fun _ => ⟨hle, hsub⟩, fun hlt => hends (by rw [List.length_cons] at hlt; omega), fun g' hrun => ?_⟩
            obtain ⟨fl', hcounted, huntouched, hcontents, hclear⟩ := hrest g' hrun
            rw [markedIn_congr fun b hb => hmarks b (List.mem_append_right _ hb)] at hcounted hcontents hclear
            exact ⟨fl', hcounted, huntouched₁.trans huntouched, hcontents₁.trans hcontents hkept, fun hdone => hclear fun b hb =>
              (hmarks b (List.mem_append_left _ hb)).trans (hdone b hb)⟩

/-! ### A collection -/

/-- The bounds of the heap contain its objects. -/
def Bounded (g : Collector) (hs : List ℕ) : Prop := ∀ h ∈ hs, g.heapLo ≤ h ∧ h + sizeOf g.mem h ≤ g.heapHi

/-- What the collector keeps between its operations. -/
structure Kept (g : Collector) (hs : List ℕ) (fl : Fin 4 → List ℕ) : Prop where
  counted : Counted g hs fl
  mapped : Mapped g.ptrMap hs
  bounded : Bounded g hs

theorem heapBounds_contain (m : Mem) (hs : List ℕ) :
    ∀ h ∈ hs, (heapBounds m hs).1 ≤ h ∧ h + sizeOf m h ≤ (heapBounds m hs).2 := by
  have hfold : ∀ (hs : List ℕ) (b : ℕ × ℕ),
      let b' := hs.foldl (fun b h => (min b.1 h, max b.2 (h + sizeOf m h))) b
      (b'.1 ≤ b.1 ∧ b.2 ≤ b'.2) ∧ ∀ h ∈ hs, b'.1 ≤ h ∧ h + sizeOf m h ≤ b'.2 := by
    intro hs
    induction hs with
    | nil => exact fun b => ⟨⟨le_rfl, le_rfl⟩, fun h hh => absurd hh List.not_mem_nil⟩
    | cons a hs ih =>
        intro b
        obtain ⟨⟨hlo, hhi⟩, hall⟩ := ih (min b.1 a, max b.2 (a + sizeOf m a))
        refine ⟨⟨hlo.trans (min_le_left _ _), (le_max_left _ _).trans hhi⟩, List.forall_mem_cons.mpr ⟨?_, hall⟩⟩
        exact ⟨hlo.trans (min_le_right _ _), (le_max_right _ _).trans hhi⟩
  intro h hh
  rw [heapBounds, if_neg (List.ne_nil_of_mem hh)]
  exact (hfold hs _).2 h hh

theorem Mapped.eq_nil (hmap : Mapped none hs) : hs = [] := by
  have hempty : (emptyMap ptrMapInitCap).Table [] := emptyMap_table (k := 10) rfl
  have hperm := hmap.table.contents.symm.trans hempty.contents
  exact List.map_eq_nil_iff.mp hperm.eq_nil

theorem rebuild_mapped {pm pm' : Option PtrMap} {hs' : List ℕ} (hmap : Mapped pm hs) (hsub : hs'.Sublist hs)
    (hrun : ptrMapRebuild pm hs' = .ok pm') : Mapped pm' hs' := by
  cases pm with
  | none =>
      have hnil := hmap.eq_nil
      subst hnil
      rw [List.sublist_nil.mp hsub]
      cases hrun
      exact hmap
  | some pm =>
      have hload := hmap.load
      have hlength := hsub.length_le
      obtain ⟨pm₁, hrebuild, htable, hlarge, hload₁⟩ := ptrMapRebuild_table hmap.table hmap.large (show hs'.length * 4 ≤ _ by omega)
      cases hrun.symm.trans hrebuild
      exact ⟨htable, hlarge, hload₁⟩

theorem sweep_kept (hc : Counted g hs fl) (hmap : Mapped g.ptrMap hs) (hrun : sweep g = .ok g') :
    ∃ fl', Kept g' (markedIn g.mem hs) fl' ∧ SameContents g.mem g'.mem (markedIn g.mem hs) ∧
      ∀ b ∈ markedIn g.mem hs, markedOf g'.mem b = 0 := by
  obtain ⟨g₁, hloop, hrest⟩ := ok_of_bind hrun
  obtain ⟨hs', hlist, hrest⟩ := ok_of_bind hrest
  obtain ⟨pm, hrebuild, hend⟩ := ok_of_bind hrest
  cases hend
  have hnil : Counted g ([] ++ hs) fl := hc
  obtain ⟨fl', hcounted, huntouched, hcontents, hclear⟩ := (sweepLoop_counted _ hnil).2.2 g₁ hloop
  rw [List.nil_append] at hcounted hcontents hclear
  rw [hcounted.chained.heapList_eq] at hlist
  cases hlist
  refine ⟨fl', ⟨⟨?_, hcounted.bytes, hcounted.cap, hcounted.low⟩, ?_, heapBounds_contain _ _⟩, hcontents,
    hclear fun _ hb => absurd hb List.not_mem_nil⟩
  · exact hcounted.chained.congr rfl rfl rfl rfl fun _ _ => ⟨rfl, rfl, rfl⟩
  · rw [huntouched.ptrMap] at hrebuild
    exact rebuild_mapped hmap List.filter_sublist hrebuild

/-- The sweep of a collection never subtracts more than there is. -/
def NeverUnderflows (g : Collector) (sp : ℕ) : Prop := ∀ hs m, heapList g.mem (2 ^ 64) g.heapHead = .ok hs →
  markRoots g (buildChunks g.mem hs) sp = .ok m → Subtracts (2 ^ 64) none { g with mem := m }

theorem marked_counted {sp : ℕ} (hk : Kept g hs fl) (haim : Aimed g sp)
    (hrun : markRoots g (buildChunks g.mem hs) sp = .ok m) : Counted { g with mem := m } ([] ++ hs) fl :=
  hk.counted.congr fun _ hb => (markRoots_onlyMarks hk.counted.chained hk.mapped haim hrun).sameFields hk.counted.chained hb

theorem neverUnderflows {sp : ℕ} (hk : Kept g hs fl) (haim : Aimed g sp) : NeverUnderflows g sp := by
  intro hs' m hlist hrun
  rw [hk.counted.chained.heapList_eq] at hlist
  cases hlist
  exact (sweepLoop_counted _ (marked_counted hk haim hrun)).1

/-- **A collection.** -/
theorem collect_kept {sp : ℕ} (hk : Kept g hs fl) (haim : Aimed g sp) (hrun : collect g sp = .ok g') :
    ∃ hs' fl', Kept g' hs' fl' ∧ g'.gcThreshold = max (2 * sizes g'.mem hs') initialThreshold := by
  obtain ⟨hs', hlist, hrest⟩ := ok_of_bind hrun
  rw [hk.counted.chained.heapList_eq] at hlist
  cases hlist
  obtain ⟨m, hmark, hrest⟩ := ok_of_bind hrest
  obtain ⟨g₁, hsweep, hend⟩ := ok_of_bind hrest
  cases hend
  obtain ⟨fl', hkept, -⟩ := sweep_kept (marked_counted hk haim hmark) hk.mapped hsweep
  refine ⟨_, fl', ⟨⟨?_, hkept.counted.bytes, hkept.counted.cap, hkept.counted.low⟩, hkept.mapped, hkept.bounded⟩, ?_⟩
  · exact hkept.counted.chained.congr rfl rfl rfl rfl fun _ _ => ⟨rfl, rfl, rfl⟩
  · have hlt := sizes_lt hkept.counted.chained hkept.counted.low
    have hbytes := hkept.counted.bytes
    show max (g₁.heapBytes * 2 % 2 ^ 64) _ = max (2 * sizes g₁.mem _) _
    rw [hbytes, Nat.mod_eq_of_lt (by omega), Nat.mul_comm]

end Counting

end Visuall.Gc
