import Visuall.Gc.Blocks
import Visuall.Lib.Effect

/-!
# Where marks are set

`mark_internal` sets the mark of the header that ends where a word points to, and a word that points inside an object
has its mark set inside the object, too.

* `findGcHeader_sound` — the words that `find_gc_header` resolves;
* `MarksMiss`, `Aimed` — no mark of a collection is set in the size or the link of an object;
* `markRoots_onlyMarks`, `OnlyMarks.sameFields` — such a collection leaves the lists as they are.
-/

namespace Visuall.Gc

open Effect

/-! ### The words that are found -/

section Finding

variable {g : Collector} {hs : List ℕ} {fl : Fin 4 → List ℕ} {h w : ℕ}

/-- `ptr_map` holds the objects of the heap list, with room for one more. -/
structure Mapped (pm : Option PtrMap) (hs : List ℕ) : Prop where
  table : (tableOf pm).Table (hs.map entryOf)
  large : ptrMapInitCap ≤ (tableOf pm).cap
  load : hs.length * 4 ≤ (tableOf pm).cap * 3

/-- The word points into an object of the list. -/
def PointsInto (m : Mem) (hs : List ℕ) (w : ℕ) : Prop :=
  ∃ h ∈ hs, userOf h ≤ w ∧ (w = userOf h ∨ w < h + sizeOf m h)

theorem buildChunks_all {P : ChunkAllocEntry → Prop} {m : Mem}
    (h : ∀ h ∈ hs, P ⟨userOf h, payloadOf (sizeOf m h), h⟩) : (buildChunks m hs).All P := by
  have hfold : ∀ t : ChunkTable, t.All P →
      (hs.foldl (fun t h => chunkTableAddRange t (userOf h) (payloadOf (sizeOf m h)) h) t).All P := by
    induction hs with
    | nil => exact fun t ht => ht
    | cons a hs ih =>
        obtain ⟨ha, hhs⟩ := List.forall_mem_cons.mp h
        intro t ht
        rw [List.foldl_cons]
        exact ih hhs _ (chunkTableAddRange_all ht ha)
  exact hfold _ (emptyChunks_all _)

theorem payloadOf_eq {size : ℕ} (hmin : headerSize ≤ size) (hmax : size < 2 ^ 32) : payloadOf size = size - headerSize := by
  have h24 : headerSize = 24 := rfl
  rw [payloadOf]
  omega

theorem sizeOf_lt (m : Mem) (h : ℕ) : sizeOf m h < 2 ^ 32 := (load_lt m (h + 4) 4).trans_eq (by norm_num)

/-- **A word that is found** points into an object. -/
theorem findGcHeader_sound (hc : Chained g hs fl) (hmap : Mapped g.ptrMap hs) {found : ℕ}
    (hfind : findGcHeader g (buildChunks g.mem hs) w = .ok (some found)) : PointsInto g.mem hs w := by
  rw [findGcHeader] at hfind
  split at hfind
  · cases hfind
  · rcases ptrMapLookup_table hmap.table w with ⟨e, he, rfl, hlookup⟩ | ⟨-, hlookup⟩
    · obtain ⟨h, hh, rfl⟩ := List.mem_map.mp he
      exact ⟨h, hh, le_rfl, .inl rfl⟩
    · rw [hlookup] at hfind
      have hchunk : (if w < g.heapLo ∨ w ≥ g.heapHi then none else chunkTableLookup (buildChunks g.mem hs) w) = some found := by
        by_cases hrange : w < g.heapLo ∨ w ≥ g.heapHi
        · rw [if_pos hrange]
          have : Except.ok (ε := Stop) none = .ok (some found) := by
            rw [← hfind]
            exact (if_pos hrange).symm
          exact Except.ok.inj this
        · rw [if_neg hrange]
          have : Except.ok (ε := Stop) (chunkTableLookup (buildChunks g.mem hs) w) = .ok (some found) := by
            rw [← hfind]
            exact (if_neg hrange).symm
          exact Except.ok.inj this
      split at hchunk
      · cases hchunk
      · have hentries : (buildChunks g.mem hs).All fun e => ∃ h ∈ hs, e.base = userOf h ∧ e.base + e.size = h + sizeOf g.mem h := by
          refine buildChunks_all fun h hh => ⟨h, hh, rfl, ?_⟩
          have hmin := hc.heap_size h hh
          show userOf h + payloadOf (sizeOf g.mem h) = _
          rw [payloadOf_eq hmin (sizeOf_lt _ _), userOf]
          omega
        obtain ⟨e, ⟨h, hh, hbase, hend⟩, hle, hlt, -⟩ := chunkTableLookup_sound hentries hchunk
        exact ⟨h, hh, hbase ▸ hle, .inr (hend ▸ hlt)⟩

end Finding

/-! ### The marks that are set -/

/-- The mark that `mark_internal` sets at a word, and those it sets from there on, satisfy `P`. -/
def MarksAt (find : ℕ → Except Stop (Option ℕ)) (P : ℕ → Prop) : ℕ → Mem → ℕ → Prop
  | 0, _, _ => True
  | fuel + 1, m, ptr =>
      ptr ≠ 0 → getHeader ptr ≠ 0 → markedOf m (getHeader ptr) = 0 →
        P (getHeader ptr + 1) ∧
          (objectScan (getHeader ptr) ptr).Meets (visitWord find (markInternal find fuel))
            (fun m w => (∃ h, find w = .ok (some h)) → MarksAt find P fuel m w) (store m (getHeader ptr + 1) 1 1)

/-- The byte is not in the size or the link of an object. -/
def OffFields (hs : List ℕ) (x : ℕ) : Prop := ∀ h ∈ hs, ¬ (h + 4 ≤ x ∧ x < h + 8) ∧ ¬ (h + 16 ≤ x ∧ x < h + 24)

/-- No mark that a collection sets is in the size or the link of an object. -/
def Aimed (g : Collector) (sp : ℕ) : Prop := ∀ hs, heapList g.mem (2 ^ 64) g.heapHead = .ok hs →
  let find := findGcHeader g (buildChunks g.mem hs)
  (rootsOf g sp).Meets (visitWord find (markInternal find (2 ^ 64)))
    (fun m w => (∃ h, find w = .ok (some h)) → MarksAt find (OffFields hs) (2 ^ 64) m w) g.mem

section Marks

variable {g : Collector} {hs : List ℕ} {fl : Fin 4 → List ℕ} {find : ℕ → Except Stop (Option ℕ)} {P : ℕ → Prop}
  {I : Mem → Prop} {m m' : Mem} {w sp : ℕ}

/-- `if (find_gc_header(w)) mark_internal(w)`, by what `mark_internal` keeps. -/
theorem visitWord_keeps {fuel : ℕ}
    (hmark : ∀ m w m', I m → (∃ h, find w = .ok (some h)) → MarksAt find P fuel m w → markInternal find fuel m w = .ok m' → I m')
    (m : Mem) (w : ℕ) (m' : Mem) (hm : I m) (hw : (∃ h, find w = .ok (some h)) → MarksAt find P fuel m w)
    (hrun : visitWord find (markInternal find fuel) m w = .ok m') : I m' := by
  rw [visitWord] at hrun
  cases hfind : find w with
  | error e =>
      rw [hfind] at hrun
      cases hrun
  | ok found =>
      rw [hfind] at hrun
      cases found with
      | none =>
          cases hrun
          exact hm
      | some h => exact hmark m w m' hm ⟨h, hfind⟩ (hw ⟨h, hfind⟩) hrun

/-- What such marks keep, `mark_internal` keeps. -/
theorem markInternal_keeps
    (hstore : ∀ m w, I m → (∃ h, find w = .ok (some h)) → P (getHeader w + 1) → I (store m (getHeader w + 1) 1 1)) (fuel : ℕ) :
    ∀ m w m', I m → (∃ h, find w = .ok (some h)) → MarksAt find P fuel m w → markInternal find fuel m w = .ok m' → I m' := by
  induction fuel with
  | zero =>
      intro m w m' _ _ _ hrun
      cases hrun
  | succ fuel ih =>
      intro m w m' hm hfound haim hrun
      rw [markInternal] at hrun
      rw [MarksAt] at haim
      by_cases hw : w = 0
      · rw [if_pos hw] at hrun
        cases hrun
        exact hm
      rw [if_neg hw] at hrun
      dsimp only at hrun
      by_cases hhdr : getHeader w = 0
      · rw [if_pos hhdr] at hrun
        cases hrun
        exact hm
      rw [if_neg hhdr] at hrun
      by_cases hmarked : markedOf m (getHeader w) = 0
      · rw [if_neg fun h => h hmarked] at hrun
        have hboth := haim hw hhdr hmarked
        generalize objectScan (getHeader w) w = s at hboth hrun
        obtain ⟨hat, hmeets⟩ := hboth
        exact Scan.run_invariant (visitWord_keeps ih) hmeets (hstore m w hm hfound hat) hrun
      · rw [if_pos hmarked] at hrun
        cases hrun
        exact hm

/-- The memories that marking leads to: only bytes inside of objects are changed, and not their sizes and links. -/
def OnlyMarks (g : Collector) (hs : List ℕ) (m : Mem) : Prop :=
  ∀ x, m x ≠ g.mem x → OffFields hs x ∧ ∃ h ∈ hs, h < x ∧ x < h + sizeOf g.mem h

/-- A mark at a word that is found. -/
theorem onlyMarks_store (hc : Chained g hs fl) (hm : OnlyMarks g hs m) (hw : PointsInto g.mem hs w)
    (haim : OffFields hs (getHeader w + 1)) : OnlyMarks g hs (store m (getHeader w + 1) 1 1) := by
  have h24 : headerSize = 24 := rfl
  obtain ⟨h, hh, hle, hlt⟩ := hw
  obtain ⟨k, hk, hsize⟩ := hc.heap_block h hh
  have haddr := hc.addr h k hk
  have hmin := hc.heap_size h hh
  have hhdr : getHeader w = w - headerSize := by
    rw [getHeader]
    rw [userOf] at hle hlt
    omega
  intro x hx
  by_cases hat : x = getHeader w + 1
  · subst hat
    refine ⟨haim, h, hh, ?_, ?_⟩
    · rw [userOf] at hle
      omega
    · rw [userOf] at hle hlt
      omega
  · rw [store_of_notMem (by omega)] at hx
    exact hm x hx

/-- **Marking leaves the lists as they are.** -/
theorem OnlyMarks.sameFields (hc : Chained g hs fl) (hm : OnlyMarks g hs m) {b : ℕ} (hb : Owned hs fl b) :
    SameFields g.mem m b := by
  have h24 : headerSize = 24 := rfl
  have hkept : ∀ x, b ≤ x → x < b + headerSize → x = b ∨ (b + 4 ≤ x ∧ x < b + 8) ∨ (b + 16 ≤ x ∧ x < b + 24) →
      g.mem x = m x := by
    intro x hle hlt hfield
    by_contra hne
    obtain ⟨hoff, h, hh, hhx, hxh⟩ := hm x (Ne.symm hne)
    have hbh : b = h := by
      by_contra hbh
      obtain ⟨k, hk, hsize⟩ := hc.heap_block h hh
      obtain ⟨l, hl, hlarge⟩ := hc.owned_block hb
      rcases hc.apart b l h k hl hk hbh with hap | hap <;> omega
    subst hbh
    have := hoff b hh
    omega
  refine ⟨?_, ?_, ?_⟩
  · exact (load_congr fun x hx hx' => hkept x hx (by omega) (.inl (by omega))).symm
  · exact (load_congr fun x hx hx' => hkept x (by omega) (by omega) (.inr (.inl (by omega)))).symm
  · rw [nextOf, nextOf, nextWord, nextWord]
    rw [load_congr fun x hx hx' => hkept x (by omega) (by omega) (.inr (.inr (by omega)))]

theorem markRoots_onlyMarks (hc : Chained g hs fl) (hmap : Mapped g.ptrMap hs) (haim : Aimed g sp)
    (hrun : markRoots g (buildChunks g.mem hs) sp = .ok m) : OnlyMarks g hs m := by
  have hstart : OnlyMarks g hs g.mem := fun x hx => absurd rfl hx
  refine Scan.run_invariant (visitWord_keeps (markInternal_keeps (fun m w hm hfound hat => ?_) _)) (haim hs hc.heapList_eq)
    hstart hrun
  obtain ⟨found, hfound⟩ := hfound
  exact onlyMarks_store hc hm (findGcHeader_sound hc hmap hfound) hat

end Marks

end Visuall.Gc
