import Visuall.Gc.AccountingRuns
import Visuall.Lib.DepthFirst

/-!
# A collection keeps what is reached

`mark_internal` is a depth-first search on the objects of the heap list.  Where every word that it meets is the user
pointer of an object, or points into none, it marks exactly what the roots lead to.

* `pointees`, `successors` — the objects that words point to, and those that an object leads to; `Reached` — from the roots;
* `Legible`, `Exact` — a scan that ends and meets no pointer into the middle of an object; all scans of a collection;
* `markInternal_eq`, `markRoots_eq` — marking is the search;
* `collect_exact` — a collection ends, keeps the objects that are reached and nothing else, and leaves no marks;
* `collections_exact`, `lookups_sound` — collections and lookups wherever a run has led.
-/

namespace Visuall.Gc

open DepthFirst Effect

/-! ### Objects that lead to objects -/

/-- The objects of the list that the words point to. -/
def pointees (hs ws : List ℕ) : List ℕ := ws.filterMap fun w => hs.find? fun h => userOf h = w

/-- The objects that an object leads to. -/
def successors (m : Mem) (hs : List ℕ) (h : ℕ) : List ℕ := pointees hs (((objectScan h (userOf h)).words m).getD [])

/-- The objects that the roots point to. -/
def rootObjects (g : Collector) (hs : List ℕ) (sp : ℕ) : List ℕ := pointees hs (((rootsOf g sp).words g.mem).getD [])

/-- The objects that the roots lead to. -/
def Reached (g : Collector) (hs : List ℕ) (sp : ℕ) : ℕ → Prop := Leads (successors g.mem hs) (rootObjects g hs sp)

/-- The scan ends, reads no mark, and meets no pointer into the middle of an object. -/
structure Legible (m : Mem) (hs : List ℕ) (s : Scan) : Prop where
  ends : ∃ ws, s.words m = some ws ∧ ∀ w ∈ ws, PointsInto m hs w → ∃ h ∈ hs, w = userOf h
  reads : s.Reads (fun x => ∀ h ∈ hs, x ≠ h + 1) m

/-- So do all scans of a collection, before which nothing is marked. -/
structure Exact (g : Collector) (hs : List ℕ) (sp : ℕ) : Prop where
  unmarked : ∀ h ∈ hs, markedOf g.mem h = 0
  roots : Legible g.mem hs (rootsOf g sp)
  objects : ∀ h, Reached g hs sp h → Legible g.mem hs (objectScan h (userOf h))

section Marking

variable {g g' : Collector} {hs ws : List ℕ} {fl : Fin 4 → List ℕ} {h w sp : ℕ}

theorem find_eq_some : (hs.find? fun h => userOf h = w) = some h ↔ h ∈ hs ∧ w = userOf h := by
  constructor
  · intro hfind
    have huser : userOf h = w := by simpa using List.find?_some hfind
    exact ⟨List.mem_of_find?_eq_some hfind, huser.symm⟩
  · rintro ⟨hh, rfl⟩
    have hsome : (hs.find? fun h' => userOf h' = userOf h).isSome := by
      rw [List.find?_isSome]
      exact ⟨h, hh, decide_eq_true rfl⟩
    obtain ⟨h', hfind⟩ := Option.isSome_iff_exists.mp hsome
    have hsame : userOf h' = userOf h := by simpa using List.find?_some hfind
    rw [hfind, Nat.add_right_cancel hsame]

theorem mem_of_mem_pointees (hmem : h ∈ pointees hs ws) : h ∈ hs := by
  obtain ⟨w, -, hfind⟩ := List.mem_filterMap.mp hmem
  exact List.mem_of_find?_eq_some hfind

theorem Reached.mem (hr : Reached g hs sp h) : h ∈ hs := by
  cases hr with
  | root hmem => exact mem_of_mem_pointees hmem
  | step _ hmem => exact mem_of_mem_pointees hmem

/-- **What is found** at a word that is no pointer into the middle of an object. -/
theorem findGcHeader_eq (hc : Chained g hs fl) (hmap : Mapped g.ptrMap hs)
    (hw : PointsInto g.mem hs w → ∃ h ∈ hs, w = userOf h) :
    findGcHeader g (buildChunks g.mem hs) w = .ok (hs.find? fun h => userOf h = w) := by
  by_cases hat : ∃ h ∈ hs, w = userOf h
  · obtain ⟨h, hh, rfl⟩ := hat
    rw [find_eq_some.mpr ⟨hh, rfl⟩, findGcHeader, if_neg (show userOf h ≠ 0 from Nat.succ_ne_zero _)]
    rcases ptrMapLookup_table hmap.table (userOf h) with ⟨e, he, hkey, hlookup⟩ | ⟨hnone, -⟩
    · obtain ⟨h', -, rfl⟩ := List.mem_map.mp he
      cases Nat.add_right_cancel hkey
      rw [hlookup]
      rfl
    · exact absurd rfl (hnone _ (List.mem_map_of_mem hh))
  · have hnone : (hs.find? fun h => userOf h = w) = none :=
      List.find?_eq_none.mpr fun h hh => by simpa using fun heq => hat ⟨h, hh, heq.symm⟩
    have hfound : ∃ r, findGcHeader g (buildChunks g.mem hs) w = .ok r := by
      rw [findGcHeader]
      split
      · exact ⟨_, rfl⟩
      · rcases ptrMapLookup_table hmap.table w with ⟨e, -, -, hlookup⟩ | ⟨-, hlookup⟩
        · exact ⟨_, by rw [hlookup]; rfl⟩
        · rw [hlookup]
          by_cases hrange : w < g.heapLo ∨ w ≥ g.heapHi
          · exact ⟨_, if_pos hrange⟩
          · exact ⟨_, if_neg hrange⟩
    obtain ⟨r, hr⟩ := hfound
    rw [hr, hnone]
    cases r with
    | none => rfl
    | some found => exact absurd (hw (findGcHeader_sound hc hmap hr)) hat

/-! ### The search -/

/-- The memory with these objects marked. -/
def markAt (m : Mem) (V : Finset ℕ) : Mem := fun x => if ∃ h ∈ V, x = h + 1 then 1 else m x

theorem store_markAt (m : Mem) (V : Finset ℕ) (h : ℕ) : store (markAt m V) (h + 1) 1 1 = markAt m (insert h V) := by
  funext x
  by_cases hx : x = h + 1
  · subst hx
    rw [markAt, if_pos ⟨h, Finset.mem_insert_self h V, rfl⟩, store, if_pos (by omega), Nat.sub_self]
    rfl
  · rw [store_of_notMem (by omega), markAt, markAt]
    refine if_congr ⟨fun hex => ?_, fun hex => ?_⟩ rfl rfl
    · obtain ⟨b, hb, heq⟩ := hex
      exact ⟨b, Finset.mem_insert_of_mem hb, heq⟩
    · obtain ⟨b, hb, heq⟩ := hex
      rcases Finset.mem_insert.mp hb with rfl | hb
      · exact absurd heq hx
      · exact ⟨b, hb, heq⟩

theorem markedOf_markAt (m : Mem) (V : Finset ℕ) (h : ℕ) :
    markedOf (markAt m V) h = if h ∈ V then 1 else markedOf m h := by
  rw [markedOf, markedOf, load_one, load_one, markAt]
  by_cases hh : h ∈ V
  · rw [if_pos ⟨h, hh, rfl⟩, if_pos hh]
    rfl
  · rw [if_neg fun ⟨b, hb, heq⟩ => hh (Nat.succ_injective heq ▸ hb), if_neg hh]

/-- What the search marks, in memory. -/
def inMemory (m : Mem) (r : Option (Finset ℕ)) : Except Stop Mem := r.elim (.error .endless) fun V => .ok (markAt m V)

/-- Marking an object of the list is searching from it. -/
def Searches (g : Collector) (hs : List ℕ) (mark : Mem → ℕ → Except Stop Mem) (search : Finset ℕ → ℕ → Option (Finset ℕ))
    (h : ℕ) : Prop :=
  ∀ V ⊆ hs.toFinset, mark (markAt g.mem V) (userOf h) = inMemory g.mem (search V h) ∧ ∀ W ∈ search V h, W ⊆ hs.toFinset

variable {find : ℕ → Except Stop (Option ℕ)} {mark : Mem → ℕ → Except Stop Mem} {search : Finset ℕ → ℕ → Option (Finset ℕ)}
  {V : Finset ℕ}

/-- A word is visited where it points to an object. -/
theorem visitWord_eq (hfind : find w = .ok (hs.find? fun h => userOf h = w))
    (hmark : ∀ h ∈ pointees hs [w], Searches g hs mark search h) (hV : V ⊆ hs.toFinset) :
    visitWord find mark (markAt g.mem V) w = inMemory g.mem ((pointees hs [w]).foldlM search V) ∧
      ∀ W ∈ (pointees hs [w]).foldlM search V, W ⊆ hs.toFinset := by
  rw [visitWord, hfind]
  cases hat : hs.find? fun h => userOf h = w with
  | none =>
    have hnone : pointees hs [w] = [] := List.filterMap_cons_none hat
    rw [hnone]
    refine ⟨rfl, fun W hW => ?_⟩
    cases hW
    exact hV
  | some h =>
    have hone : pointees hs [w] = [h] := List.filterMap_cons_some hat
    obtain ⟨-, rfl⟩ := find_eq_some.mp hat
    obtain ⟨hstep, hkeeps⟩ := hmark h (hone ▸ List.mem_cons_self) V hV
    have hfold : [h].foldlM search V = search V h := bind_pure _
    rw [hone, hfold]
    exact ⟨hstep, hkeeps⟩

/-- The visits of words are the visits of the objects that they point to. -/
theorem visits_eq (hfind : ∀ w ∈ ws, find w = .ok (hs.find? fun h => userOf h = w))
    (hmark : ∀ h ∈ pointees hs ws, Searches g hs mark search h) (hV : V ⊆ hs.toFinset) :
    ws.foldlM (visitWord find mark) (markAt g.mem V) = inMemory g.mem ((pointees hs ws).foldlM search V) := by
  induction ws generalizing V with
  | nil => rfl
  | cons w ws ih =>
    have hsplit : pointees hs (w :: ws) = pointees hs [w] ++ pointees hs ws := List.filterMap_append (l := [w])
    rw [hsplit] at hmark ⊢
    obtain ⟨hstep, hkeeps⟩ := visitWord_eq (hfind w List.mem_cons_self) (fun h hh => hmark h (List.mem_append_left _ hh)) hV
    rw [List.foldlM_cons, hstep, List.foldlM_append]
    cases hfold : (pointees hs [w]).foldlM search V with
    | none => rfl
    | some W =>
      exact ih (fun w hw => hfind w (List.mem_cons_of_mem _ hw)) (fun h hh => hmark h (List.mem_append_right _ hh))
        (hkeeps W hfold)

/-- **Running a legible scan is searching from what it points to.** -/
theorem run_eq {s : Scan} (hs' : Legible g.mem hs s) (hc : Chained g hs fl) (hmap : Mapped g.ptrMap hs)
    (hmark : ∀ h ∈ pointees hs ((s.words g.mem).getD []), Searches g hs mark search h) (hV : V ⊆ hs.toFinset) :
    s.run (visitWord (findGcHeader g (buildChunks g.mem hs)) mark) .endless (markAt g.mem V) =
      inMemory g.mem ((pointees hs ((s.words g.mem).getD [])).foldlM search V) := by
  obtain ⟨ws, hwords, hexact⟩ := hs'.ends
  rw [hwords, Option.getD_some] at hmark ⊢
  have hfind : ∀ w ∈ ws, findGcHeader g (buildChunks g.mem hs) w = .ok (hs.find? fun h => userOf h = w) := fun w hw =>
    findGcHeader_eq hc hmap (hexact w hw)
  rw [← visits_eq hfind hmark hV]
  refine Scan.run_eq_foldlM (S := fun m => ∃ V ⊆ hs.toFinset, m = markAt g.mem V) ?_ ?_ hs'.reads hwords ⟨V, hV, rfl⟩
  · rintro m ⟨V, hV, rfl⟩ x hx
    exact if_neg fun ⟨h, hh, heq⟩ => hx h (List.mem_toFinset.mp (hV hh)) heq
  · rintro m w m₂ ⟨V, hV, rfl⟩ hw hrun
    have hsub : ∀ h ∈ pointees hs [w], h ∈ pointees hs ws := by
      intro h hh
      obtain ⟨v, hv, hat⟩ := List.mem_filterMap.mp hh
      exact List.mem_filterMap.mpr ⟨v, List.mem_singleton.mp hv ▸ hw, hat⟩
    obtain ⟨hstep, hkeeps⟩ := visitWord_eq (hfind w hw) (fun h hh => hmark h (hsub h hh)) hV
    rw [hstep] at hrun
    cases hfold : (pointees hs [w]).foldlM search V with
    | none =>
      rw [hfold] at hrun
      cases hrun
    | some W =>
      rw [hfold] at hrun
      cases hrun
      exact ⟨W, hkeeps W hfold, rfl⟩

/-- **`mark_internal` is the search**, on objects that the roots lead to. -/
theorem markInternal_eq (hc : Chained g hs fl) (hmap : Mapped g.ptrMap hs) (hex : Exact g hs sp) (fuel : ℕ) :
    ∀ h, Reached g hs sp h → Searches g hs (markInternal (findGcHeader g (buildChunks g.mem hs)) fuel)
      (DepthFirst.mark (successors g.mem hs) fuel) h := by
  induction fuel with
  | zero => exact fun h _ V _ => ⟨rfl, fun W hW => by cases hW⟩
  | succ fuel ih =>
    intro h hr V hV
    have hh := hr.mem
    obtain ⟨haddr, hend⟩ := hc.owned_addr (.inl hh)
    have hhead : getHeader (userOf h) = h := by
      have h24 : headerSize = 24 := rfl
      rw [getHeader, userOf]
      omega
    constructor
    · rw [markInternal, if_neg (show userOf h ≠ 0 from Nat.succ_ne_zero _), DepthFirst.mark]
      dsimp only
      rw [hhead, if_neg (Nat.ne_of_gt haddr), markedOf_markAt]
      by_cases hhV : h ∈ V
      · rw [if_pos hhV, if_pos hhV, if_pos Nat.one_ne_zero]
        rfl
      · rw [if_neg hhV, if_neg hhV, hex.unmarked h hh, if_neg fun hne => hne rfl, store_markAt]
        exact run_eq (hex.objects h hr) hc hmap (fun h' hh' => ih h' (.step hr hh'))
          (Finset.insert_subset (List.mem_toFinset.mpr hh) hV)
    · intro W hW y hy
      by_cases hyV : y ∈ V
      · exact hV hyV
      · have hreached : Reached g hs sp y := ((mark_marked hW).leads y hy hyV).mono fun r hr' => List.mem_singleton.mp hr' ▸ hr
        exact List.mem_toFinset.mpr hreached.mem

/-- **The marking of a collection** ends, and marks what the roots lead to. -/
theorem markRoots_eq (hc : Chained g hs fl) (hmap : Mapped g.ptrMap hs) (hex : Exact g hs sp) :
    ∃ V, (∀ h, h ∈ V ↔ Reached g hs sp h) ∧ markRoots g (buildChunks g.mem hs) sp = .ok (markAt g.mem V) := by
  classical
  have hU : ∀ {h}, h ∈ hs.toFinset.filter (Reached g hs sp) ↔ Reached g hs sp h := by
    intro h
    rw [Finset.mem_filter, List.mem_toFinset]
    exact ⟨And.right, fun hr => ⟨hr.mem, hr⟩⟩
  have hcard : (hs.toFinset.filter (Reached g hs sp) \ ∅).card < 2 ^ 64 :=
    (((Finset.card_le_card Finset.sdiff_subset).trans (Finset.card_filter_le _ _)).trans (List.toFinset_card_le hs)).trans_lt
      hc.length_lt
  have hclosed : ∀ y ∈ hs.toFinset.filter (Reached g hs sp), ∀ z ∈ successors g.mem hs y, z ∈ hs.toFinset.filter (Reached g hs sp) :=
    fun y hy z hz => hU.mpr (.step (hU.mp hy) hz)
  have hroots : ∀ x ∈ rootObjects g hs sp, x ∈ hs.toFinset.filter (Reached g hs sp) := fun x hx => hU.mpr (.root hx)
  obtain ⟨V, hV, -⟩ := markAll_isSome hclosed (Finset.empty_subset _) hroots hcard
  refine ⟨V, fun h => markAll_eq_reached hV, ?_⟩
  have hrun := run_eq hex.roots hc hmap (fun h hh => markInternal_eq hc hmap hex (2 ^ 64) h (.root hh)) (Finset.empty_subset _)
  have hstart : markAt g.mem ∅ = g.mem := by
    funext x
    exact if_neg fun ⟨h, hh, _⟩ => absurd hh (Finset.notMem_empty h)
  rw [hstart] at hrun
  refine hrun.trans ?_
  show inMemory g.mem (markAll (successors g.mem hs) (2 ^ 64) ∅ (rootObjects g hs sp)) = _
  rw [hV]
  rfl

/-! ### Collections -/

theorem exists_sweep (hc : Counted g hs fl) (hmap : Mapped g.ptrMap hs) : ∃ g', sweep g = .ok g' := by
  have hnil : Counted g ([] ++ hs) fl := hc
  obtain ⟨-, hends, hrest⟩ := sweepLoop_counted (2 ^ 64) hnil
  obtain ⟨g₁, hloop⟩ := hends hc.chained.length_lt
  obtain ⟨fl', hcounted, huntouched, -⟩ := hrest g₁ hloop
  have hrebuild : ∃ pm, ptrMapRebuild g₁.ptrMap (markedIn g.mem hs) = .ok pm := by
    rw [huntouched.ptrMap]
    cases hpm : g.ptrMap with
    | none => exact ⟨none, rfl⟩
    | some pm =>
      rw [hpm] at hmap
      have hlength : (markedIn g.mem hs).length ≤ hs.length := List.length_filter_le _ _
      have hload := hmap.load
      obtain ⟨pm', hpm', -⟩ := ptrMapRebuild_table hmap.table hmap.large (show (markedIn g.mem hs).length * 4 ≤ _ by omega)
      exact ⟨_, hpm'⟩
  obtain ⟨pm, hpm⟩ := hrebuild
  have hloop : sweepLoop (2 ^ 64) none g = .ok g₁ := hloop
  rw [sweep, hloop, ok_bind, hcounted.chained.heapList_eq, ok_bind, List.nil_append, hpm]
  exact ⟨_, rfl⟩

open Classical in
/-- **A collection** ends.  What the roots lead to is kept, in its order and with its contents, everything else is taken
out of the heap list, and nothing is marked any more. -/
theorem collect_exact (hk : Kept g hs fl) (hex : Exact g hs sp) :
    ∃ g' fl', collect g sp = .ok g' ∧ Kept g' (hs.filter (Reached g hs sp)) fl' ∧
      SameContents g.mem g'.mem (hs.filter (Reached g hs sp)) ∧ ∀ h ∈ hs.filter (Reached g hs sp), markedOf g'.mem h = 0 := by
  have hc := hk.counted.chained
  obtain ⟨V, hV, hmark⟩ := markRoots_eq hc hk.mapped hex
  have hsame : SameButMarks g.mem (markAt g.mem V) hs := by
    intro x hx
    by_contra hnone
    exact hx (if_neg fun ⟨h, hh, heq⟩ => hnone ⟨h, ((hV h).mp hh).mem, heq⟩)
  have hmarked : markedIn (markAt g.mem V) hs = hs.filter (Reached g hs sp) := by
    refine List.filter_congr fun h hh => decide_eq_decide.mpr ?_
    rw [markedOf_markAt, hex.unmarked h hh, ← hV]
    by_cases hhV : h ∈ V
    · rw [if_pos hhV]
      exact iff_of_true Nat.one_ne_zero hhV
    · rw [if_neg hhV]
      exact iff_of_false (fun hne => hne rfl) hhV
  have hcounted : Counted { g with mem := markAt g.mem V } hs fl := hk.counted.congr fun b hb => (hsame.header hc hb).fields
  obtain ⟨g₁, hsweep⟩ := exists_sweep hcounted hk.mapped
  obtain ⟨fl', hkept, hcontents, hclear⟩ := sweep_kept hcounted hk.mapped hsweep
  have hmarked : markedIn { g with mem := markAt g.mem V }.mem hs = hs.filter (Reached g hs sp) := hmarked
  rw [hmarked] at hkept hcontents hclear
  refine ⟨{ g₁ with gcThreshold := max (g₁.heapBytes * 2 % 2 ^ 64) initialThreshold }, fl', ?_, ?_, ?_, hclear⟩
  · rw [collect, hc.heapList_eq, ok_bind, hmark, ok_bind, hsweep]
    rfl
  · exact ⟨⟨hkept.counted.chained.congr rfl rfl rfl rfl fun _ _ => ⟨rfl, rfl, rfl⟩, hkept.counted.bytes, hkept.counted.cap,
      hkept.counted.low⟩, hkept.mapped, hkept.bounded⟩
  · exact (hsame.contents hc).trans hcontents fun h hh => (List.mem_filter.mp hh).1

end Marking

/-! ### Runs -/

theorem kept_of_run {mem : Mem} {tr : List (GcEvent × GcWorld)} (hrun : Run GcStep ⟨gcStatic mem, 0⟩ tr)
    (hgood : ∀ p ∈ Run.steps ⟨gcStatic mem, 0⟩ tr, Good p.1.gc p.2) {w : GcWorld} (hw : w ∈ Run.states ⟨gcStatic mem, 0⟩ tr)
    {hs : List ℕ} (hlist : heapList w.gc.mem (2 ^ 64) w.gc.heapHead = .ok hs) : ∃ fl, Kept w.gc hs fl := by
  have hall : ∀ w ∈ Run.states ⟨gcStatic mem, 0⟩ tr, Balanced w.gc w.survived :=
    Run.invariant (fun _ _ _ hb hG hstep => hstep.balanced hG hb) (static_balanced mem) hrun hgood
  obtain ⟨hs', fl, hk, -⟩ := hall w hw
  obtain rfl : hs' = hs := Except.ok.inj (hk.counted.chained.heapList_eq.symm.trans hlist)
  exact ⟨fl, hk⟩

/-- A run to a heap with an instance. -/
theorem run_instance : ∃ (pm : PtrMap) (tr : List (GcEvent × GcWorld)), Run GcStep ⟨gcStatic fun _ => 0, 0⟩ tr ∧
    (∀ p ∈ Run.steps ⟨gcStatic fun _ => 0, 0⟩ tr, Good p.1.gc p.2) ∧
    ⟨withInstance pm, 0⟩ ∈ Run.states ⟨gcStatic fun _ => 0, 0⟩ tr ∧
    heapList (withInstance pm).mem (2 ^ 64) 4096 = .ok [4096] := by
  obtain ⟨pm, hpm, hinstance⟩ := allocs_instance
  obtain ⟨pm₂, hpm₂, hcollect⟩ := collects_instance hpm
  obtain ⟨pm₃, -, hbox⟩ := allocs_box hpm₂
  obtain ⟨hinit, halloc, -⟩ := run_recycling hinstance hcollect hbox
  have hsmall : ¬ (started.heapBytes + headerSize + (8 + 1 * 4) % 2 ^ 64) % 2 ^ 64 > started.gcThreshold :=
    show ¬ (0 + 24 + 12) % 2 ^ 64 > 1 * 1024 * 1024 by norm_num
  refine ⟨pm, (recycling pm pm₂ pm₃).take 2, ⟨hinit, halloc, trivial⟩, fun p hp => ?_, .tail _ (.tail _ (.head _)),
    heapList_eq ⟨linkOf_eq_some.mpr ⟨rfl, by norm_num⟩, linkOf_eq_none.mpr (withInstance_header pm).2.2.1⟩ (by norm_num)⟩
  rcases List.mem_cons.mp hp with rfl | hp
  · exact ⟨fun p hp => absurd hp List.not_mem_nil, fun _ _ _ h => (nomatch h), fun _ _ _ _ h => (nomatch h)⟩
  · rw [List.mem_singleton.mp hp]
    refine good_of_no_collection (show request _ = some ((8 + 1 * 4) % 2 ^ 64, none, _) from rfl) hsmall rfl
      (show 4096 ≠ 0 by norm_num) fun _ _ _ _ h => ?_
    cases h
    norm_num

end Visuall.Gc
