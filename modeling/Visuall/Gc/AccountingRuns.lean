import Visuall.Gc.Accounting
import Visuall.Gc.Roots

/-!
# The accounts of the heap in a run

* `GcStep.balanced` — one event;
* `accounted_of_run` — in a run whose events are good, the accounts are right;
* `accounted_recycled` — in a run that takes a block from a free list whose size it does not have, they are not.
-/

namespace Visuall.Gc

open Effect

section Runs

variable {g g' g₁ : Collector} {hs : List ℕ} {h size total tag fieldCount : ℕ} {a : Answers} {w w' : GcWorld} {e : GcEvent}

/-- The result of an allocation that does not stop. -/
theorem ok_of_map_snd {x : Except Stop (ℕ × Collector)} (h : x.map Prod.snd = .ok g') : ∃ user, x = .ok (user, g') := by
  cases x with
  | error e => cases h
  | ok r =>
      cases h
      exact ⟨r.1, rfl⟩

/-- **One event.** -/
theorem GcStep.balanced (hstep : GcStep w e w') (hgood : Good w.gc e) (hb : Balanced w.gc w.survived) :
    Balanced w'.gc w'.survived := by
  obtain ⟨hpromised, heffect, hsurvived⟩ := hstep
  obtain ⟨g', s'⟩ := w'
  cases hsurvived
  cases e with
  | inits stackBottom =>
      cases heffect
      exact visuallGcInit_balanced hb stackBottom
  | allocs size tag a =>
      obtain ⟨user, hrun⟩ := ok_of_map_snd heffect
      exact visuallAlloc_balanced hb hgood hpromised hrun
  | allocsObject payload fieldCount fieldOffsets a =>
      obtain ⟨user, hrun⟩ := ok_of_map_snd heffect
      exact visuallAllocObject_balanced hb hgood hpromised hrun
  | collects sp => exact collect_balanced hb (hgood.aimed _ (List.mem_singleton_self _)) heffect
  | registers ptr =>
      cases heffect
      obtain ⟨hs, fl, hk, hthreshold⟩ := hb
      show Balanced (registerGlobal w.gc ptr) w.survived
      rw [registerGlobal]
      split
      · refine ⟨hs, fl, ⟨⟨?_, hk.counted.bytes, hk.counted.cap, hk.counted.low⟩, hk.mapped, hk.bounded⟩, hthreshold⟩
        exact hk.counted.chained.congr rfl rfl rfl rfl fun _ _ => ⟨rfl, rfl, rfl⟩
      · exact ⟨hs, fl, hk, hthreshold⟩
  | shutsDown => exact gcShutdown_balanced hb heffect
  | stores addr n v =>
      cases heffect
      exact stores_balanced hb hpromised
  | queues readyHead =>
      cases heffect
      obtain ⟨hs, fl, hk, hthreshold⟩ := hb
      refine ⟨hs, fl, ⟨⟨?_, hk.counted.bytes, hk.counted.cap, hk.counted.low⟩, hk.mapped, hk.bounded⟩, hthreshold⟩
      exact hk.counted.chained.congr rfl rfl rfl rfl fun _ _ => ⟨rfl, rfl, rfl⟩

/-- What the collector keeps says that its accounts are right. -/
theorem accounted_of_balanced (hb : Balanced w.gc w.survived) : Accounted w := by
  obtain ⟨hs, fl, hk, hthreshold⟩ := hb
  have hcap := hk.counted.cap
  have hmax : flMaxPerClass = 32768 := rfl
  refine ⟨hs, fl, {
    heap := hk.counted.chained.heapList_eq
    free := fun c => heapList_eq (hk.counted.chained.free c) ?_
    bytes := hk.counted.bytes
    counts := fun c => ⟨hk.counted.chained.counts c, ?_⟩
    apart := hk.counted.chained.not_free
    inside := hk.bounded
    guard := fun h hh p hle hlt => ?_
    threshold := hthreshold }⟩
  · have := hcap c
    omega
  · rw [hk.counted.chained.counts c]
    exact hcap c
  · obtain ⟨hlo, hhi⟩ := hk.bounded h hh
    omega

/-- In front of every collection of an event, the accounts are kept. -/
theorem collections_balanced {p : Collector × ℕ} (hgood : Good w.gc e) (hb : Balanced w.gc w.survived)
    (hp : p ∈ collections w.gc e) : ∃ s, Balanced p.1 s := by
  have hrequest : ∀ size cls a, collections w.gc e = requestCollections w.gc size cls a → ∃ s, Balanced p.1 s := by
    intro size cls a heq
    have haim := hgood.aimed
    rw [heq] at haim hp
    rw [requestCollections] at haim hp
    rcases List.mem_append.mp hp with hfirst | hsecond
    · split at hfirst
      · rw [List.mem_singleton.mp hfirst]
        exact ⟨_, hb⟩
      · cases hfirst
    · cases hfull : collectIfFull w.gc size a.sp with
      | error e =>
          rw [hfull] at hsecond
          cases hsecond
      | ok g₁ =>
          rw [hfull] at hsecond
          dsimp only at hsecond
          split at hsecond
          · rw [List.mem_singleton.mp hsecond]
            exact ⟨_, collectIfFull_balanced hb (fun q hq => haim q (List.mem_append_left _ hq)) hfull⟩
          · cases hsecond
  cases e with
  | collects sp =>
      rw [List.mem_singleton.mp hp]
      exact ⟨_, hb⟩
  | allocs size tag a => exact hrequest _ _ _ rfl
  | allocsObject payload fieldCount fieldOffsets a => exact hrequest _ _ _ rfl
  | inits | registers | shutsDown | stores | queues => cases hp

/-- **The accounts are right in every state of a run** whose events come by none of these, and no sweep subtracts more
than there is. -/
theorem accounted_of_run (mem : Mem) (tr : List (GcEvent × GcWorld)) (hrun : Run GcStep ⟨gcStatic mem, 0⟩ tr)
    (hgood : ∀ p ∈ Run.steps ⟨gcStatic mem, 0⟩ tr, Good p.1.gc p.2) :
    (∀ w ∈ Run.states ⟨gcStatic mem, 0⟩ tr, Accounted w) ∧
      ∀ p ∈ Run.steps ⟨gcStatic mem, 0⟩ tr, ∀ c ∈ collections p.1.gc p.2, NeverUnderflows c.1 c.2 := by
  have hall : ∀ w ∈ Run.states ⟨gcStatic mem, 0⟩ tr, Balanced w.gc w.survived :=
    Run.invariant (fun _ _ _ hb hG hstep => hstep.balanced hG hb) (static_balanced mem) hrun hgood
  refine ⟨fun w hw => accounted_of_balanced (hall w hw), fun p hp c hc => ?_⟩
  obtain ⟨s, hs, fl, hk, -⟩ := collections_balanced (hgood p hp) (hall p.1 (Run.mem_states_of_mem_steps hp)) hc
  exact neverUnderflows hk ((hgood p hp).aimed c hc)

/-! ### A block that is recycled -/

theorem publish_ok (hmap : Mapped g.ptrMap hs) (hh : h ∉ hs) (total : ℕ) : ∃ pm, Mapped (some pm) (h :: hs) ∧
    publish g h total = .ok (userOf h, { g with
      ptrMap := some pm
      heapLo := min g.heapLo h
      heapHi := max g.heapHi (h + total) }) := by
  obtain ⟨pm, hinsert, -⟩ := ptrMapInsert_table hmap.table hmap.large (Nat.succ_ne_zero (h + 23)) h
  have hinsert : ptrMapInsert g.ptrMap (userOf h) h = .ok pm := hinsert
  refine ⟨pm, insert_mapped hmap hh hinsert, ?_⟩
  rw [publish, hinsert]
  rfl

/-- A collection of a heap with one object, which is dead and small. -/
theorem collect_dead {sp : ℕ} {c : Fin 4} {pm : Option PtrMap} (hne : h ≠ 0) (hhead : g.heapHead = h) (hnext : nextWord g.mem h = 0)
    (hmark : markRoots g (buildChunks g.mem [h]) sp = .ok g.mem) (hunmarked : markedOf g.mem h = 0)
    (hown : ownsArray (tagOf g.mem h) = false) (hclass : flClassFor (sizeOf g.mem h) = some c)
    (hroom : g.flCounts c < flMaxPerClass) (hbytes : g.heapBytes = sizeOf g.mem h) (hrebuild : ptrMapRebuild g.ptrMap [] = .ok pm) :
    collect g sp = .ok { g with
      mem := store g.mem (nextField h) 8 (g.flHeads c)
      heapHead := 0
      heapBytes := 0
      gcThreshold := initialThreshold
      heapLo := uintptrMax
      heapHi := 0
      flHeads := Function.update g.flHeads c h
      flCounts := Function.update g.flCounts c (g.flCounts c + 1)
      ptrMap := pm } := by
  have hlist : heapList g.mem (2 ^ 64) g.heapHead = .ok [h] := by
    refine heapList_eq ⟨linkOf_eq_some.mpr ⟨hhead, hne⟩, ?_⟩ (by norm_num)
    exact linkOf_eq_none.mpr hnext
  have hdead : sweepDead g none h = { g with
      mem := store g.mem (nextField h) 8 (g.flHeads c)
      heapHead := 0
      heapBytes := 0
      flHeads := Function.update g.flHeads c h
      flCounts := Function.update g.flCounts c (g.flCounts c + 1) } := by
    have hsub : (g.heapBytes + 2 ^ 64 - sizeOf g.mem h) % 2 ^ 64 = 0 := by
      rw [hbytes, Nat.add_sub_cancel_left, Nat.mod_self]
    have hfinal : finalize { g with
        heapHead := 0
        heapBytes := 0 } h = { g with
        heapHead := 0
        heapBytes := 0 } := if_neg fun hcond => Bool.false_ne_true (hown.symm.trans hcond.1)
    rw [sweepDead, writeLink, hnext]
    dsimp only
    rw [hsub, hfinal, flPush]
    dsimp only
    rw [hclass]
    dsimp only
    rw [if_neg (not_le.mpr hroom)]
    rfl
  have hloop : sweepLoop (2 ^ 64) none g = .ok { g with
      mem := store g.mem (nextField h) 8 (g.flHeads c)
      heapHead := 0
      heapBytes := 0
      flHeads := Function.update g.flHeads c h
      flCounts := Function.update g.flCounts c (g.flCounts c + 1) } := by
    have hread : readLink g none = h := hhead
    rw [show (2 : ℕ) ^ 64 = 18446744073709551614 + 1 + 1 by norm_num, sweepLoop, hread, if_neg hne, if_neg fun hh => hh hunmarked, hdead,
      sweepLoop]
    exact if_pos rfl
  have hempty : ∀ m, heapList m (2 ^ 64) 0 = .ok [] := fun m => heapList_eq rfl (by norm_num)
  rw [collect, hlist, ok_bind, hmark, ok_bind, sweep]
  show (sweepLoop (2 ^ 64) none g >>= _) >>= _ = _
  rw [hloop, ok_bind]
  dsimp only
  rw [hempty, ok_bind, hrebuild]
  rfl

/-- The state of the counterexample behind `__visuall_gc_init`. -/
def started : Collector := visuallGcInit (gcStatic fun _ => 0) 1048576

/-- A class instance with one field. -/
def withInstance (pm : PtrMap) : Collector :=
  let g := linkHeader (recordMalloc started 4096 36) 4096 tagObject 36 1
  { g with
    mem := storeOffsets (fill g.mem 4120 8 0) 4128 [0]
    ptrMap := some pm
    heapLo := min g.heapLo 4096
    heapHi := max g.heapHi 4132 }

/-- Behind a collection, its block is on the list of the blocks of 64 bytes. -/
def withoutInstance (pm : PtrMap) : Collector :=
  let g := withInstance pm
  { g with
    mem := store g.mem (nextField 4096) 8 0
    heapHead := 0
    heapBytes := 0
    gcThreshold := initialThreshold
    heapLo := uintptrMax
    heapHi := 0
    flHeads := Function.update g.flHeads 1 4096
    flCounts := Function.update g.flCounts 1 1 }

/-- A box at the next address. -/
def withBox (pm : PtrMap) : Collector :=
  let g := linkHeader (recordMalloc (withoutInstance pm) 4144 32) 4144 tagBoxed 32 0
  { g with
    mem := fill g.mem 4168 8 0
    ptrMap := some pm
    heapLo := min g.heapLo 4144
    heapHi := max g.heapHi 4176 }

/-- A string of 40 bytes in the block of the instance. -/
def withText (pm : PtrMap) : Collector :=
  let g := linkHeader { withBox pm with
    flHeads := Function.update (withBox pm).flHeads 1 (nextWord (withBox pm).mem 4096)
    flCounts := Function.update (withBox pm).flCounts 1 0 } 4096 tagString 64 0
  { g with
    mem := fill g.mem 4120 40 0
    ptrMap := some pm
    heapLo := min g.heapLo 4096
    heapHi := max g.heapHi 4160 }

theorem stackScan_of_le {hi fuel p : ℕ} (hp : hi ≤ p) : stackScan hi fuel p = .done := by
  cases fuel with
  | zero => rfl
  | succ fuel => rw [stackScan, if_neg hp.not_gt]

/-- Where the stack has one word, a collection looks at it only. -/
theorem rootScan_oneWord : rootScan [] 1048576 1048568 0 = .load 1048568 8 fun v => .visit v .done := by
  have hready : readyScan (2 ^ 64) 0 = .done := by
    rw [show (2 : ℕ) ^ 64 = 18446744073709551615 + 1 by norm_num, readyScan, if_pos rfl]
  have hstack : markStackScan 1048576 1048568 = .load 1048568 8 fun v => .visit v .done := by
    rw [markStackScan, if_neg (by norm_num), if_pos (by norm_num), show (1048576 : ℕ) = 1048575 + 1 by norm_num, stackScan,
      if_pos (by norm_num)]
    exact congrArg (Scan.load 1048568 8) (funext fun v => congrArg (Scan.visit v) (stackScan_of_le (by norm_num)))
  show (markStackScan 1048576 1048568).andThen (readyScan (2 ^ 64) 0) = _
  rw [hstack, hready]
  rfl

theorem allocs_instance : ∃ pm, Mapped (some pm) [4096] ∧
    visuallAllocObject started 8 1 (some [0]) ⟨1048568, 4096, 0⟩ = .ok (4120, withInstance pm) := by
  let g := linkHeader (recordMalloc started 4096 36) 4096 tagObject 36 1
  obtain ⟨pm, hpm, hpublish⟩ := publish_ok (g := { g with mem := storeOffsets (fill g.mem 4120 8 0) 4128 [0] }) (h := 4096)
    mapped_emptyMap List.not_mem_nil 36
  have hfull : collectIfFull started 12 1048568 = .ok started :=
    if_neg (show ¬ (0 + 24 + 12) % 2 ^ 64 > 1 * 1024 * 1024 by norm_num)
  refine ⟨pm, hpm, ?_⟩
  rw [visuallAllocObject]
  show (collectIfFull started 12 1048568 >>= _) = _
  rw [hfull, ok_bind, if_neg (show ¬ (8 + 1 * 4) % 2 ^ 64 > 2 ^ 64 - 1 - headerSize by norm_num [headerSize])]
  have hmalloc : ∀ msg, mallocOrCollect started (headerSize + (8 + 1 * 4) % 2 ^ 64) ⟨1048568, 4096, 0⟩ msg =
      .ok (4096, recordMalloc started 4096 (headerSize + (8 + 1 * 4) % 2 ^ 64)) := fun msg => if_pos (show 4096 ≠ 0 by norm_num)
  have htotal : headerSize + (8 + 1 * 4) % 2 ^ 64 = 36 := by norm_num [headerSize]
  dsimp only
  rw [hmalloc, ok_bind, htotal, if_neg (show ¬ 36 > uint32Max by norm_num [uint32Max])]
  exact hpublish

/-- Outside of the payload and the offsets, the memory is as the header was filled in. -/
theorem withInstance_frame (pm : PtrMap) {x : ℕ} (hx : ¬ (4120 ≤ x ∧ x < 4132)) :
    (withInstance pm).mem x = (linkHeader (recordMalloc started 4096 36) 4096 tagObject 36 1).mem x := by
  show storeOffsets (fill (linkHeader (recordMalloc started 4096 36) 4096 tagObject 36 1).mem 4120 8 0) 4128 [0] x = _
  rw [storeOffsets_frame, fill_of_notMem (by omega)]
  simp only [List.length_singleton]
  omega

theorem withInstance_header (pm : PtrMap) : tagOf (withInstance pm).mem 4096 = tagObject ∧ sizeOf (withInstance pm).mem 4096 = 36 ∧
    nextWord (withInstance pm).mem 4096 = 0 ∧ markedOf (withInstance pm).mem 4096 = 0 := by
  obtain ⟨htag, hsize, hnext⟩ := linkHeader_fields (recordMalloc started 4096 36) 4096 tagObject 1 (show 36 < 2 ^ 32 by norm_num)
    (show 0 < 2 ^ 64 by norm_num)
  have hsame : ∀ a n, a + n ≤ 4120 → load (withInstance pm).mem a n =
      load (linkHeader (recordMalloc started 4096 36) 4096 tagObject 36 1).mem a n := fun a n ha =>
    load_congr fun x _ hx => withInstance_frame pm (by omega)
  refine ⟨(hsame _ _ (by norm_num)).trans htag, (hsame _ _ (by norm_num)).trans hsize, (hsame _ _ (by norm_num)).trans hnext, ?_⟩
  refine (hsame _ _ (by norm_num)).trans ?_
  show load (store (store (store (store (store _ 4097 1 0) 4098 2 0) 4100 4 36) 4104 4 1) 4112 8 0) 4097 1 = 0
  rw [load_store_of_disjoint (by omega), load_store_of_disjoint (by omega), load_store_of_disjoint (by omega),
    load_store_of_disjoint (by omega)]
  exact load_store_of_lt (by norm_num)

/-- The word of the stack holds nothing. -/
theorem load_stack (pm : PtrMap) : load (withInstance pm).mem 1048568 8 = 0 := by
  refine load_of_zero fun x hx _ => ?_
  rw [withInstance_frame pm (by omega), linkHeader_frame _ _ _ _ _ (by rw [headerSize]; omega)]
  rfl

/-- A collection there marks nothing. -/
theorem aimed_instance (pm : PtrMap) : Aimed (withInstance pm) 1048568 := by
  intro hs _
  have hroots : rootsOf (withInstance pm) 1048568 = .load 1048568 8 fun v => .visit v .done := rootScan_oneWord
  show (rootsOf (withInstance pm) 1048568).Meets _ _ _
  rw [hroots, Scan.Meets, Scan.Meets, load_stack]
  refine ⟨fun hfound => ?_, fun _ _ => trivial⟩
  obtain ⟨h, hfind⟩ := hfound
  rw [findGcHeader, if_pos rfl] at hfind
  cases hfind

theorem collects_instance {pm : PtrMap} (hpm : Mapped (some pm) [4096]) : ∃ pm', Mapped (some pm') [] ∧
    collect (withInstance pm) 1048568 = .ok (withoutInstance pm') := by
  obtain ⟨htag, hsize, hnext, hmarked⟩ := withInstance_header pm
  obtain ⟨pm', hrebuild, htable, hlarge, hload⟩ := ptrMapRebuild_table hpm.table hpm.large (show ([] : List ℕ).length * 4 ≤ _ from Nat.zero_le _)
  refine ⟨pm', ⟨htable, hlarge, hload⟩, ?_⟩
  have hmark : markRoots (withInstance pm) (buildChunks (withInstance pm).mem [4096]) 1048568 = .ok (withInstance pm).mem := by
    have hroots : rootsOf (withInstance pm) 1048568 = .load 1048568 8 fun v => .visit v .done := rootScan_oneWord
    have hfind : findGcHeader (withInstance pm) (buildChunks (withInstance pm).mem [4096]) 0 = .ok none := if_pos rfl
    rw [markRoots, hroots, Scan.run, Scan.run, load_stack, visitWord, hfind]
    rfl
  refine (collect_dead (h := 4096) (c := 1) (by norm_num) rfl hnext hmark hmarked ?_ ?_ ?_ ?_ hrebuild).trans ?_
  · rw [htag]
    decide
  · rw [hsize]
    decide
  · show 0 < 32768
    norm_num
  · rw [hsize]
    rfl
  · rfl

theorem allocs_box {pm : PtrMap} (hpm : Mapped (some pm) []) : ∃ pm', Mapped (some pm') [4144] ∧
    visuallAlloc (withoutInstance pm) 8 tagBoxed ⟨1048568, 4144, 0⟩ = .ok (4168, withBox pm') := by
  let g := linkHeader (recordMalloc (withoutInstance pm) 4144 32) 4144 tagBoxed 32 0
  obtain ⟨pm', hpm', hpublish⟩ := publish_ok (g := { g with mem := fill g.mem 4168 8 0 }) (h := 4144) hpm List.not_mem_nil 32
  have hfull : collectIfFull (withoutInstance pm) 8 1048568 = .ok (withoutInstance pm) :=
    if_neg (show ¬ (0 + 24 + 8) % 2 ^ 64 > 1 * 1024 * 1024 by norm_num)
  refine ⟨pm', hpm', ?_⟩
  exact (visuallAlloc_malloc (a := ⟨1048568, 4144, 0⟩) (c := 0) hfull (by norm_num [headerSize]) (by decide) rfl
    (show 4144 ≠ 0 by norm_num) (show ¬ 32 > 2 ^ 32 - 1 by norm_num)).trans hpublish

theorem allocs_text {pm : PtrMap} (hpm : Mapped (some pm) [4144]) : ∃ pm',
    visuallAlloc (withBox pm) 40 tagString ⟨1048568, 0, 0⟩ = .ok (4120, withText pm') := by
  let g := linkHeader { withBox pm with
    flHeads := Function.update (withBox pm).flHeads 1 (nextWord (withBox pm).mem 4096)
    flCounts := Function.update (withBox pm).flCounts 1 0 } 4096 tagString 64 0
  obtain ⟨pm', -, hpublish⟩ := publish_ok (g := { g with mem := fill g.mem 4120 40 0 }) (h := 4096) hpm (by decide) 64
  have hfull : collectIfFull (withBox pm) 40 1048568 = .ok (withBox pm) :=
    if_neg (show ¬ (0 + 32 + 24 + 40) % 2 ^ 64 > 1 * 1024 * 1024 by norm_num)
  refine ⟨pm', ?_⟩
  rw [visuallAlloc]
  show (collectIfFull (withBox pm) 40 1048568 >>= _) = _
  rw [hfull, ok_bind, if_neg (show ¬ 40 > 2 ^ 64 - 1 - headerSize by norm_num [headerSize])]
  exact hpublish

/-! ### The run that leads there -/

/-- An allocation below the threshold that `malloc` or a free list serves does not collect. -/
theorem requestCollections_nil {cls : Option (Fin 4)} (hsmall : ¬ (g.heapBytes + headerSize + size) % 2 ^ 64 > g.gcThreshold)
    (hserved : flPop g cls = none → a.malloc ≠ 0) : requestCollections g size cls a = [] := by
  rw [requestCollections, if_neg hsmall, collectIfFull, if_neg hsmall]
  exact if_neg fun h => hserved (Option.isNone_iff_eq_none.mp h.1) h.2

theorem promised_of_fresh {cls : Option (Fin 4)} (hrequest : request e = some (size, cls, a))
    (hsmall : ¬ (g.heapBytes + headerSize + size) % 2 ^ 64 > g.gcThreshold)
    (hfresh : flPop g cls = none → a.malloc ≠ 0 ∧ Fresh g a.malloc (totalOf size cls)) : Promised g e := by
  have hall : ∀ size' cls' a', request e = some (size', cls', a') → ∀ g₁, collectIfFull g size' a'.sp = .ok g₁ →
      flPop g₁ cls' = none → (a'.malloc ≠ 0 → Fresh g₁ a'.malloc (totalOf size' cls')) ∧
        (a'.malloc = 0 → ∀ g₂, collect g₁ a'.sp = .ok g₂ → a'.retry ≠ 0 → Fresh g₂ a'.retry (totalOf size' cls')) := by
    intro size' cls' a' hrequest' g₁ hfull hpop
    cases hrequest.symm.trans hrequest'
    rw [collectIfFull, if_neg hsmall] at hfull
    cases hfull
    obtain ⟨hne, hf⟩ := hfresh hpop
    exact ⟨fun _ => hf, fun hzero => absurd hzero hne⟩
  cases e with
  | allocs | allocsObject => exact hall
  | inits | collects | registers | shutsDown | stores | queues => cases hrequest

/-- An event that does not collect, and takes no block from a free list. -/
theorem good_of_no_collection {cls : Option (Fin 4)} (hrequest : request e = some (size, cls, a))
    (hsmall : ¬ (g.heapBytes + headerSize + size) % 2 ^ 64 > g.gcThreshold) (hpop : flPop g cls = none) (hmalloc : a.malloc ≠ 0)
    (hpayload : ∀ payload fieldCount fieldOffsets a, e = .allocsObject payload fieldCount fieldOffsets a →
      payload + fieldCount * 4 < 2 ^ 64) : Good g e := by
  refine ⟨fun p hp => ?_, fun size' cls' a' hrequest' g₁ hfull hdr g₂ hpop' => ?_, hpayload⟩
  · have hnil : requestCollections g size cls a = [] := requestCollections_nil hsmall fun _ => hmalloc
    cases e with
    | allocs | allocsObject =>
        cases hrequest
        have hp : p ∈ requestCollections g _ _ _ := hp
        rw [hnil] at hp
        cases hp
    | inits | collects | registers | shutsDown | stores | queues => cases hrequest
  · cases hrequest.symm.trans hrequest'
    rw [collectIfFull, if_neg hsmall] at hfull
    cases hfull
    cases hpop.symm.trans hpop'

theorem fresh_instance : Fresh started 4096 36 := ⟨by norm_num, rfl, fun b l hb => by cases hb⟩

/-- A block next to the one that is on a free list. -/
theorem fresh_box (pm : PtrMap) : Fresh (withoutInstance pm) 4144 32 := by
  have hblocks : (withoutInstance pm).blocks = Function.update (fun _ => none) 4096 (some 36) := rfl
  refine ⟨by norm_num, ?_, fun b l hb => ?_⟩
  · rw [hblocks, Function.update_of_ne (by norm_num)]
  · rw [hblocks] at hb
    by_cases hb4 : b = 4096
    · subst hb4
      rw [Function.update_self] at hb
      cases hb
      exact .inr (by norm_num)
    · rw [Function.update_of_ne hb4] at hb
      cases hb

theorem liveBytes_nil (hhead : g.heapHead = 0) : liveBytes g = 0 := by
  have hempty : heapList g.mem (2 ^ 64) 0 = .ok [] := heapList_eq rfl (by norm_num)
  rw [liveBytes, hhead, hempty]
  rfl

theorem survivors_of_collect {s sp : ℕ} (hcollect : collect g sp = .ok g') : survivors s (g, sp) = liveBytes g' := by
  rw [survivors, hcollect]

/-- The run without the string. -/
def recycling (pm₁ pm₂ pm₃ : PtrMap) : List (GcEvent × GcWorld) :=
  [(.inits 1048576, ⟨started, 0⟩),
    (.allocsObject 8 1 (some [0]) ⟨1048568, 4096, 0⟩, ⟨withInstance pm₁, 0⟩),
    (.collects 1048568, ⟨withoutInstance pm₂, 0⟩),
    (.allocs 8 tagBoxed ⟨1048568, 4144, 0⟩, ⟨withBox pm₃, 0⟩)]

theorem run_recycling {pm₁ pm₂ pm₃ : PtrMap}
    (hinstance : visuallAllocObject started 8 1 (some [0]) ⟨1048568, 4096, 0⟩ = .ok (4120, withInstance pm₁))
    (hcollect : collect (withInstance pm₁) 1048568 = .ok (withoutInstance pm₂))
    (hbox : visuallAlloc (withoutInstance pm₂) 8 tagBoxed ⟨1048568, 4144, 0⟩ = .ok (4168, withBox pm₃)) :
    Run GcStep ⟨gcStatic fun _ => 0, 0⟩ (recycling pm₁ pm₂ pm₃) := by
  have hsmall₁ : ¬ (started.heapBytes + headerSize + (8 + 1 * 4) % 2 ^ 64) % 2 ^ 64 > started.gcThreshold :=
    show ¬ (0 + 24 + 12) % 2 ^ 64 > 1 * 1024 * 1024 by norm_num
  have hsmall₂ : ¬ ((withoutInstance pm₂).heapBytes + headerSize + 8) % 2 ^ 64 > (withoutInstance pm₂).gcThreshold :=
    show ¬ (0 + 24 + 8) % 2 ^ 64 > 1 * 1024 * 1024 by norm_num
  refine ⟨⟨?_, rfl, rfl⟩, ⟨?_, ?_, ?_⟩, ⟨?_, hcollect, ?_⟩, ⟨?_, ?_, ?_⟩, trivial⟩
  · intro size cls a hrequest
    cases hrequest
  · exact promised_of_fresh rfl hsmall₁ fun _ => ⟨show 4096 ≠ 0 by norm_num, fresh_instance⟩
  · show (visuallAllocObject started 8 1 (some [0]) ⟨1048568, 4096, 0⟩).map Prod.snd = _
    rw [hinstance]
    rfl
  · show 0 = (requestCollections started ((8 + 1 * 4) % 2 ^ 64) none ⟨1048568, 4096, 0⟩).foldl survivors 0
    rw [requestCollections_nil hsmall₁ fun _ => show 4096 ≠ 0 by norm_num]
    rfl
  · intro size cls a hrequest
    cases hrequest
  · show 0 = [(withInstance pm₁, 1048568)].foldl survivors 0
    rw [List.foldl_cons, List.foldl_nil, survivors_of_collect hcollect, liveBytes_nil]
    rfl
  · exact promised_of_fresh rfl hsmall₂ fun _ => ⟨show 4144 ≠ 0 by norm_num, fresh_box pm₂⟩
  · show (visuallAlloc (withoutInstance pm₂) 8 tagBoxed ⟨1048568, 4144, 0⟩).map Prod.snd = _
    rw [hbox]
    rfl
  · show 0 = (requestCollections (withoutInstance pm₂) 8 (some 0) ⟨1048568, 4144, 0⟩).foldl survivors 0
    rw [requestCollections_nil hsmall₂ fun _ => show 4144 ≠ 0 by norm_num]
    rfl

/-- The box is the only object on the heap list. -/
theorem withBox_header (pm : PtrMap) : nextWord (withBox pm).mem 4144 = 0 := by
  obtain ⟨-, -, hnext⟩ := linkHeader_fields (recordMalloc (withoutInstance pm) 4144 32) 4144 tagBoxed 0 (show 32 < 2 ^ 32 by norm_num)
    (show 0 < 2 ^ 64 by norm_num)
  refine Eq.trans ?_ hnext
  show load (fill (linkHeader (recordMalloc (withoutInstance pm) 4144 32) 4144 tagBoxed 32 0).mem 4168 8 0) 4160 8 = _
  rw [load_fill_of_disjoint (by omega)]
  rfl

/-- The string reaches over the header of the box. -/
theorem withText_header (pm : PtrMap) : sizeOf (withText pm).mem 4096 = 64 ∧ nextWord (withText pm).mem 4096 = 4144 ∧
    sizeOf (withText pm).mem 4144 = 0 ∧ nextWord (withText pm).mem 4144 = 0 := by
  let g := { withBox pm with
    flHeads := Function.update (withBox pm).flHeads 1 (nextWord (withBox pm).mem 4096)
    flCounts := Function.update (withBox pm).flCounts 1 0 }
  obtain ⟨-, hsize, hnext⟩ := linkHeader_fields g 4096 tagString 0 (show 64 < 2 ^ 32 by norm_num) (show 4144 < 2 ^ 64 by norm_num)
  have hmem : (withText pm).mem = fill (linkHeader g 4096 tagString 64 0).mem 4120 40 0 := rfl
  refine ⟨?_, ?_, ?_, ?_⟩
  · rw [hmem]
    show load (fill _ 4120 40 0) 4100 4 = 64
    rw [load_fill_of_disjoint (by omega)]
    exact hsize
  · rw [hmem]
    show load (fill _ 4120 40 0) 4112 8 = 4144
    rw [load_fill_of_disjoint (by omega)]
    exact hnext
  · refine load_of_zero fun x hx hx' => ?_
    rw [hmem]
    exact if_pos ⟨by omega, by omega⟩
  · refine Eq.trans ?_ (withBox_header pm)
    refine load_congr fun x (hx : 4160 ≤ x) hx' => ?_
    rw [hmem, fill_of_notMem (by omega), linkHeader_frame _ _ _ _ _ (by rw [headerSize]; omega)]

/-- When the string takes the block of the instance, it writes over the header of the box: the bytes of the heap are no
longer those of the objects. -/
theorem accounted_recycled : ¬ ∀ (mem : Mem) (tr : List (GcEvent × GcWorld)), Run GcStep ⟨gcStatic mem, 0⟩ tr →
    ∀ w ∈ Run.states ⟨gcStatic mem, 0⟩ tr, Accounted w := by
  intro hall
  obtain ⟨pm₁, hpm₁, hinstance⟩ := allocs_instance
  obtain ⟨pm₂, hpm₂, hcollect⟩ := collects_instance hpm₁
  obtain ⟨pm₃, hpm₃, hbox⟩ := allocs_box hpm₂
  obtain ⟨pm₄, htext⟩ := allocs_text hpm₃
  have hsmall : ¬ ((withBox pm₃).heapBytes + headerSize + 40) % 2 ^ 64 > (withBox pm₃).gcThreshold :=
    show ¬ (0 + 32 + 24 + 40) % 2 ^ 64 > 1 * 1024 * 1024 by norm_num
  have hserved : ¬ flPop (withBox pm₃) (some 1) = none := by
    intro hpop
    have hpop : (if (4096 : ℕ) = 0 then none else _) = none := hpop
    rw [if_neg (by norm_num)] at hpop
    cases hpop
  have hstep : GcStep ⟨withBox pm₃, 0⟩ (.allocs 40 tagString ⟨1048568, 0, 0⟩) ⟨withText pm₄, 0⟩ := by
    refine ⟨promised_of_fresh rfl hsmall fun hpop => absurd hpop hserved, ?_, ?_⟩
    · show (visuallAlloc (withBox pm₃) 40 tagString ⟨1048568, 0, 0⟩).map Prod.snd = _
      rw [htext]
      rfl
    · show 0 = (requestCollections (withBox pm₃) 40 (some 1) ⟨1048568, 0, 0⟩).foldl survivors 0
      rw [requestCollections_nil hsmall fun hpop => absurd hpop hserved]
      rfl
  obtain ⟨hinits, hallocs, hcollects, hboxes, -⟩ := run_recycling hinstance hcollect hbox
  have hlast : (⟨withText pm₄, 0⟩ : GcWorld) ∈ Run.states ⟨gcStatic fun _ => 0, 0⟩ (recycling pm₁ pm₂ pm₃ ++
      [(.allocs 40 tagString ⟨1048568, 0, 0⟩, ⟨withText pm₄, 0⟩)]) :=
    List.mem_cons_of_mem _ (List.mem_cons_of_mem _ (List.mem_cons_of_mem _ (List.mem_cons_of_mem _ (List.mem_cons_of_mem _
      (List.mem_singleton_self _)))))
  have hrun : Run GcStep ⟨gcStatic fun _ => 0, 0⟩ (recycling pm₁ pm₂ pm₃ ++
      [(.allocs 40 tagString ⟨1048568, 0, 0⟩, ⟨withText pm₄, 0⟩)]) := ⟨hinits, hallocs, hcollects, hboxes, hstep, trivial⟩
  obtain ⟨hs, fl, haccounts⟩ := hall _ _ hrun _ hlast
  obtain ⟨hsize, hnext, hsize', hnext'⟩ := withText_header pm₄
  have hlist : heapList (withText pm₄).mem (2 ^ 64) (withText pm₄).heapHead = .ok [4096, 4144] := by
    refine heapList_eq ⟨linkOf_eq_some.mpr ⟨rfl, by norm_num⟩, linkOf_eq_some.mpr ⟨hnext, by norm_num⟩, ?_⟩ (by norm_num)
    exact linkOf_eq_none.mpr hnext'
  cases haccounts.heap.symm.trans hlist
  have hbytes : 96 = sizes (withText pm₄).mem [4096, 4144] := haccounts.bytes
  rw [sizes_cons, sizes_cons, hsize, hsize'] at hbytes
  have hnil : sizes (withText pm₄).mem [] = 0 := rfl
  omega

/-- The run without the string comes by none of these. -/
theorem accounted_of_run_instance : ∃ tr : List (GcEvent × GcWorld), tr.length = 4 ∧
    ∀ w ∈ Run.states ⟨gcStatic fun _ => 0, 0⟩ tr, Accounted w := by
  obtain ⟨pm₁, hpm₁, hinstance⟩ := allocs_instance
  obtain ⟨pm₂, hpm₂, hcollect⟩ := collects_instance hpm₁
  obtain ⟨pm₃, hpm₃, hbox⟩ := allocs_box hpm₂
  refine ⟨recycling pm₁ pm₂ pm₃, rfl, (accounted_of_run (fun _ => 0) _ (run_recycling hinstance hcollect hbox) ?_).1⟩
  have hsmall₁ : ¬ (started.heapBytes + headerSize + (8 + 1 * 4) % 2 ^ 64) % 2 ^ 64 > started.gcThreshold :=
    show ¬ (0 + 24 + 12) % 2 ^ 64 > 1 * 1024 * 1024 by norm_num
  have hsmall₂ : ¬ ((withoutInstance pm₂).heapBytes + headerSize + 8) % 2 ^ 64 > (withoutInstance pm₂).gcThreshold :=
    show ¬ (0 + 24 + 8) % 2 ^ 64 > 1 * 1024 * 1024 by norm_num
  intro p hp
  rcases List.mem_cons.mp hp with rfl | hp
  · refine ⟨fun p hp => absurd hp List.not_mem_nil, fun _ _ _ h => ?_, fun _ _ _ _ h => ?_⟩
    · cases h
    · cases h
  rcases List.mem_cons.mp hp with rfl | hp
  · refine good_of_no_collection rfl hsmall₁ rfl (show 4096 ≠ 0 by norm_num) fun _ _ _ _ h => ?_
    cases h
    norm_num
  rcases List.mem_cons.mp hp with rfl | hp
  · refine ⟨fun p hp => ?_, fun _ _ _ h => ?_, fun _ _ _ _ h => ?_⟩
    · rw [List.mem_singleton.mp hp]
      exact aimed_instance pm₁
    · cases h
    · cases h
  · rw [List.mem_singleton.mp hp]
    exact good_of_no_collection (show request _ = some (8, some 0, _) from rfl) hsmall₂ rfl (show 4144 ≠ 0 by norm_num) fun _ _ _ _ h => by cases h

end Runs

end Visuall.Gc
