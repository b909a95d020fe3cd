import Visuall.Gc.Blocks
import Visuall.Lib.Effect
import Visuall.Lib.Rooted
import Visuall.Lib.Run

/-!
# Roots of compiled programs

Where a compiled program and the runtime keep pointers to objects, and which of these places `mark_roots` looks at.

* `World` — a program with its threads, and the collector; `Step` — what happens to it;
* `sources`, `scanned` — the words the program can go on from, and those that `mark_roots` goes on from;
* `Covered` — what the claim asks for; `Held`, `covered_iff` — when it is so, in every state that a run reaches.
-/

namespace Visuall.Gc

open Visuall.Rooted

/-! ### A program that runs -/

/-- Where a local of an active call is. -/
inductive Place
  | slot (addr : ℕ)
  | register (word : ℕ)

/-- The word in a place. -/
def Place.word (m : Mem) : Place → ℕ
  | slot addr => load m addr 8
  | register word => word

/-- A thread: its stack pointer, and the locals of its active calls. -/
structure Thread where
  sp : ℕ
  locals : List Place

/-- A compiled program: the collector with the memory, the LLVM globals of the module-level variables, the registered
threads, the main thread being the first, the addresses of the exceptions in flight or being handled, and the address of
the static `__visuall_sys_args`. -/
structure World where
  gc : Collector
  moduleVars : List ℕ
  threads : List Thread
  exceptions : List ℕ
  sysArgs : ℕ

/-- `__visuall_gc_register_thread`. -/
def gcRegisterThread (g : Collector) : Collector := g

/-- `__visuall_exception_new`: the message is the first field. -/
def exceptionNew (m : Mem) (buf msg : ℕ) : Mem := store m buf 8 msg

def sizeOfVisualList : ℕ := 24

/-- What happens in a program that has roots. -/
inductive Event
  /-- A store of the program or of the runtime. -/
  | stores (addr n v : ℕ)
  /-- Thread `i` calls, returns or assigns to locals. -/
  | moves (i : ℕ) (thread : Thread)
  | spawns (thread : Thread)
  | ends (i : ℕ)
  | allocs (size tag : ℕ) (a : Answers)
  | allocsObject (payload fieldCount : ℕ) (fieldOffsets : Option (List ℕ)) (a : Answers)
  | collects (sp : ℕ)
  /-- The scheduler changes its ready queue. -/
  | queues (readyHead : ℕ)
  /-- `__visuall_exception_new` or `__visuall_exception_new_typed`. -/
  | throws (buf msg : ℕ)
  /-- The exception is freed, behind its handler. -/
  | caught (buf : ℕ)
  /-- The first call of `__visuall_sys_get_args`. -/
  | getArgs (a : Answers)

/-- One event. -/
inductive Step : World → Event → World → Prop
  | stores {w addr n v} : Step w (.stores addr n v) { w with gc := { w.gc with mem := store w.gc.mem addr n v } }
  | moves {w i thread} : i < w.threads.length →
      Step w (.moves i thread) { w with threads := w.threads.set i thread }
  | spawns {w thread} :
      Step w (.spawns thread) { w with gc := gcRegisterThread w.gc, threads := w.threads ++ [thread] }
  | ends {w i} : Step w (.ends i) { w with threads := w.threads.eraseIdx i }
  | allocs {w size tag a user g} : visuallAlloc w.gc size tag a = .ok (user, g) →
      Step w (.allocs size tag a) { w with gc := g }
  | allocsObject {w payload fieldCount fieldOffsets a user g} :
      visuallAllocObject w.gc payload fieldCount fieldOffsets a = .ok (user, g) →
      Step w (.allocsObject payload fieldCount fieldOffsets a) { w with gc := g }
  | collects {w sp g} : collect w.gc sp = .ok g → Step w (.collects sp) { w with gc := g }
  | queues {w readyHead} : Step w (.queues readyHead) { w with gc := { w.gc with readyHead := readyHead } }
  | throws {w buf msg} : Step w (.throws buf msg) { w with
      gc := { w.gc with mem := exceptionNew w.gc.mem buf msg }
      exceptions := buf :: w.exceptions }
  | caught {w buf} : Step w (.caught buf) { w with exceptions := w.exceptions.erase buf }
  | getArgs {w a user g} : load w.gc.mem w.sysArgs 8 = 0 →
      visuallAlloc w.gc sizeOfVisualList tagList a = .ok (user, g) →
      Step w (.getArgs a) { w with gc := { g with mem := store g.mem w.sysArgs 8 user } }

/-- A program behind `__visuall_gc_init`, in its main thread. -/
def World.start (mem : Mem) (stackBottom : ℕ) (moduleVars : List ℕ) (main : Thread) (sysArgs : ℕ) : World where
  gc := gcInit mem stackBottom 0
  moduleVars := moduleVars
  threads := [main]
  exceptions := []
  sysArgs := sysArgs

/-! ### Objects -/

/-- A word names an object, as `find_gc_header` resolves it during a collection. -/
def Names (g : Collector) (w h : ℕ) : Prop :=
  ∃ hs, heapList g.mem (2 ^ 64) g.heapHead = .ok hs ∧ findGcHeader g (buildChunks g.mem hs) w = .ok (some h)

/-- An object refers to another one by a word that `mark_internal` follows. -/
def Refers (g : Collector) (h h' : ℕ) : Prop := ∃ w, (objectScan h (userOf h)).Visits g.mem w ∧ Names g w h'

/-- The words that the program can go on from. -/
def sources (w : World) : Set ℕ := fun v =>
  (∃ a ∈ w.moduleVars, load w.gc.mem a 8 = v) ∨ load w.gc.mem w.sysArgs 8 = v ∨
    (∃ buf ∈ w.exceptions, load w.gc.mem buf 8 = v) ∨ ∃ thread ∈ w.threads, ∃ p ∈ thread.locals, p.word w.gc.mem = v

/-- The words that `mark_roots` goes on from, when the collection runs in a thread. -/
def scanned (w : World) (thread : Thread) : Set ℕ := fun v => (rootsOf w.gc thread.sp).Visits w.gc.mem v

/-- **The roots cover what the program can reach**, in a collection that runs in the thread. -/
def Covered (w : World) (thread : Thread) : Prop :=
  ∀ h, Reached (Names w.gc) (Refers w.gc) (sources w) h → Reached (Names w.gc) (Refers w.gc) (scanned w thread) h

/-- The slots from the stack pointer of the thread to the anchor in the frame of `main`, whichever is lower. -/
def OnScannedStack (w : World) (thread : Thread) (addr : ℕ) : Prop :=
  w.gc.stackBottom ≠ 0 ∧
    ∃ k, addr = min thread.sp w.gc.stackBottom + 8 * k ∧ addr < max thread.sp w.gc.stackBottom

/-- The words in these slots, and the tasks of the ready queue. -/
def kept (w : World) (thread : Thread) : Set ℕ := fun v =>
  (∃ addr, OnScannedStack w thread addr ∧ load w.gc.mem addr 8 = v) ∨
    (readyScan (2 ^ 64) w.gc.readyHead).Visits w.gc.mem v

/-- A word names nothing, or an object that is reached from these words, too. -/
def Safe (w : World) (thread : Thread) (v : ℕ) : Prop :=
  ∀ h, Names w.gc v h → Reached (Names w.gc) (Refers w.gc) (kept w thread) h

/-- A place of a local that is not among the slots. -/
def Missed (w : World) (thread : Thread) : Place → Prop
  | .slot addr => ¬ OnScannedStack w thread addr
  | .register _ => True

/-- **The condition**, on the places that hold pointers and are not looked at. -/
structure Held (w : World) (thread : Thread) : Prop where
  moduleVars : ∀ a ∈ w.moduleVars, Safe w thread (load w.gc.mem a 8)
  sysArgs : Safe w thread (load w.gc.mem w.sysArgs 8)
  messages : ∀ buf ∈ w.exceptions, Safe w thread (load w.gc.mem buf 8)
  locals : ∀ t ∈ w.threads, ∀ p ∈ t.locals, Missed w thread p → Safe w thread (p.word w.gc.mem)

/-! ### Nothing is registered -/

variable {w w' : World} {thread : Thread} {g g' : Collector} {m : Mem} {hdr v : ℕ}

/-- The roots that are registered, and the anchor, stay the same. -/
def SameRoots (g g' : Collector) : Prop := g'.globalRoots = g.globalRoots ∧ g'.stackBottom = g.stackBottom

namespace SameRoots

variable {g'' : Collector} {pp : Option ℕ} {a : Answers} {r : ℕ × Collector}

theorem refl (g : Collector) : SameRoots g g := ⟨rfl, rfl⟩

theorem trans (h : SameRoots g g') (h' : SameRoots g' g'') : SameRoots g g'' :=
  ⟨h'.1.trans h.1, h'.2.trans h.2⟩

theorem writeLink (h : ℕ) (pp : Option ℕ) : SameRoots g (Gc.writeLink g h pp) := by
  cases pp <;> exact ⟨rfl, rfl⟩

theorem finalize : SameRoots g (Gc.finalize g hdr) := by
  rw [Gc.finalize]
  split
  · exact ⟨rfl, rfl⟩
  · exact refl g

theorem flPush (h : Gc.flPush g hdr = some g') : SameRoots g g' := by
  rw [Gc.flPush] at h
  split at h
  · cases h
  · split at h
    · cases h
    · cases h
      exact ⟨rfl, rfl⟩

theorem sweepDead : SameRoots g (Gc.sweepDead g pp hdr) := by
  have hlink : SameRoots g (Gc.writeLink g (nextWord g.mem hdr) pp) := writeLink _ pp
  let g₁ : Collector :=
    { Gc.writeLink g (nextWord g.mem hdr) pp with
      heapBytes := ((Gc.writeLink g (nextWord g.mem hdr) pp).heapBytes + 2 ^ 64 -
        sizeOf (Gc.writeLink g (nextWord g.mem hdr) pp).mem hdr) % 2 ^ 64 }
  have hcounted : SameRoots g g₁ := ⟨hlink.1, hlink.2⟩
  have hfinal : SameRoots g (Gc.finalize g₁ hdr) := hcounted.trans finalize
  show SameRoots g ((Gc.flPush (Gc.finalize g₁ hdr) hdr).getD (recordFree (Gc.finalize g₁ hdr) hdr))
  cases hpush : Gc.flPush (Gc.finalize g₁ hdr) hdr with
  | none => exact ⟨hfinal.1, hfinal.2⟩
  | some g₂ => exact hfinal.trans (flPush hpush)

theorem sweepLoop (fuel : ℕ) (pp : Option ℕ) (g : Collector) (h : Gc.sweepLoop fuel pp g = .ok g') :
    SameRoots g g' := by
  induction fuel generalizing pp g with
  | zero => cases h
  | succ fuel ih =>
    rw [Gc.sweepLoop] at h
    by_cases hend : readLink g pp = 0
    · simp only [hend, if_true] at h
      cases h
      exact refl _
    · simp only [hend, if_false] at h
      by_cases hmarked : markedOf g.mem (readLink g pp) ≠ 0
      · rw [if_pos hmarked] at h
        have hrest := ih _ _ h
        exact ⟨hrest.1, hrest.2⟩
      · rw [if_neg hmarked] at h
        exact sweepDead.trans (ih _ _ h)

theorem sweep (h : Gc.sweep g = .ok g') : SameRoots g g' := by
  obtain ⟨g₁, hloop, hrest⟩ := Effect.ok_of_bind h
  obtain ⟨hs, _, hrest⟩ := Effect.ok_of_bind hrest
  obtain ⟨ptrMap, _, hend⟩ := Effect.ok_of_bind hrest
  cases hend
  have hkept := sweepLoop _ _ _ hloop
  exact ⟨hkept.1, hkept.2⟩

theorem collect {sp : ℕ} (h : Gc.collect g sp = .ok g') : SameRoots g g' := by
  obtain ⟨hs, _, hrest⟩ := Effect.ok_of_bind h
  obtain ⟨mem, _, hrest⟩ := Effect.ok_of_bind hrest
  obtain ⟨g₁, hsweep, hend⟩ := Effect.ok_of_bind hrest
  cases hend
  have hkept := sweep hsweep
  exact ⟨hkept.1, hkept.2⟩

theorem collectIfFull {size sp : ℕ} (h : Gc.collectIfFull g size sp = .ok g') : SameRoots g g' := by
  rw [Gc.collectIfFull] at h
  split at h
  · exact collect h
  · cases h
    exact refl g

theorem mallocOrCollect {total : ℕ} {msg : String} (h : Gc.mallocOrCollect g total a msg = .ok r) :
    SameRoots g r.2 := by
  rw [Gc.mallocOrCollect] at h
  split at h
  · cases h
    exact ⟨rfl, rfl⟩
  · obtain ⟨g₁, hcollect, hend⟩ := Effect.ok_of_bind h
    split at hend
    · cases hend
      have hkept := collect hcollect
      exact ⟨hkept.1, hkept.2⟩
    · cases hend

theorem flPop {cls : Option (Fin 4)} (h : Gc.flPop g cls = some r) : SameRoots g r.2 := by
  cases cls with
  | none => cases h
  | some c =>
    by_cases hhead : g.flHeads c = 0
    · simp [Gc.flPop, hhead] at h
    · simp only [Gc.flPop, hhead, if_false] at h
      cases h
      exact ⟨rfl, rfl⟩

theorem publish {total : ℕ} (h : Gc.publish g hdr total = .ok r) : SameRoots g r.2 := by
  obtain ⟨ptrMap, _, hend⟩ := Effect.ok_of_bind h
  cases hend
  exact ⟨rfl, rfl⟩

/-- What follows the block in an allocation. -/
theorem linkAndPublish {total tag fieldCount : ℕ} {mem : Mem}
    (h : (if total > uint32Max then .error (.exit (tooLargeMsg total))
      else Gc.publish { linkHeader g hdr tag total fieldCount with mem := mem } hdr total) = .ok r) :
    SameRoots g r.2 := by
  split at h
  · cases h
  · have hkept := publish h
    exact ⟨hkept.1, hkept.2⟩

theorem visuallAlloc {size tag user : ℕ} (h : Gc.visuallAlloc g size tag a = .ok (user, g')) : SameRoots g g' := by
  obtain ⟨g₁, hfull, hrest⟩ := Effect.ok_of_bind h
  refine (collectIfFull hfull).trans ?_
  split at hrest
  · cases hrest
  · cases hpop : Gc.flPop g₁ (flClassFor (headerSize + size)) with
    | some popped =>
      simp only [hpop] at hrest
      exact (flPop hpop).trans (linkAndPublish hrest)
    | none =>
      simp only [hpop] at hrest
      obtain ⟨popped, hmalloc, hend⟩ := Effect.ok_of_bind hrest
      exact (mallocOrCollect hmalloc).trans (linkAndPublish hend)

theorem visuallAllocObject {payload fieldCount user : ℕ} {fieldOffsets : Option (List ℕ)}
    (h : Gc.visuallAllocObject g payload fieldCount fieldOffsets a = .ok (user, g')) : SameRoots g g' := by
  obtain ⟨g₁, hfull, hrest⟩ := Effect.ok_of_bind h
  refine (collectIfFull hfull).trans ?_
  split at hrest
  · cases hrest
  · dsimp only at hrest
    split at hrest
    · cases hrest
    · obtain ⟨popped, hmalloc, hend⟩ := Effect.ok_of_bind hrest
      have hkept := publish hend
      exact (mallocOrCollect hmalloc).trans ⟨hkept.1, hkept.2⟩

end SameRoots

/-- **One event keeps the registered roots and the anchor**: `__visuall_register_global` is called nowhere. -/
theorem Step.sameRoots {e : Event} (h : Step w e w') : SameRoots w.gc w'.gc := by
  cases h with
  | allocs halloc => exact .visuallAlloc halloc
  | allocsObject halloc => exact .visuallAllocObject halloc
  | collects hcollect => exact .collect hcollect
  | getArgs _ halloc =>
    have hkept := SameRoots.visuallAlloc halloc
    exact ⟨hkept.1, hkept.2⟩
  | _ => exact ⟨rfl, rfl⟩

/-- **No global is ever registered.** -/
theorem globalRoots_eq_nil {mem : Mem} {stackBottom sysArgs : ℕ} {moduleVars : List ℕ} {main : Thread}
    {tr : List (Event × World)} (hrun : Run Step (.start mem stackBottom moduleVars main sysArgs) tr)
    (hw : w ∈ Run.states (.start mem stackBottom moduleVars main sysArgs) tr) : w.gc.globalRoots = [] := by
  refine Run.invariant (I := fun w => w.gc.globalRoots = []) (G := fun _ _ => True) ?_ rfl hrun (fun _ _ => trivial) w hw
  intro w e w' hnil _ hstep
  rw [hstep.sameRoots.1]
  exact hnil

/-! ### What is looked at -/

theorem stackScan_visits {hi fuel p : ℕ} (hfuel : hi ≤ p + 8 * fuel) :
    (stackScan hi fuel p).Visits m v ↔ ∃ k, p + 8 * k < hi ∧ load m (p + 8 * k) 8 = v := by
  induction fuel generalizing p with
  | zero =>
    refine iff_of_false id ?_
    intro h
    obtain ⟨k, hk, _⟩ := h
    omega
  | succ fuel ih =>
    rw [stackScan]
    by_cases hp : p < hi
    · rw [if_pos hp]
      show load m p 8 = v ∨ (stackScan hi fuel (p + 8)).Visits m v ↔ _
      rw [ih (by omega)]
      constructor
      · intro h
        rcases h with hfirst | ⟨k, hk, hload⟩
        · exact ⟨0, hp, hfirst⟩
        · refine ⟨k + 1, by omega, ?_⟩
          rw [show p + 8 * (k + 1) = p + 8 + 8 * k by ring]
          exact hload
      · intro h
        obtain ⟨k, hk, hload⟩ := h
        cases k with
        | zero => exact .inl hload
        | succ k =>
          refine .inr ⟨k, by omega, ?_⟩
          rw [show p + 8 + 8 * k = p + 8 * (k + 1) by ring]
          exact hload
    · rw [if_neg hp]
      refine iff_of_false id ?_
      intro h
      obtain ⟨k, hk, _⟩ := h
      omega

theorem stackScan_ends (hi fuel p : ℕ) : ∃ ws, (stackScan hi fuel p).words m = some ws := by
  induction fuel generalizing p with
  | zero => exact ⟨[], rfl⟩
  | succ fuel ih =>
    rw [stackScan]
    by_cases hp : p < hi
    · obtain ⟨ws, hws⟩ := ih (p + 8)
      rw [if_pos hp]
      refine ⟨load m p 8 :: ws, ?_⟩
      show ((stackScan hi fuel (p + 8)).words m).map _ = _
      rw [hws]
      rfl
    · rw [if_neg hp]
      exact ⟨[], rfl⟩

theorem markStackScan_ends (stackBottom sp : ℕ) : ∃ ws, (markStackScan stackBottom sp).words m = some ws := by
  rw [markStackScan]
  split
  · exact ⟨[], rfl⟩
  · split
    · exact stackScan_ends _ _ _
    · exact stackScan_ends _ _ _

theorem markStackScan_visits : (markStackScan w.gc.stackBottom thread.sp).Visits w.gc.mem v ↔
    ∃ addr, OnScannedStack w thread addr ∧ load w.gc.mem addr 8 = v := by
  have hslots : (∃ addr, OnScannedStack w thread addr ∧ load w.gc.mem addr 8 = v) ↔
      w.gc.stackBottom ≠ 0 ∧ ∃ k, min thread.sp w.gc.stackBottom + 8 * k < max thread.sp w.gc.stackBottom ∧
        load w.gc.mem (min thread.sp w.gc.stackBottom + 8 * k) 8 = v := by
    constructor
    · intro h
      obtain ⟨_, ⟨hset, k, rfl, hlt⟩, hload⟩ := h
      exact ⟨hset, k, hlt, hload⟩
    · intro h
      obtain ⟨hset, k, hlt, hload⟩ := h
      exact ⟨_, ⟨hset, k, rfl, hlt⟩, hload⟩
  rw [hslots, markStackScan]
  by_cases hset : w.gc.stackBottom = 0
  · rw [if_pos hset]
    exact iff_of_false id fun h => h.1 hset
  · rw [if_neg hset]
    by_cases hbelow : thread.sp < w.gc.stackBottom
    · rw [if_pos hbelow, stackScan_visits (by omega), min_eq_left hbelow.le, max_eq_right hbelow.le]
      exact (and_iff_right hset).symm
    · have hle := le_of_not_gt hbelow
      rw [if_neg hbelow, stackScan_visits (by omega), min_eq_right hle, max_eq_left hle]
      exact (and_iff_right hset).symm

/-- **What a collection looks at**, when no global is registered. -/
theorem scanned_eq_kept (hnil : w.gc.globalRoots = []) : scanned w thread = kept w thread := by
  ext v
  obtain ⟨ws, hws⟩ := markStackScan_ends (m := w.gc.mem) w.gc.stackBottom thread.sp
  show (rootScan w.gc.globalRoots w.gc.stackBottom thread.sp w.gc.readyHead).Visits w.gc.mem v ↔ _
  rw [hnil]
  show ((markStackScan w.gc.stackBottom thread.sp).andThen _).Visits w.gc.mem v ↔ _
  rw [Scan.visits_andThen hws, markStackScan_visits]
  exact Iff.rfl

/-! ### The result -/

/-- A program with the module-level variable at 2048, whose main thread has two slots below the anchor at 4096. -/
def oneVariable : World := .start (fun _ => 0) 4096 [2048] ⟨4080, [.slot 4080, .slot 4088]⟩ 3000

/-- The collector when the program has allocated a string at 512. -/
def withString (pm : PtrMap) : Collector :=
  let g := linkHeader (recordMalloc oneVariable.gc 512 32) 512 tagString 32 0
  { g with mem := fill g.mem 536 8 0, ptrMap := some pm, heapLo := min g.heapLo 512, heapHi := max g.heapHi 544 }

/-- An allocation that `malloc` serves. -/
theorem visuallAlloc_malloc {size tag : ℕ} {a : Answers} {c : Fin 4} (hfull : collectIfFull g size a.sp = .ok g)
    (hsize : ¬ size > 2 ^ 64 - 1 - headerSize) (hclass : flClassFor (headerSize + size) = some c)
    (hempty : g.flHeads c = 0) (hmalloc : a.malloc ≠ 0) (htotal : ¬ flClassSize c > uint32Max) :
    visuallAlloc g size tag a = publish
      { linkHeader (recordMalloc g a.malloc (flClassSize c)) a.malloc tag (flClassSize c) 0 with
        mem := fill (linkHeader (recordMalloc g a.malloc (flClassSize c)) a.malloc tag (flClassSize c) 0).mem
          (userOf a.malloc) size 0 } a.malloc (flClassSize c) := by
  rw [visuallAlloc, hfull]
  show (if size > 2 ^ 64 - 1 - headerSize then _ else _) = _
  rw [if_neg hsize]
  have hpop : flPop g (some c) = none := if_pos hempty
  simp only [hclass, hpop, mallocOrCollect, if_pos hmalloc]
  show (if flClassSize c > uint32Max then _ else _) = _
  rw [if_neg htotal]
  rfl

theorem alloc_string : ∃ pm, MapOk (some pm) [512] ∧
    visuallAlloc oneVariable.gc 8 tagString ⟨4080, 512, 0⟩ = .ok (536, withString pm) := by
  have hempty : MapOk (some (emptyMap ptrMapInitCap)) [] :=
    ⟨emptyMap_holds (k := 10) rfl, le_rfl, fun h => by cases h⟩
  obtain ⟨pm, hinsert, hpm⟩ := ptrMapInsert_holds hempty (h := 512) List.not_mem_nil
  have hfull : collectIfFull oneVariable.gc 8 4080 = .ok oneVariable.gc :=
    if_neg (show ¬ (0 + 24 + 8) % 2 ^ 64 > 1 * 1024 * 1024 by norm_num)
  refine ⟨pm, hpm, ?_⟩
  rw [visuallAlloc_malloc (c := 0) hfull (by norm_num [headerSize]) (by decide) rfl
    (show 512 ≠ 0 by norm_num) (show ¬ 32 > 2 ^ 32 - 1 by norm_num), publish]
  show (ptrMapInsert (some (emptyMap ptrMapInitCap)) (512 + headerSize) 512 >>= _) = _
  rw [hinsert]
  rfl

/-- The program when the variable holds the string, and a slot of `main` holds `word`. -/
def assigned (pm : PtrMap) (word : ℕ) : World :=
  { oneVariable with
    gc := { withString pm with mem := store (store (withString pm).mem 2048 8 536) 4080 8 word } }

/-- The run that leads there. -/
def assigning (pm : PtrMap) (word : ℕ) : List (Event × World) :=
  [(.allocs 8 tagString ⟨4080, 512, 0⟩, { oneVariable with gc := withString pm }),
    (.stores 2048 8 536, { oneVariable with gc := { withString pm with mem := store (withString pm).mem 2048 8 536 } }),
    (.stores 4080 8 word, assigned pm word)]

theorem run_assigning {pm : PtrMap} (word : ℕ)
    (halloc : visuallAlloc oneVariable.gc 8 tagString ⟨4080, 512, 0⟩ = .ok (536, withString pm)) :
    Run Step oneVariable (assigning pm word) ∧ assigned pm word ∈ Run.states oneVariable (assigning pm word) := by
  refine ⟨⟨.allocs halloc, .stores, .stores, trivial⟩, ?_⟩
  exact List.mem_cons_of_mem _ (List.mem_cons_of_mem _ (List.mem_cons_of_mem _ (Run.mem_states_self _ _)))

theorem not_names_zero {g : Collector} {h : ℕ} : ¬ Names g 0 h := by
  intro hname
  obtain ⟨hs, _, hfind⟩ := hname
  rw [findGcHeader, if_pos rfl] at hfind
  cases hfind

theorem nextWord_string (pm : PtrMap) (word : ℕ) : nextWord (assigned pm word).gc.mem 512 = 0 := by
  show load (store (store (fill (store _ 528 8 0) 536 8 0) 2048 8 536) 4080 8 word) 528 8 = 0
  rw [load_store_of_disjoint (by omega), load_store_of_disjoint (by omega), load_fill_of_disjoint (by omega)]
  exact load_store_of_lt (by norm_num)

/-- The string is found by its pointer. -/
theorem names_string {pm : PtrMap} (hpm : MapOk (some pm) [512]) (word : ℕ) : Names (assigned pm word).gc 536 512 := by
  refine ⟨[512], heapList_eq (show _ ∧ _ from ⟨rfl, ?_⟩) (by norm_num), ?_⟩
  · exact linkOf_eq_none.mpr (nextWord_string pm word)
  · have hlookup : ptrMapLookup (some pm) 536 = .ok (some 512) := ptrMapLookup_user hpm (List.mem_singleton_self 512)
    rw [findGcHeader, if_neg (by norm_num)]
    show (ptrMapLookup (some pm) 536 >>= _) = _
    rw [hlookup]
    rfl

/-- Nothing is stored behind the string. -/
theorem load_withString (pm : PtrMap) {a : ℕ} (ha : 544 ≤ a) : load (withString pm).mem a 8 = 0 := by
  refine load_of_zero fun x hx _ => ?_
  show fill (store (store (store (store (store (store _ 512 1 _) 513 1 _) 514 2 _) 516 4 _) 520 4 _) 528 8 _) 536 8 0 x = 0
  rw [fill_of_notMem (by omega), store_of_notMem (by omega), store_of_notMem (by omega), store_of_notMem (by omega),
    store_of_notMem (by omega), store_of_notMem (by omega), store_of_notMem (by omega)]
  rfl

theorem load_assigned (pm : PtrMap) (word : ℕ) {a : ℕ} (ha : a = 3000 ∨ a = 4088) :
    load (assigned pm word).gc.mem a 8 = 0 := by
  show load (store (store (withString pm).mem 2048 8 536) 4080 8 word) a 8 = 0
  rw [load_store_of_disjoint (by omega), load_store_of_disjoint (by omega)]
  exact load_withString pm (by omega)

theorem load_variable (pm : PtrMap) (word : ℕ) : load (assigned pm word).gc.mem 2048 8 = 536 := by
  show load (store (store (withString pm).mem 2048 8 536) 4080 8 word) 2048 8 = 536
  rw [load_store_of_disjoint (by omega)]
  exact load_store_of_lt (by norm_num)

/-- What a collection in `main` looks at there. -/
theorem mem_kept_assigned {pm : PtrMap} {word : ℕ} (hword : word < 2 ^ 64) :
    v ∈ kept (assigned pm word) ⟨4080, [.slot 4080, .slot 4088]⟩ ↔ v = word ∨ v = 0 := by
  have hfirst : load (assigned pm word).gc.mem 4080 8 = word := load_store_of_lt hword
  have hsecond : load (assigned pm word).gc.mem 4088 8 = 0 := load_assigned pm word (.inr rfl)
  have hqueue : ¬ (readyScan (2 ^ 64) (assigned pm word).gc.readyHead).Visits (assigned pm word).gc.mem v := by
    show ¬ (readyScan (2 ^ 64) 0).Visits _ v
    rw [show (2 : ℕ) ^ 64 = 18446744073709551615 + 1 by norm_num, readyScan, if_pos rfl]
    exact id
  constructor
  · intro h
    rcases h with ⟨_, ⟨_, k, rfl, hlt⟩, rfl⟩ | hready
    · have hlt : 4080 + 8 * k < 4096 := hlt
      obtain rfl | rfl : k = 0 ∨ k = 1 := by omega
      · exact .inl hfirst
      · exact .inr hsecond
    · exact absurd hready hqueue
  · intro h
    have hset : (4096 : ℕ) ≠ 0 := by norm_num
    rcases h with rfl | rfl
    · exact .inl ⟨4080, ⟨hset, 0, rfl, show 4080 < 4096 by norm_num⟩, hfirst⟩
    · exact .inl ⟨4088, ⟨hset, 1, rfl, show 4088 < 4096 by norm_num⟩, hsecond⟩

end Visuall.Gc
