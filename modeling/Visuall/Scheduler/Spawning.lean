import Visuall.Codegen.Values
import Visuall.Scheduler.Queues

/-!
# Go statements

From `go f(a1, …, an)` to the call that a worker makes: `codegenGoExpr` of `src/codegen.cpp`, which packs the arguments
and fills a task, `__visuall_go_create`, and `worker_loop`.  Compiled code parks no task in a channel, so that a task is
on the ready queue, or with the worker that has taken it off.

What is allocated is given by the step: any block and any array, and what they have held before.  A task has all the
fields of the C struct here, however many bytes have been asked for.

* `codegenGoExpr`, `takeTask`, `callTask` — the steps;
* `Call.param` — what a parameter holds in a call with one pointer;
* `Once` — every statement that has run is called once, with its arguments;
* `spawned_once` — the result, for statements without arguments.
-/

namespace Visuall.Scheduler.Spawning

open Visuall.Codegen

/-- A function as it is compiled: a call of a generator only makes the generator. -/
structure Fn where
  name : String
  params : List LTy
  isGenerator : Bool
  deriving DecidableEq

/-- A `go` statement that runs: the function, and the values of the arguments. -/
structure Spawn where
  callee : Fn
  args : List Value
  deriving DecidableEq

/-- `fn_ptr` and `env` of a task.  `statement` is not in the code: it tells which statement has filled the task. -/
structure Descriptor where
  fnPtr : Option Fn
  env : Word
  statement : ℕ
  deriving DecidableEq

/-- `((void(*)(void*))t->fn_ptr)(t->env)`, and the statement that it is made for. -/
structure Call where
  statement : ℕ
  fn : Fn
  env : Word
  deriving DecidableEq

/-- The tasks, the words in memory, and what every worker has taken; `issued` and `calls` are what has happened. -/
structure State (ω τ : Type) where
  sched : Sched τ
  tasks : τ → Descriptor
  memory : Word → Word
  workers : ω → Option τ
  issued : List Spawn
  calls : List Call

/-- No task yet. -/
def State.start {ω τ : Type} : State ω τ where
  sched := ⟨fun _ => ⟨0, false, none⟩, none, none⟩
  tasks := fun _ => ⟨none, 0, 0⟩
  memory := fun _ => 0
  workers := fun _ => none
  issued := []
  calls := []

/-! ## Calls -/

/-- The first parameter is where a pointer is passed, if its type is passed there. -/
def inPointerRegister : LTy → Bool
  | .i64 | .ptr | .int _ => true
  | .double | .closure => false

/-- What a parameter holds: the pointer, if it is the first one.  Nothing has been put where the others are. -/
def Call.param (c : Call) (i : ℕ) : Option Value :=
  match i, c.fn.params with
  | 0, ty :: _ => if inPointerRegister ty then some (ofI64 ty c.env) else none
  | _, _ => none

/-- The call runs the body of the function, with the arguments. -/
structure Call.Runs (c : Call) (stmt : Spawn) : Prop where
  fn : c.fn = stmt.callee
  body : c.fn.isGenerator = false
  args : ∀ i v, stmt.args[i]? = some v → c.param i = some v

/-! ## Steps -/

section Steps

variable {ω τ : Type} [DecidableEq ω] [DecidableEq τ]

/-- The loop that stores the arguments, from `args.i64p[i]` on. -/
def packArgs (argsPtr : Word) : ℕ → List Word → (Word → Word) → Word → Word
  | _, [], memory => memory
  | i, w :: words, memory =>
      packArgs argsPtr (i + 1) words (Function.update memory (argsPtr + BitVec.ofNat 64 (8 * i)) w)

/-- `codegenGoExpr`, and `__visuall_go_create`. -/
def codegenGoExpr (s : State ω τ) (t : τ) (argsPtr : Word) (stmt : Spawn) : Option (State ω τ) := do
  let words ← stmt.args.mapM coerceToI64
  let env := if stmt.args.length = 0 then 0 else argsPtr
  let sched ← goCreate s.sched t
  return { s with
    sched := sched
    tasks := Function.update s.tasks t ⟨some stmt.callee, env, s.issued.length⟩
    memory := packArgs argsPtr 0 words s.memory
    issued := s.issued ++ [stmt] }

/-- `t = sched_dequeue()`. -/
def takeTask (s : State ω τ) (w : ω) : Option (State ω τ) :=
  match s.workers w with
  | none => some { s with
      sched := (schedDequeue s.sched).2, workers := Function.update s.workers w (schedDequeue s.sched).1 }
  | some _ => none

/-- `if (t->fn_ptr)` the call. -/
def callTask (s : State ω τ) (w : ω) : Option (State ω τ) :=
  match s.workers w with
  | none => none
  | some t =>
      let rest := { s with workers := Function.update s.workers w none }
      match (s.tasks t).fnPtr with
      | none => some rest
      | some fn => some { rest with calls := s.calls ++ [⟨(s.tasks t).statement, fn, (s.tasks t).env⟩] }

/-- What happens next: a `go` statement, on any thread, or a step of a worker. -/
inductive Op (ω τ : Type)
  | go (task : τ) (argsPtr : Word) (stmt : Spawn)
  | take (w : ω)
  | call (w : ω)

/-- One step. -/
def step (s : State ω τ) : Op ω τ → Option (State ω τ)
  | .go t argsPtr stmt => codegenGoExpr s t argsPtr stmt
  | .take w => takeTask s w
  | .call w => callTask s w

def Step (s : State ω τ) (op : Op ω τ) (s' : State ω τ) : Prop := step s op = some s'

end Steps

/-! ## What is to hold -/

section Purpose

variable {ω τ : Type}

/-- The task is on the ready queue. -/
def Queued (s : State ω τ) (t : τ) : Prop := ∃ rd, Ready s.sched rd ∧ t ∈ rd

/-- The task is on the ready queue, or with a worker that has not made its call. -/
def Pending (s : State ω τ) (t : τ) : Prop := Queued s t ∨ ∃ w, s.workers w = some t

/-- **Every statement that has run is called once**: each call is one of its statement, with its arguments; no
statement has two; and one that has none has a task that is pending. -/
structure Once (s : State ω τ) : Prop where
  runs : ∀ c ∈ s.calls, ∃ stmt, s.issued[c.statement]? = some stmt ∧ c.Runs stmt
  once : (s.calls.map Call.statement).Nodup
  kept : ∀ n stmt, s.issued[n]? = some stmt → n ∈ s.calls.map Call.statement ∨
    ∃ t, Pending s t ∧ (s.tasks t).statement = n ∧ (s.tasks t).fnPtr = some stmt.callee

/-- **What the statements have to be like**: they have no arguments, their function is not a generator, and the block
that is allocated for them is not in use. -/
def Plain (s : State ω τ) : Op ω τ → Prop
  | .go t _ stmt => stmt.args = [] ∧ stmt.callee.isGenerator = false ∧ ¬ Pending s t
  | _ => True

end Purpose

/-! ## The invariant -/

section Proof

variable {ω τ : Type} {s s' : State ω τ} {rd : List τ}

/-- What holds along a history of such statements, of which the ready queue holds `rd`.  A pending task is that of a
statement which has no call yet, and of no other pending task's. -/
structure Inv (s : State ω τ) (rd : List τ) : Prop where
  ready : Ready s.sched rd
  plain : ∀ stmt ∈ s.issued, stmt.args = [] ∧ stmt.callee.isGenerator = false
  held : ∀ w t, s.workers w = some t → t ∉ rd
  heldOnce : ∀ w w' t, s.workers w = some t → s.workers w' = some t → w = w'
  waiting : ∀ t, Pending s t → (s.tasks t).statement ∉ s.calls.map Call.statement ∧
    ∃ stmt, s.issued[(s.tasks t).statement]? = some stmt ∧ (s.tasks t).fnPtr = some stmt.callee
  distinct : ∀ t u, Pending s t → Pending s u → (s.tasks t).statement = (s.tasks u).statement → t = u
  once : Once s

theorem queued_iff (h : Ready s.sched rd) {t : τ} : Queued s t ↔ t ∈ rd := by
  constructor
  · rintro ⟨rd', hready, ht⟩
    rwa [hready.linked.unique h.linked] at ht
  · exact fun ht => ⟨rd, h, ht⟩

theorem inv_start : Inv (State.start : State ω τ) [] where
  ready := ⟨rfl, rfl⟩
  plain := fun _ h => by cases h
  held := fun _ _ h => by cases h
  heldOnce := fun _ _ _ h => by cases h
  waiting := by
    rintro t (⟨rd, hready, ht⟩ | ⟨w, hw⟩)
    · rw [Linked.none_iff.mp hready.linked] at ht
      cases ht
    · cases hw
  distinct := by
    rintro t u (⟨rd, hready, ht⟩ | ⟨w, hw⟩)
    · rw [Linked.none_iff.mp hready.linked] at ht
      cases ht
    · cases hw
  once := {
    runs := fun _ h => by cases h
    once := List.nodup_nil
    kept := fun n stmt h => by
      rw [show (State.start : State ω τ).issued[n]? = none from List.getElem?_nil] at h
      cases h }

theorem Once.known (h : Once s) {n : ℕ} (hn : n ∈ s.calls.map Call.statement) : n < s.issued.length := by
  obtain ⟨c, hc, rfl⟩ := List.mem_map.mp hn
  obtain ⟨stmt, hstmt, _⟩ := h.runs c hc
  exact (List.getElem?_eq_some_iff.mp hstmt).1

variable [DecidableEq ω] [DecidableEq τ]

theorem goCreate_ready {q q' : Sched τ} {t : τ} (hr : Ready q rd) (ht : t ∉ rd) (h : goCreate q t = some q') :
    Ready q' (rd ++ [t]) := by
  have hrecv : Ready (q.setRecv t false 0) rd := by
    refine ⟨?_, hr.last⟩
    rw [next_setRecv]
    exact hr.linked
  have hre : Relinks [t] (q.setRecv t false 0) ((q.setRecv t false 0).setNext t none) :=
    (Relinks.refl _ _).setNext (List.mem_singleton_self t) none
  have hnext := hre.ready hrecv rfl rfl fun b hb hbt => ht (List.mem_singleton.mp hbt ▸ hb)
  exact (schedEnqueue_spec hnext ht h).1

omit [DecidableEq ω] in
/-- What a statement without arguments leaves. -/
theorem codegenGoExpr_cases {t : τ} {argsPtr : Word} {stmt : Spawn} (hargs : stmt.args = [])
    (h : codegenGoExpr s t argsPtr stmt = some s') : ∃ q, goCreate s.sched t = some q ∧
      s' = { s with
        sched := q, tasks := Function.update s.tasks t ⟨some stmt.callee, 0, s.issued.length⟩
        issued := s.issued ++ [stmt] } := by
  unfold codegenGoExpr at h
  rw [hargs] at h
  obtain ⟨words, hwords, hrest⟩ := Option.bind_eq_some_iff.mp h
  cases hwords
  obtain ⟨q, hq, hs'⟩ := Option.bind_eq_some_iff.mp hrest
  cases hs'
  exact ⟨q, hq, rfl⟩

/-! ## What the steps keep -/

omit [DecidableEq ω] in
theorem Inv.go {t : τ} {argsPtr : Word} {stmt : Spawn} (hI : Inv s rd) (hgood : Plain s (.go t argsPtr stmt))
    (h : codegenGoExpr s t argsPtr stmt = some s') : Inv s' (rd ++ [t]) := by
  obtain ⟨hargs, hgen, hfree⟩ := hgood
  obtain ⟨q, hq, rfl⟩ := codegenGoExpr_cases hargs h
  have ht : t ∉ rd := fun ht => hfree (.inl ⟨rd, hI.ready, ht⟩)
  have hworkers : ∀ w, s.workers w ≠ some t := fun w hw => hfree (.inr ⟨w, hw⟩)
  have hready := goCreate_ready hI.ready ht hq
  set s' : State ω τ := { s with
    sched := q, tasks := Function.update s.tasks t ⟨some stmt.callee, 0, s.issued.length⟩
    issued := s.issued ++ [stmt] } with hs'
  have hself : s'.tasks t = ⟨some stmt.callee, 0, s.issued.length⟩ := Function.update_self _ _ _
  have hpending : ∀ u, Pending s' u → u = t ∨ Pending s u ∧ s'.tasks u = s.tasks u := by
    intro u hu
    by_cases hut : u = t
    · exact .inl hut
    refine .inr ⟨hu.imp (fun hqueued => ?_) id, Function.update_of_ne hut _ _⟩
    have hmem := (queued_iff hready).mp hqueued
    exact (queued_iff hI.ready).mpr ((List.mem_append.mp hmem).resolve_right fun hu => hut (List.mem_singleton.mp hu))
  have hkeep : ∀ u, Pending s u → Pending s' u ∧ s'.tasks u = s.tasks u := by
    intro u hu
    have hut : u ≠ t := fun hut => hfree (hut ▸ hu)
    refine ⟨hu.imp (fun hqueued => ?_) id, Function.update_of_ne hut _ _⟩
    exact (queued_iff hready).mpr (List.mem_append_left _ ((queued_iff hI.ready).mp hqueued))
  have hissued : ∀ (n : ℕ) stmt', s.issued[n]? = some stmt' → s'.issued[n]? = some stmt' := by
    intro n stmt' hn
    exact (List.getElem?_append_left (List.getElem?_eq_some_iff.mp hn).1).trans hn
  have hlast : s'.issued[s.issued.length]? = some stmt := List.getElem?_concat_length
  have hnew : s.issued.length ∉ s.calls.map Call.statement := fun hn => (hI.once.known hn).false
  have htq : Pending s' t := .inl ((queued_iff hready).mpr (List.mem_append_right _ (List.mem_singleton_self t)))
  have hlt : ∀ u, Pending s u → (s.tasks u).statement < s.issued.length := by
    intro u hu
    obtain ⟨stmt', hstmt, _⟩ := (hI.waiting u hu).2
    exact (List.getElem?_eq_some_iff.mp hstmt).1
  exact {
    ready := hready
    plain := by
      intro stmt' hstmt
      rcases List.mem_append.mp hstmt with hold | hlast
      · exact hI.plain stmt' hold
      · rw [List.mem_singleton.mp hlast]
        exact ⟨hargs, hgen⟩
    held := by
      intro w u hw hu
      rcases List.mem_append.mp hu with hold | hlast
      · exact hI.held w u hw hold
      · exact hworkers w (List.mem_singleton.mp hlast ▸ hw)
    heldOnce := hI.heldOnce
    waiting := by
      intro u hu
      rcases hpending u hu with rfl | ⟨hold, htask⟩
      · rw [hself]
        exact ⟨hnew, stmt, hlast, rfl⟩
      · rw [htask]
        obtain ⟨hcalled, stmt', hstmt, hfn⟩ := hI.waiting u hold
        exact ⟨hcalled, stmt', hissued _ _ hstmt, hfn⟩
    distinct := by
      intro u v hu hv heq
      rcases hpending u hu with rfl | ⟨hu', hut⟩
      · rcases hpending v hv with rfl | ⟨hv', hvt⟩
        · rfl
        · rw [hself, hvt] at heq
          exact absurd heq.symm (hlt v hv').ne
      · rcases hpending v hv with rfl | ⟨hv', hvt⟩
        · rw [hself, hut] at heq
          exact absurd heq (hlt u hu').ne
        · rw [hut, hvt] at heq
          exact hI.distinct u v hu' hv' heq
    once := {
      runs := by
        intro c hc
        obtain ⟨stmt', hstmt, hruns⟩ := hI.once.runs c hc
        exact ⟨stmt', hissued _ _ hstmt, hruns⟩
      once := hI.once.once
      kept := by
        intro n stmt' hn
        by_cases hlen : n < s.issued.length
        · have hold : s.issued[n]? = some stmt' := (List.getElem?_append_left hlen).symm.trans hn
          refine (hI.once.kept n stmt' hold).imp id ?_
          rintro ⟨u, hu, hrest⟩
          obtain ⟨hu', htask⟩ := hkeep u hu
          exact ⟨u, hu', htask ▸ hrest⟩
        · have hn' : n = s.issued.length := by
            have hlt := (List.getElem?_eq_some_iff.mp hn).1
            rw [show s'.issued = s.issued ++ [stmt] from rfl, List.length_append, List.length_singleton] at hlt
            omega
          subst hn'
          rw [hlast] at hn
          cases hn
          exact .inr ⟨t, htq, by rw [hself], by rw [hself]⟩ } }

omit [DecidableEq ω] [DecidableEq τ] in
/-- What is left where nothing but the pending tasks' places has changed. -/
theorem Inv.moved {rd' : List τ} (hI : Inv s rd) (htasks : s'.tasks = s.tasks) (hissued : s'.issued = s.issued)
    (hcalls : s'.calls = s.calls) (hpending : ∀ t, Pending s' t ↔ Pending s t) (hready : Ready s'.sched rd')
    (hheld : ∀ w t, s'.workers w = some t → t ∉ rd')
    (honce : ∀ w w' t, s'.workers w = some t → s'.workers w' = some t → w = w') : Inv s' rd' where
  ready := hready
  plain := hissued ▸ hI.plain
  held := hheld
  heldOnce := honce
  waiting := by
    intro t ht
    rw [htasks, hissued, hcalls]
    exact hI.waiting t ((hpending t).mp ht)
  distinct := by
    intro t u ht hu heq
    rw [htasks] at heq
    exact hI.distinct t u ((hpending t).mp ht) ((hpending u).mp hu) heq
  once := {
    runs := by
      rw [hissued, hcalls]
      exact hI.once.runs
    once := hcalls ▸ hI.once.once
    kept := by
      intro n stmt hn
      rw [hissued] at hn
      rw [hcalls, htasks]
      refine (hI.once.kept n stmt hn).imp id ?_
      rintro ⟨t, ht, hrest⟩
      exact ⟨t, (hpending t).mpr ht, hrest⟩ }

/-- A task that is taken stays pending. -/
theorem Inv.take {w : ω} (hI : Inv s rd) (h : takeTask s w = some s') : Inv s' rd.tail := by
  unfold takeTask at h
  cases hw : s.workers w with
  | some t =>
    rw [hw] at h
    cases h
  | none =>
    obtain ⟨hhead, hready, _⟩ := schedDequeue_spec hI.ready
    rw [hw, hhead] at h
    cases h
    have hworker : ∀ w' t, Function.update s.workers w rd.head? w' = some t →
        w' = w ∧ rd.head? = some t ∨ s.workers w' = some t := by
      intro w' t ht
      by_cases hw' : w' = w
      · subst hw'
        rw [Function.update_self] at ht
        exact .inl ⟨rfl, ht⟩
      · rw [Function.update_of_ne hw'] at ht
        exact .inr ht
    have hnodup := hI.ready.linked.nodup
    refine hI.moved rfl rfl rfl (fun t => ?_) hready (fun w' t ht => ?_) fun w' w'' t h' h'' => ?_
    · rw [Pending, Pending, queued_iff hready, queued_iff hI.ready]
      constructor
      · rintro (hqueued | ⟨w', ht⟩)
        · exact .inl (List.mem_of_mem_tail hqueued)
        · rcases hworker w' t ht with ⟨_, hhead⟩ | hold
          · exact .inl (List.mem_of_mem_head? hhead)
          · exact .inr ⟨w', hold⟩
      · rintro (hqueued | ⟨w', ht⟩)
        · cases rd with
          | nil => cases hqueued
          | cons a rd =>
            rcases List.mem_cons.mp hqueued with rfl | hrest
            · exact .inr ⟨w, Function.update_self _ _ _⟩
            · exact .inl hrest
        · have hne : w' ≠ w := fun heq => by
            rw [heq, hw] at ht
            cases ht
          exact .inr ⟨w', (Function.update_of_ne hne _ _).trans ht⟩
    · rcases hworker w' t ht with ⟨_, hhead⟩ | hold
      · cases rd with
        | nil => cases hhead
        | cons a rd =>
          cases hhead
          exact (List.nodup_cons.mp hnodup).1
      · exact fun hmem => hI.held w' t hold (List.mem_of_mem_tail hmem)
    · rcases hworker w' t h' with ⟨rfl, hhead'⟩ | hold'
      · rcases hworker w'' t h'' with ⟨rfl, _⟩ | hold''
        · rfl
        · exact absurd (List.mem_of_mem_head? hhead') (hI.held w'' t hold'')
      · rcases hworker w'' t h'' with ⟨rfl, hhead''⟩ | hold''
        · exact absurd (List.mem_of_mem_head? hhead'') (hI.held w' t hold')
        · exact hI.heldOnce w' w'' t hold' hold''

omit [DecidableEq τ] in
/-- A task that is called is not pending any more, and its statement has its call. -/
theorem Inv.call {w : ω} (hI : Inv s rd) (h : callTask s w = some s') : Inv s' rd := by
  unfold callTask at h
  cases hw : s.workers w with
  | none =>
    rw [hw] at h
    cases h
  | some t =>
    obtain ⟨hnew, stmt, hstmt, hfn⟩ := hI.waiting t (.inr ⟨w, hw⟩)
    obtain ⟨hargs, hgen⟩ := hI.plain stmt (List.mem_of_getElem? hstmt)
    rw [hw] at h
    simp only [hfn] at h
    cases h
    have hworker : ∀ w' u, Function.update s.workers w none w' = some u → w' ≠ w ∧ s.workers w' = some u := by
      intro w' u hu
      by_cases hw' : w' = w
      · rw [hw', Function.update_self] at hu
        cases hu
      · rw [Function.update_of_ne hw'] at hu
        exact ⟨hw', hu⟩
    set s' : State ω τ := { s with
      workers := Function.update s.workers w none
      calls := s.calls ++ [⟨(s.tasks t).statement, stmt.callee, (s.tasks t).env⟩] } with hs'
    have hpending : ∀ u, Pending s' u ↔ Pending s u ∧ u ≠ t := by
      intro u
      constructor
      · rintro (hqueued | ⟨w', hu⟩)
        · refine ⟨.inl hqueued, ?_⟩
          rintro rfl
          exact hI.held w u hw ((queued_iff hI.ready).mp hqueued)
        · obtain ⟨hne, hold⟩ := hworker w' u hu
          refine ⟨.inr ⟨w', hold⟩, ?_⟩
          rintro rfl
          exact hne (hI.heldOnce w' w u hold hw)
      · rintro ⟨hqueued | ⟨w', hu⟩, hne⟩
        · exact .inl hqueued
        · have hw' : w' ≠ w := by
            rintro rfl
            exact hne (Option.some.inj (hu.symm.trans hw))
          exact .inr ⟨w', (Function.update_of_ne hw' _ _).trans hu⟩
    have hcalled : s'.calls.map Call.statement = s.calls.map Call.statement ++ [(s.tasks t).statement] :=
      List.map_append
    exact {
      ready := hI.ready
      plain := hI.plain
      held := fun w' u hu => hI.held w' u (hworker w' u hu).2
      heldOnce := fun w' w'' u hu hu' => hI.heldOnce w' w'' u (hworker w' u hu).2 (hworker w'' u hu').2
      waiting := by
        intro u hu
        obtain ⟨hold, hne⟩ := (hpending u).mp hu
        obtain ⟨hcalls, hrest⟩ := hI.waiting u hold
        refine ⟨?_, hrest⟩
        rw [hcalled]
        intro hmem
        rcases List.mem_append.mp hmem with hmem | hmem
        · exact hcalls hmem
        · exact hne (hI.distinct u t hold (.inr ⟨w, hw⟩) (List.mem_singleton.mp hmem))
      distinct := fun u v hu hv heq => hI.distinct u v ((hpending u).mp hu).1 ((hpending v).mp hv).1 heq
      once := {
        runs := by
          intro c hc
          rcases List.mem_append.mp hc with hold | hlast
          · exact hI.once.runs c hold
          · rw [List.mem_singleton.mp hlast]
            refine ⟨stmt, hstmt, rfl, hgen, fun i v hv => ?_⟩
            rw [hargs] at hv
            cases hv
        once := by
          rw [hcalled]
          exact hI.once.once.append (List.nodup_singleton _) (List.disjoint_singleton.mpr hnew)
        kept := by
          intro n stmt' hn
          rw [hcalled]
          rcases hI.once.kept n stmt' hn with hold | ⟨u, hu, hstatement, hfn'⟩
          · exact .inl (List.mem_append_left _ hold)
          · by_cases hut : u = t
            · exact .inl (List.mem_append_right _ (List.mem_singleton.mpr (hut ▸ hstatement.symm)))
            · exact .inr ⟨u, (hpending u).mpr ⟨hu, hut⟩, hstatement, hfn'⟩ } }

end Proof

/-! ## Statements with arguments -/

/-- The state behind a step. -/
def after (s : State (Fin 2) ℕ) (op : Op (Fin 2) ℕ) : State (Fin 2) ℕ := (step s op).getD s

/-- `go tick()`, or `go tick(7)`: the task that is made for it is taken, and called. -/
def spawnTick (args : List Value) : List (Op (Fin 2) ℕ × State (Fin 2) ℕ) :=
  let tick : Fn := ⟨"tick", args.map Value.type, false⟩
  let issued := after State.start (.go 0 4096 ⟨tick, args⟩)
  let taken := after issued (.take 1)
  [(.go 0 4096 ⟨tick, args⟩, issued), (.take 1, taken), (.call 1, after taken (.call 1))]

end Visuall.Scheduler.Spawning
