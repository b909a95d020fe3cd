import Visuall.Lib.LinkedQueue
import Visuall.Lib.Run

/-!
# The scheduler and its channels

The goroutine scheduler of `stdlib/scheduler.c`.  Tasks are linked through their own `next` fields
into the ready queue and the two wait queues of each channel, as in the C.

A step of the system is one critical section of one thread: what a function does between taking
and releasing the channel lock, or one call of `sched_enqueue` made outside it.  A thread that has
released the channel lock with work left to do keeps that work in its program counter, so that the
steps of other threads come in between as they can in the C.

* `chanSend`, `chanRecv`, `chanRecvAgain`, `chanClose` — the critical sections;
* `Path` — which way through the function a call went;
* `step` — one step of the whole system;
* `StepCases` — what each step does, by operation.
-/

namespace Visuall.Scheduler

variable {ω κ τ : Type*}

/-- `VisuallTask`, the fields the scheduler reads. -/
structure VisuallTask (τ : Type*) where
  recvValue : Int64
  hasRecv : Bool
  next : Option τ

/-- `VisuallChannel`.  `bufferLen` is the number of words `malloc` gave for `buffer`, and 0 when
`buffer` is NULL. -/
structure VisuallChannel (τ : Type*) where
  buffer : ℕ → Int64
  bufferLen : ℕ
  capacity : ℤ
  count : ℕ
  head : ℕ
  tail : ℕ
  closed : Bool
  blockedSendersHead : Option τ
  blockedReceiversHead : Option τ

/-- The tasks in memory, and the ready queue. -/
structure Sched (τ : Type*) where
  tasks : τ → VisuallTask τ
  readyHead : Option τ
  readyTail : Option τ

/-- The link of every task. -/
def Sched.next (s : Sched τ) (t : τ) : Option τ := (s.tasks t).next

/-- The way a call took through `chanSend` or `chanRecv`; `silent` is any other step. -/
inductive Path (τ : Type*) where
  | silent
  | sendClosed
  | handedOff (receiver : τ)
  | buffered
  | sendParked (self : τ)
  | sendDropped
  | pickedUp (self : τ) (val : Int64)
  | took (val : Int64) (sender : Option τ)
  | wokeSender (sender : τ)
  | recvParked (self : τ)
  | recvEmpty
deriving DecidableEq

/-- What a thread still has to do after leaving a critical section. -/
inductive Pc (κ τ : Type*) where
  | idle
  /-- `sched_enqueue(task)`, then return. -/
  | wake (task : τ)
  /-- `sched_enqueue(sender)`, then the channel lock again. -/
  | wakeThenRecv (sender : τ) (ch : κ) (cont : Bool) (contEnv : Option τ)
  /-- The rest of `__visuall_chan_recv`, from its second `CHAN_LOCK`. -/
  | recvAgain (ch : κ) (cont : Bool) (contEnv : Option τ)
deriving DecidableEq

/-- The task a thread has taken off a wait queue and not yet put on the ready queue. -/
def Pc.holds : Pc κ τ → Option τ
  | .wake t => some t
  | .wakeThenRecv t _ _ _ => some t
  | _ => none

section Functions

variable [DecidableEq τ]

def Sched.setNext (s : Sched τ) (t : τ) (n : Option τ) : Sched τ :=
  { s with tasks := Function.update s.tasks t { s.tasks t with next := n } }

def Sched.setRecv (s : Sched τ) (t : τ) (hasRecv : Bool) (v : Int64) : Sched τ :=
  { s with tasks := Function.update s.tasks t { s.tasks t with hasRecv, recvValue := v } }

/-- `sched_enqueue_locked`.  No result is the NULL `ready_tail` of a nonempty queue. -/
def schedEnqueue (s : Sched τ) (task : τ) : Option (Sched τ) :=
  let s := s.setNext task none
  match s.readyHead with
  | none => some { s with readyHead := some task, readyTail := some task }
  | some _ =>
      match s.readyTail with
      | none => none
      | some tail => some { s.setNext tail (some task) with readyTail := some task }

/-- `sched_dequeue_locked`. -/
def schedDequeue (s : Sched τ) : Option τ × Sched τ :=
  match s.readyHead with
  | none => (none, s)
  | some t =>
      let head := s.next t
      let tail := if head = none then none else s.readyTail
      (some t, { s.setNext t none with readyHead := head, readyTail := tail })

/-- `blocked_enqueue`: the new head.  The walk to the end of the queue gets `fuel` tests. -/
def blockedEnqueue (fuel : ℕ) (s : Sched τ) (head : Option τ) (task : τ) :
    Option (Option τ × Sched τ) :=
  let s := s.setNext task none
  match head with
  | none => some (some task, s)
  | some h => do
      let cur ← lastFrom s.next fuel h
      return (some h, s.setNext cur (some task))

/-- `blocked_dequeue`: the task taken, and the new head. -/
def blockedDequeue (s : Sched τ) (head : Option τ) : Option τ × Option τ × Sched τ :=
  match head with
  | none => (none, none, s)
  | some t => (some t, s.next t, s.setNext t none)

/-- `__visuall_go_create` up to its `sched_enqueue`. -/
def goCreate (s : Sched τ) (task : τ) : Option (Sched τ) :=
  schedEnqueue ((s.setRecv task false 0).setNext task none) task

/-- `__visuall_chan_create`, when `malloc` gave `bufferLen` words for the buffer. -/
def chanCreate (capacity : ℤ) (bufferLen : ℕ) : VisuallChannel τ where
  buffer := fun _ => 0
  bufferLen := bufferLen
  capacity := capacity
  count := 0
  head := 0
  tail := 0
  closed := false
  blockedSendersHead := none
  blockedReceiversHead := none

/-- `ch->buffer[ch->tail] = value`, the new tail and the new count. -/
def ringPut (ch : VisuallChannel τ) (value : Int64) : Option (VisuallChannel τ) :=
  if ch.tail < ch.bufferLen then
    some { ch with
      buffer := Function.update ch.buffer ch.tail value
      tail := (ch.tail + 1) % ch.capacity.toNat
      count := ch.count + 1 }
  else none

/-- `val = ch->buffer[ch->head]`, the new head and the new count. -/
def ringTake (ch : VisuallChannel τ) : Option (Int64 × VisuallChannel τ) :=
  if ch.head < ch.bufferLen then
    some (ch.buffer ch.head, { ch with
      head := (ch.head + 1) % ch.capacity.toNat
      count := ch.count - 1 })
  else none

/-- The critical section of `__visuall_chan_send`.  `cont` says whether the continuation is
non-NULL, and `contEnv` is its environment, a task. -/
def chanSend (fuel : ℕ) (ch : VisuallChannel τ) (s : Sched τ) (value : Int64) (cont : Bool)
    (contEnv : Option τ) : Option (VisuallChannel τ × Sched τ × Path τ) :=
  if ch.closed then some (ch, s, .sendClosed)
  else
    match blockedDequeue s ch.blockedReceiversHead with
    | (some receiver, head, s) =>
        some ({ ch with blockedReceiversHead := head }, s.setRecv receiver true value,
          .handedOff receiver)
    | (none, _, _) =>
        if 0 < ch.capacity ∧ (ch.count : ℤ) < ch.capacity then do
          let ch ← ringPut ch value
          return (ch, s, .buffered)
        else
          match cont, contEnv with
          | true, some self => do
              let (head, s) ← blockedEnqueue fuel s ch.blockedSendersHead self
              return ({ ch with blockedSendersHead := head }, s, .sendParked self)
          | _, _ => some (ch, s, .sendDropped)

/-- The last part of `__visuall_chan_recv`, from the check of the buffer on. -/
def chanRecvAgain (fuel : ℕ) (ch : VisuallChannel τ) (s : Sched τ) (cont : Bool)
    (contEnv : Option τ) : Option (VisuallChannel τ × Sched τ × Path τ) :=
  if 0 < ch.count then do
    let (val, ch) ← ringTake ch
    return (ch, s, .took val none)
  else
    match cont, contEnv with
    | true, some self => do
        let (head, s) ← blockedEnqueue fuel s ch.blockedReceiversHead self
        return ({ ch with blockedReceiversHead := head }, s, .recvParked self)
    | _, _ => some (ch, s, .recvEmpty)

/-- The value handed to the caller of `__visuall_chan_recv` while it was parked. -/
def pendingRecv (s : Sched τ) (contEnv : Option τ) : Option (τ × Int64) :=
  match contEnv with
  | some self => if (s.tasks self).hasRecv then some (self, (s.tasks self).recvValue) else none
  | none => none

/-- The first critical section of `__visuall_chan_recv`. -/
def chanRecv (fuel : ℕ) (ch : VisuallChannel τ) (s : Sched τ) (cont : Bool)
    (contEnv : Option τ) : Option (VisuallChannel τ × Sched τ × Path τ) :=
  match pendingRecv s contEnv with
  | some (self, val) => some (ch, s.setRecv self false 0, .pickedUp self val)
  | none =>
      match blockedDequeue s ch.blockedSendersHead with
      | (some sender, head, s) =>
          let ch := { ch with blockedSendersHead := head }
          if 0 < ch.count then do
            let (val, ch) ← ringTake ch
            return (ch, s, .took val (some sender))
          else some (ch, s, .wokeSender sender)
      | (none, _, _) => chanRecvAgain fuel ch s cont contEnv

/-- `while ((t = blocked_dequeue(&head))) sched_enqueue(t)`. -/
def wakeAll : ℕ → Sched τ → Option τ → Option (Sched τ)
  | 0, _, _ => none
  | fuel + 1, s, head =>
      match blockedDequeue s head with
      | (none, _, s) => some s
      | (some t, head, s) => do wakeAll fuel (← schedEnqueue s t) head

/-- `__visuall_chan_close`.  Both loops end with their queue's head NULL. -/
def chanClose (fuel : ℕ) (ch : VisuallChannel τ) (s : Sched τ) :
    Option (VisuallChannel τ × Sched τ) := do
  let s ← wakeAll fuel s ch.blockedReceiversHead
  let s ← wakeAll fuel s ch.blockedSendersHead
  return ({ ch with closed := true, blockedReceiversHead := none, blockedSendersHead := none }, s)

/-! ### What a section can do -/

variable {fuel : ℕ} {ch ch' : VisuallChannel τ} {s s' : Sched τ} {value : Int64} {cont : Bool}
  {contEnv : Option τ} {path : Path τ}

/-- A send would not block. -/
def Accepts (ch : VisuallChannel τ) : Prop :=
  ch.blockedReceiversHead ≠ none ∨ (0 < ch.capacity ∧ (ch.count : ℤ) < ch.capacity)

/-- A send on an open channel hands its value to a receiver, stores it, parks, or drops it. -/
theorem chanSend_cases (hopen : ch.closed = false)
    (h : chanSend fuel ch s value cont contEnv = some (ch', s', path)) :
    (∃ r, ch.blockedReceiversHead = some r ∧ path = .handedOff r ∧
      ch' = { ch with blockedReceiversHead := s.next r } ∧
      s' = (s.setNext r none).setRecv r true value) ∨
    (ch.blockedReceiversHead = none ∧ 0 < ch.capacity ∧ (ch.count : ℤ) < ch.capacity ∧
      path = .buffered ∧ ringPut ch value = some ch' ∧ s' = s) ∨
    (¬ Accepts ch ∧ cont = true ∧ ∃ self head, contEnv = some self ∧ path = .sendParked self ∧
      blockedEnqueue fuel s ch.blockedSendersHead self = some (head, s') ∧
      ch' = { ch with blockedSendersHead := head }) ∨
    (¬ Accepts ch ∧ (cont = false ∨ contEnv = none) ∧ path = .sendDropped ∧ ch' = ch ∧ s' = s) := by
  unfold chanSend at h
  rw [if_neg (by simp [hopen])] at h
  cases hr : ch.blockedReceiversHead with
  | some r =>
      rw [hr] at h
      cases h
      exact .inl ⟨r, rfl, rfl, rfl, rfl⟩
  | none =>
      rw [hr] at h
      simp only [blockedDequeue] at h
      split at h
      · next hroom =>
        obtain ⟨ch₁, hput, he⟩ := Option.bind_eq_some_iff.mp h
        cases he
        exact .inr (.inl ⟨rfl, hroom.1, hroom.2, rfl, hput, rfl⟩)
      · next hroom =>
        have hna : ¬ Accepts ch := by simpa [Accepts, hr] using hroom
        split at h
        · next self =>
          obtain ⟨⟨head, s₁⟩, hb, he⟩ := Option.bind_eq_some_iff.mp h
          cases he
          exact .inr (.inr (.inl ⟨hna, rfl, self, head, rfl, rfl, hb, rfl⟩))
        · next hne =>
          cases h
          refine .inr (.inr (.inr ⟨hna, ?_, rfl, rfl, rfl⟩))
          cases cont <;> cases contEnv <;> simp_all

/-- The last part of a receive takes a buffered value, parks, or returns nothing. -/
theorem chanRecvAgain_cases (h : chanRecvAgain fuel ch s cont contEnv = some (ch', s', path)) :
    (0 < ch.count ∧ ∃ val, path = .took val none ∧ ringTake ch = some (val, ch') ∧ s' = s) ∨
    (ch.count = 0 ∧ cont = true ∧ ∃ self head, contEnv = some self ∧ path = .recvParked self ∧
      blockedEnqueue fuel s ch.blockedReceiversHead self = some (head, s') ∧
      ch' = { ch with blockedReceiversHead := head }) ∨
    (ch.count = 0 ∧ (cont = false ∨ contEnv = none) ∧ path = .recvEmpty ∧ ch' = ch ∧ s' = s) := by
  unfold chanRecvAgain at h
  split at h
  · next hcount =>
    obtain ⟨⟨val, ch₁⟩, ht, he⟩ := Option.bind_eq_some_iff.mp h
    cases he
    exact .inl ⟨hcount, val, rfl, ht, rfl⟩
  · next hcount =>
    split at h
    · next self =>
      obtain ⟨⟨head, s₁⟩, hb, he⟩ := Option.bind_eq_some_iff.mp h
      cases he
      exact .inr (.inl ⟨by omega, rfl, self, head, rfl, rfl, hb, rfl⟩)
    · next hne =>
      cases h
      refine .inr (.inr ⟨by omega, ?_, rfl, rfl, rfl⟩)
      cases cont <;> cases contEnv <;> simp_all

/-- A receive picks up what was handed to it, wakes a sender, or goes on to its last part. -/
theorem chanRecv_cases (h : chanRecv fuel ch s cont contEnv = some (ch', s', path)) :
    (∃ self val, pendingRecv s contEnv = some (self, val) ∧ path = .pickedUp self val ∧ ch' = ch ∧
      s' = s.setRecv self false 0) ∨
    (pendingRecv s contEnv = none ∧ ∃ x, ch.blockedSendersHead = some x ∧
      s' = s.setNext x none ∧
      ((0 < ch.count ∧ ∃ val, path = .took val (some x) ∧
          ringTake { ch with blockedSendersHead := s.next x } = some (val, ch')) ∨
        (ch.count = 0 ∧ path = .wokeSender x ∧
          ch' = { ch with blockedSendersHead := s.next x }))) ∨
    (pendingRecv s contEnv = none ∧ ch.blockedSendersHead = none ∧
      chanRecvAgain fuel ch s cont contEnv = some (ch', s', path)) := by
  unfold chanRecv at h
  cases hp : pendingRecv s contEnv with
  | some p =>
      rw [hp] at h
      cases h
      exact .inl ⟨p.1, p.2, rfl, rfl, rfl, rfl⟩
  | none =>
      rw [hp] at h
      cases hx : ch.blockedSendersHead with
      | none =>
          rw [hx] at h
          exact .inr (.inr ⟨rfl, rfl, h⟩)
      | some x =>
          rw [hx] at h
          simp only [blockedDequeue] at h
          refine .inr (.inl ⟨rfl, x, rfl, ?_⟩)
          split at h
          · next hcount =>
            obtain ⟨⟨val, ch₁⟩, ht, he⟩ := Option.bind_eq_some_iff.mp h
            cases he
            exact ⟨rfl, .inl ⟨hcount, val, rfl, ht⟩⟩
          · next hcount =>
            cases h
            exact ⟨rfl, .inr ⟨by omega, rfl, rfl⟩⟩

end Functions

/-! ### The system -/

/-- The channels `κ`, the tasks `τ` and the threads `ω`. -/
structure State (ω κ τ : Type*) where
  chans : κ → VisuallChannel τ
  sched : Sched τ
  threads : ω → Pc κ τ

/-- A channel just made, with one thread for each number and no task queued. -/
def freshState (capacity : ℤ) (bufferLen : ℕ) : State ℕ ℕ ℕ where
  chans := fun _ => chanCreate capacity bufferLen
  sched := ⟨fun _ => ⟨0, false, none⟩, none, none⟩
  threads := fun _ => .idle

/-- What a thread does in one step. -/
inductive Op (ω κ τ : Type*) where
  | goCreate (w : ω) (task : τ)
  /-- `sched_dequeue` by a worker; what the task then does are steps of the same thread. -/
  | dequeue (w : ω)
  | send (w : ω) (ch : κ) (value : Int64) (cont : Bool) (contEnv : Option τ)
  | recv (w : ω) (ch : κ) (cont : Bool) (contEnv : Option τ)
  | close (w : ω) (ch : κ)
  /-- The work left in the thread's program counter. -/
  | resume (w : ω)
deriving DecidableEq

def Op.thread : Op ω κ τ → ω
  | .goCreate w _ | .dequeue w | .send w _ _ _ _ | .recv w _ _ _ | .close w _ | .resume w => w

/-- Where a thread is after a critical section that went a given way: a task taken off a wait queue
is enqueued outside the channel lock. -/
def Path.pc (ch : κ) (cont : Bool) (contEnv : Option τ) : Path τ → Pc κ τ
  | .handedOff t => .wake t
  | .took _ (some t) => .wake t
  | .wokeSender t => .wakeThenRecv t ch cont contEnv
  | _ => .idle

section Put

variable [DecidableEq ω] {s : State ω κ τ} {w : ω} {c d : κ} {ch : VisuallChannel τ}
  {sched : Sched τ} {pc : Pc κ τ}

/-- The state after thread `w` changed the ready queue only. -/
def State.putSched (s : State ω κ τ) (w : ω) (sched : Sched τ) (pc : Pc κ τ) : State ω κ τ :=
  { s with sched, threads := Function.update s.threads w pc }

@[simp] theorem State.putSched_chans : (s.putSched w sched pc).chans = s.chans := rfl

variable [DecidableEq κ]

/-- The state after a critical section of thread `w` on channel `c`. -/
def State.put (s : State ω κ τ) (w : ω) (c : κ) (ch : VisuallChannel τ) (sched : Sched τ)
    (pc : Pc κ τ) : State ω κ τ where
  chans := Function.update s.chans c ch
  sched := sched
  threads := Function.update s.threads w pc

@[simp] theorem State.put_chans_self : (s.put w c ch sched pc).chans c = ch :=
  Function.update_self _ _ _

@[simp] theorem State.put_sched : (s.put w c ch sched pc).sched = sched := rfl

@[simp] theorem State.put_put {ch' : VisuallChannel τ} {sched' : Sched τ} {pc' : Pc κ τ} :
    (s.put w c ch sched pc).put w c ch' sched' pc' = s.put w c ch' sched' pc' := by
  simp [State.put]

theorem State.put_chans_of_ne (h : c ≠ d) : (s.put w d ch sched pc).chans c = s.chans c :=
  Function.update_of_ne h _ _

end Put

section Step

variable [DecidableEq ω] [DecidableEq κ] [DecidableEq τ]

/-- One step, and the way it went.  There is no result when a thread starts a call before it has
finished the last, when the memory access is out of bounds, or when `fuel` runs out. -/
def step (fuel : ℕ) (s : State ω κ τ) (op : Op ω κ τ) : Option (State ω κ τ × Path τ) :=
  match op, s.threads op.thread with
  | .goCreate w t, .idle =>
      (goCreate s.sched t).map fun sched => (s.putSched w sched .idle, .silent)
  | .dequeue w, .idle => some (s.putSched w (schedDequeue s.sched).2 .idle, .silent)
  | .send w c v cont env, .idle =>
      (chanSend fuel (s.chans c) s.sched v cont env).map fun (ch, sched, path) =>
        (s.put w c ch sched (path.pc c cont env), path)
  | .recv w c cont env, .idle =>
      (chanRecv fuel (s.chans c) s.sched cont env).map fun (ch, sched, path) =>
        (s.put w c ch sched (path.pc c cont env), path)
  | .close w c, .idle =>
      (chanClose fuel (s.chans c) s.sched).map fun (ch, sched) =>
        (s.put w c ch sched .idle, .silent)
  | .resume w, .wake t =>
      (schedEnqueue s.sched t).map fun sched => (s.putSched w sched .idle, .silent)
  | .resume w, .wakeThenRecv t c cont env =>
      (schedEnqueue s.sched t).map fun sched =>
        (s.putSched w sched (.recvAgain c cont env), .silent)
  | .resume w, .recvAgain c cont env =>
      (chanRecvAgain fuel (s.chans c) s.sched cont env).map fun (ch, sched, path) =>
        (s.put w c ch sched .idle, path)
  | _, _ => none

/-- A step whose loops end. -/
def Step (s : State ω κ τ) (op : Op ω κ τ) (s' : State ω κ τ) : Prop :=
  ∃ fuel path, step fuel s op = some (s', path)

/-- The steps of the system, one case for each kind of operation. -/
inductive StepCases (fuel : ℕ) (s : State ω κ τ) : Op ω κ τ → State ω κ τ → Path τ → Prop
  | goCreate {w : ω} {t : τ} {sched : Sched τ} (hpc : s.threads w = .idle) (h : goCreate s.sched t = some sched) :
      StepCases fuel s (.goCreate w t) (s.putSched w sched .idle) .silent
  | dequeue {w : ω} (hpc : s.threads w = .idle) :
      StepCases fuel s (.dequeue w) (s.putSched w (schedDequeue s.sched).2 .idle) .silent
  | send {w : ω} {c : κ} {v : Int64} {cont : Bool} {env : Option τ}
      {ch : VisuallChannel τ} {sched : Sched τ} {path : Path τ} (hpc : s.threads w = .idle)
      (h : chanSend fuel (s.chans c) s.sched v cont env = some (ch, sched, path)) :
      StepCases fuel s (.send w c v cont env) (s.put w c ch sched (path.pc c cont env)) path
  | recv {w : ω} {c : κ} {cont : Bool} {env : Option τ} {ch : VisuallChannel τ}
      {sched : Sched τ} {path : Path τ} (hpc : s.threads w = .idle)
      (h : chanRecv fuel (s.chans c) s.sched cont env = some (ch, sched, path)) :
      StepCases fuel s (.recv w c cont env) (s.put w c ch sched (path.pc c cont env)) path
  | close {w : ω} {c : κ} {ch : VisuallChannel τ} {sched : Sched τ} (hpc : s.threads w = .idle)
      (h : chanClose fuel (s.chans c) s.sched = some (ch, sched)) :
      StepCases fuel s (.close w c) (s.put w c ch sched .idle) .silent
  | wake {w : ω} {t : τ} {sched : Sched τ} (hpc : s.threads w = .wake t) (h : schedEnqueue s.sched t = some sched) :
      StepCases fuel s (.resume w) (s.putSched w sched .idle) .silent
  | wakeThenRecv {w : ω} {t : τ} {c : κ} {cont : Bool} {env : Option τ}
      {sched : Sched τ} (hpc : s.threads w = .wakeThenRecv t c cont env)
      (h : schedEnqueue s.sched t = some sched) :
      StepCases fuel s (.resume w) (s.putSched w sched (.recvAgain c cont env)) .silent
  | recvAgain {w : ω} {c : κ} {cont : Bool} {env : Option τ} {ch : VisuallChannel τ}
      {sched : Sched τ} {path : Path τ} (hpc : s.threads w = .recvAgain c cont env)
      (h : chanRecvAgain fuel (s.chans c) s.sched cont env = some (ch, sched, path)) :
      StepCases fuel s (.resume w) (s.put w c ch sched .idle) path

end Step

section Cases

variable [DecidableEq ω] [DecidableEq κ] [DecidableEq τ]
  {s s' : State ω κ τ} {op : Op ω κ τ} {path : Path τ} {fuel : ℕ}

theorem step_cases (h : step fuel s op = some (s', path)) : StepCases fuel s op s' path := by
  cases op with
  | goCreate w t =>
      cases hpc : s.threads w <;> simp only [step, Op.thread, hpc, reduceCtorEq] at h
      obtain ⟨sched, hs, he⟩ := Option.map_eq_some_iff.mp h
      cases he
      exact .goCreate hpc hs
  | dequeue w =>
      cases hpc : s.threads w <;> simp only [step, Op.thread, hpc, reduceCtorEq] at h
      cases h
      exact .dequeue hpc
  | send w c v cont env =>
      cases hpc : s.threads w <;> simp only [step, Op.thread, hpc, reduceCtorEq] at h
      obtain ⟨⟨ch, sched, path⟩, hs, he⟩ := Option.map_eq_some_iff.mp h
      cases he
      exact .send hpc hs
  | recv w c cont env =>
      cases hpc : s.threads w <;> simp only [step, Op.thread, hpc, reduceCtorEq] at h
      obtain ⟨⟨ch, sched, path⟩, hs, he⟩ := Option.map_eq_some_iff.mp h
      cases he
      exact .recv hpc hs
  | close w c =>
      cases hpc : s.threads w <;> simp only [step, Op.thread, hpc, reduceCtorEq] at h
      obtain ⟨⟨ch, sched⟩, hs, he⟩ := Option.map_eq_some_iff.mp h
      cases he
      exact .close hpc hs
  | resume w =>
      cases hpc : s.threads w with
      | idle => simp only [step, Op.thread, hpc, reduceCtorEq] at h
      | wake t =>
          simp only [step, Op.thread, hpc] at h
          obtain ⟨sched, hs, he⟩ := Option.map_eq_some_iff.mp h
          cases he
          exact .wake hpc hs
      | wakeThenRecv t c cont env =>
          simp only [step, Op.thread, hpc] at h
          obtain ⟨sched, hs, he⟩ := Option.map_eq_some_iff.mp h
          cases he
          exact .wakeThenRecv hpc hs
      | recvAgain c cont env =>
          simp only [step, Op.thread, hpc] at h
          obtain ⟨⟨ch, sched, path⟩, hs, he⟩ := Option.map_eq_some_iff.mp h
          cases he
          exact .recvAgain hpc hs

end Cases

end Visuall.Scheduler
