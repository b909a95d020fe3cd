import Visuall.Lib.RingBuffer
import Visuall.Scheduler.Queues

/-!
# The history of a channel

What a channel is for: values come out in the order they were sent, each once.  To say so, a run
carries a record of the sends issued on the channel, the values its receives returned, and the
tasks in between that the C keeps no list of.

* `History`, `History.record` — the record, and how a step extends it;
* `Conserved` — the sends issued are the values returned, then those still on their way, in order;
* `Orderly` — the condition on a step under which the channel keeps that property.
-/

namespace Visuall.Scheduler

variable {ω κ τ : Type*}

/-- What has happened on one channel. -/
structure History (τ : Type*) where
  /-- The values whose send was issued. -/
  issued : List Int64
  /-- The values receives returned. -/
  returned : List Int64
  /-- The tasks a value was handed to and that have not picked it up, in the order of the hand-offs. -/
  handed : List τ
  /-- The senders a receive has woken and that have not sent again, in the order they were woken. -/
  woken : List τ
  /-- The value a parked or woken sender is sending. -/
  sending : τ → Int64

/-- Nothing has happened. -/
def History.empty : History τ := ⟨[], [], [], [], fun _ => 0⟩

variable [DecidableEq τ]

/-- A woken sender that calls `chan_send` with the value it was parked with is not issuing a new
send. -/
def History.retries (h : History τ) (contEnv : Option τ) (value : Int64) : Option τ :=
  match contEnv with
  | some t => if t ∈ h.woken ∧ h.sending t = value then some t else none
  | none => none

/-- A call of `chan_send`, before its outcome. -/
def History.call (h : History τ) (contEnv : Option τ) (value : Int64) : History τ :=
  match h.retries contEnv value with
  | some t => { h with woken := h.woken.erase t }
  | none => { h with issued := h.issued ++ [value] }

/-- The outcome of a call; `value` is the value of a send. -/
def History.outcome (h : History τ) (value : Int64) : Path τ → History τ
  | .handedOff t => { h with handed := h.handed ++ [t] }
  | .sendParked t => { h with sending := Function.update h.sending t value }
  | .pickedUp t val => { h with handed := h.handed.erase t, returned := h.returned ++ [val] }
  | .took val sender =>
      { h with woken := h.woken ++ sender.toList, returned := h.returned ++ [val] }
  | .wokeSender t => { h with woken := h.woken ++ [t] }
  | .recvEmpty => { h with returned := h.returned ++ [0] }
  | _ => h

/-- A step on the channel, entered into its history. -/
def History.record (h : History τ) (op : Op ω κ τ) (path : Path τ) : History τ :=
  match op with
  | .send _ _ value _ contEnv => (h.call contEnv value).outcome value path
  | _ => h.outcome 0 path

/-- The values in the occupied part of the ring buffer, oldest first. -/
def VisuallChannel.contents (ch : VisuallChannel τ) : List Int64 :=
  ring ch.buffer ch.capacity.toNat ch.head ch.count

/-- **Nothing lost, duplicated, invented or reordered.**  The sends issued are the values returned,
then those handed off and not picked up, the contents of the ring buffer, and the values of the
senders that wait, woken or parked. -/
def Conserved (c : κ) (s : State ω κ τ) (h : History τ) : Prop :=
  (∀ t, t ∈ h.handed ↔ (s.sched.tasks t).hasRecv = true) ∧
    ∃ senders, Linked s.sched.next (s.chans c).blockedSendersHead senders ∧
      h.issued = h.returned ++ h.handed.map (fun t => (s.sched.tasks t).recvValue) ++
        (s.chans c).contents ++ (h.woken ++ senders).map h.sending

section Step

variable [DecidableEq ω] [DecidableEq κ]

/-- A step together with its entry in the history. -/
def HistoryStep (p : State ω κ τ × History τ) (op : Op ω κ τ) (p' : State ω κ τ × History τ) :
    Prop :=
  ∃ fuel path, step fuel p.1 op = some (p'.1, path) ∧ p'.2 = p.2.record op path

/-- The step is on channel `c`, or on no channel, and does not close it. -/
def OnOpen (c : κ) (s : State ω κ τ) : Op ω κ τ → Prop
  | .send _ d _ _ _ => d = c
  | .recv _ d _ _ => d = c
  | .close _ _ => False
  | .resume w => ∀ d cont env, s.threads w = .recvAgain d cont env → d = c
  | _ => True

/-- The task is in no queue, nor between two. -/
structure Free (c : κ) (s : State ω κ τ) (t : τ) : Prop where
  receivers : ∀ l, Linked s.sched.next (s.chans c).blockedReceiversHead l → t ∉ l
  senders : ∀ l, Linked s.sched.next (s.chans c).blockedSendersHead l → t ∉ l
  ready : ∀ l, Linked s.sched.next s.sched.readyHead l → t ∉ l
  held : ∀ w, (s.threads w).holds ≠ some t

/-- A send keeps the order: one that does not block overtakes no waiting sender, and one that
blocks has a task to park, behind every other. -/
def OrderlySend (c : κ) (s : State ω κ τ) (h : History τ) (value : Int64) (cont : Bool)
    (contEnv : Option τ) : Prop :=
  (Accepts (s.chans c) →
    match h.retries contEnv value with
    | some t => h.woken.head? = some t
    | none => h.woken = [] ∧ (s.chans c).blockedSendersHead = none) ∧
  (¬ Accepts (s.chans c) →
    cont = true ∧ ∃ t, contEnv = some t ∧ Free c s t ∧
      match h.retries contEnv value with
      | some _ => h.woken = [t] ∧ (s.chans c).blockedSendersHead = none
      | none => t ∉ h.woken)

/-- The last part of a receive keeps the order: it takes from the buffer only when nothing handed
off is left to pick up, and one that blocks has a task to park. -/
def OrderlyAgain (c : κ) (s : State ω κ τ) (h : History τ) (cont : Bool) (contEnv : Option τ) :
    Prop :=
  (0 < (s.chans c).count → h.handed = []) ∧
  ((s.chans c).count = 0 →
    cont = true ∧ ∃ t, contEnv = some t ∧ Free c s t ∧ (s.sched.tasks t).hasRecv = false)

/-- A receive keeps the order: values handed off are picked up in order and before any other. -/
def OrderlyRecv (c : κ) (s : State ω κ τ) (h : History τ) (cont : Bool) (contEnv : Option τ) :
    Prop :=
  match pendingRecv s.sched contEnv with
  | some (t, _) => h.handed.head? = some t
  | none =>
      if (s.chans c).blockedSendersHead = none then OrderlyAgain c s h cont contEnv
      else 0 < (s.chans c).count → h.handed = []

/-- The condition on one step. -/
def Orderly (c : κ) (p : State ω κ τ × History τ) : Op ω κ τ → Prop
  | .goCreate _ t => Free c p.1 t ∧ (p.1.sched.tasks t).hasRecv = false
  | .send _ _ value cont env => OrderlySend c p.1 p.2 value cont env
  | .recv _ _ cont env => OrderlyRecv c p.1 p.2 cont env
  | .resume w => ∀ d cont env, p.1.threads w = .recvAgain d cont env → OrderlyAgain c p.1 p.2 cont env
  | _ => True

/-- The channel has just been made: nothing is parked or handed off, the tasks already created are
in the ready queue. -/
structure Starts (c : κ) (s : State ω κ τ) : Prop where
  chan : ∃ capacity bufferLen, s.chans c = chanCreate capacity bufferLen
  noRecv : ∀ t, (s.sched.tasks t).hasRecv = false
  ready : ∃ rd, Ready s.sched rd
  idle : ∀ w, s.threads w = .idle

end Step

end Visuall.Scheduler
