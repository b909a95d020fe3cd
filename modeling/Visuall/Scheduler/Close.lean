import Visuall.Scheduler.Channel

/-!
# Closing a channel

After `__visuall_chan_close` the wait queues of the channel are empty.  Sends test the closed flag
before anything else and never park again; `__visuall_chan_recv` does not test it at all.

* `ParksReceiver` — the step reaches the blocking path of a receive;
* `closed_empty_iff_no_park` — the queues of a closed channel stay empty exactly as long as no
  receive reaches that path.
-/

namespace Visuall.Scheduler

variable {ω κ τ : Type*} [DecidableEq ω] [DecidableEq κ] [DecidableEq τ]
  {s s' s₁ : State ω κ τ} {op : Op ω κ τ} {path : Path τ} {fuel : ℕ} {w : ω} {c d : κ}

/-! ### The wait queues of a closed channel -/

/-- No task is parked on the channel. -/
def NoneParked (ch : VisuallChannel τ) : Prop :=
  ch.blockedSendersHead = none ∧ ch.blockedReceiversHead = none

/-- The last part of a receive parks the caller. -/
def WouldPark (ch : VisuallChannel τ) (cont : Bool) (contEnv : Option τ) : Prop :=
  ch.count = 0 ∧ cont = true ∧ contEnv ≠ none

/-- The step is a receive on channel `c` that reaches its blocking path: nothing was handed to the
caller, the buffer is empty, no sender waits, and there is a continuation to park. -/
def ParksReceiver (c : κ) (s : State ω κ τ) : Op ω κ τ → Prop
  | .recv _ d cont env =>
      d = c ∧ pendingRecv s.sched env = none ∧ (s.chans c).blockedSendersHead = none ∧
        WouldPark (s.chans c) cont env
  | .resume w =>
      ∃ cont env, s.threads w = .recvAgain c cont env ∧ WouldPark (s.chans c) cont env
  | _ => False

theorem blockedEnqueue_head {q q' : Sched τ} {head head' : Option τ} {t : τ}
    (h : blockedEnqueue fuel q head t = some (head', q')) : head' ≠ none := by
  cases head with
  | none =>
      cases h
      exact Option.some_ne_none t
  | some a =>
      obtain ⟨cur, -, he⟩ := Option.bind_eq_some_iff.mp h
      cases he
      exact Option.some_ne_none a

omit [DecidableEq τ] in
theorem ringTake_heads {ch ch' : VisuallChannel τ} {val : Int64}
    (h : ringTake ch = some (val, ch')) : ch'.closed = ch.closed ∧
      ch'.blockedSendersHead = ch.blockedSendersHead ∧
      ch'.blockedReceiversHead = ch.blockedReceiversHead := by
  unfold ringTake at h
  split at h <;> cases h
  exact ⟨rfl, rfl, rfl⟩

/-- The last part of a receive leaves the queue of receivers empty exactly when it does not park. -/
theorem chanRecvAgain_heads {ch ch' : VisuallChannel τ} {q q' : Sched τ} {cont : Bool}
    {env : Option τ} (h : chanRecvAgain fuel ch q cont env = some (ch', q', path))
    (hr : ch.blockedReceiversHead = none) :
    ch'.closed = ch.closed ∧ ch'.blockedSendersHead = ch.blockedSendersHead ∧
      (ch'.blockedReceiversHead = none ↔ ¬ WouldPark ch cont env) := by
  rcases chanRecvAgain_cases h with ⟨hcount, val, -, ht, -⟩ |
    ⟨hcount, hcont, self, head, henv, -, hb, rfl⟩ | ⟨hcount, hnot, -, rfl, -⟩
  · obtain ⟨hcl, hse, hre⟩ := ringTake_heads ht
    exact ⟨hcl, hse, iff_of_true (hre.trans hr) fun hp => absurd hp.1 (by omega)⟩
  · refine ⟨rfl, rfl, iff_of_false (blockedEnqueue_head hb) fun hn => hn ⟨hcount, hcont, ?_⟩⟩
    rw [henv]
    exact Option.some_ne_none self
  · refine ⟨rfl, rfl, iff_of_true hr fun ⟨_, hcont, henv⟩ => ?_⟩
    rcases hnot with hnot | hnot
    · rw [hnot] at hcont
      exact Bool.false_ne_true hcont
    · exact henv hnot

theorem chanRecv_of_empty {ch : VisuallChannel τ} {q : Sched τ} {cont : Bool} {env : Option τ}
    (hp : pendingRecv q env = none) (hs : ch.blockedSendersHead = none) :
    chanRecv fuel ch q cont env = chanRecvAgain fuel ch q cont env := by
  rw [chanRecv, hp, hs]
  rfl

/-- Closing empties both queues. -/
theorem chanClose_noneParked {ch ch' : VisuallChannel τ} {q q' : Sched τ}
    (h : chanClose fuel ch q = some (ch', q')) : ch'.closed = true ∧ NoneParked ch' := by
  obtain ⟨q₁, -, h₁⟩ := Option.bind_eq_some_iff.mp h
  obtain ⟨q₂, -, h₂⟩ := Option.bind_eq_some_iff.mp h₁
  cases h₂
  exact ⟨rfl, rfl, rfl⟩

/-- **One step on a closed channel.**  It stays closed, and its queues stay empty unless the step
parks a receiver. -/
theorem step_closed (h : Step s op s') (hclosed : (s.chans c).closed = true)
    (hnone : NoneParked (s.chans c)) :
    (s'.chans c).closed = true ∧ (NoneParked (s'.chans c) ↔ ¬ ParksReceiver c s op) := by
  obtain ⟨fuel, path, h⟩ := h
  obtain ⟨hsend, hrecv⟩ := id hnone
  cases step_cases h with
  | goCreate => exact ⟨hclosed, iff_of_true hnone id⟩
  | dequeue => exact ⟨hclosed, iff_of_true hnone id⟩
  | wake hpc =>
      exact ⟨hclosed, iff_of_true hnone
        fun ⟨_, _, hp, _⟩ => absurd (hpc.symm.trans hp) (by simp)⟩
  | wakeThenRecv hpc =>
      exact ⟨hclosed, iff_of_true hnone
        fun ⟨_, _, hp, _⟩ => absurd (hpc.symm.trans hp) (by simp)⟩
  | @send w d v cont env ch sched path hpc hs =>
      by_cases hd : c = d
      · subst hd
        unfold chanSend at hs
        rw [if_pos hclosed] at hs
        cases hs
        rw [State.put_chans_self]
        exact ⟨hclosed, iff_of_true hnone id⟩
      · rw [State.put_chans_of_ne hd]
        exact ⟨hclosed, iff_of_true hnone id⟩
  | @close w d ch sched hpc hs =>
      by_cases hd : c = d
      · subst hd
        obtain ⟨hcl, hnone'⟩ := chanClose_noneParked hs
        rw [State.put_chans_self]
        exact ⟨hcl, iff_of_true hnone' id⟩
      · rw [State.put_chans_of_ne hd]
        exact ⟨hclosed, iff_of_true hnone id⟩
  | @recv w d cont env ch sched path hpc hs =>
      by_cases hd : c = d
      · subst hd
        rw [State.put_chans_self]
        cases hpend : pendingRecv s.sched env with
        | some p =>
            -- the value handed over is returned; the channel is not touched
            rw [chanRecv, hpend] at hs
            cases hs
            refine ⟨hclosed, iff_of_true hnone fun hp => ?_⟩
            exact absurd (hpend.symm.trans hp.2.1) (Option.some_ne_none p)
        | none =>
            rw [chanRecv_of_empty hpend hsend] at hs
            obtain ⟨hcl, hse, hre⟩ := chanRecvAgain_heads hs hrecv
            refine ⟨hcl.trans hclosed, ?_⟩
            rw [NoneParked, hse, hre]
            simp [ParksReceiver, hsend, hpend]
      · rw [State.put_chans_of_ne hd]
        exact ⟨hclosed, iff_of_true hnone fun hp => hd hp.1.symm⟩
  | @recvAgain w d cont env ch sched path hpc hs =>
      by_cases hd : c = d
      · subst hd
        rw [State.put_chans_self]
        obtain ⟨hcl, hse, hre⟩ := chanRecvAgain_heads hs hrecv
        refine ⟨hcl.trans hclosed, ?_⟩
        rw [NoneParked, hse, hre]
        simp [ParksReceiver, hsend, hpc]
      · rw [State.put_chans_of_ne hd]
        refine ⟨hclosed, iff_of_true hnone fun ⟨cont', env', hp, _⟩ => ?_⟩
        rw [hpc] at hp
        injection hp with hdc
        exact hd hdc.symm

/-- **When a closed channel stays free of parked tasks.**  Along every run after a close, the two
wait queues are empty in every state exactly when no step is a receive that reaches its blocking
path. -/
theorem closed_empty_iff_no_park {w : ω} {tr : List (Op ω κ τ × State ω κ τ)}
    (hclose : Step s (.close w c) s') (hrun : Run Step s' tr) :
    (∀ t ∈ Run.states s' tr,
        (t.chans c).blockedSendersHead = none ∧ (t.chans c).blockedReceiversHead = none) ↔
      ∀ p ∈ Run.steps s' tr, ¬ ParksReceiver c p.1 p.2 := by
  obtain ⟨fuel, path, h⟩ := hclose
  cases step_cases h with
  | close hpc hs =>
      obtain ⟨hcl, hnone⟩ := chanClose_noneParked hs
      exact Run.forall_states_iff (I := fun t => (t.chans c).closed = true)
        (J := fun t => NoneParked (t.chans c)) (fun s e s' hI hJ h => step_closed h hI hJ)
        (by rwa [State.put_chans_self]) (by rwa [State.put_chans_self]) hrun

/-- A close followed by a send: no step parks a receiver, and both queues stay empty. -/
theorem closed_empty_iff_no_park_send :
    ∃ (s' : State ℕ ℕ ℕ) (tr : List (Op ℕ ℕ ℕ × State ℕ ℕ ℕ)),
      Step (freshState 0 0) (.close 0 0) s' ∧ Run Step s' tr ∧ tr.length = 1 ∧
        ((∀ t ∈ Run.states s' tr,
            (t.chans 0).blockedSendersHead = none ∧ (t.chans 0).blockedReceiversHead = none) ↔
          ∀ p ∈ Run.steps s' tr, ¬ ParksReceiver 0 p.1 p.2) := by
  exact ⟨_, [(.send 0 0 7 true (some 5), _)], ⟨1, .silent, rfl⟩, ⟨⟨1, .sendClosed, rfl⟩, trivial⟩,
    rfl, closed_empty_iff_no_park (s := freshState 0 0) (w := 0) ⟨1, .silent, rfl⟩
      ⟨⟨1, .sendClosed, rfl⟩, trivial⟩⟩

/-- A receive with a continuation, started after the close, parks its task. -/
theorem closed_channel_parks_receiver :
    ¬ ∀ (s s' : State ℕ ℕ ℕ) (w c : ℕ) (tr : List (Op ℕ ℕ ℕ × State ℕ ℕ ℕ)),
      Step s (.close w c) s' → Run Step s' tr → ∀ t ∈ Run.states s' tr,
        (t.chans c).blockedSendersHead = none ∧ (t.chans c).blockedReceiversHead = none := by
  intro h
  have := (h (freshState 0 0) _ 0 0 [(.recv 0 0 true (some 5), _)] ⟨1, .silent, rfl⟩
    ⟨⟨1, .recvParked 5, rfl⟩, trivial⟩ _ (List.mem_cons_of_mem _ (List.mem_singleton_self _))).2
  exact absurd this (by simp [State.put, Function.update])

end Visuall.Scheduler
