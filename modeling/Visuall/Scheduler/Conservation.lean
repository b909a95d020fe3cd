import Visuall.Scheduler.History

/-!
# Channels conserve their values

The invariant behind `Conserved` has two parts, each kept by every orderly step: the queues are
separate terminated lists of tasks (`Placed`), and the task slots and the ring buffer hold what the
history says is on its way (`Slots`).

* `Placed`, `Placed.update` — where the tasks are, and how a step may move them;
* `Slots` — the task slots and the buffer, as the send and receive sections keep them;
* `Invariant` — both parts together, with the account of the values;
* `channel_conserves` — every run of orderly steps conserves the values.
-/

namespace Visuall.Scheduler

variable {ω κ τ : Type*}

/-! ### Where the tasks are -/

/-- The queues hold the tasks `rl`, `sl` and `rd`, no task twice, and none that a thread has yet
to enqueue. -/
structure Placed (c : κ) (s : State ω κ τ) (rl sl rd : List τ) : Prop where
  receivers : Linked s.sched.next (s.chans c).blockedReceiversHead rl
  senders : Linked s.sched.next (s.chans c).blockedSendersHead sl
  ready : Ready s.sched rd
  nodup : (rl ++ sl ++ rd).Nodup
  held : ∀ w t, (s.threads w).holds = some t → t ∉ rl ++ sl ++ rd
  heldOnce : ∀ w w' t, (s.threads w).holds = some t → (s.threads w').holds = some t → w = w'

section Placed

variable {c : κ} {s s' : State ω κ τ} {rl sl rd rl' sl' rd' : List τ}

theorem Free.notMem {t : τ} (hf : Free c s t) (hp : Placed c s rl sl rd) : t ∉ rl ++ sl ++ rd := by
  simp only [List.mem_append, not_or]
  exact ⟨⟨hf.receivers _ hp.receivers, hf.senders _ hp.senders⟩, hf.ready _ hp.ready.linked⟩

variable [DecidableEq ω] [DecidableEq τ]

/-- **Moving tasks.**  Thread `w` may drop tasks, move them between the queues and its own hands,
and bring in tasks `e` that nobody else has. -/
theorem Placed.update {w : ω} {p : Pc κ τ} {e : List τ} (hp : Placed c s rl sl rd)
    (hthreads : s'.threads = Function.update s.threads w p)
    (hreceivers : Linked s'.sched.next (s'.chans c).blockedReceiversHead rl')
    (hsenders : Linked s'.sched.next (s'.chans c).blockedSendersHead sl')
    (hready : Ready s'.sched rd')
    (hextra : ∀ t ∈ e, t ∉ rl ++ sl ++ rd ∧ ∀ w', (s.threads w').holds = some t → w' = w)
    (hnd : e.Nodup)
    (hcount : ∀ t, (rl' ++ sl' ++ rd' ++ p.holds.toList).count t ≤
      (rl ++ sl ++ rd ++ e).count t) : Placed c s' rl' sl' rd' := by
  have hold : (rl ++ sl ++ rd ++ e).Nodup :=
    List.nodup_append.mpr ⟨hp.nodup, hnd, fun a ha b hb hab => (hextra b hb).1 (hab ▸ ha)⟩
  have hnew : (rl' ++ sl' ++ rd' ++ p.holds.toList).Nodup :=
    List.nodup_iff_count_le_one.mpr fun t =>
      (hcount t).trans (List.nodup_iff_count_le_one.mp hold t)
  have hsub : ∀ t ∈ rl' ++ sl' ++ rd' ++ p.holds.toList, t ∈ rl ++ sl ++ rd ++ e :=
    fun t ht => List.count_pos_iff.mp ((List.count_pos_iff.mpr ht).trans_le (hcount t))
  -- what another thread holds is neither queued before the step nor brought in by it
  have hother : ∀ w' t, w' ≠ w → (s.threads w').holds = some t →
      t ∉ rl' ++ sl' ++ rd' ++ p.holds.toList := by
    intro w' t hw ht hmem
    rcases List.mem_append.mp (hsub t hmem) with h | h
    · exact hp.held w' t ht h
    · exact hw ((hextra t h).2 w' ht)
  refine ⟨hreceivers, hsenders, hready, (List.nodup_append.mp hnew).1, ?_, ?_⟩
  · intro w' t ht hmem
    rw [hthreads] at ht
    rcases eq_or_ne w' w with rfl | hw
    · rw [Function.update_self] at ht
      exact (List.nodup_append.mp hnew).2.2 t hmem t (by rw [ht]; simp) rfl
    · rw [Function.update_of_ne hw] at ht
      exact hother w' t hw ht (List.mem_append_left _ hmem)
  · intro w₁ w₂ t h₁ h₂
    rw [hthreads] at h₁ h₂
    by_cases hw₁ : w₁ = w <;> by_cases hw₂ : w₂ = w
    · rw [hw₁, hw₂]
    · rw [hw₁, Function.update_self] at h₁
      rw [Function.update_of_ne hw₂] at h₂
      exact absurd (List.mem_append_right _ (by rw [h₁]; simp)) (hother w₂ t hw₂ h₂)
    · rw [Function.update_of_ne hw₁] at h₁
      rw [hw₂, Function.update_self] at h₂
      exact absurd (List.mem_append_right _ (by rw [h₂]; simp)) (hother w₁ t hw₁ h₁)
    · rw [Function.update_of_ne hw₁] at h₁
      rw [Function.update_of_ne hw₂] at h₂
      exact hp.heldOnce w₁ w₂ t h₁ h₂

end Placed

/-! ### The ring buffer -/

/-- The indices of the ring buffer fit its contents. -/
structure RingOk (ch : VisuallChannel τ) : Prop where
  unbuffered : ch.capacity ≤ 0 → ch.count = 0
  head_lt : 0 < ch.capacity → ch.head < ch.capacity.toNat
  count_le : ch.count ≤ ch.capacity.toNat
  tail_eq : 0 < ch.capacity → ch.tail = LinearProbe.slotAt ch.capacity.toNat ch.head ch.count

section Ring

variable {ch ch' : VisuallChannel τ} {v : Int64}

theorem RingOk.capacity_pos (h : RingOk ch) (hcount : 0 < ch.count) : 0 < ch.capacity := by
  by_contra hc
  have := h.unbuffered (by omega)
  omega

/-- Storing a value puts it last. -/
theorem ringPut_spec (h : RingOk ch) (hc : 0 < ch.capacity) (hcount : (ch.count : ℤ) < ch.capacity)
    (hput : ringPut ch v = some ch') :
    RingOk ch' ∧ ch'.contents = ch.contents ++ [v] ∧ ch'.closed = ch.closed ∧
      ch'.blockedReceiversHead = ch.blockedReceiversHead ∧
      ch'.blockedSendersHead = ch.blockedSendersHead := by
  unfold ringPut at hput
  split at hput <;> cases hput
  refine ⟨⟨?_, h.head_lt, ?_, ?_⟩, ?_, rfl, rfl, rfl⟩
  · exact fun hneg => absurd hc (by simpa using hneg)
  · change ch.count + 1 ≤ ch.capacity.toNat
    omega
  · intro _
    change (ch.tail + 1) % ch.capacity.toNat = _
    rw [h.tail_eq hc, LinearProbe.slotAt_succ]
  · change ring (Function.update ch.buffer ch.tail v) _ _ (ch.count + 1) = _
    rw [h.tail_eq hc, ring_push (by omega)]
    rfl

/-- Taking a value takes the first. -/
theorem ringTake_spec (h : RingOk ch) (hcount : 0 < ch.count) (htake : ringTake ch = some (v, ch')) :
    RingOk ch' ∧ ch.contents = v :: ch'.contents ∧ ch'.count < ch.count ∧ ch'.closed = ch.closed ∧
      ch'.blockedReceiversHead = ch.blockedReceiversHead ∧
      ch'.blockedSendersHead = ch.blockedSendersHead := by
  have hc := h.capacity_pos hcount
  have hle := h.count_le
  obtain ⟨n, hn⟩ : ∃ n, ch.count = n + 1 := ⟨ch.count - 1, by omega⟩
  unfold ringTake at htake
  split at htake <;> cases htake
  refine ⟨⟨?_, ?_, ?_, ?_⟩, ?_, ?_, rfl, rfl, rfl⟩
  · exact fun hneg => absurd hc (by simpa using hneg)
  · exact fun _ => Nat.mod_lt _ (by omega)
  · change ch.count - 1 ≤ ch.capacity.toNat
    omega
  · intro _
    change ch.tail = LinearProbe.slotAt _ ((ch.head + 1) % _) (ch.count - 1)
    rw [h.tail_eq hc, LinearProbe.slotAt_mod, hn, LinearProbe.slotAt, LinearProbe.slotAt,
      Nat.add_sub_cancel, Nat.add_assoc, Nat.add_comm 1 n]
  · change ring _ _ _ ch.count = ch.buffer ch.head :: ring _ _ _ (ch.count - 1)
    rw [hn, ring_pop (h.head_lt hc)]
    rfl
  · change ch.count - 1 < ch.count
    omega

end Ring

/-! ### The task slots and the buffer -/

/-- An open channel with the receivers `rl` parked, and the values handed to the tasks `handed`. -/
structure Slots (ch : VisuallChannel τ) (q : Sched τ) (handed rl : List τ) : Prop where
  isOpen : ch.closed = false
  ring : RingOk ch
  /-- Receivers wait only for an empty buffer. -/
  parked : rl ≠ [] → ch.count = 0
  mem_handed : ∀ t, t ∈ handed ↔ (q.tasks t).hasRecv = true
  handedNodup : handed.Nodup
  receivers : ∀ t ∈ rl, (q.tasks t).hasRecv = false

/-- The values handed to the tasks. -/
def pending (q : Sched τ) (handed : List τ) : List Int64 :=
  handed.map fun t => (q.tasks t).recvValue

section Slots

variable {ch ch' : VisuallChannel τ} {q q' : Sched τ} {handed rl : List τ} {l : List τ} {t : τ}
  {v : Int64}

/-- Which tasks are parked where is not part of the slots. -/
theorem Slots.heads (h : Slots ch q handed rl) (r s : Option τ) :
    Slots { ch with blockedReceiversHead := r, blockedSendersHead := s } q handed rl :=
  ⟨h.isOpen, ⟨h.ring.unbuffered, h.ring.head_lt, h.ring.count_le, h.ring.tail_eq⟩, h.parked,
    h.mem_handed, h.handedNodup, h.receivers⟩

theorem Slots.relinks (h : Slots ch q handed rl) (hr : Relinks l q q') :
    Slots ch q' handed rl where
  isOpen := h.isOpen
  ring := h.ring
  parked := h.parked
  mem_handed t := by rw [hr.hasRecv, h.mem_handed]
  handedNodup := h.handedNodup
  receivers t ht := by rw [hr.hasRecv, h.receivers t ht]

theorem pending_relinks (hr : Relinks l q q') : pending q' handed = pending q handed :=
  List.map_congr_left fun t _ => hr.recvValue t

theorem contents_eq_nil (h : ch.count = 0) : ch.contents = [] := by
  rw [VisuallChannel.contents, h, ring_zero]

variable [DecidableEq τ]

theorem pending_setRecv {r : Bool} (ht : t ∉ handed) :
    pending (q.setRecv t r v) handed = pending q handed :=
  List.map_congr_left fun b hb => by rw [tasks_setRecv_of_ne (ne_of_mem_of_not_mem hb ht)]

/-- A value is handed to the first parked receiver. -/
theorem Slots.handOff (h : Slots ch q handed (t :: rl)) (ht : t ∉ rl) :
    Slots ch (q.setRecv t true v) (handed ++ [t]) rl ∧ ch.contents = [] ∧
      pending (q.setRecv t true v) (handed ++ [t]) = pending q handed ++ [v] := by
  have hnot : t ∉ handed := by
    rw [h.mem_handed, h.receivers t List.mem_cons_self]
    exact Bool.false_ne_true
  have hcount := h.parked (List.cons_ne_nil t rl)
  refine ⟨⟨h.isOpen, h.ring, fun _ => hcount, fun b => ?_, ?_, fun b hb => ?_⟩,
    contents_eq_nil hcount, ?_⟩
  · rcases eq_or_ne b t with rfl | hb
    · simp
    · simp [tasks_setRecv_of_ne hb, h.mem_handed, hb]
  · exact List.nodup_append.mpr
      ⟨h.handedNodup, List.nodup_singleton t, fun a ha b hb hab => by
        rw [List.mem_singleton.mp hb] at hab
        exact hnot (hab ▸ ha)⟩
  · rw [tasks_setRecv_of_ne (ne_of_mem_of_not_mem hb ht)]
    exact h.receivers b (List.mem_cons_of_mem t hb)
  · have hpend := pending_setRecv (q := q) (v := v) (r := true) hnot
    rw [pending] at hpend ⊢
    rw [List.map_append, hpend, List.map_singleton, tasks_setRecv_self]

/-- The first value handed off is picked up. -/
theorem Slots.pickUp (h : Slots ch q (t :: handed) rl) :
    Slots ch (q.setRecv t false 0) handed rl ∧
      pending (q.setRecv t false 0) handed = pending q handed := by
  obtain ⟨hnot, hnd⟩ := List.nodup_cons.mp h.handedNodup
  refine ⟨⟨h.isOpen, h.ring, h.parked, fun b => ?_, hnd, fun b hb => ?_⟩, pending_setRecv hnot⟩
  · rcases eq_or_ne b t with rfl | hb
    · simp [hnot]
    · rw [tasks_setRecv_of_ne hb, ← h.mem_handed, List.mem_cons]
      exact ⟨Or.inr, fun hm => hm.resolve_left hb⟩
  · rcases eq_or_ne b t with rfl | hbt
    · simp
    · rw [tasks_setRecv_of_ne hbt]
      exact h.receivers b hb

omit [DecidableEq τ] in
/-- A value is stored behind the others. -/
theorem Slots.put (h : Slots ch q handed []) (hc : 0 < ch.capacity)
    (hcount : (ch.count : ℤ) < ch.capacity) (hput : ringPut ch v = some ch') :
    Slots ch' q handed [] ∧ ch'.contents = ch.contents ++ [v] := by
  obtain ⟨hring, hcont, hcl, -, -⟩ := ringPut_spec h.ring hc hcount hput
  exact ⟨⟨hcl.trans h.isOpen, hring, fun hne => absurd rfl hne, h.mem_handed, h.handedNodup,
    h.receivers⟩, hcont⟩

omit [DecidableEq τ] in
/-- The oldest value is taken. -/
theorem Slots.take (h : Slots ch q handed rl) (hcount : 0 < ch.count)
    (htake : ringTake ch = some (v, ch')) :
    Slots ch' q handed rl ∧ ch.contents = v :: ch'.contents := by
  obtain ⟨hring, hcont, hlt, hcl, -, -⟩ := ringTake_spec h.ring hcount htake
  exact ⟨⟨hcl.trans h.isOpen, hring, fun hne => absurd (h.parked hne) (by omega), h.mem_handed,
    h.handedNodup, h.receivers⟩, hcont⟩

omit [DecidableEq τ] in
/-- A receiver with nothing handed to it parks on an empty buffer. -/
theorem Slots.park (h : Slots ch q handed rl) (hcount : ch.count = 0)
    (ht : (q.tasks t).hasRecv = false) : Slots ch q handed (rl ++ [t]) where
  isOpen := h.isOpen
  ring := h.ring
  parked _ := hcount
  mem_handed := h.mem_handed
  handedNodup := h.handedNodup
  receivers b hb := by
    rcases List.mem_append.mp hb with hb | hb
    · exact h.receivers b hb
    · rw [List.mem_singleton.mp hb, ht]

end Slots

/-! ### The invariant -/

/-- The tasks are placed, the slots are right, and the values are accounted for. -/
structure Invariant (c : κ) (s : State ω κ τ) (h : History τ) (rl sl rd : List τ) : Prop where
  placed : Placed c s rl sl rd
  slots : Slots (s.chans c) s.sched h.handed rl
  issued : h.issued = h.returned ++ pending s.sched h.handed ++ (s.chans c).contents ++
    (h.woken ++ sl).map h.sending

section Step

variable [DecidableEq ω] [DecidableEq κ] [DecidableEq τ] {c : κ} {s s' : State ω κ τ}
  {h : History τ} {rl sl rd : List τ} {t : τ} {w : ω} {fuel : ℕ} {path : Path τ}

omit [DecidableEq ω] [DecidableEq κ] in
theorem Ready.setRecv {q : Sched τ} {r : Bool} {v : Int64} (hr : Ready q rd) :
    Ready (q.setRecv t r v) rd :=
  ⟨by rw [next_setRecv]; exact hr.linked, hr.last⟩

omit [DecidableEq κ] in
/-- Putting a task that nobody else has on the ready queue. -/
theorem Invariant.enqueue (hI : Invariant c s h rl sl rd) {q : Sched τ} {p : Pc κ τ}
    (ht : t ∉ rl ++ sl ++ rd) (honly : ∀ w', (s.threads w').holds = some t → w' = w)
    (hpc : p.holds = none) (hq : schedEnqueue s.sched t = some q) :
    Invariant c (s.putSched w q p) h rl sl (rd ++ [t]) := by
  obtain ⟨hp, hs, hissued⟩ := hI
  have hnd := hp.nodup
  simp only [List.mem_append, not_or] at ht
  obtain ⟨⟨htr, hts⟩, htd⟩ := ht
  obtain ⟨hready, hre⟩ := schedEnqueue_spec hp.ready htd hq
  have hdisj : ∀ b, b ∈ rl ++ sl → b ∉ t :: rd := by
    intro b hb hmem
    rcases List.mem_cons.mp hmem with rfl | hmem
    · rcases List.mem_append.mp hb with hb | hb
      · exact htr hb
      · exact hts hb
    · exact (List.nodup_append.mp hnd).2.2 b hb b hmem rfl
  refine ⟨hp.update (w := w) (p := p) (e := [t]) rfl
    (hre.linked hp.receivers fun b hb => hdisj b (List.mem_append_left _ hb))
    (hre.linked hp.senders fun b hb => hdisj b (List.mem_append_right _ hb)) hready ?_
    (List.nodup_singleton t) ?_, hs.relinks hre, ?_⟩
  · intro b hb
    rw [List.mem_singleton.mp hb]
    exact ⟨by simp [htr, hts, htd], honly⟩
  · intro b
    rw [hpc]
    simp
  · change h.issued = h.returned ++ pending q h.handed ++ _ ++ _
    rw [pending_relinks hre]
    exact hissued

omit [DecidableEq κ] in
/-- A worker takes the first ready task. -/
theorem Invariant.dequeue (hI : Invariant c s h rl sl rd) :
    Invariant c (s.putSched w (schedDequeue s.sched).2 .idle) h rl sl rd.tail := by
  obtain ⟨hp, hs, hissued⟩ := hI
  obtain ⟨-, hready, hre⟩ := schedDequeue_spec hp.ready
  have hdisj : ∀ b ∈ rl ++ sl, b ∉ rd := fun b hb hmem =>
    (List.nodup_append.mp hp.nodup).2.2 b hb b hmem rfl
  refine ⟨hp.update (w := w) (p := .idle) (e := []) rfl
    (hre.linked hp.receivers fun b hb => hdisj b (List.mem_append_left _ hb))
    (hre.linked hp.senders fun b hb => hdisj b (List.mem_append_right _ hb)) hready (by simp)
    List.nodup_nil ?_, hs.relinks hre, ?_⟩
  · intro b
    have := (List.tail_sublist rd).count_le b
    simp [Pc.holds]
    omega
  · change h.issued = h.returned ++ pending (schedDequeue s.sched).2 h.handed ++ _ ++ _
    rw [pending_relinks hre]
    exact hissued

omit [DecidableEq κ] in
theorem Invariant.goCreate (hI : Invariant c s h rl sl rd) {q : Sched τ} (hf : Free c s t)
    (hrecv : (s.sched.tasks t).hasRecv = false) (hq : goCreate s.sched t = some q) :
    Invariant c (s.putSched w q .idle) h rl sl (rd ++ [t]) := by
  obtain ⟨hp, hs, hissued⟩ := id hI
  have ht := hf.notMem hp
  simp only [List.mem_append, not_or] at ht
  obtain ⟨⟨htr, hts⟩, htd⟩ := ht
  have hhanded : t ∉ h.handed := by
    rw [hs.mem_handed, hrecv]
    exact Bool.false_ne_true
  have hre : Relinks [t] (s.sched.setRecv t false 0) ((s.sched.setRecv t false 0).setNext t none) :=
    (Relinks.refl _ _).setNext (List.mem_singleton_self t) none
  have hfree : ∀ {l : List τ}, t ∉ l → ∀ b ∈ l, b ∉ [t] := fun htl b hb hbt =>
    htl (List.mem_singleton.mp hbt ▸ hb)
  have hI₀ : Invariant c { s with sched := (s.sched.setRecv t false 0).setNext t none } h rl sl rd := by
    refine ⟨⟨?_, ?_, ?_, hp.nodup, hp.held, hp.heldOnce⟩, ?_, ?_⟩
    · exact hre.linked (by rw [next_setRecv]; exact hp.receivers) (hfree htr)
    · exact hre.linked (by rw [next_setRecv]; exact hp.senders) (hfree hts)
    · exact hre.ready hp.ready.setRecv rfl rfl (hfree htd)
    · refine Slots.relinks ⟨hs.isOpen, hs.ring, hs.parked, fun b => ?_, hs.handedNodup,
        fun b hb => ?_⟩ hre
      · rcases eq_or_ne b t with rfl | hb
        · simp [hhanded]
        · rw [tasks_setRecv_of_ne hb, hs.mem_handed]
      · rw [tasks_setRecv_of_ne (ne_of_mem_of_not_mem hb htr)]
        exact hs.receivers b hb
    · rw [pending_relinks hre, pending_setRecv hhanded]
      exact hissued
  exact hI₀.enqueue (by simp [htr, hts, htd]) (fun w' hw' => absurd hw' (hf.held w')) rfl hq

omit [DecidableEq ω] [DecidableEq κ] [DecidableEq τ] in
theorem Invariant.free_notMem (hI : Invariant c s h rl sl rd) (hf : Free c s t) :
    (t ∉ rl ∧ t ∉ sl ∧ t ∉ rd) ∧ ∀ w', (s.threads w').holds = some t → w' = w := by
  have ht := hf.notMem hI.placed
  simp only [List.mem_append, not_or] at ht
  exact ⟨⟨ht.1.1, ht.1.2, ht.2⟩, fun w' hw' => absurd hw' (hf.held w')⟩

/-! ### Sending -/

variable {value : Int64} {cont : Bool} {env : Option τ}

theorem retries_eq_some (ht : h.retries env value = some t) :
    env = some t ∧ t ∈ h.woken ∧ h.sending t = value := by
  unfold History.retries at ht
  split at ht
  · split at ht
    · next hw =>
      cases ht
      exact ⟨rfl, hw⟩
    · cases ht
  · cases ht

theorem call_eq : h.call env value =
    { h with issued := (h.call env value).issued, woken := (h.call env value).woken } := by
  unfold History.call
  cases h.retries env value <;> rfl

omit [DecidableEq ω] [DecidableEq κ] in
/-- A send that does not block brings its value in front of those of the senders that wait. -/
theorem Invariant.call_accepts (hI : Invariant c s h rl sl rd) (hacc : Accepts (s.chans c))
    (hord : OrderlySend c s h value cont env) :
    (h.call env value).issued =
      h.returned ++ pending s.sched h.handed ++ (s.chans c).contents ++ [value] ++
        ((h.call env value).woken ++ sl).map h.sending := by
  have hord := hord.1 hacc
  rw [History.call]
  cases hret : h.retries env value with
  | some t =>
      rw [hret] at hord
      obtain ⟨ws, hws⟩ : ∃ ws, h.woken = t :: ws := by
        cases hw : h.woken with
        | nil => rw [hw] at hord; cases hord
        | cons a ws => rw [hw] at hord; cases hord; exact ⟨ws, rfl⟩
      have hissued := hI.issued
      rw [hws, List.cons_append, List.map_cons, (retries_eq_some hret).2.2] at hissued
      simp only [hws, List.erase_cons_head]
      rw [hissued]
      simp
  | none =>
      rw [hret] at hord
      have hsl : sl = [] := Linked.none_iff.mp (hord.2 ▸ hI.placed.senders)
      have hissued := hI.issued
      simp only [hord.1, hsl, List.append_nil, List.map_nil] at hissued ⊢
      rw [hissued]

omit [DecidableEq ω] [DecidableEq κ] in
/-- A send that blocks puts its value behind all others. -/
theorem Invariant.call_parks (hI : Invariant c s h rl sl rd) (hacc : ¬ Accepts (s.chans c))
    (hord : OrderlySend c s h value cont (some t)) (hts : t ∉ sl) :
    (h.call (some t) value).issued =
      h.returned ++ pending s.sched h.handed ++ (s.chans c).contents ++
        ((h.call (some t) value).woken ++ (sl ++ [t])).map (Function.update h.sending t value) := by
  obtain ⟨-, t', ht', -, hord⟩ := hord.2 hacc
  obtain rfl : t = t' := Option.some.inj ht'
  have hissued := hI.issued
  rw [History.call]
  cases hret : h.retries (some t) value with
  | some b =>
      obtain ⟨hb, -, hsend⟩ := retries_eq_some hret
      obtain rfl : t = b := Option.some.inj hb
      rw [hret] at hord
      have hsl : sl = [] := Linked.none_iff.mp (hord.2 ▸ hI.placed.senders)
      simp only [hord.1, hsl, List.append_nil, List.map_cons, List.map_nil, hsend] at hissued
      simp [hissued, hord.1, hsl]
  | none =>
      rw [hret] at hord
      have hmap : (h.woken ++ sl).map (Function.update h.sending t value) =
          (h.woken ++ sl).map h.sending := by
        refine List.map_congr_left fun b hb => Function.update_of_ne ?_ _ _
        rintro rfl
        rcases List.mem_append.mp hb with hb | hb
        · exact hord hb
        · exact hts hb
      change h.issued ++ [value] = _ ++ (h.woken ++ (sl ++ [t])).map _
      rw [← List.append_assoc h.woken, List.map_append, hmap, hissued, List.map_singleton,
        Function.update_self, List.append_assoc (_ ++ _)]

theorem Relinks.pop (q : Sched τ) (t : τ) : Relinks [t] q (q.setNext t none) :=
  (Relinks.refl _ q).setNext (List.mem_singleton_self t) none

omit [DecidableEq τ] in
theorem notMem_singleton {t : τ} {l : List τ} (h : t ∉ l) : ∀ b ∈ l, b ∉ [t] :=
  fun _ hb hbt => h (List.mem_singleton.mp hbt ▸ hb)

/-- A value is handed to the first parked receiver. -/
theorem Invariant.handOff {r : τ} (hI : Invariant c s h (r :: rl) sl rd)
    (hcall : (h.call env value).issued =
      h.returned ++ pending s.sched h.handed ++ (s.chans c).contents ++ [value] ++
        ((h.call env value).woken ++ sl).map h.sending) :
    Invariant c
      (s.put w c { s.chans c with blockedReceiversHead := s.sched.next r }
        ((s.sched.setNext r none).setRecv r true value) (.wake r))
      ((h.call env value).outcome value (.handedOff r)) rl sl rd := by
  obtain ⟨hp, hslots, -⟩ := hI
  have hr : r ∉ rl ++ sl ++ rd := (List.nodup_cons.mp hp.nodup).1
  simp only [List.mem_append, not_or] at hr
  obtain ⟨⟨hrr, hrs⟩, hrd⟩ := hr
  have hpop := Relinks.pop s.sched r
  obtain ⟨hslots', hempty, hpend⟩ := (hslots.relinks hpop).handOff (v := value) hrr
  refine ⟨hp.update (w := w) (p := .wake r) (e := []) rfl ?_ ?_ ?_ (by simp) List.nodup_nil
    (fun b => ?_), ?_, ?_⟩
  · rw [State.put_chans_self]
    change Linked ((s.sched.setNext r none).setRecv r true value).next (s.sched.next r) rl
    rw [next_setRecv, next_setNext]
    exact hp.receivers.tail
  · rw [State.put_chans_self]
    change Linked ((s.sched.setNext r none).setRecv r true value).next _ sl
    rw [next_setRecv]
    exact hpop.linked hp.senders (notMem_singleton hrs)
  · exact (hpop.ready hp.ready rfl rfl (notMem_singleton hrd)).setRecv
  · simp [Pc.holds, List.count_cons]
    omega
  · rw [State.put_chans_self, call_eq]
    exact hslots'.heads _ _
  · rw [State.put_chans_self, call_eq]
    change (h.call env value).issued = h.returned ++
      pending ((s.sched.setNext r none).setRecv r true value) (h.handed ++ [r]) ++
      (s.chans c).contents ++ ((h.call env value).woken ++ sl).map h.sending
    rw [hpend, pending_relinks hpop, hcall, hempty]
    simp

/-- A value is stored in the ring buffer. -/
theorem Invariant.buffer {ch : VisuallChannel τ} (hI : Invariant c s h [] sl rd)
    (hcap : 0 < (s.chans c).capacity)
    (hcount : ((s.chans c).count : ℤ) < (s.chans c).capacity)
    (hput : ringPut (s.chans c) value = some ch)
    (hcall : (h.call env value).issued =
      h.returned ++ pending s.sched h.handed ++ (s.chans c).contents ++ [value] ++
        ((h.call env value).woken ++ sl).map h.sending) :
    Invariant c (s.put w c ch s.sched .idle) ((h.call env value).outcome value .buffered)
      [] sl rd := by
  obtain ⟨hp, hslots, -⟩ := hI
  obtain ⟨hring, hcont, -, hre, hse⟩ := ringPut_spec hslots.ring hcap hcount hput
  refine ⟨hp.update (w := w) (p := .idle) (e := []) rfl ?_ ?_ hp.ready (by simp) List.nodup_nil
    (fun b => by simp [Pc.holds]), ?_, ?_⟩
  · rw [State.put_chans_self, hre]
    exact hp.receivers
  · rw [State.put_chans_self, hse]
    exact hp.senders
  · rw [State.put_chans_self, call_eq]
    exact (hslots.put hcap hcount hput).1
  · rw [State.put_chans_self, call_eq]
    change (h.call env value).issued = h.returned ++ pending s.sched h.handed ++ ch.contents ++
      ((h.call env value).woken ++ sl).map h.sending
    rw [hcall, hcont]
    simp

/-- A sender parks. -/
theorem Invariant.parkSender {head : Option τ} {q : Sched τ} (hI : Invariant c s h rl sl rd)
    (hf : Free c s t)
    (henq : blockedEnqueue fuel s.sched (s.chans c).blockedSendersHead t = some (head, q))
    (hcall : (h.call (some t) value).issued =
      h.returned ++ pending s.sched h.handed ++ (s.chans c).contents ++
        ((h.call (some t) value).woken ++ (sl ++ [t])).map (Function.update h.sending t value)) :
    Invariant c (s.put w c { s.chans c with blockedSendersHead := head } q .idle)
      ((h.call (some t) value).outcome value (.sendParked t)) rl (sl ++ [t]) rd := by
  obtain ⟨⟨htr, hts, htd⟩, honly⟩ := hI.free_notMem (w := w) hf
  obtain ⟨hp, hslots, -⟩ := hI
  obtain ⟨hlink, hre, hrh, hrt⟩ := blockedEnqueue_spec hp.senders hts henq
  have hdisj := hp.nodup
  simp only [List.nodup_append, List.mem_append] at hdisj
  refine ⟨hp.update (w := w) (p := .idle) (e := [t]) rfl ?_ ?_ ?_ ?_ (List.nodup_singleton t)
    (fun b => ?_), ?_, ?_⟩
  · rw [State.put_chans_self]
    refine hre.linked hp.receivers fun b hb hmem => ?_
    rcases List.mem_cons.mp hmem with rfl | hmem
    · exact htr hb
    · exact hdisj.1.2.2 b hb b hmem rfl
  · rw [State.put_chans_self]
    exact hlink
  · refine hre.ready hp.ready hrh hrt fun b hb hmem => ?_
    rcases List.mem_cons.mp hmem with rfl | hmem
    · exact htd hb
    · exact hdisj.2.2 b (.inr hmem) b hb rfl
  · intro b hb
    rw [List.mem_singleton.mp hb]
    exact ⟨by simp [htr, hts, htd], honly⟩
  · simp [Pc.holds, List.count_cons]
  · rw [State.put_chans_self, call_eq]
    exact (hslots.relinks hre).heads _ _
  · rw [State.put_chans_self, call_eq]
    change (h.call (some t) value).issued = h.returned ++ pending q h.handed ++
      (s.chans c).contents ++ ((h.call (some t) value).woken ++ (sl ++ [t])).map
        (Function.update h.sending t value)
    rw [pending_relinks hre, hcall]

/-- **An orderly send keeps the invariant.** -/
theorem Invariant.send (hI : Invariant c s h rl sl rd) {ch : VisuallChannel τ} {q : Sched τ}
    (hord : OrderlySend c s h value cont env)
    (hs : chanSend fuel (s.chans c) s.sched value cont env = some (ch, q, path)) :
    ∃ rl' sl', Invariant c (s.put w c ch q (path.pc c cont env))
      ((h.call env value).outcome value path) rl' sl' rd := by
  rcases chanSend_cases hI.slots.isOpen hs with ⟨r, hr, rfl, rfl, rfl⟩ |
    ⟨hr, hcap, hcount, rfl, hput, rfl⟩ | ⟨hna, hcont, t, head, rfl, rfl, henq, rfl⟩ |
    ⟨hna, hno, rfl, rfl, rfl⟩
  · have hacc : Accepts (s.chans c) := .inl (by rw [hr]; exact Option.some_ne_none r)
    have hcall := hI.call_accepts hacc hord
    obtain ⟨rl, rfl, -⟩ := Linked.some_iff.mp (hr ▸ hI.placed.receivers)
    exact ⟨rl, sl, hI.handOff hcall⟩
  · have hcall := hI.call_accepts (.inr ⟨hcap, hcount⟩) hord
    obtain rfl := Linked.none_iff.mp (hr ▸ hI.placed.receivers)
    exact ⟨[], sl, hI.buffer hcap hcount hput hcall⟩
  · obtain ⟨-, t', ht', hf, -⟩ := hord.2 hna
    obtain rfl : t = t' := Option.some.inj ht'
    have hcall := hI.call_parks hna hord (hI.free_notMem (w := w) hf).1.2.1
    exact ⟨rl, sl ++ [t], hI.parkSender hf henq hcall⟩
  · -- an orderly send that blocks has a task to park
    obtain ⟨hcont, t, henv, -⟩ := hord.2 hna
    rcases hno with hno | hno
    · exact absurd (hno.symm.trans hcont) (by simp)
    · exact absurd (hno.symm.trans henv) (by simp)

/-! ### Receiving -/

variable {p : Pc κ τ} {val : Int64}

/-- The first value handed off is picked up by its task. -/
theorem Invariant.pickUp {rest : List τ} (hI : Invariant c s h rl sl rd)
    (hhanded : h.handed = t :: rest) (hval : (s.sched.tasks t).recvValue = val) :
    Invariant c (s.put w c (s.chans c) (s.sched.setRecv t false 0) .idle)
      (h.outcome 0 (.pickedUp t val)) rl sl rd := by
  obtain ⟨hp, hslots, hissued⟩ := hI
  rw [hhanded] at hslots hissued
  obtain ⟨hslots', hpend⟩ := hslots.pickUp
  have hrest : (h.outcome 0 (.pickedUp t val)).handed = rest := by
    simp [History.outcome, hhanded]
  refine ⟨hp.update (w := w) (p := .idle) (e := []) rfl ?_ ?_ hp.ready.setRecv (by simp)
    List.nodup_nil (fun b => by simp [Pc.holds]), ?_, ?_⟩
  · rw [State.put_chans_self]
    change Linked (s.sched.setRecv t false 0).next _ rl
    rw [next_setRecv]
    exact hp.receivers
  · rw [State.put_chans_self]
    change Linked (s.sched.setRecv t false 0).next _ sl
    rw [next_setRecv]
    exact hp.senders
  · rw [State.put_chans_self, hrest]
    exact hslots'
  · rw [State.put_chans_self, hrest]
    change h.issued = h.returned ++ [val] ++ pending (s.sched.setRecv t false 0) rest ++
      (s.chans c).contents ++ (h.woken ++ sl).map h.sending
    rw [hpend, hissued, pending, List.map_cons, hval, pending]
    simp

/-- The first parked sender is woken. -/
theorem Invariant.wakeSender {x : τ} (hI : Invariant c s h rl (x :: sl) rd)
    (hpc : p.holds = some x) :
    Invariant c
      (s.put w c { s.chans c with blockedSendersHead := s.sched.next x }
        (s.sched.setNext x none) p)
      (h.outcome 0 (.wokeSender x)) rl sl rd := by
  obtain ⟨hp, hslots, hissued⟩ := hI
  have hx := List.nodup_append.mp hp.nodup
  have hxr : x ∉ rl := fun hx' =>
    (List.nodup_append.mp hx.1).2.2 x hx' x List.mem_cons_self rfl
  have hxd : x ∉ rd := fun hx' => hx.2.2 x (by simp) x hx' rfl
  have hpop := Relinks.pop s.sched x
  refine ⟨hp.update (w := w) (p := p) (e := []) rfl ?_ ?_ ?_ (by simp) List.nodup_nil
    (fun b => ?_), ?_, ?_⟩
  · rw [State.put_chans_self]
    exact hpop.linked hp.receivers (notMem_singleton hxr)
  · rw [State.put_chans_self]
    change Linked (s.sched.setNext x none).next (s.sched.next x) sl
    rw [next_setNext]
    exact hp.senders.tail
  · exact hpop.ready hp.ready rfl rfl (notMem_singleton hxd)
  · rw [hpc]
    simp [List.count_cons]
    omega
  · rw [State.put_chans_self]
    exact (hslots.relinks hpop).heads _ _
  · rw [State.put_chans_self]
    change h.issued = h.returned ++ pending (s.sched.setNext x none) h.handed ++
      (s.chans c).contents ++ (h.woken ++ [x] ++ sl).map h.sending
    rw [pending_relinks hpop, hissued]
    simp

/-- The oldest buffered value is taken, with nothing handed off. -/
theorem Invariant.take {ch : VisuallChannel τ} (hI : Invariant c s h rl sl rd)
    (hcount : 0 < (s.chans c).count) (hhanded : h.handed = [])
    (htake : ringTake (s.chans c) = some (val, ch)) (hpc : p.holds = (s.threads w).holds) :
    Invariant c (s.put w c ch s.sched p) { h with returned := h.returned ++ [val] } rl sl rd := by
  obtain ⟨hp, hslots, hissued⟩ := hI
  obtain ⟨-, -, -, -, hre, hse⟩ := ringTake_spec hslots.ring hcount htake
  obtain ⟨hslots', hcont⟩ := hslots.take hcount htake
  refine ⟨hp.update (w := w) (p := p) (e := p.holds.toList) rfl ?_ ?_ hp.ready ?_ ?_
    (fun b => le_rfl), ?_, ?_⟩
  · rw [State.put_chans_self, hre]
    exact hp.receivers
  · rw [State.put_chans_self, hse]
    exact hp.senders
  · intro b hb
    have hbw : (s.threads w).holds = some b := by rw [← hpc]; simpa using hb
    exact ⟨hp.held w b hbw, fun w' hw' => hp.heldOnce w' w b hw' hbw⟩
  · cases p.holds <;> simp
  · rw [State.put_chans_self]
    exact hslots'
  · rw [State.put_chans_self]
    change h.issued = h.returned ++ [val] ++ pending s.sched h.handed ++ ch.contents ++
      (h.woken ++ sl).map h.sending
    rw [hissued, hcont, hhanded]
    simp [pending]

/-- A receiver parks. -/
theorem Invariant.parkReceiver {head : Option τ} {q : Sched τ} (hI : Invariant c s h rl sl rd)
    (hcount : (s.chans c).count = 0) (hf : Free c s t) (hrecv : (s.sched.tasks t).hasRecv = false)
    (henq : blockedEnqueue fuel s.sched (s.chans c).blockedReceiversHead t = some (head, q)) :
    Invariant c (s.put w c { s.chans c with blockedReceiversHead := head } q .idle) h
      (rl ++ [t]) sl rd := by
  obtain ⟨⟨htr, hts, htd⟩, honly⟩ := hI.free_notMem (w := w) hf
  obtain ⟨hp, hslots, hissued⟩ := hI
  obtain ⟨hlink, hre, hrh, hrt⟩ := blockedEnqueue_spec hp.receivers htr henq
  have hdisj := hp.nodup
  simp only [List.nodup_append, List.mem_append] at hdisj
  refine ⟨hp.update (w := w) (p := .idle) (e := [t]) rfl ?_ ?_ ?_ ?_ (List.nodup_singleton t)
    (fun b => ?_), ?_, ?_⟩
  · rw [State.put_chans_self]
    exact hlink
  · rw [State.put_chans_self]
    refine hre.linked hp.senders fun b hb hmem => ?_
    rcases List.mem_cons.mp hmem with rfl | hmem
    · exact hts hb
    · exact hdisj.1.2.2 b hmem b hb rfl
  · refine hre.ready hp.ready hrh hrt fun b hb hmem => ?_
    rcases List.mem_cons.mp hmem with rfl | hmem
    · exact htd hb
    · exact hdisj.2.2 b (.inl hmem) b hb rfl
  · intro b hb
    rw [List.mem_singleton.mp hb]
    exact ⟨by simp [htr, hts, htd], honly⟩
  · simp [Pc.holds, List.count_cons]
    omega
  · rw [State.put_chans_self]
    exact ((hslots.park hcount hrecv).relinks hre).heads _ _
  · rw [State.put_chans_self]
    change h.issued = h.returned ++ pending q h.handed ++ (s.chans c).contents ++
      (h.woken ++ sl).map h.sending
    rw [pending_relinks hre, hissued]

/-- **The last part of an orderly receive keeps the invariant.** -/
theorem Invariant.recvAgain (hI : Invariant c s h rl sl rd) {ch : VisuallChannel τ} {q : Sched τ}
    (hpc : (s.threads w).holds = none) (hord : OrderlyAgain c s h cont env)
    (hs : chanRecvAgain fuel (s.chans c) s.sched cont env = some (ch, q, path)) :
    ∃ rl', Invariant c (s.put w c ch q .idle) (h.outcome 0 path) rl' sl rd ∧
      path.pc c cont env = .idle := by
  rcases chanRecvAgain_cases hs with ⟨hcount, val, rfl, htake, rfl⟩ |
    ⟨hcount, hcont, t, head, rfl, rfl, henq, rfl⟩ | ⟨hcount, hno, rfl, rfl, rfl⟩
  · have htaken := hI.take (w := w) (p := .idle) hcount (hord.1 hcount) htake hpc.symm
    refine ⟨rl, ?_, rfl⟩
    simpa [History.outcome] using htaken
  · obtain ⟨-, t', ht', hf, hrecv⟩ := hord.2 hcount
    obtain rfl : t = t' := Option.some.inj ht'
    exact ⟨rl ++ [t], hI.parkReceiver hcount hf hrecv henq, rfl⟩
  · -- an orderly receive that blocks has a task to park
    obtain ⟨hcont, t, henv, -⟩ := hord.2 hcount
    rcases hno with hno | hno
    · exact absurd (hno.symm.trans hcont) (by simp)
    · exact absurd (hno.symm.trans henv) (by simp)

omit [DecidableEq τ] in
theorem pendingRecv_eq_some {q : Sched τ} (hp : pendingRecv q env = some (t, val)) :
    env = some t ∧ (q.tasks t).hasRecv = true ∧ (q.tasks t).recvValue = val := by
  unfold pendingRecv at hp
  split at hp
  · split at hp
    · next hr =>
      cases hp
      exact ⟨rfl, hr, rfl⟩
    · cases hp
  · cases hp

/-- **An orderly receive keeps the invariant.** -/
theorem Invariant.recv (hI : Invariant c s h rl sl rd) {ch : VisuallChannel τ} {q : Sched τ}
    (hpc : s.threads w = .idle) (hord : OrderlyRecv c s h cont env)
    (hs : chanRecv fuel (s.chans c) s.sched cont env = some (ch, q, path)) :
    ∃ rl' sl', Invariant c (s.put w c ch q (path.pc c cont env)) (h.outcome 0 path) rl' sl' rd := by
  unfold OrderlyRecv at hord
  rcases chanRecv_cases hs with ⟨t, val, hpend, rfl, rfl, rfl⟩ |
    ⟨hpend, x, hx, rfl, hwoke⟩ | ⟨hpend, hx, hagain⟩
  · rw [hpend] at hord
    obtain ⟨rest, hrest⟩ : ∃ rest, h.handed = t :: rest := by
      cases hh : h.handed with
      | nil => rw [hh] at hord; cases hord
      | cons a rest => rw [hh] at hord; cases hord; exact ⟨rest, rfl⟩
    exact ⟨rl, sl, hI.pickUp hrest (pendingRecv_eq_some hpend).2.2⟩
  · rw [hpend, if_neg (by rw [hx]; exact Option.some_ne_none x)] at hord
    obtain ⟨sl, rfl, -⟩ := Linked.some_iff.mp (hx ▸ hI.placed.senders)
    rcases hwoke with ⟨hcount, val, rfl, htake⟩ | ⟨hcount, rfl, rfl⟩
    · have hwoken := hI.wakeSender (w := w) (p := .wake x) rfl
      have htaken := hwoken.take (w := w) (p := .wake x) (by simpa using hcount) (hord hcount)
        (by rw [State.put_chans_self]; exact htake) (by simp [State.put])
      rw [State.put_sched, State.put_put] at htaken
      exact ⟨rl, sl, htaken⟩
    · exact ⟨rl, sl, hI.wakeSender rfl⟩
  · rw [hpend, if_pos hx] at hord
    obtain ⟨rl', hI', hidle⟩ := hI.recvAgain (w := w) (by rw [hpc]; rfl) hord hagain
    rw [hidle]
    exact ⟨rl', sl, hI'⟩

/-! ### Runs -/

/-- **One orderly step.** -/
theorem step_invariant {op : Op ω κ τ} (hI : Invariant c s h rl sl rd) (hopen : OnOpen c s op)
    (hord : Orderly c (s, h) op) (hstep : step fuel s op = some (s', path)) :
    ∃ rl' sl' rd', Invariant c s' (h.record op path) rl' sl' rd' := by
  cases step_cases hstep with
  | goCreate hpc hq =>
      exact ⟨rl, sl, _, hI.goCreate hord.1 hord.2 hq⟩
  | dequeue hpc => exact ⟨rl, sl, _, hI.dequeue⟩
  | send hpc hs =>
      obtain rfl := hopen
      obtain ⟨rl', sl', hI'⟩ := hI.send hord hs
      exact ⟨rl', sl', rd, hI'⟩
  | recv hpc hs =>
      obtain rfl := hopen
      obtain ⟨rl', sl', hI'⟩ := hI.recv hpc hord hs
      exact ⟨rl', sl', rd, hI'⟩
  | close hpc hs => exact absurd hopen id
  | @wake w t sched hpc hq =>
      have hheld : (s.threads w).holds = some t := by rw [hpc]; rfl
      exact ⟨rl, sl, _, hI.enqueue (hI.placed.held w t hheld)
        (fun w' hw' => hI.placed.heldOnce w' w t hw' hheld) rfl hq⟩
  | @wakeThenRecv w t c' cont env sched hpc hq =>
      have hheld : (s.threads w).holds = some t := by rw [hpc]; rfl
      exact ⟨rl, sl, _, hI.enqueue (hI.placed.held w t hheld)
        (fun w' hw' => hI.placed.heldOnce w' w t hw' hheld) rfl hq⟩
  | recvAgain hpc hs =>
      obtain rfl := hopen _ _ _ hpc
      obtain ⟨rl', hI', -⟩ := hI.recvAgain (by rw [hpc]; rfl) (hord _ _ _ hpc) hs
      exact ⟨rl', sl, rd, hI'⟩

omit [DecidableEq ω] [DecidableEq κ] [DecidableEq τ] in
/-- A channel just made has nothing to account for. -/
theorem Starts.invariant (h : Starts c s) : ∃ rd, Invariant c s History.empty [] [] rd := by
  obtain ⟨capacity, bufferLen, hch⟩ := h.chan
  obtain ⟨rd, hready⟩ := h.ready
  have hrecv : ∀ t, t ∈ ([] : List τ) ↔ (s.sched.tasks t).hasRecv = true := by simp [h.noRecv]
  refine ⟨rd, ⟨?_, ?_, hready, hready.linked.nodup, ?_, ?_⟩, ⟨?_, ?_, ?_, hrecv, List.nodup_nil,
    by simp⟩, ?_⟩
  · rw [hch]; rfl
  · rw [hch]; rfl
  · intro w t hw
    rw [h.idle w] at hw
    cases hw
  · intro w w' t hw
    rw [h.idle w] at hw
    cases hw
  · rw [hch]; rfl
  · rw [hch]
    exact ⟨fun _ => rfl, fun hcap => by simp [chanCreate] at hcap ⊢; omega, by simp [chanCreate],
      fun hcap => by simp [chanCreate, LinearProbe.slotAt]⟩
  · simp
  · rw [hch]
    rfl

/-- **A channel conserves its values.**  In every run of orderly steps on an open channel, started
when it has just been made, the sends issued are at every state the values returned, then those
handed off, buffered, and held by waiting senders, in this order. -/
theorem channel_conserves {tr : List (Op ω κ τ × (State ω κ τ × History τ))} (hs : Starts c s)
    (hrun : Run HistoryStep (s, History.empty) tr)
    (hopen : ∀ p ∈ Run.steps (s, History.empty) tr, OnOpen c p.1.1 p.2)
    (hord : ∀ p ∈ Run.steps (s, History.empty) tr, Orderly c p.1 p.2) :
    ∀ p ∈ Run.states (s, History.empty) tr, Conserved c p.1 p.2 := by
  obtain ⟨rd, hstart⟩ := hs.invariant
  have hall := Run.invariant
    (I := fun p : State ω κ τ × History τ => ∃ rl sl rd, Invariant c p.1 p.2 rl sl rd)
    (G := fun p op => OnOpen c p.1 op ∧ Orderly c p op)
    (fun p op p' hI hG hstep => by
      obtain ⟨rl, sl, rd, hI⟩ := hI
      obtain ⟨fuel, path, hstep, hrec⟩ := hstep
      rw [hrec]
      exact step_invariant hI hG.1 hG.2 hstep)
    ⟨[], [], rd, hstart⟩ hrun (fun p hp => ⟨hopen p hp, hord p hp⟩)
  intro p hp
  obtain ⟨rl, sl, rd, hI⟩ := hall p hp
  exact ⟨hI.slots.mem_handed, sl, hI.placed.senders, hI.issued⟩

end Step

theorem freshState_starts (capacity : ℤ) (bufferLen : ℕ) : Starts 0 (freshState capacity bufferLen) :=
  ⟨⟨capacity, bufferLen, rfl⟩, fun _ => rfl, ⟨[], rfl, rfl⟩, fun _ => rfl⟩

/-- A buffered send and the receive that takes its value. -/
theorem channel_conserves_buffered :
    ∃ tr : List (Op ℕ ℕ ℕ × (State ℕ ℕ ℕ × History ℕ)), tr.length = 2 ∧
      Run HistoryStep (freshState 2 2, History.empty) tr ∧
      ∀ p ∈ Run.states (freshState 2 2, History.empty) tr, Conserved 0 p.1 p.2 := by
  refine ⟨[(.send 0 0 7 false none, _, _), (.recv 1 0 false none, _, _)], rfl,
    ⟨⟨1, .buffered, rfl, rfl⟩, ⟨1, .took 7 none, rfl, rfl⟩, trivial⟩,
    channel_conserves (freshState_starts 2 2)
      ⟨⟨1, .buffered, rfl, rfl⟩, ⟨1, .took 7 none, rfl, rfl⟩, trivial⟩ ?_ ?_⟩
  · intro p hp
    simp only [Run.steps, List.mem_cons, List.not_mem_nil, or_false] at hp
    rcases hp with rfl | rfl <;> rfl
  · intro p hp
    simp only [Run.steps, List.mem_cons, List.not_mem_nil, or_false] at hp
    rcases hp with rfl | rfl
    · exact ⟨fun _ => ⟨rfl, rfl⟩, fun hna => absurd (.inr ⟨by decide, by decide⟩) hna⟩
    · exact ⟨fun _ => rfl, fun hcount => absurd hcount (by decide)⟩

/-- A send without a continuation on an unbuffered channel loses its value. -/
theorem channel_loses_value :
    ¬ ∀ (s : State ℕ ℕ ℕ) (c : ℕ) (tr : List (Op ℕ ℕ ℕ × (State ℕ ℕ ℕ × History ℕ))), Starts c s →
      Run HistoryStep (s, History.empty) tr →
      (∀ p ∈ Run.steps (s, History.empty) tr, OnOpen c p.1.1 p.2) →
      ∀ p ∈ Run.states (s, History.empty) tr, Conserved c p.1 p.2 := by
  intro h
  obtain ⟨-, senders, hsenders, hissued⟩ := h (freshState 0 0) 0 [(.send 0 0 7 false none, _, _)]
    (freshState_starts 0 0) ⟨⟨1, .sendDropped, rfl, rfl⟩, trivial⟩
    (fun p hp => by rw [List.mem_singleton.mp hp]; rfl)
    _ (List.mem_cons_of_mem _ (List.mem_singleton_self _))
  obtain rfl := Linked.none_iff.mp hsenders
  exact absurd hissued (by decide)

end Visuall.Scheduler
