import Visuall.Scheduler.Channel

/-!
# The queues of the scheduler

The ready queue and the wait queues are threaded through the same `next` fields.  Each queue
operation is described once: the list it leaves in its own queue, and the tasks whose links it may
have changed.  Every other queue is framed by `Relinks`.

* `Ready s rd` — the ready queue holds the tasks `rd`;
* `Relinks l s s'` — from `s` to `s'` only links of the tasks `l` changed;
* `schedEnqueue_spec`, `schedDequeue_spec`, `blockedEnqueue_spec`.
-/

namespace Visuall.Scheduler

variable {τ : Type*} {s s' : Sched τ} {t b : τ} {n head head' : Option τ} {l rd : List τ} {fuel : ℕ}

/-! ### Frames -/

/-- Only links of the tasks `l` have changed. -/
structure Relinks (l : List τ) (s s' : Sched τ) : Prop where
  next : ∀ b ∉ l, s'.next b = s.next b
  hasRecv : ∀ b, (s'.tasks b).hasRecv = (s.tasks b).hasRecv
  recvValue : ∀ b, (s'.tasks b).recvValue = (s.tasks b).recvValue

theorem Relinks.refl (l : List τ) (s : Sched τ) : Relinks l s s :=
  ⟨fun _ _ => rfl, fun _ => rfl, fun _ => rfl⟩

/-- A queue without relinked tasks stays as it was. -/
theorem Relinks.linked {m : List τ} (h : Relinks l s s') (hm : Linked s.next head m)
    (hd : ∀ b ∈ m, b ∉ l) : Linked s'.next head m :=
  hm.congr fun b hb => h.next b (hd b hb)

/-- The ready queue holds the tasks `rd`. -/
structure Ready (s : Sched τ) (rd : List τ) : Prop where
  linked : Linked s.next s.readyHead rd
  last : s.readyTail = rd.getLast?

theorem Relinks.ready (h : Relinks l s s') (hr : Ready s rd) (hhead : s'.readyHead = s.readyHead)
    (htail : s'.readyTail = s.readyTail) (hd : ∀ b ∈ rd, b ∉ l) : Ready s' rd where
  linked := by
    rw [hhead]
    exact h.linked hr.linked hd
  last := by rw [htail, hr.last]

variable [DecidableEq τ]

/-! ### Writing one task -/

@[simp] theorem next_setNext : (s.setNext t n).next = Function.update s.next t n := by
  funext b
  rcases eq_or_ne b t with rfl | hb
  · simp [Sched.next, Sched.setNext]
  · simp [Sched.next, Sched.setNext, Function.update_of_ne hb]

@[simp] theorem hasRecv_setNext (b : τ) :
    ((s.setNext t n).tasks b).hasRecv = (s.tasks b).hasRecv := by
  rcases eq_or_ne b t with rfl | hb
  · simp [Sched.setNext]
  · simp [Sched.setNext, Function.update_of_ne hb]

@[simp] theorem recvValue_setNext (b : τ) :
    ((s.setNext t n).tasks b).recvValue = (s.tasks b).recvValue := by
  rcases eq_or_ne b t with rfl | hb
  · simp [Sched.setNext]
  · simp [Sched.setNext, Function.update_of_ne hb]

@[simp] theorem readyHead_setNext : (s.setNext t n).readyHead = s.readyHead := rfl

@[simp] theorem readyTail_setNext : (s.setNext t n).readyTail = s.readyTail := rfl

@[simp] theorem next_setRecv {r : Bool} {v : Int64} : (s.setRecv t r v).next = s.next := by
  funext b
  rcases eq_or_ne b t with rfl | hb
  · simp [Sched.next, Sched.setRecv]
  · simp [Sched.next, Sched.setRecv, Function.update_of_ne hb]

@[simp] theorem tasks_setRecv_self {r : Bool} {v : Int64} :
    (s.setRecv t r v).tasks t = { s.tasks t with hasRecv := r, recvValue := v } := by
  simp [Sched.setRecv]

theorem tasks_setRecv_of_ne {r : Bool} {v : Int64} (h : b ≠ t) :
    (s.setRecv t r v).tasks b = s.tasks b := by
  simp [Sched.setRecv, Function.update_of_ne h]

theorem Relinks.setNext (h : Relinks l s s') (ht : t ∈ l) (n : Option τ) :
    Relinks l s (s'.setNext t n) where
  next b hb := by
    rw [next_setNext, Function.update_of_ne (ne_of_mem_of_not_mem ht hb).symm]
    exact h.next b hb
  hasRecv b := by rw [hasRecv_setNext, h.hasRecv]
  recvValue b := by rw [recvValue_setNext, h.recvValue]

/-! ### The operations -/

/-- Enqueuing a task that is not queued puts it last. -/
theorem schedEnqueue_spec (hr : Ready s rd) (ht : t ∉ rd) (h : schedEnqueue s t = some s') :
    Ready s' (rd ++ [t]) ∧ Relinks (t :: rd) s s' := by
  have hfree : Linked (s.setNext t none).next s.readyHead rd := by
    rw [next_setNext]
    exact hr.linked.update_of_notMem ht
  have hre : Relinks (t :: rd) s (s.setNext t none) :=
    (Relinks.refl _ s).setNext List.mem_cons_self none
  cases rd using List.reverseRecOn with
  | nil =>
      have hh : s.readyHead = none := hr.linked
      simp only [schedEnqueue, readyHead_setNext, hh] at h
      cases h
      exact ⟨⟨⟨rfl, by change (s.setNext t none).next t = none; simp⟩, rfl⟩,
        ⟨hre.next, hre.hasRecv, hre.recvValue⟩⟩
  | append_singleton rd b _ =>
      have hlast : s.readyTail = some b := by rw [hr.last, List.getLast?_concat]
      cases hh : s.readyHead with
      | none => exact absurd (Linked.none_iff.mp (hh ▸ hr.linked)) (by simp)
      | some a =>
          simp only [schedEnqueue, readyHead_setNext, readyTail_setNext, hh, hlast] at h
          cases h
          have hre' := hre.setNext (t := b) (by simp) (some t)
          refine ⟨⟨?_, by rw [List.getLast?_concat]⟩, ⟨hre'.next, hre'.hasRecv, hre'.recvValue⟩⟩
          have hlink := hfree.snoc (by simp) ht
          rw [← next_setNext, hh] at hlink
          exact hlink

/-- The first ready task is taken off. -/
theorem schedDequeue_spec (hr : Ready s rd) :
    (schedDequeue s).1 = rd.head? ∧ Ready (schedDequeue s).2 rd.tail ∧
      Relinks rd s (schedDequeue s).2 := by
  cases rd with
  | nil =>
      have hh : s.readyHead = none := hr.linked
      rw [schedDequeue, hh]
      exact ⟨rfl, hr, Relinks.refl _ s⟩
  | cons a rd =>
      have hh : s.readyHead = some a := hr.linked.1
      have hre : Relinks (a :: rd) s (s.setNext a none) :=
        (Relinks.refl _ s).setNext List.mem_cons_self none
      rw [schedDequeue, hh]
      refine ⟨rfl, ⟨?_, ?_⟩, ⟨hre.next, hre.hasRecv, hre.recvValue⟩⟩
      · have hlink := hr.linked.tail
        rw [← next_setNext] at hlink
        exact hlink
      · have hlast := hr.last
        have hrest := hr.linked.2
        cases rd with
        | nil =>
            rw [Linked.nil_iff] at hrest
            simp [hrest]
        | cons b rd =>
            rw [List.getLast?_cons_cons] at hlast
            simp [hrest.1, hlast]

/-- Parking a task that is in no queue puts it last. -/
theorem blockedEnqueue_spec (hl : Linked s.next head l) (ht : t ∉ l)
    (h : blockedEnqueue fuel s head t = some (head', s')) :
    Linked s'.next head' (l ++ [t]) ∧ Relinks (t :: l) s s' ∧ s'.readyHead = s.readyHead ∧
      s'.readyTail = s.readyTail := by
  have hfree : Linked (s.setNext t none).next head l := by
    rw [next_setNext]
    exact hl.update_of_notMem ht
  have hre : Relinks (t :: l) s (s.setNext t none) :=
    (Relinks.refl _ s).setNext List.mem_cons_self none
  cases head with
  | none =>
      obtain rfl := Linked.none_iff.mp hl
      cases h
      exact ⟨⟨rfl, by simp⟩, hre, rfl, rfl⟩
  | some a =>
      obtain ⟨cur, hcur, he⟩ := Option.bind_eq_some_iff.mp h
      cases he
      obtain ⟨m, rfl⟩ := lastFrom_eq_last hfree hcur
      refine ⟨?_, hre.setNext (by simp) _, rfl, rfl⟩
      rw [next_setNext]
      exact hfree.snoc (by simp) ht

end Visuall.Scheduler
