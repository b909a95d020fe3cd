import Mathlib

/-!
# The stack of function names

`__visuall_traceback_push`, `__visuall_traceback_pop` and `__visuall_print_traceback` of `stdlib/runtime.c`: an
array of 128 names and the number of those in use.  A push on the full array is dropped, while every pop takes
a name away.

* `Traceback`, `recorded` — the array and the names in use;
* `Balanced`, `active` — histories of calls, and the calls that have not returned;
* `recorded_iff` — the recorded names are the outermost active calls exactly when no more than 128 calls are
  ever active.
-/

namespace Visuall.Runtime

/-- `VSL_TRACEBACK_DEPTH`. -/
def tracebackDepth : ℕ := 128

/-- `vsl_traceback_stack` and `vsl_traceback_top`; `none` is the NULL of a slot never written. -/
structure Traceback where
  stack : Vector (Option String) tracebackDepth
  top : ℕ
  top_le : top ≤ tracebackDepth

namespace Traceback

/-- The static variables at the start. -/
def initial : Traceback := ⟨Vector.replicate tracebackDepth none, 0, Nat.zero_le _⟩

/-- `__visuall_traceback_push`. -/
def push (t : Traceback) (name : String) : Traceback :=
  if h : t.top < tracebackDepth then ⟨t.stack.set t.top (some name) h, t.top + 1, h⟩ else t

/-- `__visuall_traceback_pop`. -/
def pop (t : Traceback) : Traceback :=
  if t.top > 0 then ⟨t.stack, t.top - 1, (Nat.sub_le _ _).trans t.top_le⟩ else t

/-- The slots below the top. -/
def recorded (t : Traceback) : List (Option String) := t.stack.toList.take t.top

/-- `__visuall_print_traceback`: the lines that go to `stderr`; `%s` writes `(null)` for NULL. -/
def print (t : Traceback) : List String :=
  "Traceback (most recent call last):" ::
    t.recorded.map fun name => "  File \"<visuall>\", in " ++ name.getD "(null)"

theorem recorded_length (t : Traceback) : t.recorded.length = t.top := by
  rw [recorded, List.length_take, Vector.length_toList]
  exact min_eq_left t.top_le

@[simp] theorem initial_recorded : initial.recorded = [] := rfl

theorem push_recorded {t : Traceback} (name : String) (h : t.top < tracebackDepth) :
    (t.push name).recorded = t.recorded ++ [some name] := by
  rw [push, dif_pos h]
  show List.take (t.top + 1) (t.stack.set t.top (some name) h).toList = List.take t.top t.stack.toList ++ [some name]
  rw [Vector.toList_set, List.take_add_one, List.take_set_of_le le_rfl, List.getElem?_set_self]
  · rfl
  · rw [Vector.length_toList]
    exact h

theorem push_full {t : Traceback} (name : String) (h : ¬ t.top < tracebackDepth) : t.push name = t := by
  rw [push, dif_neg h]

theorem pop_recorded (t : Traceback) : t.pop.recorded = t.recorded.dropLast := by
  have hlen : t.recorded.length = t.top := t.recorded_length
  by_cases h : t.top > 0
  · rw [pop, if_pos h]
    show List.take (t.top - 1) t.stack.toList = _
    rw [List.dropLast_eq_take, hlen, recorded, List.take_take, min_eq_left (Nat.sub_le _ _)]
  · rw [pop, if_neg h]
    have hnil : t.recorded = [] := List.eq_nil_of_length_eq_zero (by omega)
    rw [hnil, List.dropLast_nil]

end Traceback

/-! ### Histories -/

/-- What the compiled code of a function tells the runtime. -/
inductive Frame where
  | enter (name : String)
  | leave
deriving DecidableEq

/-- Every entry has its exit behind it. -/
inductive Balanced : List Frame → Prop
  | nil : Balanced []
  | call {name : String} {body rest : List Frame} :
      Balanced body → Balanced rest → Balanced (Frame.enter name :: (body ++ Frame.leave :: rest))

/-- The calls that have not returned, outermost first, behind one more event. -/
def activeAfter (calls : List String) : Frame → List String
  | .enter name => calls ++ [name]
  | .leave => calls.dropLast

/-- The runtime's state behind one more event. -/
def tracebackAfter (t : Traceback) : Frame → Traceback
  | .enter name => t.push name
  | .leave => t.pop

def active (history : List Frame) : List String := history.foldl activeAfter []

def traceback (history : List Frame) : Traceback := history.foldl tracebackAfter .initial

section Steps

variable (p : List Frame) (e : Frame)

theorem active_append : active (p ++ [e]) = activeAfter (active p) e := by
  rw [active, List.foldl_append]
  rfl

theorem traceback_append : traceback (p ++ [e]) = tracebackAfter (traceback p) e := by
  rw [traceback, List.foldl_append]
  rfl

end Steps

/-- A balanced stretch leaves the active calls as they were. -/
theorem Balanced.activeAfter {h : List Frame} (hbal : Balanced h) (calls : List String) :
    h.foldl activeAfter calls = calls := by
  induction hbal generalizing calls with
  | nil => rfl
  | call _ _ ihbody ihrest =>
      rw [List.foldl_cons, List.foldl_append, ihbody, List.foldl_cons]
      show List.foldl _ (List.dropLast (calls ++ [_])) _ = _
      rw [List.dropLast_concat]
      exact ihrest calls

/-- From more than `n` active calls down to `n`, there is an exit that leaves `n`. -/
theorem exists_leave (n : ℕ) (p q : List Frame) (habove : n < (active p).length)
    (hbelow : (active (p ++ q)).length ≤ n) :
    ∃ q₁, (q₁ ++ [Frame.leave]) <+: q ∧ (active (p ++ q₁)).length = n + 1 := by
  induction q generalizing p with
  | nil =>
      rw [List.append_nil] at hbelow
      omega
  | cons e q ih =>
      by_cases hstill : n < (active (p ++ [e])).length
      · obtain ⟨q₁, hpre, hlen⟩ := ih (p ++ [e]) hstill (by rwa [List.append_assoc, List.singleton_append])
        refine ⟨e :: q₁, List.cons_prefix_cons.mpr ⟨rfl, hpre⟩, ?_⟩
        rw [← List.singleton_append, ← List.append_assoc]
        exact hlen
      · rw [active_append] at hstill
        cases e with
        | enter name =>
            rw [activeAfter, List.length_append] at hstill
            omega
        | leave =>
            rw [activeAfter, List.length_dropLast] at hstill
            refine ⟨[], ?_, ?_⟩
            · exact List.cons_prefix_cons.mpr ⟨rfl, List.nil_prefix⟩
            · rw [List.append_nil]
              omega

/-- What the recorded names are meant to be: the outermost active calls, as many as fit. -/
def Faithful (history : List Frame) : Prop :=
  (traceback history).recorded = ((active history).take tracebackDepth).map some

/-- As long as every call fits, all of them are recorded. -/
theorem recorded_eq (h : List Frame) (hfit : ∀ p, p <+: h → (active p).length ≤ tracebackDepth) :
    (traceback h).recorded = (active h).map some := by
  induction h using List.reverseRecOn with
  | nil => rfl
  | append_singleton p e ih =>
      have hp := ih fun q hq => hfit q (hq.trans (List.prefix_append _ _))
      have htop : (traceback p).top = (active p).length := by
        rw [← Traceback.recorded_length, hp, List.length_map]
      have hlen := hfit (p ++ [e]) List.prefix_rfl
      rw [active_append] at hlen
      rw [active_append, traceback_append]
      cases e with
      | enter name =>
          rw [activeAfter, List.length_append, List.length_singleton] at hlen
          rw [tracebackAfter, activeAfter, Traceback.push_recorded name (by omega), hp, List.map_append]
          rfl
      | leave =>
          rw [tracebackAfter, activeAfter, Traceback.pop_recorded, hp, List.map_dropLast]

/-- **The recorded names.**  In a balanced history they are, at every moment, the outermost active calls exactly
when there are never more active calls than slots. -/
theorem recorded_iff {h : List Frame} (hbal : Balanced h) :
    (∀ p, p <+: h → Faithful p) ↔ ∀ p, p <+: h → (active p).length ≤ tracebackDepth := by
  constructor
  · intro hall p hp
    by_contra hdeep
    obtain ⟨q, rfl⟩ := hp
    -- the calls return, so one exit takes the number of active calls from 129 to 128
    have hend : (active (p ++ q)).length = 0 := by
      rw [active, hbal.activeAfter]
      rfl
    obtain ⟨q₁, hpre, hlen⟩ := exists_leave tracebackDepth p q (by omega) (by omega)
    have hpre' : p ++ (q₁ ++ [Frame.leave]) <+: p ++ q := (List.prefix_append_right_inj p).mpr hpre
    rw [← List.append_assoc] at hpre'
    have hbefore := hall (p ++ q₁) ((List.prefix_append _ _).trans hpre')
    have hafter := hall _ hpre'
    -- before it 128 names are recorded, and the exit removes one of them
    rw [Faithful, traceback_append, tracebackAfter, Traceback.pop_recorded, hbefore, active_append, activeAfter] at hafter
    have hlengths := congrArg List.length hafter
    simp only [List.length_dropLast, List.length_map, List.length_take] at hlengths
    rw [hlen] at hlengths
    norm_num [tracebackDepth] at hlengths
  · intro hfit p hp
    have hpfit : ∀ q, q <+: p → (active q).length ≤ tracebackDepth := fun q hq => hfit q (hq.trans hp)
    rw [Faithful, recorded_eq p hpfit, List.take_of_length_le (hfit p hp)]

/-- A function that calls itself `n` times over. -/
def nested (name : String) (n : ℕ) : List Frame := List.replicate n (.enter name) ++ List.replicate n .leave

theorem nested_balanced (name : String) (n : ℕ) : Balanced (nested name n) := by
  induction n with
  | zero => exact .nil
  | succ n ih =>
      have hsucc : nested name (n + 1) = .enter name :: (nested name n ++ .leave :: []) := by
        rw [nested, nested, List.replicate_succ, List.replicate_succ', List.cons_append, List.append_assoc]
      rw [hsucc]
      exact .call ih .nil

theorem active_enter (name : String) (n : ℕ) : (active (List.replicate n (.enter name))).length = n := by
  induction n with
  | zero => rfl
  | succ n ih => rw [List.replicate_succ', active_append, activeAfter, List.length_append, ih, List.length_singleton]

/-- One nested call: its name is recorded until it returns. -/
theorem recorded_iff_call : (∀ p, p <+: nested "main" 1 → Faithful p) ↔
    ∀ p, p <+: nested "main" 1 → (active p).length ≤ tracebackDepth :=
  recorded_iff (nested_balanced "main" 1)

/-- A recursion of depth 129: behind the innermost exit 128 calls are active, and 127 names are recorded. -/
theorem recorded_recursion : Balanced (nested "f" 129) ∧
    (List.replicate 129 (Frame.enter "f") ++ [.leave]) <+: nested "f" 129 ∧
    ¬ Faithful (List.replicate 129 (Frame.enter "f") ++ [.leave]) := by
  refine ⟨nested_balanced _ _, ?_, ?_⟩
  · exact (List.prefix_append_right_inj _).mpr ⟨List.replicate 128 .leave, rfl⟩
  · intro hfaithful
    have hlengths := congrArg List.length hfaithful
    rw [traceback_append, tracebackAfter, Traceback.pop_recorded, List.length_dropLast, Traceback.recorded_length,
      active_append, activeAfter, List.length_map, List.length_take, List.length_dropLast, active_enter] at hlengths
    have := (traceback (List.replicate 129 (Frame.enter "f"))).top_le
    norm_num [tracebackDepth] at hlengths this
    omega

end Visuall.Runtime
