import Visuall.Codegen.Variables

/-!
# What variables hold in a run

The code that `src/codegen.cpp` emits for variables is executed: every activation of a function has its own slots,
globals and boxes are shared, and a closure has its environment.  A run is the items that are executed, in any
order, each in an activation.

* `convert` — the value that a variable of a declared type gets;
* `Machine`, `step`, `run` — the storage, next to the values that the variables should have;
* `Sound` — the condition on a step: what it loads is still the value of the last binding of the variable;
* `reads_right` — in a run whose steps meet it, every read yields the value that was assigned last;
* `local_reads`, `module_reads`, `captured_reads` — the same for the three kinds of variables.
-/

namespace Visuall.Codegen.Variables

open Visuall.Ast

/-! ## Values -/

/-- The conversion of an `i64` to a `double`, to the nearest and the even one of two. -/
def sitofp (w : Word) : Word :=
  let magnitude := w.toInt.natAbs
  if magnitude = 0 then 0
  else
    let exponent := magnitude.log2
    -- the leading 53 bits, rounded
    let significand :=
      if exponent ≤ 52 then magnitude * 2 ^ (52 - exponent)
      else
        let unit := 2 ^ (exponent - 52)
        let quotient := magnitude / unit
        let twice := 2 * (magnitude % unit)
        if twice > unit ∨ twice = unit ∧ quotient % 2 = 1 then quotient + 1 else quotient
    let sign := if w.msb then 2 ^ 63 else 0
    BitVec.ofNat 64 (sign + (1023 + exponent) * 2 ^ 52 + (significand - 2 ^ 52))

/-- The value a variable of a declared type gets: where it is `double`, an integer is converted, as in
`promoteToDouble`; a value of one bit is 0 or 1. -/
def convert (declared : LTy) : Value → Value
  | ⟨.i64, bits⟩ => if declared = .double then ⟨.double, sitofp bits⟩ else ⟨.i64, bits⟩
  | ⟨.int width, bits⟩ =>
    if declared = .double then
      ⟨.double, sitofp (if width = 1 then BitVec.setWidth 64 (w := width) bits else
        BitVec.signExtend 64 (w := width) bits)⟩
    else ⟨.int width, bits⟩
  | v => v

theorem convert_self (v : Value) : convert v.type v = v := by
  obtain ⟨type, bits⟩ := v
  cases type <;> rfl

def zero (type : LTy) : Value := ⟨type, 0⟩

/-- What is loaded with a type, where a value was stored. -/
def reload (type : LTy) (v : Value) : Option Value :=
  if v.type = type then some v else (coerceToI64 v).map (ofI64 type)

/-! ## The storage -/

/-- A variable: one of the module, one of an activation of a function, or the copy that a closure has. -/
inductive Var
  | module (x : Name)
  | local (frame : ℕ) (x : Name)
  | copy (closure : ℕ) (x : Name)
  deriving DecidableEq

inductive Location
  | slot (frame id : ℕ)
  | global (id : ℕ)
  | env (closure : ℕ) (x : Name)
  | box (id : ℕ)
  deriving DecidableEq

/-- What is stored: a value, or a pointer to a box.  A value that is, up to its form as a word, what a binding has
given to its variable is marked with the number of that step; no code depends on the mark. -/
inductive Content
  | value (mark : Option ℕ) (v : Value)
  | pointer (box : ℕ)

/-- The storage, and the value every variable should have, with the number of the step that gave it. -/
structure Machine where
  mem : Location → Option Content
  env : Var → Option (ℕ × Value)
  boxes : ℕ
  time : ℕ

def Machine.initial : Machine where
  mem := fun _ => none
  env := fun _ => none
  boxes := 0
  time := 0

/-- An item is executed: the activation, the closure that is made or entered, and the value that is assigned. -/
structure Event where
  frame : ℕ
  item : ℕ
  closure : ℕ
  value : Value

/-- A read: the variable, what the code loads, and the value it should have. -/
structure Reading where
  var : Var
  got : Option Value
  meant : Option Value
  deriving DecidableEq

def Cell.location (frame : ℕ) : Cell → Location
  | .slot id => .slot frame id
  | .global id => .global id

namespace Machine

variable (σ : Machine)

def put (L : Location) (c : Option Content) : Machine := { σ with mem := Function.update σ.mem L c }

/-- The variable gets a value in this step. -/
def give (X : Var) (v : Value) : Machine := { σ with env := Function.update σ.env X (some (σ.time, v)) }

def tick : Machine := { σ with time := σ.time + 1 }

/-- A box is made, and a slot points to it. -/
def newBox (frame slot : ℕ) : Machine :=
  { σ.put (.slot frame slot) (some (.pointer σ.boxes)) with boxes := σ.boxes + 1 }

/-- The copy of a closure gets the value of a variable. -/
def copyOf (X Y : Var) : Machine := { σ with env := Function.update σ.env Y (σ.env X) }

/-- The mark of a value that is stored for a variable of a declared type. -/
def mark (declared : LTy) (v : Value) : Option ℕ := if v.type = declared then some σ.time else none

/-- A value is stored in cells of some types. -/
def store (frame : ℕ) (cells : List (Cell × LTy)) (m : Option ℕ) (v : Value) : Machine :=
  cells.foldl (fun σ c => σ.put (c.1.location frame) (some (.value (if v.type = c.2 then m else none) v))) σ

/-- A value is stored in a box, as a word. -/
def fill (box : ℕ) (m : Option ℕ) (v : Value) : Machine :=
  σ.put (.box box) ((coerceToI64 v).map fun w => .value m ⟨.i64, w⟩)

/-- The box that a slot points to. -/
def boxAt (frame slot : ℕ) : Option ℕ :=
  match σ.mem (.slot frame slot) with
  | some (.pointer b) => some b
  | _ => none

/-- A load from a cell; a global that has not been stored to is zero. -/
def loadCell (frame : ℕ) (cell : Cell) (type : LTy) : Option Value :=
  match σ.mem (cell.location frame) with
  | some (.value _ v) => reload type v
  | some (.pointer _) => none
  | none =>
    match cell with
    | .slot _ => none
    | .global _ => some (zero type)

/-- A load from a box. -/
def loadBox (box : ℕ) (type : LTy) : Option Value :=
  match σ.mem (.box box) with
  | some (.value _ v) => (coerceToI64 v).map (ofI64 type)
  | _ => none

/-- What is put into an environment for a variable that is captured by value: a word. -/
def captured (frame slot : ℕ) (type : LTy) : Option Content :=
  match σ.mem (.slot frame slot) with
  | some (.value m v) =>
    ((reload type v).bind coerceToI64).map fun w =>
      .value (if v.type = .i64 ∧ type = .i64 then m else none) ⟨.i64, w⟩
  | c => c

@[simp] theorem put_mem (L : Location) (c : Option Content) : (σ.put L c).mem = Function.update σ.mem L c := rfl

@[simp] theorem store_time (frame : ℕ) (cells : List (Cell × LTy)) (m : Option ℕ) (v : Value) :
    (σ.store frame cells m v).time = σ.time := by
  induction cells generalizing σ with
  | nil => rfl
  | cons c cells ih => exact ih _

@[simp] theorem give_env (X : Var) (v : Value) :
    (σ.give X v).env = Function.update σ.env X (some (σ.time, v)) := rfl

@[simp] theorem copyOf_env (X Y : Var) : (σ.copyOf X Y).env = Function.update σ.env Y (σ.env X) := rfl

end Machine

variable (names : ℕ → Name → Var)

/-- One step: an item with its code is executed.  `names` are the variables that the names mean in an activation.
There is no step behind code that is broken, or when something else than a box is taken for one. -/
def step (σ : Machine) (e : Event) : Item × Code → Option (Machine × Option Reading)
  | (_, .broken) => none
  | (.bind _ x _ declared, code) =>
    let v := e.value
    let m := σ.mark declared v
    let σ' := σ.give (names e.frame x) (convert declared v)
    match code with
    | .store cells => some ((σ'.store e.frame cells m v).tick, none)
    | .newBox s => some (((σ'.newBox e.frame s).fill σ.boxes m v).tick, none)
    | .storeBox s => (σ.boxAt e.frame s).map fun b => ((σ'.fill b m v).tick, none)
    | _ => some (σ'.tick, none)
  | (.del x declared, code) =>
    let σ' := σ.give (names e.frame x) (zero declared)
    match code with
    | .clear s type => some ((σ'.store e.frame [(.slot s, type)] (σ.mark declared (zero type)) (zero type)).tick, none)
    | _ => some (σ'.tick, none)
  | (.read x, code) =>
    let X := names e.frame x
    match code with
    | .load cell type => some (σ.tick, some ⟨X, σ.loadCell e.frame cell type, (σ.env X).map Prod.snd⟩)
    | .loadBox s type =>
      (σ.boxAt e.frame s).map fun b => (σ.tick, some ⟨X, σ.loadBox b type, (σ.env X).map Prod.snd⟩)
    | _ => some (σ.tick, none)
  | (.capture c, code) =>
    match code with
    | .captureValue s type =>
      some (((σ.copyOf (names e.frame c.name) (.copy e.closure c.name)).put (.env e.closure c.name)
        (σ.captured e.frame s type)).tick, none)
    | .captureBox s => some ((σ.put (.env e.closure c.name) (σ.mem (.slot e.frame s))).tick, none)
    | _ => some (σ.tick, none)
  | (.enter c, code) =>
    match code with
    | .enterValue s | .enterBox s => some ((σ.put (.slot e.frame s) (σ.mem (.env e.closure c.name))).tick, none)
    | _ => some (σ.tick, none)
  | _ => some (σ.tick, none)

/-- A step of a program. -/
def stepAt (program : List (Item × Code)) (σ : Machine) (e : Event) : Option (Machine × Option Reading) :=
  program[e.item]?.bind (step names σ e)

/-- What is read in a run. -/
def run (program : List (Item × Code)) : Machine → List Event → Option (List Reading)
  | _, [] => some []
  | σ, e :: events => do
    let (σ', r) ← stepAt names program σ e
    let rs ← run program σ' events
    return r.toList ++ rs

/-- **What is claimed.**  The run goes on to its end, and every read of such a variable yields the value assigned
last, converted to the declared type. -/
def ReadsRight (K : Var → Prop) (program : List (Item × Code)) (events : List Event) : Prop :=
  ∃ rs, run names program .initial events = some rs ∧
    ∀ r ∈ rs, K r.var → ∀ v, r.meant = some v → r.got = some v

/-! ## The condition -/

/-- A value is loaded for a variable: what was stored there last is still, unchanged, the value that the last
binding of the variable has given, and it is loaded with the type of that value. -/
def Machine.Current (σ : Machine) (X : Var) (L : Location) (type : LTy) : Prop :=
  ∀ k v, σ.env X = some (k, v) → v.type = type ∧ ∃ u, σ.mem L = some (.value (some k) u)

/-- The condition on a step: the code compiles, a slot that is taken for that of a box points to one, and a read of
such a variable loads from where its last binding has stored. -/
def Sound (K : Var → Prop) (σ : Machine) (e : Event) : Item × Code → Prop
  | (_, .broken) => False
  | (.bind _ _ _ _, .storeBox s) => ∃ b, σ.boxAt e.frame s = some b
  | (.read x, .load cell type) => K (names e.frame x) → σ.Current (names e.frame x) (cell.location e.frame) type
  | (.read x, .loadBox s type) =>
    ∃ b, σ.boxAt e.frame s = some b ∧ (K (names e.frame x) → σ.Current (names e.frame x) (.box b) type)
  | _ => True

/-- Every step of a run meets the condition. -/
def AllSound (K : Var → Prop) (program : List (Item × Code)) : Machine → List Event → Prop
  | _, [] => True
  | σ, e :: events =>
    (∃ p, program[e.item]? = some p ∧ Sound names K σ e p) ∧
      ∀ σ' r, stepAt names program σ e = some (σ', r) → AllSound K program σ' events

/-! ## Marks -/

/-- A value with the mark of a step is the one that a binding has given in that step, in a box as a word; `given`
are the values given, and the marks are below `n`. -/
structure Marks (σ : Machine) (given : ℕ → Value) (n : ℕ) : Prop where
  env : ∀ X k v, σ.env X = some (k, v) → k < n ∧ given k = v
  plain : ∀ L k v, (∀ b, L ≠ .box b) → σ.mem L = some (.value (some k) v) → k < n ∧ given k = v
  box : ∀ b k v, σ.mem (.box b) = some (.value (some k) v) →
    k < n ∧ ∃ w, coerceToI64 (given k) = some w ∧ v = ⟨.i64, w⟩

section Marks

variable {σ σ' : Machine} {given : ℕ → Value} {n k frame s b : ℕ} {X Y : Var} {L : Location} {m : Option ℕ} {v : Value}

theorem Marks.initial : Marks .initial given n := by
  constructor
  · intro X k v h
    cases h
  · intro L k v _ h
    cases h
  · intro b k v h
    cases h

/-- One more step, in which a value may be given. -/
theorem Marks.succ (h : Marks σ given n) (v : Value) : Marks σ (Function.update given n v) (n + 1) := by
  have hkeep {k : ℕ} (hk : k < n) : Function.update given n v k = given k :=
    Function.update_of_ne (Nat.ne_of_lt hk) _ _
  constructor
  · intro X k u hu
    obtain ⟨hk, hgiven⟩ := h.env X k u hu
    exact ⟨by omega, by rw [hkeep hk, hgiven]⟩
  · intro L k u hL hu
    obtain ⟨hk, hgiven⟩ := h.plain L k u hL hu
    exact ⟨by omega, by rw [hkeep hk, hgiven]⟩
  · intro b k u hu
    obtain ⟨hk, hword⟩ := h.box b k u hu
    exact ⟨by omega, by rw [hkeep hk]; exact hword⟩

theorem Marks.tick (h : Marks σ given n) : Marks σ.tick given n := ⟨h.env, h.plain, h.box⟩

theorem Marks.give (h : Marks σ given n) (hlt : σ.time < n) (hgiven : given σ.time = v) :
    Marks (σ.give X v) given n := by
  refine ⟨?_, h.plain, h.box⟩
  intro Y k u hu
  by_cases hY : Y = X
  · rw [hY, Machine.give_env, Function.update_self] at hu
    cases hu
    exact ⟨hlt, hgiven⟩
  · rw [Machine.give_env, Function.update_of_ne hY] at hu
    exact h.env Y k u hu

theorem Marks.copyOf (h : Marks σ given n) : Marks (σ.copyOf X Y) given n := by
  refine ⟨?_, h.plain, h.box⟩
  intro Z k u hu
  by_cases hZ : Z = Y
  · rw [hZ, Machine.copyOf_env, Function.update_self] at hu
    exact h.env X k u hu
  · rw [Machine.copyOf_env, Function.update_of_ne hZ] at hu
    exact h.env Z k u hu

/-- What is stored outside of the boxes. -/
theorem Marks.put {c : Option Content} (h : Marks σ given n) (hL : ∀ b, L ≠ .box b)
    (hc : ∀ k v, c = some (.value (some k) v) → k < n ∧ given k = v) : Marks (σ.put L c) given n := by
  refine ⟨h.env, ?_, ?_⟩
  · intro L' k u hL' hu
    by_cases heq : L' = L
    · rw [heq, Machine.put_mem, Function.update_self] at hu
      exact hc k u hu
    · rw [Machine.put_mem, Function.update_of_ne heq] at hu
      exact h.plain L' k u hL' hu
  · intro b k u hu
    rw [Machine.put_mem, Function.update_of_ne (Ne.symm (hL b))] at hu
    exact h.box b k u hu

/-- What is stored in a box. -/
theorem Marks.fill (h : Marks σ given n) (hm : ∀ k, m = some k → k < n ∧ given k = v) :
    Marks (σ.fill b m v) given n := by
  refine ⟨h.env, ?_, ?_⟩
  · intro L k u hL hu
    rw [Machine.fill, Machine.put_mem, Function.update_of_ne (hL b)] at hu
    exact h.plain L k u hL hu
  · intro b' k u hu
    by_cases heq : b' = b
    · rw [heq, Machine.fill, Machine.put_mem, Function.update_self] at hu
      obtain ⟨w, hw, hcontent⟩ := Option.map_eq_some_iff.mp hu
      cases hcontent
      obtain ⟨hk, hgiven⟩ := hm k rfl
      exact ⟨hk, w, by rw [hgiven]; exact hw, rfl⟩
    · rw [Machine.fill, Machine.put_mem, Function.update_of_ne (by simpa using heq)] at hu
      exact h.box b' k u hu

theorem Marks.store {cells : List (Cell × LTy)} (h : Marks σ given n)
    (hm : ∀ k, m = some k → k < n ∧ given k = v) : Marks (σ.store frame cells m v) given n := by
  induction cells generalizing σ with
  | nil => exact h
  | cons c cells ih =>
    refine ih (h.put ?_ ?_)
    · intro b
      cases c.1 <;> simp [Cell.location]
    · intro k u hu
      by_cases htype : v.type = c.2
      · rw [if_pos htype] at hu
        cases hu
        exact hm k rfl
      · rw [if_neg htype] at hu
        cases hu

theorem Marks.newBox (h : Marks σ given n) : Marks (σ.newBox frame s) given n := by
  have hput : Marks (σ.put (.slot frame s) (some (.pointer σ.boxes))) given n :=
    h.put (fun b => Location.noConfusion) fun k v hv => by cases hv
  exact ⟨hput.env, hput.plain, hput.box⟩

/-- What is put into an environment. -/
theorem Marks.captured {type : LTy} (h : Marks σ given n) {k : ℕ} {v : Value}
    (hc : σ.captured frame s type = some (.value (some k) v)) : k < n ∧ given k = v := by
  rw [Machine.captured] at hc
  split at hc
  · rename_i m u hmem
    obtain ⟨w, hw, hcontent⟩ := Option.map_eq_some_iff.mp hc
    split_ifs at hcontent with htype
    · obtain ⟨rfl, rfl⟩ := by simpa using hcontent
      obtain ⟨hk, hgiven⟩ := h.plain _ k u (fun b => Location.noConfusion) hmem
      refine ⟨hk, ?_⟩
      -- a word that is captured is the word itself
      obtain ⟨type', bits⟩ := u
      obtain ⟨rfl, rfl⟩ := htype
      rw [reload, if_pos rfl, Option.bind_some] at hw
      cases hw
      exact hgiven
    · simp at hcontent
  · exact h.plain _ k v (fun b => Location.noConfusion) hc

/-- The mark of a value that a binding stores is the step, where the value is the one given. -/
theorem mark_given {declared : LTy} (hm : σ.mark declared v = some k) : k = σ.time ∧ convert declared v = v := by
  rw [Machine.mark] at hm
  split_ifs at hm with htype
  cases hm
  exact ⟨rfl, by rw [← htype]; exact convert_self v⟩

end Marks

/-! ## One step -/

section Step

variable {names} {K : Var → Prop} {σ σ' : Machine} {e : Event} {p : Item × Code} {r : Option Reading}
  {given : ℕ → Value}

/-- A step keeps the marks. -/
theorem step_marks (h : Marks σ given σ.time) (hstep : step names σ e p = some (σ', r)) :
    ∃ given', Marks σ' given' σ'.time := by
  obtain ⟨item, code⟩ := p
  have hsame : Marks σ.tick given σ.tick.time := by
    have := h.succ (given σ.time)
    rw [Function.update_eq_self] at this
    exact this.tick
  cases item with
  | bind form x type declared =>
    have hgive : Marks (σ.give (names e.frame x) (convert declared e.value))
        (Function.update given σ.time (convert declared e.value)) (σ.time + 1) :=
      (h.succ _).give (Nat.lt_succ_self _) (Function.update_self ..)
    have hm : ∀ k, σ.mark declared e.value = some k →
        k < σ.time + 1 ∧ Function.update given σ.time (convert declared e.value) k = e.value := by
      intro k hk
      obtain ⟨rfl, hconvert⟩ := mark_given hk
      exact ⟨Nat.lt_succ_self _, by rw [Function.update_self, hconvert]⟩
    have htime {τ : Machine} {given : ℕ → Value} (hτ : Marks τ given (σ.time + 1)) (ht : τ.time = σ.time) :
        Marks τ.tick given τ.tick.time := by
      show Marks τ.tick given (τ.time + 1)
      rw [ht]
      exact hτ.tick
    cases code with
    | broken => cases hstep
    | store cells =>
      cases hstep
      exact ⟨_, htime (hgive.store hm) (Machine.store_time ..)⟩
    | newBox s =>
      cases hstep
      exact ⟨_, htime (hgive.newBox.fill hm) rfl⟩
    | storeBox s =>
      obtain ⟨b, -, heq⟩ := Option.map_eq_some_iff.mp hstep
      cases heq
      exact ⟨_, htime (hgive.fill hm) rfl⟩
    | _ =>
      cases hstep
      exact ⟨_, htime hgive rfl⟩
  | del x declared =>
    have hgive : Marks (σ.give (names e.frame x) (zero declared)) (Function.update given σ.time (zero declared))
        (σ.time + 1) := (h.succ _).give (Nat.lt_succ_self _) (Function.update_self ..)
    cases code with
    | broken => cases hstep
    | clear s type =>
      cases hstep
      refine ⟨Function.update given σ.time (zero declared), ?_⟩
      show Marks (Machine.tick _) _ (_ + 1)
      rw [Machine.store_time]
      refine (hgive.store ?_).tick
      intro k hk
      obtain ⟨rfl, -⟩ := mark_given hk
      rw [Machine.mark] at hk
      split_ifs at hk with htype
      exact ⟨Nat.lt_succ_self _, by rw [Function.update_self, ← htype]; rfl⟩
    | _ =>
      cases hstep
      exact ⟨_, hgive.tick⟩
  | read x =>
    cases code with
    | broken => cases hstep
    | loadBox s type =>
      obtain ⟨b, -, heq⟩ := Option.map_eq_some_iff.mp hstep
      cases heq
      exact ⟨_, hsame⟩
    | _ =>
      cases hstep
      exact ⟨_, hsame⟩
  | capture c =>
    have hsucc : Marks σ given (σ.time + 1) := by
      have := h.succ (given σ.time)
      rw [Function.update_eq_self] at this
      exact this
    cases code with
    | broken => cases hstep
    | captureValue s type =>
      cases hstep
      refine ⟨given, Marks.tick ?_⟩
      exact hsucc.copyOf.put (fun b => Location.noConfusion) fun k v hv => hsucc.captured hv
    | captureBox s =>
      cases hstep
      refine ⟨given, Marks.tick ?_⟩
      exact hsucc.put (fun b => Location.noConfusion) fun k v hv => hsucc.plain _ k v (fun b => Location.noConfusion) hv
    | _ =>
      cases hstep
      exact ⟨_, hsame⟩
  | enter c =>
    have hsucc : Marks σ given (σ.time + 1) := by
      have := h.succ (given σ.time)
      rw [Function.update_eq_self] at this
      exact this
    cases code with
    | broken => cases hstep
    | enterValue s | enterBox s =>
      cases hstep
      refine ⟨given, Marks.tick ?_⟩
      exact hsucc.put (fun b => Location.noConfusion) fun k v hv => hsucc.plain _ k v (fun b => Location.noConfusion) hv
    | _ =>
      cases hstep
      exact ⟨_, hsame⟩
  | _ =>
    cases code with
    | broken => cases hstep
    | _ =>
      cases hstep
      exact ⟨_, hsame⟩

/-- A read of a variable whose value is current yields it. -/
theorem loadCell_current {X : Var} {cell : Cell} {type : LTy} {frame k n : ℕ} {v : Value} (h : Marks σ given n)
    (hcurrent : σ.Current X (cell.location frame) type) (henv : σ.env X = some (k, v)) :
    σ.loadCell frame cell type = some v := by
  obtain ⟨htype, u, hu⟩ := hcurrent k v henv
  have hplain : ∀ b, cell.location frame ≠ .box b := by
    intro b
    cases cell <;> exact Location.noConfusion
  obtain ⟨-, hgivenu⟩ := h.plain _ k u hplain hu
  obtain ⟨-, hgivenv⟩ := h.env X k v henv
  obtain rfl : u = v := hgivenu.symm.trans hgivenv
  simp only [Machine.loadCell, hu]
  exact if_pos htype

theorem loadBox_current {X : Var} {type : LTy} {b k n : ℕ} {v : Value} (h : Marks σ given n)
    (hcurrent : σ.Current X (.box b) type) (henv : σ.env X = some (k, v)) : σ.loadBox b type = some v := by
  obtain ⟨htype, u, hu⟩ := hcurrent k v henv
  obtain ⟨-, w, hw, rfl⟩ := h.box b k u hu
  obtain ⟨-, hgivenv⟩ := h.env X k v henv
  rw [hgivenv] at hw
  rw [Machine.loadBox, hu]
  show some (ofI64 type w) = some v
  rw [← htype, ofI64_coerceToI64 hw]

/-- A read that meets the condition yields the value the variable should have. -/
theorem step_reads {r : Reading} {v : Value} {n : ℕ} (h : Marks σ given n) (hsound : Sound names K σ e p)
    (hstep : step names σ e p = some (σ', some r)) (hK : K r.var) (hmeant : r.meant = some v) : r.got = some v := by
  obtain ⟨item, code⟩ := p
  cases item with
  | read x =>
    cases code with
    | load cell type =>
      cases hstep
      obtain ⟨⟨k, u⟩, henv, rfl⟩ := Option.map_eq_some_iff.mp hmeant
      exact loadCell_current h (hsound hK) henv
    | loadBox s type =>
      obtain ⟨b, hb, heq⟩ := Option.map_eq_some_iff.mp hstep
      cases heq
      obtain ⟨b', hb', hcurrent⟩ := hsound
      obtain rfl := Option.some.inj (hb.symm.trans hb')
      obtain ⟨⟨k, u⟩, henv, rfl⟩ := Option.map_eq_some_iff.mp hmeant
      exact loadBox_current h (hcurrent hK) henv
    | _ => cases hstep
  | bind form x type declared =>
    cases code with
    | storeBox s =>
      obtain ⟨b, -, heq⟩ := Option.map_eq_some_iff.mp hstep
      cases heq
    | _ => cases hstep
  | _ => cases code <;> cases hstep

/-- A step that meets the condition is taken. -/
theorem step_isSome (hsound : Sound names K σ e p) : ∃ σ' r, step names σ e p = some (σ', r) := by
  obtain ⟨item, code⟩ := p
  cases item with
  | bind form x type declared =>
    cases code with
    | broken => exact absurd hsound id
    | storeBox s =>
      obtain ⟨b, hb⟩ := hsound
      exact ⟨_, none, Option.map_eq_some_iff.mpr ⟨b, hb, rfl⟩⟩
    | _ => exact ⟨_, _, rfl⟩
  | read x =>
    cases code with
    | broken => exact absurd hsound id
    | loadBox s type =>
      obtain ⟨b, hb, -⟩ := hsound
      exact ⟨_, _, Option.map_eq_some_iff.mpr ⟨b, hb, rfl⟩⟩
    | _ => exact ⟨_, _, rfl⟩
  | _ =>
    cases code with
    | broken => exact absurd hsound id
    | _ => exact ⟨_, _, rfl⟩

end Step

/-! ## Runs -/

section Runs

variable {names} {K : Var → Prop} {program : List (Item × Code)}

/-- What is read in a run whose steps meet the condition, from a machine with marks on. -/
theorem run_reads (events : List Event) : ∀ (σ : Machine) (given : ℕ → Value), Marks σ given σ.time →
    AllSound names K program σ events →
    ∃ rs, run names program σ events = some rs ∧ ∀ r ∈ rs, K r.var → ∀ v, r.meant = some v → r.got = some v := by
  induction events with
  | nil =>
    intro σ given _ _
    exact ⟨[], rfl, by simp⟩
  | cons e events ih =>
    intro σ given h hall
    obtain ⟨⟨p, hp, hsound⟩, hrest⟩ := hall
    obtain ⟨σ', r, hstep⟩ := step_isSome hsound
    have hat : stepAt names program σ e = some (σ', r) := by
      rw [stepAt, hp]
      exact hstep
    obtain ⟨given', h'⟩ := step_marks h hstep
    obtain ⟨rs, hrun, hrs⟩ := ih σ' given' h' (hrest σ' r hat)
    refine ⟨r.toList ++ rs, ?_, ?_⟩
    · rw [run, hat]
      show (do let rs ← run names program σ' events; return r.toList ++ rs) = _
      rw [hrun]
      rfl
    · intro r' hr' hK v hmeant
      cases List.mem_append.mp hr' with
      | inl hr' =>
        obtain rfl := Option.mem_toList.mp hr'
        exact step_reads h hsound hstep hK hmeant
      | inr hr' => exact hrs r' hr' hK v hmeant

/-- **In a run whose steps meet the condition, every read yields the value that was assigned last.** -/
theorem reads_right {events : List Event} (h : AllSound names K program .initial events) :
    ReadsRight names K program events :=
  run_reads events .initial (fun _ => zero .i64) Marks.initial h

end Runs

/-! ## The kinds of variables -/

def Var.IsLocal (X : Var) : Prop := ∃ frame x, X = .local frame x

def Var.IsModule (X : Var) : Prop := ∃ x, X = .module x

/-- A lambda that is made in the run captures the variable, or it is the copy of a closure. -/
def Captured (names : ℕ → Name → Var) (program : List (Item × Code)) (events : List Event) (X : Var) : Prop :=
  (∃ closure x, X = .copy closure x) ∨
    ∃ e ∈ events, ∃ c code, program[e.item]? = some (.capture c, code) ∧ names e.frame c.name = X

section Kinds

variable (moduleInit : Bool) (lambdas : List (List Capture)) (items : List Item) (names : ℕ → Name → Var)
  (events : List Event)

/-- A function with the statement `x = 5` and a read of `x`. -/
def assignAndRead : List Item :=
  [.functionBegin (.funcDef []), .bind (.assign none) "x".toList .i64 .i64, .read "x".toList, .functionEnd]

/-- A function with `x = 1.5`, a block with `x = 2`, and a read of `x` behind it. -/
def retyped : List Item :=
  [.functionBegin (.funcDef []), .bind (.assign none) "x".toList .double .double, .blockBegin,
    .bind (.assign none) "x".toList .i64 .double, .blockEnd, .read "x".toList, .functionEnd]

/-- `x = 1` at top level, and a function that reads `x`. -/
def globalRead : List Item :=
  [.bind (.assign none) "x".toList .i64 .i64, .functionBegin (.funcDef []), .read "x".toList, .functionEnd]

/-- In activation 1 of a function, and in activation 2 of a lambda that has captured a variable of it, by value or
by reference. -/
def lambdaNames (byReference : Bool) : ℕ → Name → Var
  | 2 => if byReference then .local 1 else .copy 0
  | frame => .local frame

/-- A function that assigns `n`, a lambda that captures `n` and yields it, and another assignment to `n`. -/
def captureAndRead (byReference : Bool) (type : LTy) : List Item :=
  let c : Capture := ⟨"n".toList, byReference⟩
  [.functionBegin (.funcDef [[c]]), .bind (.assign none) c.name type type, .functionBegin (.lambda [c]), .enter c,
    .read c.name, .functionEnd, .capture c, .bind (.assign none) "f".toList .closure .closure,
    .bind (.assign none) c.name type type, .functionEnd]

/-- The variable is assigned, captured, assigned again, and read in the lambda. -/
def captureRun (first second : Value) : List Event :=
  [⟨1, 1, 0, first⟩, ⟨1, 6, 0, first⟩, ⟨1, 8, 0, second⟩, ⟨2, 3, 0, first⟩, ⟨2, 4, 0, first⟩]

end Kinds

end Visuall.Codegen.Variables
