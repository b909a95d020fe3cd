import Visuall.Codegen.Values
import Visuall.Lib.Rounds
import Visuall.Syntax.Ast

/-!
# For loops, as they are emitted

What `codegenForStmt` of `src/codegen.cpp` emits, with the visitors of `break` and `continue`.  The shape of the
loop depends on what the code generator knows of the iterable, and for a pointer on the tag that the object has at
run time.  A shape is a header, which looks for an element and binds the loop variables; what follows it, the body,
the branch back and the exit block, is the same in all of them, but for the index that some of them keep.

The functions of the runtime are declared before any code is emitted, so the branches for those that are missing
are left out.  An allocation that the program cannot see, that of the list of keys, does not change the world.
Strings are not written to.

* `Object`, `Runtime` — what a loop finds at run time;
* `ForStmt`, `Held` — the statement, and what the code generator knows of the iterable;
* `enter`, `Loop.rounds` — the emitted loop;
* `iterate`, `Source.rounds` — the loop as it is meant;
* `enumerate`, `zip` — the two functions of the runtime whose results are lists of pairs.
-/

namespace Visuall.Codegen.ForLoops

open Visuall.Ast

variable {W E : Type}

/-! ## Objects -/

/-- An iterable object.  A list of pairs is what `enumerate` and `zip` give: a list in which the components of the
pairs stand one after another.  The keys of a dict are those of its used entries, in the order of the table. -/
inductive Object
  | list (data : List Word)
  | tuple (data : List Word)
  | pairs (ps : List (Word × Word))
  | dict (keys : List Word)
  | string (length : ℕ)
  | generator
  | instance (cls : Name)
  deriving DecidableEq, Repr

/-- The pairs, one component after another. -/
def flat (ps : List (Word × Word)) : List Word := ps.flatMap fun p => [p.1, p.2]

/-- `__visuall_enumerate`: what is pushed for the elements from index `i` on. -/
def enumerateFrom (i : ℕ) : List Word → List Word
  | [] => []
  | x :: src => BitVec.ofNat 64 i :: x :: enumerateFrom (i + 1) src

def enumerate (src : List Word) : List Word := enumerateFrom 0 src

/-- `__visuall_zip`: what is pushed as long as both lists have an element. -/
def zip : List Word → List Word → List Word
  | x :: a, y :: b => x :: y :: zip a b
  | _, _ => []

theorem enumerateFrom_eq_flat (src : List Word) (i : ℕ) :
    enumerateFrom i src = flat ((src.zipIdx i).map fun p => (BitVec.ofNat 64 p.2, p.1)) := by
  induction src generalizing i with
  | nil => rfl
  | cons x src ih =>
    rw [enumerateFrom, ih (i + 1)]
    rfl

theorem enumerate_eq_flat (src : List Word) :
    enumerate src = flat (src.zipIdx.map fun p => (BitVec.ofNat 64 p.2, p.1)) := enumerateFrom_eq_flat src 0

/-- The result of `zip` is the list of the pairs of elements. -/
theorem zip_eq_flat (a b : List Word) : zip a b = flat (List.zip a b) := by
  induction a generalizing b with
  | nil => rfl
  | cons x a ih =>
    cases b with
    | nil => rfl
    | cons y b =>
      rw [zip, ih b]
      rfl

namespace Object

/-- What the functions for lists find in the object. -/
def data : Object → Option (List Word)
  | .list data | .tuple data => some data
  | .pairs ps => some (flat ps)
  | _ => none

/-- The tags of `stdlib/gc.h`. -/
def tag : Object → ℕ
  | .string _ => 1
  | .list _ | .pairs _ => 2
  | .dict _ => 3
  | .instance _ => 5
  | .tuple _ => 6
  | .generator => 9

end Object

/-! ## The runtime -/

/-- How the program is left, or what it does when it does what C does not define. -/
inductive Exit (E : Type)
  | indexError
  | undefined
  | raised (e : E)
  deriving DecidableEq, Repr

/-- What a world `W` has at an address, and the code of the program and the runtime that a loop calls: a one-character
string is made, a generator goes on to its next value if there is one, and `__iter__` and `__next__` of a class are
called.  There is nothing at the null pointer. -/
structure Runtime (W E : Type) where
  load : W → Word → Option Object
  load_null : ∀ w, load w 0 = none
  stringIndex : Word → ℕ → W → W × Word
  resume : Word → W → W × Except E (Option Word)
  iter : Name → Word → W → W × Except E Word
  next : Name → Word → W → W × Except E Word

/-- `INT64_MIN`, which stands for the end of an iteration. -/
def sentinel : Word := BitVec.ofNat 64 (2 ^ 63)

namespace Runtime

variable (rt : Runtime W E)

/-- `__visuall_get_tag`. -/
def getTag (w : W) (ptr : Word) : Except (Exit E) ℕ :=
  if ptr = 0 then .ok 0 else ((rt.load w ptr).map Object.tag).elim (.error .undefined) .ok

/-- `__visuall_list_len`. -/
def listLen (w : W) (list : Word) : Except (Exit E) ℕ :=
  if list = 0 then .ok 0 else (((rt.load w list).bind Object.data).map List.length).elim (.error .undefined) .ok

/-- `__visuall_list_get`. -/
def listGet (w : W) (list : Word) (index : ℕ) : Except (Exit E) Word :=
  if list = 0 then .error .indexError
  else
    match (rt.load w list).bind Object.data with
    | none => .error .undefined
    | some data => (data[index]?).elim (.error .indexError) .ok

/-- `__visuall_dict_keys`. -/
def dictKeys (w : W) (ptr : Word) : Except (Exit E) (List Word) :=
  match rt.load w ptr with
  | some (.dict keys) => .ok keys
  | _ => .error .undefined

/-- `__visuall_string_len`. -/
def stringLen (w : W) (s : Word) : Except (Exit E) ℕ :=
  if s = 0 then .ok 0
  else
    match rt.load w s with
    | some (.string length) => .ok length
    | _ => .error .undefined

/-- `__visuall_gen_next`: `INT64_MIN` when the generator has no further value. -/
def genNext (gen : Word) (w : W) : W × Except E Word :=
  match rt.resume gen w with
  | (w, .ok v) => (w, .ok (v.getD sentinel))
  | (w, .error e) => (w, .error e)

end Runtime

/-! ## The statement -/

/-- How a list of statements ends. -/
inductive Outcome (E : Type)
  | normal
  | broke
  | continued
  | left (x : Exit E)
  deriving DecidableEq, Repr

/-- What a loop variable holds: a word, or what the pairs of `enumerate` and `zip` are meant to be. -/
inductive Val
  | word (w : Word)
  | pair (a b : Word)
  deriving DecidableEq, Repr

/-- A run of a body: the world after it, how it ends, and whether it was suspended by a `yield` of the function on
the way. -/
structure BodyRun (W E : Type) where
  world : W
  outcome : Outcome E
  suspended : Bool

/-- A `for` statement: the number of loop variables behind the first, the body, which is given what the variables
hold, and the else branch. -/
structure ForStmt (W E : Type) where
  more : ℕ
  body : List Val → W → BodyRun W E
  elseBranch : Option (W → W × Outcome E)

/-- What the code generator knows of the iterable: the class in `varClass_`, if it is a variable with one and the class
has `__iter__` and `__next__`, whether `isStringExpr` holds, and the LLVM type. -/
structure Held where
  varClass : Option Name
  isStringExpr : Bool
  type : LTy

/-- What a loop shows: the body is run for the element at a position, with what the loop variables hold and the world
that it is run in; the else branch is run. -/
inductive Event (W : Type)
  | visit (position : ℕ) (vars : List Val) (world : W)
  | orElse (world : W)

/-- What a loop does in a round, from the position that is due and the world. -/
abbrev ForRounds (W E : Type) := Rounds (ℕ × W) (Event W) (W × Outcome E)

/-- What is shown, and where the loop stands then. -/
abbrev Progress (W E : Type) := List (Event W) × ((ℕ × W) ⊕ (W × Outcome E))

/-! ## The emitted loop -/

/-- What a header comes to: the end of the loop, the loop variables of the next round, or out of the program. -/
inductive Taken (E : Type)
  | done
  | vars (vals : List Val)
  | left (x : Exit E)
  deriving DecidableEq, Repr

def Taken.ofBinding : Except (Exit E) (List Val) → Taken E
  | .ok vals => .vars vals
  | .error x => .left x

/-- An emitted loop: its header, and whether it keeps an index, which is moved on at the end of the body.  The position
is that index, or else the number of the elements taken. -/
structure Loop (W E : Type) where
  counted : Bool
  take : ℕ → W → W × Taken E

section Emission

variable (rt : Runtime W E) (node : ForStmt W E)

/-- `emitUnpackRest`: the variables behind the first. -/
def emitUnpackRest (w : W) (elem : Word) : Except (Exit E) (List Val) :=
  (List.range node.more).mapM fun vi => (rt.listGet w elem (vi + 1)).map Val.word

/-- An element in the first variable, and what is unpacked from it in the others. -/
def bindUnpacked (w : W) (elem : Word) : W × Taken E :=
  (w, .ofBinding ((emitUnpackRest rt node w elem).map (Val.word elem :: ·)))

/-- A header that compares the index with a bound. -/
def countedLoop (bound : ℤ) (elem : ℕ → W → W × Taken E) : Loop W E where
  counted := true
  take idx w := if (idx : ℤ) < bound then elem idx w else (w, .done)

/-- A header that asks for the next element, which is `INT64_MIN` at the end. -/
def nextLoop (next : W → W × Except E Word) : Loop W E where
  counted := false
  take _ w :=
    match next w with
    | (w, .ok v) => if v = sentinel then (w, .done) else bindUnpacked rt node w v
    | (w, .error e) => (w, .left (.raised e))

/-- A string: one-character strings, in the first variable. -/
def stringLoop (s : Word) (length : ℕ) : Loop W E :=
  countedLoop length fun idx w => ((rt.stringIndex s idx w).1, .vars [.word (rt.stringIndex s idx w).2])

/-- A dict: the list of its keys, in the first variable. -/
def dictLoop (keyList : List Word) : Loop W E :=
  countedLoop keyList.length fun idx w => (w, (keyList[idx]?).elim (.left .indexError) fun key => .vars [.word key])

/-- A list or a tuple. -/
def listLoop (list : Word) (length : ℕ) : Loop W E :=
  countedLoop length fun idx w =>
    match rt.listGet w list idx with
    | .ok elem => bindUnpacked rt node w elem
    | .error x => (w, .left x)

/-- An integer bound: the index, in the first variable. -/
def rangeLoop (bound : ℤ) : Loop W E := countedLoop bound fun idx w => (w, .vars [.word (BitVec.ofNat 64 idx)])

/-- `codegenForStmt` up to the header, once the iterable has been evaluated. -/
def enter (held : Held) (iterVal : Word) (w : W) : W × Except (Exit E) (Loop W E) :=
  match held.varClass with
  | some cls =>
    match rt.iter cls iterVal w with
    | (w, .ok iterObj) => (w, .ok (nextLoop rt node (rt.next cls iterObj)))
    | (w, .error e) => (w, .error (.raised e))
  | none =>
    if held.isStringExpr && decide (held.type = .ptr) then (w, (rt.stringLen w iterVal).map (stringLoop rt iterVal))
    else if held.type = .ptr then
      (w, do
        let tag ← rt.getTag w iterVal
        if tag = 3 then return dictLoop (← rt.dictKeys w iterVal)
        if tag = 9 then return nextLoop rt node (rt.genNext iterVal)
        return listLoop rt node iterVal (← rt.listLen w iterVal))
    else (w, .ok (rangeLoop (if held.type = .i64 then iterVal.toInt else 0)))

/-- The exit block.  The flag of the loop, if there is an else branch, is cleared before the loop. -/
def exitBB (didBreak : Bool) (w : W) : Progress W E :=
  match node.elseBranch with
  | none => ([], .inr (w, .normal))
  | some elseBranch => if didBreak then ([], .inr (w, .normal)) else ([.orElse w], .inr (elseBranch w))

/-- Where a body goes: from its end to the header, the index moved on; by `continue`, to the header; by `break`, to the
exit block, the flag set.  The index and the operands of the header are not in the frame that a suspended function is
resumed with. -/
def Loop.afterBody (L : Loop W E) (idx : ℕ) (r : BodyRun W E) : Progress W E :=
  match r.outcome with
  | .left x => ([], .inr (r.world, .left x))
  | .broke => exitBB node true r.world
  | .normal => ([], if r.suspended then .inr (r.world, .left .undefined) else .inl (idx + 1, r.world))
  | .continued =>
    ([], if r.suspended then .inr (r.world, .left .undefined)
      else .inl (if L.counted then idx else idx + 1, r.world))

/-- The emitted loop, from its header on. -/
def Loop.rounds (L : Loop W E) : ForRounds W E where
  round := fun (idx, w) =>
    match L.take idx w with
    | (w, .done) => exitBB node false w
    | (w, .left x) => ([], .inr (w, .left x))
    | (w, .vars vals) =>
      let after := L.afterBody node idx (node.body vals w)
      (.visit idx vals w :: after.1, after.2)

/-- What the code emitted for the statement does in `n` rounds. -/
def emitted (held : Held) (iterVal : Word) (w : W) (n : ℕ) : Progress W E :=
  match enter rt node held iterVal w with
  | (w, .ok L) => (L.rounds node).run n (0, w)
  | (w, .error x) => ([], .inr (w, .left x))

end Emission

/-! ## The loop as it is meant -/

/-- What comes next in an iteration. -/
inductive Next (E : Type)
  | done
  | elem (v : Val)
  | left (x : Exit E)
  deriving DecidableEq, Repr

/-- The elements by their position: those an iterable has when the loop is entered, or those that it produces in the
worlds that it is asked in. -/
abbrev Source (W E : Type) := ℕ → W → W × Next E

section Meaning

variable (rt : Runtime W E) (node : ForStmt W E)

/-- Component `i` of an element. -/
def component (w : W) : Val → ℕ → Except (Exit E) Val
  | .word elem, i => (rt.listGet w elem i).map .word
  | .pair a _, 0 => .ok (.word a)
  | .pair _ b, 1 => .ok (.word b)
  | .pair _ _, _ => .error .indexError

/-- One loop variable is the element; several are its components. -/
def bindElem (w : W) (elem : Val) : Except (Exit E) (List Val) :=
  if node.more = 0 then .ok [elem] else (List.range (node.more + 1)).mapM (component rt w elem)

/-- What the loop variables are to hold at a position. -/
def Source.take (S : Source W E) (i : ℕ) (w : W) : W × Taken E :=
  match S i w with
  | (w, .done) => (w, .done)
  | (w, .left x) => (w, .left x)
  | (w, .elem v) => (w, .ofBinding (bindElem rt node w v))

/-- The elements of a list that does not change. -/
def Source.ofList (vals : List Val) : Source W E := fun i w => (w, (vals[i]?).elim .done .elem)

/-- The values that a function produces. -/
def Source.ofNext (next : W → W × Except E (Option Word)) : Source W E := fun _ w =>
  match next w with
  | (w, .ok (some v)) => (w, .elem (.word v))
  | (w, .ok none) => (w, .done)
  | (w, .error e) => (w, .left (.raised e))

/-- `__next__` gives `INT64_MIN` at the end. -/
def untilSentinel (next : W → W × Except E Word) (w : W) : W × Except E (Option Word) :=
  ((next w).1, (next w).2.map fun v => if v = sentinel then none else some v)

/-- What is meant to follow a body. -/
def Source.afterBody (i : ℕ) (r : BodyRun W E) : (ℕ × W) ⊕ (W × Outcome E) :=
  match r.outcome with
  | .left x => .inr (r.world, .left x)
  | .broke => .inr (r.world, .normal)
  | .normal | .continued => .inl (i + 1, r.world)

/-- The body once for each element, in order, until a `break`; the else branch if there was none. -/
def Source.rounds (S : Source W E) : ForRounds W E where
  round := fun (i, w) =>
    match S.take rt node i w with
    | (w, .done) => node.elseBranch.elim ([], .inr (w, .normal)) fun elseBranch => ([.orElse w], .inr (elseBranch w))
    | (w, .left x) => ([], .inr (w, .left x))
    | (w, .vars vals) => ([.visit i vals w], Source.afterBody i (node.body vals w))

end Meaning

/-- An iterable in a world: an integer, or an object with its address. -/
structure Iterable (rt : Runtime W E) (w : W) where
  word : Word
  object : Option Object
  loaded : ∀ o ∈ object, rt.load w word = some o

variable {rt : Runtime W E} (node : ForStmt W E) {w : W}

/-- Elements are taken from an iterable.  An object of a class gives an iterator, whose class has the `__next__` that
is called. -/
def Iterable.iterate (it : Iterable rt w) : W × Except (Exit E) (Source W E) :=
  match it.object with
  | none => (w, .ok fun i w => (w, if (i : ℤ) < it.word.toInt then .elem (.word (BitVec.ofNat 64 i)) else .done))
  | some (.list data) | some (.tuple data) => (w, .ok (.ofList (data.map .word)))
  | some (.pairs ps) => (w, .ok (.ofList (ps.map fun p => .pair p.1 p.2)))
  | some (.dict keys) => (w, .ok (.ofList (keys.map .word)))
  | some (.string length) =>
    (w, .ok fun i w =>
      if i < length then ((rt.stringIndex it.word i w).1, .elem (.word (rt.stringIndex it.word i w).2)) else (w, .done))
  | some .generator => (w, .ok (.ofNext (rt.resume it.word)))
  | some (.instance cls) =>
    match rt.iter cls it.word w with
    | (w, .error e) => (w, .error (.raised e))
    | (w, .ok iterObj) =>
      match rt.load w iterObj with
      | some (.instance cls) => (w, .ok (.ofNext (untilSentinel (rt.next cls iterObj))))
      | _ => (w, .error .undefined)

/-- What the statement is meant to do in `n` rounds. -/
def Iterable.meant (it : Iterable rt w) (n : ℕ) : Progress W E :=
  match it.iterate with
  | (w, .ok S) => (S.rounds rt node).run n (0, w)
  | (w, .error x) => ([], .inr (w, .left x))

/-! ## The emitted loop and the meant one -/

section Agreement

variable (rt)

/-- The body leaves the loop, or the loop goes on with the next position. -/
def Loop.Advances (L : Loop W E) (r : BodyRun W E) : Prop :=
  match r.outcome with
  | .normal => r.suspended = false
  | .continued => r.suspended = false ∧ L.counted = false
  | .broke | .left _ => True

/-- At a position and a world, the header binds the loop variables to the element that is due, and the body then
leaves the loop or takes it to the next position. -/
structure Loop.Serves (L : Loop W E) (S : Source W E) (t : ℕ × W) : Prop where
  take : L.take t.1 t.2 = S.take rt node t.1 t.2
  advances : ∀ w vals, S.take rt node t.1 t.2 = (w, .vars vals) → L.Advances (node.body vals w)

variable {rt} {node} {L : Loop W E} {S : Source W E} {i : ℕ} {after after' : BodyRun W E → Progress W E}

theorem afterBody_eq_iff (r : BodyRun W E) : L.afterBody node i r = ([], Source.afterBody i r) ↔ L.Advances r := by
  obtain ⟨world, outcome, suspended⟩ := r
  cases outcome with
  | normal => cases suspended <;> simp [Loop.afterBody, Source.afterBody, Loop.Advances]
  | broke => cases hbranch : node.elseBranch <;> simp [Loop.afterBody, Source.afterBody, Loop.Advances, exitBB, hbranch]
  | continued =>
    cases suspended <;> cases hcounted : L.counted <;>
      simp [Loop.afterBody, Source.afterBody, Loop.Advances, hcounted]
  | left x => simp [Loop.afterBody, Source.afterBody, Loop.Advances]

/-- What a round does, once the header has come to something; `after` is what follows the body. -/
def afterTake (node : ForStmt W E) (after : BodyRun W E → Progress W E) (i : ℕ) : W × Taken E → Progress W E
  | (w, .done) => exitBB node false w
  | (w, .left x) => ([], .inr (w, .left x))
  | (w, .vars vals) => (.visit i vals w :: (after (node.body vals w)).1, (after (node.body vals w)).2)

theorem round_loop (w : W) : (L.rounds node).round (i, w) = afterTake node (L.afterBody node i) i (L.take i w) := rfl

theorem round_source (w : W) : (S.rounds rt node).round (i, w) =
    afterTake node (fun r => ([], Source.afterBody i r)) i (S.take rt node i w) := by
  unfold Source.rounds afterTake exitBB
  simp only
  rcases S.take rt node i w with ⟨w', taken⟩
  cases taken with
  | done => cases node.elseBranch <;> rfl
  | _ => rfl

variable (node) in
/-- The end of a loop shows no visit, and it shows whether the else branch is run. -/
theorem exitBB_false_cases (w : W) : exitBB node false w = ([], .inr (w, .normal)) ∨
    ∃ r, exitBB node false w = ([.orElse w], .inr r) := by
  unfold exitBB
  cases node.elseBranch with
  | none => exact .inl rfl
  | some elseBranch => exact .inr ⟨_, rfl⟩

/-- What a round shows tells what its header came to. -/
theorem afterTake_injective {x y : W × Taken E} (h : afterTake node after i x = afterTake node after' i y) :
    x = y := by
  obtain ⟨w, taken⟩ := x
  obtain ⟨w', taken'⟩ := y
  have hexit := exitBB_false_cases node w
  have hexit' := exitBB_false_cases node w'
  cases taken <;> cases taken' <;> simp only [afterTake] at h
  all_goals grind

/-- **One round**: the emitted loop does what is meant exactly when it serves the element that is due. -/
theorem round_eq_iff (t : ℕ × W) : (L.rounds node).round t = (S.rounds rt node).round t ↔ L.Serves rt node S t := by
  obtain ⟨i, w⟩ := t
  rw [round_loop, round_source]
  constructor
  · intro h
    have htake : L.take i w = S.take rt node i w := afterTake_injective h
    refine ⟨htake, fun w' vals hS => ?_⟩
    rw [htake, hS] at h
    simp only [afterTake, Prod.mk.injEq, List.cons.injEq, true_and] at h
    have hafter : L.afterBody node i (node.body vals w') = ([], Source.afterBody i (node.body vals w')) :=
      Prod.ext h.1 h.2
    exact (afterBody_eq_iff _).mp hafter
  · intro h
    rw [h.take]
    rcases hS : S.take rt node i w with ⟨w', taken⟩
    cases taken with
    | vars vals =>
      unfold afterTake
      simp only
      rw [(afterBody_eq_iff _).mpr (h.advances w' vals hS)]
    | _ => rfl

end Agreement

/-- The elements come to an end. -/
def Source.Finite (S : Source W E) : Prop := ∃ n, ∀ i ≥ n, ∀ w, (S i w).2 = .done

variable (rt) in
/-- A position with an element is in front of the end. -/
theorem Source.take_of_done {S : Source W E} {i : ℕ} (h : (S i w).2 = .done) : (S.take rt node i w).2 = .done := by
  unfold Source.take
  rcases hS : S i w with ⟨w', next⟩
  rw [hS] at h
  cases h
  rfl

variable (rt) in
/-- A loop over finitely many elements ends, each run of the body being one. -/
theorem Source.Finite.ends {S : Source W E} (h : S.Finite) (s : ℕ × W) : (S.rounds rt node).Ends s := by
  obtain ⟨n, hn⟩ := h
  refine Rounds.ends_of_measure (fun t => n - t.1) (fun t es u hround => ?_) s
  obtain ⟨i, w⟩ := t
  rw [round_source] at hround
  rcases htake : S.take rt node i w with ⟨w', taken⟩
  rw [htake] at hround
  cases taken with
  | done =>
    rcases exitBB_false_cases node w' with hexit | ⟨r, hexit⟩
    · cases hexit.symm.trans hround
    · cases hexit.symm.trans hround
  | left x => cases hround
  | vars vals =>
    have hlt : i < n := by
      by_contra hge
      have hdone := Source.take_of_done rt node (hn i (Nat.le_of_not_lt hge) w)
      rw [htake] at hdone
      cases hdone
    have hnext : u.1 = i + 1 := by
      have hsnd : Source.afterBody i (node.body vals w') = .inl u := congrArg (fun x => x.2) hround
      unfold Source.afterBody at hsnd
      grind
    simp only [hnext]
    omega

/-! ## For statements -/

/-- **A for loop visits every element once, in order**: however many rounds one looks at, the emitted code has run the
body as it is meant to, the loop variables holding what they should, and goes on at the position that it should, or is
done and has run the else branch if it should.  It then ends if there are finitely many elements. -/
structure VisitsOnce (held : Held) (it : Iterable rt w) : Prop where
  rounds : ∀ n, emitted rt node held it.word w n = it.meant node n
  ends : ∀ w' S, it.iterate = (w', .ok S) → S.Finite → ∃ n r, (emitted rt node held it.word w n).2 = .inr r

/-- The condition: what is emitted in front of the header does to the world what the iterable asks for, and the header
and the body serve each element that the meant loop comes to. -/
def Served (held : Held) (it : Iterable rt w) : Prop :=
  match enter rt node held it.word w, it.iterate with
  | (w₁, .ok L), (w₂, .ok S) => w₁ = w₂ ∧ ∀ t, (S.rounds rt node).Reaches (0, w₁) t → L.Serves rt node S t
  | (w₁, .error x₁), (w₂, .error x₂) => w₁ = w₂ ∧ x₁ = x₂
  | _, _ => False

/-- A world in which there is one object, the list of 1 and 2. -/
def oneList : Runtime Unit Empty where
  load _ ptr := if ptr = 16 then some (.list [1, 2]) else none
  load_null _ := rfl
  stringIndex _ _ w := (w, 0)
  resume _ w := (w, .ok none)
  iter _ ptr w := (w, .ok ptr)
  next _ _ w := (w, .ok sentinel)

/-- `for x in xs: if x == 1: continue`. -/
def skipOnes : ForStmt Unit Empty where
  more := 0
  body vals w := ⟨w, if vals = [.word 1] then .continued else .normal, false⟩
  elseBranch := none

/-- The list, in a variable of type `ptr`. -/
def theList : Iterable oneList () := ⟨16, some (.list [1, 2]), fun _ ho => Option.mem_some.mp ho ▸ rfl⟩

section Kinds

variable {rt : Runtime W E} {node : ForStmt W E} {p : Word} {data : List Word} {i : ℕ} {w : W}

theorem bindUnpacked_of_single (hmore : node.more = 0) (elem : Word) :
    bindUnpacked rt node w elem = (w, .vars [.word elem]) := by
  unfold bindUnpacked emitUnpackRest
  rw [hmore]
  rfl

end Kinds

end Visuall.Codegen.ForLoops
