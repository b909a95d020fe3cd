import Visuall.Codegen.ForLoops
import Visuall.Lib.Effect

/-!
# Comprehensions, as they are emitted

What `codegenListComprehension` and `codegenDictComprehension` of `src/codegen.cpp` emit, beside the `for` statement
that appends to a list or assigns to an index of a dict, under the same filter.  A comprehension has the blocks of a
loop that counts, over a list or up to an integer, and looks for nothing else.

The code for an expression of the loop variable depends on whether the name of the variable is in `stringVars_`.  An
element, a key and a value are given as words; a key that is not a pointer has become that of its digits.

* `Comprehension`, `Kind.add`, `Kind.put` — the expressions, and what is done with an element that passes the filter;
* `comprehension`, `statement` — the two loops;
* `agrees_iff` — exactly when they are alike.
-/

namespace Visuall.Codegen.Comprehensions

open Visuall.Ast ForLoops

variable {W E D R : Type}

/-! ## Comprehensions -/

/-- The evaluation of an expression, which may leave the program. -/
abbrev Eval (W E α : Type) := ExceptT (Exit E) (StateM W) α

/-- An expression of the loop variable, as it is emitted when the variable is taken for a string, and when it is not. -/
abbrev Expr (W E α : Type) := Bool → Word → Eval W E α

inductive Kind (W E : Type)
  | list (body : Expr W E Word)
  | dict (key value : Expr W E Word)

structure Comprehension (W E : Type) where
  name : Name
  condition : Option (Expr W E Bool)
  kind : Kind W E

/-- The dicts of the runtime: `__visuall_dict_new`, and `__visuall_dict_set` with the string at the key. -/
structure DictRuntime (W D : Type) where
  new : D
  set : W → D → Word → Word → D

namespace Kind

/-- What is built. -/
def Result (D : Type) : Kind W E → Type
  | .list _ => List Word
  | .dict _ _ => D

variable (rd : DictRuntime W D)

/-- The empty list or dict. -/
def new : (k : Kind W E) → k.Result D
  | .list _ => []
  | .dict _ _ => rd.new

/-- What a comprehension emits behind the filter. -/
def add : (k : Kind W E) → Expr W E (k.Result D → k.Result D)
  | .list body => fun isString x => do
    let bodyVal ← body isString x
    return fun (result : List Word) => result ++ [bodyVal]
  | .dict key value => fun isString x => do
    let keyVal ← key isString x
    let valVal ← value isString x
    let w ← get
    return fun result => rd.set w result keyVal valVal

/-- What a statement emits for the element.  An index assignment evaluates the value first, and is a call of
`__visuall_list_set`, which finds no list. -/
def put : (k : Kind W E) → Expr W E (k.Result D → k.Result D)
  | .list body => fun isString x => do
    let bodyVal ← body isString x
    return fun (result : List Word) => result ++ [bodyVal]
  | .dict key value => fun isString x => do
    let _ ← value isString x
    let _ ← key isString x
    throw .undefined

end Kind

/-- The filter, which lets every element pass if there is none. -/
def Comprehension.test (c : Comprehension W E) : Expr W E Bool := c.condition.getD fun _ _ => pure true

/-- The result with an element, if the element passes the filter. -/
def Comprehension.filtered (c : Comprehension W E) (insert : Expr W E (R → R)) : Expr W E (R → R) := fun isString x => do
  if ← c.test isString x then insert isString x else return id

/-- A run of a body that builds a result, once the expressions are evaluated. -/
def inserted : Except (Exit E) (R → R) × W → R → BodyRun (W × R) E
  | (.ok g, w), r => ⟨(w, g r), .normal, false⟩
  | (.error e, w), r => ⟨(w, r), .left e, false⟩

def build (f : Word → Eval W E (R → R)) : List Val → W × R → BodyRun (W × R) E
  | [.word x], s => inserted (f x s.1) s.2
  | _, s => ⟨s, .left .undefined, false⟩

/-- A loop over one variable with such a body. -/
def building (f : Word → Eval W E (R → R)) : ForStmt (W × R) E := ⟨0, build f, none⟩

/-- The runtime, beside a result that is being built. -/
def beside (R : Type) (rt : Runtime W E) : Runtime (W × R) E where
  load s := rt.load s.1
  load_null s := rt.load_null s.1
  stringIndex str i s := (((rt.stringIndex str i s.1).1, s.2), (rt.stringIndex str i s.1).2)
  resume gen s := (((rt.resume gen s.1).1, s.2), (rt.resume gen s.1).2)
  iter cls obj s := (((rt.iter cls obj s.1).1, s.2), (rt.iter cls obj s.1).2)
  next cls obj s := (((rt.next cls obj s.1).1, s.2), (rt.next cls obj s.1).2)

/-! ## The two loops -/

section Loops

variable (rt : Runtime W E)

/-- A comprehension up to the header: for a pointer the length of the list, else the integer itself.  There is no
comparison of the index with an operand of another type. -/
def enterComprehension (type : LTy) (iterVal : Word) (w : W) : Except (Exit E) (Loop W E) :=
  if type = .ptr then
    (rt.listLen w iterVal).map fun length => countedLoop length fun idx w =>
      match rt.listGet w iterVal idx with
      | .ok elem => (w, .vars [.word elem])
      | .error x => (w, .left x)
  else if type = .i64 then .ok (countedLoop iterVal.toInt fun idx w => (w, .vars [.word (BitVec.ofNat 64 idx)]))
  else .error .undefined

/-- Whether the body of the statement is emitted with the loop variable in `stringVars_`, in the shape that is taken:
the name is put there for a string and for the keys of a dict, and is taken out behind them. -/
def isStringVar (held : Held) (marked : Bool) (iterVal : Word) (w : W) : Bool :=
  match held.varClass with
  | some _ => marked
  | none =>
    if held.isStringExpr && decide (held.type = .ptr) then true
    else if held.type = .ptr then
      match rt.getTag w iterVal with
      | .ok tag => tag = 3
      | .error _ => false
    else marked

variable (rd : DictRuntime W D) (c : Comprehension W E) (stringVars : Name → Bool) (held : Held) (iterVal : Word) (w : W)

/-- What a comprehension does in `n` rounds. -/
def comprehension (n : ℕ) : Progress (W × c.kind.Result D) E :=
  match enterComprehension (beside _ rt) held.type iterVal (w, c.kind.new rd) with
  | .ok L =>
    (L.rounds (building (c.filtered (c.kind.add rd) (stringVars c.name)))).run n (0, (w, c.kind.new rd))
  | .error x => ([], .inr ((w, c.kind.new rd), .left x))

/-- The statement. -/
def statementNode : ForStmt (W × c.kind.Result D) E :=
  building (c.filtered c.kind.put (isStringVar rt held (stringVars c.name) iterVal w))

/-- What the statement does in `n` rounds. -/
def statement (n : ℕ) : Progress (W × c.kind.Result D) E :=
  emitted (beside _ rt) (statementNode rt c stringVars held iterVal w) held iterVal (w, c.kind.new rd) n

end Loops

/-! ## The variables outside -/

/-- The variables in scope, and the number of the allocas that have been made. -/
structure Variables where
  scopes : List (List (Name × ℕ))
  allocas : ℕ
  made : ∀ scope ∈ scopes, ∀ v ∈ scope, v.2 < allocas

/-- `lookupVar`. -/
def lookupVar (scopes : List (List (Name × ℕ))) (x : Name) : Option ℕ := scopes.findSome? fun scope => scope.lookup x

/-- The allocas of a comprehension: the index, and the loop variable. -/
def Variables.slots (V : Variables) : List ℕ := [V.allocas, V.allocas + 1]

/-- The scopes behind a comprehension: one is pushed in which the loop variable is declared, and what the expressions
declare, and it is popped. -/
def Variables.scopesAfter (V : Variables) (x : Name) (declared : List (Name × ℕ)) : List (List (Name × ℕ)) :=
  ((declared ++ [(x, V.allocas + 1)]) :: V.scopes).tail

/-! ## Agreement -/

/-- The code generator knows an iterable for what it is. -/
def Known (held : Held) : Option Object → Prop
  | none => held.varClass = none ∧ held.type = .i64
  | some (.string _) => held.varClass = none ∧ held.isStringExpr = true ∧ held.type = .ptr
  | some (.instance cls) => held.varClass = some cls ∧ held.type = .ptr
  | some _ => held.varClass = none ∧ held.isStringExpr = false ∧ held.type = .ptr

/-- An iterable that a `for` statement accepts. -/
structure Accepted (rt : Runtime W E) (w : W) where
  it : Iterable rt w
  held : Held
  known : Known held it.object

section Agreement

variable {rt : Runtime W E} {rd : DictRuntime W D} {c : Comprehension W E} {stringVars : Name → Bool} {w : W}

variable (rd c stringVars) in
/-- **A comprehension agrees with the statement**: they visit the same elements with the same effects and build the
same, however many rounds one looks at; the loop variable is taken for a string in both or in neither; and a name
that stands for a variable outside still does, and for none whose slot the comprehension writes. -/
structure Agrees (a : Accepted rt w) : Prop where
  rounds : ∀ n, comprehension rt rd c stringVars a.held a.it.word w n =
    statement rt rd c stringVars a.held a.it.word w n
  loopVar : ∀ n, (statement rt rd c stringVars a.held a.it.word w n).1 ≠ [] →
    stringVars c.name = isStringVar rt a.held (stringVars c.name) a.it.word w
  outside : ∀ (V : Variables) declared y s, lookupVar V.scopes y = some s →
    lookupVar (V.scopesAfter c.name declared) y = some s ∧ s ∉ V.slots

variable (rd) in
/-- An element of a list is added in the same way.  An entry of a dict is not; the evaluation of the key and the value
leaves the program, and does so in the same way in either order. -/
def Kind.SameInsert (k : Kind W E) (isString : Bool) (x : Word) (w : W) : Prop :=
  match k with
  | .list _ => True
  | .dict key value => ∃ e w', (Kind.dict key value).add rd isString x w = (.error e, w') ∧
    (Kind.dict key value).put (D := D) isString x w = (.error e, w')

/-- The iterables that a comprehension looks for. -/
def Counted : Option Object → Prop
  | none | some (.list _) | some (.tuple _) | some (.pairs _) => True
  | _ => False

variable (rd c stringVars) in
/-- The condition: the iterable is an integer, a list or a tuple; if it has an element, the loop variable is not taken for
a string in one of the two only; and at each element that the statement visits, what passes the filter is inserted
alike. -/
structure Alike (a : Accepted rt w) : Prop where
  counted : Counted a.it.object
  loopVar : ∀ L s vals, enter (beside _ rt) (statementNode rt c stringVars a.held a.it.word w) a.held a.it.word
      (w, c.kind.new rd) = ((w, c.kind.new rd), .ok L) →
    L.take 0 (w, c.kind.new rd) = (s, .vars vals) →
    stringVars c.name = isStringVar rt a.held (stringVars c.name) a.it.word w
  inserts : ∀ L t, enter (beside _ rt) (statementNode rt c stringVars a.held a.it.word w) a.held a.it.word
      (w, c.kind.new rd) = ((w, c.kind.new rd), .ok L) →
    (L.rounds (statementNode rt c stringVars a.held a.it.word w)).Reaches (0, (w, c.kind.new rd)) t →
    ∀ s x, L.take t.1 t.2 = (s, .vars [.word x]) →
      ∀ w', c.test (stringVars c.name) x s.1 = (.ok true, w') → c.kind.SameInsert rd (stringVars c.name) x w'

/-! ### What is built in a round -/

variable {f g : Word → Eval W E (R → R)} {L : Loop (W × R) E} {node node' : ForStmt (W × R) E} {x : Word} {r : R}
  {k : Kind W E} {isString : Bool}

/-- What follows a body that builds tells what it built. -/
theorem afterBody_inserted_iff (i : ℕ) (y z : Except (Exit E) (R → R) × W) :
    L.afterBody node i (inserted y r) = L.afterBody node' i (inserted z r) ↔ inserted y r = inserted z r := by
  obtain ⟨e | h, w⟩ := y <;> obtain ⟨e' | h', w'⟩ := z <;> simp [inserted, Loop.afterBody]

/-- Behind the filter, which is the same. -/
theorem inserted_filtered_iff {insert insert' : Expr W E (R → R)} (w : W) :
    inserted (c.filtered insert isString x w) r = inserted (c.filtered insert' isString x w) r ↔
      ∀ w', c.test isString x w = (.ok true, w') →
        inserted (insert isString x w') r = inserted (insert' isString x w') r := by
  unfold Comprehension.filtered
  rw [Effect.bind_run, Effect.bind_run]
  rcases c.test isString x w with ⟨e | _ | _, w'⟩
  · exact ⟨fun _ _ => nofun, fun _ => rfl⟩
  · exact ⟨fun _ _ => nofun, fun _ => rfl⟩
  · constructor
    · rintro h _ ⟨⟩
      exact h
    · exact fun h => h w' rfl

/-- An index assignment leaves the program. -/
theorem put_dict (key value : Expr W E Word) (isString : Bool) (x : Word) (w : W) :
    ∃ e w', (Kind.dict key value).put (D := D) isString x w = (.error e, w') := by
  show ∃ e w', (value isString x >>= fun _ => key isString x >>= fun _ => throw .undefined :
    Eval W E (D → D)) w = (.error e, w')
  rw [Effect.bind_run]
  rcases value isString x w with ⟨e | v, w₁⟩
  · exact ⟨e, w₁, rfl⟩
  · simp only
    rw [Effect.bind_run]
    rcases key isString x w₁ with ⟨e | k, w₂⟩
    · exact ⟨e, w₂, rfl⟩
    · exact ⟨.undefined, w₂, rfl⟩

/-- What is inserted is told by the result, whatever was built before. -/
theorem inserted_iff (r : k.Result D) (w : W) :
    inserted (k.add rd isString x w) r = inserted (k.put isString x w) r ↔ k.SameInsert rd isString x w := by
  cases k with
  | list body => exact ⟨fun _ => trivial, fun _ => rfl⟩
  | dict key value =>
    obtain ⟨e, w', hput⟩ := put_dict (D := D) key value isString x w
    unfold Kind.SameInsert
    simp only
    rw [hput]
    constructor
    · intro h
      rcases hadd : (Kind.dict key value).add rd isString x w with ⟨e' | g, w''⟩
      · rw [hadd] at h
        cases h
        exact ⟨e, w', rfl, rfl⟩
      · rw [hadd] at h
        cases congrArg BodyRun.outcome h
    · rintro ⟨e', w'', hadd, heq⟩
      rw [hadd, ← heq]

theorem build_of_not_word (f : Word → Eval W E (R → R)) {vals : List Val} (h : ¬ ∃ x, vals = [.word x]) (s : W × R) :
    build f vals s = ⟨s, .left .undefined, false⟩ := by
  unfold build
  split
  · exact absurd ⟨_, rfl⟩ h
  · rfl

/-- **One round** of a loop with two bodies that build. -/
theorem round_building_iff (t : ℕ × W × R) :
    (L.rounds (building f)).round t = (L.rounds (building g)).round t ↔
      ∀ s x, L.take t.1 t.2 = (s, .vars [.word x]) → inserted (f x s.1) s.2 = inserted (g x s.1) s.2 := by
  obtain ⟨i, s⟩ := t
  rw [round_loop, round_loop]
  rcases htake : L.take i s with ⟨s', taken⟩
  cases taken with
  | done => exact ⟨fun _ _ _ => nofun, fun _ => rfl⟩
  | left e => exact ⟨fun _ _ _ => nofun, fun _ => rfl⟩
  | vars vals =>
    by_cases hvals : ∃ x, vals = [.word x]
    · obtain ⟨x, rfl⟩ := hvals
      constructor
      · rintro h _ _ ⟨⟩
        have hafter : L.afterBody (building f) i (inserted (f x s'.1) s'.2) =
            L.afterBody (building g) i (inserted (g x s'.1) s'.2) :=
          Prod.ext (List.cons.inj (congrArg (fun y => y.1) h)).2 (congrArg (fun y => y.2) h)
        exact (afterBody_inserted_iff i _ _).mp hafter
      · intro h
        have hafter : L.afterBody (building f) i (build f [.word x] s') = L.afterBody (building g) i (build g [.word x] s') :=
          (afterBody_inserted_iff i _ _).mpr (h s' x rfl)
        exact congrArg (fun y : Progress (W × R) E => (.visit i [.word x] s' :: y.1, y.2)) hafter
    · constructor
      · rintro _ _ x ⟨⟩
        exact absurd ⟨x, rfl⟩ hvals
      · intro _
        unfold afterTake
        simp only
        show (_ :: (L.afterBody (building f) i (build f vals s')).1, (L.afterBody (building f) i (build f vals s')).2) =
          (_ :: (L.afterBody (building g) i (build g vals s')).1, (L.afterBody (building g) i (build g vals s')).2)
        rw [build_of_not_word f hvals s', build_of_not_word g hvals s']
        rfl

/-! ### The two headers -/

theorem word_ne_zero {word : Word} {o : Object} (h : rt.load w word = some o) : word ≠ 0 := by
  rintro rfl
  rw [rt.load_null] at h
  cases h

/-- A list, for the two loops. -/
theorem enter_of_data {node : ForStmt (W × R) E} (hmore : node.more = 0) {word : Word} {o : Object} {data : List Word}
    (hload : rt.load w word = some o) (hdata : o.data = some data) (r : R) :
    enter (beside R rt) node ⟨none, false, .ptr⟩ word (w, r) = ((w, r), .ok (listLoop (beside R rt) node word data.length)) ∧
      enterComprehension (beside R rt) .ptr word (w, r) = .ok (listLoop (beside R rt) node word data.length) := by
  have hne := word_ne_zero hload
  have htag : (beside R rt).getTag (w, r) word = .ok o.tag := by
    unfold Runtime.getTag beside
    simp only [if_neg hne, hload]
    rfl
  have hlen : (beside R rt).listLen (w, r) word = .ok data.length := by
    unfold Runtime.listLen beside
    simp only [if_neg hne, hload, Option.bind_some, hdata]
    rfl
  have hdict : o.tag ≠ 3 ∧ o.tag ≠ 9 := by
    cases o with
    | list | tuple | pairs => exact ⟨nofun, nofun⟩
    | _ => cases hdata
  constructor
  · unfold enter
    simp only [Bool.false_and, Bool.false_eq_true, if_false, if_true, htag, hlen, Effect.ok_bind, if_neg hdict.1, if_neg hdict.2]
    rfl
  · unfold enterComprehension listLoop
    simp only [if_true, hlen, bindUnpacked_of_single hmore]
    rfl

/-- For an integer, a list or a tuple the two loops have the same header. -/
theorem enter_of_counted {node : ForStmt (W × R) E} (hmore : node.more = 0) {held : Held} {object : Option Object}
    {word : Word} (hknown : Known held object) (hloaded : ∀ o ∈ object, rt.load w word = some o)
    (hcounted : Counted object) (r : R) : ∃ L, enter (beside R rt) node held word (w, r) = ((w, r), .ok L) ∧
      enterComprehension (beside R rt) held.type word (w, r) = .ok L := by
  obtain ⟨varClass, isStringExpr, type⟩ := held
  cases object with
  | none =>
    obtain ⟨rfl, rfl⟩ := hknown
    refine ⟨rangeLoop word.toInt, ?_, rfl⟩
    cases isStringExpr <;> rfl
  | some o =>
    have hload := hloaded o rfl
    cases o with
    | list data =>
      obtain ⟨rfl, rfl, rfl⟩ := hknown
      exact ⟨_, enter_of_data hmore hload rfl r⟩
    | tuple data =>
      obtain ⟨rfl, rfl, rfl⟩ := hknown
      exact ⟨_, enter_of_data hmore hload rfl r⟩
    | pairs ps =>
      obtain ⟨rfl, rfl, rfl⟩ := hknown
      exact ⟨_, enter_of_data hmore hload rfl r⟩
    | _ => exact hcounted.elim

theorem listLen_of_not_data {word : Word} {o : Object} (hload : rt.load w word = some o) (hdata : o.data = none) (r : R) :
    (beside R rt).listLen (w, r) word = .error .undefined := by
  unfold Runtime.listLen beside
  simp only [if_neg (word_ne_zero hload), hload, Option.bind_some, hdata]
  rfl

/-- For every other iterable the comprehension takes the length of what is no list, and the statement does not. -/
theorem enter_of_not_counted (node : ForStmt (W × R) E) {held : Held} {object : Option Object} {word : Word}
    (hknown : Known held object) (hloaded : ∀ o ∈ object, rt.load w word = some o) (hcounted : ¬ Counted object) (r : R) :
    enterComprehension (beside R rt) held.type word (w, r) = .error .undefined ∧
      ∀ s, enter (beside R rt) node held word (w, r) ≠ (s, .error .undefined) := by
  obtain ⟨varClass, isStringExpr, type⟩ := held
  cases object with
  | none => exact absurd trivial hcounted
  | some o =>
    have hload := hloaded o rfl
    have hlen : o.data = none → enterComprehension (beside R rt) .ptr word (w, r) = .error .undefined := by
      intro hdata
      unfold enterComprehension
      rw [if_pos rfl, listLen_of_not_data hload hdata r]
      rfl
    have htag : (beside R rt).getTag (w, r) word = .ok o.tag := by
      unfold Runtime.getTag beside
      simp only [if_neg (word_ne_zero hload), hload]
      rfl
    cases o with
    | string length =>
      obtain ⟨rfl, rfl, rfl⟩ := hknown
      refine ⟨hlen rfl, fun s => ?_⟩
      have hstr : (beside R rt).stringLen (w, r) word = .ok length := by
        unfold Runtime.stringLen beside
        simp only [if_neg (word_ne_zero hload), hload]
      unfold enter
      simp [hstr, Except.map]
    | dict keys =>
      obtain ⟨rfl, rfl, rfl⟩ := hknown
      refine ⟨hlen rfl, fun s => ?_⟩
      have hkeys : (beside R rt).dictKeys (w, r) word = .ok keys := by
        unfold ForLoops.Runtime.dictKeys beside
        simp only [hload]
      unfold enter
      simp [htag, Object.tag, hkeys, Effect.ok_bind, pure, Except.pure]
    | generator =>
      obtain ⟨rfl, rfl, rfl⟩ := hknown
      refine ⟨hlen rfl, fun s => ?_⟩
      unfold enter
      simp [htag, Object.tag, Effect.ok_bind, pure, Except.pure]
    | «instance» cls =>
      obtain ⟨rfl, rfl⟩ := hknown
      refine ⟨hlen rfl, fun s => ?_⟩
      unfold enter
      simp only
      rcases (beside R rt).iter cls word (w, r) with ⟨s', e | obj⟩
      · exact fun h => by cases congrArg (fun y => y.2) h
      · exact fun h => by cases congrArg (fun y => y.2) h
    | _ => exact absurd trivial hcounted

/-! ### The loops -/

/-- A round goes on behind a visit only. -/
theorem visit_of_inl {t u : ℕ × W × R} {es : List (Event (W × R))} (h : (L.rounds node).round t = (es, .inl u)) :
    ∃ s vals, L.take t.1 t.2 = (s, .vars vals) := by
  obtain ⟨i, s⟩ := t
  rw [round_loop] at h
  rcases htake : L.take i s with ⟨s', taken⟩
  rw [htake] at h
  cases taken with
  | vars vals => exact ⟨s', vals, rfl⟩
  | left x => cases h
  | done =>
    rcases exitBB_false_cases node s' with hexit | ⟨r, hexit⟩
    · cases hexit.symm.trans h
    · cases hexit.symm.trans h

theorem round_ne_nil {t : ℕ × W × R} {s : W × R} {vals : List Val} (h : L.take t.1 t.2 = (s, .vars vals)) :
    ((L.rounds node).round t).1 ≠ [] := by
  obtain ⟨i, s₁⟩ := t
  rw [round_loop, h]
  exact List.cons_ne_nil _ _

/-- Where a loop has come to a visit, there was one in its first round. -/
theorem first_visit {t u : ℕ × W × R} (h : (L.rounds node).Reaches t u) {s : W × R} {vals : List Val}
    (hu : L.take u.1 u.2 = (s, .vars vals)) : ∃ s vals, L.take t.1 t.2 = (s, .vars vals) := by
  rcases h.eq_or_first with rfl | ⟨es, v, hround⟩
  · exact ⟨s, vals, hu⟩
  · exact visit_of_inl hround

/-- A loop over nothing but what a round builds is the loop with another body, if it visits nothing. -/
theorem run_eq_of_no_visit {t : ℕ × W × R} (h : ¬ ∃ s vals, L.take t.1 t.2 = (s, .vars vals)) (n : ℕ) :
    (L.rounds (building f)).run n t = (L.rounds (building g)).run n t := by
  refine Rounds.same_iff.mpr (fun u hu => ?_) n
  rw [round_building_iff]
  exact fun s x htake => absurd (first_visit hu htake) h

theorem run_eq_nil_of_no_visit {t : ℕ × W × R} (h : ¬ ∃ s vals, L.take t.1 t.2 = (s, .vars vals)) (n : ℕ) :
    ((L.rounds (building f)).run n t).1 = [] := by
  cases n with
  | zero => rfl
  | succ n =>
    rcases hround : (L.rounds (building f)).round t with ⟨es, u | r⟩
    · exact absurd (visit_of_inl hround) h
    · rw [Rounds.run_succ_of_inr hround]
      obtain ⟨i, s⟩ := t
      rw [round_loop] at hround
      rcases htake : L.take i s with ⟨s', taken⟩
      rw [htake] at hround
      cases taken with
      | vars vals => exact absurd ⟨s', vals, htake⟩ h
      | left x => exact (congrArg (fun y => y.1) hround).symm
      | done => exact (congrArg (fun y => y.1) hround).symm

/-- The scope of a comprehension is gone behind it, and its slots are new. -/
theorem lookup_scopesAfter (V : Variables) (x y : Name) (declared : List (Name × ℕ)) (s : ℕ)
    (h : lookupVar V.scopes y = some s) : lookupVar (V.scopesAfter x declared) y = some s ∧ s ∉ V.slots := by
  refine ⟨h, fun hs => ?_⟩
  obtain ⟨scope, hscope, hlookup⟩ := List.exists_of_findSome?_eq_some h
  have hmem : (y, s) ∈ scope := by
    obtain ⟨front, back, rfl, _⟩ := List.lookup_eq_some_iff.mp hlookup
    exact List.mem_append_right _ List.mem_cons_self
  have hlt := V.made scope hscope _ hmem
  unfold Variables.slots at hs
  simp only [List.mem_cons, List.not_mem_nil, or_false] at hs
  omega

variable (rd c) in
/-- Over the same header, with the loop variable taken for the same. -/
theorem run_building_iff (m : Bool) (t : ℕ × W × c.kind.Result D) (L : Loop (W × c.kind.Result D) E) :
    (∀ n, (L.rounds (building (c.filtered (c.kind.add rd) m))).run n t =
      (L.rounds (building (c.filtered c.kind.put m))).run n t) ↔
    ∀ u, (L.rounds (building (c.filtered c.kind.put m))).Reaches t u →
      ∀ s x, L.take u.1 u.2 = (s, .vars [.word x]) →
        ∀ w', c.test m x s.1 = (.ok true, w') → c.kind.SameInsert rd m x w' := by
  rw [Rounds.same_iff]
  refine forall₂_congr fun u _ => ?_
  rw [round_building_iff]
  refine forall₃_congr fun s x _ => ?_
  rw [inserted_filtered_iff]
  exact forall₂_congr fun w' _ => inserted_iff s.2 w'

end Agreement

/-! ## A string -/

/-- A world in which there is one object, a string of two characters. -/
def oneString : Runtime Unit Empty where
  load _ ptr := if ptr = 16 then some (.string 2) else none
  load_null _ := rfl
  stringIndex _ i w := (w, 32 + BitVec.ofNat 64 i)
  resume _ w := (w, .ok none)
  iter _ ptr w := (w, .ok ptr)
  next _ _ w := (w, .ok sentinel)

/-- The string, as a literal. -/
def theString : Accepted oneString () :=
  ⟨⟨16, some (.string 2), fun _ ho => Option.mem_some.mp ho ▸ rfl⟩, ⟨none, true, .ptr⟩, ⟨rfl, rfl, rfl⟩⟩

/-- `[c for c in "ab"]`. -/
def characters : Comprehension Unit Empty := ⟨"c".toList, none, .list fun _ x => pure x⟩

end Visuall.Codegen.Comprehensions
