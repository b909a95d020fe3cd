import Visuall.Codegen.Values
import Visuall.Lib.Effect

/-!
# The arguments of calls

How `codegenCallExpr` of `src/codegen.cpp` binds the arguments of a call.  Functions, instances of generic functions
and constructors are called by a name, methods through the class of the object, static methods and functions of
modules by a mangled name, closures through the pair of pointers in a variable.

An argument has been evaluated: it is a value of the language and the LLVM value that its code came to, and the list
behind a `*` has its elements.  A call whose types are not those of the callee is found by the verifier of LLVM; the
functions of a module are declared without their parameters, so there it is not found.

* `Datum`, `Operand`, `Arg`, `Signature` — values, arguments and parameters;
* `convert`, `receive` — what the parameters are meant to receive;
* `emit` — what they do receive;
* `reaches_iff` — exactly when the two are the same.
-/

namespace Visuall.Codegen.Arguments

open Effect

/-! ## Arguments and parameters -/

/-- A value of the language. -/
inductive Datum
  | int (n : Word)
  | bool (b : Bool)
  | float (bits : Word)
  | pointer (p : Word)
  | closure (bits : BitVec 128)
  deriving DecidableEq

namespace Datum

/-- The LLVM value that it is. -/
def natural : Datum → Value
  | .int n => ⟨.i64, n⟩
  | .bool b => ⟨.int 1, BitVec.ofBool b⟩
  | .float bits => ⟨.double, bits⟩
  | .pointer p => ⟨.ptr, p⟩
  | .closure bits => ⟨.closure, bits⟩

/-- The word that lists and fields keep it in. -/
def word (d : Datum) : Option Word := coerceToI64 d.natural

end Datum

/-- A positional argument: its code comes to the value itself or, out of a list, a field or a variable without a type,
to its word. -/
structure Operand where
  datum : Datum
  held : Value
  isHeld : held = datum.natural ∨ ∃ w, datum.word = some w ∧ held = ⟨.i64, w⟩

/-- An element of a list. -/
structure Elem where
  datum : Datum
  word : Word
  isWord : datum.word = some word

/-- An argument.  The list behind a `*` is held as a pointer or, `untyped`, as a word. -/
inductive Arg
  | positional (o : Operand)
  | spread (list : Word) (untyped : Bool) (elems : List Elem)

namespace Arg

/-- The values that it gives. -/
def data : Arg → List Datum
  | .positional o => [o.datum]
  | .spread _ _ elems => elems.map Elem.datum

/-- `codegenExpr`: that of a spread expression is that of the list. -/
def held : Arg → Value
  | .positional o => o.held
  | .spread list untyped _ => if untyped then ⟨.i64, list⟩ else ⟨.ptr, list⟩

end Arg

/-- What the annotation of a parameter is to `getLLVMType`; every annotation that it does not know is as good as none. -/
inductive ParamType
  | int
  | float
  | bool
  | pointer
  | closure
  | untyped
  deriving DecidableEq

def ParamType.llvm : ParamType → LTy
  | .int | .untyped => .i64
  | .float => .double
  | .bool => .int 1
  | .pointer => .ptr
  | .closure => .closure

/-- The expression of a default: its value, and what its code comes to in the caller, where a name in it may be unknown
or stand for something else. -/
structure Default where
  datum : Datum
  emitted : Option Value

structure Param where
  type : ParamType
  default : Option Default

/-- The parameters of a callee: the plain ones, and the annotated types of `*args` and `**kwargs`. -/
structure Signature where
  plain : List Param
  rest : Option LTy
  kwargs : Option LTy

/-! ## What the parameters are meant to receive -/

/-- What a parameter receives: a value, or a new list. -/
inductive Received
  | value (v : Value)
  | list (ws : List Word)
  deriving DecidableEq

def Received.type : Received → LTy
  | .value v => v.type
  | .list _ => .ptr

def null : Value := ⟨.ptr, 0⟩

section Meaning

variable (sitofp : Word → Word)

/-- A value as one of the type of a parameter; there is none where it is not accepted. -/
def convert : ParamType → Datum → Option Value
  | .int, .int n => some ⟨.i64, n⟩
  | .int, .bool b => some ⟨.i64, (BitVec.ofBool b).zeroExtend 64⟩
  | .float, .float bits => some ⟨.double, bits⟩
  | .float, .int n => some ⟨.double, sitofp n⟩
  | .float, .bool b => some ⟨.double, sitofp ((BitVec.ofBool b).zeroExtend 64)⟩
  | .bool, .bool b => some ⟨.int 1, BitVec.ofBool b⟩
  | .pointer, .pointer p => some ⟨.ptr, p⟩
  | .closure, .closure bits => some ⟨.closure, bits⟩
  | .untyped, .bool b => some ⟨.i64, (BitVec.ofBool b).zeroExtend 64⟩
  | .untyped, d => d.word.map fun w => ⟨.i64, w⟩
  | _, _ => none

/-- The plain parameters: one value after another, and then the defaults. -/
def receivePlain : List Param → List Datum → Option (List Value)
  | [], _ => some []
  | p :: ps, d :: data => do return (← convert sitofp p.type d) :: (← receivePlain ps data)
  | p :: ps, [] => do
    let d ← p.default
    return (← convert sitofp p.type d.datum) :: (← receivePlain ps [])

/-- `*args` takes the surplus; without it there must be none. -/
def receiveRest (rest : Option LTy) (surplus : List Datum) : Option (List Received) :=
  match rest with
  | some _ => surplus.mapM Datum.word >>= fun ws => some [.list ws]
  | none => if surplus = [] then some [] else none

/-- What the parameters are to receive, if the arguments are accepted. -/
def receive (sig : Signature) (data : List Datum) : Option (List Received) := do
  let plain ← receivePlain sitofp sig.plain data
  let rest ← receiveRest sig.rest (data.drop sig.plain.length)
  return plain.map .value ++ rest ++ sig.kwargs.toList.map fun _ => .value null

end Meaning

/-! ## What is emitted -/

/-- Why the parameters do not receive anything: an error of the code generator, a module that is not well formed, the
end of the program, or a call that is undefined. -/
inductive Fault
  | codegenError
  | invalidModule
  | indexError
  | undefined
  deriving DecidableEq

section Emission

variable (sitofp : Word → Word)

/-- `promoteToDouble`. -/
def promoteToDouble : Value → Value
  | ⟨.i64, n⟩ => ⟨.double, sitofp n⟩
  | ⟨.int width, bits⟩ =>
    ⟨.double, sitofp (if width = 1 then BitVec.zeroExtend 64 (w := width) bits
      else BitVec.signExtend 64 (w := width) bits)⟩
  | v => v

/-- The coercion of an argument to the type of the parameter. -/
def coerceArg : LTy → Value → Value
  | .double, v => promoteToDouble sitofp v
  | .i64, ⟨.int width, bits⟩ =>
    if width = 1 then ⟨.i64, BitVec.zeroExtend 64 (w := width) bits⟩ else ⟨.int width, bits⟩
  | .i64, ⟨.ptr, p⟩ => ⟨.i64, p⟩
  | _, v => v

/-- The coercion of an element of a spread list. -/
def coerceElem : LTy → Word → Value
  | .double, w => ⟨.double, sitofp w⟩
  | _, w => ⟨.i64, w⟩

/-- The coercion at an index; there is none behind the last parameter. -/
def coerceAt (paramTypes : List LTy) (i : ℕ) (v : Value) : Value := (paramTypes[i]?).elim v (coerceArg sitofp · v)

def coerceElemAt (paramTypes : List LTy) (i : ℕ) (w : Word) : Value :=
  (paramTypes[i]?).elim ⟨.i64, w⟩ (coerceElem sitofp · w)

/-- The types of the parameters, in their order. -/
def Signature.types (sig : Signature) : List LTy :=
  sig.plain.map (·.type.llvm) ++ sig.rest.toList ++ sig.kwargs.toList

/-- The signature of a function: `*args` and `**kwargs` are pointers, whatever they are annotated with. -/
def Signature.pointers (sig : Signature) : Signature where
  plain := sig.plain
  rest := sig.rest.map fun _ => .ptr
  kwargs := sig.kwargs.map fun _ => .ptr

/-- What the verifier asks of a call. -/
def checkCall (types : List LTy) (received : List Received) (fault : Fault) : Except Fault (List Received) :=
  if received.map Received.type = types then .ok received else .error fault

/-- `__visuall_list_get`. -/
def listGet (elems : List Elem) (index : ℕ) : Except Fault Word :=
  (elems[index]?).elim (.error .indexError) fun e => .ok e.word

/-- A parameter, as the loop that fills in the defaults looks at it. -/
inductive Fill
  | plain (p : Param)
  | rest
  | kwargs

/-- A callee that is called by its name: its parameters with their types, whether it is a function, for
`variadicFuncs_`, and whether its definition is in `funcDefMap_` or `classInitParamsMap_`. -/
structure Target where
  sig : Signature
  isFunction : Bool
  known : Bool

namespace Target

variable (t : Target)

/-- `variadicFuncs_`: the last parameter is `*args`. -/
def isVariadic : Bool := t.isFunction && t.sig.rest.isSome && t.sig.kwargs.isNone

/-- The parameters of the definition. -/
def fills : List Fill :=
  t.sig.plain.map .plain ++ t.sig.rest.toList.map (fun _ => .rest) ++ t.sig.kwargs.toList.map fun _ => .kwargs

/-- The loop over the arguments.  A new list, for the spread at an index, is at an address that is not known. -/
def pushArgs (fresh : ℕ → Word) : List Arg → ℕ → List Value → Except Fault (List Value)
  | [], _, args => .ok args
  | .positional o :: rest, paramIdx, args =>
    pushArgs fresh rest (paramIdx + 1) (args ++ [coerceAt sitofp t.sig.types paramIdx o.held])
  | .spread _ _ elems :: rest, paramIdx, args =>
    if t.isVariadic then pushArgs fresh rest (paramIdx + 1) (args ++ [⟨.i64, fresh paramIdx⟩])
    else do
      let filled ← (List.range (t.sig.types.length - args.length)).mapM fun si =>
        (listGet elems si).map (coerceElemAt sitofp t.sig.types (args.length + si))
      pushArgs fresh rest (paramIdx + 1) (args ++ filled)

/-- The loop that fills in defaults; that for a constructor does not know of `*args`, which has none. -/
def fillDefaults : List Fill → Except Fault (List Value)
  | [] => .ok []
  | .rest :: _ => if t.isFunction then .ok [] else .error .codegenError
  | .kwargs :: _ => .ok [null]
  | .plain p :: fills =>
    match p.default.bind Default.emitted with
    | none => .error .codegenError
    | some v => (fillDefaults fills).map (v :: ·)

/-- What is filled in behind `pushed` arguments, where the definition is known. -/
def defaults (pushed : ℕ) : Except Fault (List Value) :=
  if t.known then t.fillDefaults (t.fills.drop pushed) else .ok []

/-- The call, its surplus arguments packed into a new list. -/
def pack (args : List Value) : Except Fault (List Received) :=
  match (args.drop (t.sig.types.length - 1)).mapM coerceToI64 with
  | none => .error .invalidModule
  | some ws =>
    checkCall t.sig.types ((args.take (t.sig.types.length - 1)).map .value ++ [.list ws]) .invalidModule

/-- A call by name. -/
def emit (fresh : ℕ → Word) (args : List Arg) : Except Fault (List Received) := do
  let pushed ← t.pushArgs sitofp fresh args 0 []
  let filled ← t.defaults pushed.length
  if t.isVariadic && t.known then t.pack (pushed ++ filled)
  else checkCall t.sig.types ((pushed ++ filled).map .value) .invalidModule

end Target

/-- The callees.  The definition of a function is `known` once its body has been reached, that of a class once `init`
has been; the escape analysis puts an object on the stack. -/
inductive Callee
  | function (sig : Signature) (known : Bool)
  | generic (sig : Signature)
  | constructor (sig : Signature) (known onStack : Bool)
  | method (sig : Signature)
  | staticMethod (sig : Signature)
  | moduleFunction (sig : Signature)
  | closure (params : ℕ)

/-- The parameters; those of a lambda have no types. -/
def Callee.formals : Callee → Signature
  | .function sig _ | .generic sig | .constructor sig _ _ | .method sig | .staticMethod sig | .moduleFunction sig => sig
  | .closure params => ⟨List.replicate params ⟨.untyped, none⟩, none, none⟩

/-- A call through a closure, whose type is that of as many words as there are arguments. -/
def closureCall (params : ℕ) (args : List Value) : Except Fault (List Received) :=
  if args.all (·.type = .i64) then
    if args.length = params then .ok (args.map .value) else .error .undefined
  else .error .invalidModule

/-- What the parameters of the callee receive.  The `init` of an object on the stack is looked for under a name that
it has not got. -/
def emit (callee : Callee) (fresh : ℕ → Word) (args : List Arg) : Except Fault (List Received) :=
  match callee with
  | .function sig known => Target.emit sitofp ⟨sig.pointers, true, known⟩ fresh args
  | .generic sig => Target.emit sitofp ⟨sig, false, false⟩ fresh args
  | .constructor sig known false => Target.emit sitofp ⟨sig, false, known⟩ fresh args
  | .constructor _ _ true => if (args.mapM fun a => coerceToI64 a.held).isSome then .ok [] else .error .codegenError
  | .method sig =>
    checkCall sig.types (args.mapIdx fun i a => .value (coerceAt sitofp sig.types i a.held)) .invalidModule
  | .staticMethod sig => checkCall sig.types (args.map fun a => .value a.held) .invalidModule
  | .moduleFunction sig => checkCall sig.pointers.types (args.map fun a => .value a.held) .undefined
  | .closure params => closureCall params (args.map Arg.held)

end Emission

/-! ## What is received -/

section Facts

variable {sitofp : Word → Word} {sig : Signature} {data : List Datum} {received : List Received}

theorem convert_type {ty : ParamType} {d : Datum} {v : Value} (h : convert sitofp ty d = some v) :
    v.type = ty.llvm := by
  cases ty <;> cases d <;> cases h <;> rfl

theorem receivePlain_types {ps : List Param} {vs : List Value} (h : receivePlain sitofp ps data = some vs) :
    vs.map Value.type = ps.map (·.type.llvm) := by
  induction ps generalizing data vs with
  | nil =>
    cases h
    rfl
  | cons p ps ih =>
    cases data with
    | nil =>
      simp only [receivePlain, Option.bind_eq_bind, Option.bind_eq_some_iff, Option.pure_def, Option.some.injEq] at h
      obtain ⟨d, -, v, hv, vs', hvs, rfl⟩ := h
      rw [List.map_cons, List.map_cons, convert_type hv, ih hvs]
    | cons d data =>
      simp only [receivePlain, Option.bind_eq_bind, Option.bind_eq_some_iff, Option.pure_def, Option.some.injEq] at h
      obtain ⟨v, hv, vs', hvs, rfl⟩ := h
      rw [List.map_cons, List.map_cons, convert_type hv, ih hvs]

theorem receivePlain_length {ps : List Param} {vs : List Value} (h : receivePlain sitofp ps data = some vs) :
    vs.length = ps.length := by
  have hlen := congrArg List.length (receivePlain_types h)
  rwa [List.length_map, List.length_map] at hlen

/-- The parts of what is received. -/
theorem receive_cases (h : receive sitofp sig data = some received) : ∃ plain rest,
    receivePlain sitofp sig.plain data = some plain ∧ plain.length = sig.plain.length ∧
    receiveRest sig.rest (data.drop sig.plain.length) = some rest ∧
    received = plain.map .value ++ rest ++ sig.kwargs.toList.map fun _ => .value null := by
  simp only [receive, Option.bind_eq_bind, Option.bind_eq_some_iff, Option.pure_def, Option.some.injEq] at h
  obtain ⟨plain, hplain, rest, hrest, rfl⟩ := h
  exact ⟨plain, rest, hplain, receivePlain_length hplain, hrest, rfl⟩

/-- Without `*args` there are no more arguments than parameters, and every parameter receives a value. -/
theorem receive_of_fixed (hfixed : sig.rest = none) (h : receive sitofp sig data = some received) : ∃ plain,
    plain.length = sig.plain.length ∧ data.length ≤ sig.plain.length ∧
    plain.map Value.type = sig.plain.map (·.type.llvm) ∧
    received = (plain ++ sig.kwargs.toList.map fun _ => null).map .value := by
  obtain ⟨plain, rest, hplain, hlen, hrest, rfl⟩ := receive_cases h
  rw [hfixed, receiveRest] at hrest
  split at hrest
  · rename_i hsurplus
    cases hrest
    refine ⟨plain, hlen, List.drop_eq_nil_iff.mp hsurplus, receivePlain_types hplain, ?_⟩
    rw [List.append_nil, List.map_append, List.map_map]
    rfl
  · cases hrest

/-- With `*args` there is a list among what is received. -/
theorem exists_list_of_rest (hrest : sig.rest ≠ none) (h : receive sitofp sig data = some received) :
    ∃ ws, Received.list ws ∈ received := by
  obtain ⟨plain, rest, -, -, hr, rfl⟩ := receive_cases h
  obtain ⟨ty, hty⟩ := Option.ne_none_iff_exists'.mp hrest
  rw [hty, receiveRest, Option.bind_eq_bind, Option.bind_eq_some_iff] at hr
  obtain ⟨ws, -, hws⟩ := hr
  cases hws
  exact ⟨ws, by simp⟩

/-- Values alone are received where there is no `*args`. -/
theorem rest_eq_none_of_values {vs : List Value} (h : receive sitofp sig data = some received)
    (hvs : received = vs.map .value) : sig.rest = none := by
  by_contra hrest
  obtain ⟨ws, hws⟩ := exists_list_of_rest hrest h
  rw [hvs, List.mem_map] at hws
  obtain ⟨v, -, hv⟩ := hws
  cases hv

/-- What is received has the types of the parameters, if `**kwargs` is a pointer. -/
theorem types_of_fixed (hfixed : sig.rest = none) (h : receive sitofp sig data = some received) :
    received.map Received.type = sig.types ↔ ∀ ty, sig.kwargs = some ty → ty = .ptr := by
  obtain ⟨plain, -, -, htypes, rfl⟩ := receive_of_fixed hfixed h
  have hvalues : ((plain ++ sig.kwargs.toList.map fun _ => null).map Received.value).map Received.type =
      plain.map Value.type ++ sig.kwargs.toList.map fun _ => LTy.ptr := by
    simp [Function.comp_def, Received.type, null]
  rw [hvalues, htypes, Signature.types, hfixed, Option.toList_none, List.append_nil, List.append_cancel_left_eq]
  cases sig.kwargs with
  | none => simp
  | some ty => simp [eq_comm]

end Facts

/-! ## What is pushed -/

/-- The positional arguments in front of the first spread, and the elements of that. -/
def leading : List Arg → List Operand × Option (List Elem)
  | [] => ([], none)
  | .positional o :: args => (o :: (leading args).1, (leading args).2)
  | .spread _ _ elems :: _ => ([], some elems)

theorem eq_of_leading_none {args : List Arg} (h : (leading args).2 = none) :
    args = (leading args).1.map .positional := by
  induction args with
  | nil => rfl
  | cons a args ih =>
    cases a with
    | positional o => exact congrArg (Arg.positional o :: ·) (ih h)
    | spread list untyped elems => cases h

theorem eq_of_leading_some {args : List Arg} {elems : List Elem} (h : (leading args).2 = some elems) :
    ∃ list untyped tail, args = (leading args).1.map .positional ++ .spread list untyped elems :: tail := by
  induction args with
  | nil => cases h
  | cons a args ih =>
    cases a with
    | positional o =>
      obtain ⟨list, untyped, tail, htail⟩ := ih h
      exact ⟨list, untyped, tail, congrArg (Arg.positional o :: ·) htail⟩
    | spread list untyped elems' =>
      cases h
      exact ⟨list, untyped, args, rfl⟩

theorem data_positional (lead : List Operand) : (lead.map Arg.positional).flatMap Arg.data = lead.map Operand.datum := by
  induction lead with
  | nil => rfl
  | cons o lead ih => exact congrArg (o.datum :: ·) ih

namespace Target

variable (sitofp : Word → Word) (t : Target) (fresh : ℕ → Word)

/-- What the positional arguments in front are coerced to. -/
def coerced (lead : List Operand) : List Value := lead.mapIdx fun i o => coerceAt sitofp t.sig.types i o.held

/-- What is read from the list for the parameters from an index on. -/
def elements (i : ℕ) (elems : List Elem) : List Value :=
  elems.mapIdx fun si e => coerceElemAt sitofp t.sig.types (i + si) e.word

variable {sitofp} {t} {fresh}

theorem pushArgs_lead (lead : List Operand) (rest : List Arg) (i : ℕ) (args : List Value) :
    t.pushArgs sitofp fresh (lead.map .positional ++ rest) i args =
      t.pushArgs sitofp fresh rest (i + lead.length)
        (args ++ lead.mapIdx fun j o => coerceAt sitofp t.sig.types (i + j) o.held) := by
  induction lead generalizing i args with
  | nil =>
    rw [List.mapIdx_nil, List.append_nil]
    rfl
  | cons o lead ih =>
    rw [List.map_cons, List.cons_append, pushArgs, ih, List.mapIdx_cons, List.append_assoc, List.length_cons,
      Nat.add_right_comm, Nat.add_assoc]
    simp only [Nat.add_zero, List.singleton_append, Nat.add_assoc, Nat.add_comm 1]

/-- Without a spread, every argument is coerced. -/
theorem pushArgs_positional (lead : List Operand) :
    t.pushArgs sitofp fresh (lead.map .positional) 0 [] = .ok (t.coerced sitofp lead) := by
  have hlead := @pushArgs_lead sitofp t fresh lead [] 0 []
  rw [List.append_nil, List.nil_append] at hlead
  rw [hlead, pushArgs, coerced]
  simp only [Nat.zero_add]

/-- **The elements of a spread list**: as many as there are parameters left are read, all of which must exist. -/
theorem readElems_iff {f : ℕ → Word → Value} {elems : List Elem} {r : ℕ} {vs : List Value} :
    (List.range r).mapM (fun si => (listGet elems si).map (f si)) = .ok vs ↔
      r ≤ elems.length ∧ vs = (elems.take r).mapIdx fun si e => f si e.word := by
  constructor
  · intro h
    have hall := forall₂_of_mapM h
    obtain ⟨hlen, hget⟩ := List.forall₂_iff_get.mp hall
    rw [List.length_range] at hlen
    have hread : ∀ si (hsi : si < r), ∃ e, elems[si]? = some e ∧ vs[si]? = some (f si e.word) := by
      intro si hsi
      have hr := hget si (by rwa [List.length_range]) (by omega)
      simp only [List.get_eq_getElem, List.getElem_range, listGet] at hr
      cases he : elems[si]? with
      | none =>
        rw [he] at hr
        cases hr
      | some e =>
        rw [he] at hr
        refine ⟨e, rfl, ?_⟩
        rw [List.getElem?_eq_getElem (by omega)]
        exact congrArg some (Except.ok.inj hr).symm
    have hle : r ≤ elems.length := by
      by_contra hlt
      obtain ⟨e, he, -⟩ := hread elems.length (by omega)
      rw [List.getElem?_eq_none (Nat.le_refl _)] at he
      cases he
    refine ⟨hle, List.ext_getElem? fun si => ?_⟩
    by_cases hsi : si < r
    · obtain ⟨e, he, hv⟩ := hread si hsi
      rw [hv, List.getElem?_mapIdx, List.getElem?_take_of_lt hsi, he]
      rfl
    · rw [List.getElem?_eq_none (by omega), List.getElem?_eq_none]
      rw [List.length_mapIdx, List.length_take]
      omega
  · rintro ⟨hle, rfl⟩
    refine mapM_of_forall₂ (List.forall₂_iff_get.mpr ⟨?_, fun si h₁ h₂ => ?_⟩)
    · rw [List.length_range, List.length_mapIdx, List.length_take, Nat.min_eq_left hle]
    · rw [List.length_range] at h₁
      simp only [List.get_eq_getElem, List.getElem_range, List.getElem_mapIdx, List.getElem_take, listGet]
      rw [List.getElem?_eq_getElem (by omega)]
      rfl

/-- Once there is something for every parameter, spreads push nothing, and the rest only pushes more. -/
theorem pushArgs_full (hfixed : t.isVariadic = false) (rest : List Arg) (i : ℕ) {args : List Value}
    (hfull : t.sig.types.length ≤ args.length) :
    ∃ extra, t.pushArgs sitofp fresh rest i args = .ok (args ++ extra) ∧
      (rest.flatMap Arg.data = [] → extra = []) := by
  induction rest generalizing i args with
  | nil => exact ⟨[], by rw [List.append_nil]; rfl, fun _ => rfl⟩
  | cons a rest ih =>
    cases a with
    | positional o =>
      have hstill : t.sig.types.length ≤ (args ++ [coerceAt sitofp t.sig.types i o.held]).length := by
        rw [List.length_append]
        omega
      obtain ⟨extra, hextra, -⟩ := ih (i + 1) hstill
      refine ⟨coerceAt sitofp t.sig.types i o.held :: extra, ?_, ?_⟩
      · rw [pushArgs, hextra, List.append_assoc]
        rfl
      · intro h
        cases h
    | spread list untyped elems =>
      obtain ⟨extra, hextra, hnil⟩ := ih (i + 1) hfull
      refine ⟨extra, ?_, fun h => hnil (List.append_eq_nil_iff.mp h).2⟩
      have hnone : t.sig.types.length - args.length = 0 := Nat.sub_eq_zero_of_le hfull
      rw [pushArgs, if_neg (by rw [hfixed]; nofun), hnone, List.range_zero, List.mapM_nil]
      show t.pushArgs sitofp fresh rest (i + 1) (args ++ []) = _
      rw [List.append_nil, hextra]

/-- What a call with `*args` pushes for an argument. -/
def pushed (sitofp : Word → Word) (t : Target) (fresh : ℕ → Word) (i : ℕ) : Arg → Value
  | .positional o => coerceAt sitofp t.sig.types i o.held
  | .spread _ _ _ => ⟨.i64, fresh i⟩

theorem pushArgs_variadic (hvariadic : t.isVariadic = true) (rest : List Arg) (i : ℕ) (args : List Value) :
    t.pushArgs sitofp fresh rest i args = .ok (args ++ rest.mapIdx fun j a => pushed sitofp t fresh (i + j) a) := by
  induction rest generalizing i args with
  | nil =>
    rw [List.mapIdx_nil, List.append_nil]
    rfl
  | cons a rest ih =>
    have hstep : t.pushArgs sitofp fresh (a :: rest) i args =
        t.pushArgs sitofp fresh rest (i + 1) (args ++ [pushed sitofp t fresh i a]) := by
      cases a with
      | positional o => rfl
      | spread list untyped elems =>
        rw [pushArgs, if_pos hvariadic]
        rfl
    rw [hstep, ih, List.mapIdx_cons, List.append_assoc]
    simp only [Nat.add_zero, List.singleton_append, Nat.add_assoc, Nat.add_comm 1]

/-- The default of a parameter, as it is emitted in the caller. -/
def Filled (p : Param) (v : Value) : Prop := p.default.bind Default.emitted = some v

/-- The defaults of plain parameters, and what comes behind them. -/
theorem fillDefaults_plain {ps : List Param} {fills : List Fill} {vs : List Value} :
    t.fillDefaults (ps.map .plain ++ fills) = .ok vs ↔
      ∃ ds more, List.Forall₂ Filled ps ds ∧ t.fillDefaults fills = .ok more ∧ vs = ds ++ more := by
  induction ps generalizing vs with
  | nil =>
    constructor
    · intro h
      exact ⟨[], vs, .nil, h, rfl⟩
    · rintro ⟨ds, more, hds, hmore, rfl⟩
      cases hds
      exact hmore
  | cons p ps ih =>
    rw [List.map_cons, List.cons_append, fillDefaults]
    constructor
    · intro h
      cases hp : p.default.bind Default.emitted with
      | none =>
        rw [hp] at h
        cases h
      | some v =>
        rw [hp] at h
        cases hrest : t.fillDefaults (ps.map .plain ++ fills) with
        | error e =>
          simp only [hrest] at h
          cases h
        | ok vs' =>
          simp only [hrest] at h
          cases h
          obtain ⟨ds, more, hds, hmore, rfl⟩ := ih.mp hrest
          exact ⟨v :: ds, more, .cons hp hds, hmore, rfl⟩
    · rintro ⟨_, more, hds, hmore, rfl⟩
      cases hds with
      | cons hp hds =>
        rw [hp, ih.mpr ⟨_, more, hds, hmore, rfl⟩]
        rfl

/-- Without `*args`, the null pointer stands for `**kwargs`. -/
theorem fillDefaults_fixed (hfixed : t.sig.rest = none) {k : ℕ} (hk : k ≤ t.sig.plain.length) {vs : List Value} :
    t.fillDefaults (t.fills.drop k) = .ok vs ↔
      ∃ ds, List.Forall₂ Filled (t.sig.plain.drop k) ds ∧ vs = ds ++ t.sig.kwargs.toList.map fun _ => null := by
  have hfills : t.fills.drop k = (t.sig.plain.drop k).map .plain ++ t.sig.kwargs.toList.map fun _ => .kwargs := by
    rw [fills, hfixed, Option.toList_none, List.map_nil, List.append_nil,
      List.drop_append_of_le_length (by rwa [List.length_map]), List.map_drop]
  have htail : t.fillDefaults (t.sig.kwargs.toList.map fun _ => .kwargs) =
      .ok (t.sig.kwargs.toList.map fun _ => null) := by
    cases t.sig.kwargs <;> rfl
  rw [hfills, fillDefaults_plain, htail]
  constructor
  · rintro ⟨ds, more, hds, hmore, rfl⟩
    cases hmore
    exact ⟨ds, hds, rfl⟩
  · rintro ⟨ds, hds, rfl⟩
    exact ⟨ds, _, hds, rfl, rfl⟩

/-- With `*args`, the surplus is all that comes behind the plain parameters. -/
theorem fillDefaults_variadic (hvariadic : t.isVariadic = true) {k : ℕ} {vs : List Value} :
    t.fillDefaults (t.fills.drop k) = .ok vs ↔ List.Forall₂ Filled (t.sig.plain.drop k) vs := by
  obtain ⟨⟨hfunction, hrest⟩, hkwargs⟩ : (t.isFunction = true ∧ t.sig.rest.isSome = true) ∧
      t.sig.kwargs.isNone = true := by
    simpa only [isVariadic, Bool.and_eq_true] using hvariadic
  obtain ⟨ty, hty⟩ := Option.isSome_iff_exists.mp hrest
  have hfills : t.fills = t.sig.plain.map .plain ++ [.rest] := by
    rw [fills, hty, Option.isNone_iff_eq_none.mp hkwargs]
    exact List.append_nil _
  have hdrop : ∃ tail, t.fills.drop k = (t.sig.plain.drop k).map .plain ++ tail ∧ t.fillDefaults tail = .ok [] := by
    rw [hfills]
    by_cases hk : k ≤ t.sig.plain.length
    · refine ⟨[.rest], ?_, by rw [fillDefaults, if_pos hfunction]⟩
      rw [List.drop_append_of_le_length (by rwa [List.length_map]), List.map_drop]
    · refine ⟨[], ?_, rfl⟩
      rw [List.drop_eq_nil_of_le (by simp; omega), List.drop_eq_nil_of_le (by omega)]
      rfl
  obtain ⟨tail, htail, hnil⟩ := hdrop
  rw [htail, fillDefaults_plain, hnil]
  constructor
  · rintro ⟨ds, more, hds, hmore, rfl⟩
    cases hmore
    rwa [List.append_nil]
  · intro hds
    exact ⟨vs, [], hds, rfl, (List.append_nil _).symm⟩

/-! ## Calls by name -/

/-- **The condition on a call by name.**  The positional arguments in front are, as they are coerced, what the plain
parameters are to receive.  The first spread list has exactly one element for each parameter behind them, without
`*args`, and each of its elements is coerced as it should be.  Without a spread, the definition is known if a parameter
is left over, and its default is in the caller what it is in the callee.  `*args` comes last, in a function whose
definition is known; `**kwargs` is a pointer. -/
structure Fits (sitofp : Word → Word) (t : Target) (received : List Received) (args : List Arg) : Prop where
  lead : ∀ i o, (leading args).1[i]? = some o → i < t.sig.plain.length →
    received[i]? = some (.value (coerceAt sitofp t.sig.types i o.held))
  spread : ∀ elems, (leading args).2 = some elems → t.sig.rest = none ∧
    (leading args).1.length + elems.length = t.sig.types.length ∧
    ∀ i e, elems[i]? = some e → received[(leading args).1.length + i]? =
      some (.value (coerceElemAt sitofp t.sig.types ((leading args).1.length + i) e.word))
  missing : (leading args).2 = none → ∀ i p, (leading args).1.length ≤ i → t.sig.plain[i]? = some p →
    t.known = true ∧ ∃ v, Filled p v ∧ received[i]? = some (.value v)
  rest : t.sig.rest ≠ none → t.isVariadic = true ∧ t.known = true
  kwargs : ∀ ty, t.sig.kwargs = some ty → t.known = true ∧ ty = .ptr ∧ (leading args).2 = none

variable {received : List Received} {args : List Arg}

/-- Without `*args`, a call by name is what is pushed with the defaults. -/
theorem emit_fixed_iff (hfixed : t.sig.rest = none)
    (haccepted : receive sitofp t.sig (args.flatMap Arg.data) = some received) :
    t.emit sitofp fresh args = .ok received ↔ ∃ vs ds, t.pushArgs sitofp fresh args 0 [] = .ok vs ∧
      t.defaults vs.length = .ok ds ∧
      received = (vs ++ ds).map .value ∧ ∀ ty, t.sig.kwargs = some ty → ty = .ptr := by
  have hvariadic : t.isVariadic = false := by rw [isVariadic, hfixed, Option.isSome_none, Bool.and_false, Bool.false_and]
  have hcheck : ∀ vs : List Value, checkCall t.sig.types (vs.map .value) .invalidModule = .ok received ↔
      received = vs.map .value ∧ ∀ ty, t.sig.kwargs = some ty → ty = .ptr := by
    intro vs
    rw [checkCall]
    constructor
    · intro h
      split at h
      · rename_i htypes
        cases h
        exact ⟨rfl, (types_of_fixed hfixed haccepted).mp htypes⟩
      · cases h
    · rintro ⟨hvs, hkwargs⟩
      rw [← hvs, if_pos ((types_of_fixed hfixed haccepted).mpr hkwargs)]
  unfold emit
  simp only [hvariadic, Bool.false_and, Bool.false_eq_true, if_false]
  constructor
  · intro h
    obtain ⟨vs, hvs, h⟩ := ok_of_bind h
    obtain ⟨ds, hds, h⟩ := ok_of_bind h
    exact ⟨vs, ds, hvs, hds, (hcheck _).mp h⟩
  · rintro ⟨vs, ds, hvs, hds, h⟩
    rw [hvs, ok_bind, hds, ok_bind]
    exact (hcheck _).mpr h

/-- Values that are all received are those of the plain parameters and the null pointer. -/
theorem received_values {vs plain : List Value} (h : (plain ++ t.sig.kwargs.toList.map fun _ => null).map .value =
    vs.map Received.value) : vs = plain ++ t.sig.kwargs.toList.map fun _ => null :=
  ((List.map_injective_iff.mpr fun _ _ => Received.value.inj) h).symm

theorem length_coerced (lead : List Operand) : (t.coerced sitofp lead).length = lead.length := List.length_mapIdx

theorem length_types (hfixed : t.sig.rest = none) :
    t.sig.types.length = t.sig.plain.length + t.sig.kwargs.toList.length := by
  rw [Signature.types, hfixed, Option.toList_none, List.append_nil, List.length_append, List.length_map]

section Plain

variable {plain : List Value} {more : List Received} {k : ℕ}

theorem getElem?_received {i : ℕ} (hi : i < plain.length) {v : Value} :
    (plain.map .value ++ more)[i]? = some (.value v) ↔ plain[i]? = some v := by
  rw [List.getElem?_append_left (by rwa [List.length_map]), List.getElem?_map, Option.map_eq_some_iff]
  simp

/-- The arguments in front are what the first parameters are to receive. -/
theorem lead_iff (hplain : plain.length = t.sig.plain.length) (lead : List Operand) :
    (t.coerced sitofp lead).take t.sig.plain.length = plain.take lead.length ↔
      ∀ i o, lead[i]? = some o → i < t.sig.plain.length →
        (plain.map .value ++ more)[i]? = some (.value (coerceAt sitofp t.sig.types i o.held)) := by
  constructor
  · intro h i o ho hi
    have hlt := (List.getElem?_eq_some_iff.mp ho).1
    rw [getElem?_received (hplain ▸ hi), ← List.getElem?_take_of_lt hlt, ← h, List.getElem?_take_of_lt hi, coerced,
      List.getElem?_mapIdx, ho]
    rfl
  · intro h
    refine List.ext_getElem? fun i => ?_
    by_cases hi : i < t.sig.plain.length ∧ i < lead.length
    · have hvalue := h i _ (List.getElem?_eq_getElem hi.2) hi.1
      rw [getElem?_received (hplain ▸ hi.1)] at hvalue
      rw [List.getElem?_take_of_lt hi.1, List.getElem?_take_of_lt hi.2, hvalue, coerced, List.getElem?_mapIdx,
        List.getElem?_eq_getElem hi.2]
      rfl
    · rw [List.getElem?_eq_none (by rw [List.length_take, length_coerced]; omega),
        List.getElem?_eq_none (by rw [List.length_take]; omega)]

/-- The defaults are what the parameters behind are to receive. -/
theorem missing_iff (hplain : plain.length = t.sig.plain.length) :
    List.Forall₂ Filled (t.sig.plain.drop k) (plain.drop k) ↔ ∀ i p, k ≤ i → t.sig.plain[i]? = some p →
      ∃ v, Filled p v ∧ (plain.map .value ++ more)[i]? = some (.value v) := by
  rw [List.forall₂_iff_get]
  constructor
  · rintro ⟨-, hget⟩ i p hi hp
    obtain ⟨hlt, rfl⟩ := List.getElem?_eq_some_iff.mp hp
    have hfilled := hget (i - k) (by rw [List.length_drop]; omega) (by rw [List.length_drop]; omega)
    simp only [List.get_eq_getElem, List.getElem_drop, Nat.add_sub_cancel' hi] at hfilled
    exact ⟨_, hfilled, (getElem?_received (by omega)).mpr (List.getElem?_eq_getElem _)⟩
  · intro h
    refine ⟨by rw [List.length_drop, List.length_drop, hplain], fun i h₁ h₂ => ?_⟩
    rw [List.length_drop] at h₁ h₂
    obtain ⟨v, hv, hvalue⟩ := h (k + i) _ (Nat.le_add_right _ _) (List.getElem?_eq_getElem (by omega))
    rw [getElem?_received (by omega), List.getElem?_eq_getElem (by omega)] at hvalue
    cases hvalue
    simpa only [List.get_eq_getElem, List.getElem_drop] using hv

/-- The elements of a spread list are what the parameters behind are to receive. -/
theorem elements_iff {elems : List Elem} (hlen : k + elems.length = plain.length) :
    t.elements sitofp k elems = plain.drop k ↔ ∀ i e, elems[i]? = some e →
      (plain.map .value ++ more)[k + i]? = some (.value (coerceElemAt sitofp t.sig.types (k + i) e.word)) := by
  rw [elements, List.mapIdx_eq_iff]
  constructor
  · intro h i e he
    have hlt := (List.getElem?_eq_some_iff.mp he).1
    rw [getElem?_received (by omega), ← List.getElem?_drop, h, he]
    rfl
  · intro h i
    rw [List.getElem?_drop]
    by_cases hi : i < elems.length
    · rw [(getElem?_received (by omega)).mp (h i _ (List.getElem?_eq_getElem hi)), List.getElem?_eq_getElem hi]
      rfl
    · rw [List.getElem?_eq_none (by omega), List.getElem?_eq_none (by omega)]
      rfl

/-- What is filled in without `*args`. -/
theorem defaults_iff (hfixed : t.sig.rest = none) (hplain : plain.length = t.sig.plain.length)
    (hk : k ≤ t.sig.plain.length) : t.defaults k = .ok (plain.drop k ++ t.sig.kwargs.toList.map fun _ => null) ↔
      List.Forall₂ Filled (t.sig.plain.drop k) (plain.drop k) ∧
        (k < t.sig.plain.length ∨ t.sig.kwargs ≠ none → t.known = true) := by
  rw [defaults]
  by_cases hknown : t.known = true
  · rw [if_pos hknown, fillDefaults_fixed hfixed hk]
    constructor
    · rintro ⟨ds, hds, heq⟩
      rw [List.append_cancel_right heq]
      exact ⟨hds, fun _ => hknown⟩
    · exact fun h => ⟨_, h.1, rfl⟩
  · rw [if_neg hknown]
    constructor
    · intro h
      obtain ⟨hdrop, hkw⟩ := List.append_eq_nil_iff.mp (Except.ok.inj h).symm
      have hle := List.drop_eq_nil_iff.mp hdrop
      have hnone : t.sig.kwargs = none := by
        cases hk : t.sig.kwargs with
        | none => rfl
        | some ty => simp [hk] at hkw
      rw [hdrop, List.drop_eq_nil_of_le (by omega)]
      exact ⟨.nil, fun h => h.elim (fun hlt => by omega) fun hne => absurd hnone hne⟩
    · rintro ⟨-, h⟩
      have hle : t.sig.plain.length ≤ k := not_lt.mp fun hlt => hknown (h (.inl hlt))
      have hnone : t.sig.kwargs = none := by_contra fun hne => hknown (h (.inr hne))
      rw [hnone, List.drop_eq_nil_of_le (by omega)]
      rfl

end Plain

/-- **Without a spread and without `*args`.** -/
theorem emit_positional_iff (hfixed : t.sig.rest = none)
    (haccepted : receive sitofp t.sig (args.flatMap Arg.data) = some received) (hlead : (leading args).2 = none) :
    t.emit sitofp fresh args = .ok received ↔ t.Fits sitofp received args := by
  obtain ⟨plain, hplain, hdata, -, rfl⟩ := receive_of_fixed hfixed haccepted
  have hargs := eq_of_leading_none hlead
  have hcount : (leading args).1.length ≤ t.sig.plain.length := by
    rw [hargs, data_positional, List.length_map] at hdata
    exact hdata
  have hpush : t.pushArgs sitofp fresh args 0 [] = .ok (t.coerced sitofp (leading args).1) := by
    conv_lhs => rw [hargs]
    exact pushArgs_positional _
  have htake : (t.coerced sitofp (leading args).1).take t.sig.plain.length = t.coerced sitofp (leading args).1 :=
    List.take_of_length_le (by rwa [length_coerced])
  -- what is pushed is for the first parameters, and the defaults are for the others
  have hemit : t.emit sitofp fresh args = .ok ((plain ++ t.sig.kwargs.toList.map fun _ => null).map .value) ↔
      (t.coerced sitofp (leading args).1 = plain.take (leading args).1.length ∧
        t.defaults (leading args).1.length = .ok (plain.drop (leading args).1.length ++ t.sig.kwargs.toList.map fun _ => null)) ∧
      ∀ ty, t.sig.kwargs = some ty → ty = .ptr := by
    rw [emit_fixed_iff hfixed haccepted, hpush]
    constructor
    · rintro ⟨vs, ds, hvs, hds, hreceived, hptr⟩
      cases hvs
      have hall := received_values hreceived
      rw [← List.take_append_drop (leading args).1.length plain, List.append_assoc] at hall
      obtain ⟨hfront, rfl⟩ := List.append_inj hall (by rw [length_coerced, List.length_take]; omega)
      rw [length_coerced] at hds
      exact ⟨⟨hfront, hds⟩, hptr⟩
    · rintro ⟨⟨hfront, hds⟩, hptr⟩
      refine ⟨_, _, rfl, by rwa [length_coerced], ?_, hptr⟩
      rw [hfront, ← List.append_assoc, List.take_append_drop]
  rw [hemit, defaults_iff hfixed hplain hcount, ← htake, List.map_append]
  constructor
  · rintro ⟨⟨hfront, hfilled, hknown⟩, hptr⟩
    refine ⟨(lead_iff hplain _).mp hfront, fun elems he => ?_, fun _ i p hi hp => ?_, fun h => absurd hfixed h,
      fun ty hty => ?_⟩
    · cases hlead.symm.trans he
    · have hlt := (List.getElem?_eq_some_iff.mp hp).1
      exact ⟨hknown (.inl (by omega)), (missing_iff hplain).mp hfilled i p hi hp⟩
    · exact ⟨hknown (.inr (by rw [hty]; nofun)), hptr ty hty, hlead⟩
  · intro h
    refine ⟨⟨(lead_iff hplain _).mpr h.lead, (missing_iff hplain).mpr fun i p hi hp => (h.missing hlead i p hi hp).2, ?_⟩,
      fun ty hty => (h.kwargs ty hty).2.1⟩
    rintro (hlt | hne)
    · exact (h.missing hlead _ _ le_rfl (List.getElem?_eq_getElem hlt)).1
    · obtain ⟨ty, hty⟩ := Option.ne_none_iff_exists'.mp hne
      exact (h.kwargs ty hty).1

/-- **With a spread and without `*args`.** -/
theorem emit_spread_iff (hfixed : t.sig.rest = none)
    (haccepted : receive sitofp t.sig (args.flatMap Arg.data) = some received) {elems : List Elem}
    (hlead : (leading args).2 = some elems) :
    t.emit sitofp fresh args = .ok received ↔ t.Fits sitofp received args := by
  obtain ⟨list, untyped, tail, hargs⟩ := eq_of_leading_some hlead
  have hvariadic : t.isVariadic = false := by rw [isVariadic, hfixed, Option.isSome_none, Bool.and_false, Bool.false_and]
  obtain ⟨plain, hplain, hdata, -, hreceived⟩ := receive_of_fixed hfixed haccepted
  have hcount : (leading args).1.length + elems.length + (tail.flatMap Arg.data).length ≤ t.sig.plain.length := by
    rw [hargs, List.flatMap_append, data_positional, List.flatMap_cons, Arg.data] at hdata
    simp only [List.length_append, List.length_map] at hdata
    omega
  have htypes := length_types hfixed
  have hspread : t.pushArgs sitofp fresh args 0 [] = (do
      let filled ← (List.range (t.sig.types.length - (leading args).1.length)).mapM fun si =>
        (listGet elems si).map (coerceElemAt sitofp t.sig.types ((leading args).1.length + si))
      t.pushArgs sitofp fresh tail ((leading args).1.length + 1) (t.coerced sitofp (leading args).1 ++ filled)) := by
    conv_lhs => rw [hargs]
    rw [pushArgs_lead, pushArgs, if_neg (by rw [hvariadic]; nofun), List.nil_append, List.length_mapIdx]
    simp only [Nat.zero_add]
    rfl
  have htail := fun (hle : t.sig.types.length - (leading args).1.length ≤ elems.length) =>
    @pushArgs_full sitofp t fresh hvariadic tail ((leading args).1.length + 1)
      (t.coerced sitofp (leading args).1 ++ t.elements sitofp (leading args).1.length
        (elems.take (t.sig.types.length - (leading args).1.length)))
      (by rw [List.length_append, length_coerced, elements, List.length_mapIdx, List.length_take]; omega)
  -- as many elements as there are parameters left, so there is no `**kwargs`
  have hnone (hsum : (leading args).1.length + elems.length = t.sig.types.length) : t.sig.kwargs = none := by
    cases hk : t.sig.kwargs with
    | none => rfl
    | some ty =>
      rw [hk, Option.toList_some, List.length_singleton] at htypes
      omega
  have hemit : t.emit sitofp fresh args = .ok received ↔ (leading args).1.length + elems.length = t.sig.types.length ∧
      t.coerced sitofp (leading args).1 = plain.take (leading args).1.length ∧
      t.elements sitofp (leading args).1.length elems = plain.drop (leading args).1.length := by
    rw [emit_fixed_iff hfixed haccepted, hspread]
    constructor
    · rintro ⟨vs, ds, hvs, -, hvalues, -⟩
      obtain ⟨filled, hfilled, hrest⟩ := ok_of_bind hvs
      obtain ⟨hle, rfl⟩ := readElems_iff.mp hfilled
      obtain ⟨extra, hextra, -⟩ := htail hle
      cases hrest.symm.trans hextra
      have hall := received_values (hreceived.symm.trans hvalues)
      -- one value for each parameter, so nothing has been pushed behind the elements
      have hlength := congrArg List.length hall
      simp only [List.length_append, length_coerced, elements, List.length_mapIdx, List.length_take, List.length_map,
        hplain] at hlength
      have hsum : (leading args).1.length + elems.length = t.sig.types.length := by omega
      rw [List.eq_nil_of_length_eq_zero (show extra.length = 0 by omega),
        List.eq_nil_of_length_eq_zero (show ds.length = 0 by omega), List.append_nil, List.append_nil,
        List.take_of_length_le (show elems.length ≤ _ by omega), hnone hsum, Option.toList_none, List.map_nil, List.append_nil,
        ← List.take_append_drop (leading args).1.length plain] at hall
      exact ⟨hsum, List.append_inj hall (by rw [length_coerced, List.length_take]; omega)⟩
    · rintro ⟨hsum, hfront, helems⟩
      have hkwargs := hnone hsum
      rw [hkwargs, Option.toList_none, List.length_nil] at htypes
      have hnodata : tail.flatMap Arg.data = [] := List.eq_nil_of_length_eq_zero (by omega)
      have hle : t.sig.types.length - (leading args).1.length ≤ elems.length := by omega
      obtain ⟨extra, hextra, hnil⟩ := htail hle
      have htake : elems.take (t.sig.types.length - (leading args).1.length) = elems := List.take_of_length_le (by omega)
      rw [hnil hnodata, List.append_nil, htake, hfront, helems, List.take_append_drop] at hextra
      refine ⟨plain, [], ?_, ?_, ?_, fun ty hty => by cases hkwargs.symm.trans hty⟩
      · rw [readElems_iff.mpr ⟨hle, rfl⟩, ok_bind, htake]
        exact (congrArg (t.pushArgs sitofp fresh tail _)
          (show _ ++ t.elements sitofp _ elems = plain by rw [hfront, helems, List.take_append_drop])).trans hextra
      · have hdefaults := (defaults_iff hfixed hplain (hplain.le)).mpr ⟨?_, ?_⟩
        · rwa [List.drop_length, hkwargs] at hdefaults
        · rw [hplain, List.drop_length, ← hplain, List.drop_length]
          exact .nil
        · rintro (hlt | hne)
          · exact absurd hlt (by omega)
          · exact absurd hkwargs hne
      · rw [hreceived, hkwargs]
        rfl
  have htake : (t.coerced sitofp (leading args).1).take t.sig.plain.length = t.coerced sitofp (leading args).1 :=
    List.take_of_length_le (by rw [length_coerced]; omega)
  rw [hemit, ← htake, lead_iff hplain]
  rw [List.map_append] at hreceived
  constructor
  · rintro ⟨hsum, hfront, helems⟩
    have hkwargs := hnone hsum
    rw [hkwargs, Option.toList_none, List.length_nil] at htypes
    refine ⟨hreceived ▸ hfront, fun elems' he => ?_, fun he => ?_, fun h => absurd hfixed h, fun ty hty => ?_⟩
    · cases hlead.symm.trans he
      exact ⟨hfixed, hsum, hreceived ▸ (elements_iff (by omega)).mp helems⟩
    · cases hlead.symm.trans he
    · cases hkwargs.symm.trans hty
  · intro h
    obtain ⟨-, hsum, helems⟩ := h.spread elems hlead
    have hkwargs := hnone hsum
    rw [hkwargs, Option.toList_none, List.length_nil] at htypes
    exact ⟨hsum, hreceived ▸ h.lead, (elements_iff (by omega)).mpr (hreceived ▸ helems)⟩

theorem length_types_of_rest {ty : LTy} (hty : t.sig.rest = some ty) (hkwargs : t.sig.kwargs = none) :
    t.sig.types = t.sig.plain.map (·.type.llvm) ++ [ty] := by
  rw [Signature.types, hty, hkwargs]
  exact List.append_nil _

/-- The call gets the values of the plain parameters and the words of the others. -/
theorem pack_iff {ty : LTy} (hty : t.sig.rest = some ty) (hptr : ty = .ptr) (hkwargs : t.sig.kwargs = none)
    {vs plain : List Value} {ws : List Word} (hplain : plain.map Value.type = t.sig.plain.map (·.type.llvm)) :
    t.pack vs = .ok (plain.map .value ++ [.list ws]) ↔
      vs.take t.sig.plain.length = plain ∧ (vs.drop t.sig.plain.length).mapM coerceToI64 = some ws := by
  have htypes := length_types_of_rest hty hkwargs
  have hfixedCount : t.sig.types.length - 1 = t.sig.plain.length := by
    rw [htypes, List.length_append, List.length_map, List.length_singleton, Nat.add_sub_cancel]
  rw [pack, hfixedCount]
  constructor
  · intro h
    split at h
    · cases h
    · rename_i ws' hws
      rw [checkCall] at h
      split at h
      · obtain ⟨htake, hlist⟩ := List.append_inj' (Except.ok.inj h) rfl
        cases hlist
        exact ⟨(List.map_injective_iff.mpr fun _ _ => Received.value.inj) htake, hws⟩
      · cases h
  · rintro ⟨htake, hws⟩
    rw [hws, htake]
    refine if_pos ?_
    rw [htypes, List.map_append, List.map_map, ← hplain, hptr]
    rfl

/-- A surplus argument is not coerced: the word that is pushed is that of the value. -/
theorem coerceToI64_surplus {ty : LTy} (hty : t.sig.rest = some ty) (hptr : ty = .ptr) (hkwargs : t.sig.kwargs = none)
    {i : ℕ} (hi : t.sig.plain.length ≤ i) (o : Operand) :
    coerceToI64 (coerceAt sitofp t.sig.types i o.held) = o.datum.word := by
  have hheld : coerceAt sitofp t.sig.types i o.held = o.held := by
    rw [coerceAt, length_types_of_rest hty hkwargs, List.getElem?_append_right (by rwa [List.length_map]), List.length_map,
      hptr]
    cases hlast : i - t.sig.plain.length with
    | zero => rfl
    | succ j => rfl
  rw [hheld]
  rcases o.isHeld with hnatural | ⟨w, hw, hword⟩
  · rw [hnatural]
    rfl
  · rw [hword, hw]
    rfl

theorem leading_none_of_positional {args : List Arg} (h : ∀ (j : ℕ) list untyped elems,
    args[j]? ≠ some (Arg.spread list untyped elems)) : (leading args).2 = none := by
  induction args with
  | nil => rfl
  | cons a args ih =>
    cases a with
    | positional o =>
      refine ih fun j list untyped elems hj => h (j + 1) list untyped elems ?_
      rwa [List.getElem?_cons_succ]
    | spread list untyped elems => exact absurd rfl (h 0 list untyped elems)

/-- A call of a known function with `*args` is what is pushed with the defaults, the surplus of it in a list. -/
theorem emit_variadic_iff (hvariadic : t.isVariadic = true) (hknown : t.known = true) {ty : LTy}
    (hty : t.sig.rest = some ty) (hptr : ty = .ptr) (hkwargs : t.sig.kwargs = none) {plain : List Value} {ws : List Word}
    (hplain : plain.map Value.type = t.sig.plain.map (·.type.llvm)) :
    t.emit sitofp fresh args = .ok (plain.map .value ++ [.list ws]) ↔
      ∃ ds, List.Forall₂ Filled (t.sig.plain.drop args.length) ds ∧
        ((args.mapIdx fun i a => pushed sitofp t fresh i a) ++ ds).take t.sig.plain.length = plain ∧
        (((args.mapIdx fun i a => pushed sitofp t fresh i a) ++ ds).drop t.sig.plain.length).mapM coerceToI64 = some ws := by
  have hpush := @pushArgs_variadic sitofp t fresh hvariadic args 0 []
  simp only [List.nil_append, Nat.zero_add] at hpush
  rw [emit, hpush, ok_bind, List.length_mapIdx, defaults, if_pos hknown, hvariadic, hknown]
  constructor
  · intro h
    obtain ⟨ds, hds, hpack⟩ := ok_of_bind h
    exact ⟨ds, (fillDefaults_variadic hvariadic).mp hds, (pack_iff hty hptr hkwargs hplain).mp hpack⟩
  · rintro ⟨ds, hds, hpack⟩
    rw [(fillDefaults_variadic hvariadic).mpr hds, ok_bind]
    exact (pack_iff hty hptr hkwargs hplain).mpr hpack

/-- The address of the list that a spread is copied to is not what is to be received, whatever it is. -/
theorem leading_none_of_pushed {plain : List Value} {ws : List Word} (h : ∀ fresh : ℕ → Word, ∃ ds,
    ((args.mapIdx fun i a => pushed sitofp t fresh i a) ++ ds).take t.sig.plain.length = plain ∧
    (((args.mapIdx fun i a => pushed sitofp t fresh i a) ++ ds).drop t.sig.plain.length).mapM coerceToI64 = some ws) :
    (leading args).2 = none := by
  refine leading_none_of_positional fun j list untyped elems hj => ?_
  have hat : ∀ fresh : ℕ → Word, j < t.sig.plain.length ∧ plain[j]? = some ⟨.i64, fresh j⟩ ∨
      t.sig.plain.length ≤ j ∧ ws[j - t.sig.plain.length]? = some (fresh j) := by
    intro fresh
    obtain ⟨ds, htake, hdrop⟩ := h fresh
    have hpushed : ((args.mapIdx fun i a => pushed sitofp t fresh i a) ++ ds)[j]? = some ⟨.i64, fresh j⟩ := by
      have hlt := (List.getElem?_eq_some_iff.mp hj).1
      rw [List.getElem?_append_left (by rwa [List.length_mapIdx]), List.getElem?_mapIdx, hj]
      rfl
    by_cases hlt : j < t.sig.plain.length
    · refine .inl ⟨hlt, ?_⟩
      rw [← htake, List.getElem?_take_of_lt hlt, hpushed]
    · refine .inr ⟨by omega, ?_⟩
      obtain ⟨hlen, hget⟩ := List.forall₂_iff_get.mp (mapM_some_iff.mp hdrop)
      have hdropped := hpushed
      rw [← Nat.add_sub_cancel' (not_lt.mp hlt), ← List.getElem?_drop] at hdropped
      obtain ⟨hbound, hvalue⟩ := List.getElem?_eq_some_iff.mp hdropped
      have hword := hget (j - t.sig.plain.length) hbound (by omega)
      rw [List.get_eq_getElem, hvalue, Nat.add_sub_cancel' (not_lt.mp hlt)] at hword
      rw [List.getElem?_eq_getElem (by omega)]
      exact hword.symm
  -- two addresses would both be what is received at that place
  rcases hat fun _ => 0 with ⟨hlt, h0⟩ | ⟨hle, h0⟩ <;> rcases hat fun _ => 1 with ⟨hlt', h1⟩ | ⟨hle', h1⟩
  · cases h0.symm.trans h1
  · omega
  · omega
  · cases h0.symm.trans h1

/-- **With `*args`.**  The address of the list that a spread is copied to cannot be what is to be received. -/
theorem emit_rest_iff {ty : LTy} (hty : t.sig.rest = some ty) (hptr : t.isFunction = true → ty = .ptr)
    (haccepted : receive sitofp t.sig (args.flatMap Arg.data) = some received) :
    (∀ fresh, t.emit sitofp fresh args = .ok received) ↔ t.Fits sitofp received args := by
  have hrest : t.sig.rest ≠ none := by
    rw [hty]
    nofun
  by_cases hpacks : t.isVariadic = true ∧ t.known = true
  · obtain ⟨hvariadic, hknown⟩ := hpacks
    obtain ⟨⟨hfunction, -⟩, hkw⟩ : (t.isFunction = true ∧ t.sig.rest.isSome = true) ∧ t.sig.kwargs.isNone = true := by
      simpa only [isVariadic, Bool.and_eq_true] using hvariadic
    have hkwargs : t.sig.kwargs = none := Option.isNone_iff_eq_none.mp hkw
    obtain ⟨plain, rest, hplainV, hplain, hr, rfl⟩ := receive_cases haccepted
    rw [hty, receiveRest, Option.bind_eq_bind, Option.bind_eq_some_iff] at hr
    obtain ⟨ws, hws, hrest'⟩ := hr
    cases hrest'
    have hreceived : (plain.map .value ++ [Received.list ws] ++ t.sig.kwargs.toList.map fun _ => .value null) =
        plain.map .value ++ [.list ws] := by
      rw [hkwargs]
      exact List.append_nil _
    rw [hreceived] at haccepted ⊢
    have hemit := fun fresh => @emit_variadic_iff sitofp t fresh args hvariadic hknown ty hty (hptr hfunction) hkwargs
      plain ws (receivePlain_types hplainV)
    -- without a spread, the positional arguments take the first places and the defaults the others
    have hplaces : (leading args).2 = none → ∀ fresh, t.emit sitofp fresh args = .ok (plain.map .value ++ [.list ws]) ↔
        (t.coerced sitofp (leading args).1).take t.sig.plain.length = plain.take (leading args).1.length ∧
          List.Forall₂ Filled (t.sig.plain.drop (leading args).1.length) (plain.drop (leading args).1.length) := by
      intro hlead fresh
      have hpushed : (args.mapIdx fun i a => pushed sitofp t fresh i a) = t.coerced sitofp (leading args).1 := by
        conv_lhs => rw [eq_of_leading_none hlead]
        refine List.ext_getElem? fun i => ?_
        rw [List.getElem?_mapIdx, List.getElem?_map, coerced, List.getElem?_mapIdx]
        cases (leading args).1[i]? <;> rfl
      have hcount : args.length = (leading args).1.length := by
        conv_lhs => rw [eq_of_leading_none hlead]
        rw [List.length_map]
      have hdata : args.flatMap Arg.data = (leading args).1.map Operand.datum := by
        conv_lhs => rw [eq_of_leading_none hlead]
        exact data_positional _
      rw [hemit, hpushed, hcount]
      constructor
      · rintro ⟨ds, hds, htake, -⟩
        have hlen := hds.length_eq
        rw [List.length_drop] at hlen
        rw [List.take_append, length_coerced, List.take_of_length_le (Nat.le_of_eq hlen.symm),
          ← List.take_append_drop (leading args).1.length plain] at htake
        obtain ⟨hfront, rfl⟩ := List.append_inj htake (by
          rw [List.length_take, List.length_take, length_coerced, hplain, Nat.min_comm])
        exact ⟨hfront, hds⟩
      · rintro ⟨hfront, hfilled⟩
        refine ⟨_, hfilled, ?_, ?_⟩
        · rw [List.take_append, length_coerced, hfront, ← hplain, ← List.length_drop, List.take_length, List.take_append_drop]
        · rw [List.drop_append, length_coerced, List.drop_drop, @List.drop_eq_nil_of_le _ plain _ (by omega), List.append_nil]
          rw [hdata] at hws
          obtain ⟨hlen, hget⟩ := List.forall₂_iff_get.mp (mapM_some_iff.mp hws)
          rw [List.length_drop, List.length_map] at hlen
          refine mapM_some_iff.mpr (List.forall₂_iff_get.mpr ⟨?_, fun i h₁ h₂ => ?_⟩)
          · rw [List.length_drop, length_coerced, hlen]
          · have hword := hget i (by rw [List.length_drop, List.length_map]; omega) h₂
            simp only [List.get_eq_getElem, List.getElem_drop, List.getElem_map] at hword
            simp only [List.get_eq_getElem, List.getElem_drop, coerced, List.getElem_mapIdx]
            rw [coerceToI64_surplus hty (hptr hfunction) hkwargs (Nat.le_add_right _ _)]
            exact hword
    constructor
    · intro h
      have hlead : (leading args).2 = none := leading_none_of_pushed fun fresh =>
        let ⟨ds, hds⟩ := (hemit fresh).mp (h fresh)
        ⟨ds, hds.2⟩
      obtain ⟨hfront, hfilled⟩ := (hplaces hlead fun _ => 0).mp (h fun _ => 0)
      refine ⟨(lead_iff hplain _).mp hfront, fun elems he => ?_, fun _ i p hi hp => ⟨hknown, ?_⟩,
        fun _ => ⟨hvariadic, hknown⟩, fun ty' hty' => ?_⟩
      · cases hlead.symm.trans he
      · exact (missing_iff hplain).mp hfilled i p hi hp
      · cases hkwargs.symm.trans hty'
    · intro h
      have hlead : (leading args).2 = none := by
        cases hsome : (leading args).2 with
        | none => rfl
        | some elems => exact absurd (h.spread elems hsome).1 hrest
      exact fun fresh => (hplaces hlead fresh).mpr
        ⟨(lead_iff hplain _).mpr h.lead, (missing_iff hplain).mpr fun i p hi hp => (h.missing hlead i p hi hp).2⟩
  · constructor
    · intro h
      have hunpacked : (t.isVariadic && t.known) = false := by
        rw [Bool.and_eq_false_iff]
        grind
      have hvalues := h fun _ => 0
      unfold emit at hvalues
      obtain ⟨vs, -, hvalues⟩ := ok_of_bind hvalues
      obtain ⟨ds, -, hvalues⟩ := ok_of_bind hvalues
      rw [hunpacked, if_neg Bool.false_ne_true, checkCall] at hvalues
      split at hvalues
      · exact absurd (rest_eq_none_of_values haccepted (Except.ok.inj hvalues).symm) hrest
      · cases hvalues
    · exact fun h => absurd (h.rest hrest) hpacks

/-- **Calls by name**: the parameters receive what they should exactly when the arguments fit. -/
theorem emit_iff (hptr : t.isFunction = true → ∀ ty, t.sig.rest = some ty → ty = .ptr)
    (haccepted : receive sitofp t.sig (args.flatMap Arg.data) = some received) :
    (∀ fresh, t.emit sitofp fresh args = .ok received) ↔ t.Fits sitofp received args := by
  cases hrest : t.sig.rest with
  | some ty => exact emit_rest_iff hrest (fun hfunction => hptr hfunction ty hrest) haccepted
  | none =>
    have hone : ∀ fresh, t.emit sitofp fresh args = .ok received ↔ t.Fits sitofp received args := by
      intro fresh
      cases hlead : (leading args).2 with
      | none => exact emit_positional_iff hrest haccepted hlead
      | some elems => exact emit_spread_iff hrest haccepted hlead
    exact ⟨fun h => (hone fun _ => 0).mp (h fun _ => 0), fun h fresh => (hone fresh).mpr h⟩

end Target

/-! ## Other calls -/

/-- **The condition on the other calls.**  There are as many arguments as parameters, and each, as it is coerced or as
it is held, is what its parameter is to receive; `**kwargs` is a pointer. -/
structure Direct (coerce : ℕ → Value → Value) (sig : Signature) (received : List Received) (args : List Arg) : Prop where
  length : args.length = received.length
  values : ∀ (i : ℕ) a, args[i]? = some a → received[i]? = some (Received.value (coerce i a.held))
  kwargs : ∀ ty, sig.kwargs = some ty → ty = .ptr

section Direct

variable {sitofp : Word → Word} {sig : Signature} {received : List Received} {args : List Arg}
  {coerce : ℕ → Value → Value}

theorem direct_values_iff : (args.mapIdx fun i a => Received.value (coerce i a.held)) = received ↔
    args.length = received.length ∧
      ∀ (i : ℕ) a, args[i]? = some a → received[i]? = some (Received.value (coerce i a.held)) := by
  constructor
  · rintro rfl
    refine ⟨List.length_mapIdx.symm, fun i a ha => ?_⟩
    rw [List.getElem?_mapIdx, ha]
    rfl
  · rintro ⟨hlen, hvalues⟩
    refine List.ext_getElem? fun i => ?_
    rw [List.getElem?_mapIdx]
    cases ha : args[i]? with
    | none =>
      rw [List.getElem?_eq_none_iff, hlen] at ha
      rw [List.getElem?_eq_none ha]
      rfl
    | some a =>
      rw [hvalues i a ha]
      rfl

theorem checkCall_direct_iff (haccepted : receive sitofp sig (args.flatMap Arg.data) = some received) {fault : Fault} :
    checkCall sig.types (args.mapIdx fun i a => .value (coerce i a.held)) fault = .ok received ↔
      Direct coerce sig received args := by
  have hvalues := @direct_values_iff received args coerce
  have hfixed : (args.mapIdx fun i a => Received.value (coerce i a.held)) = received → sig.rest = none := by
    intro h
    have hmap : received = (args.mapIdx fun i a => coerce i a.held).map .value := by
      rw [← h]
      refine List.ext_getElem? fun i => ?_
      rw [List.getElem?_map, List.getElem?_mapIdx, List.getElem?_mapIdx, Option.map_map]
      rfl
    exact rest_eq_none_of_values haccepted hmap
  constructor
  · intro h
    rw [checkCall] at h
    split at h
    · rename_i htypes
      have hreceived := Except.ok.inj h
      rw [hreceived] at htypes
      exact ⟨(hvalues.mp hreceived).1, (hvalues.mp hreceived).2,
        (types_of_fixed (hfixed hreceived) haccepted).mp htypes⟩
    · cases h
  · intro h
    have hreceived := hvalues.mpr ⟨h.length, h.values⟩
    rw [checkCall, hreceived, if_pos ((types_of_fixed (hfixed hreceived) haccepted).mpr h.kwargs)]

theorem map_held (args : List Arg) :
    (args.map fun a => Received.value a.held) = args.mapIdx fun _ a => .value a.held := by
  refine List.ext_getElem? fun i => ?_
  rw [List.getElem?_map, List.getElem?_mapIdx]

/-- What is to be received does not depend on the types of `*args` and `**kwargs`. -/
theorem receive_pointers (data : List Datum) : receive sitofp sig.pointers data = receive sitofp sig data := by
  obtain ⟨plain, rest, kwargs⟩ := sig
  cases rest <;> cases kwargs <;> rfl

theorem closureCall_iff {params : ℕ}
    (haccepted : receive sitofp ⟨List.replicate params ⟨.untyped, none⟩, none, none⟩ (args.flatMap Arg.data) =
      some received) :
    closureCall params (args.map Arg.held) = .ok received ↔
      Direct (fun _ v => v) ⟨List.replicate params ⟨.untyped, none⟩, none, none⟩ received args := by
  obtain ⟨plain, hplain, -, htypes, hreceived⟩ := receive_of_fixed rfl haccepted
  simp only [List.length_replicate, List.map_replicate, Option.toList_none, List.map_nil, List.append_nil,
    ParamType.llvm] at hplain htypes hreceived
  have hvalues := @direct_values_iff received args fun _ v => v
  rw [← map_held, ← Function.comp_def, ← List.map_map] at hvalues
  rw [closureCall, List.length_map]
  constructor
  · intro h
    split at h
    · split at h
      · exact ⟨(hvalues.mp (Except.ok.inj h)).1, (hvalues.mp (Except.ok.inj h)).2, nofun⟩
      · cases h
    · cases h
  · intro h
    have hheld := hvalues.mpr ⟨h.length, h.values⟩
    have hplainEq : args.map Arg.held = plain :=
      (List.map_injective_iff.mpr fun _ _ => Received.value.inj) (hheld.trans hreceived)
    have hall : (args.map Arg.held).all (·.type = .i64) = true := by
      rw [hplainEq, List.all_eq_true]
      intro v hv
      have hmem : v.type ∈ plain.map Value.type := List.mem_map_of_mem hv
      rw [htypes] at hmem
      exact decide_eq_true (List.eq_of_mem_replicate hmem)
    have hlen : args.length = params := by
      rw [h.length, hreceived, List.length_map, hplain]
    rw [if_pos hall, if_pos hlen, hheld]

end Direct

/-! ## All calls -/

/-- A call whose arguments are accepted, with what the parameters are to receive. -/
structure Call (sitofp : Word → Word) where
  callee : Callee
  args : List Arg
  received : List Received
  accepted : receive sitofp callee.formals (args.flatMap Arg.data) = some received

namespace Call

variable {sitofp : Word → Word} (c : Call sitofp)

/-- **The arguments reach the right parameters**, wherever the lists that the call makes may be. -/
def Reaches : Prop := ∀ fresh, emit sitofp c.callee fresh c.args = .ok c.received

/-- The condition, for every kind of callee.  The `init` of an object on the stack has no parameters. -/
def Served : Prop :=
  match c.callee with
  | .function sig known => Target.Fits sitofp ⟨sig.pointers, true, known⟩ c.received c.args
  | .generic sig => Target.Fits sitofp ⟨sig, false, false⟩ c.received c.args
  | .constructor sig known false => Target.Fits sitofp ⟨sig, false, known⟩ c.received c.args
  | .constructor sig _ true => sig.plain = [] ∧ sig.rest = none ∧ sig.kwargs = none
  | .method sig => Direct (coerceAt sitofp sig.types) sig c.received c.args
  | .staticMethod sig => Direct (fun _ v => v) sig c.received c.args
  | .moduleFunction sig => Direct (fun _ v => v) sig.pointers c.received c.args
  | .closure _ => Direct (fun _ v => v) c.callee.formals c.received c.args

end Call

/-- Arguments without a value are held as words. -/
theorem held_of_no_data {args : List Arg} (h : args.flatMap Arg.data = []) :
    (args.mapM fun a => coerceToI64 a.held).isSome = true := by
  induction args with
  | nil => rfl
  | cons a args ih =>
    obtain ⟨ha, hargs⟩ := List.append_eq_nil_iff.mp h
    obtain ⟨ws, hws⟩ := Option.isSome_iff_exists.mp (ih hargs)
    cases a with
    | positional o => cases ha
    | spread list untyped elems =>
      rw [List.mapM_cons, hws]
      cases untyped <;> rfl

theorem stack_iff {sig : Signature} {args : List Arg} {received : List Received} {sitofp : Word → Word}
    (haccepted : receive sitofp sig (args.flatMap Arg.data) = some received) :
    (if (args.mapM fun a => coerceToI64 a.held).isSome then .ok [] else .error Fault.codegenError) =
      Except.ok received ↔ sig.plain = [] ∧ sig.rest = none ∧ sig.kwargs = none := by
  constructor
  · intro h
    split at h
    · cases h
      have hfixed : sig.rest = none := rest_eq_none_of_values haccepted List.map_nil.symm
      obtain ⟨plain, hplain, -, -, hreceived⟩ := receive_of_fixed hfixed haccepted
      obtain ⟨rfl, hkwargs⟩ := List.append_eq_nil_iff.mp (List.map_eq_nil_iff.mp hreceived.symm)
      refine ⟨List.eq_nil_of_length_eq_zero hplain.symm, hfixed, ?_⟩
      cases hk : sig.kwargs with
      | none => rfl
      | some ty =>
        rw [hk] at hkwargs
        cases hkwargs
    · cases h
  · rintro ⟨hplain, hrest, hkwargs⟩
    obtain ⟨plain, hlen, hdata, -, rfl⟩ := receive_of_fixed hrest haccepted
    rw [hplain] at hlen hdata
    rw [if_pos (held_of_no_data (List.eq_nil_of_length_eq_zero (Nat.le_zero.mp hdata))),
      List.eq_nil_of_length_eq_zero hlen, hkwargs]
    rfl

/-- `f(a, b = 2)`, called as `f(*xs)` where `xs` is `[1]`. -/
def shortSpread : Call id where
  callee := .function ⟨[⟨.int, none⟩, ⟨.int, some ⟨.int 2, some ⟨.i64, 2⟩⟩⟩], none, none⟩ true
  args := [.spread 16 false [⟨.int 1, 1, rfl⟩]]
  received := [.value ⟨.i64, 1⟩, .value ⟨.i64, 2⟩]
  accepted := rfl

section Conversions

variable {sitofp : Word → Word} {ty : ParamType} {d : Datum} {v : Value}

end Conversions

end Visuall.Codegen.Arguments
