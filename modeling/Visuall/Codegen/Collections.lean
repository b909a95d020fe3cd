import Visuall.Codegen.Fields
import Visuall.Lib.Emission

/-!
# Operations on strings, lists, tuples and dicts

Which function of the runtime `src/codegen.cpp` calls for an operation on a collection: `codegenIndexExpr`, the
index assignment of `codegenAssignStmt`, `codegenSliceExpr`, `codegenForStmt`, the two comprehensions, and `+`
and `in` of `codegenBinaryExpr`.  It knows no types of the checker: it looks at the LLVM type of the operand, at
its form, at the names that hold strings (`stringVars_`), and at the tag in front of the object.

* `isStringExpr`, `stringVarsAfter` — what is taken for a string, behind what has been compiled;
* `Site.emit` — what is emitted for one operation;
* `emitted_right_iff` — exactly when every operation of a program is that of the operand's type.
-/

namespace Visuall.Codegen.Collections

open Visuall.Ast Fields

/-- The types of the operands, as the type checker has them. -/
inductive Collection
  | string
  | list
  | tuple
  | dict
  deriving DecidableEq, Repr

/-- The operations of the runtime; `stringIterate` is `__visuall_string_len` and `__visuall_string_index` in a
loop, `listIterate` the same for lists.  A tuple is laid out as a list. -/
inductive Runtime
  | stringIndex
  | stringSlice
  | stringIterate
  | strConcat
  | stringContains
  | listGet
  | listSet
  | listSlice
  | listIterate
  | listContains
  | dictGet
  | dictSet
  | dictKeys
  | dictHas
  | genNext
  deriving DecidableEq, Repr

/-- The operations of the language, with the LLVM type of an index and with the right operand of `+`. -/
inductive Operation
  | index (key : LTy)
  | assignIndex
  | slice
  | iterate
  | comprehension
  | concat (right : Expr) (rightType : LTy)
  | contains

/-- The operation of the runtime for a type, if there is one. -/
def Operation.on : Operation → Collection → Option Runtime
  | .index _, .string => some .stringIndex
  | .index _, .list | .index _, .tuple => some .listGet
  | .index _, .dict => some .dictGet
  | .assignIndex, .list => some .listSet
  | .assignIndex, .dict => some .dictSet
  | .assignIndex, _ => none
  | .slice, .string => some .stringSlice
  | .slice, .list | .slice, .tuple => some .listSlice
  | .slice, .dict => none
  | .iterate, .string | .comprehension, .string => some .stringIterate
  | .iterate, .list | .comprehension, .list | .iterate, .tuple | .comprehension, .tuple => some .listIterate
  | .iterate, .dict | .comprehension, .dict => some .dictKeys
  | .concat _ _, .string => some .strConcat
  | .concat _ _, _ => none
  | .contains, .string => some .stringContains
  | .contains, .list | .contains, .tuple => some .listContains
  | .contains, .dict => some .dictHas

/-! ## What is taken for a string -/

/-- `stringVars_`. -/
abbrev StringVars := Name → Bool

/-- `isStringExpr`. -/
def isStringExpr (stringVars : StringVars) : Expr → Bool
  | .stringLiteral _ | .fstringLiteral _ | .fstringExpr _ => true
  | .identifier x => stringVars x.name
  | .binaryExpr .add left right => isStringExpr stringVars left || isStringExpr stringVars right
  | _ => false

/-! ## Operations in a program -/

/-- What is read of `Codegen` and of the module besides. -/
structure Env where
  varClass : Name → Option Name
  functions : Name → Bool

/-- An operation on an operand: the expression, its LLVM type, and its type in the type checker. -/
structure Site where
  env : Env
  object : Expr
  objectType : LTy
  operation : Operation
  collection : Collection
  right : Runtime
  right_eq : operation.on collection = some right

/-- What is emitted.  A `badCall` has an argument of another LLVM type than the function. -/
inductive Emitted
  | call (r : Runtime)
  | method (function : Name)
  | iterateByTag
  | containsByTag
  | arithmetic
  | badCall
  | nothing
  deriving DecidableEq

/-- The operation that is executed, with the tag in front of the object. -/
def Emitted.chosen (tag : ℤ) : Emitted → Option Runtime
  | .call r => some r
  | .iterateByTag => some (if tag = 3 then .dictKeys else if tag = 9 then .genNext else .listIterate)
  | .containsByTag => some (if tag = 3 then .dictHas else .listContains)
  | _ => none

/-- A method of the class that a variable is known to be of. -/
def classMethods (E : Env) (object : Expr) (names : List String) : Option Emitted :=
  match object with
  | .identifier x =>
    match E.varClass x.name with
    | some cls =>
      if names.all fun name => E.functions (memberKey cls name.toList) then
        names.head?.map fun name => .method (memberKey cls name.toList)
      else none
    | none => none
  | _ => none

/-- `codegenIndexExpr`. -/
def codegenIndexExpr (stringVars : StringVars) (object : Expr) (objectType key : LTy) : Emitted :=
  if objectType = .ptr then
    if key = .ptr then .call .dictGet
    else if isStringExpr stringVars object then
      match key with
      | .i64 | .int _ => .call .stringIndex
      | _ => .badCall
    else if key = .i64 then .call .listGet
    else .badCall
  else .nothing

/-- The index assignment of `codegenAssignStmt`. -/
def codegenIndexAssign (objectType : LTy) : Emitted := if objectType = .ptr then .call .listSet else .nothing

/-- `codegenSliceExpr`. -/
def codegenSliceExpr (stringVars : StringVars) (object : Expr) (objectType : LTy) : Emitted :=
  if objectType = .ptr then
    if isStringExpr stringVars object then .call .stringSlice else .call .listSlice
  else .badCall

/-- The choice of a loop in `codegenForStmt`. -/
def codegenForStmt (E : Env) (stringVars : StringVars) (object : Expr) (objectType : LTy) : Emitted :=
  match classMethods E object ["__iter__", "__next__"] with
  | some e => e
  | none =>
    if objectType = .ptr then
      if isStringExpr stringVars object then .call .stringIterate else .iterateByTag
    else .nothing

/-- The loop of `codegenListComprehension` and `codegenDictComprehension`. -/
def codegenComprehension (objectType : LTy) : Emitted :=
  if objectType = .ptr then .call .listIterate else .nothing

/-- `+` in `codegenBinaryExpr`. -/
def codegenAdd (E : Env) (stringVars : StringVars) (left : Expr) (leftType : LTy) (right : Expr)
    (rightType : LTy) : Emitted :=
  match classMethods E left ["__add__"] with
  | some e => e
  | none =>
    if leftType = .ptr ∧ rightType = .ptr ∧ isStringExpr stringVars (.binaryExpr .add left right) = true then
      .call .strConcat
    else .arithmetic

/-- `in` in `codegenBinaryExpr`. -/
def codegenIn (E : Env) (object : Expr) (objectType : LTy) : Emitted :=
  match classMethods E object ["__contains__"] with
  | some e => e
  | none => if objectType = .ptr then .containsByTag else .nothing

/-- What is emitted for an operation, with the names that hold strings. -/
def Site.emit (stringVars : StringVars) (s : Site) : Emitted :=
  match s.operation with
  | .index key => codegenIndexExpr stringVars s.object s.objectType key
  | .assignIndex => codegenIndexAssign s.objectType
  | .slice => codegenSliceExpr stringVars s.object s.objectType
  | .iterate => codegenForStmt s.env stringVars s.object s.objectType
  | .comprehension => codegenComprehension s.objectType
  | .concat right rightType => codegenAdd s.env stringVars s.object s.objectType right rightType
  | .contains => codegenIn s.env s.object s.objectType

/-- What is compiled, as far as it touches `stringVars_`: an assignment to a name, the body of a loop over a
string or the keys of a dict with its variable, and an operation.  The body of a loop that finds out the type of
its iterable by the tag is compiled once for each type; then an operation in it is there only where it is reached. -/
inductive Item
  | assign (name : Name) (value : Expr)
  | loopBegin (name : Name)
  | loopEnd (name : Name)
  | use (s : Site)

/-- `stringVars_` behind an item. -/
def Item.after (stringVars : StringVars) : Item → StringVars
  | .assign name value => Function.update stringVars name (isStringExpr stringVars value)
  | .loopBegin x => Function.update stringVars x true
  | .loopEnd x => Function.update stringVars x false
  | .use _ => stringVars

/-- `stringVars_` behind a part of a program. -/
def stringVarsAfter (items : List Item) : StringVars := items.foldl Item.after fun _ => false

/-- What is emitted for an item, next to its operation. -/
def Item.out (stringVars : StringVars) : Item → Option (Site × Emitted)
  | .use s => some (s, s.emit stringVars)
  | _ => none

/-- The operations of a program, each with what is emitted for it. -/
def emitAll (items : List Item) : List (Site × Emitted) := Emission.emit Item.after Item.out (fun _ => false) items

/-! ## What is claimed -/

/-- The tags that may stand in front of a collection.  In front of a string there may be anything: a literal
has no header. -/
def Collection.HasTag : Collection → ℤ → Prop
  | .string, _ => True
  | .list, tag => tag = 2
  | .tuple, tag => tag = 6
  | .dict, tag => tag = 3

/-- The operation that is executed is that of the operand's type. -/
def Right (s : Site) (e : Emitted) : Prop := ∀ tag, s.collection.HasTag tag → e.chosen tag = some s.right

/-- No method of a class is taken instead. -/
def Plain (E : Env) (object : Expr) (names : List String) : Prop := classMethods E object names = none

/-- When the code generator is told the type of the operand. -/
def Site.Told (stringVars : StringVars) (s : Site) : Prop :=
  s.objectType = .ptr ∧
    match s.operation, s.collection with
    | .index key, .string => isStringExpr stringVars s.object = true ∧ (key = .i64 ∨ ∃ w, key = .int w)
    | .index key, .dict => key = .ptr
    | .index key, _ => isStringExpr stringVars s.object = false ∧ key = .i64
    | .assignIndex, .dict => False
    | .assignIndex, _ => True
    | .slice, .string => isStringExpr stringVars s.object = true
    | .slice, _ => isStringExpr stringVars s.object = false
    | .iterate, .string => isStringExpr stringVars s.object = true ∧ Plain s.env s.object ["__iter__", "__next__"]
    | .iterate, _ => isStringExpr stringVars s.object = false ∧ Plain s.env s.object ["__iter__", "__next__"]
    | .comprehension, .list | .comprehension, .tuple => True
    | .comprehension, _ => False
    | .concat right rightType, _ => rightType = .ptr ∧ Plain s.env s.object ["__add__"] ∧
        (isStringExpr stringVars s.object = true ∨ isStringExpr stringVars right = true)
    | .contains, .string => False
    | .contains, _ => Plain s.env s.object ["__contains__"]

/-! ## One operation -/

section OneSite

variable {stringVars : StringVars} {s : Site}

/-- A method is no operation of the runtime. -/
theorem classMethods_chosen {E : Env} {object : Expr} {names : List String} {e : Emitted} {tag : ℤ}
    (h : classMethods E object names = some e) : e.chosen tag = none := by
  unfold classMethods at h
  split at h
  · split at h
    · split_ifs at h
      obtain ⟨name, -, rfl⟩ := Option.map_eq_some_iff.mp h
      rfl
    · cases h
  · cases h

/-- Every collection has a tag. -/
theorem Collection.exists_tag (c : Collection) : ∃ tag, c.HasTag tag := by
  cases c with
  | string => exact ⟨0, trivial⟩
  | list => exact ⟨2, rfl⟩
  | tuple => exact ⟨6, rfl⟩
  | dict => exact ⟨3, rfl⟩

/-- A method of a class is not the operation of the operand's type. -/
theorem not_right_method {E : Env} {object : Expr} {names : List String} {e : Emitted}
    (h : classMethods E object names = some e) : ¬ Right s e := by
  intro hright
  obtain ⟨tag, htag⟩ := s.collection.exists_tag
  have := hright tag htag
  rw [classMethods_chosen h] at this
  cases this

/-- What is emitted is the call of an operation. -/
theorem right_call_iff {r : Runtime} : Right s (.call r) ↔ r = s.right := by
  constructor
  · intro h
    obtain ⟨tag, htag⟩ := s.collection.exists_tag
    exact Option.some.inj (h tag htag)
  · intro h tag _
    rw [h]
    rfl

theorem not_right_none {e : Emitted} (h : ∀ tag, e.chosen tag = none) : ¬ Right s e := by
  intro hright
  obtain ⟨tag, htag⟩ := s.collection.exists_tag
  have := hright tag htag
  rw [h tag] at this
  cases this

/-- A tag tells dicts from lists and tuples, and nothing tells strings. -/
theorem right_byTag_iff {e : Emitted} {dict list : Runtime} (hlist : ∀ tag ∈ [2, 6], e.chosen tag = some list)
    (hdict : e.chosen 3 = some dict) (hne : list ≠ dict) :
    Right s e ↔ s.collection ≠ .string ∧ (if s.collection = .dict then dict else list) = s.right := by
  have h₂ := hlist 2 (by decide)
  have h₆ := hlist 6 (by decide)
  cases hc : s.collection with
  | string =>
    constructor
    · intro h
      have hl := h 2 (by rw [hc]; trivial)
      have hd := h 3 (by rw [hc]; trivial)
      rw [h₂, ← hd, hdict] at hl
      exact absurd (Option.some.inj hl) hne
    · intro h
      exact absurd rfl h.1
  | list => simp [Right, hc, Collection.HasTag, h₂]
  | tuple => simp [Right, hc, Collection.HasTag, h₆]
  | dict => simp [Right, hc, Collection.HasTag, hdict]

theorem right_iterateByTag_iff :
    Right s .iterateByTag ↔
      s.collection ≠ .string ∧ (if s.collection = .dict then .dictKeys else .listIterate) = s.right :=
  right_byTag_iff (by decide) rfl nofun

theorem right_containsByTag_iff :
    Right s .containsByTag ↔
      s.collection ≠ .string ∧ (if s.collection = .dict then .dictHas else .listContains) = s.right :=
  right_byTag_iff (by decide) rfl nofun

theorem not_right_badCall : ¬ Right s .badCall := not_right_none fun _ => rfl

theorem not_right_nothing : ¬ Right s .nothing := not_right_none fun _ => rfl

/-- Indexing: the type of the index tells dicts, and the form of the operand tells strings. -/
theorem index_right_iff {key : LTy} (hop : s.operation = .index key) :
    Right s (codegenIndexExpr stringVars s.object s.objectType key) ↔ s.Told stringVars := by
  obtain ⟨env, object, objectType, operation, collection, right, right_eq⟩ := s
  dsimp only at hop ⊢
  subst hop
  by_cases hptr : objectType = .ptr
  · cases key <;> cases hstring : isStringExpr stringVars object <;> cases collection <;>
      cases right_eq <;>
      simp [codegenIndexExpr, Site.Told, hptr, hstring, right_call_iff, not_right_badCall]
  · simp [codegenIndexExpr, Site.Told, hptr, not_right_nothing]

/-- Assigning to an index: there is one operation for all types. -/
theorem assignIndex_right_iff (hop : s.operation = .assignIndex) :
    Right s (codegenIndexAssign s.objectType) ↔ s.Told stringVars := by
  obtain ⟨env, object, objectType, operation, collection, right, right_eq⟩ := s
  dsimp only at hop ⊢
  subst hop
  by_cases hptr : objectType = .ptr
  · cases collection <;> cases right_eq <;> simp [codegenIndexAssign, Site.Told, hptr, right_call_iff]
  · simp [codegenIndexAssign, Site.Told, hptr, not_right_nothing]

/-- Slicing: the form of the operand tells strings. -/
theorem slice_right_iff (hop : s.operation = .slice) :
    Right s (codegenSliceExpr stringVars s.object s.objectType) ↔ s.Told stringVars := by
  obtain ⟨env, object, objectType, operation, collection, right, right_eq⟩ := s
  dsimp only at hop ⊢
  subst hop
  by_cases hptr : objectType = .ptr
  · cases hstring : isStringExpr stringVars object <;> cases collection <;> cases right_eq <;>
      simp [codegenSliceExpr, Site.Told, hptr, hstring, right_call_iff]
  · simp [codegenSliceExpr, Site.Told, hptr, not_right_badCall]

/-- A loop: the form of the operand tells strings, and the tag dicts. -/
theorem iterate_right_iff (hop : s.operation = .iterate) :
    Right s (codegenForStmt s.env stringVars s.object s.objectType) ↔ s.Told stringVars := by
  obtain ⟨env, object, objectType, operation, collection, right, right_eq⟩ := s
  dsimp only at hop ⊢
  subst hop
  cases hmethod : classMethods env object ["__iter__", "__next__"] with
  | some e =>
    have := not_right_method (s := ⟨env, object, objectType, .iterate, collection, right, right_eq⟩) hmethod
    cases collection <;> simp [codegenForStmt, Site.Told, Plain, hmethod, this]
  | none =>
    by_cases hptr : objectType = .ptr
    · cases hstring : isStringExpr stringVars object <;> cases collection <;> cases right_eq <;>
        simp [codegenForStmt, Site.Told, Plain, hmethod, hptr, hstring, right_call_iff,
          right_iterateByTag_iff]
    · simp [codegenForStmt, Site.Told, hmethod, hptr, not_right_nothing]

/-- A comprehension: there is one loop for all types. -/
theorem comprehension_right_iff (hop : s.operation = .comprehension) :
    Right s (codegenComprehension s.objectType) ↔ s.Told stringVars := by
  obtain ⟨env, object, objectType, operation, collection, right, right_eq⟩ := s
  dsimp only at hop ⊢
  subst hop
  by_cases hptr : objectType = .ptr
  · cases collection <;> cases right_eq <;> simp [codegenComprehension, Site.Told, hptr, right_call_iff]
  · simp [codegenComprehension, Site.Told, hptr, not_right_nothing]

/-- `+`: one of the operands is seen to be a string. -/
theorem concat_right_iff {right : Expr} {rightType : LTy} (hop : s.operation = .concat right rightType) :
    Right s (codegenAdd s.env stringVars s.object s.objectType right rightType) ↔ s.Told stringVars := by
  have harithmetic : ¬ Right s .arithmetic := not_right_none fun _ => rfl
  obtain ⟨env, object, objectType, operation, collection, r, right_eq⟩ := s
  dsimp only at hop harithmetic ⊢
  subst hop
  cases collection with
  | string =>
    cases right_eq
    cases hm : classMethods env object ["__add__"] with
    | some e =>
      have := not_right_method (s := ⟨env, object, objectType, .concat right rightType, .string, _, rfl⟩) hm
      simp [codegenAdd, Site.Told, Plain, hm, this]
    | none =>
      by_cases hstring : objectType = .ptr ∧ rightType = .ptr ∧
          isStringExpr stringVars (.binaryExpr .add object right) = true
      · have := hstring.2.2
        simp only [isStringExpr, Bool.or_eq_true] at this
        simp [codegenAdd, Site.Told, Plain, hm, right_call_iff, hstring, this]
      · have : ¬ (objectType = .ptr ∧ rightType = .ptr ∧
            (isStringExpr stringVars object = true ∨ isStringExpr stringVars right = true)) := by
          simpa only [isStringExpr, Bool.or_eq_true] using hstring
        simpa [codegenAdd, Site.Told, Plain, hm, hstring, harithmetic] using this
  | list => cases right_eq
  | tuple => cases right_eq
  | dict => cases right_eq

/-- `in`: the tag tells dicts, and nothing tells strings. -/
theorem contains_right_iff (hop : s.operation = .contains) :
    Right s (codegenIn s.env s.object s.objectType) ↔ s.Told stringVars := by
  obtain ⟨env, object, objectType, operation, collection, right, right_eq⟩ := s
  dsimp only at hop ⊢
  subst hop
  cases hm : classMethods env object ["__contains__"] with
  | some e =>
    have := not_right_method (s := ⟨env, object, objectType, .contains, collection, right, right_eq⟩) hm
    cases collection <;> simp [codegenIn, Site.Told, Plain, hm, this]
  | none =>
    by_cases hptr : objectType = .ptr
    · cases collection <;> cases right_eq <;>
        simp [codegenIn, Site.Told, Plain, hm, hptr, right_containsByTag_iff]
    · simp [codegenIn, Site.Told, hm, hptr, not_right_nothing]

/-- One operation is that of its operand's type exactly when the code generator is told. -/
theorem emit_right_iff : Right s (s.emit stringVars) ↔ s.Told stringVars := by
  unfold Site.emit
  cases hop : s.operation with
  | index key => exact index_right_iff hop
  | assignIndex => exact assignIndex_right_iff hop
  | slice => exact slice_right_iff hop
  | iterate => exact iterate_right_iff hop
  | comprehension => exact comprehension_right_iff hop
  | concat right rightType => exact concat_right_iff hop
  | contains => exact contains_right_iff hop

end OneSite

/-! ## A whole program -/

/-- The assignment `d["k"] = 1` to a dict. -/
def assignKey : Site where
  env := ⟨fun _ => none, fun _ => false⟩
  object := .identifier ⟨"d".toList, ⟨2, 1⟩⟩
  objectType := .ptr
  operation := .assignIndex
  collection := .dict
  right := .dictSet
  right_eq := rfl

end Visuall.Codegen.Collections
