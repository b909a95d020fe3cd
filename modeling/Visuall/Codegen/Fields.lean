import Visuall.Codegen.Values
import Visuall.Syntax.Ast

/-!
# Field access

The fields of objects in `src/codegen.cpp`: `findFieldIndex`, `lookupFieldType`, and what `codegenMemberExpr`,
`codegenAssignStmt` and `codegenDelStmt` emit for `o.f`.  An object is a block of words, one for each field of
its class.

* `Site` — one expression `o.f`, and the members of `Codegen` when it is compiled;
* `Site.emit`, `emitAll` — what is emitted for it, and for a program one site after the other;
* `ClassCorrect` — every site accesses the slot of its object's class, and every run reads what was stored last;
* `classCorrect_iff` — exactly when.
-/

namespace Visuall.Codegen.Fields

open Visuall.Ast

/-! ## The tables of classes -/

/-- `classFields_`, in the order in which the map is iterated over. -/
abbrev ClassFields := List (Name × List Name)

/-- The loops of `findFieldIndex` and `lookupFieldType`: the first class that has the field, and its index. -/
def findField : ClassFields → Name → Option (Name × ℕ)
  | [], _ => none
  | (cls, fields) :: classes, member =>
    if member ∈ fields then some (cls, fields.idxOf member) else findField classes member

def findFieldIndex (classes : ClassFields) (member : Name) : Option ℕ := (findField classes member).map Prod.snd

/-- `classFieldTypes_`; a class that is not there has no types. -/
abbrev FieldTypes := Name → List (Option LTy)

def lookupFieldType (classes : ClassFields) (types : FieldTypes) (member : Name) : Option LTy :=
  match findField classes member with
  | some (cls, i) => (types cls)[i]?.join
  | none => none

/-- The type of a field is kept the first time a value is assigned to it. -/
def recordType (types : FieldTypes) (cls : Name) (i : ℕ) (type : LTy) : FieldTypes :=
  Function.update types cls (
    let resized := types cls ++ List.replicate (i + 1 - (types cls).length) none
    if resized[i]?.join = none then resized.set i (some type) else resized)

/-! ## The members of `Codegen` -/

/-- What is read of `Codegen` and of the module when `o.f` is compiled, its field tables aside. -/
structure Env where
  enumNames : Name → Bool
  globals : Name → Bool
  modules : Name → Bool
  runtimeFunctions : Name → Name → Bool
  varClass : Name → Option Name
  classProperties : Name → Bool
  classSetters : Name → Bool
  functions : Name → Bool
  declared : Name → Bool
  currentClassName : Name

/-- `ClassName_member`. -/
def memberKey (cls member : Name) : Name := cls ++ '_' :: member

/-- What is emitted for `o.f`: something else than a field, an access to a slot, or nothing.  A load has the type
that the word is converted to. -/
inductive Emitted
  | enumMember
  | missingEnumMember
  | moduleMember
  | call (function : Name)
  | load (index : ℕ) (type : LTy)
  | store (index : ℕ)
  | clear (index : ℕ)
  | badCast
  | zero
  | nothing
  deriving DecidableEq

/-- The getter of a property. -/
def getter (E : Env) (cls member self : Name) : Option Emitted :=
  let propKey := memberKey cls member
  if E.classProperties propKey && E.functions propKey && E.declared self then some (.call propKey) else none

/-- What `codegenMemberExpr` tries before it takes `o.f` for a field. -/
def otherMember (E : Env) (object : Expr) (member : Name) : Option Emitted :=
  match object with
  | .identifier x =>
    if E.enumNames x.name then
      some (if E.globals (memberKey x.name member) then .enumMember else .missingEnumMember)
    else if E.modules x.name && E.runtimeFunctions x.name member then some .moduleMember
    else
      match E.varClass x.name with
      | some cls => getter E cls member x.name
      | none => none
  | .thisExpr => getter E E.currentClassName member "this".toList
  | _ => none

/-- The conversion of a word that was loaded. -/
def resultType : Option LTy → LTy
  | none | some .closure => .i64
  | some type => type

/-- `codegenMemberExpr`. -/
def codegenMemberExpr (E : Env) (classes : ClassFields) (types : FieldTypes) (object : Expr) (objectType : LTy)
    (member : Name) : Emitted :=
  match otherMember E object member with
  | some e => e
  | none =>
    match findFieldIndex classes member with
    | some i =>
      if objectType = .ptr then .load i (resultType (lookupFieldType classes types member)) else .zero
    | none => .zero

/-- `objClassName`. -/
def objClassName (E : Env) : Expr → Name
  | .identifier x => (E.varClass x.name).getD []
  | .thisExpr => E.currentClassName
  | _ => []

/-- `trySetterFor`. -/
def setter (E : Env) (object : Expr) (member : Name) : Option Emitted :=
  let cls := objClassName E object
  let propKey := memberKey cls member
  if cls ≠ [] && E.classSetters propKey && E.functions (propKey ++ "_setter".toList) then
    some (.call (propKey ++ "_setter".toList))
  else none

/-- The member assignment of `codegenAssignStmt`. -/
def codegenMemberAssign (E : Env) (classes : ClassFields) (types : FieldTypes) (object : Expr) (objectType : LTy)
    (member : Name) (type : LTy) : Emitted × FieldTypes :=
  match setter E object member with
  | some e => (e, types)
  | none =>
    match findFieldIndex classes member with
    | some i =>
      if objectType = .ptr then
        let cls := objClassName E object
        (if type = .closure then .badCast else .store i,
          if cls = [] then types else recordType types cls i type)
      else (.nothing, types)
    | none => (.nothing, types)

/-- The field case of `codegenDelStmt`. -/
def codegenMemberDel (classes : ClassFields) (objectType : LTy) (member : Name) : Emitted :=
  match findFieldIndex classes member with
  | some i => if objectType = .ptr then .clear i else .nothing
  | none => .nothing

/-! ## Sites -/

/-- What is done with `o.f`.  An `extraTarget` is one behind the first in a chained assignment. -/
inductive Use
  | read
  | assign
  | extraTarget
  | del
  deriving DecidableEq, Repr

/-- An expression `o.f` in a program: `own` is the class of the object and its fields, `f` among them.  Where the
object may be of several classes, there is a site for each. -/
structure Site (classes : ClassFields) where
  env : Env
  object : Expr
  objectType : LTy
  own : Name × List Name
  own_mem : own ∈ classes
  member : Name
  member_mem : member ∈ own.2
  use : Use

variable {classes : ClassFields} (fieldType : Name → Name → LTy)

namespace Site

/-- The type the field has in the class of the object. -/
def type (s : Site classes) : LTy := fieldType s.own.1 s.member

/-- The index the field has in the class of the object. -/
def index (s : Site classes) : ℕ := s.own.2.idxOf s.member

/-- What is emitted for a site, and the types of the fields behind it.  In a chained assignment only names are
looked at behind the first target. -/
def emit (types : FieldTypes) (s : Site classes) : Emitted × FieldTypes :=
  match s.use with
  | .read => (codegenMemberExpr s.env classes types s.object s.objectType s.member, types)
  | .assign => codegenMemberAssign s.env classes types s.object s.objectType s.member (s.type fieldType)
  | .extraTarget => (.nothing, types)
  | .del => (codegenMemberDel classes s.objectType s.member, types)

/-- The access to the slot that the field has in the class of the object. -/
def right (s : Site classes) : Emitted :=
  match s.use with
  | .read => .load s.index (s.type fieldType)
  | .assign | .extraTarget => .store s.index
  | .del => .clear s.index

end Site

/-- The sites of a program, in the order in which they are compiled. -/
def emitAll : FieldTypes → List (Site classes) → List Emitted
  | _, [] => []
  | types, s :: sites => (s.emit fieldType types).1 :: emitAll (s.emit fieldType types).2 sites

/-- The types of the fields behind the sites of a program. -/
def typesAfter (sites : List (Site classes)) : FieldTypes :=
  sites.foldl (fun types s => (s.emit fieldType types).2) fun _ => []

/-! ## Runs -/

/-- A site is executed, with an object and, in an assignment, a value. -/
structure Event where
  site : ℕ
  object : ℕ
  value : Value

/-- The words of every object. -/
abbrev Blocks := ℕ → List Word

/-- The emitted code is executed: the blocks behind it, and what was read.  There is none when something else
than a slot of the object is accessed. -/
def step (code : List Emitted) (blocks : Blocks) (e : Event) : Option (Blocks × Option Value) :=
  match code[e.site]? with
  | some (.load i type) => (blocks e.object)[i]?.map fun w => (blocks, some (ofI64 type w))
  | some (.store i) =>
    if i < (blocks e.object).length then
      (coerceToI64 e.value).map fun w => (Function.update blocks e.object ((blocks e.object).set i w), none)
    else none
  | some (.clear i) =>
    if i < (blocks e.object).length then
      some (Function.update blocks e.object ((blocks e.object).set i 0), none)
    else none
  | _ => none

def run (code : List Emitted) : Blocks → List Event → Option (Blocks × List (Option Value))
  | blocks, [] => some (blocks, [])
  | blocks, e :: events => do
    let (blocks, result) ← step code blocks e
    let (blocks, results) ← run code blocks events
    return (blocks, result :: results)

/-- What is in every field of every object. -/
abbrev Contents := ℕ → Name → Value

def Contents.set (F : Contents) (o : ℕ) (f : Name) (v : Value) : Contents :=
  Function.update F o (Function.update (F o) f v)

/-- What a site does to the fields: a read yields what was stored last. -/
def fieldStep (sites : List (Site classes)) (F : Contents) (e : Event) : Contents × Option Value :=
  match sites[e.site]? with
  | some s =>
    match s.use with
    | .read => (F, some (F e.object s.member))
    | .assign | .extraTarget => (F.set e.object s.member e.value, none)
    | .del => (F.set e.object s.member (ofI64 (s.type fieldType) 0), none)
  | none => (F, none)

def fieldRun (sites : List (Site classes)) : Contents → List Event → Contents × List (Option Value)
  | F, [] => (F, [])
  | F, e :: events =>
    let (F, result) := fieldStep fieldType sites F e
    let (F, results) := fieldRun sites F events
    (F, result :: results)

variable (cls : ℕ → Name × List Name)

/-- The event is one of the program: the object is of the class it has at the site, and the value of the type
of the field. -/
def Event.Typed (sites : List (Site classes)) (e : Event) : Prop :=
  ∃ s, sites[e.site]? = some s ∧ cls e.object = s.own ∧ e.value.type = s.type fieldType

/-- Every field is in its slot. -/
structure Represents (blocks : Blocks) (F : Contents) : Prop where
  length : ∀ o, (blocks o).length = (cls o).2.length
  slot : ∀ o, ∀ f ∈ (cls o).2,
    (blocks o)[(cls o).2.idxOf f]?.map (ofI64 (fieldType (cls o).1 f)) = some (F o f)

/-- **What is claimed.**  Every site accesses the slot of its object's class with the type it has there; and in
every run every read yields what was stored last in that field of that object, and no other field changes. -/
structure ClassCorrect (sites : List (Site classes)) : Prop where
  emitted : emitAll fieldType (fun _ => []) sites = sites.map (Site.right fieldType)
  runs : ∀ cls blocks F events, Represents fieldType cls blocks F → (∀ e ∈ events, e.Typed fieldType cls sites) →
    ∃ blocks', run (emitAll fieldType (fun _ => []) sites) blocks events =
        some (blocks', (fieldRun fieldType sites F events).2) ∧
      Represents fieldType cls blocks' (fieldRun fieldType sites F events).1

/-! ## The condition -/

/-- The first class of the table that has the field. -/
def firstOwner (classes : ClassFields) (member : Name) : Option (Name × List Name) :=
  classes.find? fun c => member ∈ c.2

namespace Site

/-- An assignment to the field with index `i` of an object that is taken to be of the class. -/
def records (c : Name) (i : ℕ) (s : Site classes) : Bool :=
  s.use = .assign && setter s.env s.object s.member = none && s.objectType = .ptr &&
    objClassName s.env s.object = c && c ≠ [] && findFieldIndex classes s.member = some i

/-- The type of the first such assignment. -/
def firstType (before : List (Site classes)) (c : Name) (i : ℕ) : Option LTy :=
  (before.find? (records c i)).map (Site.type fieldType)

/-- A site is compiled as it should be: `o.f` is not taken for something else, `o` is a pointer, the first class
that has the field has it where the class of `o` has it; an assignment is no target behind the first, and its
value no closure; and before a read, the first assignment to that field of the first class has had the type
that the field has in the class of `o`. -/
structure Agrees (before : List (Site classes)) (s : Site classes) : Prop where
  read : s.use = .read → otherMember s.env s.object s.member = none
  assign : s.use = .assign → setter s.env s.object s.member = none ∧ s.type fieldType ≠ .closure
  target : s.use ≠ .extraTarget
  pointer : s.objectType = .ptr
  index : ∀ c ∈ firstOwner classes s.member, c.2.idxOf s.member = s.index
  type : s.use = .read → ∀ c ∈ firstOwner classes s.member,
    resultType (firstType fieldType before c.1 (c.2.idxOf s.member)) = s.type fieldType

end Site

/-! ## The tables -/

section Tables

variable {types : FieldTypes} {c c' : Name} {i j : ℕ} {t : LTy} {member : Name}

theorem findField_eq (classes : ClassFields) (member : Name) :
    findField classes member = (firstOwner classes member).map fun c => (c.1, c.2.idxOf member) := by
  induction classes with
  | nil => rfl
  | cons c classes ih =>
    obtain ⟨name, fields⟩ := c
    by_cases hmem : member ∈ fields
    · simp [findField, firstOwner, hmem]
    · simp only [findField, if_neg hmem, ih]
      simp [firstOwner, hmem]

/-- A field of some class is found. -/
theorem firstOwner_of_mem {own : Name × List Name} (hown : own ∈ classes) (hmem : member ∈ own.2) :
    ∃ c, firstOwner classes member = some c := by
  cases h : firstOwner classes member with
  | some c => exact ⟨c, rfl⟩
  | none =>
    have := List.find?_eq_none.mp h own hown
    simp [hmem] at this

/-- Resizing adds no type. -/
theorem padded_get (ts : List (Option LTy)) (n : ℕ) :
    (ts ++ List.replicate n none)[j]?.join = ts[j]?.join := by
  by_cases hj : j < ts.length
  · rw [List.getElem?_append_left hj]
  · rw [List.getElem?_append_right (by omega), List.getElem?_eq_none (l := ts) (by omega),
      List.getElem?_replicate]
    split_ifs <;> rfl

/-- The first type is kept, and the others stay as they are. -/
theorem recordType_get :
    (recordType types c i t c')[j]?.join =
      if c' = c ∧ j = i ∧ (types c)[i]?.join = none then some t else (types c')[j]?.join := by
  rw [recordType]
  by_cases hc : c' = c
  · subst hc
    rw [Function.update_self]
    dsimp only
    rw [padded_get]
    by_cases hnone : (types c')[i]?.join = none
    · rw [if_pos hnone]
      by_cases hj : j = i
      · subst hj
        rw [List.getElem?_set_self (by simp; omega), if_pos ⟨rfl, rfl, hnone⟩]
        rfl
      · rw [List.getElem?_set_ne (Ne.symm hj), padded_get, if_neg fun h => hj h.2.1]
    · rw [if_neg hnone, padded_get, if_neg fun h => hnone h.2.2]
  · rw [Function.update_of_ne hc, if_neg fun h => hc h.1]

end Tables

/-! ## The types that are known -/

section Types

variable {fieldType} {before after sites : List (Site classes)} {s : Site classes} {c : Name} {i : ℕ}

theorem typesAfter_concat :
    typesAfter fieldType (before ++ [s]) = (s.emit fieldType (typesAfter fieldType before)).2 := by
  rw [typesAfter, List.foldl_append]
  rfl

/-- A site changes the types of the fields when it is an assignment that records its type. -/
theorem emit_types_get (types : FieldTypes) :
    ((s.emit fieldType types).2 c)[i]?.join =
      if s.records c i ∧ (types c)[i]?.join = none then some (s.type fieldType) else (types c)[i]?.join := by
  have hkeep (h : ¬ s.records c i) (h' : (s.emit fieldType types).2 = types) :
      ((s.emit fieldType types).2 c)[i]?.join =
        if s.records c i ∧ (types c)[i]?.join = none then some (s.type fieldType) else (types c)[i]?.join := by
    rw [h', if_neg fun hr => h hr.1]
  by_cases huse : s.use = .assign
  · have hemit : s.emit fieldType types =
        codegenMemberAssign s.env classes types s.object s.objectType s.member (s.type fieldType) := by
      rw [Site.emit, huse]
    cases hset : setter s.env s.object s.member with
    | some e => exact hkeep (by simp [Site.records, hset]) (by rw [hemit, codegenMemberAssign, hset])
    | none =>
      cases hindex : findFieldIndex classes s.member with
      | none => exact hkeep (by simp [Site.records, hindex]) (by rw [hemit, codegenMemberAssign, hset, hindex])
      | some k =>
        by_cases hptr : s.objectType = .ptr
        · by_cases hcls : objClassName s.env s.object = []
          · refine hkeep ?_ ?_
            · intro hr
              simp only [Site.records, Bool.and_eq_true, decide_eq_true_eq] at hr
              exact hr.1.2 (hr.1.1.2 ▸ hcls)
            · simp [hemit, codegenMemberAssign, hset, hindex, hptr, hcls]
          · have htypes : (s.emit fieldType types).2 =
                recordType types (objClassName s.env s.object) k (s.type fieldType) := by
              simp [hemit, codegenMemberAssign, hset, hindex, hptr, hcls]
            rw [htypes, recordType_get]
            by_cases hc : c = objClassName s.env s.object
            · subst hc
              by_cases hi : i = k
              · subst hi
                simp [Site.records, huse, hset, hptr, hcls, hindex]
              · simp [Site.records, hindex, hi, Ne.symm hi]
            · rw [if_neg fun h => hc h.1, if_neg]
              intro h
              simp only [Site.records, Bool.and_eq_true, decide_eq_true_eq] at h
              exact hc h.1.1.1.2.symm
        · exact hkeep (by simp [Site.records, hptr]) (by simp [hemit, codegenMemberAssign, hset, hindex, hptr])
  · refine hkeep (by simp [Site.records, huse]) ?_
    rw [Site.emit]
    cases hu : s.use with
    | assign => exact absurd hu huse
    | _ => rfl

/-- The type that is known of a field is that of the first assignment to it. -/
theorem typesAfter_get :
    (typesAfter fieldType before c)[i]?.join = Site.firstType fieldType before c i := by
  induction before using List.reverseRecOn with
  | nil => rfl
  | append_singleton before s ih =>
    rw [typesAfter_concat, emit_types_get, ih, Site.firstType, Site.firstType, List.find?_append]
    cases hfind : before.find? (Site.records c i) with
    | some s' => simp
    | none => by_cases hr : s.records c i = true <;> simp [hr]

/-- A read is of the type of the first assignment. -/
theorem lookupFieldType_typesAfter (s : Site classes) {own : Name × List Name}
    (hown : firstOwner classes s.member = some own) :
    lookupFieldType classes (typesAfter fieldType before) s.member =
      Site.firstType fieldType before own.1 (own.2.idxOf s.member) := by
  rw [lookupFieldType, findField_eq, hown]
  exact typesAfter_get

end Types

/-! ## One site -/

section OneSite

variable {fieldType} {before : List (Site classes)} {s : Site classes}

theorem getter_eq {E : Env} {cls member self : Name} {e : Emitted} (h : getter E cls member self = some e) :
    e = .call (memberKey cls member) := by
  rw [getter] at h
  split_ifs at h
  exact (Option.some.inj h).symm

/-- What is not taken for a field is no access to a slot. -/
theorem otherMember_ne_load {E : Env} {object : Expr} {member : Name} {e : Emitted} {i : ℕ} {t : LTy}
    (h : otherMember E object member = some e) : e ≠ .load i t := by
  intro he
  subst he
  unfold otherMember at h
  split at h
  · split_ifs at h
    · cases h
    · cases h
    · cases h
    · split at h
      · cases getter_eq h
      · cases h
  · cases getter_eq h
  · cases h

theorem setter_ne_store {E : Env} {object : Expr} {member : Name} {e : Emitted} {i : ℕ}
    (h : setter E object member = some e) : e ≠ .store i := by
  intro he
  subst he
  rw [setter] at h
  split_ifs at h
  cases h

theorem findFieldIndex_of_owner {own : Name × List Name} (hown : firstOwner classes s.member = some own) :
    findFieldIndex classes s.member = some (own.2.idxOf s.member) := by
  rw [findFieldIndex, findField_eq, hown]
  rfl

theorem forall_owner {own : Name × List Name} (hown : firstOwner classes s.member = some own)
    {P : Name × List Name → Prop} (h : P own) : ∀ c ∈ firstOwner classes s.member, P c := by
  intro c hc
  rw [hown] at hc
  cases hc
  exact h

theorem emit_read_iff {own : Name × List Name} (hown : firstOwner classes s.member = some own)
    (huse : s.use = .read) :
    (s.emit fieldType (typesAfter fieldType before)).1 = s.right fieldType ↔ s.Agrees fieldType before := by
  have hemit : (s.emit fieldType (typesAfter fieldType before)).1 =
      codegenMemberExpr s.env classes (typesAfter fieldType before) s.object s.objectType s.member := by
    rw [Site.emit, huse]
  have hright : s.right fieldType = .load s.index (s.type fieldType) := by
    rw [Site.right, huse]
  rw [hemit, hright, codegenMemberExpr, lookupFieldType_typesAfter s hown, findFieldIndex_of_owner hown]
  constructor
  · intro h
    cases hother : otherMember s.env s.object s.member with
    | some e =>
      rw [hother] at h
      exact absurd h (otherMember_ne_load hother)
    | none =>
      rw [hother] at h
      by_cases hptr : s.objectType = .ptr
      · simp only [if_pos hptr, Emitted.load.injEq] at h
        exact ⟨fun _ => hother, fun ha => absurd (huse.symm.trans ha) (by decide),
          by simp [huse], hptr, forall_owner hown h.1, fun _ => forall_owner hown h.2⟩
      · simp only [if_neg hptr] at h
        cases h
  · intro h
    rw [h.read huse, ← h.index own hown, ← h.type huse own hown]
    simp only [if_pos h.pointer]

theorem emit_assign_iff {own : Name × List Name} (hown : firstOwner classes s.member = some own)
    (huse : s.use = .assign) :
    (s.emit fieldType (typesAfter fieldType before)).1 = s.right fieldType ↔ s.Agrees fieldType before := by
  have hemit : s.emit fieldType (typesAfter fieldType before) = codegenMemberAssign s.env classes
      (typesAfter fieldType before) s.object s.objectType s.member (s.type fieldType) := by
    rw [Site.emit, huse]
  have hright : s.right fieldType = .store s.index := by
    rw [Site.right, huse]
  rw [hemit, hright, codegenMemberAssign, findFieldIndex_of_owner hown]
  constructor
  · intro h
    cases hset : setter s.env s.object s.member with
    | some e =>
      rw [hset] at h
      exact absurd h (setter_ne_store hset)
    | none =>
      rw [hset] at h
      by_cases hptr : s.objectType = .ptr
      · by_cases hclosure : s.type fieldType = .closure
        · simp only [if_pos hptr, if_pos hclosure] at h
          cases h
        · simp only [if_pos hptr, if_neg hclosure, Emitted.store.injEq] at h
          exact ⟨fun ha => absurd (huse.symm.trans ha) (by decide), fun _ => ⟨hset, hclosure⟩,
            by simp [huse], hptr, forall_owner hown h, fun ha => absurd (huse.symm.trans ha) (by decide)⟩
      · simp only [if_neg hptr] at h
        cases h
  · intro h
    obtain ⟨hset, hclosure⟩ := h.assign huse
    rw [hset, ← h.index own hown]
    simp only [if_pos h.pointer, if_neg hclosure]

theorem emit_del_iff {own : Name × List Name} (hown : firstOwner classes s.member = some own)
    (huse : s.use = .del) :
    (s.emit fieldType (typesAfter fieldType before)).1 = s.right fieldType ↔ s.Agrees fieldType before := by
  have hemit : (s.emit fieldType (typesAfter fieldType before)).1 =
      codegenMemberDel classes s.objectType s.member := by
    rw [Site.emit, huse]
  have hright : s.right fieldType = .clear s.index := by
    rw [Site.right, huse]
  rw [hemit, hright, codegenMemberDel, findFieldIndex_of_owner hown]
  constructor
  · intro h
    by_cases hptr : s.objectType = .ptr
    · simp only [if_pos hptr, Emitted.clear.injEq] at h
      exact ⟨fun ha => absurd (huse.symm.trans ha) (by decide),
        fun ha => absurd (huse.symm.trans ha) (by decide), by simp [huse], hptr, forall_owner hown h,
        fun ha => absurd (huse.symm.trans ha) (by decide)⟩
    · simp only [if_neg hptr] at h
      cases h
  · intro h
    rw [← h.index own hown]
    simp only [if_pos h.pointer]

/-- A site is compiled to the access to the slot of its object's class exactly when it is compiled as it should
be. -/
theorem emit_right_iff :
    (s.emit fieldType (typesAfter fieldType before)).1 = s.right fieldType ↔ s.Agrees fieldType before := by
  obtain ⟨own, hown⟩ := firstOwner_of_mem s.own_mem s.member_mem
  cases huse : s.use with
  | read => exact emit_read_iff hown huse
  | assign => exact emit_assign_iff hown huse
  | extraTarget =>
    rw [Site.emit, Site.right, huse]
    constructor
    · intro h
      cases h
    · intro h
      exact absurd huse h.target
  | del => exact emit_del_iff hown huse

end OneSite

/-! ## All the sites -/

section Sites

variable {fieldType} {sites : List (Site classes)}

/-- The code of a program is right when it is right for each site behind those before it. -/
theorem emitAll_right_iff (before : List (Site classes)) :
    emitAll fieldType (typesAfter fieldType before) sites = sites.map (Site.right fieldType) ↔
      ∀ left s right, sites = left ++ s :: right → s.Agrees fieldType (before ++ left) := by
  induction sites generalizing before with
  | nil =>
    constructor
    · intro _ left s right h
      simp at h
    · intro _
      rfl
  | cons s sites ih =>
    rw [emitAll, List.map_cons, List.cons.injEq, ← typesAfter_concat, ih, emit_right_iff]
    constructor
    · intro ⟨hs, hsites⟩ left s' right h
      cases left with
      | nil =>
        cases h
        rwa [List.append_nil]
      | cons l left =>
        cases h
        have := hsites left s' right rfl
        rwa [List.append_assoc] at this
    · intro h
      refine ⟨?_, ?_⟩
      · have := h [] s sites rfl
        rwa [List.append_nil] at this
      · intro left s' right hsites
        rw [List.append_assoc]
        exact h (s :: left) s' right (by rw [hsites]; rfl)

end Sites

/-! ## Runs of the right code -/

section Runs

variable {fieldType} {cls} {sites : List (Site classes)} {blocks : Blocks} {F : Contents} {e : Event}
  {o : ℕ} {f : Name} {w : Word}

/-- A field is stored in its slot, and the others stay where they are. -/
theorem Represents.set (h : Represents fieldType cls blocks F) (hf : f ∈ (cls o).2) :
    Represents fieldType cls (Function.update blocks o ((blocks o).set ((cls o).2.idxOf f) w))
      (F.set o f (ofI64 (fieldType (cls o).1 f) w)) where
  length := by
    intro o'
    by_cases ho : o' = o
    · subst ho
      rw [Function.update_self, List.length_set, h.length]
    · rw [Function.update_of_ne ho, h.length]
  slot := by
    intro o' g hg
    by_cases ho : o' = o
    · subst ho
      have hlt : (cls o').2.idxOf f < (blocks o').length := by
        rw [h.length]
        exact List.idxOf_lt_length_of_mem hf
      rw [Function.update_self, Contents.set, Function.update_self]
      by_cases hfg : g = f
      · subst hfg
        rw [List.getElem?_set_self hlt, Function.update_self]
        rfl
      · have hne : (cls o').2.idxOf f ≠ (cls o').2.idxOf g :=
          fun heq => hfg ((List.idxOf_inj hg).mp heq.symm)
        rw [List.getElem?_set_ne hne, Function.update_of_ne hfg]
        exact h.slot o' g hg
    · rw [Function.update_of_ne ho, Contents.set, Function.update_of_ne ho]
      exact h.slot o' g hg

/-- One event of right code does to the slots what the site does to the fields. -/
theorem step_represents (hsites : ∀ s ∈ sites, s.use ≠ .extraTarget ∧ (s.use = .assign → s.type fieldType ≠ .closure))
    (h : Represents fieldType cls blocks F) (he : e.Typed fieldType cls sites) :
    ∃ blocks', step (sites.map (Site.right fieldType)) blocks e = some (blocks', (fieldStep fieldType sites F e).2) ∧
      Represents fieldType cls blocks' (fieldStep fieldType sites F e).1 := by
  obtain ⟨s, hs, hcls, htype⟩ := he
  obtain ⟨htarget, hclosure⟩ := hsites s (List.mem_of_getElem? hs)
  have hmem : s.member ∈ (cls e.object).2 := by
    rw [hcls]
    exact s.member_mem
  have hindex : s.index = (cls e.object).2.idxOf s.member := by
    rw [hcls]
    rfl
  have hfield : s.type fieldType = fieldType (cls e.object).1 s.member := by
    rw [hcls]
    rfl
  have hlt : s.index < (blocks e.object).length := by
    rw [h.length, hindex]
    exact List.idxOf_lt_length_of_mem hmem
  have hcode : (sites.map (Site.right fieldType))[e.site]? = some (s.right fieldType) := by
    rw [List.getElem?_map, hs]
    rfl
  rw [step, hcode]
  cases huse : s.use with
  | read =>
    have hstep : fieldStep fieldType sites F e = (F, some (F e.object s.member)) := by
      simp only [fieldStep, hs, huse]
    rw [hstep]
    refine ⟨blocks, ?_, h⟩
    obtain ⟨w, hw, hslot⟩ := Option.map_eq_some_iff.mp (h.slot e.object s.member hmem)
    simp only [Site.right, huse, hindex, hw, hfield, Option.map_some, hslot]
  | assign =>
    have hstep : fieldStep fieldType sites F e = (F.set e.object s.member e.value, none) := by
      simp only [fieldStep, hs, huse]
    rw [hstep]
    obtain ⟨w, hw⟩ := coerceToI64_isSome (v := e.value) (by rw [htype]; exact hclosure huse)
    refine ⟨Function.update blocks e.object ((blocks e.object).set s.index w), ?_, ?_⟩
    · simp only [Site.right, huse, if_pos hlt, hw, Option.map_some]
    · have hvalue := ofI64_coerceToI64 hw
      rw [htype, hfield] at hvalue
      rw [hindex, ← hvalue]
      exact h.set hmem
  | extraTarget => exact absurd huse htarget
  | del =>
    have hstep : fieldStep fieldType sites F e =
        (F.set e.object s.member (ofI64 (s.type fieldType) 0), none) := by
      simp only [fieldStep, hs, huse]
    rw [hstep]
    refine ⟨Function.update blocks e.object ((blocks e.object).set s.index 0), ?_, ?_⟩
    · simp only [Site.right, huse, if_pos hlt]
    · rw [hindex, hfield]
      exact h.set hmem

/-- A run of right code reads in every field what was stored there last. -/
theorem run_represents (hsites : ∀ s ∈ sites, s.use ≠ .extraTarget ∧ (s.use = .assign → s.type fieldType ≠ .closure)) :
    ∀ {events : List Event} {blocks : Blocks} {F : Contents}, Represents fieldType cls blocks F →
      (∀ e ∈ events, e.Typed fieldType cls sites) →
      ∃ blocks', run (sites.map (Site.right fieldType)) blocks events =
          some (blocks', (fieldRun fieldType sites F events).2) ∧
        Represents fieldType cls blocks' (fieldRun fieldType sites F events).1 := by
  intro events
  induction events with
  | nil =>
    intro blocks F h _
    exact ⟨blocks, rfl, h⟩
  | cons e events ih =>
    intro blocks F h he
    obtain ⟨blocks₁, hstep, h₁⟩ := step_represents hsites h (he e List.mem_cons_self)
    obtain ⟨blocks₂, hrun, h₂⟩ := ih h₁ fun e' he' => he e' (List.mem_cons_of_mem _ he')
    refine ⟨blocks₂, ?_, h₂⟩
    rw [run, hstep]
    show (run (sites.map (Site.right fieldType)) blocks₁ events >>= fun p => _) = _
    rw [hrun]
    rfl

end Runs

/-! ## When field access is class-correct -/

/-- **Exactly when fields are accessed in their own class.**  For every table of classes, types of their fields
and program: every site accesses the slot of its object's class, and every run reads what was stored last,
exactly when every site is compiled as it should be behind those before it. -/
theorem classCorrect_iff (sites : List (Site classes)) :
    ClassCorrect fieldType sites ↔
      ∀ before s after, sites = before ++ s :: after → s.Agrees fieldType before := by
  constructor
  · intro h
    exact (emitAll_right_iff []).mp h.emitted
  · intro h
    have hemitted : emitAll fieldType (fun _ => []) sites = sites.map (Site.right fieldType) :=
      (emitAll_right_iff []).mpr h
    refine ⟨hemitted, ?_⟩
    intro cls blocks F events hrepresents htyped
    rw [hemitted]
    refine run_represents (fun s hs => ?_) hrepresents htyped
    obtain ⟨before, after, hsplit⟩ := List.append_of_mem hs
    have hagrees := h before s after hsplit
    exact ⟨hagrees.target, fun huse => (hagrees.assign huse).2⟩

/-- The members of `Codegen` in a program without enumerations, modules and properties. -/
def plain (currentClassName : Name) : Env where
  enumNames := fun _ => false
  globals := fun _ => false
  modules := fun _ => false
  runtimeFunctions := fun _ _ => false
  varClass := fun _ => none
  classProperties := fun _ => false
  classSetters := fun _ => false
  functions := fun _ => false
  declared := fun _ => false
  currentClassName := currentClassName

/-- The fields of `class A` are `x` and `y`, that of `class B` is `y`. -/
def twoClasses : ClassFields :=
  [("A".toList, ["x".toList, "y".toList]), ("B".toList, ["y".toList])]

/-- `this.y = 1` in `init` of `class B`. -/
def assignY : Site twoClasses where
  env := plain "B".toList
  object := .thisExpr
  objectType := .ptr
  own := ("B".toList, ["y".toList])
  own_mem := by decide
  member := "y".toList
  member_mem := by decide
  use := .assign

/-- The only field of a `B` is stored behind its block. -/
theorem field_of_other_class : ¬ ClassCorrect (fun _ _ => .i64) [assignY] := by
  intro h
  have := h.emitted
  revert this
  decide

end Visuall.Codegen.Fields
