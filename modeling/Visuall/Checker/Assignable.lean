import Visuall.Syntax.Ast
import Visuall.Types.Resolve

/-!
# Types against each other

The part of `typechecker.cpp` that compares types: `typeEquals`, `isSubtype`, `isAssignableTo` and
`classImplementsInterface`, over the tables that the first pass of `check` fills.

* `Tables` — what is known of the declared classes, interfaces and functions;
* `isAssignableTo` — `none` where a walk over the base classes never ends.
-/

namespace Visuall.Checker

open Visuall.Ast Visuall.Types

/-! ## Types -/

/-- `TypeNode::Kind`. -/
inductive Kind
  | int | float | str | bool | void | null | list | dict | tuple | func | cls | unknown
  | union | interface | typeVar | chan
  deriving DecidableEq, Repr

def kind : Ty → Kind
  | .int => .int
  | .float => .float
  | .str => .str
  | .bool => .bool
  | .void => .void
  | .null => .null
  | .unknown => .unknown
  | .list _ => .list
  | .dict _ _ => .dict
  | .tuple _ => .tuple
  | .func _ _ _ => .func
  | .cls _ => .cls
  | .interface _ => .interface
  | .typeVar _ => .typeVar
  | .union _ => .union
  | .chan _ => .chan

/-- `isUnknown`. -/
def isUnknown (t : Ty) : Bool := kind t = .unknown

/-- `isNumeric`. -/
def isNumeric (t : Ty) : Bool := kind t = .int || kind t = .float

mutual

/-- `typeEquals`. -/
def typeEquals : Ty → Ty → Bool
  | .list a, .list b => typeEquals a b
  | .dict k v, .dict k' v' => typeEquals k k' && typeEquals v v'
  | .tuple as, .tuple bs => typesEqual as bs
  | .func n r ps, .func n' r' ps' => n = n' && typeEquals r r' && typesEqual ps ps'
  | .cls n, .cls n' => n = n'
  | .interface n, .interface n' => n = n'
  | .typeVar n, .typeVar n' => n = n'
  | .union as, .union bs => typesEqual as bs
  | .chan a, .chan b => typeEquals a b
  | .int, b => kind b = .int
  | .float, b => kind b = .float
  | .str, b => kind b = .str
  | .bool, b => kind b = .bool
  | .void, b => kind b = .void
  | .null, b => kind b = .null
  | .unknown, b => kind b = .unknown
  | _, _ => false

/-- `typeEquals` on lists of the same length. -/
def typesEqual : List Ty → List Ty → Bool
  | [], [] => true
  | a :: as, b :: bs => typeEquals a b && typesEqual as bs
  | _, _ => false

end

mutual

/-- `typeEquals` tells whether two types are the same. -/
theorem typeEquals_iff : ∀ a b : Ty, typeEquals a b = true ↔ a = b
  | .int, b | .float, b | .str, b | .bool, b | .void, b | .null, b | .unknown, b => by
    cases b <;> simp [typeEquals, kind]
  | .list a, b => by
    cases b <;> simp [typeEquals, typeEquals_iff a]
  | .dict k v, b => by
    cases b <;> simp [typeEquals, typeEquals_iff k, typeEquals_iff v]
  | .tuple as, b => by
    cases b <;> simp [typeEquals, typesEqual_iff as]
  | .func n r ps, b => by
    cases b <;> simp [typeEquals, typeEquals_iff r, typesEqual_iff ps, and_assoc]
  | .cls n, b => by
    cases b <;> simp [typeEquals]
  | .interface n, b => by
    cases b <;> simp [typeEquals]
  | .typeVar n, b => by
    cases b <;> simp [typeEquals]
  | .union as, b => by
    cases b <;> simp [typeEquals, typesEqual_iff as]
  | .chan a, b => by
    cases b <;> simp [typeEquals, typeEquals_iff a]

theorem typesEqual_iff : ∀ as bs : List Ty, typesEqual as bs = true ↔ as = bs
  | [], bs => by
    cases bs <;> simp [typesEqual]
  | a :: as, bs => by
    cases bs <;> simp [typesEqual, typeEquals_iff a, typesEqual_iff as]

end

mutual

/-- `TypeNode::toString`. -/
def toText : Ty → List Char
  | .int => intName
  | .float => floatName
  | .str => strName
  | .bool => boolName
  | .void => voidName
  | .null => nullName
  | .unknown => "unknown".toList
  | .list elem => "list[".toList ++ toText elem ++ "]".toList
  | .dict key value => "dict[".toList ++ toText key ++ ", ".toList ++ toText value ++ "]".toList
  | .tuple elems => "tuple[".toList ++ ", ".toList.intercalate (toTexts elems) ++ "]".toList
  | .func name ret params =>
      "func ".toList ++ name ++ "(".toList ++ ", ".toList.intercalate (toTexts params) ++
        ") -> ".toList ++ toText ret
  | .cls name => name
  | .interface name => name
  | .typeVar name => name
  | .union members => " | ".toList.intercalate (toTexts members)
  | .chan elem => "chan[".toList ++ toText elem ++ "]".toList

/-- The texts of several types. -/
def toTexts : List Ty → List (List Char)
  | [] => []
  | t :: ts => toText t :: toTexts ts

end

/-- `promoteNumeric`. -/
def promoteNumeric (a b : Ty) : Ty := if kind a = .float || kind b = .float then .float else .int

/-! ## What is declared -/

/-- `MethodInfo`. -/
structure MethodInfo where
  name : Name
  returnType : Ty
  paramTypes : List Ty

/-- What is read of a `ClassInfo`; without a base class `baseClass` is empty. -/
structure ClassInfo where
  baseClass : Name
  extraBases : List Name
  interfaces : List Name
  methods : List MethodInfo

/-- The tables that the first pass fills.  An entry hides the ones behind it with the same key. -/
structure Tables where
  classTable : List (Name × ClassInfo) := []
  interfaceTable : List (Name × List MethodInfo) := []
  funcTypeParams : List (Name × List Name) := []
  funcBounds : List (Name × Name) := []
  funcMinArgs : List (Name × ℕ) := []

namespace Tables

variable (T : Tables)

/-- The loop of `isSubtype` up the base classes.  Each turn finds another class in the table, unless
the classes go round in a circle: then the loop never ends. -/
def extendsClass (super : Name) : ℕ → Name → Option Bool
  | 0, _ => none
  | fuel + 1, current =>
      if current = [] then some false
      else if current = super then some true
      else
        match T.classTable.lookup current with
        | none => some false
        | some info => extendsClass super fuel info.baseClass

/-- `isSubtype`. -/
def isSubtype (sub super : Ty) : Option Bool :=
  if typeEquals sub super then some true
  else
    match sub, super with
    | .cls name, .cls name' => T.extendsClass name' (T.classTable.length + 1) name
    | _, _ => some false

/-- `classImplementsInterface`, which goes up every base class; around a circle it never ends. -/
def implementsInterface (iface : Name) : ℕ → Name → Option Bool
  | 0, _ => none
  | fuel + 1, cls =>
      match T.classTable.lookup cls with
      | none => some false
      | some info =>
          if iface ∈ info.interfaces then some true
          else
            ((if info.baseClass = [] then [] else [info.baseClass]) ++ info.extraBases).foldlM
              (fun found base => if found then some true else implementsInterface iface fuel base)
              false

/-- `classImplementsInterface`. -/
def classImplementsInterface (cls iface : Name) : Option Bool :=
  T.implementsInterface iface (T.classTable.length + 1) cls

/-- The parameter types of two functions, as `isAssignableTo` compares them. -/
def paramsAgree (as bs : List Ty) : Bool :=
  (as.zip bs).all fun p => isUnknown p.1 || isUnknown p.2 || typeEquals p.1 p.2

mutual

/-- `isAssignableTo(given, expected)`. -/
def isAssignableTo (given expected : Ty) : Option Bool :=
  if typeEquals given expected then some true
  else if isUnknown given || isUnknown expected then some true
  else if kind given = .null then some true
  else if kind given = .typeVar || kind expected = .typeVar then some true
  else if kind given = .int && kind expected = .float then some true
  else
    match given, expected with
    | given, .union members => isAssignableToAny given members
    | .cls name, .cls name' => T.isSubtype (.cls name) (.cls name')
    | .list elem, .list elem' =>
        if isUnknown elem' || isUnknown elem then some true else isAssignableTo elem elem'
    | .dict key value, .dict key' value' =>
        if isUnknown key' && isUnknown value' then some true
        else if isUnknown key && isUnknown value then some true
        else do
          if ← isAssignableTo key key' then isAssignableTo value value' else some false
    | .tuple elems, .tuple elems' =>
        if elems' = [] then some true
        else if elems.length ≠ elems'.length then some false
        else areAssignableTo elems elems'
    | .func _ _ params, .func _ _ params' =>
        if params.length ≠ params'.length then some false else some (paramsAgree params params')
    | .cls name, .interface name' => T.classImplementsInterface name name'
    | _, _ => some false

/-- Whether a type is assignable to a member of a union. -/
def isAssignableToAny (given : Ty) : List Ty → Option Bool
  | [] => some false
  | m :: ms => do
      if ← isAssignableTo given m then some true else isAssignableToAny given ms

/-- Whether the elements of a tuple are assignable one by one. -/
def areAssignableTo : List Ty → List Ty → Option Bool
  | given :: gs, expected :: es => do
      if isUnknown expected || isUnknown given then areAssignableTo gs es
      else if ← isAssignableTo given expected then areAssignableTo gs es
      else some false
  | _, _ => some true

end

end Tables

end Visuall.Checker
