import Mathlib
import Visuall.Syntax.Ast

/-!
# The class analyzer

`src/class_analyzer.cpp`: the walk over the class definitions of a program that gives each class the list of its
fields, those of the base class first.

* `collectFields` — the walk over a class body, and `blockFields`, the fields that a block assigns;
* `collectClasses` — the maps of the first pass;
* `processClass`, `analyze` — the second pass, in the order in which a hash map is gone through.
-/

namespace Visuall.Classes

open Visuall.Ast

/-- The field of a target `this.field`, also where `this` or `self` is an identifier. -/
def thisField : Expr → Option Name
  | .memberExpr .thisExpr field => some field
  | .memberExpr (.identifier id) field =>
    if id.name = "this".toList ∨ id.name = "self".toList then some field else none
  | _ => none

/-- `addField`, on the list of the class. -/
def addField (fields : List Name) (fieldName : Name) : List Name :=
  if fieldName ∈ fields then fields else fields ++ [fieldName]

/-- Several fields, one after another. -/
def addFields (fields names : List Name) : List Name := names.foldl addField fields

mutual

/-- `collectFieldsFromStmt`, on the list of the class. -/
def collectFieldsFromStmt : List Name → Stmt → List Name
  | fields, .initDef _ body => collectFields fields body
  | fields, .funcDef _ body => collectFields fields body
  | fields, .assignStmt target _ _ _ _ => addFields fields (thisField target).toList
  | fields, .ifStmt _ thenBranch elsifBranches elseBranch =>
    collectFields (collectElsifs (collectFields fields thenBranch) elsifBranches) elseBranch
  | fields, .forStmt _ _ _ body _ => collectFields fields body
  | fields, .whileStmt _ body _ => collectFields fields body
  | fields, .tryStmt tryBody catchClauses finallyBody =>
    collectFields (collectCatches (collectFields fields tryBody) catchClauses) finallyBody
  | fields, _ => fields

/-- `collectFields`. -/
def collectFields : List Name → List Stmt → List Name
  | fields, [] => fields
  | fields, s :: stmts => collectFields (collectFieldsFromStmt fields s) stmts

def collectElsifs : List Name → List (Expr × List Stmt) → List Name
  | fields, [] => fields
  | fields, (_, body) :: branches => collectElsifs (collectFields fields body) branches

def collectCatches : List Name → List (Name × Name × List Stmt) → List Name
  | fields, [] => fields
  | fields, (_, _, body) :: clauses => collectCatches (collectFields fields body) clauses

end

/-! ### The fields that a statement assigns -/

mutual

/-- The fields that a statement assigns through `this`.  With `everywhere` these are all of them; without, those
further along a chain of targets, in the `else` of a loop, in a `with` and in a `match` are left out. -/
def stmtFields (everywhere : Bool) : Stmt → List Name
  | .initDef _ body => blockFields everywhere body
  | .funcDef _ body => blockFields everywhere body
  | .assignStmt target _ extraTargets _ _ =>
    (thisField target).toList ++ if everywhere then extraTargets.filterMap thisField else []
  | .ifStmt _ thenBranch elsifBranches elseBranch =>
    blockFields everywhere thenBranch ++
      (elsifFields everywhere elsifBranches ++ blockFields everywhere elseBranch)
  | .forStmt _ _ _ body elseBranch =>
    blockFields everywhere body ++ if everywhere then blockFields everywhere elseBranch else []
  | .whileStmt _ body elseBranch =>
    blockFields everywhere body ++ if everywhere then blockFields everywhere elseBranch else []
  | .withStmt _ _ body => if everywhere then blockFields everywhere body else []
  | .tryStmt tryBody catchClauses finallyBody =>
    blockFields everywhere tryBody ++
      (catchFields everywhere catchClauses ++ blockFields everywhere finallyBody)
  | .matchStmt _ cases => if everywhere then caseFields everywhere cases else []
  | .exprStmt _ | .constStmt _ _ _ | .tupleUnpackStmt _ _ | .returnStmt _ | .breakStmt | .continueStmt | .passStmt
  | .classDef _ _ | .throwStmt _ | .assertStmt _ _ | .delStmt _ | .importStmt _ | .fromImportStmt _ _
  | .interfaceDef _ _ | .enumDef _ _ | .yieldStmt _ | .chanSendStmt _ _ => []

def blockFields (everywhere : Bool) : List Stmt → List Name
  | [] => []
  | s :: stmts => stmtFields everywhere s ++ blockFields everywhere stmts

def elsifFields (everywhere : Bool) : List (Expr × List Stmt) → List Name
  | [] => []
  | (_, body) :: branches => blockFields everywhere body ++ elsifFields everywhere branches

def catchFields (everywhere : Bool) : List (Name × Name × List Stmt) → List Name
  | [] => []
  | (_, _, body) :: clauses => blockFields everywhere body ++ catchFields everywhere clauses

def caseFields (everywhere : Bool) : List (Option Expr × Option Expr × List Stmt) → List Name
  | [] => []
  | (_, _, body) :: cases => blockFields everywhere body ++ caseFields everywhere cases

end

/-! ### The first pass -/

/-- `classDefs` and `baseClasses_`. -/
structure ClassMaps where
  classDefs : Name → Option (ClassHeader × List Stmt) := fun _ => none
  baseClasses : Name → Option Name := fun _ => none

/-- The maps behind one more statement of the top level. -/
def ClassMaps.enter (maps : ClassMaps) : Stmt → ClassMaps
  | .classDef h body => {
      classDefs := Function.update maps.classDefs h.name (some (h, body))
      baseClasses := match h.baseClass with
        | none => maps.baseClasses
        | some base => Function.update maps.baseClasses h.name (some base) }
  | _ => maps

def collectClasses (program : List Stmt) : ClassMaps := program.foldl ClassMaps.enter {}

/-- The keys of `classDefs` in the order in which the hash map is gone through. -/
structure HashOrder (maps : ClassMaps) where
  names : List Name
  nodup : names.Nodup
  mem_iff : ∀ name, name ∈ names ↔ (maps.classDefs name).isSome

/-! ### The second pass -/

/-- `classFields_` and `processed`; a class without an entry has no fields. -/
structure ClassAnalyzer where
  classFields : Name → List Name := fun _ => []
  processed : List Name := []

namespace ClassAnalyzer

/-- The list of one class in place of what it was. -/
def setFields (A : ClassAnalyzer) (name : Name) (fields : List Name) : ClassAnalyzer :=
  { A with classFields := Function.update A.classFields name fields }

/-- The fields of the base class, without duplicates. -/
def inherit (A : ClassAnalyzer) (name baseName : Name) : ClassAnalyzer :=
  A.setFields name (addFields (A.classFields name) (A.classFields baseName))

/-- The end of `processClass`. -/
def collect (A : ClassAnalyzer) (maps : ClassMaps) (name : Name) : ClassAnalyzer :=
  match maps.classDefs name with
  | none => A
  | some (_, body) => A.setFields name (collectFields (A.classFields name) body)

end ClassAnalyzer

variable {maps : ClassMaps}

/-- Processing a class leaves fewer to process. -/
theorem unprocessed_lt {names processed : List Name} {name : Name} (hname : name ∈ names)
    (hnew : name ∉ processed) :
    (names.filter (· ∉ name :: processed)).length < (names.filter (· ∉ processed)).length := by
  have hsplit : names.filter (· ∉ name :: processed) = (names.filter (· ∉ processed)).filter (· ≠ name) := by
    rw [List.filter_filter]
    refine List.filter_congr fun x _ => ?_
    simp only [List.mem_cons, not_or, ne_eq, Bool.decide_and]
  rw [hsplit, List.length_filter_lt_length_iff_exists]
  exact ⟨name, List.mem_filter.mpr ⟨hname, by simpa using hnew⟩, by simp⟩

/-- `processClass`. -/
def processClass (order : HashOrder maps) (name : Name) (hname : name ∈ order.names) (A : ClassAnalyzer) :
    ClassAnalyzer :=
  if hdone : name ∈ A.processed then A
  else
    let A' : ClassAnalyzer := { A with processed := name :: A.processed }
    let A' := match maps.baseClasses name with
      | none => A'
      | some baseName =>
        (if hbase : baseName ∈ order.names then processClass order baseName hbase A' else A').inherit name baseName
    A'.collect maps name
termination_by (order.names.filter (· ∉ A.processed)).length
decreasing_by exact unprocessed_lt hname hdone

/-- `analyze`. -/
def analyze (program : List Stmt) (order : HashOrder (collectClasses program)) : ClassAnalyzer :=
  order.names.attach.foldl (fun A name => processClass order name.1 name.2 A) {}

end Visuall.Classes
