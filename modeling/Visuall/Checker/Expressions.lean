import Visuall.Checker.State

/-!
# Checking expressions

The expression visitors of `typechecker.cpp`.  What a visitor does once its children are checked is a
function of its own; `checkExpr` goes through the children.
-/

namespace Visuall.Checker

open Visuall.Ast Visuall.Types

variable (T : Tables) (C : Context)

/-! ## What a node makes of its children -/

/-- An error, unless one of the two types is unknown. -/
def complain (lt rt : Ty) (e : TypeErr) : Check Ty := do
  onlyIf (!isUnknown lt && !isUnknown rt) (error e)
  return .unknown

/-- `visit(BinaryExpr)`, behind its operands. -/
def binaryResult (op : BinOp) (lt rt : Ty) : Check Ty :=
  match op with
  | .add =>
      if kind lt = .str && kind rt = .str then return .str
      else if isNumeric lt && isNumeric rt then return promoteNumeric lt rt
      else complain lt rt (.badAddition lt rt)
  | .sub | .mul | .div | .mod | .pow =>
      if isNumeric lt && isNumeric rt then return promoteNumeric lt rt
      else complain lt rt (.badArithmetic lt rt)
  | .intDiv =>
      if isNumeric lt && isNumeric rt then return .int
      else complain lt rt (.badFloorDivision lt rt)
  | .eq | .neq =>
      if isNumeric lt && isNumeric rt then return .bool
      else if kind lt = kind rt then return .bool
      else if kind lt = .null || kind rt = .null then return .bool
      else do
        let _ ← complain lt rt (.badComparison lt rt)
        return .bool
  | .lt | .gt | .lte | .gte =>
      if isNumeric lt && isNumeric rt then return .bool
      else if kind lt = .str && kind rt = .str then return .bool
      else do
        let _ ← complain lt rt (.badComparison lt rt)
        return .bool
  | .and | .or | .in | .notIn => return .bool
  | .bitAnd | .bitOr | .bitXor | .shl | .shr =>
      if (kind lt = .int || kind lt = .bool) && (kind rt = .int || kind rt = .bool) then return .int
      else if kind lt = .float || kind rt = .float then do
        error .bitwiseOnFloat
        return .unknown
      else complain lt rt (.badBitwise lt rt)
  | .nullCoalesce => return rt

/-- `visit(UnaryExpr)`, behind its operand. -/
def unaryResult (op : UnaryOp) (t : Ty) : Check Ty :=
  match op with
  | .neg =>
      if isNumeric t then return t
      else complain t t (.badNegation t)
  | .bitNot =>
      if kind t = .int then return .int
      else if kind t = .float then do
        error .complementOfFloat
        return .unknown
      else complain t t (.badComplement t)
  | .not => return .bool

/-- `visit(ThisExpr)`. -/
def checkThis : Check Ty := do
  onlyIf (!C.insideClass) (error .thisOutsideClass)
  lookup { name := "this".toList }

/-- `visit(SuperExpr)`. -/
def checkSuper : Check Ty := do
  if !C.insideClass then
    error .superOutsideClass
    return .unknown
  else
    match T.classTable.lookup C.currentClassName with
    | some info =>
        if C.currentClassName = [] || info.baseClass = [] then
          error .superWithoutBase
          return .unknown
        else return .cls info.baseClass
    | none =>
        error .superWithoutBase
        return .unknown

/-- The type of an element of what is iterated over. -/
def elementType : Ty → Ty
  | .list elem => elem
  | _ => .unknown

/-- `visit(IndexExpr)`, behind its children. -/
def indexResult : Ty → Ty
  | .list elem => elem
  | .dict _ value => value
  | .str => .str
  | _ => .unknown

/-- `visit(SliceExpr)`, behind its children. -/
def sliceResult : Ty → Ty
  | .list elem => .list elem
  | .str => .str
  | _ => .unknown

/-- `visit(ChanRecvExpr)`, behind its channel. -/
def receiveResult : Ty → Check Ty
  | .chan elem => return elem
  | t => do
      error (.receiveFrom t)
      return .unknown

/-- The type of a method that a class declares. -/
def methodType (methods : List MethodInfo) (member : Name) : Option Ty :=
  (methods.find? fun m => m.name = member).map fun m => .func m.name m.returnType m.paramTypes

/-- `visit(MemberExpr)`, behind its object: the methods of the class are searched, then those of its
base class. -/
def memberResult (objType : Ty) (member : Name) : Ty :=
  match objType with
  | .cls name =>
      match T.classTable.lookup name with
      | some info =>
          match methodType info.methods member with
          | some t => t
          | none =>
              if info.baseClass = [] then .unknown
              else
                match T.classTable.lookup info.baseClass with
                | some base => (methodType base.methods member).getD .unknown
                | none => .unknown
      | none => .unknown
  | _ => .unknown

/-! ## Calls -/

/-- The builtin functions that `visit(CallExpr)` handles itself. -/
inductive BuiltinCall
  | collection | isinstance | input | makeChan | len
  deriving DecidableEq, Repr

/-- Which of them a callee is. -/
def builtinCall : Expr → Option BuiltinCall
  | .identifier id =>
      if id.name = "map".toList || id.name = "filter".toList then some .collection
      else if id.name = "isinstance".toList then some .isinstance
      else if id.name = "input".toList then some .input
      else if id.name = "make_chan".toList then some .makeChan
      else if id.name = "len".toList then some .len
      else none
  | _ => none

/-- `typeArgMap[key] = value`. -/
def assignKey (map : List (Name × Ty)) (entry : Name × Ty) : List (Name × Ty) :=
  entry :: map.filter fun p => p.1 ≠ entry.1

/-- `typeArgMap`: the explicit type arguments, or what the parameters that are type variables get. -/
def typeArgMap (typeParamNames : List Name) (typeArgs : List Name) (paramTypes argTypes : List Ty) :
    List (Name × Ty) :=
  if typeArgs ≠ [] then
    ((typeParamNames.zip typeArgs).map fun p => (p.1, resolve T C p.2)).foldl assignKey []
  else
    ((paramTypes.zip argTypes).filterMap fun p =>
      match p.1 with
      | .typeVar name => some (name, p.2)
      | _ => none).foldl assignKey []

/-- Whether a type argument satisfies a bound. -/
def satisfiesBound (concrete : Ty) (bound : Name) : Bool :=
  isUnknown concrete ||
    (match concrete with
      | .cls name => name = bound
      | _ => false) ||
    toText concrete = bound

/-- The bound of a type parameter, if it has one. -/
def checkBound (funcName param : Name) (concrete : Ty) : Check Unit :=
  match T.funcBounds.lookup (funcName ++ ".".toList ++ param) with
  | some bound =>
      onlyIf (!satisfiesBound concrete bound) (error (.unsatisfiedBound concrete bound param))
  | none => pure ()

/-- The bounds of the type parameters of a function. -/
def checkBounds (funcName : Name) : List (Name × Ty) → Check Unit
  | [] => pure ()
  | (param, concrete) :: rest => do
      checkBound T funcName param concrete
      checkBounds funcName rest

/-- `minArgs`. -/
def minArgs (funcName : Name) (expectedArgs : ℕ) : ℕ :=
  (T.funcMinArgs.lookup funcName).getD expectedArgs

/-- The comparison of the number of arguments with the parameters. -/
def checkArity (funcName : Name) (expectedArgs got : ℕ) : Check Unit :=
  onlyIf (got < minArgs T funcName expectedArgs || got > expectedArgs)
    (error (.arity funcName expectedArgs got))

/-- The comparison of the arguments with the parameters, one by one. -/
def checkArgTypes (funcName : Name) : List (Ty × Ty) → Check Unit
  | [] => pure ()
  | (expected, actual) :: rest => do
      onlyIf (!isUnknown expected && !isUnknown actual)
        (requireAssignable T actual expected (.argumentType funcName expected actual))
      checkArgTypes funcName rest

/-- A call of a function type. -/
def callFunction (funcName : Name) (retType : Ty) (paramTypes argTypes : List Ty)
    (typeArgs : List Name) : Check Ty := do
  let typeParamNames := (T.funcTypeParams.lookup funcName).getD []
  if typeParamNames ≠ [] then
    let map := typeArgMap T C typeParamNames typeArgs paramTypes argTypes
    checkBounds T funcName map
    checkArity T funcName paramTypes.length argTypes.length
    match retType with
    | .typeVar name => return (map.lookup name).getD retType
    | _ => return retType
  else
    checkArity T funcName paramTypes.length argTypes.length
    checkArgTypes T funcName (paramTypes.zip argTypes)
    return retType

/-- `visit(CallExpr)`, behind its callee and its arguments. -/
def callResult (callee : Expr) (calleeType : Ty) (argTypes : List Ty) (typeArgs : List Name) :
    Check Ty :=
  match calleeType with
  | .func name ret params => callFunction T C name ret params argTypes typeArgs
  | .cls name => return .cls name
  | .unknown => return .unknown
  | t => do
      match callee with
      | .identifier id => error (.notCallable id.name)
      | _ => error (.typeNotCallable t)
      return .unknown

/-! ## The visitors -/

mutual

/-- `checkExpr`. -/
def checkExpr : Expr → Check Ty
  | .intLiteral _ => return .int
  | .floatLiteral _ => return .float
  | .stringLiteral _ => return .str
  | .fstringLiteral _ => return .str
  | .fstringExpr _ => return .unknown
  | .boolLiteral _ => return .bool
  | .nullLiteral => return .null
  | .identifier name => lookup name
  | .thisExpr => checkThis C
  | .superExpr => checkSuper T C
  | .binaryExpr op left right => do
      let lt ← checkExpr left
      let rt ← checkExpr right
      binaryResult op lt rt
  | .unaryExpr op operand => do
      let t ← checkExpr operand
      unaryResult op t
  | .callExpr callee args typeArgs =>
      match builtinCall callee with
      | some .collection => do
          let _ ← checkExprs args
          return .list .unknown
      | some .isinstance => do
          onlyIf (args.length ≠ 2) (error .isinstanceArity)
          checkFirst args
          return .bool
      | some .input => do
          onlyIf (args.length > 1) (error (.inputArity args.length))
          checkInput args
          return .str
      | some .makeChan => do
          onlyIf (args.length ≠ 1) (error .makeChanArity)
          checkFirst args
          return .chan .unknown
      | some .len => do
          onlyIf (args.length ≠ 1) (error .lenArity)
          let _ ← checkExprs args
          return .int
      | none => do
          let calleeType ← checkExpr callee
          let argTypes ← checkExprs args
          callResult T C callee calleeType argTypes typeArgs
  | .memberExpr object member => do
      let objType ← checkExpr object
      return memberResult T objType member
  | .indexExpr object index => do
      let objType ← checkExpr object
      let _ ← checkExpr index
      return indexResult objType
  | .lambdaExpr params body => do
      let bodyType ← inScope do
        declareAll .unknown params
        checkExpr body
      return .func "<lambda>".toList bodyType (params.map fun _ => .unknown)
  | .listExpr [] => return .list .unknown
  | .listExpr (first :: rest) => do
      let elemType ← checkExpr first
      return .list (← checkElements elemType rest)
  | .dictExpr [] => return .dict .unknown .unknown
  | .dictExpr ((key, value) :: rest) => do
      let keyType ← checkExpr key
      let valType ← checkExpr value
      let (keyType, valType) ← checkEntries keyType valType rest
      return .dict keyType valType
  | .tupleExpr elements => do
      return .tuple (← checkExprs elements)
  | .ternaryExpr condition thenExpr elseExpr => do
      let _ ← checkExpr condition
      let thenType ← checkExpr thenExpr
      let elseType ← checkExpr elseExpr
      unify T thenType elseType
  | .sliceExpr object start stop step => do
      let objType ← checkExpr object
      checkOption start
      checkOption stop
      checkOption step
      return sliceResult objType
  | .listComprehension body var iterable condition => do
      let iterType ← checkExpr iterable
      let bodyType ← inScope do
        declare var (elementType iterType)
        checkOption condition
        checkExpr body
      return .list bodyType
  | .dictComprehension key value var iterable condition => do
      let iterType ← checkExpr iterable
      let (keyType, valType) ← inScope do
        declare var (elementType iterType)
        checkOption condition
        let keyType ← checkExpr key
        let valType ← checkExpr value
        return (keyType, valType)
      return .dict keyType valType
  | .spreadExpr operand => checkExpr operand
  | .dictSpreadExpr operand => checkExpr operand
  | .walrusExpr target value => do
      let valType ← checkExpr value
      declare target valType
      return valType
  | .goExpr callee args => do
      let _ ← checkExpr callee
      let _ ← checkExprs args
      return .void
  | .chanRecvExpr channel => do
      let chanType ← checkExpr channel
      receiveResult chanType

/-- `checkExpr` on each expression of a list. -/
def checkExprs : List Expr → Check (List Ty)
  | [] => return []
  | e :: es => do
      let t ← checkExpr e
      let ts ← checkExprs es
      return t :: ts

/-- `checkExpr` on the first expression of a list. -/
def checkFirst : List Expr → Check Unit
  | [] => pure ()
  | e :: _ => do
      let _ ← checkExpr e
      pure ()

/-- The arguments of `input()`. -/
def checkInput : List Expr → Check Unit
  | [] => pure ()
  | e :: es => do
      let t ← checkExpr e
      onlyIf (!isUnknown t && kind t ≠ .str) (error (.inputArgument t))
      checkInput es

/-- The elements of a list behind the first, with the type so far. -/
def checkElements (elemType : Ty) : List Expr → Check Ty
  | [] => return elemType
  | e :: es => do
      let t ← checkExpr e
      let elemType ← unify T elemType t
      checkElements elemType es

/-- The entries of a dictionary behind the first, with the types so far. -/
def checkEntries (keyType valType : Ty) : List (Expr × Expr) → Check (Ty × Ty)
  | [] => return (keyType, valType)
  | (key, value) :: entries => do
      let kt ← checkExpr key
      let vt ← checkExpr value
      let keyType ← unify T keyType kt
      let valType ← unify T valType vt
      checkEntries keyType valType entries

/-- `checkExpr` behind a pointer that may be null. -/
def checkOption : Option Expr → Check Unit
  | none => pure ()
  | some e => do
      let _ ← checkExpr e
      pure ()

end

end Visuall.Checker
