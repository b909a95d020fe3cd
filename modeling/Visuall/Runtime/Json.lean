import Visuall.Runtime.DictRefinement
import Visuall.Runtime.Strings

/-!
# JSON

`__visuall_json_parse` and `__visuall_json_stringify` of `stdlib/runtime.c`.  A value of the language is a 64-bit
word: an odd word is an integer, any other word a pointer or NULL.  The parser and the writer of JSON texts are
those of yyjson; they are parameters here, and so is the place of an object in memory.

* `Json`, `Json.at`, `Same` — trees, what stands in them at a path, and when two are the same JSON value;
* `fromYyjson`, `toYyjson` — the conversions, and `convert`, one behind the other;
* `jsonParse`, `jsonStringify` — the two functions.
-/

namespace Visuall.Runtime

/-- A key or a string, as yyjson holds it: it may have NUL bytes in it. -/
abbrev Bytes := List UInt8

/-- A tree of yyjson.  A number is an integer or a `double`. -/
inductive Json where
  | null
  | bool (b : Bool)
  | int (n : ℤ)
  | real (q : ℚ)
  | str (s : Bytes)
  | arr (items : List Json)
  | obj (members : List (Bytes × Json))

/-! ### The value of a tree -/

/-- The last of the members whose key is accepted. -/
def lastWith (p : Bytes → Bool) : List (Bytes × Json) → Option Json
  | [] => none
  | (k, t) :: ms => (lastWith p ms).or (if p k then some t else none)

/-- The member of an object: of several with one key, the last counts. -/
def valueOf (ms : List (Bytes × Json)) (key : Bytes) : Option Json := lastWith (· = key) ms

/-- A step into an array or an object. -/
inductive Step where
  | index (i : ℕ)
  | key (k : Bytes)

/-- What stands at a path. -/
def Json.at : Json → List Step → Option Json
  | t, [] => some t
  | .arr xs, .index i :: path => (xs[i]?).bind (·.at path)
  | .obj ms, .key k :: path => (valueOf ms k).bind (·.at path)
  | _, _ => none

/-- What a value is, apart from what is in it. -/
inductive Node where
  | null
  | bool (b : Bool)
  | number (q : ℚ)
  | str (s : Bytes)
  | arr (length : ℕ)
  | obj (keys : Set Bytes)

/-- The node of a tree. -/
def Json.node : Json → Node
  | .null => .null
  | .bool b => .bool b
  | .int n => .number n
  | .real q => .number q
  | .str s => .str s
  | .arr xs => .arr xs.length
  | .obj ms => .obj {k | (valueOf ms k).isSome}

/-- Two trees are the same JSON value: they have the same nodes at the same paths. -/
def Same (s t : Json) : Prop := ∀ path, (s.at path).map Json.node = (t.at path).map Json.node

/-! ### The conversions -/

/-- The ways a conversion ends without a result. -/
inductive JsonStop where
  /-- The text goes to `stderr` and the process exits with status 1. -/
  | exit (msg : String)
  | outOfBounds
  | overflow
  /-- The recursion follows pointers in a circle. -/
  | endless
deriving DecidableEq

/-- A stop of the lists and strings. -/
def JsonStop.ofStop : Stop → JsonStop
  | .exit msg => .exit msg
  | .outOfBounds => .outOfBounds
  | .overflow => .overflow

/-- A stop of the dictionaries. -/
def JsonStop.ofDictStop : DictStop → JsonStop
  | .exit msg => .exit msg
  | .outOfBounds => .outOfBounds

/-- An object on the heap. -/
inductive Object where
  | string (s : VisualString)
  | list (l : VisualList Int64)
  | dict (d : VisualDict)

/-- The objects made so far; one that is still being filled has no content here yet. -/
structure Heap where
  count : ℕ := 0
  objects : ℕ → Option Object := fun _ => none

/-- As many objects as the values of a text of less than 4 GB can need. -/
def maxObjects : ℕ := 2 ^ 33

/-- Where the objects lie: at different addresses, which are even and not NULL. -/
structure Memory where
  addr : ℕ → Int64
  even : ∀ n, (addr n).toInt % 2 = 0
  ne_zero : ∀ n, addr n ≠ 0
  inj : ∀ m n, m < maxObjects → n < maxObjects → addr m = addr n → m = n

namespace Heap

variable (M : Memory) (heap : Heap)

/-- Room for one more object. -/
def reserve : Heap := { heap with count := heap.count + 1 }

/-- The content of an object. -/
def write (n : ℕ) (object : Object) : Heap := { heap with objects := Function.update heap.objects n (some object) }

/-- `__visuall_get_header`, with what the object holds. -/
def find (w : Int64) : Option Object :=
  ((List.range heap.count).find? fun n => M.addr n = w).bind heap.objects

end Heap

/-- The bytes in front of the first NUL. -/
def cstr (s : Bytes) : Bytes := s.takeWhile (· ≠ 0)

/-- `yyjson_get_int`: the integer cast to `int`, and 0 for a number that is none. -/
def getInt : Json → ℤ
  | .int n => Int.bmod n (2 ^ 32)
  | _ => 0

/-- `(i << 1) | 1` in `int`: the shift leaves an even number. -/
def tagInt (i : ℤ) : ℤ := Int.bmod (i * 2) (2 ^ 32) + 1

/-- `vsl_strdup(yyjson_get_str(val))`. -/
def dupStr (s : Bytes) : Except JsonStop VisualString := (strdup (cstr s)).mapError .ofStop

mutual

/-- `vsl_from_yyjson`. -/
def fromYyjson (M : Memory) : Json → Heap → Except JsonStop (Int64 × Heap)
  | .null, heap => .ok (0, heap)
  | .bool b, heap => .ok (if b then 3 else 1, heap)
  | .int n, heap => .ok (.ofInt (tagInt (getInt (.int n))), heap)
  | .real q, heap => .ok (.ofInt (tagInt (getInt (.real q))), heap)
  | .str s, heap => do
    let s ← dupStr s
    return (M.addr heap.count, heap.reserve.write heap.count (.string s))
  | .arr xs, heap => do
    let (list, next) ← fromItems M xs (listNew Int64) heap.reserve
    return (M.addr heap.count, next.write heap.count (.list list))
  | .obj ms, heap => do
    let dict ← (dictNew fun _ => true).mapError .ofDictStop
    let (dict, next) ← fromMembers M ms dict heap.reserve
    return (M.addr heap.count, next.write heap.count (.dict dict))

/-- The loop over an array. -/
def fromItems (M : Memory) : List Json → VisualList Int64 → Heap → Except JsonStop (VisualList Int64 × Heap)
  | [], list, heap => .ok (list, heap)
  | x :: xs, list, heap => do
    let (w, heap) ← fromYyjson M x heap
    let list ← (listPush list w).mapError .ofStop
    fromItems M xs list heap

/-- The loop over an object. -/
def fromMembers (M : Memory) : List (Bytes × Json) → VisualDict → Heap → Except JsonStop (VisualDict × Heap)
  | [], dict, heap => .ok (dict, heap)
  | (k, t) :: ms, dict, heap => do
    let key ← dupStr k
    let (w, heap) ← fromYyjson M t (heap.reserve.write heap.count (.string key))
    let dict ← (dictSet (fun _ => true) dict (some key.toCString) w).mapError .ofDictStop
    fromMembers M ms dict heap

end

/-- The used entries of a dictionary, in the order of the slots. -/
def usedPairs (d : VisualDict) : List (CString × Int64) :=
  d.entries.filterMap fun e => if e.state = .used then e.key.map (·, e.value) else none

/-- `vsl_to_yyjson`, `fuel` levels deep. -/
def toYyjson (M : Memory) (heap : Heap) : ℕ → Int64 → Except JsonStop Json
  | 0, _ => .error .endless
  | fuel + 1, val =>
    if val.toInt % 2 = 1 then .ok (.int (val.toInt / 2))
    else if val = 0 then .ok .null
    else match heap.find M val with
      | none => .ok .null
      | some (.string s) => .ok (.str s.bytes)
      | some (.list l) => do return .arr (← l.data.mapM (toYyjson M heap fuel))
      | some (.dict d) => do
        return .obj (← (usedPairs d).mapM fun p => do return (p.1.bytes, ← toYyjson M heap fuel p.2))

/-- A tree as words and back.  A path without a circle goes through fewer objects than there are. -/
def convert (M : Memory) (t : Json) : Except JsonStop Json := do
  let (w, heap) ← fromYyjson M t {}
  toYyjson M heap (heap.count + 1) w

/-! ### The two functions -/

/-- `yyjson_read` and `yyjson_mut_write`; `none` is a text that is no JSON, and NULL. -/
structure Yyjson where
  read : Bytes → Option Json
  write : Json → Option Bytes

variable (Y : Yyjson) (M : Memory)

/-- `__visuall_json_parse`; a `none` text is NULL. -/
def jsonParse (text : Option VisualString) : Except JsonStop (Int64 × Heap) :=
  match text with
  | none => .ok (0, {})
  | some text =>
    match Y.read text.bytes with
    | none => .ok (0, {})
    | some t => fromYyjson M t {}

/-- `__visuall_json_stringify`. -/
def jsonStringify (val : Int64) (heap : Heap) : Except JsonStop (Option VisualString) := do
  match Y.write (← toYyjson M heap (heap.count + 1) val) with
  | none => return none
  | some json => return some (← dupStr json)

/-- `__visuall_json_stringify(__visuall_json_parse(text))`. -/
def jsonRoundTrip (text : VisualString) : Except JsonStop (Option VisualString) := do
  let (val, heap) ← jsonParse Y M (some text)
  jsonStringify Y M val heap

end Visuall.Runtime
