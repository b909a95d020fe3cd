import Visuall.Gc.PtrMap
import Visuall.Lib.Scan

/-!
# Objects in memory

The header of an object, and what marking reads of each kind of object.  Addresses and words are
64-bit numbers; an object is named by the address of its header.

* `tagOf`, `markedOf`, `sizeOf`, … — the fields of a header;
* `objectScan` — the references `mark_internal` follows, kind by kind;
* `rootScan` — the words `mark_roots` looks at.
-/

namespace Visuall.Gc

/-! ### Headers -/

def tagString : ℕ := 1

def tagList : ℕ := 2

def tagDict : ℕ := 3

def tagClosure : ℕ := 4

def tagObject : ℕ := 5

def tagTuple : ℕ := 6

def tagBoxed : ℕ := 7

def tagSet : ℕ := 8

def tagGenerator : ℕ := 9

def tagTask : ℕ := 10

def tagChannel : ℕ := 11

/-- `hdr->type_tag`. -/
def tagOf (m : Mem) (hdr : ℕ) : ℕ := load m hdr 1

/-- `hdr->marked`. -/
def markedOf (m : Mem) (hdr : ℕ) : ℕ := load m (hdr + 1) 1

/-- `hdr->size`. -/
def sizeOf (m : Mem) (hdr : ℕ) : ℕ := load m (hdr + 4) 4

/-- `hdr->next`. -/
def nextWord (m : Mem) (hdr : ℕ) : ℕ := load m (hdr + 16) 8

/-- The address of `hdr->next`. -/
def nextField (hdr : ℕ) : ℕ := hdr + 16

/-- The user pointer of an object. -/
def userOf (hdr : ℕ) : ℕ := hdr + headerSize

/-- `__visuall_get_header` of a pointer that is not NULL. -/
def getHeader (ptr : ℕ) : ℕ := (ptr + 2 ^ 64 - headerSize) % 2 ^ 64

/-- `hdr->size - (uint32_t)sizeof(GCHeader)`, in 32 bits. -/
def payloadOf (size : ℕ) : ℕ := (size + 2 ^ 32 - headerSize) % 2 ^ 32

/-- `v > i` for a word read as a signed `bits`-bit integer. -/
def signedGt (bits v i : ℕ) : Bool := v < 2 ^ (bits - 1) && i < v

/-! ### Kinds of objects -/

/-- `for (i; i < list->length; i++)` over the elements of a list or a tuple. -/
def listScan (list : ℕ) : ℕ → ℕ → Scan
  | 0, _ => .done
  | fuel + 1, i =>
      .load (list + 8) 8 fun length =>
        if signedGt 64 length i then
          .load list 8 fun data => .load (data + 8 * i) 8 fun elem =>
            .visit elem (listScan list fuel (i + 1))
        else .done

/-- `if (p) …` around a visit. -/
def visitNonNull (p : ℕ) (k : Scan) : Scan := if p = 0 then k else .visit p k

/-- `for (i; i < dict->capacity; i++)` over the entries of a dictionary. -/
def dictScan (dict base : ℕ) : ℕ → ℕ → Scan
  | 0, _ => .done
  | fuel + 1, i =>
      .load (dict + 8) 8 fun capacity =>
        if signedGt 64 capacity i then
          let ent := base + i * 24
          .load (ent + 16) 1 fun state =>
            if state = 1 then
              .load ent 8 fun key => visitNonNull key <|
                .load (ent + 8) 8 fun val => .visit val (dictScan dict base fuel (i + 1))
            else dictScan dict base fuel (i + 1)
        else .done

/-- `for (i; i < hdr->field_count; i++)` over the registered fields of a class instance. -/
def fieldScan (hdr ptr offsets : ℕ) : ℕ → ℕ → Scan
  | 0, _ => .done
  | fuel + 1, i =>
      .load (hdr + 8) 4 fun fieldCount =>
        if i < fieldCount then
          .load (offsets + 4 * i) 4 fun offset => .load (ptr + offset) 8 fun raw =>
            visitNonNull raw (fieldScan hdr ptr offsets fuel (i + 1))
        else .done

/-- `for (i; i < nwords; i++)` over the words of a payload. -/
def wordScan (ptr : ℕ) : ℕ → ℕ → Scan
  | 0, _ => .done
  | n + 1, i => .load (ptr + 8 * i) 8 fun word => .visit word (wordScan ptr n (i + 1))

/-- `for (i; i < gen->num_slots; i++)` over the slots of a generator. -/
def slotScan (gen : ℕ) : ℕ → ℕ → Scan
  | 0, _ => .done
  | fuel + 1, i =>
      .load (gen + 4) 4 fun numSlots =>
        if signedGt 32 numSlots i then
          .load (gen + 24 + 8 * i) 8 fun candidate =>
            .visit candidate (slotScan gen fuel (i + 1))
        else .done

/-- `while (t)` over the parked tasks of a channel.  There are `2 ^ 64` addresses, so a walk that
is longer does not end. -/
def queueScan : ℕ → ℕ → Scan
  | 0, _ => .endless
  | fuel + 1, t =>
      if t = 0 then .done
      else .load (t + 8) 8 fun env => visitNonNull env <|
        .load (t + 40) 8 fun next => queueScan fuel next

/-- The references `mark_internal` follows from the object with header `hdr` and user pointer
`ptr`. -/
def objectScan (hdr ptr : ℕ) : Scan :=
  .load hdr 1 fun tag =>
    if tag = tagList ∨ tag = tagTuple then listScan ptr (2 ^ 63) 0
    else if tag = tagDict then
      .load ptr 8 fun entries =>
        if entries = 0 then .done else dictScan ptr entries (2 ^ 63) 0
    else if tag = tagClosure then .load ptr 8 fun env => visitNonNull env .done
    else if tag = tagObject then
      .load (hdr + 8) 4 fun fieldCount => .load (hdr + 4) 4 fun size =>
        if 0 < fieldCount then
          let offsetsBytes := fieldCount * 4
          let payload := (payloadOf size + 2 ^ 32 - offsetsBytes % 2 ^ 32) % 2 ^ 32
          fieldScan hdr ptr (ptr + payload) (2 ^ 32) 0
        else wordScan ptr (payloadOf size / 8) 0
    else if tag = tagGenerator then slotScan ptr (2 ^ 31) 0
    else if tag = tagTask then .load (ptr + 8) 8 fun env => visitNonNull env .done
    else if tag = tagChannel then
      .load (ptr + 48) 8 fun senders => (queueScan (2 ^ 64) senders).andThen <|
        .load (ptr + 56) 8 fun receivers => queueScan (2 ^ 64) receivers
    else .done

/-! ### Roots -/

/-- `mark_global_roots`: the word each registered address holds. -/
def globalScan : List ℕ → Scan
  | [] => .done
  | root :: roots => .load root 8 fun val => visitNonNull val (globalScan roots)

/-- `for (p = lo; p < hi; p++)` over the words of the stack. -/
def stackScan (hi : ℕ) : ℕ → ℕ → Scan
  | 0, _ => .done
  | fuel + 1, p =>
      if p < hi then .load p 8 fun candidate => .visit candidate (stackScan hi fuel (p + 8))
      else .done

/-- `mark_stack`, with the stack pointer that `get_sp` reads. -/
def markStackScan (stackBottom sp : ℕ) : Scan :=
  if stackBottom = 0 then .done
  else if sp < stackBottom then stackScan stackBottom stackBottom sp
  else stackScan sp sp stackBottom

/-- `while (t)` over the ready queue. -/
def readyScan : ℕ → ℕ → Scan
  | 0, _ => .endless
  | fuel + 1, t =>
      if t = 0 then .done
      else .visit t <| .load (t + 40) 8 fun next => readyScan fuel next

/-- `mark_roots`. -/
def rootScan (globalRoots : List ℕ) (stackBottom sp readyHead : ℕ) : Scan :=
  (globalScan globalRoots).andThen <|
    (markStackScan stackBottom sp).andThen (readyScan (2 ^ 64) readyHead)

end Visuall.Gc
