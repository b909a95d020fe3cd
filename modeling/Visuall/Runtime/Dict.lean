import Visuall.Lib.LinearProbe

/-!
# The dictionary runtime

The open-addressing table of `stdlib/runtime.c`: string keys, 64-bit values, linear probing, and
tombstones left by deletion.  The definitions follow the C functions loop by loop; the theorem
`findSlotLoop_spec` says once what a search can return, and everything later uses it.

A key is a C string, so it carries the proof that it has no NUL byte.  Every way the C can leave a
function is a value of `DictStop`: `exit(1)` with the text it prints, or an access at slot `-1`,
which the C does not check for.
-/

namespace Visuall.Runtime

open Visuall.LinearProbe

/-- A NUL-terminated string: its bytes before the terminator. -/
structure CString where
  bytes : List UInt8
  noNul : 0 ∉ bytes
deriving DecidableEq

/-- `DICT_EMPTY`, `DICT_USED`, `DICT_DELETED`. -/
inductive SlotState where
  | empty | used | deleted
deriving DecidableEq

/-- `DictEntry`.  A `none` key is the NULL pointer of a zeroed slot. -/
structure DictEntry where
  key : Option CString
  value : Int64
  state : SlotState
deriving DecidableEq

/-- A slot as `memset(…, 0, …)` leaves it. -/
instance : Inhabited DictEntry := ⟨⟨none, 0, .empty⟩⟩

/-- `VisualDict`: `length` counts the used entries. -/
structure VisualDict where
  entries : List DictEntry
  capacity : ℕ
  length : ℕ

/-- The ways a dictionary function ends without returning. -/
inductive DictStop where
  /-- The text goes to `stderr` and the process exits with status 1. -/
  | exit (msg : String)
  /-- `entries[-1]` is accessed, or a NULL key is hashed. -/
  | outOfBounds
deriving DecidableEq

def dictInitCap : ℕ := 16

def int64Max : ℕ := 2 ^ 63 - 1

/-- FNV-1a over the bytes of the key. -/
def dictHash (key : CString) : UInt64 :=
  key.bytes.foldl (fun h c => (h ^^^ c.toUInt64) * 1099511628211) 14695981039346656037

/-- The entry in a slot. -/
def entryAt (entries : List DictEntry) (slot : ℕ) : DictEntry := entries.getD slot default

/-- `entries[slot].key && strcmp(entries[slot].key, key) == 0`. -/
def keyIs (e : DictEntry) (key : CString) : Bool := e.key = some key

/-- The loop of `dict_find_slot`, over the states and the key comparisons of the slots: `rem`
iterations are left, `i` is the counter, `firstDeleted` is `none` for `-1`.  The result `none` is
the returned `-1`. -/
def findSlotLoop (cap idx : ℕ) (state : ℕ → SlotState) (isKey : ℕ → Bool) :
    ℕ → ℕ → Option ℕ → Option ℕ
  | 0, _, firstDeleted => firstDeleted
  | rem + 1, i, firstDeleted =>
      let slot := (idx + i) % cap
      match state slot with
      | .empty => some (firstDeleted.getD slot)
      | .deleted =>
          findSlotLoop cap idx state isKey rem (i + 1) (some (firstDeleted.getD slot))
      | .used =>
          if isKey slot then some slot
          else findSlotLoop cap idx state isKey rem (i + 1) firstDeleted

/-- `dict_find_slot`. -/
def dictFindSlot (entries : List DictEntry) (cap : ℕ) (key : CString) : Option ℕ :=
  findSlotLoop cap ((dictHash key).toNat % cap) (fun s => (entryAt entries s).state)
    (fun s => keyIs (entryAt entries s) key) cap 0 none

/-! ### The load factor

`(double)(length + 1) > (double)capacity * 0.7`.  The double `0.7` is `6305039478318694 · 2⁻⁵³`.
The capacity is a power of two, so converting it and multiplying by it is exact; converting
`length + 1` rounds to the nearest double, ties to even. -/

/-- The integer `n` converted to a double. -/
def toDouble (n : ℕ) : ℕ :=
  if n < 2 ^ 53 then n
  else
    let ulp := 2 ^ (n.log2 - 52)
    let q := n / ulp
    let r := n % ulp
    if ulp < 2 * r ∨ (2 * r = ulp ∧ q % 2 = 1) then (q + 1) * ulp else q * ulp

def overLoaded (length capacity : ℕ) : Bool :=
  capacity * 6305039478318694 < toDouble (length + 1) * 2 ^ 53

/-! ### The operations

`malloc n` says whether the allocator can serve a request of `n` bytes. -/

/-- `vsl_malloc` for a table of `cap` zeroed entries of 24 bytes each. -/
def newEntries (malloc : ℕ → Bool) (cap : ℕ) : Except DictStop (List DictEntry) :=
  if malloc (24 * cap) then .ok (List.replicate cap default)
  else .error (.exit "out of memory\n")

/-- `vsl_strdup`: a fresh copy of the key. -/
def vslStrdup (malloc : ℕ → Bool) (key : CString) : Except DictStop CString :=
  if malloc (key.bytes.length + 1) then .ok key
  else .error (.exit s!"out of memory (GC alloc {key.bytes.length + 1} bytes)\n")

/-- `__visuall_dict_new`. -/
def dictNew (malloc : ℕ → Bool) : Except DictStop VisualDict := do
  let entries ← newEntries malloc dictInitCap
  return { entries := entries, capacity := dictInitCap, length := 0 }

/-- One iteration of the rehashing loop of `dict_resize`, for one old entry. -/
def rehashEntry (cap : ℕ) (acc : List DictEntry × ℕ) (old : DictEntry) :
    Except DictStop (List DictEntry × ℕ) :=
  if old.state = .used then
    match old.key with
    | none => .error .outOfBounds
    | some key =>
        match dictFindSlot acc.1 cap key with
        | none => .error .outOfBounds
        | some slot => .ok (acc.1.set slot ⟨some key, old.value, .used⟩, acc.2 + 1)
  else .ok acc

/-- `dict_resize`. -/
def dictResize (malloc : ℕ → Bool) (d : VisualDict) (newCap : ℕ) :
    Except DictStop VisualDict := do
  let fresh ← newEntries malloc newCap
  let acc ← d.entries.foldlM (rehashEntry newCap) (fresh, 0)
  return { entries := acc.1, capacity := newCap, length := acc.2 }

/-- The growth step at the head of `__visuall_dict_set`. -/
def dictGrow (malloc : ℕ → Bool) (d : VisualDict) : Except DictStop VisualDict :=
  if overLoaded d.length d.capacity then
    if int64Max / 2 < d.capacity then .error (.exit "dict capacity overflow\n")
    else dictResize malloc d (d.capacity * 2)
  else .ok d

/-- The search of `__visuall_dict_set`, with its second attempt after a returned `-1`. -/
def dictSlotForSet (malloc : ℕ → Bool) (d : VisualDict) (key : CString) :
    Except DictStop (VisualDict × ℕ) :=
  match dictFindSlot d.entries d.capacity key with
  | some slot => .ok (d, slot)
  | none => do
      let d ← dictResize malloc d (d.capacity * 2)
      match dictFindSlot d.entries d.capacity key with
      | some slot => .ok (d, slot)
      | none => .error .outOfBounds

/-- The store at the end of `__visuall_dict_set`. -/
def dictStore (malloc : ℕ → Bool) (d : VisualDict) (slot : ℕ) (key : CString) (value : Int64) :
    Except DictStop VisualDict :=
  let e := entryAt d.entries slot
  if e.state = .used then
    .ok { d with entries := d.entries.set slot { e with value := value } }
  else do
    let copy ← vslStrdup malloc key
    return { d with
      entries := d.entries.set slot ⟨some copy, value, .used⟩
      length := d.length + 1 }

/-- `__visuall_dict_set`; a `none` key is a NULL pointer. -/
def dictSet (malloc : ℕ → Bool) (d : VisualDict) (key : Option CString) (value : Int64) :
    Except DictStop VisualDict :=
  match key with
  | none => .ok d
  | some key => do
      let d ← dictGrow malloc d
      let (d, slot) ← dictSlotForSet malloc d key
      dictStore malloc d slot key value

/-- The text of a key as `%s` prints it. -/
def CString.text (key : CString) : String := String.ofList (key.bytes.map (fun b => Char.ofNat b.toNat))

/-- `__visuall_dict_get`. -/
def dictGet (d : VisualDict) (key : Option CString) : Except DictStop Int64 :=
  match key with
  | none => .ok 0
  | some key =>
      match dictFindSlot d.entries d.capacity key with
      | some slot =>
          if (entryAt d.entries slot).state = .used then .ok (entryAt d.entries slot).value
          else .error (.exit ("KeyError: '" ++ key.text ++ "'\n"))
      | none => .error (.exit ("KeyError: '" ++ key.text ++ "'\n"))

/-- `__visuall_dict_has`. -/
def dictHas (d : VisualDict) (key : Option CString) : Bool :=
  match key with
  | none => false
  | some key =>
      match dictFindSlot d.entries d.capacity key with
      | some slot => (entryAt d.entries slot).state = .used
      | none => false

/-- The loop of `__visuall_dict_remove`.  The C adds the counter to the 64-bit hash before it
reduces modulo the capacity. -/
def dictRemoveLoop (d : VisualDict) (key : CString) : ℕ → ℕ → VisualDict
  | 0, _ => d
  | rem + 1, i =>
      let slot := ((dictHash key).toNat + i) % 2 ^ 64 % d.capacity
      let e := entryAt d.entries slot
      match e.state with
      | .empty => d
      | .deleted => dictRemoveLoop d key rem (i + 1)
      | .used =>
          if keyIs e key then
            { d with
              entries := d.entries.set slot { e with state := .deleted }
              length := d.length - 1 }
          else dictRemoveLoop d key rem (i + 1)

/-- `__visuall_dict_remove`. -/
def dictRemove (d : VisualDict) (key : Option CString) : VisualDict :=
  match key with
  | none => d
  | some key => dictRemoveLoop d key d.capacity 0

/-- `__visuall_dict_len`. -/
def dictLen (d : VisualDict) : ℕ := d.length

/-- `__visuall_dict_keys`: the keys of the used entries, in slot order. -/
def dictKeys (d : VisualDict) : List (Option CString) :=
  (d.entries.filter (fun e => e.state = .used)).map DictEntry.key

/-! ### What a search returns -/

section Search

variable {cap home : ℕ} {state : ℕ → SlotState} {isKey : ℕ → Bool}

/-- Slot `s` holds the key that is searched. -/
def Hit (state : ℕ → SlotState) (isKey : ℕ → Bool) (s : ℕ) : Prop :=
  state s = .used ∧ isKey s = true

/-- What `dict_find_slot` can return. -/
inductive FindSpec (cap home : ℕ) (state : ℕ → SlotState) (isKey : ℕ → Bool) :
    Option ℕ → Prop where
  /-- A slot that holds the key. -/
  | hit {s : ℕ} : s < cap → Hit state isKey s → FindSpec cap home state isKey (some s)
  /-- A slot to insert at: not used, met after non-empty slots only, and no slot met after
  non-empty slots only holds the key. -/
  | free {s : ℕ} : s < cap → state s ≠ .used → OnPath cap (fun t => state t ≠ .empty) home s →
      (∀ t, OnPath cap (fun t => state t ≠ .empty) home t → ¬ Hit state isKey t) →
      FindSpec cap home state isKey (some s)
  /-- Every slot is used by another key. -/
  | full : (∀ s < cap, state s = .used ∧ ¬ Hit state isKey s) →
      FindSpec cap home state isKey none

/-- The probes before number `i` neither met an empty slot nor the key. -/
def Passed (cap home : ℕ) (state : ℕ → SlotState) (isKey : ℕ → Bool) (i : ℕ) : Prop :=
  ∀ j < i, state (slotAt cap home j) ≠ .empty ∧ ¬ Hit state isKey (slotAt cap home j)

/-- What `firstDeleted` records after `i` probes. -/
def Recorded (cap home : ℕ) (state : ℕ → SlotState) (i : ℕ) : Option ℕ → Prop
  | none => ∀ j < i, state (slotAt cap home j) ≠ .deleted
  | some s => ∃ j < i, s = slotAt cap home j ∧ state s = .deleted

theorem Passed.succ {i : ℕ} (hp : Passed cap home state isKey i)
    (hne : state (slotAt cap home i) ≠ .empty) (hnh : ¬ Hit state isKey (slotAt cap home i)) :
    Passed cap home state isKey (i + 1) := by
  intro j hj
  rcases Nat.lt_succ_iff_lt_or_eq.mp hj with hlt | rfl
  · exact hp j hlt
  · exact ⟨hne, hnh⟩

/-- A slot recorded as deleted is free to insert at, once the key is known to be on no path. -/
theorem FindSpec.of_recorded {i s : ℕ} (hi : i ≤ cap)
    (hp : Passed cap home state isKey i) (hr : Recorded cap home state i (some s))
    (hnone : ∀ t, OnPath cap (fun t => state t ≠ .empty) home t → ¬ Hit state isKey t) :
    FindSpec cap home state isKey (some s) := by
  obtain ⟨j, hj, rfl, hdel⟩ := hr
  refine .free (slotAt_lt (by omega) j) (by rw [hdel]; decide)
    ⟨j, by omega, rfl, fun k hk => (hp k (by omega)).1⟩ hnone

/-- Nothing on a path is the key when every probe up to an empty slot has passed. -/
theorem Passed.no_hit {i : ℕ} (hp : Passed cap home state isKey i)
    (hend : i = cap ∨ state (slotAt cap home i) = .empty) :
    ∀ t, OnPath cap (fun t => state t ≠ .empty) home t → ¬ Hit state isKey t := by
  rintro t ⟨n, hn, rfl, hbefore⟩ hhit
  rcases Nat.lt_trichotomy n i with hlt | rfl | hgt
  · exact (hp n hlt).2 hhit
  · rcases hend with rfl | hempty
    · omega
    · rw [Hit, hempty] at hhit
      exact absurd hhit.1 (by decide)
  · rcases hend with rfl | hempty
    · omega
    · exact hbefore i hgt hempty

/-- **The search, from any of its iterations.**  The induction is on the iterations left; the
invariant is that the probes made so far passed and that `firstDeleted` records them. -/
theorem findSlotLoop_spec (hcap : 0 < cap) (rem i : ℕ) (fd : Option ℕ) (hsum : i + rem = cap)
    (hp : Passed cap home state isKey i) (hr : Recorded cap home state i fd) :
    FindSpec cap home state isKey (findSlotLoop cap home state isKey rem i fd) := by
  induction rem generalizing i fd with
  | zero =>
    have hi : i = cap := by omega
    have hnone := hp.no_hit (.inl hi)
    cases fd with
    | some s => exact .of_recorded (by omega) hp hr hnone
    | none =>
      refine .full fun s hs => ?_
      obtain ⟨n, hn, rfl⟩ := exists_slotAt (h := home) hs
      obtain ⟨hne, hnh⟩ := hp n (by omega)
      have hnd := hr n (by omega)
      refine ⟨?_, hnh⟩
      cases hst : state (slotAt cap home n) with
      | empty => exact absurd hst hne
      | used => rfl
      | deleted => exact absurd hst hnd
  | succ rem ih =>
    rw [findSlotLoop]
    change FindSpec cap home state isKey
      (match state (slotAt cap home i) with
        | .empty => some (fd.getD (slotAt cap home i))
        | .deleted => findSlotLoop cap home state isKey rem (i + 1)
            (some (fd.getD (slotAt cap home i)))
        | .used => if isKey (slotAt cap home i) then some (slotAt cap home i)
            else findSlotLoop cap home state isKey rem (i + 1) fd)
    cases hst : state (slotAt cap home i) with
    | empty =>
      have hnone := hp.no_hit (.inr hst)
      cases fd with
      | some s => exact .of_recorded (by omega) hp hr hnone
      | none =>
        exact .free (slotAt_lt hcap i) (by simp [hst])
          ⟨i, by omega, rfl, fun k hk => (hp k hk).1⟩ hnone
    | deleted =>
      refine ih (i + 1) _ (by omega) (hp.succ (by simp [hst]) (by simp [Hit, hst])) ?_
      cases fd with
      | some s =>
        obtain ⟨j, hj, hs, hdel⟩ := hr
        exact ⟨j, by omega, hs, hdel⟩
      | none => exact ⟨i, by omega, rfl, hst⟩
    | used =>
      by_cases hk : isKey (slotAt cap home i) = true
      · rw [if_pos hk]
        exact .hit (slotAt_lt hcap i) ⟨hst, hk⟩
      · rw [if_neg hk]
        refine ih (i + 1) fd (by omega) (hp.succ (by simp [hst]) fun hhit => hk hhit.2) ?_
        cases fd with
        | some s =>
          obtain ⟨j, hj, hs, hdel⟩ := hr
          exact ⟨j, by omega, hs, hdel⟩
        | none =>
          intro j hj
          rcases Nat.lt_succ_iff_lt_or_eq.mp hj with hlt | rfl
          · exact hr j hlt
          · simp [hst]

end Search

/-- **What `dict_find_slot` returns.** -/
theorem dictFindSlot_spec {cap : ℕ} (hcap : 0 < cap) (entries : List DictEntry) (key : CString) :
    FindSpec cap ((dictHash key).toNat % cap) (fun s => (entryAt entries s).state)
      (fun s => keyIs (entryAt entries s) key) (dictFindSlot entries cap key) :=
  findSlotLoop_spec hcap cap 0 none (by omega) (fun j hj => absurd hj (by omega))
    (fun j hj => absurd hj (by omega))

end Visuall.Runtime
