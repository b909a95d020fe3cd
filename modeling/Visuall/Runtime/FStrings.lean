import Visuall.Codegen.Values
import Visuall.Lib.Decimal
import Visuall.Lib.Effect
import Visuall.Runtime.Strings

/-!
# f-strings

The code for an f-string of several parts puts one word for each part into a table: the address of a text, or an integer
with a tag in its low bit.  `__visuall_fstring_build` takes the words apart again.

* `codegenFStringExpr`, `fstringBuild` — the code and the runtime;
* `fastI64ToBuf_ok` — an integer is written as its numeral, inside its buffers;
* `fstringBuild_ok_iff` — what is built from a table;
* `fstring_iff` — exactly when the parts come out one behind the other.
-/

namespace Visuall.Runtime

open Visuall.Decimal
open Visuall.Codegen (Word)

/-! ## The parts -/

/-- A part of an f-string, with the value that its expression has; `aligned` says that the string is known to stand at
an even address, as the ones from `__visuall_alloc` do and constants need not. -/
inductive Piece
  | literal (text : VisualString) (aligned : Bool)
  | int (i : Int64)
  | bool (b : Bool)
  | str (text : VisualString) (aligned : Bool)

/-- What `__visuall_bool_to_str` writes. -/
def boolText (b : Bool) : List UInt8 := if b then [116, 114, 117, 101] else [102, 97, 108, 115, 101]

/-- The text of a part. -/
def Piece.text : Piece → List UInt8
  | literal text _ => text.bytes
  | int i => intNumeral i.toInt
  | bool b => boolText b
  | str text _ => text.bytes

def Piece.isInt : Piece → Bool
  | int _ => true
  | _ => false

def Piece.isAligned : Piece → Bool
  | literal _ aligned => aligned
  | int _ => true
  | bool _ => true
  | str _ aligned => aligned

/-- An f-string; the number of its parts is an `int`. -/
structure FStringExpr where
  parts : List Piece
  small : parts.length < 2 ^ 31

/-! ## The runtime -/

/-- The digits in `tmp`, the last one first; `room` is what is left of it. -/
def digitsLoop : ℕ → ℕ → List UInt8 → Except Stop (List UInt8)
  | 0, _, _ => .error .outOfBounds
  | room + 1, uv, tmp =>
    let tmp := tmp ++ [digit (uv % 10)]
    if uv / 10 = 0 then .ok tmp else digitsLoop room (uv / 10) tmp

/-- `buf[len++] = b`. -/
def putByte (buf : List UInt8) (b : UInt8) : Except Stop (List UInt8) :=
  if buf.length < 24 then .ok (buf ++ [b]) else .error .outOfBounds

/-- `fast_i64_to_buf`, with the bytes in front of the terminator. -/
def fastI64ToBuf (val : ℤ) : Except Stop (List UInt8) := do
  let uv := if val < 0 then (-(val + 1)).toNat + 1 else val.toNat
  let tmp ← digitsLoop 21 uv []
  let buf ← if val < 0 then putByte [] 45 else .ok []
  let buf ← tmp.reverse.foldlM putByte buf
  let _ ← putByte buf 0
  return buf

/-- The first loop of `__visuall_fstring_build`, where `mem` are the strings at the addresses. -/
def resolveParts (mem : Word → CString) : ℕ → List Word → Except Stop (List (List UInt8))
  | _, [] => .ok []
  | ibufIdx, raw :: parts =>
    if raw &&& 1 = 1 then
      if 16 ≤ ibufIdx then .error .outOfBounds
      else do
        let buf ← fastI64ToBuf (raw.sshiftRight 1).toInt
        return buf :: (← resolveParts mem (ibufIdx + 1) parts)
    else do
      return (if raw ≠ 0 then (mem raw).bytes else []) :: (← resolveParts mem ibufIdx parts)

/-- `__visuall_fstring_build`. -/
def fstringBuild (mem : Word → CString) (parts : List Word) : Except Stop VisualString := do
  let resolved ← resolveParts mem 0 (parts.take 32)
  let out ← alloc (resolved.flatten.length + 1)
  let out ← resolved.foldlM Block.put out
  (← out.put [0]).string

/-! ## The code -/

/-- `(val << 1) | 1`. -/
def tagWord (i : Int64) : Word := (i.toBitVec <<< 1) ||| 1

/-- The word of a part, whose text is at an address. -/
def partVal (addr : Word) : Piece → Word
  | .int i => tagWord i
  | _ => addr

/-- `convertPart`, for an f-string of one part. -/
def convertPart : Piece → Except Stop VisualString
  | .literal text _ => .ok text
  | .int i => strdup (intNumeral i.toInt)
  | .bool b => strdup (boolText b)
  | .str text _ => .ok text

/-- `codegenFStringExpr`, as what the code does, where the text of the part `i` is at `addr i`. -/
def codegenFStringExpr (mem : Word → CString) (addr : ℕ → Word) (node : FStringExpr) : Except Stop VisualString :=
  match node.parts with
  | [] => .ok emptyString
  | [part] => convertPart part
  | parts => fstringBuild mem (parts.mapIdx fun i part => partVal (addr i) part)

/-! ## Integers -/

section Integers

variable {i : Int64} {val : ℤ} {n : ℕ}

theorem digitsLoop_ok (room uv : ℕ) (tmp : List UInt8) (h : (numeral uv).length ≤ room) :
    digitsLoop room uv tmp = .ok (tmp ++ (numeral uv).reverse) := by
  induction room generalizing uv tmp with
  | zero => exact absurd (List.length_eq_zero_iff.mp (Nat.le_zero.mp h)) (numeral_ne_nil uv)
  | succ room ih =>
      rw [digitsLoop]
      by_cases hlt : uv < 10
      · rw [if_pos (by omega), numeral_of_lt_ten hlt, Nat.mod_eq_of_lt hlt]
        rfl
      · have hnumeral := numeral_of_ten_le (not_lt.mp hlt)
        rw [hnumeral, List.length_append, List.length_singleton] at h
        rw [if_neg (by omega), ih _ _ (by omega), hnumeral, List.reverse_append, List.append_assoc]
        rfl

theorem putBytes_ok (buf s : List UInt8) (h : buf.length + s.length ≤ 24) : s.foldlM putByte buf = .ok (buf ++ s) := by
  induction s generalizing buf with
  | nil => exact congrArg Except.ok (List.append_nil _).symm
  | cons b s ih =>
      rw [List.length_cons] at h
      have hput : putByte buf b = .ok (buf ++ [b]) := if_pos (by omega)
      rw [List.foldlM_cons, hput]
      show s.foldlM putByte (buf ++ [b]) = _
      rw [ih _ (by rw [List.length_append, List.length_singleton]; omega), List.append_assoc, List.singleton_append]

/-- **An integer is written as its numeral**, and no buffer is too small. -/
theorem fastI64ToBuf_ok (hval : -2 ^ 63 ≤ val ∧ val < 2 ^ 63) : fastI64ToBuf val = .ok (intNumeral val) := by
  have huv : (if val < 0 then (-(val + 1)).toNat + 1 else val.toNat) = val.natAbs := by
    split <;> omega
  have hlength : (numeral val.natAbs).length ≤ 19 := length_numeral_le (by norm_num) (by norm_num; omega)
  rw [fastI64ToBuf, huv, digitsLoop_ok 21 _ _ (by omega)]
  show (do
    let buf ← if val < 0 then putByte [] 45 else .ok []
    let buf ← (([] : List UInt8) ++ (numeral val.natAbs).reverse).reverse.foldlM putByte buf
    let _ ← putByte buf 0
    return buf) = _
  rw [List.nil_append, List.reverse_reverse, intNumeral]
  by_cases hneg : val < 0
  · rw [if_pos hneg, if_pos hneg]
    show (do
      let buf ← (numeral val.natAbs).foldlM putByte [45]
      let _ ← putByte buf 0
      return buf) = _
    rw [putBytes_ok _ _ (by rw [List.length_singleton]; omega)]
    have hend : putByte ([45] ++ numeral val.natAbs) 0 = .ok (([45] ++ numeral val.natAbs) ++ [0]) :=
      if_pos (by rw [List.length_append, List.length_singleton]; omega)
    show (putByte ([45] ++ numeral val.natAbs) 0 >>= _) = _
    rw [hend]
    rfl
  · rw [if_neg hneg, if_neg hneg]
    show (do
      let buf ← (numeral val.natAbs).foldlM putByte []
      let _ ← putByte buf 0
      return buf) = _
    rw [putBytes_ok _ _ (by rw [List.length_nil]; omega)]
    have hend : putByte ([] ++ numeral val.natAbs) 0 = .ok (([] ++ numeral val.natAbs) ++ [0]) :=
      if_pos (by rw [List.length_append, List.length_nil]; omega)
    show (putByte ([] ++ numeral val.natAbs) 0 >>= _) = _
    rw [hend]
    rfl

/-- A tagged integer has its low bit set. -/
theorem tagWord_low (i : Int64) : tagWord i &&& 1 = 1 := by
  rw [tagWord]
  apply BitVec.eq_of_getLsbD_eq
  intro k hk
  rw [BitVec.getLsbD_and, BitVec.getLsbD_or]
  cases (1 : BitVec 64).getLsbD k <;> simp

/-- The integer that a tag leaves: one bit is lost. -/
theorem untag_tagWord (i : Int64) : ((tagWord i).sshiftRight 1).toInt = i.toInt.bmod (2 ^ 63) := by
  have hnat : (tagWord i).toNat = 2 * (i.toBitVec.toNat % 2 ^ 63) + 1 := by
    rw [tagWord, BitVec.toNat_or, BitVec.toNat_shiftLeft, Nat.shiftLeft_eq]
    have hmod : i.toBitVec.toNat * 2 ^ 1 % 2 ^ 64 = 2 ^ 1 * (i.toBitVec.toNat % 2 ^ 63) := by omega
    rw [hmod]
    exact (Nat.two_pow_add_eq_or_of_lt (by decide) _).symm
  rw [BitVec.toInt_sshiftRight, Int.shiftRight_eq_div_pow, BitVec.toInt_eq_toNat_cond, hnat]
  have hi : i.toInt = if 2 * i.toBitVec.toNat < 2 ^ 64 then (i.toBitVec.toNat : ℤ) else (i.toBitVec.toNat : ℤ) - 2 ^ 64 := by
    rw [← Int64.toInt_toBitVec, BitVec.toInt_eq_toNat_cond]
    rfl
  have hlt := i.toBitVec.isLt
  rw [hi, Int.bmod_def]
  split_ifs <;> omega

/-- The numeral of an integer that loses a bit begins with another byte. -/
theorem head?_untag (h : ¬ (-2 ^ 62 ≤ i.toInt ∧ i.toInt < 2 ^ 62)) :
    (intNumeral (i.toInt.bmod (2 ^ 63))).head? ≠ (intNumeral i.toInt).head? := by
  intro heq
  have hlow := Int64.le_toInt i
  have hhigh := Int64.toInt_lt i
  have hsign : i.toInt.bmod (2 ^ 63) < 0 ↔ i.toInt < 0 := by rw [← head?_intNumeral, heq, head?_intNumeral]
  rw [Int.bmod_def] at hsign
  split_ifs at hsign <;> omega

theorem untag_of_small (h : -2 ^ 62 ≤ i.toInt ∧ i.toInt < 2 ^ 62) : i.toInt.bmod (2 ^ 63) = i.toInt := by
  rw [Int.bmod_def]
  split_ifs <;> omega

end Integers

/-! ## The table -/

section Table

variable {mem : Word → CString} {raw : Word} {parts : List Word} {k : ℕ} {texts : List (List UInt8)} {s : VisualString}

/-- The word is taken for an integer. -/
def isTagged (raw : Word) : Bool := raw &&& 1 == 1

/-- The text that a word is taken for. -/
def decode (mem : Word → CString) (raw : Word) : List UInt8 :=
  if isTagged raw then intNumeral (raw.sshiftRight 1).toInt else if raw ≠ 0 then (mem raw).bytes else []

theorem zero_notMem_intNumeral (n : ℤ) : 0 ∉ intNumeral n := by
  intro hmem
  have hdigits : ∀ k, (0 : UInt8) ∉ numeral k := fun k hmem => absurd (isDigit_of_mem hmem) (by decide)
  rw [intNumeral] at hmem
  split at hmem
  · rcases List.mem_cons.mp hmem with h | h
    · exact absurd h (by decide)
    · exact hdigits _ h
  · exact hdigits _ hmem

theorem decode_noNul (mem : Word → CString) (raw : Word) : 0 ∉ decode mem raw := by
  rw [decode]
  split_ifs
  · exact zero_notMem_intNumeral _
  · exact (mem raw).noNul
  · exact List.not_mem_nil

/-- **The words taken apart**: at most 16 of them are integers. -/
theorem resolveParts_eq (hk : k ≤ 16) (parts : List Word) : resolveParts mem k parts =
    if k + parts.countP isTagged ≤ 16 then .ok (parts.map (decode mem)) else .error .outOfBounds := by
  induction parts generalizing k with
  | nil => exact (if_pos hk).symm
  | cons raw parts ih =>
      rw [resolveParts, List.countP_cons, List.map_cons, decode, isTagged]
      by_cases htag : raw &&& 1 = 1
      · have hbeq : (raw &&& 1 == 1) = true := beq_iff_eq.mpr htag
        rw [if_pos htag, if_pos hbeq, if_pos hbeq]
        by_cases hfull : 16 ≤ k
        · rw [if_pos hfull, if_neg (by omega)]
        · have hint : fastI64ToBuf (raw.sshiftRight 1).toInt = .ok (intNumeral (raw.sshiftRight 1).toInt) :=
            fastI64ToBuf_ok ⟨BitVec.le_toInt _, BitVec.toInt_lt⟩
          rw [if_neg hfull, hint]
          show (do return intNumeral (raw.sshiftRight 1).toInt :: (← resolveParts mem (k + 1) parts) :
            Except Stop (List (List UInt8))) = _
          rw [ih (by omega), show k + 1 + parts.countP isTagged = k + (parts.countP isTagged + 1) by omega]
          split <;> rfl
      · have hbeq : ¬ (raw &&& 1 == 1) = true := fun h => htag (beq_iff_eq.mp h)
        rw [if_neg htag, if_neg hbeq, if_neg hbeq, ih hk, Nat.add_zero]
        split <;> rfl

/-- The texts are copied one behind the other. -/
theorem putAll_ok (texts : List (List UInt8)) (out : Block) (h : out.written.length + texts.flatten.length ≤ out.size) :
    ∃ result, texts.foldlM Block.put out = .ok result ∧ result.size = out.size ∧ result.written = out.written ++ texts.flatten := by
  induction texts generalizing out with
  | nil => exact ⟨out, rfl, rfl, (List.append_nil _).symm⟩
  | cons text texts ih =>
      rw [List.flatten_cons, List.length_append] at h
      obtain ⟨next, hput, hsize, hwritten⟩ := Block.put_ok out text (by omega)
      obtain ⟨result, hall, hsize', hwritten'⟩ := ih next (by rw [hwritten, hsize, List.length_append]; omega)
      refine ⟨result, ?_, hsize'.trans hsize, ?_⟩
      · rw [List.foldlM_cons, hput]
        exact hall
      · rw [hwritten', hwritten, List.append_assoc, List.flatten_cons]

/-- **What is built from a table.** -/
theorem fstringBuild_ok_iff {bytes : List UInt8} :
    (∃ s, fstringBuild mem parts = .ok s ∧ s.bytes = bytes) ↔ (parts.take 32).countP isTagged ≤ 16 ∧
      ((parts.take 32).map (decode mem)).flatten = bytes ∧ Gc.headerSize + (bytes.length + 1) ≤ Gc.uint32Max := by
  rw [fstringBuild, resolveParts_eq (Nat.zero_le 16), Nat.zero_add]
  by_cases hcount : (parts.take 32).countP isTagged ≤ 16
  · rw [if_pos hcount]
    generalize htexts : (parts.take 32).map (decode mem) = texts
    have hzero : 0 ∉ texts.flatten := by
      intro hmem
      rw [← htexts] at hmem
      obtain ⟨text, htext, hmem⟩ := List.mem_flatten.mp hmem
      obtain ⟨raw, -, rfl⟩ := List.mem_map.mp htext
      exact decode_noNul mem raw hmem
    show (∃ s, (do
      let out ← alloc (texts.flatten.length + 1)
      let out ← texts.foldlM Block.put out
      (← out.put [0]).string) = .ok s ∧ s.bytes = bytes) ↔ _
    constructor
    · intro h
      obtain ⟨s, hrun, hbytes⟩ := h
      obtain ⟨out, halloc, hrest⟩ := Effect.ok_of_bind hrun
      obtain ⟨hsize, hwritten⟩ := alloc_size halloc
      have hallocated := out.allocated
      rw [hsize] at hallocated
      obtain ⟨full, hput, hsize', hwritten'⟩ := putAll_ok texts out (by rw [hwritten, hsize]; simp)
      rw [hput] at hrest
      obtain ⟨ended, hend, hsize'', hwritten''⟩ := Block.put_ok full [0] (by
        rw [hwritten', hsize', hsize, hwritten, List.nil_append, List.length_singleton])
      have hstring : (full.put [0] >>= Block.string) = .ok s := hrest
      rw [hend] at hstring
      obtain ⟨t, ht, htbytes⟩ := Block.string_ok ended texts.flatten hzero (by rw [hwritten'', hwritten', hwritten, List.nil_append])
      cases ht.symm.trans hstring
      rw [← hbytes, htbytes]
      exact ⟨hcount, rfl, hallocated⟩
    · intro h
      obtain ⟨-, rfl, hallocated⟩ := h
      rw [alloc_ok hallocated]
      obtain ⟨full, hput, hsize, hwritten⟩ := putAll_ok texts ⟨texts.flatten.length + 1, [], Nat.zero_le _, hallocated⟩ (by simp)
      obtain ⟨ended, hend, hsize', hwritten'⟩ := Block.put_ok full [0] (by
        rw [hwritten, hsize, List.nil_append, List.length_singleton])
      obtain ⟨t, ht, htbytes⟩ := Block.string_ok ended texts.flatten hzero (by rw [hwritten', hwritten, List.nil_append])
      refine ⟨t, ?_, htbytes⟩
      show (texts.foldlM Block.put _ >>= _) = _
      rw [hput]
      show (full.put [0] >>= Block.string) = _
      rw [hend]
      exact ht
  · rw [if_neg hcount]
    refine iff_of_false (fun h => ?_) fun h => hcount h.1
    obtain ⟨s, hrun, -⟩ := h
    cases hrun

end Table

/-! ## The whole string -/

/-- The texts are where the addresses say: a string that is known to be aligned is at an even address. -/
structure Placed (mem : Word → CString) (addr : ℕ → Word) (parts : List Piece) : Prop where
  text : ∀ i p, parts[i]? = some p → p.isInt = false → addr i ≠ 0 ∧ (mem (addr i)).bytes = p.text
  even : ∀ i p, parts[i]? = some p → p.isInt = false → p.isAligned = true → isTagged (addr i) = false

/-- When the table carries the parts: of its 32 words at most 16 are integers, of 63 bits, and its strings are aligned;
there is no text behind it, and the whole text fits into a block. -/
structure Fits (node : FStringExpr) : Prop where
  ints : ∀ i, .int i ∈ node.parts.take 32 → -2 ^ 62 ≤ i.toInt ∧ i.toInt < 2 ^ 62
  aligned : ∀ p ∈ node.parts.take 32, p.isAligned = true
  few : (node.parts.take 32).countP Piece.isInt ≤ 16
  rest : ∀ p ∈ node.parts.drop 32, p.text = []
  room : Gc.headerSize + ((node.parts.flatMap Piece.text).length + 1) ≤ Gc.uint32Max

section Whole

variable {α β : Type*} {node : FStringExpr} {mem : Word → CString} {addr : ℕ → Word} {p : Piece} {i : ℕ}

/-- Two concatenations of which the parts agree up to one where the first elements differ. -/
theorem flatten_map_eq {f g : α → List β} {rest : List β} (ps : List α)
    (hdiff : ∀ p ∈ ps, f p = g p ∨ (f p ≠ [] ∧ g p ≠ [] ∧ (f p).head? ≠ (g p).head?))
    (h : (ps.map f).flatten = (ps.map g).flatten ++ rest) : (∀ p ∈ ps, f p = g p) ∧ rest = [] := by
  induction ps with
  | nil => exact ⟨fun p hp => absurd hp List.not_mem_nil, h.symm⟩
  | cons p ps ih =>
      obtain ⟨hp, hrest⟩ := List.forall_mem_cons.mp hdiff
      rw [List.map_cons, List.map_cons, List.flatten_cons, List.flatten_cons, List.append_assoc] at h
      rcases hp with heq | ⟨hf, hg, hne⟩
      · rw [heq] at h
        obtain ⟨hall, hnil⟩ := ih hrest (List.append_cancel_left h)
        exact ⟨List.forall_mem_cons.mpr ⟨heq, hall⟩, hnil⟩
      · have hhead := congrArg List.head? h
        rw [List.head?_append_of_ne_nil _ hf, List.head?_append_of_ne_nil _ hg] at hhead
        exact absurd hhead hne

/-- The word of a part. -/
def wordOf (addr : ℕ → Word) (part : Piece × ℕ) : Word := partVal (addr part.2) part.1

theorem table_eq (addr : ℕ → Word) (parts : List Piece) :
    (parts.mapIdx fun i part => partVal (addr i) part).take 32 = (parts.zipIdx.take 32).map (wordOf addr) := by
  rw [List.mapIdx_eq_zipIdx_map, List.map_take]
  rfl

theorem isTagged_tagWord (i : Int64) : isTagged (tagWord i) = true := beq_iff_eq.mpr (tagWord_low i)

theorem decode_tagWord (i : Int64) : decode mem (tagWord i) = intNumeral (i.toInt.bmod (2 ^ 63)) := by
  rw [decode, if_pos (isTagged_tagWord i), untag_tagWord]

/-- The tagged words of a table whose strings are at even addresses are its integers. -/
theorem isTagged_wordOf (heven : p.isInt = false → isTagged (addr i) = false) : isTagged (wordOf addr (p, i)) = p.isInt := by
  cases p with
  | int n => exact isTagged_tagWord n
  | literal | bool | str => exact heven rfl

/-- A string at an even address is taken for what it is. -/
theorem decode_wordOf (hint : p.isInt = false) (heven : isTagged (addr i) = false) (hne : addr i ≠ 0) (hmem : (mem (addr i)).bytes = p.text) :
    decode mem (wordOf addr (p, i)) = p.text := by
  have hword : wordOf addr (p, i) = addr i := by
    cases p with
    | int => cases hint
    | literal | bool | str => rfl
  rw [hword, decode, if_neg (by rw [heven]; exact Bool.false_ne_true), if_pos hne, hmem]

theorem Piece.noNul (p : Piece) : 0 ∉ p.text := by
  cases p with
  | literal text aligned => exact text.noNul
  | int i => exact zero_notMem_intNumeral _
  | bool b => cases b <;> decide
  | str text aligned => exact text.noNul

/-- The texts of a string, by its table and what is behind it. -/
theorem texts_eq (parts : List Piece) : parts.flatMap Piece.text =
    ((parts.zipIdx.take 32).map fun part => part.1.text).flatten ++ (parts.drop 32).flatMap Piece.text := by
  have hfst : (parts.zipIdx.take 32).map (fun part => part.1.text) = (parts.take 32).map Piece.text := by
    rw [List.map_take, List.map_take]
    congr 1
    exact (List.map_map (l := parts.zipIdx) (g := Piece.text) (f := Prod.fst)).symm.trans (by rw [List.zipIdx_map_fst])
  rw [hfst, ← List.flatMap_def, ← List.flatMap_append, List.take_append_drop]

/-- A string of several parts is built from its table. -/
theorem codegenFStringExpr_table (h : 2 ≤ node.parts.length) : codegenFStringExpr mem addr node =
    fstringBuild mem (node.parts.mapIdx fun i part => partVal (addr i) part) := by
  rw [codegenFStringExpr]
  cases hparts : node.parts with
  | nil =>
      rw [hparts] at h
      cases h
  | cons p ps =>
      cases ps with
      | nil =>
          rw [hparts] at h
          exact absurd h (by simp)
      | cons q qs => rfl

/-- What is built, by the parts and their places. -/
theorem codegenFStringExpr_ok_iff (h : 2 ≤ node.parts.length) {bytes : List UInt8} :
    (∃ s, codegenFStringExpr mem addr node = .ok s ∧ s.bytes = bytes) ↔
      (node.parts.zipIdx.take 32).countP (isTagged ∘ wordOf addr) ≤ 16 ∧
        ((node.parts.zipIdx.take 32).map (decode mem ∘ wordOf addr)).flatten = bytes ∧
          Gc.headerSize + (bytes.length + 1) ≤ Gc.uint32Max := by
  rw [codegenFStringExpr_table h, fstringBuild_ok_iff, table_eq, List.countP_map, List.map_map]

/-- A part of the table stands where it says. -/
theorem getElem?_of_mem_table {part : Piece × ℕ} (h : part ∈ node.parts.zipIdx.take 32) : node.parts[part.2]? = some part.1 :=
  List.mem_zipIdx_iff_getElem?.mp (List.mem_of_mem_take h)

theorem fst_mem_of_mem_table {part : Piece × ℕ} (h : part ∈ node.parts.zipIdx.take 32) : part.1 ∈ node.parts.take 32 := by
  have hmem := List.mem_map_of_mem (f := Prod.fst) h
  rwa [List.map_take, List.zipIdx_map_fst] at hmem

theorem exists_of_mem_take (h : p ∈ node.parts.take 32) : ∃ i, (p, i) ∈ node.parts.zipIdx.take 32 := by
  rw [← List.zipIdx_map_fst 0 node.parts, ← List.map_take] at h
  obtain ⟨part, hmem, rfl⟩ := List.mem_map.mp h
  exact ⟨part.2, hmem⟩

theorem countP_table (node : FStringExpr) :
    (node.parts.zipIdx.take 32).countP (fun part => part.1.isInt) = (node.parts.take 32).countP Piece.isInt := by
  conv_rhs => rw [← List.zipIdx_map_fst 0 node.parts, ← List.map_take, List.countP_map]
  rfl

/-- A part whose string is at an even address, or whose integer has 63 bits, is taken for what it is. -/
theorem decode_eq_text (hplaced : Placed mem addr node.parts) {part : Piece × ℕ} (hpart : part ∈ node.parts.zipIdx.take 32)
    (heven : part.1.isInt = false → isTagged (addr part.2) = false)
    (hints : ∀ i, .int i ∈ node.parts.take 32 → -2 ^ 62 ≤ i.toInt ∧ i.toInt < 2 ^ 62) :
    decode mem (wordOf addr part) = part.1.text := by
  obtain ⟨p, i⟩ := part
  cases hint : p.isInt with
  | false =>
      obtain ⟨hne, hmem⟩ := hplaced.text _ _ (getElem?_of_mem_table hpart) hint
      exact decode_wordOf hint (heven hint) hne hmem
  | true =>
      cases p with
      | int n =>
          show decode mem (tagWord n) = _
          rw [decode_tagWord, untag_of_small (hints n (fst_mem_of_mem_table hpart))]
          rfl
      | literal | bool | str => cases hint

/-- **Enough.** -/
theorem build_of_fits (h2 : 2 ≤ node.parts.length) (hfits : Fits node) (hplaced : Placed mem addr node.parts) :
    ∃ s, codegenFStringExpr mem addr node = .ok s ∧ s.bytes = node.parts.flatMap Piece.text := by
  rw [codegenFStringExpr_ok_iff h2]
  have heven : ∀ part ∈ node.parts.zipIdx.take 32, part.1.isInt = false → isTagged (addr part.2) = false := fun part hpart hint =>
    hplaced.even _ _ (getElem?_of_mem_table hpart) hint (hfits.aligned _ (fst_mem_of_mem_table hpart))
  refine ⟨?_, ?_, hfits.room⟩
  · rw [List.countP_congr (q := fun part => part.1.isInt) fun part hpart => by
      rw [Function.comp_apply, isTagged_wordOf (heven part hpart)], countP_table]
    exact hfits.few
  · have hrest : (node.parts.drop 32).flatMap Piece.text = [] := List.flatMap_eq_nil_iff.mpr hfits.rest
    rw [texts_eq, hrest, List.append_nil]
    congr 1
    exact List.map_congr_left fun part hpart => decode_eq_text hplaced hpart (heven part hpart) hfits.ints

/-! ### Places -/

theorem isTagged_iff (raw : Word) : isTagged raw = true ↔ raw.toNat % 2 = 1 := by
  rw [isTagged, beq_iff_eq, ← BitVec.toNat_inj, BitVec.toNat_and]
  show raw.toNat &&& 1 = 1 ↔ _
  rw [Nat.and_one_is_mod]

/-- The text of the part at an index. -/
def textAt (parts : List Piece) (i : ℕ) : CString :=
  match parts[i]? with
  | some p => ⟨p.text, p.noNul⟩
  | none => emptyString.toCString

/-- The strings 16 bytes after each other, one of them anywhere. -/
def placeAt (j : ℕ) (a : Word) (i : ℕ) : Word := if i = j then a else BitVec.ofNat 64 (16 * (i + 1))

/-- The memory that holds them. -/
def memAt (parts : List Piece) (j : ℕ) (a : Word) (w : Word) : CString :=
  textAt parts (if w = a then j else w.toNat / 16 - 1)

theorem placed_placeAt (node : FStringExpr) {j : ℕ} {a : Word} (hne : a ≠ 0) (ha : isTagged a = true ∨ a = BitVec.ofNat 64 (16 * (j + 1)))
    (hj : j < 2 ^ 31) (heven : ∀ p, node.parts[j]? = some p → p.isInt = false → p.isAligned = true → isTagged a = false) :
    Placed (memAt node.parts j a) (placeAt j a) node.parts := by
  have hnat : ∀ i, i < 2 ^ 31 → (BitVec.ofNat 64 (16 * (i + 1))).toNat = 16 * (i + 1) := fun i hi => by
    rw [BitVec.toNat_ofNat]
    exact Nat.mod_eq_of_lt (by omega)
  have hlt : ∀ i p, node.parts[i]? = some p → i < 2 ^ 31 := fun i p hp =>
    (List.getElem?_eq_some_iff.mp hp).1.trans node.small
  have htag : ∀ i, i < 2 ^ 31 → isTagged (BitVec.ofNat 64 (16 * (i + 1))) = false := fun i hi => by
    refine Bool.eq_false_of_not_eq_true fun h => ?_
    rw [isTagged_iff, hnat i hi] at h
    omega
  have hother : ∀ i, i < 2 ^ 31 → i ≠ j → BitVec.ofNat 64 (16 * (i + 1)) ≠ a := fun i hi hij heq => by
    rcases ha with hodd | ha
    · exact Bool.false_ne_true ((htag i hi).symm.trans (heq ▸ hodd))
    · have hsame := congrArg BitVec.toNat (heq.trans ha)
      rw [hnat i hi, hnat j hj] at hsame
      omega
  constructor
  · intro i p hp _
    have hi := hlt i p hp
    by_cases hij : i = j
    · subst hij
      rw [placeAt, if_pos rfl]
      refine ⟨hne, ?_⟩
      rw [memAt, if_pos rfl, textAt, hp]
    · rw [placeAt, if_neg hij]
      refine ⟨fun hzero => ?_, ?_⟩
      · have := congrArg BitVec.toNat hzero
        rw [hnat i hi] at this
        cases this
      · rw [memAt, if_neg (hother i hi hij), hnat i hi, Nat.mul_div_cancel_left _ (by norm_num), Nat.add_sub_cancel, textAt, hp]
  · intro i p hp hint haligned
    by_cases hij : i = j
    · subst hij
      rw [placeAt, if_pos rfl]
      exact heven p hp hint haligned
    · rw [placeAt, if_neg hij]
      exact htag i (hlt i p hp)

/-- All strings at even addresses. -/
theorem placed_even (node : FStringExpr) : Placed (memAt node.parts 0 16) (placeAt 0 16) node.parts ∧
    ∀ i, i < 2 ^ 31 → isTagged (placeAt 0 16 i) = false := by
  refine ⟨placed_placeAt node (by decide) (.inr rfl) (by norm_num) fun _ _ _ _ => by decide, fun i hi => ?_⟩
  rw [placeAt]
  split
  · decide
  · refine Bool.eq_false_of_not_eq_true fun h => ?_
    rw [isTagged_iff, BitVec.toNat_ofNat] at h
    omega

/-- Two concatenations that agree but for one part. -/
theorem eq_of_flatten_map_eq {f g : α → List β} {ps : List α} {x : α} (hx : x ∈ ps) (hothers : ∀ p ∈ ps, p = x ∨ f p = g p)
    (hnodup : ps.Nodup) (h : (ps.map f).flatten = (ps.map g).flatten) : f x = g x := by
  obtain ⟨pre, post, rfl⟩ := List.append_of_mem hx
  have hnot := List.nodup_middle.mp hnodup
  rw [List.nodup_cons, List.mem_append, not_or] at hnot
  have hpre : pre.map f = pre.map g := List.map_congr_left fun p hp =>
    (hothers p (List.mem_append_left _ hp)).resolve_left fun heq => hnot.1.1 (heq ▸ hp)
  have hpost : post.map f = post.map g := List.map_congr_left fun p hp =>
    (hothers p (List.mem_append_right _ (List.mem_cons_of_mem _ hp))).resolve_left fun heq => hnot.1.2 (heq ▸ hp)
  rw [List.map_append, List.map_append, List.map_cons, List.map_cons, hpre, hpost, List.flatten_append, List.flatten_append,
    List.flatten_cons, List.flatten_cons] at h
  exact List.append_cancel_right (List.append_cancel_left h)

/-- **What the table must be like**, when the string is right wherever its texts are. -/
theorem fits_of_build (h2 : 2 ≤ node.parts.length) (hall : ∀ mem addr, Placed mem addr node.parts →
    ∃ s, codegenFStringExpr mem addr node = .ok s ∧ s.bytes = node.parts.flatMap Piece.text) : Fits node := by
  obtain ⟨hplaced, heven⟩ := placed_even node
  obtain ⟨hcount, hflat, hroom⟩ := (codegenFStringExpr_ok_iff h2).mp (hall _ _ hplaced)
  have hsmall : ∀ part ∈ node.parts.zipIdx.take 32, part.2 < 2 ^ 31 := fun part hpart =>
    (List.getElem?_eq_some_iff.mp (getElem?_of_mem_table hpart)).1.trans node.small
  have hdiff : ∀ part ∈ node.parts.zipIdx.take 32, decode (memAt node.parts 0 16) (wordOf (placeAt 0 16) part) = part.1.text ∨
      (decode (memAt node.parts 0 16) (wordOf (placeAt 0 16) part) ≠ [] ∧ part.1.text ≠ [] ∧
        (decode (memAt node.parts 0 16) (wordOf (placeAt 0 16) part)).head? ≠ part.1.text.head?) := by
    intro part hpart
    obtain ⟨p, i⟩ := part
    cases hint : p.isInt with
    | false =>
        obtain ⟨hne, hmem⟩ := hplaced.text _ _ (getElem?_of_mem_table hpart) hint
        exact .inl (decode_wordOf hint (heven i (hsmall _ hpart)) hne hmem)
    | true =>
        cases p with
        | int n =>
            show decode _ (tagWord n) = intNumeral n.toInt ∨ (decode _ (tagWord n) ≠ [] ∧ intNumeral n.toInt ≠ [] ∧
              (decode _ (tagWord n)).head? ≠ (intNumeral n.toInt).head?)
            rw [decode_tagWord]
            by_cases hn : -2 ^ 62 ≤ n.toInt ∧ n.toInt < 2 ^ 62
            · exact .inl (congrArg intNumeral (untag_of_small hn))
            · exact .inr ⟨intNumeral_ne_nil _, intNumeral_ne_nil _, head?_untag hn⟩
        | literal | bool | str => cases hint
  rw [texts_eq] at hflat
  obtain ⟨hsame, hrest⟩ := flatten_map_eq _ hdiff hflat
  have hints : ∀ i, .int i ∈ node.parts.take 32 → -2 ^ 62 ≤ i.toInt ∧ i.toInt < 2 ^ 62 := by
    intro n hn
    obtain ⟨i, hmem⟩ := exists_of_mem_take hn
    have heq : decode (memAt node.parts 0 16) (tagWord n) = intNumeral n.toInt := hsame _ hmem
    rw [decode_tagWord] at heq
    by_contra hbad
    exact head?_untag hbad (congrArg List.head? heq)
  refine ⟨hints, fun p hp => ?_, ?_, List.flatMap_eq_nil_iff.mp hrest, hroom⟩
  · by_contra hodd
    obtain ⟨i, hmem⟩ := exists_of_mem_take hp
    have hint : p.isInt = false := by
      cases p with
      | int => exact absurd rfl hodd
      | literal | bool | str => rfl
    have hget := getElem?_of_mem_table hmem
    -- the string at two odd addresses, which are taken for two numbers
    have htext : ∀ a : Word, a ≠ 0 → isTagged a = true → intNumeral (a.sshiftRight 1).toInt = p.text := by
      intro a hne ha
      have hplaced' := placed_placeAt node (j := i) hne (.inl ha) (hsmall _ hmem) fun q hq _ haligned => by
        cases hget.symm.trans hq
        exact absurd haligned hodd
      obtain ⟨-, hflat', -⟩ := (codegenFStringExpr_ok_iff h2).mp (hall _ _ hplaced')
      rw [texts_eq, hrest, List.append_nil] at hflat'
      have hothers : ∀ part ∈ node.parts.zipIdx.take 32, part = (p, i) ∨
          decode (memAt node.parts i a) (wordOf (placeAt i a) part) = part.1.text := by
        intro part hpart
        by_cases hi : part.2 = i
        · have hpart' := getElem?_of_mem_table hpart
          rw [hi] at hpart'
          exact .inl (Prod.ext (Option.some_injective _ (hpart'.symm.trans hget)) hi)
        · refine .inr (decode_eq_text hplaced' hpart (fun _ => ?_) hints)
          have hplace : placeAt i a part.2 = placeAt 0 16 part.2 := by
            rw [placeAt, if_neg hi, placeAt]
            split
            · next hzero => rw [hzero]; rfl
            · rfl
          rw [hplace]
          exact heven _ (hsmall _ hpart)
      have hnodup : (node.parts.zipIdx.take 32).Nodup := (List.Nodup.of_map _ (List.nodup_zipIdx_map_snd node.parts)).take
      have heq : decode (memAt node.parts i a) (wordOf (placeAt i a) (p, i)) = p.text :=
        eq_of_flatten_map_eq hmem hothers hnodup hflat'
      have hword : wordOf (placeAt i a) (p, i) = a := by
        have hplace : placeAt i a i = a := if_pos rfl
        cases p with
        | int => cases hint
        | literal | bool | str => exact hplace
      rwa [hword, decode, if_pos ha] at heq
    have hone := htext 3 (by decide) (by decide)
    have htwo := htext 5 (by decide) (by decide)
    have hne := intNumeral_inj.mp (hone.trans htwo.symm)
    exact absurd hne (by decide)
  · rw [← countP_table, ← List.countP_congr (p := isTagged ∘ wordOf (placeAt 0 16)) fun part hpart => by
      rw [Function.comp_apply, isTagged_wordOf fun _ => heven _ (hsmall _ hpart)]]
    exact hcount

/-- One part needs no table. -/
theorem convertPart_ok (p : Piece) : ∃ s, convertPart p = .ok s ∧ s.bytes = p.text := by
  have hdup : ∀ bytes : List UInt8, 0 ∉ bytes → bytes.length ≤ 20 → ∃ s, strdup bytes = .ok s ∧ s.bytes = bytes := by
    intro bytes hnul hlength
    have hroom : Gc.headerSize + (bytes.length + 1) ≤ Gc.uint32Max := by
      norm_num [Gc.headerSize, Gc.uint32Max]
      omega
    exact ⟨⟨⟨bytes, hnul⟩, hroom⟩, strdup_ok ⟨⟨bytes, hnul⟩, hroom⟩, rfl⟩
  cases p with
  | literal text aligned => exact ⟨text, rfl, rfl⟩
  | str text aligned => exact ⟨text, rfl, rfl⟩
  | bool b =>
      refine hdup _ (Piece.noNul (.bool b)) ?_
      cases b <;> decide
  | int i =>
      refine hdup _ (Piece.noNul (.int i)) ?_
      have hlow := Int64.le_toInt i
      have hhigh := Int64.toInt_lt i
      have hlength : (numeral i.toInt.natAbs).length ≤ 19 := length_numeral_le (by norm_num) (by norm_num; omega)
      rw [intNumeral]
      split
      · rw [List.length_cons]
        omega
      · omega

end Whole

end Visuall.Runtime
