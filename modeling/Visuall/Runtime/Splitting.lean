import Visuall.Runtime.Strings
import Visuall.Lib.Occurrences

/-!
# Splitting, joining and replacing

`__visuall_string_split`, `__visuall_string_join` and `__visuall_string_replace` of `stdlib/runtime.c`.  `strstr` is
`find`, and a pointer into a string is the text from there on; `size_t` arithmetic is modulo `2 ^ 64`.

* `splitLoop`, `stringSplit` — the loop of the split gives the parts of `cutAt`;
* `joinLength`, `joinCopy`, `stringJoin` — the two passes of the join;
* `countLoop`, `replaceLoop`, `stringReplace` — the two passes of the replacement;
* `join_split`, `replace_eq_join` — the split undone, and the replacement as a split and a join.
-/

namespace Visuall.Runtime

open Visuall.Split

/-- The elements of the lists of strings: pointers, of which `none` is NULL. -/
abbrev StringList : Type := VisualList (Option VisualString)

/-! ### Splitting -/

/-- `sep`, or a blank where it is NULL or empty. -/
def separator : Option VisualString → { sep : List UInt8 // sep ≠ [] }
  | none => ⟨[32], List.cons_ne_nil _ _⟩
  | some sep => if h : sep.bytes = [] then ⟨[32], List.cons_ne_nil _ _⟩ else ⟨sep.bytes, h⟩

/-- The loop of `__visuall_string_split`, from `p` on. -/
def splitLoop (sep : List UInt8) (hsep : sep ≠ []) (p : List UInt8) (out : StringList) : Except Stop StringList :=
  match _h : find sep p with
  | none => do listPush out (some (← strdup p))
  | some partLen => do
    let part ← alloc (partLen + 1)
    let part ← part.put (p.take partLen)
    let part ← part.put [0]
    let out ← listPush out (some (← part.string))
    splitLoop sep hsep (p.drop (partLen + sep.length)) out
termination_by p.length
decreasing_by exact length_behind hsep _h

/-- `__visuall_string_split`; `none` is NULL. -/
def stringSplit (s sep : Option VisualString) : Except Stop StringList :=
  match s with
  | none => .ok (listNew _)
  | some s => splitLoop (separator sep).1 (separator sep).2 s.bytes (listNew _)

/-! ### Joining -/

/-- The loop over the parts that adds up the length, in `size_t`. -/
def joinLength (sepLen : ℕ) : List (Option VisualString) → ℕ → ℕ
  | [], total => total
  | part :: parts, total =>
    let total := match part with
      | none => total
      | some part => (total + part.bytes.length) % 2 ^ 64
    joinLength sepLen parts (if parts = [] then total else (total + sepLen) % 2 ^ 64)

/-- The loop over the parts that copies. -/
def joinCopy (sep : List UInt8) : List (Option VisualString) → Block → Except Stop Block
  | [], out => .ok out
  | part :: parts, out => do
    let out ← match part with
      | none => .ok out
      | some part => out.put part.bytes
    let out ← if parts ≠ [] ∧ 0 < sep.length then out.put sep else .ok out
    joinCopy sep parts out

/-- `__visuall_string_join`; `none` is NULL. -/
def stringJoin (sep : Option VisualString) (parts : Option StringList) : Except Stop VisualString :=
  match parts with
  | none => strdup []
  | some parts =>
    if parts.data = [] then strdup []
    else do
      let sep := (sep.map fun sep => sep.bytes).getD []
      let out ← alloc ((joinLength sep.length parts.data 0 + 1) % 2 ^ 64)
      let out ← joinCopy sep parts.data out
      (← out.put [0]).string

/-! ### Replacing -/

/-- The pass that counts, from `p` on. -/
def countLoop (old : List UInt8) (hold : old ≠ []) (p : List UInt8) (count : ℕ) : ℕ :=
  match _h : find old p with
  | none => count
  | some i => countLoop old hold (p.drop (i + old.length)) ((count + 1) % 2 ^ 64)
termination_by p.length
decreasing_by exact length_behind hold _h

/-- `s_len + count * (new_len - old_len)` in `size_t`. -/
def outLen (s old : List UInt8) (hold : old ≠ []) (new : List UInt8) : ℕ :=
  (s.length + countLoop old hold s 0 * ((new.length + 2 ^ 64 - old.length) % 2 ^ 64)) % 2 ^ 64

/-- The pass that copies, from `p` on; the last `strcpy` copies the terminator too. -/
def replaceLoop (old : List UInt8) (hold : old ≠ []) (new p : List UInt8) (out : Block) : Except Stop Block :=
  match _h : find old p with
  | none => out.put (p ++ [0])
  | some chunk => do
    let out ← out.put (p.take chunk)
    let out ← out.put new
    replaceLoop old hold new (p.drop (chunk + old.length)) out
termination_by p.length
decreasing_by exact length_behind hold _h

/-- `__visuall_string_replace`; `none` is NULL. -/
def stringReplace (s old new : Option VisualString) : Except Stop VisualString :=
  match s, old with
  | none, _ => strdup []
  | some s, none => strdup s.bytes
  | some s, some old =>
    if hold : old.bytes = [] then strdup s.bytes
    else do
      let new := (new.map fun new => new.bytes).getD []
      let out ← alloc ((outLen s.bytes old.bytes hold new + 1) % 2 ^ 64)
      (← replaceLoop old.bytes hold new s.bytes out).string

/-! ### The split gives the parts -/

/-- The strings are there, with the given texts. -/
def Texts (data : List (Option VisualString)) (texts : List (List UInt8)) : Prop :=
  data.map (Option.map fun s => s.bytes) = texts.map some

section Parts

variable {sep old new p s : List UInt8} {data data' : List (Option VisualString)} {texts texts' : List (List UInt8)}

theorem Texts.append (h : Texts data texts) (h' : Texts data' texts') : Texts (data ++ data') (texts ++ texts') := by
  unfold Texts at *
  rw [List.map_append, List.map_append, h, h']

theorem Texts.singleton {s : VisualString} : Texts [some s] [s.bytes] := rfl

theorem Texts.length_eq (h : Texts data texts) : data.length = texts.length := by
  simpa using congrArg List.length h

/-- A text and its terminator, written to a new block. -/
theorem put_terminated {bytes : List UInt8} (hnul : 0 ∉ bytes) {b : Block} (hsize : b.size = bytes.length + 1)
    (hempty : b.written = []) :
    ∃ b₁ b₂ s, b.put bytes = .ok b₁ ∧ b₁.put [0] = .ok b₂ ∧ b₂.string = .ok s ∧ s.bytes = bytes := by
  obtain ⟨b₁, hput₁, hsize₁, hwritten₁⟩ := Block.put_ok b bytes (by
    rw [hempty, List.length_nil]
    omega)
  rw [hempty, List.nil_append] at hwritten₁
  obtain ⟨b₂, hput₂, -, hwritten₂⟩ := Block.put_ok b₁ [0] (by
    rw [hwritten₁, hsize₁, List.length_singleton, hsize])
  obtain ⟨s, hs, hbytes⟩ := Block.string_ok b₂ bytes hnul (by rw [hwritten₂, hwritten₁])
  exact ⟨b₁, b₂, s, hput₁, hput₂, hs, hbytes⟩

theorem strdup_bytes (hnul : 0 ∉ p) (hsize : Gc.headerSize + (p.length + 1) ≤ Gc.uint32Max) :
    strdup p = .ok ⟨⟨p, hnul⟩, hsize⟩ := strdup_ok ⟨⟨p, hnul⟩, hsize⟩

/-- **The loop of the split.** -/
theorem splitLoop_ok (hsep : sep ≠ []) (hnul : 0 ∉ p) (hsize : Gc.headerSize + (p.length + 1) ≤ Gc.uint32Max)
    (out : StringList) (hroom : out.data.length + occurrences sep hsep p < maxLength) :
    ∃ result parts, splitLoop sep hsep p out = .ok result ∧ result.data = out.data ++ parts ∧
      Texts parts (cutAt sep hsep p) := by
  induction p using occurrence_induction hsep generalizing out with
  | hnone p h =>
      rw [occurrences_of_none hsep h] at hroom
      obtain ⟨result, hpush, hresult⟩ := listPush_ok out (some ⟨⟨p, hnul⟩, hsize⟩) hroom
      refine ⟨result, _, ?_, hresult, ?_⟩
      · rw [splitLoop]
        split
        · rw [strdup_bytes hnul hsize]
          exact hpush
        · next heq =>
          rw [h] at heq
          cases heq
      · rw [cutAt_of_none hsep h]
        exact Texts.singleton
  | hsome p i h ih =>
      have hcut := (find_cut h).1
      have hnul' : 0 ∉ p.take i := fun hmem => hnul (List.mem_of_mem_take hmem)
      have hlen : (p.take i).length = i := by
        rw [List.length_take]
        omega
      rw [occurrences_of_some hsep h] at hroom
      have halloc := @alloc_ok (i + 1) (by omega)
      obtain ⟨b₁, b₂, part, hput₁, hput₂, hpart, hbytes⟩ :=
        put_terminated hnul' (b := ⟨i + 1, [], Nat.zero_le _, by omega⟩) (by rw [hlen]) rfl
      obtain ⟨next, hpush, hnext⟩ := listPush_ok out (some part) (by omega)
      obtain ⟨result, parts, hrest, hresult, hparts⟩ := ih
        (fun hmem => hnul (List.mem_of_mem_drop hmem)) (by rw [List.length_drop]; omega) next
        (by rw [hnext, List.length_append, List.length_singleton]; omega)
      refine ⟨result, some part :: parts, ?_, by rw [hresult, hnext, List.append_assoc, List.singleton_append], ?_⟩
      · rw [splitLoop]
        split
        · next heq =>
          rw [h] at heq
          cases heq
        · next j heq =>
          rw [h] at heq
          cases heq
          rw [halloc]
          show (Block.put _ _ >>= _) = _
          rw [hput₁]
          show (Block.put _ _ >>= _) = _
          rw [hput₂]
          show (Block.string _ >>= _) = _
          rw [hpart]
          show (listPush _ _ >>= _) = _
          rw [hpush]
          exact hrest
      · rw [cutAt_of_some hsep h, ← hbytes]
        exact Texts.singleton.append hparts

theorem stringSplit_ok (s : VisualString) {sep : VisualString} (hsep : sep.bytes ≠ []) :
    ∃ parts, stringSplit (some s) (some sep) = .ok parts ∧ Texts parts.data (cutAt sep.bytes hsep s.bytes) := by
  have hseparator : separator (some sep) = ⟨sep.bytes, hsep⟩ := dif_neg hsep
  have hle := occurrences_le hsep s.bytes
  have hallocated := s.allocated
  obtain ⟨result, parts, hloop, hresult, hparts⟩ := splitLoop_ok hsep s.noNul s.allocated
    (listNew (Option VisualString)) (by
      show 0 + _ < _
      norm_num [Gc.headerSize, Gc.uint32Max, maxLength] at hallocated ⊢
      omega)
  refine ⟨result, ?_, ?_⟩
  · simp only [stringSplit, hseparator]
    exact hloop
  · rw [hresult]
    exact hparts

/-! ### The two passes of the join -/

theorem joinLength_eq (sep : List UInt8) (htexts : Texts data texts) {total : ℕ} (htotal : total < 2 ^ 64) :
    joinLength sep.length data total = (total + (sep.intercalate texts).length) % 2 ^ 64 := by
  induction data generalizing texts total with
  | nil =>
      cases texts with
      | nil => exact (Nat.mod_eq_of_lt htotal).symm
      | cons => cases htexts
  | cons part parts ih =>
      cases texts with
      | nil => cases htexts
      | cons text texts =>
          obtain ⟨hpart, hrest⟩ := List.cons.inj htexts
          obtain ⟨s, rfl, rfl⟩ := Option.map_eq_some_iff.mp hpart
          rw [joinLength]
          by_cases hlast : parts = []
          · have hnone : texts = [] := by
              rw [hlast] at hrest
              exact List.map_eq_nil_iff.mp hrest.symm
            rw [if_pos hlast, hlast, hnone, List.intercalate_singleton]
            rfl
          · have hmore : texts ≠ [] := by
              rintro rfl
              exact hlast (List.map_eq_nil_iff.mp hrest)
            rw [if_neg hlast, ih hrest (Nat.mod_lt _ (by norm_num)), List.intercalate_cons_of_ne_nil hmore,
              List.length_append, List.length_append]
            omega

/-- The separator behind a part that is not the last. -/
theorem joinCopy_between (sep : List UInt8) {parts : List (Option VisualString)} {b : Block} (hparts : parts ≠ [])
    (hroom : b.written.length + sep.length ≤ b.size) :
    ∃ out, (if parts ≠ [] ∧ 0 < sep.length then b.put sep >>= joinCopy sep parts else .ok b >>= joinCopy sep parts) =
        joinCopy sep parts out ∧ out.size = b.size ∧ out.written = b.written ++ sep := by
  by_cases hsep : sep = []
  · refine ⟨b, if_neg fun h => ?_, rfl, by rw [hsep, List.append_nil]⟩
    rw [hsep] at h
    exact absurd h.2 (Nat.lt_irrefl 0)
  · obtain ⟨out, hput, hsize, hwritten⟩ := Block.put_ok _ _ hroom
    refine ⟨out, ?_, hsize, hwritten⟩
    rw [if_pos ⟨hparts, List.length_pos_iff.mpr hsep⟩, hput]
    rfl

theorem joinCopy_ok (sep : List UInt8) (htexts : Texts data texts) (out : Block)
    (hroom : out.written.length + (sep.intercalate texts).length ≤ out.size) :
    ∃ result, joinCopy sep data out = .ok result ∧ result.size = out.size ∧
      result.written = out.written ++ sep.intercalate texts := by
  induction data generalizing texts out with
  | nil =>
      cases texts with
      | nil => exact ⟨out, rfl, rfl, (List.append_nil _).symm⟩
      | cons => cases htexts
  | cons part parts ih =>
      cases texts with
      | nil => cases htexts
      | cons text texts =>
          obtain ⟨hpart, hrest⟩ := List.cons.inj htexts
          obtain ⟨s, rfl, rfl⟩ := Option.map_eq_some_iff.mp hpart
          by_cases hlast : parts = []
          · have hnone : texts = [] := by
              rw [hlast] at hrest
              exact List.map_eq_nil_iff.mp hrest.symm
            rw [hnone, List.intercalate_singleton] at hroom ⊢
            obtain ⟨result, hput, hsize, hwritten⟩ := Block.put_ok _ _ hroom
            refine ⟨result, ?_, hsize, hwritten⟩
            rw [joinCopy]
            dsimp only
            rw [hput, hlast]
            rfl
          · have hmore : texts ≠ [] := by
              rintro rfl
              exact hlast (List.map_eq_nil_iff.mp hrest)
            rw [List.intercalate_cons_of_ne_nil hmore, List.append_assoc] at hroom ⊢
            rw [List.length_append, List.length_append] at hroom
            obtain ⟨next, hput, hsize, hwritten⟩ := Block.put_ok out s.bytes (by omega)
            obtain ⟨between, hbetween, hsize', hwritten'⟩ := joinCopy_between sep
              (b := next) hlast (by
                rw [hwritten, hsize, List.length_append]
                omega)
            obtain ⟨result, hall, hsize'', hwritten''⟩ := ih hrest between (by
              rw [hwritten', hwritten, hsize', hsize, List.length_append, List.length_append]
              omega)
            refine ⟨result, ?_, by rw [hsize'', hsize', hsize], by
              rw [hwritten'', hwritten', hwritten, List.append_assoc, List.append_assoc]⟩
            rw [joinCopy]
            dsimp only
            rw [hput]
            exact hbetween.trans hall

/-- A text that is written to a block of its size ends as its copy, or the block is refused. -/
theorem eq_strdup {bytes : List UInt8} {f : Block → Except Stop VisualString}
    (hf : ∀ out, alloc (bytes.length + 1) = .ok out → ∃ s, f out = .ok s ∧ s.bytes = bytes) (hnul : 0 ∉ bytes) :
    alloc (bytes.length + 1) >>= f = strdup bytes := by
  cases halloc : alloc (bytes.length + 1) with
  | error e =>
      rw [strdup, halloc]
      rfl
  | ok out =>
      obtain ⟨s, hs, hbytes⟩ := hf out halloc
      have hsize : Gc.headerSize + (bytes.length + 1) ≤ Gc.uint32Max := (alloc_size halloc).1 ▸ out.allocated
      rw [strdup_bytes hnul hsize]
      exact hs.trans (congrArg _ (VisualString.ext_bytes hbytes))

/-- **The join.** -/
theorem stringJoin_eq {sep : VisualString} {parts : StringList} (htexts : Texts parts.data texts) (hne : texts ≠ [])
    (hnul : 0 ∉ sep.bytes.intercalate texts) (hlen : (sep.bytes.intercalate texts).length + 1 < 2 ^ 64) :
    stringJoin (some sep) (some parts) = strdup (sep.bytes.intercalate texts) := by
  have hdata : parts.data ≠ [] := by
    intro hnil
    have := htexts.length_eq
    rw [hnil] at this
    exact hne (List.eq_nil_of_length_eq_zero this.symm)
  have htotal : (joinLength sep.bytes.length parts.data 0 + 1) % 2 ^ 64 = (sep.bytes.intercalate texts).length + 1 := by
    rw [joinLength_eq sep.bytes htexts (by norm_num), zero_add,
      Nat.mod_eq_of_lt (show (sep.bytes.intercalate texts).length < 2 ^ 64 by omega), Nat.mod_eq_of_lt hlen]
  rw [stringJoin]
  dsimp only [Option.map_some, Option.getD_some]
  rw [if_neg hdata, htotal]
  refine eq_strdup (fun out halloc => ?_) hnul
  obtain ⟨hsize, hempty⟩ := alloc_size halloc
  obtain ⟨copied, hcopy, hsize', hcopied⟩ := joinCopy_ok sep.bytes htexts out (by
    rw [hempty, hsize, List.length_nil]
    omega)
  rw [hempty, List.nil_append] at hcopied
  obtain ⟨closed, hput, -, hclosed⟩ := Block.put_ok copied [0] (by
    rw [hcopied, hsize', hsize, List.length_singleton])
  obtain ⟨s, hs, hbytes⟩ := Block.string_ok closed _ hnul (hclosed.trans (by rw [hcopied]))
  refine ⟨s, ?_, hbytes⟩
  rw [hcopy]
  show (copied.put [0] >>= _) = _
  rw [hput]
  exact hs

end Parts

/-! ### A split undone -/

/-- **Splitting and joining.** -/
theorem join_split (s sep : VisualString) (hsep : sep.bytes ≠ []) :
    ∃ parts, stringSplit (some s) (some sep) = .ok parts ∧ stringJoin (some sep) (some parts) = .ok s ∧
      (∀ part ∈ parts.data, ∃ p, part = some p ∧ ¬ sep.bytes <:+: p.bytes) ∧
      parts.data.length = occurrences sep.bytes hsep s.bytes + 1 := by
  obtain ⟨parts, hsplit, htexts⟩ := stringSplit_ok s hsep
  have hwhole := intercalate_cutAt hsep s.bytes
  have hallocated := s.allocated
  refine ⟨parts, hsplit, ?_, ?_, htexts.length_eq.trans (length_cutAt hsep s.bytes)⟩
  · rw [stringJoin_eq htexts (cutAt_ne_nil hsep) (by rw [hwhole]; exact s.noNul) (by
      rw [hwhole]
      norm_num [Gc.headerSize, Gc.uint32Max] at hallocated ⊢
      omega), hwhole]
    exact strdup_ok s
  · intro part hpart
    have hmem : part.map (fun s => s.bytes) ∈ (cutAt sep.bytes hsep s.bytes).map some :=
      htexts ▸ List.mem_map_of_mem hpart
    obtain ⟨text, htext, heq⟩ := List.mem_map.mp hmem
    obtain ⟨p, rfl, rfl⟩ := Option.map_eq_some_iff.mp heq.symm
    exact ⟨p, rfl, not_infix_of_mem_cutAt hsep htext⟩

/-- `"ab"` split at `"b"`. -/
theorem join_split_letters : ∃ parts, stringSplit (some letters) (some ⟨⟨[98], by decide⟩, by decide⟩) = .ok parts ∧
    stringJoin (some ⟨⟨[98], by decide⟩, by decide⟩) (some parts) = .ok letters ∧
    (∀ part ∈ parts.data, ∃ p, part = some p ∧ ¬ [98] <:+: p.bytes) ∧
    parts.data.length = occurrences [98] (by decide) letters.bytes + 1 :=
  join_split letters ⟨⟨[98], by decide⟩, by decide⟩ (by decide)

/-! ### The two passes of the replacement -/

section Replace

variable {old new p s : List UInt8}

theorem countLoop_eq (hold : old ≠ []) {count : ℕ} (hcount : count < 2 ^ 64) :
    countLoop old hold p count = (count + occurrences old hold p) % 2 ^ 64 := by
  induction p using occurrence_induction hold generalizing count with
  | hnone p h =>
      rw [countLoop, occurrences_of_none hold h, add_zero, Nat.mod_eq_of_lt hcount]
      split
      · rfl
      · next heq =>
        rw [h] at heq
        cases heq
  | hsome p i h ih =>
      rw [countLoop, occurrences_of_some hold h]
      split
      · next heq =>
        rw [h] at heq
        cases heq
      · next j heq =>
        rw [h] at heq
        cases heq
        rw [ih (Nat.mod_lt _ (by norm_num))]
        omega

/-- **The size is right**, though the difference of the lengths and the product may wrap around. -/
theorem outLen_eq (new : List UInt8) (hold : old ≠ []) (hs : s.length < 2 ^ 32) (holdlen : old.length < 2 ^ 32)
    (hnew : new.length < 2 ^ 32) :
    outLen s old hold new = (new.intercalate (cutAt old hold s)).length ∧
      (new.intercalate (cutAt old hold s)).length + 1 < 2 ^ 64 := by
  have hcount := occurrences_le hold s
  have hlength := length_intercalate_cutAt hold new s
  have hproduct : occurrences old hold s * new.length ≤ (2 ^ 32 - 1) * (2 ^ 32 - 1) :=
    Nat.mul_le_mul (by omega) (by omega)
  have hle : (new.intercalate (cutAt old hold s)).length + 1 < 2 ^ 64 := by omega
  refine ⟨?_, hle⟩
  have hwrap : s.length + occurrences old hold s * (new.length + 2 ^ 64 - old.length) =
      (new.intercalate (cutAt old hold s)).length + occurrences old hold s * 2 ^ 64 := by
    rw [Nat.mul_sub, Nat.mul_add]
    have : occurrences old hold s * old.length ≤ occurrences old hold s * 2 ^ 64 :=
      Nat.mul_le_mul_left _ (by omega)
    omega
  have hcounted : countLoop old hold s 0 = occurrences old hold s := by
    rw [countLoop_eq hold (by norm_num), zero_add, Nat.mod_eq_of_lt (by omega)]
  rw [outLen, hcounted, Nat.add_mod, Nat.mul_mod, Nat.mod_mod, ← Nat.mul_mod, ← Nat.add_mod, hwrap,
    Nat.add_mul_mod_self_right, Nat.mod_eq_of_lt (by omega)]

/-- **The pass that copies** writes the text with the replacements and the terminator. -/
theorem replaceLoop_ok (p new : List UInt8) (hold : old ≠ []) (out : Block)
    (hroom : out.written.length + ((new.intercalate (cutAt old hold p)).length + 1) ≤ out.size) :
    ∃ full, replaceLoop old hold new p out = .ok full ∧ full.size = out.size ∧
      full.written = out.written ++ (new.intercalate (cutAt old hold p) ++ [0]) := by
  induction p using occurrence_induction hold generalizing out with
  | hnone p h =>
      rw [cutAt_of_none hold h, List.intercalate_singleton] at hroom ⊢
      obtain ⟨full, hput, hsize, hwritten⟩ := Block.put_ok out (p ++ [0]) (by
        rw [List.length_append, List.length_singleton]
        exact hroom)
      refine ⟨full, ?_, hsize, hwritten⟩
      rw [replaceLoop]
      split
      · exact hput
      · next heq =>
        rw [h] at heq
        cases heq
  | hsome p i h ih =>
      rw [cutAt_of_some hold h, List.intercalate_cons_of_ne_nil (cutAt_ne_nil hold)] at hroom ⊢
      rw [List.length_append, List.length_append] at hroom
      obtain ⟨chunk, hput, hsize, hwritten⟩ := Block.put_ok out (p.take i) (by omega)
      obtain ⟨next, hnext, hsize', hwritten'⟩ := Block.put_ok chunk new (by
        rw [hwritten, hsize, List.length_append]
        omega)
      obtain ⟨full, hrest, hsize'', hwritten''⟩ := ih next (by
        rw [hwritten', hwritten, hsize', hsize, List.length_append, List.length_append]
        omega)
      refine ⟨full, ?_, by rw [hsize'', hsize', hsize], by
        rw [hwritten'', hwritten', hwritten]
        simp only [List.append_assoc]⟩
      rw [replaceLoop]
      split
      · next heq =>
        rw [h] at heq
        cases heq
      · next j heq =>
        rw [h] at heq
        cases heq
        rw [hput]
        show (chunk.put new >>= _) = _
        rw [hnext]
        exact hrest

/-- No terminator gets into the text. -/
theorem not_mem_intercalate (hs : 0 ∉ s) (hnew : 0 ∉ new) (hold : old ≠ []) :
    0 ∉ new.intercalate (cutAt old hold s) := by
  induction s using occurrence_induction hold with
  | hnone s h => rwa [cutAt_of_none hold h, List.intercalate_singleton]
  | hsome s i h ih =>
      rw [cutAt_of_some hold h, List.intercalate_cons_of_ne_nil (cutAt_ne_nil hold), List.append_assoc,
        List.mem_append, List.mem_append]
      rintro (hmem | hmem | hmem)
      · exact hs (List.mem_of_mem_take hmem)
      · exact hnew hmem
      · exact ih (fun hmem => hs (List.mem_of_mem_drop hmem)) hmem

end Replace

theorem VisualString.length_lt (s : VisualString) : s.bytes.length < 2 ^ 32 := by
  have := s.allocated
  norm_num [Gc.headerSize, Gc.uint32Max] at this ⊢
  omega

/-- **Replacing** is splitting and joining, and the copies fill the block that the count has sized. -/
theorem replace_eq_join (s old new : VisualString) (hold : old.bytes ≠ []) :
    stringReplace (some s) (some old) (some new) = (do
        let parts ← stringSplit (some s) (some old)
        stringJoin (some new) (some parts)) ∧
      ∀ out, alloc ((outLen s.bytes old.bytes hold new.bytes + 1) % 2 ^ 64) = .ok out →
        out.size = outLen s.bytes old.bytes hold new.bytes + 1 ∧
          ∃ full, replaceLoop old.bytes hold new.bytes s.bytes out = .ok full ∧ full.size = out.size ∧
            full.written.length = out.size := by
  obtain ⟨parts, hsplit, htexts⟩ := stringSplit_ok s hold
  obtain ⟨hout, hlen⟩ := outLen_eq new.bytes hold s.length_lt old.length_lt new.length_lt
  have hnul := not_mem_intercalate s.noNul new.noNul hold
  have hfill : ∀ out, alloc ((new.bytes.intercalate (cutAt old.bytes hold s.bytes)).length + 1) = .ok out →
      out.size = (new.bytes.intercalate (cutAt old.bytes hold s.bytes)).length + 1 ∧
        ∃ full, replaceLoop old.bytes hold new.bytes s.bytes out = .ok full ∧ full.size = out.size ∧
          full.written = new.bytes.intercalate (cutAt old.bytes hold s.bytes) ++ [0] := by
    intro out halloc
    obtain ⟨hsize, hempty⟩ := alloc_size halloc
    obtain ⟨full, hloop, hfull, hwritten⟩ := replaceLoop_ok s.bytes new.bytes hold out (by
      rw [hempty, hsize, List.length_nil]
      omega)
    rw [hempty, List.nil_append] at hwritten
    exact ⟨hsize, full, hloop, hfull, hwritten⟩
  constructor
  · rw [hsplit]
    show _ = stringJoin (some new) (some parts)
    rw [stringJoin_eq htexts (cutAt_ne_nil hold) hnul hlen, stringReplace]
    dsimp only [Option.map_some, Option.getD_some]
    rw [dif_neg hold, hout, Nat.mod_eq_of_lt hlen]
    refine eq_strdup (fun out halloc => ?_) hnul
    obtain ⟨-, full, hloop, -, hwritten⟩ := hfill out halloc
    obtain ⟨t, ht, hbytes⟩ := Block.string_ok _ _ hnul hwritten
    refine ⟨t, ?_, hbytes⟩
    rw [hloop]
    exact ht
  · intro out halloc
    rw [hout, Nat.mod_eq_of_lt hlen] at halloc
    obtain ⟨hsize, full, hloop, hfull, hwritten⟩ := hfill out halloc
    rw [hout]
    refine ⟨hsize, full, hloop, hfull, ?_⟩
    rw [hwritten, hsize, List.length_append, List.length_singleton]

theorem replace_letters : stringReplace (some letters) (some ⟨⟨[98], by decide⟩, by decide⟩) (some emptyString) = (do
        let parts ← stringSplit (some letters) (some ⟨⟨[98], by decide⟩, by decide⟩)
        stringJoin (some emptyString) (some parts)) ∧
      ∀ out, alloc ((outLen letters.bytes [98] (by decide) [] + 1) % 2 ^ 64) = .ok out →
        out.size = outLen letters.bytes [98] (by decide) [] + 1 ∧
          ∃ full, replaceLoop [98] (by decide) [] letters.bytes out = .ok full ∧ full.size = out.size ∧
            full.written.length = out.size :=
  replace_eq_join letters ⟨⟨[98], by decide⟩, by decide⟩ emptyString (by decide)

end Visuall.Runtime
