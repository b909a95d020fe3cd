import Mathlib

/-!
# Incremental sync

`LspServer::handleDidChange`, which applies the changes of an editor to the content of a document, byte by
byte, beside what the editor does to its text: positions are lines and UTF-16 code units, a line ends at
`\n`, `\r\n` or `\r`, and a character beyond the end of its line means the end of the line.

* `applyChange`, `handleDidChange` — the server; `clientChange` — the editor;
* `OnTarget` — where a position is found by counting newlines and adding bytes;
* `offsetOf_eq_iff` — exactly when the two offsets of a position are equal;
* `sync_in_step` — if every position is on target, the content is the text of the editor.
-/

namespace Visuall.Lsp

/-! ## Positions and changes -/

/-- A zero-based position. -/
structure Position where
  line : ℕ
  character : ℕ
  deriving DecidableEq

/-- The position is no later than the other one. -/
def Position.Le (p q : Position) : Prop := p.line < q.line ∨ p.line = q.line ∧ p.character ≤ q.character

instance (p q : Position) : Decidable (p.Le q) := by
  unfold Position.Le
  infer_instance

/-- A valid range. -/
structure Range where
  start : Position
  stop : Position
  le : start.Le stop

/-- An item of `contentChanges`: without a range, the text is the whole content. -/
structure Change where
  range : Option Range
  text : List Char

/-! ## The server -/

/-- The bytes of a text. -/
def utf8 (text : List Char) : List UInt8 := text.flatMap String.utf8EncodeChar

/-- The loop of `offsetOf`: behind so many newlines. -/
def lineOffset : ℕ → List UInt8 → ℕ
  | 0, _ => 0
  | _ + 1, [] => 0
  | line + 1, b :: content => lineOffset (if b = 10 then line else line + 1) content + 1

/-- `offsetOf`. -/
def offsetOf (content : List UInt8) (p : Position) : ℕ := lineOffset p.line content + p.character

/-- `content.replace(startOff, endOff - startOff, newText)`; a negative length is a huge one. -/
def replace (content : List UInt8) (startOff endOff : ℕ) (newText : List UInt8) : List UInt8 :=
  if startOff ≤ endOff then content.take startOff ++ newText ++ content.drop endOff
  else content.take startOff ++ newText

/-- The body of the loop over the changes. -/
def applyChange (content : List UInt8) (change : Change) : List UInt8 :=
  match change.range with
  | some range =>
    let startOff := offsetOf content range.start
    let endOff := offsetOf content range.stop
    if startOff ≤ content.length ∧ endOff ≤ content.length then
      replace content startOff endOff (utf8 change.text)
    else content
  | none => utf8 change.text

structure Document where
  content : List UInt8
  version : ℤ

/-- `handleDidChange`, as far as the content of the documents goes. -/
def handleDidChange (store : List Char → Option Document) (uri : List Char) (version : ℤ)
    (changes : List Change) : List Char → Option Document :=
  if changes = [] then store
  else
    match store uri with
    | none => store
    | some doc => fun u =>
      if u = uri then some { content := changes.foldl applyChange doc.content, version := version }
      else store u

/-! ## The editor -/

/-- The UTF-16 code units of a character. -/
def utf16Size (c : Char) : ℕ := if c.toNat ≤ 0xFFFF then 1 else 2

/-- The text behind so many line ends. -/
def skipLines : ℕ → List Char → List Char
  | 0, text => text
  | _ + 1, [] => []
  | line + 1, [c] => skipLines (if c = '\n' ∨ c = '\r' then line else line + 1) []
  | line + 1, c :: d :: text =>
    if c = '\r' ∧ d = '\n' then skipLines line text
    else skipLines (if c = '\n' ∨ c = '\r' then line else line + 1) (d :: text)

/-- The text up to the end of its line. -/
def lineText (text : List Char) : List Char := text.takeWhile fun c => c != '\n' && c != '\r'

/-- The characters that fit in so many code units. -/
def takeUnits : ℕ → List Char → List Char
  | _, [] => []
  | n, c :: text => if utf16Size c ≤ n then c :: takeUnits (n - utf16Size c) text else []

/-- The lines that are skipped. -/
def skipped (line : ℕ) (text : List Char) : List Char :=
  text.take (text.length - (skipLines line text).length)

/-- The part of its line in front of a position. -/
def leftOf (p : Position) (text : List Char) : List Char :=
  takeUnits p.character (lineText (skipLines p.line text))

/-- The index of a position. -/
def indexOf (p : Position) (text : List Char) : ℕ := (skipped p.line text).length + (leftOf p text).length

/-- A change in the editor. -/
def clientChange (text : List Char) (change : Change) : List Char :=
  match change.range with
  | some range =>
    text.take (indexOf range.start text) ++ change.text ++ text.drop (indexOf range.stop text)
  | none => change.text

/-! ## Where both agree -/

/-- Every carriage return is followed by a newline. -/
def noLoneCr : List Char → Bool
  | [] => true
  | [c] => c != '\r'
  | c :: d :: text => (c != '\r' || d == '\n') && noLoneCr (d :: text)

/-- No line above the position ends in a lone carriage return, and in front of the position its line has as
many bytes as the position counts. -/
def OnTarget (p : Position) (text : List Char) : Prop :=
  noLoneCr (skipped p.line text) = true ∧ (utf8 (leftOf p text)).length = p.character

theorem utf8_append (text text' : List Char) : utf8 (text ++ text') = utf8 text ++ utf8 text' :=
  List.flatMap_append

theorem utf8_cons (c : Char) (text : List Char) : utf8 (c :: text) = String.utf8EncodeChar c ++ utf8 text :=
  List.flatMap_cons

/-- A newline is one byte, which no other character has. -/
theorem newline_byte {c : Char} (hc : c ≠ '\n') : (10 : UInt8) ∉ String.utf8EncodeChar c := by
  have hval : c.val.toNat ≠ 10 := by
    intro h
    exact hc (Char.toNat_inj.mp h)
  have hbyte : ∀ n : ℕ, n < 256 → n ≠ 10 → (10 : UInt8) ≠ UInt8.ofNat n := by
    intro n hn hne heq
    have h := congrArg UInt8.toNat heq
    rw [UInt8.toNat_ofNat_of_lt' hn] at h
    exact hne h.symm
  unfold String.utf8EncodeChar
  dsimp only
  split_ifs with h1 h2 h3
  · simp only [List.mem_singleton]
    exact hbyte _ (by omega) hval
  · simp only [List.mem_cons, List.not_mem_nil, or_false, not_or]
    exact ⟨hbyte _ (by omega) (by omega), hbyte _ (by omega) (by omega)⟩
  · simp only [List.mem_cons, List.not_mem_nil, or_false, not_or]
    exact ⟨hbyte _ (by omega) (by omega), hbyte _ (by omega) (by omega), hbyte _ (by omega) (by omega)⟩
  · simp only [List.mem_cons, List.not_mem_nil, or_false, not_or]
    exact ⟨hbyte _ (by omega) (by omega), hbyte _ (by omega) (by omega), hbyte _ (by omega) (by omega),
      hbyte _ (by omega) (by omega)⟩

theorem lineOffset_zero (content : List UInt8) : lineOffset 0 content = 0 := by
  cases content <;> rfl

theorem lineOffset_cons (line : ℕ) (b : UInt8) (content : List UInt8) :
    lineOffset (line + 1) (b :: content) = lineOffset (if b = 10 then line else line + 1) content + 1 := rfl

theorem lineOffset_append {line : ℕ} {bytes : List UInt8} (h : (10 : UInt8) ∉ bytes)
    (content : List UInt8) :
    lineOffset (line + 1) (bytes ++ content) = bytes.length + lineOffset (line + 1) content := by
  induction bytes with
  | nil => simp
  | cons b bytes ih =>
      have hb : b ≠ 10 := fun hb => h (hb ▸ List.mem_cons_self)
      rw [List.cons_append, lineOffset_cons, if_neg hb, ih fun hmem => h (List.mem_cons_of_mem _ hmem),
        List.length_cons]
      omega

/-! ## Lines -/

theorem skipLines_zero (text : List Char) : skipLines 0 text = text := by
  unfold skipLines
  rfl

theorem skipLines_nil (line : ℕ) : skipLines line [] = [] := by
  cases line <;> rfl

theorem skipLines_cons {line : ℕ} {c : Char} {text : List Char} (h : ¬ (c = '\r' ∧ text.head? = some '\n')) :
    skipLines (line + 1) (c :: text) = skipLines (if c = '\n' ∨ c = '\r' then line else line + 1) text := by
  cases text with
  | nil => rfl
  | cons d text => exact if_neg fun hcd => h ⟨hcd.1, congrArg some hcd.2⟩

theorem skipLines_crlf (line : ℕ) (text : List Char) :
    skipLines (line + 1) ('\r' :: '\n' :: text) = skipLines line text := rfl

/-- What a round of `skipLines` does, on a text that is not empty. -/
theorem skipLines_cases (line : ℕ) (c : Char) (text : List Char) :
    (∃ t, c = '\r' ∧ text = '\n' :: t ∧ skipLines (line + 1) (c :: text) = skipLines line t) ∨
      (¬ (c = '\r' ∧ text.head? = some '\n') ∧
        skipLines (line + 1) (c :: text) = skipLines (if c = '\n' ∨ c = '\r' then line else line + 1) text) := by
  by_cases h : c = '\r' ∧ text.head? = some '\n'
  · obtain ⟨rfl, hhead⟩ := h
    cases text with
    | nil => cases hhead
    | cons d t =>
        cases hhead
        exact .inl ⟨t, rfl, rfl, skipLines_crlf line t⟩
  · exact .inr ⟨h, skipLines_cons h⟩

theorem skipLines_suffix (line : ℕ) (text : List Char) : skipLines line text <:+ text := by
  generalize hlen : text.length = n
  induction n using Nat.strong_induction_on generalizing line text with
  | _ n ih =>
      cases line with
      | zero =>
          rw [skipLines_zero]
      | succ line =>
          cases text with
          | nil => exact List.suffix_rfl
          | cons c text =>
              rw [List.length_cons] at hlen
              rcases skipLines_cases line c text with ⟨t, rfl, rfl, h⟩ | ⟨_, h⟩
              · rw [List.length_cons] at hlen
                rw [h]
                exact ((ih t.length (by omega) line t rfl).trans (List.suffix_cons _ _)).trans
                  (List.suffix_cons _ _)
              · rw [h]
                exact (ih text.length (by omega) _ text rfl).trans (List.suffix_cons _ _)

theorem skipped_append (line : ℕ) (text : List Char) : skipped line text ++ skipLines line text = text := by
  obtain ⟨t, ht⟩ := skipLines_suffix line text
  have htake : skipped line text = t := by
    unfold skipped
    have hlen := congrArg List.length ht
    rw [List.length_append] at hlen
    have hcount : text.length - (skipLines line text).length = t.length := by omega
    rw [hcount]
    exact (congrArg (List.take t.length) ht).symm.trans List.take_left
  rw [htake, ht]

theorem skipped_eq {line line' : ℕ} {u text : List Char}
    (h : skipLines line (u ++ text) = skipLines line' text) :
    skipped line (u ++ text) = u ++ skipped line' text := by
  refine @List.append_cancel_right _ _ (skipLines line (u ++ text)) _ ?_
  rw [skipped_append, h, List.append_assoc, skipped_append]

theorem noLoneCr_tail {c : Char} {text : List Char} (h : noLoneCr (c :: text) = true) :
    noLoneCr text = true := by
  cases text with
  | nil => rfl
  | cons d text => exact (Bool.and_eq_true_iff.mp h).2

/-- A lone carriage return. -/
theorem noLoneCr_lone {text : List Char} (h : text.head? ≠ some '\n') : noLoneCr ('\r' :: text) = false := by
  cases text with
  | nil => rfl
  | cons d text =>
      have hd : d ≠ '\n' := fun hd => h (congrArg some hd)
      unfold noLoneCr
      simp [hd]

/-- Counting newlines finds the line, if no line above ends in a lone carriage return. -/
theorem lineOffset_eq (line : ℕ) (text : List Char) (h : noLoneCr (skipped line text) = true) :
    lineOffset line (utf8 text) = (utf8 (skipped line text)).length := by
  generalize hlen : text.length = n
  induction n using Nat.strong_induction_on generalizing line text with
  | _ n ih =>
      cases line with
      | zero =>
          have hnone : skipped 0 text = [] := by
            unfold skipped
            rw [skipLines_zero, Nat.sub_self, List.take_zero]
          rw [hnone, lineOffset_zero]
          rfl
      | succ line =>
          cases text with
          | nil => rfl
          | cons c text =>
              rw [List.length_cons] at hlen
              rcases skipLines_cases line c text with ⟨t, rfl, rfl, hskip⟩ | ⟨hnot, hskip⟩
              · have hskipped : skipped (line + 1) ('\r' :: '\n' :: t) = ['\r', '\n'] ++ skipped line t :=
                  skipped_eq (u := ['\r', '\n']) hskip
                rw [hskipped] at h ⊢
                rw [List.length_cons] at hlen
                rw [utf8_append, List.length_append,
                  ← ih t.length (by omega) line t (noLoneCr_tail (noLoneCr_tail h)) rfl]
                show lineOffset (line + 1) ((13 : UInt8) :: 10 :: utf8 t) = 2 + _
                rw [lineOffset_cons, if_neg (by decide), lineOffset_cons, if_pos rfl]
                omega
              · have hskipped : skipped (line + 1) (c :: text) =
                    [c] ++ skipped (if c = '\n' ∨ c = '\r' then line else line + 1) text :=
                  skipped_eq (u := [c]) hskip
                rw [hskipped] at h ⊢
                have hrest := ih text.length (by omega) (if c = '\n' ∨ c = '\r' then line else line + 1) text
                  (noLoneCr_tail h) rfl
                rw [utf8_append, List.length_append, ← hrest, utf8_cons]
                by_cases hc : c = '\n'
                · subst hc
                  rw [if_pos (.inl rfl)]
                  show lineOffset (line + 1) ((10 : UInt8) :: utf8 text) = 1 + _
                  rw [lineOffset_cons, if_pos rfl]
                  omega
                · have hcr : c ≠ '\r' := by
                    rintro rfl
                    rw [if_pos (.inr rfl)] at h
                    -- what follows the carriage return is no newline
                    have hlone : (skipped line text).head? ≠ some '\n' := by
                      intro hhead
                      apply hnot
                      refine ⟨rfl, ?_⟩
                      have happend := skipped_append line text
                      cases hs : skipped line text with
                      | nil =>
                          rw [hs] at hhead
                          cases hhead
                      | cons d s =>
                          rw [hs] at hhead happend
                          rw [← happend]
                          exact hhead
                    have hfalse := noLoneCr_lone hlone
                    rw [show ['\r'] ++ skipped line text = '\r' :: skipped line text from rfl, hfalse] at h
                    cases h
                  rw [if_neg (by tauto), lineOffset_append (newline_byte hc)]
                  unfold utf8
                  simp

/-! ## Columns -/

theorem takeUnits_initial (n : ℕ) (text : List Char) : takeUnits n text <+: text := by
  induction text generalizing n with
  | nil => exact List.prefix_rfl
  | cons c text ih =>
      unfold takeUnits
      split_ifs
      · exact (List.prefix_cons_inj c).mpr (ih _)
      · exact List.nil_prefix

theorem takeUnits_mono {n m : ℕ} (h : n ≤ m) (text : List Char) :
    (takeUnits n text).length ≤ (takeUnits m text).length := by
  induction text generalizing n m with
  | nil => exact le_rfl
  | cons c text ih =>
      unfold takeUnits
      split_ifs with hn hm
      · rw [List.length_cons, List.length_cons]
        exact Nat.succ_le_succ (ih (by omega))
      · exact absurd (hn.trans h) hm
      · exact Nat.zero_le _
      · exact Nat.zero_le _

theorem leftOf_initial (p : Position) (text : List Char) : leftOf p text <+: lineText (skipLines p.line text) :=
  takeUnits_initial _ _

/-- The text in front of a position. -/
theorem take_indexOf (p : Position) (text : List Char) :
    text.take (indexOf p text) = skipped p.line text ++ leftOf p text := by
  obtain ⟨more, hmore⟩ := (leftOf_initial p text).trans (List.takeWhile_prefix _)
  have htext : text = (skipped p.line text ++ leftOf p text) ++ more := by
    rw [List.append_assoc, hmore, skipped_append]
  have hindex : indexOf p text = (skipped p.line text ++ leftOf p text).length := by
    rw [List.length_append]
    rfl
  rw [hindex]
  exact (congrArg (List.take _) htext).trans List.take_left

theorem skipLines_add (l k : ℕ) (text : List Char) : skipLines (l + k) text = skipLines k (skipLines l text) := by
  generalize hlen : text.length = n
  induction n using Nat.strong_induction_on generalizing l text with
  | _ n ih =>
      cases l with
      | zero => rw [Nat.zero_add, skipLines_zero]
      | succ l =>
          have hadd : l + 1 + k = l + k + 1 := by omega
          rw [hadd]
          cases text with
          | nil => rw [skipLines_nil, skipLines_nil, skipLines_nil]
          | cons c text =>
              rw [List.length_cons] at hlen
              rcases skipLines_cases l c text with ⟨t, rfl, rfl, h⟩ | ⟨hnot, h⟩
              · rw [List.length_cons] at hlen
                rw [h, skipLines_crlf]
                exact ih t.length (by omega) l t rfl
              · rw [h, skipLines_cons hnot]
                have hrest := ih text.length (by omega) (if c = '\n' ∨ c = '\r' then l else l + 1) text rfl
                rw [← hrest]
                split_ifs
                · rfl
                · rw [show l + 1 + k = l + k + 1 from hadd]

/-- A line below begins behind the end of this one. -/
theorem skipLines_length (k : ℕ) (text : List Char) :
    (skipLines (k + 1) text).length + (lineText text).length ≤ text.length := by
  induction text with
  | nil => exact le_rfl
  | cons c text ih =>
      have hsuffix := (skipLines_suffix (k + 1) (c :: text)).length_le
      by_cases hc : c = '\n' ∨ c = '\r'
      · have hline : lineText (c :: text) = [] := by
          unfold lineText
          rw [List.takeWhile_cons_of_neg]
          rcases hc with rfl | rfl
          · decide
          · decide
        rw [hline]
        exact hsuffix
      · have hline : lineText (c :: text) = c :: lineText text := by
          unfold lineText
          rw [List.takeWhile_cons_of_pos]
          simp only [not_or] at hc
          simp [hc]
        have hskip : skipLines (k + 1) (c :: text) = skipLines (k + 1) text := by
          rw [skipLines_cons fun h => hc (.inr h.1), if_neg hc]
        rw [hline, hskip, List.length_cons, List.length_cons]
        omega

/-- A valid range is one in the text. -/
theorem indexOf_mono {p q : Position} (h : p.Le q) (text : List Char) : indexOf p text ≤ indexOf q text := by
  have hcount : ∀ line, (skipped line text).length + (skipLines line text).length = text.length := by
    intro line
    rw [← List.length_append, skipped_append]
  unfold indexOf
  rcases h with hline | ⟨hline, hcharacter⟩
  · obtain ⟨k, hk⟩ : ∃ k, q.line = p.line + (k + 1) := ⟨q.line - p.line - 1, by omega⟩
    have hbelow := skipLines_length k (skipLines p.line text)
    rw [← skipLines_add, ← hk] at hbelow
    have hleft := (leftOf_initial p text).length_le
    have hp := hcount p.line
    have hq := hcount q.line
    omega
  · unfold leftOf
    rw [hline]
    exact Nat.add_le_add_left (takeUnits_mono hcharacter _) _

/-! ## Offsets -/

/-- **Exactly when the two offsets of a position are equal**, in a text whose lines above the position end in
newlines. -/
theorem offsetOf_eq_iff {p : Position} {text : List Char} (h : noLoneCr (skipped p.line text) = true) :
    offsetOf (utf8 text) p = (utf8 (text.take (indexOf p text))).length ↔
      (utf8 (leftOf p text)).length = p.character := by
  unfold offsetOf
  rw [lineOffset_eq p.line text h, take_indexOf, utf8_append, List.length_append]
  omega

theorem OnTarget.offset {p : Position} {text : List Char} (h : OnTarget p text) :
    offsetOf (utf8 text) p = (utf8 (text.take (indexOf p text))).length := (offsetOf_eq_iff h.1).mpr h.2

theorem utf8_take (text : List Char) (n : ℕ) :
    (utf8 text).take (utf8 (text.take n)).length = utf8 (text.take n) := by
  conv_lhs => rw [← List.take_append_drop n text, utf8_append]
  rw [List.take_append_drop]
  exact List.take_left

theorem utf8_drop (text : List Char) (n : ℕ) :
    (utf8 text).drop (utf8 (text.take n)).length = utf8 (text.drop n) := by
  conv_lhs => rw [← List.take_append_drop n text, utf8_append]
  rw [List.take_append_drop]
  exact List.drop_left

theorem utf8_take_length (text : List Char) {n m : ℕ} (h : n ≤ m) :
    (utf8 (text.take n)).length ≤ (utf8 (text.take m)).length := by
  obtain ⟨more, hmore⟩ : text.take n <+: text.take m := List.take_prefix_take_left h
  rw [← hmore, utf8_append, List.length_append]
  exact Nat.le_add_right _ _

/-! ## Main result -/

/-- Both ends of a change, if it has a range, are on target. -/
def Change.OnTarget (text : List Char) (change : Change) : Prop :=
  ∀ range ∈ change.range, Lsp.OnTarget range.start text ∧ Lsp.OnTarget range.stop text

/-- **The step.** -/
theorem applyChange_eq {text : List Char} {change : Change} (h : change.OnTarget text) :
    applyChange (utf8 text) change = utf8 (clientChange text change) := by
  unfold applyChange clientChange
  cases hrange : change.range with
  | none => rfl
  | some range =>
      obtain ⟨hstart, hstop⟩ := h range hrange
      have hle := indexOf_mono range.le text
      have hin : ∀ n, (utf8 (text.take n)).length ≤ (utf8 text).length := by
        intro n
        have hall := utf8_take_length text (Nat.le_max_left n text.length)
        rwa [List.take_of_length_le (Nat.le_max_right n text.length)] at hall
      dsimp only
      rw [hstart.offset, hstop.offset, if_pos ⟨hin _, hin _⟩]
      unfold replace
      rw [if_pos (utf8_take_length text hle), utf8_take, utf8_drop, utf8_append, utf8_append]

/-- Every change finds its range on target, in the text that the editor has then. -/
def AllOnTarget : List Char → List Change → Prop
  | _, [] => True
  | text, change :: changes => change.OnTarget text ∧ AllOnTarget (clientChange text change) changes

/-- **The run.** -/
theorem foldl_applyChange_eq {text : List Char} {changes : List Change} (h : AllOnTarget text changes) :
    changes.foldl applyChange (utf8 text) = utf8 (changes.foldl clientChange text) := by
  induction changes generalizing text with
  | nil => rfl
  | cons change changes ih =>
      rw [List.foldl_cons, List.foldl_cons, applyChange_eq h.1]
      exact ih h.2

/-- **Incremental sync keeps server and editor in step** when all positions are on target. -/
theorem sync_in_step {store : List Char → Option Document} {uri : List Char} {doc : Document}
    {text : List Char} {changes : List Change} (version : ℤ) (hdoc : store uri = some doc)
    (htext : doc.content = utf8 text) (h : AllOnTarget text changes) :
    ∃ doc', handleDidChange store uri version changes uri = some doc' ∧
      doc'.content = utf8 (changes.foldl clientChange text) := by
  unfold handleDidChange
  by_cases hempty : changes = []
  · rw [if_pos hempty, hempty]
    exact ⟨doc, hdoc, htext⟩
  · rw [if_neg hempty, hdoc]
    dsimp only
    rw [if_pos rfl]
    refine ⟨_, rfl, ?_⟩
    rw [htext]
    exact foldl_applyChange_eq h

/-- A word is replaced on the second line. -/
def replaceWord : Change := ⟨some ⟨⟨1, 2⟩, ⟨1, 5⟩, by decide⟩, "tea".toList⟩

theorem sync_in_step_word :
    ∃ doc', handleDidChange (fun _ => some ⟨utf8 "é\r\na pot b".toList, 1⟩) "file:///a".toList 2 [replaceWord]
        "file:///a".toList = some doc' ∧ doc'.content = utf8 "é\r\na tea b".toList := by
  have hword : AllOnTarget "é\r\na pot b".toList [replaceWord] := by
    refine ⟨fun range hrange => ?_, trivial⟩
    cases hrange
    exact ⟨⟨by decide, by decide⟩, ⟨by decide, by decide⟩⟩
  exact sync_in_step 2 rfl rfl hword

/-- A letter is typed behind one that has two bytes: the server puts it between them. -/
theorem insert_splits_letter :
    ∃ range : Range, ∃ doc', handleDidChange (fun _ => some ⟨utf8 "é".toList, 1⟩) "file:///a".toList 2
        [⟨some range, "x".toList⟩] "file:///a".toList = some doc' ∧
      doc'.content ≠ utf8 ([⟨some range, "x".toList⟩].foldl clientChange "é".toList) :=
  ⟨⟨⟨0, 1⟩, ⟨0, 1⟩, by decide⟩, ⟨[0xC3, 0x78, 0xA9], 2⟩, by rfl, by decide⟩

end Visuall.Lsp
