import Mathlib

/-!
# TOML documents

What a TOML reader does with strings, as far as a program that writes documents piece by piece depends on
it.  The grammar of strings is a relation between texts and values, so that it says nothing about how a
reader works; a reader is any function that respects it.

* `BasicToken`, `MultiToken`, `Seq`, `Literal` — the two forms of strings between double quotes;
* `Literal.plain` — a text put between quotes at the end of a line is read as itself only if it is plain;
* `document` — a comment and an array of tables with strings in them;
* `IsReader`, `IsReader.plain` — what a reader does with a document, and the documents read as written.
-/

namespace Visuall.Toml

/-! ### Strings -/

/-- The characters that stand for themselves between double quotes. -/
def isPlain (c : Char) : Bool := c == '\t' || (0x20 ≤ c.toNat && c != '"' && c != '\\' && c.toNat != 0x7F)

/-- The escapes of one letter. -/
def shortEscape : Char → Option Char
  | 'b' => some '\x08'
  | 't' => some '\t'
  | 'n' => some '\n'
  | 'f' => some '\x0c'
  | 'r' => some '\r'
  | '"' => some '"'
  | '\\' => some '\\'
  | _ => none

/-- The value of a hexadecimal digit. -/
def hexDigit (c : Char) : Option ℕ :=
  if c.isDigit then some (c.toNat - '0'.toNat)
  else if 'a' ≤ c ∧ c ≤ 'f' then some (c.toNat - 'a'.toNat + 10)
  else if 'A' ≤ c ∧ c ≤ 'F' then some (c.toNat - 'A'.toNat + 10)
  else none

/-- The value of hexadecimal digits. -/
def hexValue (digits : List Char) : Option ℕ :=
  digits.foldlM (fun n c => (hexDigit c).map (16 * n + ·)) 0

/-- What can stand in a string of one line: a text and the value it has. -/
inductive BasicToken : List Char → List Char → Prop
  | plain {c : Char} (h : isPlain c = true) : BasicToken [c] [c]
  | escape {c v : Char} (h : shortEscape c = some v) : BasicToken ['\\', c] [v]
  | unicode {digits : List Char} {v : Char} (hlen : digits.length = 4) (hv : hexValue digits = some v.toNat) :
      BasicToken ('\\' :: 'u' :: digits) [v]
  | longUnicode {digits : List Char} {v : Char} (hlen : digits.length = 8) (hv : hexValue digits = some v.toNat) :
      BasicToken ('\\' :: 'U' :: digits) [v]

/-- The two ways to end a line. -/
def IsNewline (n : List Char) : Prop := n = ['\n'] ∨ n = ['\r', '\n']

/-- What can stand in a string of several lines.  A reader may change the form of a line end, and a
backslash at the end of a line drops the white space behind it. -/
inductive MultiToken : List Char → List Char → Prop
  | basic {t v : List Char} (h : BasicToken t v) : MultiToken t v
  | quote : MultiToken ['"'] ['"']
  | newline {t v : List Char} (ht : IsNewline t) (hv : IsNewline v) : MultiToken t v
  | trim {blanks : List Char} (h : ∀ c ∈ blanks, c = ' ' ∨ c = '\t' ∨ c = '\n' ∨ c = '\r') : MultiToken ('\\' :: blanks) []

/-- Tokens one after the other. -/
inductive Seq (T : List Char → List Char → Prop) : List Char → List Char → Prop
  | nil : Seq T [] []
  | cons {t v s w : List Char} (h : T t v) (hs : Seq T s w) : Seq T (t ++ s) (v ++ w)

/-- What follows an opening quote begins with the rest of a string of this value. -/
inductive Literal : List Char → List Char → Prop
  | basic {text value rest : List Char} (h : Seq BasicToken text value) (hr : ¬ ['"', '"'] <+: text ++ '"' :: rest) :
      Literal (text ++ '"' :: rest) value
  | multi {nl text value rest : List Char} (hnl : nl = [] ∨ IsNewline nl) (h : Seq MultiToken text value) :
      Literal ('"' :: '"' :: (nl ++ (text ++ '"' :: '"' :: '"' :: rest))) value

section Strings

variable {a b n nl s t v w x y text value rest : List Char} {c : Char} {T : List Char → List Char → Prop}

theorem isPlain_ne (h : isPlain c = true) : c ≠ '"' ∧ c ≠ '\\' ∧ c ≠ '\n' ∧ c ≠ '\r' := by
  refine ⟨?_, ?_, ?_, ?_⟩ <;> rintro rfl <;> exact absurd h (by decide)

theorem IsNewline.head (h : IsNewline n) : ∃ c m, n = c :: m ∧ (c = '\n' ∨ c = '\r') := by
  rcases h with rfl | rfl
  · exact ⟨_, _, rfl, .inl rfl⟩
  · exact ⟨_, _, rfl, .inr rfl⟩

theorem IsNewline.quote_notMem (h : IsNewline n) : '"' ∉ n := by
  rcases h with rfl | rfl <;> decide

theorem shortEscape_quote {v : Char} (h : shortEscape '"' = some v) : v = '"' := (Option.some.inj h).symm

theorem hexDigit_quote : hexDigit '"' = none := rfl

/-- Hexadecimal digits are no quotes. -/
theorem quote_notMem_digits {digits : List Char} {k m : ℕ}
    (h : digits.foldlM (fun n c => (hexDigit c).map (16 * n + ·)) k = some m) : '"' ∉ digits := by
  induction digits generalizing k with
  | nil => exact List.not_mem_nil
  | cons d digits ih =>
      rw [List.foldlM_cons] at h
      obtain ⟨j, hj, hrest⟩ := Option.bind_eq_some_iff.mp h
      intro hmem
      rcases List.mem_cons.mp hmem with heq | hmem
      · rw [← heq, hexDigit_quote] at hj
        cases hj
      · exact ih hrest hmem

/-! ### Tokens with a quote in them -/

/-- A quote is a token of its own or escaped. -/
def QuoteEnds (T : List Char → List Char → Prop) : Prop :=
  ∀ a b v, T (a ++ '"' :: b) v → (a = [] ∨ a = ['\\']) ∧ b = [] ∧ v = ['"']

theorem BasicToken.quoteEnds : QuoteEnds BasicToken := by
  have hdigits : ∀ {u : Char} {digits : List Char} {v : Char}, u ≠ '"' → hexValue digits = some v.toNat →
      '"' ∉ '\\' :: u :: digits := by
    intro u digits v hu hv hmem
    rcases List.mem_cons.mp hmem with heq | hmem
    · exact absurd heq (by decide)
    · rcases List.mem_cons.mp hmem with heq | hmem
      · exact hu heq.symm
      · exact quote_notMem_digits hv hmem
  intro a b v h
  generalize ht : a ++ '"' :: b = t at h
  have hmem : '"' ∈ t := ht ▸ List.mem_append_right a List.mem_cons_self
  cases h with
  | plain h => exact absurd (List.mem_singleton.mp hmem).symm (isPlain_ne h).1
  | @escape c v h =>
      cases a with
      | nil => exact absurd (List.cons.inj ht).1 (by decide)
      | cons a₀ a =>
          obtain ⟨rfl, hrest⟩ := List.cons.inj ht
          cases a with
          | nil =>
              obtain ⟨rfl, rfl⟩ := List.cons.inj hrest
              exact ⟨.inr rfl, rfl, by rw [shortEscape_quote h]⟩
          | cons a₁ a => exact absurd (List.cons.inj hrest).2 (by simp)
  | unicode hlen hv => exact absurd hmem (hdigits (by decide) hv)
  | longUnicode hlen hv => exact absurd hmem (hdigits (by decide) hv)

theorem MultiToken.quoteEnds : QuoteEnds MultiToken := by
  intro a b v h
  generalize ht : a ++ '"' :: b = t at h
  have hmem : '"' ∈ t := ht ▸ List.mem_append_right a List.mem_cons_self
  cases h with
  | basic h => exact BasicToken.quoteEnds a b v (ht ▸ h)
  | quote =>
      cases a with
      | nil => exact ⟨.inl rfl, (List.cons.inj ht).2, rfl⟩
      | cons a₀ a => exact absurd (List.cons.inj ht).2 (by simp)
  | newline hn _ => exact absurd hmem hn.quote_notMem
  | trim hblanks =>
      rcases List.mem_cons.mp hmem with heq | hmem
      · exact absurd heq (by decide)
      · rcases hblanks _ hmem with heq | heq | heq | heq <;> exact absurd heq (by decide)

/-- **Cutting at a quote.**  The text in front of it, without a backslash that escapes it, and the text
behind it are tokens. -/
theorem Seq.cut (hT : QuoteEnds T) (h : Seq T (a ++ '"' :: b) v) :
    ∃ a' v₁ v₂, (a = a' ∨ a = a' ++ ['\\']) ∧ Seq T a' v₁ ∧ Seq T b v₂ ∧ v = v₁ ++ '"' :: v₂ := by
  generalize hab : a ++ '"' :: b = text at h
  induction h generalizing a with
  | nil => exact absurd hab (by simp)
  | @cons t v s w htok hs ih =>
      -- the quote is behind the first token or in it
      have hbehind : ∀ a₂, a = t ++ a₂ → s = a₂ ++ '"' :: b →
          ∃ a' v₁ v₂, (a = a' ∨ a = a' ++ ['\\']) ∧ Seq T a' v₁ ∧ Seq T b v₂ ∧ v ++ w = v₁ ++ '"' :: v₂ := by
        intro a₂ ha hs₂
        obtain ⟨a', v₁, v₂, hcase, h₁, h₂, rfl⟩ := ih hs₂.symm
        refine ⟨t ++ a', v ++ v₁, v₂, ?_, .cons htok h₁, h₂, (List.append_assoc _ _ _).symm⟩
        rcases hcase with rfl | rfl
        · exact .inl ha
        · exact .inr (ha.trans (List.append_assoc _ _ _).symm)
      rcases List.append_eq_append_iff.mp hab with ⟨c, rfl, hc⟩ | ⟨c, ha, hc⟩
      · cases c with
        | nil => exact hbehind [] (by rw [List.append_nil, List.append_nil]) hc.symm
        | cons q c =>
            obtain ⟨rfl, rfl⟩ := List.cons.inj hc
            obtain ⟨hcase, rfl, rfl⟩ := hT a c v htok
            rcases hcase with rfl | rfl
            · exact ⟨[], [], w, .inl rfl, .nil, hs, rfl⟩
            · exact ⟨[], [], w, .inr rfl, .nil, hs, rfl⟩
      · exact hbehind c ha hc

/-! ### The size of values -/

theorem BasicToken.length (h : BasicToken t v) : v.length = 1 ∧ 1 ≤ t.length ∧ (t.length = 1 → ∀ c ∈ t, isPlain c = true) := by
  cases h with
  | plain h => exact ⟨rfl, le_rfl, fun _ c hc => List.mem_singleton.mp hc ▸ h⟩
  | escape _ => exact ⟨rfl, by simp, fun h => absurd h (by simp)⟩
  | unicode hlen _ => exact ⟨rfl, by simp, fun h => absurd h (by simp)⟩
  | longUnicode hlen _ => exact ⟨rfl, by simp, fun h => absurd h (by simp)⟩

/-- A value is no longer than its text, and shorter if there is an escape. -/
theorem Seq.length (h : Seq BasicToken t v) : v.length ≤ t.length ∧ (v.length = t.length → ∀ c ∈ t, isPlain c = true) := by
  induction h with
  | nil => exact ⟨le_rfl, fun _ c hc => absurd hc List.not_mem_nil⟩
  | @cons t v s w htok _ ih =>
      obtain ⟨hv, ht, hplain⟩ := htok.length
      rw [List.length_append, List.length_append]
      refine ⟨by omega, fun heq c hc => ?_⟩
      rcases List.mem_append.mp hc with hc | hc
      · exact hplain (by omega) c hc
      · exact ih.2 (by omega) c hc

/-- The number of characters that do not end lines. -/
def weight (s : List Char) : ℕ := s.countP fun c => c != '\n' && c != '\r'

theorem weight_append (s t : List Char) : weight (s ++ t) = weight s + weight t := List.countP_append

theorem IsNewline.weight (h : IsNewline n) : weight n = 0 := by
  rcases h with rfl | rfl <;> rfl

theorem weight_backslash (s : List Char) : 1 ≤ weight ('\\' :: s) := by
  rw [weight, List.countP_cons_of_pos (by decide)]
  exact Nat.le_add_left 1 _

theorem MultiToken.weight_le (h : MultiToken t v) : weight v ≤ weight t := by
  have hone : ∀ c : Char, weight [c] ≤ 1 := fun c => List.countP_le_length
  cases h with
  | basic h =>
      cases h with
      | plain _ => exact le_rfl
      | escape _ => exact (hone _).trans (weight_backslash _)
      | unicode _ _ => exact (hone _).trans (weight_backslash _)
      | longUnicode _ _ => exact (hone _).trans (weight_backslash _)
  | quote => exact le_rfl
  | newline ht hv => rw [ht.weight, hv.weight]
  | trim _ => exact Nat.zero_le _

theorem Seq.weight_le (h : Seq MultiToken t v) : weight v ≤ weight t := by
  induction h with
  | nil => exact le_rfl
  | cons htok _ ih =>
      rw [weight_append, weight_append]
      exact Nat.add_le_add htok.weight_le ih

/-! ### The end of a line -/

/-- An end of a line, and what the next line begins with. -/
def Break (x : List Char) : Prop := ∃ n y, IsNewline n ∧ (IsNewline y ∨ ∃ c, isPlain c = true ∧ y = [c]) ∧ x = n ++ y

theorem Break.quote_notMem (h : Break x) : '"' ∉ x := by
  obtain ⟨n, y, hn, hy, rfl⟩ := h
  intro hmem
  rcases List.mem_append.mp hmem with hmem | hmem
  · exact hn.quote_notMem hmem
  · rcases hy with hy | ⟨c, hc, rfl⟩
    · exact hy.quote_notMem hmem
    · exact (isPlain_ne hc).1 (List.mem_singleton.mp hmem).symm

/-- A break does not end in a backslash. -/
theorem Break.ne_backslash (h : Break x) (s : List Char) : x ≠ s ++ ['\\'] := by
  obtain ⟨n, y, hn, hy, rfl⟩ := h
  intro heq
  have hlast := congrArg List.getLast? heq
  rw [List.getLast?_concat] at hlast
  rcases hy with (rfl | rfl) | ⟨c, hc, rfl⟩
  · rw [List.getLast?_concat] at hlast
    exact absurd hlast (by decide)
  · rw [show n ++ ['\r', '\n'] = n ++ ['\r'] ++ ['\n'] from (List.append_assoc n ['\r'] ['\n']).symm, List.getLast?_concat] at hlast
    exact absurd hlast (by decide)
  · rw [List.getLast?_concat] at hlast
    exact (isPlain_ne hc).2.1 (Option.some.inj hlast)

/-- What stands behind a first end of a line is neither a quote nor a backslash. -/
theorem Break.next (hx : Break x) (hnl : nl = [] ∨ IsNewline nl) (h : nl ++ c :: s = x ++ t) : c ≠ '"' ∧ c ≠ '\\' := by
  have hend : ∀ {n : List Char} {r : List Char}, IsNewline n → c :: s = n ++ r → c ≠ '"' ∧ c ≠ '\\' := by
    intro n r hn heq
    obtain ⟨d, m, rfl, hd⟩ := hn.head
    obtain ⟨rfl, -⟩ := List.cons.inj heq
    rcases hd with rfl | rfl <;> decide
  obtain ⟨n, y, hn, hy, rfl⟩ := hx
  rw [List.append_assoc] at h
  rcases hnl with rfl | hnl
  · exact hend hn h
  · have hrest : c :: s = y ++ t := by
      rcases hnl with rfl | rfl <;> rcases hn with rfl | rfl
      · exact List.append_cancel_left h
      · exact absurd (List.cons.inj h).1 (by decide)
      · exact absurd (List.cons.inj h).1 (by decide)
      · exact List.append_cancel_left h
    rcases hy with hy | ⟨d, hd, rfl⟩
    · exact hend hy hrest
    · obtain ⟨rfl, -⟩ := List.cons.inj hrest
      exact ⟨(isPlain_ne hd).1, (isPlain_ne hd).2.1⟩

/-- A value of a text that begins with neither a quote nor a backslash does not begin with a quote. -/
theorem Seq.head_ne_quote (h : Seq MultiToken (c :: s) v) (hq : c ≠ '"') (hb : c ≠ '\\') : ∃ d v', v = d :: v' ∧ d ≠ '"' := by
  generalize hcs : c :: s = text at h
  induction h with
  | nil => cases hcs
  | @cons t v s' w htok hs ih =>
      have hback : ∀ r, t ≠ '\\' :: r := fun r ht => by
        rw [ht] at hcs
        exact hb (List.cons.inj hcs).1
      cases htok with
      | basic h =>
          cases h with
          | plain h =>
              obtain ⟨rfl, -⟩ := List.cons.inj hcs
              exact ⟨c, w, rfl, hq⟩
          | escape _ => exact absurd rfl (hback _)
          | unicode _ _ => exact absurd rfl (hback _)
          | longUnicode _ _ => exact absurd rfl (hback _)
      | quote => exact absurd (List.cons.inj hcs).1 hq
      | newline _ hv =>
          obtain ⟨d, m, rfl, hd⟩ := hv.head
          refine ⟨d, m ++ w, rfl, ?_⟩
          rcases hd with rfl | rfl <;> decide
      | trim _ => exact absurd rfl (hback _)

/-- The token at an end of a line is that end. -/
theorem MultiToken.of_newline (h : MultiToken t v) (hn : IsNewline n) (heq : t ++ s = n ++ w) (hne : t ≠ []) :
    t = n ∧ IsNewline v := by
  obtain ⟨c, m, hm, hc⟩ := hn.head
  obtain ⟨d, r, rfl⟩ := List.exists_cons_of_ne_nil hne
  rw [hm] at heq
  obtain ⟨rfl, hrest⟩ := List.cons.inj heq
  generalize ht : d :: r = t at h
  have hback : ∀ r', t ≠ '\\' :: r' := fun r' ht' => by
    rw [ht', List.cons.injEq] at ht
    rcases hc with rfl | rfl <;> exact absurd ht.1 (by decide)
  cases h with
  | basic h =>
      cases h with
      | plain h =>
          obtain ⟨rfl, -⟩ := List.cons.inj ht
          rcases hc with rfl | rfl <;> exact absurd h (by decide)
      | escape _ => exact absurd rfl (hback _)
      | unicode _ _ => exact absurd rfl (hback _)
      | longUnicode _ _ => exact absurd rfl (hback _)
  | quote =>
      rcases hc with rfl | rfl <;> exact absurd (List.cons.inj ht).1 (by decide)
  | newline ht' hv =>
      refine ⟨?_, hv⟩
      rcases ht' with rfl | rfl <;> rcases hn with rfl | rfl <;> first | rfl | (cases ht; exact absurd (List.cons.inj hm).1 (by decide))
  | trim _ => exact absurd rfl (hback _)

theorem MultiToken.ne_nil (h : MultiToken t v) : t ≠ [] := by
  cases h with
  | basic h =>
      have := h.length.2.1
      rintro rfl
      exact absurd this (by decide)
  | quote => exact List.cons_ne_nil _ _
  | newline hn _ =>
      obtain ⟨c, m, rfl, -⟩ := hn.head
      exact List.cons_ne_nil _ _
  | trim _ => exact List.cons_ne_nil _ _

theorem Seq.eq_nil (h : Seq MultiToken [] v) : v = [] := by
  generalize htext : [] = text at h
  cases h with
  | nil => rfl
  | cons htok _ => exact absurd (List.append_eq_nil_iff.mp htext.symm).1 htok.ne_nil

/-- A text that begins with an end of a line has a value that does. -/
theorem Seq.of_newline (h : Seq MultiToken (n ++ s) v) (hn : IsNewline n) : ∃ m w, v = m ++ w ∧ IsNewline m ∧ Seq MultiToken s w := by
  generalize htext : n ++ s = text at h
  cases h with
  | nil =>
      obtain ⟨c, m, rfl, -⟩ := hn.head
      cases htext
  | @cons t v s' w htok hs =>
      obtain ⟨rfl, hv⟩ := htok.of_newline hn htext.symm htok.ne_nil
      exact ⟨v, w, rfl, hv, List.append_cancel_left htext ▸ hs⟩

/-- A text that begins with a break has a value that does. -/
theorem Seq.of_break (h : Seq MultiToken (x ++ t) v) (hx : Break x) : ∃ x' w, v = x' ++ w ∧ Break x' := by
  obtain ⟨n, y, hn, hy, rfl⟩ := hx
  rw [List.append_assoc] at h
  obtain ⟨m, w, rfl, hm, hrest⟩ := h.of_newline hn
  rcases hy with hy | ⟨c, hc, rfl⟩
  · obtain ⟨m', w, rfl, hm', -⟩ := hrest.of_newline hy
    exact ⟨m ++ m', w, (List.append_assoc _ _ _).symm, m, m', hm, .inl hm', rfl⟩
  · have hne := isPlain_ne hc
    generalize htext : [c] ++ t = text at hrest
    cases hrest with
    | nil => cases htext
    | @cons t' v s w htok hs =>
        have hback : ∀ r, t' ≠ '\\' :: r := fun r ht => by
          rw [ht] at htext
          exact hne.2.1 (List.cons.inj htext).1
        cases htok with
        | basic h =>
            cases h with
            | @plain d hd => exact ⟨m ++ [d], w, by rw [List.append_assoc], m, [d], hm, .inr ⟨d, hd, rfl⟩, rfl⟩
            | escape _ => exact absurd rfl (hback _)
            | unicode _ _ => exact absurd rfl (hback _)
            | longUnicode _ _ => exact absurd rfl (hback _)
        | quote => exact absurd (List.cons.inj htext).1 hne.1
        | newline ht _ =>
            obtain ⟨d, r, rfl, hd⟩ := ht.head
            obtain ⟨rfl, -⟩ := List.cons.inj htext
            exact absurd hd (not_or.mpr hne.2.2)
        | trim _ => exact absurd rfl (hback _)

/-! ### Texts that are their own values -/

/-- What is behind a start without quotes. -/
theorem split_quote (h : nl ++ a = w ++ '"' :: b) (hnl : '"' ∉ nl) : ∃ w', w = nl ++ w' ∧ a = w' ++ '"' :: b := by
  rcases List.append_eq_append_iff.mp h with ⟨c, rfl, hc⟩ | ⟨c, rfl, hc⟩
  · exact ⟨c, rfl, hc⟩
  · cases c with
    | nil => exact ⟨[], by rw [List.append_nil, List.append_nil], hc.symm⟩
    | cons q c =>
        rw [← (List.cons.inj hc).1] at hnl
        exact absurd (List.mem_append_right w List.mem_cons_self) hnl

/-- Two quotes, and perhaps an end of a line, in front of a text: it does not give this as the value of the
text up to a later line.  The value of the quote at the end of the text is a quote at the end of a line in
the value; so that quote stands in the text already, and the part in front of it is a shorter case. -/
theorem Seq.ne_self (hnl : nl = [] ∨ IsNewline nl) (hx : Break x) (h : Seq MultiToken (w ++ '"' :: (x ++ t)) v) :
    v ≠ '"' :: '"' :: (nl ++ w) := by
  induction hlen : w.length using Nat.strong_induction_on generalizing w x t v with
  | _ k ih =>
      rintro rfl
      obtain ⟨w₀, v₁, v₂, hw, h₁, h₂, hv⟩ := h.cut MultiToken.quoteEnds
      obtain ⟨x', v₃, rfl, hx'⟩ := h₂.of_break hx
      -- the quote is behind the start of the value
      have hbehind : ∀ w₁, v₁ = '"' :: '"' :: (nl ++ w₁) → w = w₁ ++ '"' :: (x' ++ v₃) → False := by
        rintro w₁ rfl hw₁
        have hshort : w₁.length < k := by
          rw [← hlen, hw₁, List.length_append, List.length_cons]
          omega
        rcases hw with rfl | rfl
        · exact ih _ hshort hx' (hw₁ ▸ h₁) rfl rfl
        · rcases List.eq_nil_or_concat' v₃ with rfl | ⟨v₄, l, rfl⟩
          · rw [List.append_nil] at hw₁
            have hlast := congrArg List.getLast? hw₁
            obtain ⟨x₀, z, rfl⟩ := (List.eq_nil_or_concat' x').resolve_left fun hnil => by
              obtain ⟨n, y, hn, -, rfl⟩ := hx'
              obtain ⟨c, m, rfl, -⟩ := hn.head
              cases hnil
            rw [List.getLast?_concat, show w₁ ++ '"' :: (x₀ ++ [z]) = w₁ ++ '"' :: x₀ ++ [z] from (List.append_assoc w₁ ('"' :: x₀) [z]).symm,
              List.getLast?_concat] at hlast
            exact hx'.ne_backslash x₀ (by rw [Option.some.inj hlast])
          · have heq : w₀ ++ ['\\'] = w₁ ++ '"' :: (x' ++ v₄) ++ [l] := by
              rw [hw₁, List.append_assoc, List.cons_append, List.append_assoc]
            obtain ⟨rfl, -⟩ := List.append_inj' heq rfl
            exact ih _ hshort hx' h₁ rfl rfl
      -- a text with a quote as its value does not begin with a break
      have hsecond : ∀ c r, w = c :: r → c ≠ '"' → c ≠ '\\' → v₁ ≠ ['"'] := by
        rintro c r rfl hq hb rfl
        have hstart : ∃ r', w₀ = c :: r' := by
          rcases hw with hw | hw
          · exact ⟨r, hw.symm⟩
          · cases w₀ with
            | nil => exact absurd h₁.eq_nil (List.cons_ne_nil _ _)
            | cons d r' => exact ⟨r', by rw [(List.cons.inj hw).1]⟩
        obtain ⟨r', rfl⟩ := hstart
        obtain ⟨d, v', hd, hne⟩ := h₁.head_ne_quote hq hb
        exact hne (List.cons.inj hd).1.symm
      cases v₁ with
      | nil =>
          obtain ⟨n, y, hn, -, rfl⟩ := hx'
          obtain ⟨c, m, rfl, hc⟩ := hn.head
          have heq := (List.cons.inj (List.cons.inj hv).2).1
          rcases hc with rfl | rfl <;> exact absurd heq (by decide)
      | cons q v₁ =>
          obtain ⟨rfl, hv₁⟩ := List.cons.inj hv
          cases v₁ with
          | nil =>
              have hrest : nl ++ w = x' ++ v₃ := (List.cons.inj hv₁).2
              cases w with
              | nil =>
                  rcases hw with rfl | hw
                  · exact absurd h₁.eq_nil (List.cons_ne_nil _ _)
                  · exact absurd hw.symm (by simp)
              | cons c r =>
                  obtain ⟨hq, hb⟩ := hx'.next hnl hrest
                  exact hsecond c r rfl hq hb rfl
          | cons q v₁ =>
              obtain ⟨rfl, hv₂⟩ := List.cons.inj hv₁
              have hquote : '"' ∉ nl := by
                rcases hnl with rfl | hnl
                · exact List.not_mem_nil
                · exact hnl.quote_notMem
              obtain ⟨w₁, rfl, hw₁⟩ := split_quote hv₂ hquote
              exact hbehind w₁ rfl hw₁

/-- A string of one line does not go on behind its end. -/
theorem not_basic_break (hx : Break x) : ¬ Seq BasicToken (x ++ t) v := by
  intro h
  obtain ⟨n, y, hn, -, rfl⟩ := hx
  obtain ⟨c, m, rfl, hc⟩ := hn.head
  generalize htext : c :: m ++ y ++ t = text at h
  cases h with
  | nil => cases htext
  | cons htok _ =>
      cases htok with
      | plain h =>
          obtain ⟨rfl, -⟩ := List.cons.inj htext
          exact absurd hc (not_or.mpr (isPlain_ne h).2.2)
      | escape _ => rcases hc with rfl | rfl <;> exact absurd (List.cons.inj htext).1 (by decide)
      | unicode _ _ => rcases hc with rfl | rfl <;> exact absurd (List.cons.inj htext).1 (by decide)
      | longUnicode _ _ => rcases hc with rfl | rfl <;> exact absurd (List.cons.inj htext).1 (by decide)

/-- **A string that is read as it was written.**  A text between quotes at the end of a line, read as itself,
is plain. -/
theorem Literal.plain (hx : Break x) (h : Literal (s ++ '"' :: (x ++ t)) s) : ∀ c ∈ s, isPlain c = true := by
  generalize hr : s ++ '"' :: (x ++ t) = r at h
  cases h with
  | @basic text _ rest h hopen =>
      rcases List.append_eq_append_iff.mp hr with ⟨c, rfl, hc⟩ | ⟨c, rfl, hc⟩
      · cases c with
        | nil =>
            rw [List.append_nil] at h
            exact h.length.2 rfl
        | cons q c =>
            -- the quote is in the string, and so is the end of the line
            obtain ⟨rfl, hc₁⟩ := List.cons.inj hc
            obtain ⟨t', rfl, -⟩ := split_quote hc₁ hx.quote_notMem
            obtain ⟨_, _, v₂, -, -, h₂, -⟩ := h.cut BasicToken.quoteEnds
            exact absurd h₂ (not_basic_break hx)
      · obtain ⟨hle, hplain⟩ := h.length
        rw [List.length_append] at hle hplain
        have hnil : c = [] := List.length_eq_zero_iff.mp (by omega)
        rw [hnil, List.append_nil]
        exact hplain (by omega)
  | @multi nl text _ rest hnl h =>
      exfalso
      cases s with
      | nil =>
          have hopen := hx.quote_notMem
          obtain ⟨n, y, hn, -, rfl⟩ := hx
          obtain ⟨c, m, rfl, -⟩ := hn.head
          exact hopen (List.mem_append_left _ ((List.cons.inj (List.cons.inj hr).2).1 ▸ List.mem_cons_self))
      | cons q s =>
          obtain ⟨rfl, hr₁⟩ := List.cons.inj hr
          cases s with
          | nil =>
              have hrest := (List.cons.inj hr₁).2
              cases text with
              | nil => exact List.cons_ne_nil _ _ h.eq_nil
              | cons c text =>
                  obtain ⟨hq, hb⟩ := hx.next hnl hrest.symm
                  obtain ⟨d, v', hd, hne⟩ := h.head_ne_quote hq hb
                  exact hne (List.cons.inj hd).1.symm
          | cons q w =>
              obtain ⟨rfl, hr₂⟩ := List.cons.inj hr₁
              have hquote : '"' ∉ nl := by
                rcases hnl with rfl | hnl
                · exact List.not_mem_nil
                · exact hnl.quote_notMem
              obtain ⟨w', rfl, htext⟩ := split_quote hr₂.symm hquote
              -- a string that ends in the text is too small
              have hsmall : ∀ c, w' = text ++ c → False := by
                rintro c rfl
                have hle := h.weight_le
                rw [show ('"' :: '"' :: (nl ++ (text ++ c))) = ['"', '"'] ++ nl ++ text ++ c by simp, weight_append, weight_append, weight_append] at hle
                have htwo : weight ['"', '"'] = 2 := rfl
                omega
              rcases List.append_eq_append_iff.mp htext with ⟨c, hw, hc⟩ | ⟨c, rfl, hc⟩
              · exact hsmall c hw
              · cases c with
                | nil => exact hsmall [] (by simp)
                | cons q c =>
                    obtain ⟨rfl, hc₁⟩ := List.cons.inj hc
                    obtain ⟨t', rfl, -⟩ := split_quote hc₁ hx.quote_notMem
                    exact h.ne_self hnl hx rfl

end Strings

/-! ### Documents -/

/-- The values of a document; numbers, booleans and dates are not told apart. -/
inductive Value
  | string (s : List Char)
  | array (items : List Value)
  | table (entries : List (List Char × Value))
  | other

/-- The value under a key, if this is a table that has it. -/
def Value.find (key : List Char) : Value → Option Value
  | .table entries => entries.lookup key
  | _ => none

/-- The characters of a key without quotes. -/
def isBare (c : Char) : Bool := c.isAlphanum || c == '_' || c == '-'

/-- The characters of a comment. -/
def isComment (c : Char) : Bool := c == '\t' || (0x20 ≤ c.toNat && c.toNat != 0x7F)

/-- A line with a key and a text between quotes. -/
structure Field where
  key : List Char
  pad : List Char
  value : List Char

/-- The line up to the text. -/
def Field.opening (f : Field) : List Char := f.key ++ (f.pad ++ ['=', ' ', '"'])

def Field.text (f : Field) : List Char := f.opening ++ (f.value ++ ['"', '\n'])

/-- The text between the quotes stands for itself. -/
def Field.Plain (f : Field) : Prop := ∀ c ∈ f.value, isPlain c = true

/-- Keys are bare and different, with blanks behind them. -/
def Formed (fs : List Field) : Prop :=
  (∀ f ∈ fs, f.key ≠ [] ∧ (∀ c ∈ f.key, isBare c = true) ∧ ∀ c ∈ f.pad, c = ' ' ∨ c = '\t') ∧ (fs.map Field.key).Nodup

/-- The text under a key. -/
def fieldValue (key : List Char) (fs : List Field) : Option (List Char) := (fs.find? (·.key == key)).map Field.value

/-- Different keys have the texts of their fields. -/
theorem fieldValue_of_mem {fs : List Field} {f : Field} (h : (fs.map Field.key).Nodup) (hf : f ∈ fs) : fieldValue f.key fs = some f.value := by
  induction fs with
  | nil => exact absurd hf List.not_mem_nil
  | cons g fs ih =>
      obtain ⟨hnot, hrest⟩ := List.nodup_cons.mp h
      rw [fieldValue]
      rcases List.mem_cons.mp hf with rfl | hf
      · rw [List.find?_cons_of_pos (by simp)]
        rfl
      · have hne : ¬ (g.key == f.key) = true := fun heq => hnot (beq_iff_eq.mp heq ▸ List.mem_map_of_mem hf)
        rw [List.find?_cons_of_neg (p := fun x : Field => x.key == f.key) hne]
        exact ih hrest hf

theorem fieldValue_of_notMem {fs : List Field} {key : List Char} (h : key ∉ fs.map Field.key) : fieldValue key fs = none := by
  rw [fieldValue, Option.map_eq_none_iff, List.find?_eq_none]
  exact fun f hf heq => h (beq_iff_eq.mp heq ▸ List.mem_map_of_mem hf)

/-- The start of an element of an array of tables. -/
def header (name : List Char) : List Char := '[' :: '[' :: (name ++ [']', ']', '\n'])

/-- An element of an array of tables, and an empty line. -/
def tableText (name : List Char) (fs : List Field) : List Char := header name ++ (fs.flatMap Field.text ++ ['\n'])

/-- A comment, an empty line and an array of tables. -/
def document (comment name : List Char) (tables : List (List Field)) : List Char :=
  '#' :: (comment ++ '\n' :: '\n' :: tables.flatMap (tableText name))

/-- The element of the array under the name has a string under the key. -/
def HasString (root : Value) (name : List Char) (i : ℕ) (key value : List Char) : Prop :=
  ∃ items item, root.find name = some (.array items) ∧ items[i]? = some item ∧ item.find key = some (.string value)

theorem HasString.unique {root : Value} {name key value₁ value₂ : List Char} {i : ℕ} (h₁ : HasString root name i key value₁)
    (h₂ : HasString root name i key value₂) : value₁ = value₂ := by
  obtain ⟨items₁, item₁, ha₁, hi₁, hv₁⟩ := h₁
  obtain ⟨items₂, item₂, ha₂, hi₂, hv₂⟩ := h₂
  obtain rfl := Value.array.inj (Option.some.inj (ha₁.symm.trans ha₂))
  obtain rfl := Option.some.inj (hi₁.symm.trans hi₂)
  exact Value.string.inj (Option.some.inj (hv₁.symm.trans hv₂))

/-- **A correct reader**, on documents of this form.  Where every text is plain, it reads them as they are; and
where it accepts what a document of plain texts goes on with, it has read a string there. -/
structure IsReader (reader : List Char → Except (List Char) Value) : Prop where
  reads : ∀ (comment name : List Char) (tables : List (List Field)), (∀ c ∈ comment, isComment c = true) → name ≠ [] →
    (∀ c ∈ name, isBare c = true) → (∀ fs ∈ tables, Formed fs ∧ ∀ f ∈ fs, f.Plain) →
    ∃ root, reader (document comment name tables) = .ok root ∧ (tables = [] → root.find name = none) ∧
      (tables ≠ [] → ∃ items, root.find name = some (.array items) ∧
        List.Forall₂ (fun fs item => ∀ key, item.find key = (fieldValue key fs).map Value.string) tables items)
  string : ∀ (comment name : List Char) (tables : List (List Field)) (fs : List Field) (f : Field) (r : List Char) (root : Value),
    (∀ c ∈ comment, isComment c = true) → name ≠ [] → (∀ c ∈ name, isBare c = true) →
    (∀ fs ∈ tables, Formed fs ∧ ∀ f ∈ fs, f.Plain) → Formed (fs ++ [f]) → (∀ f ∈ fs, f.Plain) →
    reader (document comment name tables ++ (header name ++ (fs.flatMap Field.text ++ (f.opening ++ r)))) = .ok root →
    ∃ value, Literal r value ∧ HasString root name tables.length f.key value

theorem isPlain_of_isBare {c : Char} (h : isBare c = true) : isPlain c = true := by
  have hspecial : c ≠ '"' ∧ c ≠ '\\' ∧ 0x20 ≤ c.toNat ∧ c.toNat ≠ 0x7F := by
    rw [isBare, Bool.or_eq_true, Bool.or_eq_true, beq_iff_eq, beq_iff_eq] at h
    rcases h with (h | rfl) | rfl
    · refine ⟨by rintro rfl; exact absurd h (by decide), by rintro rfl; exact absurd h (by decide), ?_⟩
      simp only [Char.isAlphanum, Char.isAlpha, Char.isUpper, Char.isLower, Char.isDigit, Bool.or_eq_true, Bool.and_eq_true,
        decide_eq_true_eq, ge_iff_le, UInt32.le_iff_toNat_le] at h
      rcases h with (⟨h₁, h₂⟩ | ⟨h₁, h₂⟩) | ⟨h₁, h₂⟩
      · have hlow : 65 ≤ c.toNat := h₁
        have hhigh : c.toNat ≤ 90 := h₂
        omega
      · have hlow : 97 ≤ c.toNat := h₁
        have hhigh : c.toNat ≤ 122 := h₂
        omega
      · have hlow : 48 ≤ c.toNat := h₁
        have hhigh : c.toNat ≤ 57 := h₂
        omega
    · decide
    · decide
  rw [isPlain]
  simp [hspecial]

/-- What follows a field in its table is a new line. -/
theorem break_of_fields (fs : List Field) (h : ∀ f ∈ fs, f.key ≠ [] ∧ ∀ c ∈ f.key, isBare c = true) (rest : List Char) :
    ∃ x t, '\n' :: (fs.flatMap Field.text ++ '\n' :: rest) = x ++ t ∧ Break x := by
  cases fs with
  | nil => exact ⟨['\n', '\n'], rest, rfl, ['\n'], ['\n'], .inl rfl, .inl (.inl rfl), rfl⟩
  | cons f fs =>
      obtain ⟨hne, hbare⟩ := h f List.mem_cons_self
      obtain ⟨c, key, hkey⟩ := List.exists_cons_of_ne_nil hne
      refine ⟨['\n', c], key ++ (f.pad ++ ['=', ' ', '"']) ++ (f.value ++ ['"', '\n']) ++ fs.flatMap Field.text ++ '\n' :: rest, ?_,
        ['\n'], [c], .inl rfl, .inr ⟨c, isPlain_of_isBare (hbare c (hkey ▸ List.mem_cons_self)), rfl⟩, rfl⟩
      rw [List.flatMap_cons, Field.text, Field.opening, hkey]
      simp

section Reader

variable {reader : List Char → Except (List Char) Value} {comment name : List Char} {root : Value}

/-- The fields of a table behind tables of plain texts. -/
theorem IsReader.plain_fields (hr : IsReader reader) (hcomment : ∀ c ∈ comment, isComment c = true) (hname : name ≠ [])
    (hbare : ∀ c ∈ name, isBare c = true) {tables : List (List Field)} (htables : ∀ fs ∈ tables, Formed fs ∧ ∀ f ∈ fs, f.Plain)
    {done todo : List Field} {rest : List Char} (hformed : Formed (done ++ todo))
    (hread : reader (document comment name tables ++ (tableText name (done ++ todo) ++ rest)) = .ok root)
    (hhas : ∀ f ∈ done ++ todo, f.value ≠ [] → HasString root name tables.length f.key f.value) : ∀ f ∈ done, f.Plain := by
  induction done using List.reverseRecOn generalizing todo with
  | nil => exact fun f hf => absurd hf List.not_mem_nil
  | append_singleton done f ih =>
      rw [List.append_assoc, List.singleton_append] at hformed hread hhas
      have hdone := ih hformed hread hhas
      have hpart : Formed (done ++ [f]) := by
        refine ⟨fun g hg => hformed.1 g ?_, ?_⟩
        · rw [List.mem_append, List.mem_singleton] at hg
          rcases hg with hg | rfl
          · exact List.mem_append_left _ hg
          · exact List.mem_append_right _ List.mem_cons_self
        · refine hformed.2.sublist (List.Sublist.map _ ?_)
          exact List.Sublist.append (List.Sublist.refl _) (List.cons_sublist_cons.mpr (List.nil_sublist _))
      obtain ⟨x, t, hxt, hx⟩ := break_of_fields todo
        (fun g hg => ⟨(hformed.1 g (List.mem_append_right _ (List.mem_cons_of_mem _ hg))).1, (hformed.1 g (List.mem_append_right _ (List.mem_cons_of_mem _ hg))).2.1⟩) rest
      have htext : tableText name (done ++ f :: todo) ++ rest =
          header name ++ (done.flatMap Field.text ++ (f.opening ++ (f.value ++ '"' :: (x ++ t)))) := by
        rw [← hxt, tableText, List.flatMap_append, List.flatMap_cons, Field.text]
        simp
      rw [htext] at hread
      obtain ⟨value, hliteral, hvalue⟩ := hr.string comment name tables done f _ root hcomment hname hbare htables hpart hdone hread
      have hf : f.Plain := by
        by_cases hempty : f.value = []
        · exact fun c hc => absurd (hempty ▸ hc) List.not_mem_nil
        · obtain rfl := hvalue.unique (hhas f (List.mem_append_right _ List.mem_cons_self) hempty)
          exact hliteral.plain hx
      intro g hg
      rw [List.mem_append, List.mem_singleton] at hg
      rcases hg with hg | rfl
      · exact hdone g hg
      · exact hf

/-- The first tables of a document that is read as it was written. -/
theorem IsReader.plain_tables (hr : IsReader reader) (hcomment : ∀ c ∈ comment, isComment c = true) (hname : name ≠ [])
    (hbare : ∀ c ∈ name, isBare c = true) {done todo : List (List Field)} (hformed : ∀ fs ∈ done ++ todo, Formed fs)
    (hread : reader (document comment name (done ++ todo)) = .ok root)
    (hhas : ∀ pre fs post, done ++ todo = pre ++ fs :: post → ∀ f ∈ fs, f.value ≠ [] → HasString root name pre.length f.key f.value) :
    ∀ fs ∈ done, ∀ f ∈ fs, f.Plain := by
  induction done using List.reverseRecOn generalizing todo with
  | nil => exact fun fs hfs => absurd hfs List.not_mem_nil
  | append_singleton done fs ih =>
      rw [List.append_assoc, List.singleton_append] at hformed hread hhas
      have hdone := ih hformed hread hhas
      have htext : document comment name (done ++ fs :: todo) =
          document comment name done ++ (tableText name (fs ++ []) ++ todo.flatMap (tableText name)) := by
        rw [document, document, List.flatMap_append, List.flatMap_cons, List.append_nil]
        simp
      rw [htext] at hread
      have hfs := hr.plain_fields hcomment hname hbare (fun gs hgs => ⟨hformed gs (List.mem_append_left _ hgs), hdone gs hgs⟩)
        (by rw [List.append_nil]; exact hformed fs (List.mem_append_right _ List.mem_cons_self)) hread
        (fun f hf => hhas done fs todo rfl f (by rwa [List.append_nil] at hf))
      intro gs hgs
      rw [List.mem_append, List.mem_singleton] at hgs
      rcases hgs with hgs | rfl
      · exact hdone gs hgs
      · exact hfs

/-- **A document that is read as it was written** has plain texts only. -/
theorem IsReader.plain (hr : IsReader reader) (hcomment : ∀ c ∈ comment, isComment c = true) (hname : name ≠ [])
    (hbare : ∀ c ∈ name, isBare c = true) {tables : List (List Field)} (hformed : ∀ fs ∈ tables, Formed fs)
    (hread : reader (document comment name tables) = .ok root)
    (hhas : ∀ pre fs post, tables = pre ++ fs :: post → ∀ f ∈ fs, f.value ≠ [] → HasString root name pre.length f.key f.value) :
    ∀ fs ∈ tables, ∀ f ∈ fs, f.Plain := by
  rw [← List.append_nil tables] at hformed hread hhas
  exact hr.plain_tables hcomment hname hbare hformed hread hhas

end Reader

end Visuall.Toml
