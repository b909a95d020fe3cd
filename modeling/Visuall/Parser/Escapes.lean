import Visuall.Parser.Statements
import Visuall.Lexer.Rounds

/-!
# Strings and f-strings

The escapes of a string are decoded by `lexString`, those of an f-string by the parser.  The parser does not know all
that `lexString` knows, and leaves the others as they are written.

* `fstringText` — what the parser makes of a body without braces;
* `Decodes` — the value of a string beside it, with one lemma for each character of a body;
* `literals_alike_iff` — the two literals are alike where the body has shared escapes only.
-/

namespace Visuall.Parser

open Visuall.Ast Visuall.Descent Visuall.Lexer

/-! ## The decoding of an f-string -/

/-- The text that the parser makes of a body without braces. -/
def fstringText : List Char → List Char
  | '\\' :: esc :: body => fstringEscape esc ++ fstringText body
  | c :: body => c :: fstringText body
  | [] => []

/-- The literal text of the parts. -/
def literalText : List (Name ⊕ Expr) → Name
  | [] => []
  | .inl literal :: parts => literal ++ literalText parts
  | .inr _ :: parts => literalText parts

/-- The escapes that only `lexString` knows. -/
def stringOnly (esc : Char) : Bool := esc ∈ ['r', '0', 'a', 'b', 'f', 'v', 'e', 'x', 'u', 'U']

/-- No escape of the body is known to `lexString` only. -/
def sharesEscapes : List Char → Bool
  | '\\' :: esc :: body => !stringOnly esc && sharesEscapes body
  | _ :: body => sharesEscapes body
  | [] => true

variable {q esc c : Char} {body digits rest text value bytes : List Char}

theorem fstringText_cons (h : c ≠ '\\') (body : List Char) : fstringText (c :: body) = c :: fstringText body := by
  rw [fstringText]
  exact fun _ _ hc => absurd hc h

theorem sharesEscapes_cons (h : c ≠ '\\') (body : List Char) : sharesEscapes (c :: body) = sharesEscapes body := by
  rw [sharesEscapes]
  exact fun _ _ hc => absurd hc h

/-- Without braces, the parts are the text. -/
theorem fstringParts_text (h : '\x7b' ∉ body) (currentLiteral : Name) :
    fstringParts currentLiteral none body = flushLiteral (currentLiteral ++ fstringText body) := by
  induction body using fstringText.induct generalizing currentLiteral with
  | case1 esc body ih =>
    have hbody : '\x7b' ∉ body := fun hmem => h (List.mem_cons_of_mem _ (List.mem_cons_of_mem _ hmem))
    rw [fstringParts, fstringText, ih hbody, List.append_assoc]
  | case2 c body hesc ih =>
    rw [List.mem_cons, not_or] at h
    rw [fstringParts, fstringText, if_neg (Ne.symm h.1), ih h.2, List.append_assoc]
    · rfl
    · exact hesc
    · exact hesc
  | case3 => rw [fstringParts, fstringText, List.append_nil]

/-- The content of an f-string is what stands between its quotes. -/
theorem fstringContent_quoted (q : Char) (body : Name) : fstringContent ('f' :: q :: (body ++ [q])) = .ok body := by
  rw [fstringContent, if_neg (by simp)]
  simp

/-- Without braces, the parser decodes the text between the quotes. -/
theorem parseFString_text (N : Nested) (h : '\x7b' ∉ body) : ∃ parts,
    parseFString N ('f' :: q :: (body ++ [q])) = .ok (.fstringExpr parts) ∧ literalText parts = fstringText body := by
  have hcontent := fstringContent_quoted q body
  have hparts := fstringParts_text h []
  rw [List.nil_append] at hparts
  by_cases hempty : fstringText body = []
  · refine ⟨[], ?_, hempty.symm⟩
    rw [flushLiteral, if_pos hempty] at hparts
    rw [parseFString, hcontent]
    show (parseParts N (fstringParts [] none body) >>= fun parts => pure (Expr.fstringExpr parts)) = _
    rw [hparts]
    rfl
  · refine ⟨[.inl (fstringText body)], ?_, List.append_nil _⟩
    rw [flushLiteral, if_neg hempty] at hparts
    rw [parseFString, hcontent]
    show (parseParts N (fstringParts [] none body) >>= fun parts => pure (Expr.fstringExpr parts)) = _
    rw [hparts]
    rfl

/-! ## One escape -/

theorem takeWhile_take_append {p : Char → Bool} (h : p q = false) (n : ℕ) (body rest : List Char) :
    ((body ++ q :: rest).take n).takeWhile p = (body.take n).takeWhile p := by
  induction body generalizing n with
  | nil => cases n <;> simp [h]
  | cons c body ih =>
    cases n with
    | zero => rfl
    | succ n =>
      rw [List.cons_append, List.take_succ_cons, List.take_succ_cons]
      cases hc : p c with
      | false => rw [List.takeWhile_cons_of_neg (by simp [hc]), List.takeWhile_cons_of_neg (by simp [hc])]
      | true => rw [List.takeWhile_cons_of_pos hc, List.takeWhile_cons_of_pos hc, ih]

/-- What an escape takes from the body behind it, and what it stands for. -/
structure Takes (esc : Char) (bytes digits : List Char) : Prop where
  hex : ∀ d ∈ digits, isXDigit d = true
  shared : stringOnly esc = false → bytes = fstringEscape esc ∧ digits = []
  own : stringOnly esc = true → bytes.length < digits.length + 2

theorem hexDigits_takes (hq : isXDigit q = false) {n : ℕ} {message : String}
    (h : hexDigits n message (body ++ q :: rest) = .ok (digits, text)) :
    ∃ body', body = digits ++ body' ∧ text = body' ++ q :: rest ∧ digits.length = n ∧
      ∀ d ∈ digits, isXDigit d = true := by
  rw [hexDigits, takeWhile_take_append hq] at h
  by_cases hlen : ((body.take n).takeWhile isXDigit).length = n
  · rw [if_pos hlen] at h
    have hle : n ≤ body.length := by
      have h₁ := (List.takeWhile_sublist isXDigit (l := body.take n)).length_le
      rw [List.length_take] at h₁
      omega
    have hall : (body.take n).takeWhile isXDigit = body.take n :=
      (List.takeWhile_sublist _).eq_of_length (by rw [hlen, List.length_take, min_eq_left hle])
    cases h
    rw [List.take_append_of_le_length hle, List.drop_append_of_le_length hle]
    refine ⟨body.drop n, (List.take_append_drop n body).symm, rfl, by rw [List.length_take, min_eq_left hle], ?_⟩
    rw [← hall]
    exact fun d hd => List.mem_takeWhile_imp hd
  · rw [if_neg hlen] at h
    cases h

theorem utf8Bytes_length (code : ℕ) : (utf8Bytes code).length ≤ 4 := by
  rw [utf8Bytes]
  split_ifs <;> simp

theorem scalarBytes_length {code : ℕ} (h : scalarBytes code rest = .ok (bytes, text)) :
    bytes.length ≤ 4 ∧ text = rest := by
  rw [scalarBytes] at h
  split_ifs at h
  cases h
  exact ⟨utf8Bytes_length code, rfl⟩

/-- `\u` and `\U`. -/
theorem scalar_takes (hq : isXDigit q = false) {n : ℕ} {message : String} (hn : 4 ≤ n) (hown : stringOnly esc = true)
    (h : (do
      let (digits, rest) ← hexDigits n message (body ++ q :: rest)
      scalarBytes (hexValue digits) rest) = .ok (bytes, text)) :
    ∃ digits body', body = digits ++ body' ∧ text = body' ++ q :: rest ∧ Takes esc bytes digits := by
  obtain ⟨⟨digits, text'⟩, hdigits, hscalar⟩ := Effect.ok_of_bind h
  obtain ⟨body', hbody, htext, hlen, hall⟩ := hexDigits_takes hq hdigits
  obtain ⟨hbytes, rfl⟩ := scalarBytes_length hscalar
  refine ⟨digits, body', hbody, htext, hall, fun hshared => ?_, fun _ => by omega⟩
  rw [hown] at hshared
  cases hshared

/-- An escape takes its digits, and stands for less than is written if only `lexString` knows it. -/
theorem lexEscape_takes (hq : isXDigit q = false) (hopen : esc ≠ '\x7b') (hclose : esc ≠ '\x7d')
    (h : lexEscape esc (body ++ q :: rest) = .ok (bytes, text)) :
    ∃ digits body', body = digits ++ body' ∧ text = body' ++ q :: rest ∧ Takes esc bytes digits := by
  have hnone : ∀ {bytes'}, Takes esc bytes' [] →
      (.ok (bytes', body ++ q :: rest) : Except Failure (List Char × List Char)) = .ok (bytes, text) →
        ∃ digits body', body = digits ++ body' ∧ text = body' ++ q :: rest ∧ Takes esc bytes digits := by
    intro bytes' htakes heq
    cases heq
    exact ⟨[], body, rfl, rfl, htakes⟩
  unfold lexEscape at h
  split at h
  case h_13 =>
    dsimp only at h
    rw [takeWhile_take_append hq] at h
    split at h
    · cases h
    · have hhex : ∀ d ∈ (body.take 2).takeWhile isXDigit, isXDigit d = true := fun d hd => List.mem_takeWhile_imp hd
      obtain ⟨body', hbody⟩ := (List.takeWhile_prefix isXDigit (l := body.take 2)).trans (List.take_prefix 2 body)
      generalize (body.take 2).takeWhile isXDigit = digits at *
      rw [← hbody, List.append_assoc, List.drop_left] at h
      cases h
      exact ⟨digits, body', hbody.symm, rfl, hhex, fun hshared => absurd hshared (by decide), fun _ => by simp⟩
  case h_14 => exact scalar_takes hq le_rfl rfl h
  case h_15 => exact scalar_takes hq (by decide) rfl h
  case h_16 =>
    refine hnone ⟨by simp, fun _ => ⟨?_, rfl⟩, fun hown => ?_⟩ h
    · rw [fstringEscape] <;> simp_all
    · simp_all [stringOnly]
  all_goals exact hnone ⟨by simp, by decide, by decide⟩ h

/-! ## A body -/

/-- The value of a string and the text of the f-string with the same body. -/
structure Decodes (body value : List Char) : Prop where
  shared : sharesEscapes body = true → value = fstringText body
  own : sharesEscapes body = false → value.length < (fstringText body).length

theorem Decodes.length_le (h : Decodes body value) : value.length ≤ (fstringText body).length := by
  cases hbody : sharesEscapes body with
  | true => rw [h.shared hbody]
  | false => exact (h.own hbody).le

/-- The two are alike with shared escapes only. -/
theorem Decodes.iff (h : Decodes body value) : fstringText body = value ↔ sharesEscapes body = true := by
  refine ⟨fun heq => ?_, fun hbody => (h.shared hbody).symm⟩
  cases hbody : sharesEscapes body with
  | true => rfl
  | false =>
    have hlt := h.own hbody
    rw [heq] at hlt
    exact absurd hlt (lt_irrefl _)

theorem Decodes.nil : Decodes [] [] := ⟨fun _ => rfl, fun h => by cases h⟩

theorem Decodes.cons (h : Decodes body value) (hc : c ≠ '\\') : Decodes (c :: body) (c :: value) := by
  refine ⟨fun hbody => ?_, fun hbody => ?_⟩ <;> rw [sharesEscapes_cons hc] at hbody <;> rw [fstringText_cons hc]
  · rw [h.shared hbody]
  · exact Nat.succ_lt_succ (h.own hbody)

theorem fstringText_digits (h : ∀ d ∈ digits, isXDigit d = true) (body : List Char) :
    fstringText (digits ++ body) = digits ++ fstringText body := by
  induction digits with
  | nil => rfl
  | cons d digits ih =>
    have hd : d ≠ '\\' := fun hd => absurd (h d List.mem_cons_self) (by rw [hd]; decide)
    rw [List.cons_append, fstringText_cons hd, ih fun d' hd' => h d' (List.mem_cons_of_mem _ hd')]
    rfl

theorem Decodes.escape (h : Decodes body value) (ht : Takes esc bytes digits) :
    Decodes ('\\' :: esc :: (digits ++ body)) (bytes ++ value) := by
  refine ⟨fun hbody => ?_, fun hbody => ?_⟩ <;> rw [sharesEscapes] at hbody <;> rw [fstringText]
  · rw [Bool.and_eq_true, Bool.not_eq_true'] at hbody
    obtain ⟨hbytes, hdigits⟩ := ht.shared hbody.1
    rw [hdigits, List.nil_append] at hbody ⊢
    rw [hbytes, h.shared hbody.2]
  · cases hesc : stringOnly esc with
    | false =>
      obtain ⟨hbytes, hdigits⟩ := ht.shared hesc
      rw [hesc, hdigits] at hbody
      rw [hbytes, hdigits, List.length_append, List.length_append]
      exact Nat.add_lt_add_left (h.own hbody) _
    | true =>
      -- a shared escape is two characters at least where only `lexString` knows it
      have hwritten : fstringEscape esc = ['\\', esc] := by
        simp only [stringOnly, List.mem_cons, List.not_mem_nil, or_false, decide_eq_true_eq] at hesc
        rcases hesc with rfl | rfl | rfl | rfl | rfl | rfl | rfl | rfl | rfl | rfl <;> rfl
      have hlt := ht.own hesc
      have hle := h.length_le
      rw [hwritten, fstringText_digits ht.hex, List.length_append, List.length_append, List.length_append]
      simp only [List.length_cons, List.length_nil]
      omega

/-! ## The two literals -/

/-- What `lexString` leaves is behind its quote. -/
theorem stringBody_length {delimiter : Char} {fuel : ℕ} (h : stringBody delimiter fuel text = .ok (value, rest)) :
    rest.length < text.length := by
  induction fuel generalizing text value with
  | zero => cases h
  | succ fuel ih =>
    cases text with
    | nil => cases h
    | cons c text =>
      unfold stringBody at h
      split_ifs at h with hd hn hb
      · cases h
        exact Nat.lt_succ_self _
      · cases text with
        | nil => cases h
        | cons esc text =>
          obtain ⟨⟨bytes, text'⟩, hesc, h⟩ := Effect.ok_of_bind h
          obtain ⟨⟨value', rest'⟩, hbody, hpure⟩ := Effect.ok_of_bind h
          cases hpure
          have hsuffix := lexEscape_suffix esc text
          rw [hesc] at hsuffix
          have hle := hsuffix.length_le
          have hlt := ih hbody
          simp only [restOf_ok] at hle
          simp only [List.length_cons]
          omega
      · obtain ⟨⟨value', rest'⟩, hbody, hpure⟩ := Effect.ok_of_bind h
        cases hpure
        exact (ih hbody).trans (Nat.lt_succ_self _)

theorem fstringBody_digits {delimiter : Char} {raw : List Char} (hq : isXDigit delimiter = false)
    (h : ∀ d ∈ digits, isXDigit d = true) (hbody : fstringBody delimiter none text = .ok (raw, rest)) :
    fstringBody delimiter none (digits ++ text) = .ok (digits ++ raw, rest) := by
  induction digits with
  | nil => exact hbody
  | cons d digits ih =>
    have hd := h d List.mem_cons_self
    have hne : ∀ c, isXDigit c = false → d ≠ c := by
      rintro c hc rfl
      rw [hd] at hc
      cases hc
    rw [List.cons_append]
    unfold fstringBody
    rw [if_neg (hne _ hq), if_neg (hne _ (by decide)), if_neg (hne _ (by decide)), if_neg (hne _ (by decide)),
      ih fun d' hd' => h d' (List.mem_cons_of_mem _ hd')]
    rfl

/-- A body that lexes as a string lexes as an f-string, verbatim. -/
theorem stringBody_decodes (hq : isXDigit q = false) {fuel : ℕ} (hopen : '\x7b' ∉ body) (hclose : '\x7d' ∉ body)
    (h : stringBody q fuel (body ++ q :: rest) = .ok (value, rest)) :
    Decodes body value ∧ fstringBody q none (body ++ q :: rest) = .ok (body ++ [q], rest) := by
  induction fuel generalizing body value with
  | zero => cases h
  | succ fuel ih =>
    cases body with
    | nil =>
      rw [List.nil_append] at h ⊢
      unfold stringBody at h
      unfold fstringBody
      rw [if_pos rfl] at h ⊢
      cases h
      exact ⟨.nil, rfl⟩
    | cons c body =>
      rw [List.mem_cons, not_or] at hopen hclose
      rw [List.cons_append] at h ⊢
      unfold stringBody at h
      unfold fstringBody
      split_ifs at h with hd hn hb
      · -- the string would end before its body does
        injection h with h
        have hlen := congrArg List.length (Prod.mk.inj h).2
        rw [List.length_append, List.length_cons] at hlen
        omega
      · rw [if_neg hd, if_neg hn, if_pos hb]
        cases body with
        | nil =>
          -- the quote would be escaped, and the string end behind it
          obtain ⟨⟨bytes, text⟩, hesc, h⟩ := Effect.ok_of_bind h
          obtain ⟨⟨value', rest'⟩, hbody, hpure⟩ := Effect.ok_of_bind h
          cases hpure
          have hle := (lexEscape_suffix q rest).length_le
          rw [hesc, restOf_ok] at hle
          exact absurd (stringBody_length hbody) (not_lt.mpr hle)
        | cons esc body =>
          obtain ⟨⟨bytes, text⟩, hesc, h⟩ := Effect.ok_of_bind h
          obtain ⟨⟨value', rest'⟩, hbody, hpure⟩ := Effect.ok_of_bind h
          cases hpure
          obtain ⟨digits, body', rfl, rfl, htakes⟩ := lexEscape_takes hq (fun heq => hopen.2 (heq ▸ List.mem_cons_self))
            (fun heq => hclose.2 (heq ▸ List.mem_cons_self)) hesc
          obtain ⟨hdecodes, hraw⟩ := ih
            (fun hmem => hopen.2 (List.mem_cons_of_mem _ (List.mem_append_right _ hmem)))
            (fun hmem => hclose.2 (List.mem_cons_of_mem _ (List.mem_append_right _ hmem))) hbody
          rw [hb]
          refine ⟨hdecodes.escape htakes, ?_⟩
          show (fstringBody q none (digits ++ body' ++ q :: rest) >>= fun p => pure ('\\' :: esc :: p.1, p.2)) = _
          rw [List.append_assoc, fstringBody_digits hq htakes.hex hraw, ← List.append_assoc]
          rfl
      · obtain ⟨⟨value', rest'⟩, hbody, hpure⟩ := Effect.ok_of_bind h
        cases hpure
        obtain ⟨hdecodes, hraw⟩ := ih hopen.2 hclose.2 hbody
        rw [if_neg hd, if_neg hn, if_neg hb, if_neg (Ne.symm hopen.1), hraw]
        exact ⟨hdecodes.cons hb, rfl⟩

/-- The f-string with the body is read up to the same quote, and its literal text is the value. -/
def Alike (N : Nested) (q : Char) (body rest value : List Char) : Prop :=
  ∃ lexeme parts, lexFString q (body ++ q :: rest) = .ok (lexeme, rest) ∧
    parseFString N lexeme = .ok (.fstringExpr parts) ∧ literalText parts = value

/-- A string and the f-string with its body, without braces, are alike exactly where none of its escapes is known to
`lexString` only. -/
theorem literals_alike_iff (N : Nested) (q : Char) (hq : q = '"' ∨ q = '\'') (body rest value : List Char)
    (hopen : '\x7b' ∉ body) (hclose : '\x7d' ∉ body)
    (h : lexString q (body ++ q :: rest) = .ok (value, rest)) :
    Alike N q body rest value ↔ sharesEscapes body = true := by
  have hhex : isXDigit q = false := by rcases hq with rfl | rfl <;> decide
  obtain ⟨hdecodes, hraw⟩ := stringBody_decodes hhex hopen hclose h
  have hlex : lexFString q (body ++ q :: rest) = .ok ('f' :: q :: (body ++ [q]), rest) := by
    rw [lexFString, hraw]
    rfl
  obtain ⟨parts, hparse, htext⟩ := parseFString_text (q := q) N hopen
  rw [← hdecodes.iff, ← htext]
  constructor
  · rintro ⟨lexeme, parts', hlexeme, hparse', htext'⟩
    rw [hlex] at hlexeme
    cases hlexeme
    rw [hparse] at hparse'
    cases hparse'
    exact htext'
  · intro heq
    exact ⟨_, parts, hlex, hparse, heq⟩

/-- A newline and a quote: an escape of each kind that is shared. -/
theorem newline_alike :
    lexString '"' "a\\n\\\"b\" + c".toList = .ok ("a\n\"b".toList, " + c".toList) ∧
      Alike (nested (fun _ => none) (fun _ => .error .exhausted) 0) '"' "a\\n\\\"b".toList " + c".toList "a\n\"b".toList :=
  ⟨by decide, (literals_alike_iff _ '"' (.inl rfl) "a\\n\\\"b".toList " + c".toList _ (by decide) (by decide)
    (by decide)).mpr (by decide)⟩

/-- An escape character with a colour: the f-string shows it as it is written. -/
theorem colour_not_alike :
    lexString '"' "\\e[31m\"".toList = .ok ("\x1b[31m".toList, []) ∧
      ¬ Alike (nested (fun _ => none) (fun _ => .error .exhausted) 0) '"' "\\e[31m".toList [] "\x1b[31m".toList := by
  refine ⟨by decide, ?_⟩
  rintro ⟨lexeme, parts, hlexeme, hparse, htext⟩
  have hraw : lexFString '"' ("\\e[31m".toList ++ ['"']) = .ok ("f\"\\e[31m\"".toList, []) := by decide +kernel
  obtain ⟨parts', hparse', htext'⟩ := parseFString_text (q := '"')
    (nested (fun _ => none) (fun _ => .error .exhausted) 0) (show '\x7b' ∉ "\\e[31m".toList by decide)
  rw [hraw] at hlexeme
  obtain ⟨rfl, -⟩ := Prod.mk.inj (Except.ok.inj hlexeme)
  rw [show "f\"\\e[31m\"".toList = 'f' :: '"' :: ("\\e[31m".toList ++ ['"']) from rfl, hparse'] at hparse
  cases hparse
  rw [htext'] at htext
  exact absurd htext (by decide)

end Visuall.Parser
