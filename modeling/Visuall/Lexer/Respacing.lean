import Visuall.Lexer.Bare
import Visuall.Lexer.Normalization

/-!
# Lexemes with a space between them

The lexemes of the tokens of a line, written with single spaces between them, are read as the same tokens: each of
them reads as itself when white space follows.

* `Parted`, `Rereads` — what may follow a lexeme, and a lexeme that reads as itself in front of that;
* `scanPiece_rereads` — what is read is read again, strings apart;
* `Ends.rereads`, `ends_respaced` — the tokens of a line read so, and the line written of them;
* `respaced_same` — a line that is not indented, lexed again.
-/

namespace Visuall.Lexer

/-- The end of the text, or white space. -/
def Parted (more : List Char) : Prop := ∀ c ∈ more.head?, isBlank c = true

theorem parted_space (text : List Char) : Parted (' ' :: text) := by
  intro c hc
  cases hc
  rfl

theorem blank_cases {c : Char} (h : isBlank c = true) : c ∈ [' ', '\t', '\r'] := by
  simpa [isBlank, or_assoc] using h

/-- What is not white space is not what follows. -/
theorem Parted.head_not {p : Char → Bool} (hp : [' ', '\t', '\r'].any p = false) {more : List Char} (h : Parted more) :
    ∀ c ∈ more.head?, p c = false := fun c hc =>
  Bool.eq_false_iff.mpr (List.any_eq_false.mp hp c (blank_cases (h c hc)))

/-- A run of characters ends where another character follows. -/
theorem takeWhile_run {p : Char → Bool} {run more : List Char} (hrun : ∀ c ∈ run, p c = true)
    (hmore : ∀ c ∈ more.head?, p c = false) : (run ++ more).takeWhile p = run := by
  rw [List.takeWhile_append_of_pos hrun]
  cases more with
  | nil => exact List.append_nil _
  | cons c more =>
      rw [List.takeWhile_cons_of_neg (by rw [hmore c rfl]; exact Bool.false_ne_true)]
      exact List.append_nil _

theorem dropWhile_run {p : Char → Bool} {run more : List Char} (hrun : ∀ c ∈ run, p c = true)
    (hmore : ∀ c ∈ more.head?, p c = false) : (run ++ more).dropWhile p = more := by
  rw [List.dropWhile_append_of_pos hrun]
  cases more with
  | nil => rfl
  | cons c more => exact List.dropWhile_cons_of_neg (by rw [hmore c rfl]; exact Bool.false_ne_true)

/-! ## Numbers -/

theorem digitOrSeparator_of_digit {c : Char} (h : isDigit c = true) : isDigitOrSeparator c = true := by
  rw [isDigitOrSeparator, h]
  rfl

/-- What is left of a run when its separators are stripped are digits. -/
theorem digitsOf_digits (text : List Char) : ∀ c ∈ digitsOf text, isDigit c = true := by
  intro c hc
  obtain ⟨hrun, hsep⟩ := List.mem_filter.mp hc
  have hboth := List.mem_takeWhile_imp hrun
  rw [isDigitOrSeparator] at hboth
  simpa using (Bool.or_eq_true _ _ ▸ hboth).resolve_right (by simpa using hsep)

section Digits

variable {ds more : List Char} (hds : ∀ c ∈ ds, isDigit c = true)
  (hmore : ∀ c ∈ more.head?, isDigitOrSeparator c = false)
include hds hmore

theorem digitsOf_run : digitsOf (ds ++ more) = ds := by
  rw [digitsOf, takeWhile_run (fun c hc => digitOrSeparator_of_digit (hds c hc)) hmore]
  refine List.filter_eq_self.mpr fun c hc => ?_
  rcases Decidable.em (c = '_') with rfl | hne
  · exact absurd (hds _ hc) (by decide)
  · simpa using hne

theorem afterDigits_run : afterDigits (ds ++ more) = more :=
  dropWhile_run (fun c hc => digitOrSeparator_of_digit (hds c hc)) hmore

end Digits

/-- An exponent, or none: nothing of a run of digits, and not a dot. -/
def Exponent (exp : List Char) : Prop := ∀ c ∈ exp.head?, c = 'e' ∨ c = 'E'

theorem Exponent.head_not {p : Char → Bool} (he : p 'e' = false) (hE : p 'E' = false)
    (hspace : [' ', '\t', '\r'].any p = false) {exp more : List Char} (h : Exponent exp) (hmore : Parted more) : ∀ c ∈ (exp ++ more).head?, p c = false := by
  cases exp with
  | nil => exact hmore.head_not hspace
  | cons e exp =>
      intro c hc
      cases hc
      rcases h e rfl with rfl | rfl
      · exact he
      · exact hE

/-- A sign in front of a digit is a sign again, and so is none. -/
theorem sign_rereads (text : List Char) {d : Char} (hd : isDigit d = true) (more : List Char) :
    (((text.take 1).filter (fun s => s == '+' || s == '-') ++ d :: more).take 1).filter
        (fun s => s == '+' || s == '-') =
      (text.take 1).filter (fun s => s == '+' || s == '-') := by
  have hnot : ¬ (d == '+' || d == '-') = true := by
    intro h
    rcases Bool.or_eq_true _ _ ▸ h with h' | h'
    · rw [beq_iff_eq.mp h'] at hd
      exact absurd hd (by decide)
    · rw [beq_iff_eq.mp h'] at hd
      exact absurd hd (by decide)
  have hnone : ((d :: more).take 1).filter (fun s => s == '+' || s == '-') = [] := by
    rw [List.take_succ_cons, List.take_zero]
    exact List.filter_cons_of_neg hnot
  cases text with
  | nil => exact hnone
  | cons s text =>
      rw [List.take_succ_cons, List.take_zero]
      by_cases hs : (s == '+' || s == '-') = true
      · rw [List.filter_cons_of_pos (p := fun s => s == '+' || s == '-') hs, List.filter_nil]
        exact List.filter_cons_of_pos (p := fun s => s == '+' || s == '-') hs
      · rw [List.filter_cons_of_neg (p := fun s => s == '+' || s == '-') hs, List.filter_nil]
        exact hnone

/-- White space is no exponent. -/
theorem lexExponent_parted (isFloat : Bool) (value : List Char) {more : List Char} (hmore : Parted more) :
    lexExponent isFloat value more = .ok (if isFloat then .floatLiteral else .intLiteral, value, more) := by
  cases more with
  | nil => rfl
  | cons c more =>
      have hc : ¬ (c = 'e' ∨ c = 'E') := by
        have hblank := hmore c rfl
        rintro (rfl | rfl)
        · cases hblank
        · cases hblank
      exact if_neg hc

/-- An exponent is read to its last digit. -/
theorem lexExponent_signed {e d : Char} {sign ds more : List Char} (he : e = 'e' ∨ e = 'E')
    (hsign : ∀ more, ((sign ++ d :: more).take 1).filter (fun s => s == '+' || s == '-') = sign)
    (hds : ∀ c ∈ d :: ds, isDigit c = true) (hmore : Parted more) (isFloat : Bool) (value : List Char) :
    lexExponent isFloat value (e :: (sign ++ (d :: ds ++ more))) =
      .ok (.floatLiteral, value ++ (e :: sign ++ d :: ds), more) := by
  have hd : ((d :: (ds ++ more)).head?.any isDigit) = true := by simpa using hds d List.mem_cons_self
  unfold lexExponent
  dsimp only
  rw [if_pos he, List.cons_append, hsign, List.drop_left, if_pos hd, ← List.cons_append,
    takeWhile_run hds (hmore.head_not rfl), dropWhile_run hds (hmore.head_not rfl), List.append_assoc]

theorem exists_digit {text : List Char} (h : text.head?.any isDigit = true) : ∃ d ds, text.takeWhile isDigit = d :: ds := by
  cases text with
  | nil => exact absurd h Bool.false_ne_true
  | cons d text => exact ⟨d, _, List.takeWhile_cons_of_pos (by simpa using h)⟩

/-- **Exponents.**  What is read behind a value is read again behind any value. -/
theorem lexExponent_rereads {isFloat : Bool} {value text lexeme rest : List Char} {type : TokenType}
    (h : lexExponent isFloat value text = .ok (type, lexeme, rest)) :
    ∃ exp, lexeme = value ++ exp ∧ Exponent exp ∧ '\n' ∉ exp ∧
      ∀ more, Parted more → ∀ value', lexExponent isFloat value' (exp ++ more) = .ok (type, value' ++ exp, more) := by
  have hnone : ∃ exp, value = value ++ exp ∧ Exponent exp ∧ '\n' ∉ exp ∧ ∀ more, Parted more → ∀ value',
      lexExponent isFloat value' (exp ++ more) =
        .ok (if isFloat then .floatLiteral else .intLiteral, value' ++ exp, more) := by
    refine ⟨[], (List.append_nil _).symm, (fun _ h => by cases h), List.not_mem_nil, fun more hmore value' => ?_⟩
    rw [List.append_nil]
    exact lexExponent_parted isFloat value' hmore
  cases text with
  | nil =>
      cases h
      exact hnone
  | cons e text =>
      unfold lexExponent at h
      dsimp only at h
      by_cases he : e = 'e' ∨ e = 'E'
      · rw [if_pos he] at h
        split at h
        · rename_i hdigit
          cases h
          have hsign := fun (d : Char) hd more => sign_rereads text (d := d) hd more
          have hline : '\n' ∉ (text.take 1).filter (fun s => s == '+' || s == '-') := fun h =>
            absurd (List.mem_filter.mp h).2 (by decide)
          generalize (text.take 1).filter (fun s => s == '+' || s == '-') = sign at hdigit hsign hline ⊢
          obtain ⟨d, ds, hrun⟩ := exists_digit hdigit
          have hds : ∀ c ∈ d :: ds, isDigit c = true := fun c hc => List.mem_takeWhile_imp (hrun ▸ hc)
          rw [hrun]
          refine ⟨e :: sign ++ d :: ds, List.append_assoc _ _ _, (fun c hc => by cases hc; exact he), ?_,
            fun more hmore value' => ?_⟩
          · refine List.not_mem_append (List.not_mem_cons_of_ne_of_not_mem ?_ hline) fun h => absurd (hds _ h) (by decide)
            rintro rfl
            exact absurd he (by decide)
          · rw [List.append_assoc]
            exact lexExponent_signed he (hsign d (hds d List.mem_cons_self)) hds hmore isFloat value'
        · cases h
      · rw [if_neg he] at h
        cases h
        exact hnone

/-- A number with a dot and a digit behind its first run of digits. -/
theorem lexNumber_fraction {c d : Char} {text rest : List Char} (h : afterDigits text = '.' :: d :: rest)
    (hd : isDigit d = true) :
    lexNumber c text = if ['.'].isPrefixOf (afterDigits (d :: rest)) = true then
        .error ⟨"Malformed numeric literal", none, afterDigits (d :: rest)⟩
      else lexExponent true (c :: digitsOf text ++ '.' :: digitsOf (d :: rest)) (afterDigits (d :: rest)) := by
  unfold lexNumber
  rw [h]
  exact if_pos hd

/-- A number without. -/
theorem lexNumber_whole {c : Char} {text : List Char} (h : ∀ d rest, afterDigits text = '.' :: d :: rest → isDigit d = false) :
    lexNumber c text = lexExponent false (c :: digitsOf text) (afterDigits text) := by
  unfold lexNumber
  dsimp only
  split
  · rename_i d rest hafter
    rw [if_neg (by rw [h d rest hafter]; exact Bool.false_ne_true), hafter]
  · rfl

/-- **Numbers.**  The lexeme is the first digit and what is read as the same number behind it. -/
theorem lexNumber_rereads {c : Char} {text lexeme rest : List Char} {type : TokenType}
    (h : lexNumber c text = .ok (type, lexeme, rest)) :
    ∃ tail, lexeme = c :: tail ∧ '\n' ∉ tail ∧
      ∀ more, Parted more → lexNumber c (tail ++ more) = .ok (type, c :: tail, more) := by
  have hnewline : ∀ l, '\n' ∉ digitsOf l := fun l h => absurd (digitsOf_digits l _ h) (by decide)
  have hdigits := digitsOf_digits text
  by_cases hfraction : ∃ d rest, afterDigits text = '.' :: d :: rest ∧ isDigit d = true
  · obtain ⟨d, rest', hafter, hd⟩ := hfraction
    rw [lexNumber_fraction hafter hd] at h
    split_ifs at h
    obtain ⟨exp, rfl, hexp, hn, hread⟩ := lexExponent_rereads h
    refine ⟨digitsOf text ++ '.' :: (digitsOf (d :: rest') ++ exp), by simp, ?_, fun more hmore => ?_⟩
    · refine List.not_mem_append (hnewline _) (List.not_mem_cons_of_ne_of_not_mem (by decide) ?_)
      exact List.not_mem_append (hnewline _) hn
    · have hds := digitsOf_digits (d :: rest')
      obtain ⟨ds, hcons⟩ : ∃ ds, digitsOf (d :: rest') = d :: ds := by
        refine ⟨digitsOf rest', ?_⟩
        rw [digitsOf, List.takeWhile_cons_of_pos (digitOrSeparator_of_digit hd), List.filter_cons_of_pos]
        · rfl
        · rcases Decidable.em (d = '_') with rfl | hne
          · exact absurd hd (by decide)
          · simpa using hne
      rw [hcons] at hds ⊢
      have hhead := hexp.head_not (p := isDigitOrSeparator) rfl rfl rfl hmore
      have hdot := hexp.head_not (p := (· == '.')) rfl rfl rfl hmore
      rw [List.append_assoc, List.cons_append, List.append_assoc]
      have hafter' : afterDigits (digitsOf text ++ '.' :: (d :: ds ++ (exp ++ more))) = '.' :: d :: (ds ++ (exp ++ more)) :=
        afterDigits_run hdigits fun c hc => by cases hc; rfl
      rw [lexNumber_fraction hafter' hd, ← List.cons_append, afterDigits_run hds hhead, digitsOf_run hds hhead,
        digitsOf_run hdigits fun c hc => by cases hc; rfl, if_neg, hread more hmore]
      · simp
      · intro hprefix
        obtain ⟨t, ht⟩ := List.isPrefixOf_iff_prefix.mp hprefix
        rw [← ht] at hdot
        exact absurd (hdot '.' rfl) (by decide)
  · have hwhole : ∀ d rest, afterDigits text = '.' :: d :: rest → isDigit d = false := fun d rest hafter =>
      Bool.eq_false_iff.mpr fun hd => hfraction ⟨d, rest, hafter, hd⟩
    rw [lexNumber_whole hwhole] at h
    obtain ⟨exp, rfl, hexp, hn, hread⟩ := lexExponent_rereads h
    refine ⟨digitsOf text ++ exp, rfl, List.not_mem_append (hnewline _) hn, fun more hmore => ?_⟩
    have hhead := hexp.head_not (p := isDigitOrSeparator) rfl rfl rfl hmore
    have hdot := hexp.head_not (p := (· == '.')) rfl rfl rfl hmore
    rw [List.append_assoc, lexNumber_whole, digitsOf_run hdigits hhead, afterDigits_run hdigits hhead]
    · exact hread more hmore _
    · intro d rest' hafter
      rw [afterDigits_run hdigits hhead] at hafter
      rw [hafter] at hdot
      exact absurd (hdot '.' rfl) (by decide)

/-! ## Operators -/

/-- A character that no other piece begins with. -/
def isOther (c : Char) : Bool :=
  !(isBlank c || c == '\n' || c == '#' || c == '"' || c == '\'' || isDigit c || isAlpha c || c == '_')

theorem isOther_iff {c : Char} : isOther c = true ↔ ¬ isBlank c = true ∧ c ≠ '\n' ∧ c ≠ '#' ∧ ¬ (c = '"' ∨ c = '\'') ∧
    ¬ isDigit c = true ∧ ¬ (isAlpha c = true ∨ c = '_') := by
  simp only [isOther, Bool.not_eq_true', Bool.or_eq_false_iff, beq_eq_false_iff_ne, Bool.not_eq_true, not_or, and_assoc,
    ne_eq]

theorem operators_blank : ∀ op ∈ operators, op.1.any isBlank = false := by decide

theorem operators_line : ∀ op ∈ operators, '\n' ∉ op.1 := by decide

theorem operators_other : ∀ op ∈ operators, op.1.head?.all isOther = true := by decide

/-- An operator is the longest that it begins with. -/
theorem operators_maximal : ∀ op ∈ operators, lexOperator op.1 = some op := by decide +kernel

/-- A text without white space begins another text, or does not, whatever follows behind white space. -/
theorem isPrefixOf_parted {op : List Char} (hop : op.any isBlank = false) (lexeme : List Char) {more : List Char}
    (hmore : Parted more) : op.isPrefixOf (lexeme ++ more) = op.isPrefixOf lexeme := by
  rw [Bool.eq_iff_iff, List.isPrefixOf_iff_prefix, List.isPrefixOf_iff_prefix]
  refine ⟨fun h => ?_, fun h => h.trans (List.prefix_append _ _)⟩
  rcases List.prefix_or_prefix_of_prefix h (List.prefix_append lexeme more) with h' | ⟨t, rfl⟩
  · exact h'
  · cases t with
    | nil => rw [List.append_nil]
    | cons c t =>
        obtain ⟨s, hs⟩ := (List.prefix_append_right_inj lexeme).mp h
        have hc := List.any_eq_false.mp hop c (List.mem_append_right _ List.mem_cons_self)
        exact absurd (hmore c (by rw [← hs]; rfl)) hc

theorem lexOperator_parted (lexeme : List Char) {more : List Char} (hmore : Parted more) :
    lexOperator (lexeme ++ more) = lexOperator lexeme :=
  List.find?_congr fun op hop => isPrefixOf_parted (operators_blank op hop) lexeme hmore

/-! ## Pieces -/

/-- A lexeme begins with a character that is no layout and no comment, and is read as its token where it stands by
itself. -/
structure Rereads (k : TokenType × List Char) : Prop where
  head : ∃ c text, k.2 = c :: text ∧ isBlank c = false ∧ c ≠ '\n' ∧ c ≠ '#'
  line : '\n' ∉ k.2
  read : ∀ more, Parted more → ∀ b : Bare,
    b.consume (scanPiece (k.2 ++ more)) = some { b with rest := more, kinds := k :: b.kinds }

/-- The letters and `_` are no digits, and begin nothing else. -/
theorem not_digit_of_word {c : Char} (h : isAlpha c = true ∨ c = '_') : isDigit c = false := by
  rcases h with h | rfl
  · simp only [isAlpha, isDigit, Bool.or_eq_true, Bool.and_eq_true, decide_eq_true_eq, Bool.and_eq_false_iff,
      decide_eq_false_iff_not, Char.le_def, UInt32.le_iff_toNat_le] at h ⊢
    simp only [Char.reduceVal, UInt32.reduceToNat] at h ⊢
    omega
  · rfl

theorem ne_of_word {c d : Char} (h : isAlpha c = true ∨ c = '_') (hd : (isAlpha d || d == '_') = false) : c ≠ d := by
  rintro rfl
  rcases h with h | h
  · rw [h] at hd
    cases hd
  · rw [h] at hd
    exact absurd hd (by decide)

theorem ne_of_digit {c d : Char} (h : isDigit c = true) (hd : isDigit d = false) : c ≠ d := by
  rintro rfl
  rw [h] at hd
  cases hd

/-- A character that differs from each white space character is none. -/
theorem not_blank {c : Char} (hspace : c ≠ ' ') (htab : c ≠ '\t') (hcr : c ≠ '\r') : isBlank c = false := by
  simp [isBlank, hspace, htab, hcr]

theorem ne_of_not_blank {c : Char} (h : isBlank c = false) : c ≠ ' ' ∧ c ≠ '\t' := by
  constructor
  · rintro rfl
    cases h
  · rintro rfl
    cases h

theorem quote_of_startsWithQuote {c : Char} {text : List Char} (h : startsWithQuote (c :: text) = true) :
    c = '"' ∨ c = '\'' := by
  simp only [startsWithQuote, List.isPrefixOf, Bool.and_true, Bool.or_eq_true, beq_iff_eq] at h
  exact h.imp Eq.symm Eq.symm

/-- A word is read as a word. -/
theorem scanPiece_word {c : Char} {text : List Char} (hword : isAlpha c = true ∨ c = '_')
    (hf : ¬ (c = 'f' ∧ startsWithQuote text = true)) :
    scanPiece (c :: text) = .token (wordType (c :: text.takeWhile isWordChar)) (c :: text.takeWhile isWordChar)
      (text.dropWhile isWordChar) := by
  have hblank := not_blank (ne_of_word (d := ' ') hword rfl) (ne_of_word (d := '\t') hword rfl)
    (ne_of_word (d := '\r') hword rfl)
  unfold scanPiece
  dsimp only
  rw [if_neg (by rw [hblank]; exact Bool.false_ne_true), if_neg (ne_of_word hword rfl), if_neg (ne_of_word hword rfl),
    if_neg hf, if_neg (not_or.mpr ⟨ne_of_word hword rfl, ne_of_word hword rfl⟩),
    if_neg (by rw [not_digit_of_word hword]; exact Bool.false_ne_true), if_pos hword]

/-- A digit begins a number. -/
theorem scanPiece_number {c : Char} (text : List Char) (hdigit : isDigit c = true) :
    scanPiece (c :: text) = numeral (lexNumber c text) := by
  have hblank := not_blank (ne_of_digit (d := ' ') hdigit rfl) (ne_of_digit (d := '\t') hdigit rfl)
    (ne_of_digit (d := '\r') hdigit rfl)
  unfold scanPiece
  dsimp only
  rw [if_neg (by rw [hblank]; exact Bool.false_ne_true), if_neg (ne_of_digit hdigit rfl), if_neg (ne_of_digit hdigit rfl),
    if_neg fun h => ne_of_digit hdigit rfl h.1, if_neg (not_or.mpr ⟨ne_of_digit hdigit rfl, ne_of_digit hdigit rfl⟩),
    if_pos hdigit]

/-- Any other character begins an operator, or nothing. -/
theorem scanPiece_other {c : Char} (text : List Char) (hother : isOther c = true) :
    scanPiece (c :: text) = match lexOperator (c :: text) with
      | some op => .token op.2 op.1 ((c :: text).drop op.1.length)
      | none => .unexpected c text := by
  obtain ⟨hblank, hn, hhash, hquote, hdigit, hword⟩ := isOther_iff.mp hother
  have hf : c ≠ 'f' := by
    rintro rfl
    exact hword (.inl rfl)
  unfold scanPiece
  refine (if_neg hblank).trans ((if_neg hn).trans ((if_neg hhash).trans ?_))
  refine (if_neg fun h => hf h.1).trans ((if_neg hquote).trans ?_)
  exact (if_neg hdigit).trans (if_neg hword)

theorem rereads_token {type : TokenType} {c : Char} {text : List Char} (hblank : isBlank c = false) (hn : c ≠ '\n')
    (hhash : c ≠ '#') (hline : '\n' ∉ text)
    (h : ∀ more, Parted more → scanPiece (c :: text ++ more) = .token type (c :: text) more) :
    Rereads (type, c :: text) where
  head := ⟨c, text, rfl, hblank, hn, hhash⟩
  line := List.not_mem_cons_of_ne_of_not_mem hn.symm hline
  read more hmore b := by
    rw [h more hmore]
    rfl

theorem rereads_number {c : Char} {text lexeme rest : List Char} {type : TokenType} (hblank : isBlank c = false)
    (hn : c ≠ '\n') (hhash : c ≠ '#') (hdigit : isDigit c = true)
    (h : lexNumber c text = .ok (type, lexeme, rest)) : Rereads (type, lexeme) := by
  obtain ⟨tail, rfl, hline, hread⟩ := lexNumber_rereads h
  refine rereads_token hblank hn hhash hline fun more hmore => ?_
  rw [List.cons_append, scanPiece_number _ hdigit, hread more hmore]
  rfl

theorem rereads_word {c : Char} (text : List Char) (hblank : isBlank c = false) (hn : c ≠ '\n') (hhash : c ≠ '#')
    (hword : isAlpha c = true ∨ c = '_') :
    Rereads (wordType (c :: text.takeWhile isWordChar), c :: text.takeWhile isWordChar) := by
  have hrun : ∀ d ∈ text.takeWhile isWordChar, isWordChar d = true := fun d hd => List.mem_takeWhile_imp hd
  refine rereads_token hblank hn hhash (fun h => absurd (hrun _ h) (by decide)) fun more hmore => ?_
  have hmore' := hmore.head_not (p := isWordChar) rfl
  have hf : ¬ (c = 'f' ∧ startsWithQuote (text.takeWhile isWordChar ++ more) = true) := by
    rintro ⟨-, hquote⟩
    generalize text.takeWhile isWordChar = word at hrun hquote
    cases word with
    | nil =>
        cases more with
        | nil => cases hquote
        | cons d more =>
            have hblank := hmore d rfl
            rcases quote_of_startsWithQuote hquote with rfl | rfl
            · cases hblank
            · cases hblank
    | cons d word =>
        have hd := hrun d List.mem_cons_self
        rcases quote_of_startsWithQuote hquote with rfl | rfl
        · cases hd
        · cases hd
  rw [List.cons_append, scanPiece_word hword hf, takeWhile_run hrun hmore', dropWhile_run hrun hmore']

/-- What another character begins: the operator, or the character itself. -/
theorem rereads_operator {c : Char} {text : List Char} {op : List Char × TokenType} (hblank : isBlank c = false)
    (hn : c ≠ '\n') (hhash : c ≠ '#') (h : lexOperator (c :: text) = some op) : Rereads (op.2, op.1) := by
  have hmem := List.mem_of_find?_eq_some h
  have hprefix : op.1.isPrefixOf (c :: text) = true := by simpa using List.find?_some h
  have hother := operators_other op hmem
  have hmaximal := operators_maximal op hmem
  obtain ⟨lexeme, type⟩ := op
  obtain ⟨rest, hrest⟩ := List.isPrefixOf_iff_prefix.mp hprefix
  cases lexeme with
  | nil => exact absurd rfl (operators_ne_nil _ hmem)
  | cons d lexeme =>
      obtain rfl : d = c := (List.cons.inj hrest).1
      have hline := operators_line _ hmem
      refine rereads_token hblank hn hhash (fun h => hline (List.mem_cons_of_mem _ h)) fun more hmore => ?_
      rw [List.cons_append, scanPiece_other _ (by simpa using hother), ← List.cons_append,
        lexOperator_parted _ hmore, hmaximal]
      show Piece.token type _ ((d :: lexeme ++ more).drop (d :: lexeme).length) = _
      rw [List.drop_left]

theorem rereads_unexpected {c : Char} {text : List Char} (hblank : isBlank c = false) (hn : c ≠ '\n') (hhash : c ≠ '#')
    (hother : isOther c = true) (h : lexOperator (c :: text) = none) : Rereads (.error, [c]) where
  head := ⟨c, [], rfl, hblank, hn, hhash⟩
  line := fun h => hn (List.mem_singleton.mp h).symm
  read more hmore b := by
    -- an operator that is read now would have been read then
    have hnone : lexOperator ([c] ++ more) = none := by
      rw [lexOperator_parted _ hmore]
      refine List.find?_eq_none.mpr fun op hop hprefix => ?_
      refine List.find?_eq_none.mp h op hop ?_
      rw [List.isPrefixOf_iff_prefix] at hprefix ⊢
      exact hprefix.trans ⟨text, rfl⟩
    rw [List.singleton_append] at hnone ⊢
    rw [scanPiece_other _ hother, hnone]
    rfl

/-- A piece without a newline that is no string is read again. -/
def Piece.Rereads : Piece → Prop
  | .token type lexeme _ => type = .stringLiteral ∨ type = .fstringLiteral ∨ Lexer.Rereads (type, lexeme)
  | .unexpected c _ => Lexer.Rereads (.error, [c])
  | .newline _ => False
  | .skip _ => True
  | .failure _ => True

/-- **What is read is read again**, where there is no newline and no comment. -/
theorem scanPiece_again {c : Char} (text : List Char) (hn : c ≠ '\n') (hhash : c ≠ '#') :
    (scanPiece (c :: text)).Rereads := by
  by_cases hblank : isBlank c = true
  · unfold scanPiece
    dsimp only
    rw [if_pos hblank]
    trivial
  · have hblank := Bool.eq_false_iff.mpr hblank
    by_cases hf : c = 'f' ∧ startsWithQuote text = true
    · unfold scanPiece
      dsimp only
      rw [if_neg (by rw [hblank]; exact Bool.false_ne_true), if_neg hn, if_neg hhash, if_pos hf]
      cases lexFString (text.headD '"') text.tail with
      | ok p => exact .inr (.inl rfl)
      | error f => trivial
    · by_cases hquote : c = '"' ∨ c = '\''
      · unfold scanPiece
        dsimp only
        rw [if_neg (by rw [hblank]; exact Bool.false_ne_true), if_neg hn, if_neg hhash, if_neg hf, if_pos hquote]
        cases lexString c text with
        | ok p => exact .inl rfl
        | error f => trivial
      · by_cases hdigit : isDigit c = true
        · rw [scanPiece_number text hdigit]
          rcases hnumber : lexNumber c text with f | ⟨type, lexeme, rest⟩
          · trivial
          · exact .inr (.inr (rereads_number hblank hn hhash hdigit hnumber))
        · by_cases hword : isAlpha c = true ∨ c = '_'
          · rw [scanPiece_word hword hf]
            exact .inr (.inr (rereads_word text hblank hn hhash hword))
          · have hother : isOther c = true :=
              isOther_iff.mpr ⟨Bool.eq_false_iff.mp hblank, hn, hhash, hquote, hdigit, hword⟩
            rw [scanPiece_other text hother]
            cases hop : lexOperator (c :: text) with
            | some op => exact .inr (.inr (rereads_operator hblank hn hhash hop))
            | none => exact rereads_unexpected hblank hn hhash hother hop

/-! ## What has been read stays -/

namespace Bare

theorem popLevels_kinds (tabCount : ℕ) (stack : List ℕ) (kinds : List (TokenType × List Char)) :
    kinds <:+ (popLevels tabCount stack kinds).2 := by
  induction stack generalizing kinds with
  | nil => exact List.suffix_rfl
  | cons level stack ih =>
      rw [popLevels]
      split_ifs
      · exact (List.suffix_cons _ _).trans (ih _)
      · exact List.suffix_rfl

theorem indentTo_kinds {b b' : Bare} {tabCount : ℕ} (h : b.indentTo tabCount = some b') : b.kinds <:+ b'.kinds := by
  unfold indentTo at h
  dsimp only at h
  split_ifs at h
  · cases h
    exact List.suffix_cons _ _
  · cases h
    exact popLevels_kinds _ _ _

theorem settle_kinds {b b' : Bare} (h : b.settle = some b') : b.kinds <:+ b'.kinds := by
  unfold settle at h
  split_ifs at h
  · split at h
    · cases h
      exact List.suffix_rfl
    · split_ifs at h
      · cases h
        exact List.suffix_rfl
      · cases h
        exact List.suffix_rfl
      · exact indentTo_kinds (b := b.afterTabs) h
  · cases h
    exact List.suffix_rfl

theorem consume_kinds {b b' : Bare} {p : Piece} (h : b.consume p = some b') : b.kinds <:+ b'.kinds := by
  cases p with
  | skip rest =>
      cases h
      exact List.suffix_rfl
  | newline rest =>
      cases h
      unfold newline
      dsimp only
      split_ifs
      · exact List.suffix_cons _ _
      · exact List.suffix_rfl
  | token type lexeme rest =>
      cases h
      exact List.suffix_cons _ _
  | unexpected c rest =>
      cases h
      exact List.suffix_cons _ _
  | failure f => cases h

theorem step_kinds {b b' : Bare} (h : b.step = some b') : b.kinds <:+ b'.kinds := by
  unfold step at h
  obtain ⟨m, hm, h⟩ := Option.bind_eq_some_iff.mp h
  refine (settle_kinds hm).trans ?_
  split at h
  · cases h
    exact List.suffix_rfl
  · split_ifs at h
    · cases h
      exact List.suffix_rfl
    · exact consume_kinds h

end Bare

/-- What has been read comes out first. -/
theorem Ends.kinds {b : Bare} {out : Option (List (TokenType × List Char))} (h : Ends b out)
    {kinds : List (TokenType × List Char)} (hout : out = some kinds) : b.kinds.reverse <+: kinds := by
  induction h with
  | done =>
      cases hout
      rw [Bare.flush, List.reverse_cons]
      exact (List.reverse_prefix.mpr (Bare.popLevels_kinds 0 _ _)).trans (List.prefix_append _ _)
  | throws => cases hout
  | next _ hstep _ ih => exact (List.reverse_prefix.mpr (Bare.step_kinds hstep)).trans (ih hout)

/-! ## A line -/

/-- In the middle of a line that is not indented, without a comment. -/
structure Bare.Inside (b : Bare) : Prop where
  inside : b.atLineStart = false
  stack : b.stack = [0]
  line : '\n' ∉ b.rest
  comment : '#' ∉ b.rest

theorem Bare.step_inside {b : Bare} (h : b.atLineStart = false) {c : Char} {text : List Char} (hrest : b.rest = c :: text) :
    b.step = b.consume (scanPiece (c :: text)) := by
  have hnot : ¬ b.atLineStart = true := by
    rw [h]
    exact Bool.false_ne_true
  unfold step settle
  rw [if_neg hnot, Option.bind_some, hrest]
  exact if_neg fun h => hnot h.1

/-- A step inside a line adds what is read again, a string, or nothing. -/
theorem Bare.Inside.step {b b' : Bare} (h : b.Inside) (hrest : b.rest ≠ []) (hstep : b.step = some b') :
    b'.Inside ∧ (b'.kinds = b.kinds ∨
      ∃ k, b'.kinds = k :: b.kinds ∧ (k.1 = .stringLiteral ∨ k.1 = .fstringLiteral ∨ Rereads k)) := by
  obtain ⟨c, text, hct⟩ := List.exists_cons_of_ne_nil hrest
  have hline := h.line
  have hcomment := h.comment
  rw [hct] at hline hcomment
  rw [step_inside h.inside hct] at hstep
  have hagain := scanPiece_again text (fun hc => hline (hc ▸ List.mem_cons_self)) (fun hc => hcomment (hc ▸ List.mem_cons_self))
  have hsuffix := scanPiece_suffix c text
  have hinside : ∀ rest kinds, rest <:+ text → ({ b with rest, kinds } : Bare).Inside := fun rest kinds hrest =>
    ⟨h.inside, h.stack, fun hn => hline (List.mem_cons_of_mem _ (hrest.subset hn)),
      fun hhash => hcomment (List.mem_cons_of_mem _ (hrest.subset hhash))⟩
  cases hp : scanPiece (c :: text) with
  | skip rest =>
      rw [hp] at hstep hsuffix
      cases hstep
      exact ⟨hinside rest b.kinds hsuffix, .inl rfl⟩
  | newline rest =>
      rw [hp] at hagain
      exact hagain.elim
  | token type lexeme rest =>
      rw [hp] at hstep hsuffix hagain
      cases hstep
      exact ⟨hinside rest _ hsuffix, .inr ⟨_, rfl, hagain⟩⟩
  | unexpected x rest =>
      rw [hp] at hstep hsuffix hagain
      cases hstep
      exact ⟨hinside rest _ hsuffix, .inr ⟨_, rfl, .inr (.inr hagain)⟩⟩
  | failure f =>
      rw [hp] at hstep
      cases hstep

/-- What comes out of the rest of a line is what has been read, what is read again, and the end. -/
theorem Ends.rereads {b : Bare} {out : Option (List (TokenType × List Char))} (h : Ends b out) (hb : b.Inside)
    {kinds : List (TokenType × List Char)} (hout : out = some kinds) :
    ∃ ks, kinds = b.kinds.reverse ++ ks ++ [(.endOfFile, [])] ∧
      ∀ k ∈ ks, k.1 = .stringLiteral ∨ k.1 = .fstringLiteral ∨ Rereads k := by
  induction h with
  | @done b hrest =>
      cases hout
      refine ⟨[], ?_, fun k hk => absurd hk List.not_mem_nil⟩
      have hpop : (Bare.popLevels 0 b.stack b.kinds).2 = b.kinds := by
        rw [hb.stack]
        rfl
      rw [Bare.flush, hpop, List.reverse_cons, List.append_nil]
  | throws => cases hout
  | @next b b' out hrest hstep _ ih =>
      obtain ⟨hb', hkinds⟩ := hb.step hrest hstep
      obtain ⟨ks, hks, hread⟩ := ih hb' hout
      rcases hkinds with hkinds | ⟨k, hkinds, hk⟩
      · exact ⟨ks, by rw [hks, hkinds], hread⟩
      · refine ⟨k :: ks, by rw [hks, hkinds]; simp, ?_⟩
        exact List.forall_mem_cons.mpr ⟨hk, hread⟩

/-- The indentation of the first line, when there is more than white space in it. -/
theorem Bare.settle_start {text rest : List Char} {d : Char} (hdrop : text.dropWhile (· == '\t') = d :: rest)
    (hspace : d ≠ ' ') (hn : d ≠ '\n') :
    (start text).settle = if d = '#' then some ⟨d :: rest, false, [0], []⟩
      else (⟨d :: rest, false, [0], []⟩ : Bare).indentTo (text.takeWhile (· == '\t')).length := by
  have hafter : (start text).afterTabs = ⟨d :: rest, false, [0], []⟩ := Bare.ext hdrop rfl rfl rfl
  unfold settle
  rw [if_pos (show (start text).atLineStart = true from rfl), hafter]
  dsimp only
  rw [if_neg hspace, if_neg hn]
  rfl

theorem Bare.indentTo_inside {b b' : Bare} {tabCount : ℕ} (h : b.indentTo tabCount = some b') :
    b'.atLineStart = b.atLineStart ∧ b'.rest = b.rest := by
  unfold indentTo at h
  dsimp only at h
  split_ifs at h
  · cases h
    exact ⟨rfl, rfl⟩
  · cases h
    exact ⟨rfl, rfl⟩

/-- The indentation leaves what is behind the tabs. -/
theorem Bare.settle_inside {text : List Char} {b : Bare} (h : (start text).settle = some b) :
    b.atLineStart = false ∧ b.rest = text.dropWhile (· == '\t') := by
  unfold settle at h
  rw [if_pos (show (start text).atLineStart = true from rfl)] at h
  split at h
  · cases h
    exact ⟨rfl, rfl⟩
  · split_ifs at h
    · cases h
      exact ⟨rfl, rfl⟩
    · cases h
      exact ⟨rfl, rfl⟩
    · exact indentTo_inside h

/-- What comes out of a text comes out of what its indentation leaves. -/
theorem ends_settled {text : List Char} {b : Bare} (hsettle : (Bare.start text).settle = some b) (hline : '\n' ∉ text)
    {out : Option (List (TokenType × List Char))} : Ends (.start text) out ↔ Ends b out := by
  obtain ⟨hinside, hrest⟩ := Bare.settle_inside hsettle
  cases text with
  | nil =>
      cases hsettle
      constructor
      · intro hends
        exact hends.unique (.done rfl) ▸ .done rfl
      · intro hends
        exact hends.unique (.done rfl) ▸ .done rfl
  | cons c text =>
      cases hb : b.rest with
      | nil =>
          -- a line of tabs
          have hstep : (Bare.start (c :: text)).step = some b := by
            rw [Bare.step, hsettle, Option.bind_some, hb]
          constructor
          · intro hends
            exact hends.unique (.next (List.cons_ne_nil _ _) hstep (.done hb)) ▸ .done hb
          · exact fun hends => .next (List.cons_ne_nil _ _) hstep hends
      | cons d rest =>
          have hd : d ≠ '\n' := by
            rintro rfl
            exact hline ((List.dropWhile_suffix _).subset (hrest ▸ hb ▸ List.mem_cons_self))
          have hne : b.rest ≠ [] := hb ▸ List.cons_ne_nil _ _
          have hstep : (Bare.start (c :: text)).step = b.step := by
            rw [Bare.step_inside hinside hb, Bare.step, hsettle, Option.bind_some, hb]
            exact if_neg fun h => hd h.2
          constructor
          · intro hends
            cases hends with
            | done hrest => cases hrest
            | throws _ hnone => exact .throws hne (hstep ▸ hnone)
            | next _ hsome hends => exact .next hne (hstep ▸ hsome) hends
          · intro hends
            cases hends with
            | done hrest => exact absurd hrest hne
            | throws _ hnone => exact .throws (List.cons_ne_nil _ _) (hstep ▸ hnone)
            | next _ hsome hends => exact .next (List.cons_ne_nil _ _) (hstep ▸ hsome) hends

/-- A text that begins with no layout is read from the middle of its first line. -/
theorem ends_start_iff {text : List Char} (h : ∀ c ∈ text.head?, c ≠ ' ' ∧ c ≠ '\t') (hline : '\n' ∉ text)
    {out : Option (List (TokenType × List Char))} : Ends (.start text) out ↔ Ends ⟨text, false, [0], []⟩ out := by
  refine ends_settled ?_ hline
  cases text with
  | nil => rfl
  | cons c text =>
      obtain ⟨hspace, htab⟩ := h c rfl
      have hn : c ≠ '\n' := fun hc => hline (hc ▸ List.mem_cons_self)
      have hdrop : (c :: text).dropWhile (· == '\t') = c :: text := List.dropWhile_cons_of_neg (by simpa using htab)
      rw [Bare.settle_start hdrop hspace hn, List.takeWhile_cons_of_neg (by simpa using htab)]
      split_ifs
      · rfl
      · rfl

/-- The indentation of a line leaves it alone, or opens a level, unless it throws. -/
theorem Bare.settle_line {text : List Char} {b : Bare} (hline : '\n' ∉ text) (h : (start text).settle = some b) :
    (b.stack = [0] ∧ b.kinds = []) ∨ b.kinds = [(.indent, "<INDENT>".toList)] := by
  cases hdrop : text.dropWhile (· == '\t') with
  | nil =>
      unfold settle at h
      rw [if_pos (show (start text).atLineStart = true from rfl),
        show (start text).afterTabs.rest = [] from hdrop] at h
      cases h
      exact .inl ⟨rfl, rfl⟩
  | cons d rest =>
      have hn : d ≠ '\n' := fun hd => hline (hd ▸ (List.dropWhile_suffix _).subset (hdrop ▸ List.mem_cons_self))
      by_cases hspace : d = ' '
      · unfold settle at h
        rw [if_pos (show (start text).atLineStart = true from rfl),
          show (start text).afterTabs.rest = d :: rest from hdrop] at h
        cases (if_pos hspace).symm.trans h
      · rw [settle_start hdrop hspace hn] at h
        split_ifs at h
        · cases h
          exact .inl ⟨rfl, rfl⟩
        · generalize (text.takeWhile (· == '\t')).length = tabs at h
          cases tabs with
          | zero =>
              cases h
              exact .inl ⟨rfl, rfl⟩
          | succ n =>
              cases h
              exact .inr rfl

/-- The tokens of a line that is not indented. -/
theorem ends_line {text : List Char} (hline : '\n' ∉ text) (hcomment : '#' ∉ text)
    {kinds : List (TokenType × List Char)} (h : Ends (.start text) (some kinds)) (hindent : ∀ k ∈ kinds, k.1 ≠ .indent) :
    ∃ ks, kinds = ks ++ [(.endOfFile, [])] ∧ ∀ k ∈ ks, k.1 = .stringLiteral ∨ k.1 = .fstringLiteral ∨ Rereads k := by
  cases hsettle : (Bare.start text).settle with
  | none =>
      have hne : text ≠ [] := by
        rintro rfl
        cases hsettle
      cases h.unique (.throws hne (by rw [Bare.step, hsettle]; rfl))
  | some b =>
      have hends := (ends_settled hsettle hline).mp h
      obtain ⟨hinside, hrest⟩ := Bare.settle_inside hsettle
      rcases Bare.settle_line hline hsettle with ⟨hstack, hkinds⟩ | hkinds
      · have hsub := (List.dropWhile_suffix (l := text) (· == '\t')).subset
        rw [← hrest] at hsub
        obtain ⟨ks, hks, hread⟩ := hends.rereads
          ⟨hinside, hstack, fun hn => hline (hsub hn), fun hhash => hcomment (hsub hhash)⟩ rfl
        rw [hkinds] at hks
        exact ⟨ks, hks, hread⟩
      · have hfirst := hends.kinds rfl
        rw [hkinds] at hfirst
        exact absurd rfl (hindent _ (hfirst.subset List.mem_cons_self))

/-! ## The line written anew -/

/-- Lexemes, each with a space behind it. -/
def spaced (ks : List (TokenType × List Char)) : List Char := (ks.map fun k => k.2 ++ [' ']).flatten

theorem spaced_cons (k : TokenType × List Char) (ks : List (TokenType × List Char)) :
    spaced (k :: ks) = k.2 ++ ' ' :: spaced ks := by
  rw [spaced, List.map_cons, List.flatten_cons, List.append_assoc]
  rfl

/-- The empty lexeme of the end is written behind the last space. -/
theorem intercalate_end (ks : List (TokenType × List Char)) :
    [' '].intercalate ((ks ++ [(TokenType.endOfFile, [])]).map Prod.snd) = spaced ks := by
  induction ks with
  | nil => rfl
  | cons k ks ih =>
      rw [spaced_cons, ← ih]
      cases ks with
      | nil => rfl
      | cons k' ks => rfl

/-- A line of lexemes begins with no layout. -/
theorem spaced_head {ks : List (TokenType × List Char)} (h : ∀ k ∈ ks, Rereads k) :
    ∀ c ∈ (spaced ks).head?, isBlank c = false ∧ c ≠ '\n' ∧ c ≠ '#' := by
  cases ks with
  | nil => exact fun c hc => by cases hc
  | cons k ks =>
      obtain ⟨c, text, hk, hblank, hn, hhash⟩ := (h k List.mem_cons_self).head
      intro d hd
      rw [spaced_cons, hk] at hd
      cases hd
      exact ⟨hblank, hn, hhash⟩

theorem spaced_line {ks : List (TokenType × List Char)} (h : ∀ k ∈ ks, Rereads k) : '\n' ∉ spaced ks := by
  intro hmem
  obtain ⟨l, hl, hn⟩ := List.mem_flatten.mp hmem
  obtain ⟨k, hk, rfl⟩ := List.mem_map.mp hl
  exact List.not_mem_append (h k hk).line (by decide) hn

/-- **The line is read as the tokens it is written of.** -/
theorem ends_spaced {ks : List (TokenType × List Char)} (h : ∀ k ∈ ks, Rereads k) (kinds : List (TokenType × List Char)) :
    Ends ⟨spaced ks, false, [0], kinds⟩ (some (kinds.reverse ++ ks ++ [(.endOfFile, [])])) := by
  induction ks generalizing kinds with
  | nil =>
      rw [List.append_nil, ← List.reverse_cons]
      exact .done rfl
  | cons k ks ih =>
      have hk := h k List.mem_cons_self
      have hks := fun k' hk' => h k' (List.mem_cons_of_mem _ hk')
      obtain ⟨c, text, hct, -⟩ := hk.head
      have hne : spaced (k :: ks) = c :: (text ++ ' ' :: spaced ks) := by
        rw [spaced_cons, hct]
        rfl
      -- the lexeme, and the space behind it
      have htoken : (⟨spaced (k :: ks), false, [0], kinds⟩ : Bare).step = some ⟨' ' :: spaced ks, false, [0], k :: kinds⟩ := by
        rw [Bare.step_inside rfl hne, ← hne, spaced_cons]
        exact hk.read _ (parted_space _) _
      have hspace : (⟨' ' :: spaced ks, false, [0], k :: kinds⟩ : Bare).step = some ⟨spaced ks, false, [0], k :: kinds⟩ := by
        rw [Bare.step_inside rfl rfl]
        have hdrop : (spaced ks).dropWhile isBlank = spaced ks := by
          cases hs : spaced ks with
          | nil => rfl
          | cons d more =>
              have hd := spaced_head hks d (by rw [hs]; rfl)
              exact List.dropWhile_cons_of_neg (by rw [hd.1]; exact Bool.false_ne_true)
        show some (⟨(spaced ks).dropWhile isBlank, false, [0], k :: kinds⟩ : Bare) = _
        rw [hdrop]
      have hrest := ih hks (k :: kinds)
      rw [List.reverse_cons, List.append_assoc kinds.reverse, List.singleton_append] at hrest
      refine .next ?_ htoken (.next (List.cons_ne_nil _ _) hspace hrest)
      show spaced (k :: ks) ≠ []
      rw [hne]
      exact List.cons_ne_nil _ _

/-- Normalization writes what it reads, and tabs and spaces. -/
theorem mem_normalizeFrom {atLineStart : Bool} {spaces : ℕ} {text : List Char} {c : Char}
    (h : c ∈ normalizeFrom atLineStart spaces text) : c ∈ text ∨ c = '\t' ∨ c = ' ' := by
  have hskip : ∀ {d text'}, c ∈ text' ∨ c = '\t' ∨ c = ' ' → c ∈ d :: text' ∨ c = '\t' ∨ c = ' ' :=
    fun h => h.imp_left (List.mem_cons_of_mem _)
  have hcons : ∀ {d text' l}, (c ∈ l → c ∈ text' ∨ c = '\t' ∨ c = ' ') → c ∈ d :: l →
      c ∈ d :: text' ∨ c = '\t' ∨ c = ' ' := by
    intro d text' l hl hc
    rcases List.mem_cons.mp hc with rfl | hc
    · exact .inl List.mem_cons_self
    · exact hskip (hl hc)
  have htab : ∀ {d text' l}, (c ∈ l → c ∈ d :: text' ∨ c = '\t' ∨ c = ' ') → c ∈ '\t' :: l →
      c ∈ d :: text' ∨ c = '\t' ∨ c = ' ' := by
    intro d text' l hl hc
    rcases List.mem_cons.mp hc with rfl | hc
    · exact .inr (.inl rfl)
    · exact hl hc
  induction text generalizing atLineStart spaces with
  | nil =>
      cases atLineStart with
      | true => cases h
      | false => cases h
  | cons d text ih =>
      cases atLineStart with
      | true =>
          rw [normalizeFrom] at h
          split_ifs at h
          · exact htab (fun h => hskip (ih h)) h
          · exact hskip (ih h)
          · rcases List.mem_append.mp h with h | h
            · exact .inr (.inr (List.eq_of_mem_replicate h))
            · exact htab (fun h => hskip (ih h)) h
          · exact htab (htab fun h => hskip (ih h)) h
          · exact htab (hcons ih) h
          · exact hcons ih h
      | false =>
          rw [normalizeFrom] at h
          split_ifs at h
          · exact hcons ih h
          · exact hcons ih h

/-- A text that begins with no layout is normalized already, if it is one line. -/
theorem normalizeIndentation_line {text : List Char} (hline : '\n' ∉ text)
    (h : ∀ c ∈ text.head?, c ≠ ' ' ∧ c ≠ '\t') : normalizeIndentation text = text := by
  cases text with
  | nil => rfl
  | cons c text =>
      obtain ⟨hspace, htab⟩ := h c rfl
      unfold normalizeIndentation
      rw [normalizeFrom, if_neg hspace, if_neg htab, if_neg (lt_irrefl 0),
        normalizeFrom_false_last fun hn => hline (List.mem_cons_of_mem _ hn)]

/-- **A line is read again.**  The lexemes of the tokens of a line that is not indented, with single spaces between
them, have the tokens with these types and lexemes. -/
theorem respaced_same {source : List Char} {filename : String} {tokens : List Token} (hline : '\n' ∉ source)
    (hcomment : '#' ∉ source) (h : tokenize source filename = .ok tokens)
    (hstring : ∀ t ∈ tokens, t.type ≠ .stringLiteral ∧ t.type ≠ .fstringLiteral)
    (hindent : ∀ t ∈ tokens, t.type ≠ .indent) (filename' : String) :
    ∃ tokens', tokenize ([' '].intercalate (tokens.map Token.lexeme)) filename' = .ok tokens' ∧
      tokens'.map Token.kind = tokens.map Token.kind := by
  have hout : outcome source filename = some (tokens.map Token.kind) := by
    rw [outcome, h]
    rfl
  have hends := hout ▸ ends_outcome source filename
  have hnormal : ∀ c, c ∉ source → c ≠ '\t' → c ≠ ' ' → c ∉ normalizeIndentation source := by
    intro c hc htab hspace hmem
    rcases mem_normalizeFrom hmem with h | h | h
    · exact hc h
    · exact htab h
    · exact hspace h
  obtain ⟨ks, hks, hread⟩ := ends_line (hnormal _ hline (by decide) (by decide)) (hnormal _ hcomment (by decide) (by decide))
    hends (List.forall_mem_map.mpr hindent)
  have hks' : ∀ k ∈ ks, Rereads k := by
    intro k hk
    have hmem : k ∈ tokens.map Token.kind := hks ▸ List.mem_append_left _ hk
    obtain ⟨t, ht, rfl⟩ := List.mem_map.mp hmem
    rcases hread _ hk with h | h | h
    · exact absurd h (hstring t ht).1
    · exact absurd h (hstring t ht).2
    · exact h
  have htext : [' '].intercalate (tokens.map Token.lexeme) = spaced ks := by
    rw [← intercalate_end, ← hks, List.map_map]
    rfl
  have hhead : ∀ c ∈ (spaced ks).head?, c ≠ ' ' ∧ c ≠ '\t' := fun c hc => ne_of_not_blank (spaced_head hks' c hc).1
  -- the line is normalized already
  have hsame : normalizeIndentation (spaced ks) = spaced ks := normalizeIndentation_line (spaced_line hks') hhead
  have hstart : Ends (.start (spaced ks)) (some (ks ++ [(.endOfFile, [])])) :=
    (ends_start_iff hhead (spaced_line hks')).mpr (ends_spaced hks' [])
  have hagain := ends_outcome (spaced ks) filename'
  rw [hsame] at hagain
  have hkinds := hagain.unique hstart
  rw [htext, hks]
  cases htokens : tokenize (spaced ks) filename' with
  | error e =>
      rw [outcome, htokens] at hkinds
      cases hkinds
  | ok tokens' =>
      rw [outcome, htokens] at hkinds
      exact ⟨tokens', rfl, Option.some.inj hkinds⟩

/-- `x += 1_000` and the line that is written of its tokens. -/
theorem respaced_sum :
    ∃ tokens, tokenize "x += 1000 ".toList "" = .ok tokens ∧ tokens.map Token.kind =
      [(.identifier, "x".toList), (.plusEq, "+=".toList), (.intLiteral, "1000".toList), (.endOfFile, [])] :=
  @respaced_same "x+=1_000".toList ""
    [⟨.identifier, "x".toList, ⟨1, 1⟩⟩, ⟨.plusEq, "+=".toList, ⟨1, 2⟩⟩, ⟨.intLiteral, "1000".toList, ⟨1, 4⟩⟩,
      ⟨.endOfFile, [], ⟨1, 9⟩⟩]
    (by decide) (by decide) (by decide +kernel) (by decide) (by decide) ""

/-- The lexemes of an indented line: `<INDENT>` is read as three tokens. -/
theorem respaced_indented :
    ∃ source tokens, '\n' ∉ source ∧ '#' ∉ source ∧ tokenize source "" = .ok tokens ∧
      (∀ t ∈ tokens, t.type ≠ .stringLiteral ∧ t.type ≠ .fstringLiteral) ∧
      outcome ([' '].intercalate (tokens.map Token.lexeme)) "" ≠ some (tokens.map Token.kind) :=
  ⟨"\tx".toList, [⟨.indent, "<INDENT>".toList, ⟨1, 1⟩⟩, ⟨.identifier, "x".toList, ⟨1, 2⟩⟩,
    ⟨.dedent, "<DEDENT>".toList, ⟨1, 3⟩⟩, ⟨.endOfFile, [], ⟨1, 3⟩⟩], by decide, by decide, by decide +kernel, by decide,
    by decide +kernel⟩

end Visuall.Lexer
