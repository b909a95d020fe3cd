import Visuall.Parser.Unplaced
import Visuall.Parser.Escapes
import Visuall.Lexer.Padding

/-!
# Expressions in f-strings

The text between the braces of an f-string is lexed as if it were a source file, and `parseExpression` takes the tokens
at its front.

* `parsedFront`, `Complete` — the expression at the front of a text, and a text that is one expression;
* `parseExpression_indent` — no expression begins with an `INDENT`;
* `Embeds` — what stands between the braces is the expression, whatever white space stands around it, or is rejected;
* `embeds_iff` — exactly when.
-/

namespace Visuall.Parser

open Visuall.Ast Visuall.Descent Visuall.Lexer Descent.Parser

/-! ## No expression begins with an `INDENT` -/

/-- The parser ends early. -/
def Fails {α : Type} (p : Parse α) (ts : List Token) (i : ℕ) : Prop := ∃ h, (p ts i).1 = .error h

theorem Fails.bind {α β : Type} {p : Parse α} {ts : List Token} {i : ℕ} (hp : Fails p ts i) (f : α → Parse β) :
    Fails (p >>= f) ts i := by
  obtain ⟨h, hp⟩ := hp
  refine ⟨h, ?_⟩
  rw [bind_of_error (h := h) (j := (p ts i).2) (Prod.ext hp rfl)]

theorem Fails.after {α β : Type} {p : Parse α} {f : α → Parse β} {ts : List Token} {i j : ℕ} {a : α}
    (hp : p ts i = (.ok a, j)) (hf : Fails (f a) ts j) : Fails (p >>= f) ts i := by
  obtain ⟨h, hf⟩ := hf
  exact ⟨h, by rw [bind_of_ok hp]; exact hf⟩

section Indent

variable {ts : List Token} {i : ℕ} {t : Token} (ht : ts[i]? = some t) (htype : t.type = .indent) {α : Type}
include ht

theorem current_run : current ts i = (.ok t, i) := by
  have htoken : (token i : Parse Token) ts i = (.ok t, i) := by
    rw [token, ht]
  exact htoken

include htype

theorem check_indent {type : TokenType} (hne : type ≠ .indent) : check type ts i = (.ok false, i) := by
  have hend : isAtEnd ts i = (.ok false, i) := by
    refine (bind_of_ok (current_run ht)).trans ?_
    rw [htype]
    rfl
  refine (bind_of_ok hend).trans ((bind_of_ok (current_run ht)).trans ?_)
  rw [htype, beq_eq_false_iff_ne.mpr (Ne.symm hne)]
  rfl

theorem matchToken_indent {type : TokenType} (hne : type ≠ .indent) : matchToken type ts i = (.ok false, i) :=
  bind_of_ok (check_indent ht htype hne)

/-- A token of another type is not there. -/
theorem Fails.unless {type : TokenType} (hne : type ≠ .indent) (p : Parse α) {q : Parse α} (hq : Fails q ts i) :
    Fails (do if ← matchToken type then p else q) ts i :=
  Fails.after (matchToken_indent ht htype hne) hq

theorem parsePrimary_indent (N : Nested) : Fails (parsePrimary N) ts i := by
  refine Fails.after (current_run ht) ?_
  refine Fails.unless ht htype (by decide) _ (Fails.unless ht htype (by decide) _ ?_)
  refine Fails.unless ht htype (by decide) _ (Fails.unless ht htype (by decide) _ ?_)
  refine Fails.unless ht htype (by decide) _ (Fails.unless ht htype (by decide) _ ?_)
  refine Fails.unless ht htype (by decide) _ (Fails.unless ht htype (by decide) _ ?_)
  refine Fails.unless ht htype (by decide) _ (Fails.unless ht htype (by decide) _ ?_)
  refine Fails.unless ht htype (by decide) _ (Fails.unless ht htype (by decide) _ ?_)
  refine Fails.unless ht htype (by decide) _ (Fails.unless ht htype (by decide) _ ?_)
  exact Fails.after (current_run ht) ⟨_, by rw [error, bind_of_ok (current_run ht)]; rfl⟩

theorem parseUnary_indent (N : Nested) : Fails (parseUnary N) ts i := by
  refine Fails.unless ht htype (by decide) _ (Fails.unless ht htype (by decide) _ ?_)
  exact Fails.unless ht htype (by decide) _ (((parsePrimary_indent ht htype N).bind _).bind _)

theorem parseBitOr_indent (N : Nested) : Fails (parseBitOr N) ts i := by
  have hadd : Fails (parseAddSub N) ts i := ((parseUnary_indent ht htype N).bind _).bind _
  have hcomparison : Fails (parseComparison N) ts i := hadd.bind _
  exact (((hcomparison.bind _).bind _).bind _).bind _

theorem parseTernary_indent (N : Nested) : Fails (parseTernary N) ts i := by
  have hnot : Fails (parseNot N) ts i := Fails.unless ht htype (by decide) _ (parseBitOr_indent ht htype N)
  have hor : Fails (parseOr N) ts i := (hnot.bind _).bind _
  exact (hor.bind _).bind _

/-- **No expression begins with an `INDENT`.** -/
theorem parseExpression_indent (N : Nested) : Fails (parseExpression N) ts i :=
  Fails.after (check_indent ht htype (by decide)) (parseTernary_indent ht htype N)

end Indent

/-! ## Texts -/

section Texts

variable (stod : Name → Option NumberError) (filename : String) (depth : ℕ)

/-- The expression at the front of a text, and the tokens that are left behind it. -/
def parsedFront (text : Name) : Except (Halt Thrown) (Expr × List Token) :=
  match tokenize text filename with
  | .error e => .error (.thrown (.lex e))
  | .ok ts =>
    match parseExpression (nested stod (interpolations stod filename depth) ts.length) ts 0 with
    | (.ok tree, j) => .ok (tree, ts.drop j)
    | (.error h, _) => .error h

/-- The text is one expression: the end follows it. -/
def Complete (text : Name) (tree : Expr) : Prop :=
  ∃ left, parsedFront stod filename depth text = .ok (tree, left) ∧ left.head?.any (·.type == .endOfFile) = true

variable {stod filename depth}

/-- An interpolation is the expression at the front of its text. -/
theorem interpolations_front (text : Name) :
    interpolations stod filename (depth + 1) text = (parsedFront stod filename depth text).map Prod.fst := by
  rw [interpolations, parsedFront]
  cases tokenize text filename with
  | error e => rfl
  | ok ts =>
    dsimp only
    rcases parseExpression (nested stod (interpolations stod filename depth) ts.length) ts 0 with ⟨h | tree, j⟩
    · rfl
    · rfl

theorem interpolations_lexed {text : Name} {ts : List Token} (h : tokenize text filename = .ok ts) :
    interpolations stod filename (depth + 1) text =
      (parseExpression (nested stod (interpolations stod filename depth) ts.length) ts 0).1 := by
  rw [interpolations, h]

theorem interpolations_rejected {text : Name} {e : LexError} (h : tokenize text filename = .error e) :
    interpolations stod filename (depth + 1) text = .error (.thrown (.lex e)) := by
  rw [interpolations, h]

variable (stod depth) in
/-- Texts with the same tokens are the same interpolation. -/
theorem interpolations_same {text text' : Name} (h : outcome text filename = outcome text' filename) :
    EndAlike Same (interpolations stod filename (depth + 1) text) (interpolations stod filename (depth + 1) text') := by
  unfold outcome at h
  cases htokens : tokenize text filename with
  | error e =>
    rw [htokens] at h
    cases htokens' : tokenize text' filename with
    | error e' =>
      rw [interpolations_rejected htokens, interpolations_rejected htokens']
      exact .error
    | ok ts' =>
      rw [htokens'] at h
      cases h
  | ok ts =>
    rw [htokens] at h
    cases htokens' : tokenize text' filename with
    | error e' =>
      rw [htokens'] at h
      cases h
    | ok ts' =>
      rw [htokens'] at h
      have hkinds := sameKind_of_kinds (Option.some.inj h)
      have hsteady := nested_steady hkinds stod (interpolations stod filename depth) ts'.length
      rw [interpolations_lexed htokens, interpolations_lexed htokens', hkinds.length_eq]
      exact (parseExpression_same hkinds hsteady 0).2

variable (stod filename depth) in
/-- A text that is indented is rejected. -/
theorem interpolations_indented {text : Name} (hline : '\n' ∉ text) (h : ¬ Unindented text) :
    ∃ e, interpolations stod filename (depth + 1) text = .error e := by
  have hout := outcome_indented hline h filename
  unfold outcome at hout
  cases htokens : tokenize text filename with
  | error e => exact ⟨_, interpolations_rejected htokens⟩
  | ok ts =>
    rw [htokens] at hout
    rw [interpolations_lexed htokens]
    rcases hout with hnone | ⟨kinds, hkinds⟩
    · cases hnone
    · cases ts with
      | nil => cases hkinds
      | cons t ts =>
        have htype : t.type = .indent := congrArg Prod.fst (List.cons.inj (Option.some.inj hkinds)).1
        exact @parseExpression_indent (t :: ts) 0 _ rfl htype _

end Texts

/-! ## F-strings -/

section FStrings

variable {before after text : Name}

/-- The literal text up to a brace. -/
theorem fstringParts_before (hbrace : '\x7b' ∉ before) (hescape : '\\' ∉ before) (literal rest : Name) :
    fstringParts literal none (before ++ '\x7b' :: rest) =
      flushLiteral (literal ++ before) ++ fstringParts [] (some []) rest := by
  induction before generalizing literal with
  | nil =>
    rw [List.nil_append, List.append_nil, fstringParts, if_pos rfl]
    intro _ _ h
    cases h
  | cons c before ih =>
    rw [List.mem_cons, not_or] at hbrace hescape
    rw [List.cons_append, fstringParts, if_neg (Ne.symm hbrace.1), ih hbrace.2 hescape.2, List.append_assoc]
    · rfl
    · intro _ _ h
      exact absurd h.symm hescape.1

/-- The text of an interpolation. -/
theorem fstringParts_inside (hbrace : '\x7d' ∉ text) (literal exprText rest : Name) :
    fstringParts literal (some exprText) (text ++ '\x7d' :: rest) =
      .inr (exprText ++ text) :: fstringParts [] none rest := by
  induction text generalizing literal exprText with
  | nil => rw [List.nil_append, List.append_nil, fstringParts, if_pos rfl]
  | cons c text ih =>
    rw [List.mem_cons, not_or] at hbrace
    rw [List.cons_append, fstringParts, if_neg (Ne.symm hbrace.1), ih hbrace.2, List.append_assoc]
    rfl

/-- A literal text as parts of a tree, unless it is empty. -/
def literalPart (literal : Name) : List (Name ⊕ Expr) := if literal = [] then [] else [.inl literal]

/-- The raw lexeme of an f-string with one interpolation in it. -/
def framed (q : Char) (before text after : Name) : Name :=
  'f' :: q :: (before ++ '\x7b' :: (text ++ '\x7d' :: after) ++ [q])

theorem parseParts_literal (N : Nested) (literal : Name) (parts : List (Name ⊕ Name)) :
    parseParts N (flushLiteral literal ++ parts) = (parseParts N parts).map (literalPart literal ++ ·) := by
  unfold flushLiteral literalPart
  split_ifs
  · rw [List.nil_append]
    cases parseParts N parts with
    | error e => rfl
    | ok trees => rfl
  · rw [List.singleton_append, parseParts]
    cases parseParts N parts with
    | error e => rfl
    | ok trees => rfl

theorem parseParts_framed (N : Nested) (before text after : Name) :
    parseParts N (flushLiteral before ++ .inr text :: flushLiteral after) =
      (N.interpolation text).map fun tree => literalPart before ++ .inr tree :: literalPart after := by
  have hafter : parseParts N (flushLiteral after) = .ok (literalPart after) := by
    have hparts := parseParts_literal N after []
    rw [List.append_nil] at hparts
    rw [hparts, parseParts]
    exact congrArg Except.ok (List.append_nil _)
  rw [parseParts_literal, parseParts, hafter]
  cases N.interpolation text with
  | error e => rfl
  | ok tree => rfl

/-- An f-string with one interpolation is parsed as that is. -/
theorem parseFString_framed (N : Nested) (q : Char) (hbrace : '\x7b' ∉ before) (hescape : '\\' ∉ before)
    (htext : '\x7d' ∉ text) (hafter : '\x7b' ∉ after) :
    parseFString N (framed q before text after) = (N.interpolation text).map fun tree =>
      .fstringExpr (literalPart before ++ .inr tree :: literalPart (fstringText after)) := by
  have hcontent : fstringContent (framed q before text after) = .ok (before ++ '\x7b' :: (text ++ '\x7d' :: after)) :=
    fstringContent_quoted q _
  have hparts := fstringParts_before hbrace hescape [] (text ++ '\x7d' :: after)
  rw [fstringParts_inside htext, fstringParts_text hafter, List.nil_append, List.nil_append, List.nil_append] at hparts
  rw [parseFString, hcontent]
  show (parseParts N (fstringParts [] none (before ++ '\x7b' :: (text ++ '\x7d' :: after))) >>= fun parts =>
    pure (Expr.fstringExpr parts)) = _
  rw [hparts]
  rw [parseParts_framed]
  cases N.interpolation text with
  | error e => rfl
  | ok tree => rfl

end FStrings

/-! ## An expression between braces -/

theorem nested_interpolation (stod : Name → Option NumberError) (interpolation : Name → Except (Halt Thrown) Expr) (n : ℕ) :
    (nested stod interpolation n).interpolation = interpolation := by
  cases n <;> rfl

/-- What an f-string is to make of a text between its braces, with white space around it: if the text is one expression,
the part is this expression; else the f-string is rejected. -/
structure Embeds (stod : Name → Option NumberError) (filename : String) (depth turns : ℕ) (q : Char)
    (before left text right after : Name) : Prop where
  same : ∀ tree, Complete stod filename depth text tree → ∃ tree', Same tree' tree ∧
    parseFString (nested stod (interpolations stod filename (depth + 1)) turns)
        (framed q before (left ++ text ++ right) after) =
      .ok (.fstringExpr (literalPart before ++ .inr tree' :: literalPart (fstringText after)))
  rejected : (∀ tree, ¬ Complete stod filename depth text tree) → ∃ e,
    parseFString (nested stod (interpolations stod filename (depth + 1)) turns)
      (framed q before (left ++ text ++ right) after) = .error e

section Embeds

variable {stod : Name → Option NumberError} {filename : String} {depth turns : ℕ} {q : Char}
  {before left text right after : Name} (hbrace : '\x7b' ∉ before) (hescape : '\\' ∉ before)
  (htext : '\x7d' ∉ left ++ text ++ right) (hafter : '\x7b' ∉ after)
include hbrace hescape htext hafter

/-- A part that is rejected. -/
theorem embeds_of_error {e : Halt Thrown}
    (he : interpolations stod filename (depth + 1) (left ++ text ++ right) = .error e) :
    Embeds stod filename depth turns q before left text right after ↔
      ∀ tree, ¬ Complete stod filename depth text tree := by
  have hstring := parseFString_framed (nested stod (interpolations stod filename (depth + 1)) turns) q hbrace hescape htext
    hafter
  rw [nested_interpolation, he] at hstring
  constructor
  · intro hembeds tree hcomplete
    obtain ⟨_, -, hok⟩ := hembeds.same tree hcomplete
    cases hstring.symm.trans hok
  · exact fun hnone => ⟨fun tree hcomplete => absurd hcomplete (hnone tree), fun _ => ⟨_, hstring⟩⟩

/-- A part that is accepted, for the expression at the front of the text. -/
theorem embeds_of_ok {tree tree' : Expr} {rest : List Token}
    (hok : interpolations stod filename (depth + 1) (left ++ text ++ right) = .ok tree') (hsame : Same tree' tree)
    (hfront : parsedFront stod filename depth text = .ok (tree, rest)) :
    Embeds stod filename depth turns q before left text right after ↔
      ∃ tree, Complete stod filename depth text tree := by
  have hstring := parseFString_framed (nested stod (interpolations stod filename (depth + 1)) turns) q hbrace hescape htext
    hafter
  rw [nested_interpolation, hok] at hstring
  constructor
  · intro hembeds
    by_contra hnone
    obtain ⟨e, he⟩ := hembeds.rejected fun tree hcomplete => hnone ⟨tree, hcomplete⟩
    cases hstring.symm.trans he
  · rintro ⟨_, hcomplete⟩
    refine ⟨fun _ hcomplete' => ⟨tree', ?_, hstring⟩, fun hnone => absurd hcomplete (hnone _)⟩
    obtain ⟨_, hfront', -⟩ := hcomplete'
    cases hfront.symm.trans hfront'
    exact hsame

end Embeds

/-- **When the part is the expression.**  For a text that begins with an expression: when nothing follows it and the text
is not indented, or something follows it and the text is. -/
theorem embeds_iff (stod : Name → Option NumberError) (filename : String) (depth turns : ℕ) (q : Char)
    {before left text right after : Name} (hbrace : '\x7b' ∉ before) (hescape : '\\' ∉ before) (hafter : '\x7b' ∉ after)
    (hleft : Blank left) (hright : Blank right) (hhead : ∀ c ∈ text.head?, isBlank c = false) (hline : '\n' ∉ text)
    (hquote : '"' ∉ text) (hsingle : '\'' ∉ text) (htext : '\x7d' ∉ text) :
    Embeds stod filename depth turns q before left text right after ↔
      ((∃ tree rest, parsedFront stod filename depth text = .ok (tree, rest)) →
        ((∃ tree, Complete stod filename depth text tree) ↔ Unindented (left ++ text ++ right))) := by
  have hnot : ∀ {more}, Blank more → '\x7d' ∉ more := fun hmore hmem => absurd (hmore _ hmem) (by decide)
  have hwhole : '\x7d' ∉ left ++ text ++ right :=
    List.not_mem_append (List.not_mem_append (hnot hleft) htext) (hnot hright)
  have hlines : '\n' ∉ left ++ text ++ right := List.not_mem_append (List.not_mem_append hleft.line hline) hright.line
  by_cases hunindented : Unindented (left ++ text ++ right)
  · have houtcome := outcome_unindented hleft hright hhead hline hquote hsingle hunindented filename
    have halike := interpolations_same stod depth houtcome
    rw [interpolations_front text] at halike
    cases hfront : parsedFront stod filename depth text with
    | error e =>
      -- no expression at the front
      rw [hfront] at halike
      obtain ⟨e', he'⟩ := halike.of_error
      rw [embeds_of_error hbrace hescape hwhole hafter he']
      constructor
      · rintro - ⟨_, _, h⟩
        cases h
      · rintro - tree ⟨_, h, -⟩
        cases hfront.symm.trans h
    | ok p =>
      obtain ⟨tree, rest⟩ := p
      rw [hfront] at halike
      obtain ⟨tree', hok, hsame⟩ := halike.of_ok
      rw [embeds_of_ok hbrace hescape hwhole hafter hok hsame hfront]
      exact ⟨fun h _ => ⟨fun _ => hunindented, fun _ => h⟩, fun h => (h ⟨tree, rest, rfl⟩).mpr hunindented⟩
  · obtain ⟨e, he⟩ := interpolations_indented stod filename depth hlines hunindented
    rw [embeds_of_error hbrace hescape hwhole hafter he]
    constructor
    · intro hnone _
      constructor
      · rintro ⟨tree, hcomplete⟩
        exact absurd hcomplete (hnone tree)
      · exact fun h => absurd h hunindented
    · rintro h tree ⟨rest, hfront, hend⟩
      exact hunindented ((h ⟨tree, rest, hfront⟩).mp ⟨tree, rest, hfront, hend⟩)

/-- `x`, parsed as an expression. -/
theorem complete_name : Complete (fun _ => none) "" 0 ['x'] (.identifier ⟨['x'], ⟨1, 1⟩⟩) := by
  have htokens : tokenize ['x'] "" = .ok [⟨.identifier, ['x'], ⟨1, 1⟩⟩, ⟨.endOfFile, [], ⟨1, 2⟩⟩] := by decide +kernel
  refine ⟨[⟨.endOfFile, [], ⟨1, 2⟩⟩], ?_, rfl⟩
  rw [parsedFront, htokens]
  rfl

/-- A name with a space behind it. -/
theorem embeds_name : Embeds (fun _ => none) "" 0 0 '"' [] [] ['x'] [' '] [] :=
  (embeds_iff (fun _ => none) "" 0 0 '"' List.not_mem_nil List.not_mem_nil List.not_mem_nil blank_nil
    (fun c hc => by rw [List.mem_singleton.mp hc]; rfl) (fun c hc => by cases hc; rfl) (by decide) (by decide) (by decide)
    (by decide)).mpr fun _ => ⟨fun _ => ⟨['x', ' '], by decide +kernel⟩, fun _ => ⟨_, complete_name⟩⟩

/-- A name with a space in front of it is rejected, and of two names the second is left. -/
theorem not_embedded : ¬ Embeds (fun _ => none) "" 0 0 '"' [] [' '] ['x'] [] [] ∧
    ¬ Embeds (fun _ => none) "" 0 0 '"' [] [] "a b".toList [] [] := by
  constructor
  · have htokens : tokenize [' ', 'x'] "" = .ok [⟨.indent, "<INDENT>".toList, ⟨1, 1⟩⟩, ⟨.identifier, ['x'], ⟨1, 2⟩⟩,
        ⟨.dedent, "<DEDENT>".toList, ⟨1, 3⟩⟩, ⟨.endOfFile, [], ⟨1, 3⟩⟩] := by decide +kernel
    obtain ⟨e, he⟩ := @parseExpression_indent [⟨.indent, "<INDENT>".toList, ⟨1, 1⟩⟩, ⟨.identifier, ['x'], ⟨1, 2⟩⟩,
        ⟨.dedent, "<DEDENT>".toList, ⟨1, 3⟩⟩, ⟨.endOfFile, [], ⟨1, 3⟩⟩] 0 _ rfl rfl
      (nested (fun _ => none) (interpolations (fun _ => none) "" 0) 4)
    have hpart : interpolations (fun _ => none) "" 1 [' ', 'x'] = .error e := (interpolations_lexed htokens).trans he
    rw [embeds_of_error List.not_mem_nil List.not_mem_nil (by decide) List.not_mem_nil hpart]
    exact fun hnone => hnone _ complete_name
  · have htokens : tokenize "a b".toList "" = .ok [⟨.identifier, ['a'], ⟨1, 1⟩⟩, ⟨.identifier, ['b'], ⟨1, 3⟩⟩,
        ⟨.endOfFile, [], ⟨1, 4⟩⟩] := by decide +kernel
    have hfront : parsedFront (fun _ => none) "" 0 "a b".toList = .ok (.identifier ⟨['a'], ⟨1, 1⟩⟩,
        [⟨.identifier, ['b'], ⟨1, 3⟩⟩, ⟨.endOfFile, [], ⟨1, 4⟩⟩]) := by
      rw [parsedFront, htokens]
      rfl
    have hpart : interpolations (fun _ => none) "" 1 "a b".toList = .ok (.identifier ⟨['a'], ⟨1, 1⟩⟩) := by
      rw [interpolations_front, hfront]
      rfl
    rw [embeds_of_ok List.not_mem_nil List.not_mem_nil (by decide) List.not_mem_nil hpart rfl hfront]
    rintro ⟨tree, rest, h, hend⟩
    cases hfront.symm.trans h
    cases hend

end Visuall.Parser
