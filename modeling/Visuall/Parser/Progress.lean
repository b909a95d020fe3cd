import Visuall.Parser.Statements
import Visuall.Lib.Effect

/-!
# The parser stays in its tokens

On a list that ends with `END_OF_FILE` every production stays in the list and takes a token when it succeeds, so
the turns given to `Nested` suffice.

* `Ready` — what a production may rely on once a token is taken;
* `parseExpression_consumes`, `parseStatement_consumes` — and so on for each production.
-/

namespace Visuall.Parser

open Visuall.Ast Visuall.Descent Visuall.Lexer Descent.Parser

/-- From `b` on, the productions that are called again consume; and interpolations of the f-strings in the list
end with an expression or an exception. -/
structure Ready (ts : List Token) (b : ℕ) (N : Nested) : Prop where
  interpolation : ∀ t ∈ ts, t.type = .fstringLiteral → ∀ text : Name, text.length < t.lexeme.length →
    ∀ h, N.interpolation text = .error h → ∃ e, h = .thrown e
  expression : Consumes ts b N.expression
  orExpr : Consumes ts b N.orExpr
  notExpr : Consumes ts b N.notExpr
  unary : Consumes ts b N.unary
  typeAnnotation : Consumes ts b N.typeAnnotation
  statement : Consumes ts b N.statement

/-! ## F-strings -/

/-- The text of an interpolation is part of the content. -/
theorem length_of_mem_fstringParts (currentLiteral : Name) (exprText : Option Name) (content text : List Char)
    (hmem : .inr text ∈ fstringParts currentLiteral exprText content) :
    text.length ≤ (exprText.getD []).length + content.length := by
  have hflush (l : Name) : (.inr text : Name ⊕ Name) ∉ flushLiteral l := by
    rw [flushLiteral]
    split
    · exact List.not_mem_nil
    · simp
  induction currentLiteral, exprText, content using fstringParts.induct with
  | case1 currentLiteral =>
    rw [fstringParts] at hmem
    exact absurd hmem (hflush _)
  | case2 _ exprText =>
    rw [fstringParts] at hmem
    cases List.mem_singleton.mp hmem
    exact le_rfl
  | case3 _ exprText content ih =>
    rw [fstringParts, if_pos rfl] at hmem
    rcases List.mem_cons.mp hmem with heq | hmem
    · cases heq
      simp
    · have := ih hmem
      simp only [Option.getD_none, Option.getD_some, List.length_nil, List.length_cons] at this ⊢
      omega
  | case4 _ exprText c content hc ih =>
    rw [fstringParts, if_neg hc] at hmem
    have := ih hmem
    simp only [Option.getD_some, List.length_append, List.length_nil, List.length_cons] at this ⊢
    omega
  | case5 currentLiteral next content ih =>
    rw [fstringParts] at hmem
    have := ih hmem
    simp only [Option.getD_none, List.length_nil, List.length_cons] at this ⊢
    omega
  | case6 currentLiteral content hne ih =>
    rw [fstringParts, if_pos rfl] at hmem
    · rcases List.mem_append.mp hmem with hmem | hmem
      · exact absurd hmem (hflush _)
      · have := ih hmem
        simp only [Option.getD_none, Option.getD_some, List.length_nil, List.length_cons] at this ⊢
        omega
    · exact hne
  | case7 currentLiteral c content hne hc ih =>
    rw [fstringParts, if_neg hc] at hmem
    · have := ih hmem
      simp only [Option.getD_none, List.length_nil, List.length_cons] at this ⊢
      omega
    · exact hne

/-- When the interpolations end as they should, so do the parts. -/
theorem parseParts_error {N : Nested} : ∀ {parts : List (Name ⊕ Name)},
    (∀ text, .inr text ∈ parts → ∀ h, N.interpolation text = .error h → ∃ e, h = .thrown e) →
      ∀ h, parseParts N parts = .error h → ∃ e, h = .thrown e
  | [], _ => fun h hh => by cases hh
  | .inl literal :: parts, hparts => fun h hh => by
    rcases Effect.error_of_bind hh with hrest | ⟨_, _, hh⟩
    · exact parseParts_error (fun text hmem => hparts text (List.mem_cons_of_mem _ hmem)) h hrest
    · cases hh
  | .inr exprText :: parts, hparts => fun h hh => by
    rcases Effect.error_of_bind hh with he | ⟨e, _, hh⟩
    · exact hparts exprText List.mem_cons_self h he
    rcases Effect.error_of_bind hh with hrest | ⟨_, _, hh⟩
    · exact parseParts_error (fun text hmem => hparts text (List.mem_cons_of_mem _ hmem)) h hrest
    · cases hh

/-- The content is shorter than the lexeme. -/
theorem fstringContent_length {raw content : Name} (h : fstringContent raw = .ok content) :
    content.length < raw.length := by
  rw [fstringContent] at h
  by_cases hlen : raw.length < 2
  · rw [if_pos hlen] at h
    cases h
  · rw [if_neg hlen] at h
    cases h
    rw [List.length_take, List.length_drop]
    omega

/-- An f-string of the list ends with an expression or an exception. -/
theorem parseFString_error {ts : List Token} {b : ℕ} {N : Nested} (hN : Ready ts b N) {t : Token} (ht : t ∈ ts)
    (htype : t.type = .fstringLiteral) : ∀ h, parseFString N t.lexeme = .error h → ∃ e, h = .thrown e := by
  intro h hh
  rcases Effect.error_of_bind hh with hcontent | ⟨content, hcontent, hh⟩
  · rw [fstringContent] at hcontent
    split at hcontent
    · cases hcontent
      exact ⟨_, rfl⟩
    · cases hcontent
  have hparts : ∀ h, parseParts N (fstringParts [] none content) = .error h → ∃ e, h = .thrown e :=
    parseParts_error fun text hmem => by
      refine hN.interpolation t ht htype text ?_
      have hle := length_of_mem_fstringParts [] none content text hmem
      have hlt := fstringContent_length hcontent
      simp only [Option.getD_none, List.length_nil] at hle
      omega
  rcases Effect.error_of_bind hh with hp | ⟨_, _, hh⟩
  · exact hparts h hp
  · cases hh

section Productions

variable {ts : List Token} {b c i : ℕ} {N : Nested} (h : Ended ts) (hN : Ready ts (b + 1) N)
include h

/-! ## Lists and brackets -/

/-- Behind the first item, with a trailing comma or not. -/
theorem parseMore_within {α : Type} {item : Parse α} {close : TokenType} {first : α} (hitem : Consumes ts b item)
    (hb : b ≤ i) : Stays ts c i (parseMore item close first) fun _ j => i ≤ j := by
  refine Stays.loop (fun _ j => i ≤ j) le_rfl fun items j hj => ?_
  refine matching h ?_ (Stays.pure hj)
  refine checking (fun _ => Stays.pure (by omega)) ?_
  refine hitem.bind (by omega) fun next k hk => ?_
  exact Stays.pure ⟨by omega, by omega⟩

include hN

theorem parseArguments_consumes : Consumes ts (b + 1) (parseArguments N) := by
  refine .intro fun i hi => checking (fun _ => ?_) ?_
  · exact expecting h fun _ j hj => Stays.pure hj
  · refine (commaSeparated_consumes h hN.expression).bind hi fun args j hj => ?_
    exact expecting h fun _ k hk => Stays.pure (by omega)

theorem parseComprehension_within (close : TokenType) (msg : String) (hi : b ≤ i) (hlive : Live ts i) :
    Stays ts c i (parseComprehension N close msg) fun _ j => i < j := by
  refine advancing h hlive fun _ => ?_
  refine expecting h fun var j hj => ?_
  refine expecting h fun _ k hk => ?_
  refine hN.orExpr.bind (by omega) fun iterable l hl => ?_
  refine matching h ?_ ?_
  · refine hN.orExpr.bind (by omega) fun condition m hm => ?_
    exact expecting h fun _ n hn => Stays.pure (by omega)
  · exact expecting h fun _ n hn => Stays.pure (by omega)

theorem parseParenthesized_consumes : Consumes ts (b + 1) (parseParenthesized N) := by
  refine .intro fun i hi => matching h (finish_within (by omega) (by omega)) ?_
  refine hN.expression.bind hi fun first j hj => ?_
  refine matching h ?_ ?_
  · refine checking (fun _ => ?_) ?_
    · exact expecting h fun _ k hk => finish_within (by omega) (by omega)
    · refine (commaSeparated_consumes h hN.expression).bind (by omega) fun elements k hk => ?_
      exact expecting h fun _ l hl => finish_within (by omega) (by omega)
  · exact expecting h fun _ k hk => Stays.pure (by omega)

theorem parseList_consumes : Consumes ts (b + 1) (parseList N) := by
  refine .intro fun i hi => checking (fun hlive => ?_) ?_
  · exact advancing h hlive fun _ => finish_within (by omega) (by omega)
  · refine hN.expression.bind hi fun first j hj => ?_
    refine checking (fun hlive => ?_) ?_
    · refine (parseComprehension_within h hN .rbracket _ (by omega) hlive).bind fun r k hk => ?_
      exact finish_within (by omega) (by omega)
    · refine (parseMore_within h hN.expression (by omega)).bind fun elements k hk => ?_
      exact expecting h fun _ l hl => finish_within (by omega) (by omega)

theorem parseEntry_consumes : Consumes ts (b + 1) (parseEntry N) := by
  refine .intro fun i hi => hN.expression.bind hi fun key j hj => ?_
  refine expecting h fun _ k hk => ?_
  refine hN.expression.bind (by omega) fun value l hl => ?_
  exact Stays.pure (by omega)

theorem parseDict_consumes : Consumes ts (b + 1) (parseDict N) := by
  refine .intro fun i hi => checking (fun hlive => ?_) ?_
  · exact advancing h hlive fun _ => finish_within (by omega) (by omega)
  · refine (parseEntry_consumes h hN).bind hi fun first j hj => ?_
    refine checking (fun hlive => ?_) ?_
    · refine (parseComprehension_within h hN .rbrace _ (by omega) hlive).bind fun r k hk => ?_
      exact finish_within (by omega) (by omega)
    · refine (parseMore_within h (parseEntry_consumes h hN) (by omega)).bind fun entries k hk => ?_
      exact expecting h fun _ l hl => finish_within (by omega) (by omega)

/-! ## Primaries -/

omit h hN in
/-- The last token is there once one is taken. -/
theorem looking {α : Type} {f : Token → Parse α} {Q : α → ℕ → Prop}
    (hpos : 0 < i) (hf : ∀ t, ts[i - 1]? = some t → Stays ts c i (f t) Q) : Stays ts c i (previous >>= f) Q := by
  refine (previous_within hpos).bind fun t j hj => ?_
  obtain ⟨rfl, ht⟩ := hj
  exact hf t ht

theorem parsePrimary_consumes : Consumes ts b (parsePrimary N) := by
  refine .intro fun i hi => current_within.bind fun tok j hj => ?_
  obtain ⟨rfl, -⟩ := hj
  have hfinish : ∀ node : Expr, Stays ts j (j + 1) (finish node) fun _ k => j < k :=
    fun node => finish_within (by omega) (by omega)
  have hlexeme : ∀ f : Token → Expr,
      Stays ts j (j + 1) (do finish (f (← previous))) fun _ k => j < k :=
    fun f => looking (by omega) fun _ _ => hfinish _
  have hunary : ∀ f : Expr → Expr,
      Stays ts j (j + 1) (do finish (f (← N.unary))) fun _ k => j < k :=
    fun f => hN.unary.bind (by omega) fun _ k hk =>
      finish_within (by omega) (by omega)
  -- an integer: the value, or one of the two errors
  refine matching h (looking (by omega) fun t _ => ?_) ?_
  · cases stoll t.lexeme with
    | ok value => exact hfinish _
    | error e => cases e <;> exact Stays.throw _
  refine matching h (looking (by omega) fun t _ => ?_) ?_
  · cases N.stod t.lexeme with
    | none => exact hfinish _
    | some e => cases e <;> exact Stays.throw _
  refine matching h (hlexeme fun t => .stringLiteral t.lexeme) ?_
  -- an f-string: its interpolations are shorter than it
  refine (matchToken_within h .fstringLiteral).bind fun r k hk => ?_
  refine Stays.ite (fun hr => ?_) fun hr => ?_
  · obtain ⟨rfl, hk⟩ := hk
    rw [if_pos hr]
    obtain ⟨t, ht, htype⟩ := hk hr
    refine looking (by omega) fun t' ht' => ?_
    rw [Nat.add_sub_cancel, ht] at ht'
    cases ht'
    have hraw := parseFString_error hN (List.mem_of_getElem? ht) htype
    refine (Stays.ofExcept hraw).bind fun node k hk => ?_
    exact finish_within (by omega) (by omega)
  · obtain ⟨rfl, -⟩ := hk
    rw [if_neg hr]
    refine matching h (hlexeme fun t => .boolLiteral (t.lexeme == "true".toList)) ?_
    refine matching h (hfinish _) ?_
    refine matching h (hunary _) ?_
    refine matching h (hunary _) ?_
    refine matching h (hfinish _) ?_
    refine matching h (hfinish _) ?_
    refine matching h (hlexeme fun t => .identifier ⟨t.lexeme, tok.pos⟩) ?_
    have hinner {p : Parse Expr} (hp : Consumes ts (b + 1) p) : Stays ts j (j + 1) p fun _ k => j < k :=
      (hp.stays (by omega)).mono fun _ k hk => by omega
    refine matching h (hinner (parseParenthesized_consumes h hN)) ?_
    refine matching h (hinner (parseList_consumes h hN)) ?_
    refine matching h (hinner (parseDict_consumes h hN)) ?_
    refine current_within.bind fun _ k hk => ?_
    exact error_within _

/-! ## Postfix operators -/

omit hN in
theorem parseTypeArgs_within (first : Name) : Stays ts c i (parseTypeArgs first) fun _ j => i ≤ j := by
  refine Stays.loop (fun _ j => i ≤ j) le_rfl fun typeArgs j hj => ?_
  refine matching h ?_ (Stays.pure hj)
  refine checking (fun hlive => ?_) (Stays.pure (by omega))
  exact advancing h hlive fun _ => Stays.pure ⟨by omega, by omega⟩

/-- A generic call, or the parser is where it was. -/
theorem parseGenericCall_within (hi : b ≤ i) (hle : c ≤ i) (hlive : Live ts i) :
    Stays ts c i (parseGenericCall N) fun r j => if r.isSome then i < j else j = i := by
  have hback {j : ℕ} : Stays ts c j (do moveTo i; return none : Parse (Option (List Name × List Expr)))
      fun r k => if r.isSome then i < k else k = i :=
    (Stays.moveTo hle hlive.lt).bind fun _ k hk => Stays.pure hk
  refine Stays.index.bind fun saved j hj => ?_
  obtain ⟨rfl, rfl⟩ := hj
  refine advancing h hlive fun _ => ?_
  refine checking (fun hlive => ?_) hback
  refine advancing h hlive fun first => ?_
  refine (parseTypeArgs_within h first.lexeme).bind fun r k hk => ?_
  refine Stays.ite (fun _ => ?_) fun _ => hback
  refine matching h ?_ hback
  refine checking (fun hlive => ?_) hback
  refine advancing h hlive fun _ => ?_
  refine (parseArguments_consumes h hN).bind (by omega) fun args l hl => ?_
  exact Stays.pure (show j < l by omega)

omit h in
theorem parseBound_within (ends : List TokenType) (hi : b + 1 ≤ i) :
    Stays ts c i (parseBound N ends) fun _ j => i ≤ j := by
  refine current_within.bind fun tok j hj => ?_
  obtain ⟨rfl, -⟩ := hj
  refine Stays.ite (fun _ => Stays.pure le_rfl) fun _ => ?_
  exact (hN.expression.map hi).mono fun _ _ hk => hk.le

theorem parseIndex_consumes (expr : Expr) : Consumes ts (b + 1) (parseIndex N expr) := by
  refine .intro fun i hi => looking (by omega) fun _ _ => ?_
  refine (parseBound_within hN _ hi).bind fun startExpr j hj => ?_
  refine checking (fun hlive => ?_) ?_
  · refine advancing h hlive fun _ => ?_
    refine (parseBound_within hN _ (by omega)).bind fun stopExpr k hk => ?_
    refine matching h ?_ ?_
    · refine (parseBound_within hN _ (by omega)).bind fun stepExpr l hl => ?_
      exact expecting h fun _ m hm => Stays.pure (by omega)
    · exact expecting h fun _ l hl => Stays.pure (by omega)
  · cases startExpr with
    | none => exact error_within _
    | some startExpr => exact expecting h fun _ k hk => Stays.pure (by omega)

omit hN in
theorem parseMember_consumes : Consumes ts 0 parseMember := by
  refine .intro fun i _ => matching h (Stays.pure (by omega)) ?_
  exact expecting h fun _ j hj => Stays.pure hj

theorem parsePostfix_consumes : Consumes ts b (parsePostfix N) := by
  refine .intro fun i hi => (parsePrimary_consumes h hN).bind hi fun expr j hj => ?_
  refine Stays.loop (fun _ k => i < k) hj fun expr k hk => ?_
  refine matching h ?_ ?_
  · refine (parseArguments_consumes h hN).bind (by omega) fun args l hl => ?_
    exact Stays.pure ⟨by omega, by omega⟩
  refine matching h ?_ ?_
  · refine (parseMember_consumes h).bind (Nat.zero_le _) fun member l hl => ?_
    exact Stays.pure ⟨by omega, by omega⟩
  refine checking (fun hlive => ?_) ?_
  · refine (parseGenericCall_within h hN (by omega) (by omega) hlive).bind fun r l hl => ?_
    cases r with
    | none => exact Stays.pure (by rw [show l = k from hl]; exact hk)
    | some call => exact Stays.pure ⟨hl, hk.trans hl⟩
  refine matching h ?_ (Stays.pure hk)
  refine (parseIndex_consumes h hN expr).bind (by omega) fun expr l hl => ?_
  exact Stays.pure ⟨by omega, by omega⟩

theorem parsePower_consumes : Consumes ts b (parsePower N) := by
  refine .intro fun i hi => (parsePostfix_consumes h hN).bind hi fun base j hj => ?_
  refine matching h ?_ (Stays.pure hj)
  refine hN.unary.bind (by omega) fun exp k hk => ?_
  exact Stays.pure (by omega)

/-! ## Operators -/

omit h hN in
theorem prefixed {p : Parse Expr} {f : Expr → Expr} (hp : Consumes ts (b + 1) p) (hi : b ≤ i) :
    Stays ts i (i + 1) (do return f (← p)) fun _ j => i < j :=
  (hp.map (by omega)).mono fun _ _ hj => by omega

theorem parseUnary_consumes : Consumes ts b (parseUnary N) := by
  refine .intro fun i hi => matching h (prefixed hN.unary hi) ?_
  refine matching h (prefixed hN.unary hi) ?_
  refine matching h (prefixed hN.unary hi) ?_
  exact (parsePower_consumes h hN).stays hi

omit hN in
theorem parseBinary_consumes (ops : List (TokenType × BinOp)) {operand : Parse Expr}
    (hoperand : Consumes ts b operand) : Consumes ts b (parseBinary ops operand) := by
  refine .intro fun i hi => hoperand.bind hi fun left j hj => ?_
  refine Stays.loop (fun _ k => i < k) hj fun left k hk => ?_
  refine matchingAny h (fun op => ?_) (Stays.pure hk)
  refine hoperand.bind (by omega) fun right l hl => ?_
  exact Stays.pure ⟨by omega, by omega⟩

theorem parseAddSub_consumes : Consumes ts b (parseAddSub N) :=
  parseBinary_consumes h _ (parseBinary_consumes h _ (parseUnary_consumes h hN))

omit hN in
/-- A comparison operator is taken, or nothing. -/
theorem tryMatchCompOp_within : Stays ts c i tryMatchCompOp fun r j => if r.isSome then i < j else j = i := by
  refine matchingAny h (fun op => Stays.pure (Nat.lt_succ_self i)) ?_
  refine checking (fun hlive => ?_) (Stays.pure rfl)
  refine (nextIs_within (by decide)).bind fun r j hj => ?_
  obtain ⟨rfl, hnext⟩ := hj
  refine Stays.ite (fun hr => ?_) fun _ => Stays.pure rfl
  refine advancing h hlive fun _ => ?_
  refine advancing h (hnext hr) fun _ => ?_
  exact Stays.pure (show j < j + 1 + 1 by omega)

theorem parseComparison_consumes : Consumes ts b (parseComparison N) := by
  refine .intro fun i hi => (parseAddSub_consumes h hN).bind hi fun first j hj => ?_
  refine Stays.bind (Q := fun _ k => i < k) ?_ fun more k hk => Stays.pure hk
  refine Stays.loop (fun _ k => i < k) hj fun more k hk => ?_
  refine (tryMatchCompOp_within h).bind fun r l hl => ?_
  cases r with
  | none => exact Stays.pure (by rw [show l = k from hl]; exact hk)
  | some op =>
    have hkl : k < l := hl
    refine (parseAddSub_consumes h hN).bind (by omega) fun right m hm => ?_
    exact Stays.pure ⟨by omega, by omega⟩

theorem parseBitOr_consumes : Consumes ts b (parseBitOr N) :=
  parseBinary_consumes h _ (parseBinary_consumes h _ (parseBinary_consumes h _
    (parseBinary_consumes h _ (parseComparison_consumes h hN))))

theorem parseNot_consumes : Consumes ts b (parseNot N) := by
  refine .intro fun i hi => matching h (prefixed hN.notExpr hi) ?_
  exact (parseBitOr_consumes h hN).stays hi

theorem parseOr_consumes : Consumes ts b (parseOr N) :=
  parseBinary_consumes h _ (parseBinary_consumes h _ (parseNot_consumes h hN))

theorem parseNullCoalesce_consumes : Consumes ts b (parseNullCoalesce N) := by
  refine .intro fun i hi => (parseOr_consumes h hN).bind hi fun left j hj => ?_
  refine Stays.loop (fun _ k => i < k) hj fun left k hk => ?_
  refine matching h ?_ (Stays.pure hk)
  refine (parseOr_consumes h hN).bind (by omega) fun right l hl => ?_
  refine (finish_within (Q := fun _ m => m = l) (by omega) rfl).bind fun node m hm => ?_
  exact Stays.pure ⟨by omega, by omega⟩

theorem parseTernary_consumes : Consumes ts b (parseTernary N) := by
  refine .intro fun i hi => ?_
  have hpart := parseNullCoalesce_consumes h hN
  refine hpart.bind hi fun expr j hj => ?_
  refine matching h ?_ (Stays.pure hj)
  refine hpart.bind (by omega) fun cond k hk => ?_
  refine expecting h fun _ l hl => ?_
  refine hpart.bind (by omega) fun alt m hm => ?_
  exact Stays.throw _

theorem parseExpression_consumes : Consumes ts b (parseExpression N) := by
  refine .intro fun i hi => checking (fun hlive => ?_) ((parseTernary_consumes h hN).stays hi)
  refine Stays.index.bind fun saved j hj => ?_
  obtain ⟨rfl, rfl⟩ := hj
  refine advancing h hlive fun param => ?_
  refine matching h ?_ ?_
  · refine hN.expression.bind (by omega) fun body k hk => ?_
    exact Stays.pure (by omega)
  refine matching h ?_ ?_
  · refine hN.expression.bind (by omega) fun value k hk => ?_
    exact finish_within (by omega) (by omega)
  · refine (Stays.moveTo le_rfl hlive.lt).bind fun _ k hk => ?_
    subst hk
    exact (parseTernary_consumes h hN).stays hi

/-! ## Annotations -/

theorem parseTypeList_consumes : Consumes ts (b + 1) (parseTypeList N) :=
  .intro fun _ hi => (commaSeparated_consumes h hN.typeAnnotation).map hi

/-- An annotation of a function, or the parser is where it was. -/
theorem parseFunctionType_within (hi : b ≤ i) (hle : c ≤ i) (hlive : Live ts i) :
    Stays ts c i (parseFunctionType N) fun r j => if r.isSome then i < j else j = i := by
  have hback {j : ℕ} : Stays ts c j (do moveTo i; return none : Parse (Option Name))
      fun r k => if r.isSome then i < k else k = i :=
    (Stays.moveTo hle hlive.lt).bind fun _ k hk => Stays.pure hk
  refine Stays.index.bind fun saved j hj => ?_
  obtain ⟨rfl, rfl⟩ := hj
  refine advancing h hlive fun _ => ?_
  refine Stays.bind (Q := fun _ k => j + 1 ≤ k) ?_ fun types k hk => ?_
  · refine checking (fun _ => Stays.pure le_rfl) ?_
    exact ((parseTypeList_consumes h hN).stays (by omega)).mono fun _ _ hj => hj.le
  refine matching h ?_ hback
  refine matching h ?_ hback
  refine hN.typeAnnotation.bind (by omega) fun result l hl => ?_
  exact Stays.pure (show j < l by omega)

theorem parseTypeBrackets_within (hi : b ≤ i) : Stays ts c i (parseTypeBrackets N) fun _ j => i ≤ j := by
  refine matching h ?_ (Stays.pure le_rfl)
  refine (parseTypeList_consumes h hN).bind (by omega) fun types j hj => ?_
  exact expecting h fun _ k hk => Stays.pure (by omega)

theorem parseTypeSuffix_within (hi : b ≤ i) : Stays ts c i (parseTypeSuffix N) fun _ j => i ≤ j := by
  refine Stays.bind (Q := fun _ j => i ≤ j) ?_ fun union j hj => ?_
  · refine matching h ?_ (Stays.pure le_rfl)
    refine hN.typeAnnotation.bind (by omega) fun type j hj => ?_
    exact Stays.pure (by omega)
  have hmark (type : TokenType) (text : Name) {j : ℕ} :
      Stays ts c j (do if ← matchToken type then return text else return [] : Parse Name) fun _ k => j ≤ k :=
    matching h (Stays.pure (by omega)) (Stays.pure le_rfl)
  refine (hmark .question _).bind fun nullable k hk => ?_
  refine (hmark .star _).bind fun pointer l hl => ?_
  exact Stays.pure (by omega)

theorem parseNamedType_consumes : Consumes ts b (parseNamedType N) := by
  refine .intro fun i hi => Stays.bind (Q := fun _ j => i < j) ?_ fun base j hj => ?_
  · refine matching h (Stays.pure (by omega)) ?_
    exact expecting h fun _ j hj => Stays.pure hj
  refine (parseTypeBrackets_within h hN (by omega)).bind fun brackets k hk => ?_
  refine (parseTypeSuffix_within h hN (by omega)).bind fun suffix l hl => ?_
  exact Stays.pure (by omega)

theorem parseChanType_consumes : Consumes ts b (parseChanType N) := by
  refine .intro fun i hi => matching h ?_ ((parseNamedType_consumes h hN).stays hi)
  refine hN.typeAnnotation.bind (by omega) fun elem j hj => ?_
  exact Stays.pure (by omega)

theorem parseTypeAnnotation_consumes : Consumes ts b ( parseTypeAnnotation N) := by
  refine .intro fun i hi => matching h ?_ ?_
  · refine hN.typeAnnotation.bind (by omega) fun type j hj => ?_
    exact Stays.pure (by omega)
  refine checking (fun hlive => ?_) ((parseChanType_consumes h hN).stays hi)
  refine (parseFunctionType_within h hN hi le_rfl hlive).bind fun r j hj => ?_
  cases r with
  | some type => exact Stays.pure hj
  | none =>
    obtain rfl : j = i := hj
    exact (parseChanType_consumes h hN).stays hi

/-! ## Parts of statements -/

omit h hN in
theorem untilDedent_within {α : Type} {item : Parse α} (hitem : Consumes ts b item) (hi : b ≤ i) :
    Stays ts c i (untilDedent item) fun _ j => i ≤ j := by
  refine Stays.loop (fun _ j => i ≤ j) le_rfl fun items j hj => ?_
  refine checking (fun _ => Stays.pure hj) ?_
  refine isAtEnd_within.bind fun r k hk => ?_
  obtain ⟨rfl, -⟩ := hk
  refine Stays.ite (fun _ => Stays.pure hj) fun _ => ?_
  exact hitem.bind (by omega) fun next l hl => Stays.pure ⟨by omega, by omega⟩

theorem parseLine_consumes : Consumes ts (b + 1) (parseLine N) := by
  refine .intro fun i hi => hN.statement.bind hi fun stmt j hj => ?_
  exact skipping h fun k hk => Stays.pure (by omega)

theorem parseBlock_consumes : Consumes ts b (parseBlock N) := by
  refine .intro fun i hi => checking (fun hlive => ?_) ?_
  · refine advancing h hlive fun _ => ?_
    refine (matchToken_within h .newline).bind fun r j hj => ?_
    refine Stays.pure ?_
    rw [hj.1]
    split <;> omega
  refine expecting h fun _ j hj => ?_
  refine skipping h fun k hk => ?_
  refine expecting h fun _ l hl => ?_
  refine skipping h fun m hm => ?_
  refine (untilDedent_within (parseLine_consumes h hN) (by omega)).bind fun body n hn => ?_
  exact expecting h fun _ o ho => Stays.pure (by omega)

theorem parseBody_consumes (msg : String) : Consumes ts b (parseBody N msg) := by
  refine .intro fun i hi => expecting h fun _ j hj => ?_
  exact ((parseBlock_consumes h hN).stays (by omega)).mono fun _ _ hk => by omega

omit hN in
theorem parseName_consumes (msg : String) : Consumes ts b (parseName msg) :=
  .intro fun _ _ => expecting h fun _ _ hj => Stays.pure hj

theorem parseAnnotation_within (type : TokenType) (hi : b ≤ i) :
    Stays ts c i ( parseAnnotation N type) fun _ j => i ≤ j := by
  refine matching h ?_ (Stays.pure le_rfl)
  exact ((parseTypeAnnotation_consumes h hN).stays (by omega)).mono fun _ _ hj => by omega

theorem parseBranch_within (keyword : TokenType) (msg : String) (hi : b ≤ i) :
    Stays ts c i (parseBranch N keyword msg) fun _ j => i ≤ j := by
  refine matching h ?_ (Stays.pure le_rfl)
  exact ((parseBody_consumes h hN msg).stays (by omega)).mono fun _ _ hj => by omega

theorem parseParam_consumes : Consumes ts b (parseParam N) := by
  refine .intro fun i hi => matching h ?_ ?_
  · exact checking (fun _ => Stays.pure (by omega)) (error_within _)
  refine Stays.bind (Q := fun _ j => i < j) ?_ fun start j hj => ?_
  · refine matching h ?_ ?_
    · exact (parseName_consumes h _).bind (Nat.zero_le _) fun name j hj => Stays.pure (by omega)
    refine matching h ?_ ?_
    · exact (parseName_consumes h _).bind (Nat.zero_le _) fun name j hj => Stays.pure (by omega)
    · exact (parseName_consumes h _).bind (Nat.zero_le _) fun name j hj => Stays.pure hj
  refine (parseAnnotation_within h hN .colon (by omega)).bind fun type k hk => ?_
  refine matching h ?_ (Stays.pure (by omega))
  refine (parseExpression_consumes h hN).bind (by omega) fun value l hl => ?_
  exact Stays.pure (by omega)

theorem parseParams_within (hi : b ≤ i) : Stays ts c i (parseParams N) fun _ j => i ≤ j := by
  refine Stays.loop (fun _ j => i ≤ j) le_rfl fun params j hj => ?_
  refine (parseParam_consumes h hN).bind (by omega) fun p k hk => ?_
  cases p with
  | none => exact Stays.pure (by omega)
  | some p =>
    exact matching h (Stays.pure ⟨by omega, by omega⟩)
      (Stays.pure (by omega))

theorem parseParamList_consumes : Consumes ts b (parseParamList N) := by
  refine .intro fun i hi => expecting h fun _ j hj => ?_
  refine checking (fun _ => ?_) ?_
  · exact expecting h fun _ k hk => Stays.pure (by omega)
  · refine (parseParams_within h hN (by omega)).bind fun params k hk => ?_
    exact expecting h fun _ l hl => Stays.pure (by omega)

omit hN in
theorem parseTypeParam_consumes : Consumes ts 0 parseTypeParam := by
  refine .intro fun i hi => (parseName_consumes h _).bind hi fun tp j hj => ?_
  refine matching h ?_ (Stays.pure hj)
  refine (parseName_consumes h _).bind (Nat.zero_le _) fun bound k hk => ?_
  exact Stays.pure (by omega)

omit hN in
theorem parseTypeParams_within : Stays ts c i parseTypeParams fun _ j => i ≤ j := by
  refine matching h ?_ (Stays.pure le_rfl)
  refine (commaSeparated_consumes h (parseTypeParam_consumes h)).bind (Nat.zero_le _) fun params j hj => ?_
  exact expecting h fun _ k hk => Stays.pure (by omega)

/-! ## Definitions -/

omit h hN in
/-- From a token on that is not the end, the parser goes back no further, and takes a token when it succeeds. -/
def Opens (ts : List Token) (b : ℕ) (p : Parse Stmt) : Prop :=
  ∀ i, b ≤ i → Live ts i → Within ts i i p fun _ j => i < j

omit h hN in
theorem Opens.intro {p : Parse Stmt} (hp : ∀ i, b ≤ i → Live ts i → Stays ts i i p fun _ j => i < j) : Opens ts b p :=
  fun i hi hlive => hp i hi hlive le_rfl hlive.lt

omit h hN in
/-- In the middle of something that begins at `k`. -/
theorem Opens.stays {p : Parse Stmt} {k : ℕ} (hp : Opens ts b p) (hi : b ≤ i) (hk : k ≤ i) (hlive : Live ts i) :
    Stays ts k i p fun _ j => k < j :=
  fun _ _ => (hp i hi hlive).mono hk fun _ _ _ _ hj => lt_of_le_of_lt hk hj

omit hN in
theorem opening {f : Token → Parse Stmt} (hf : ∀ i, b ≤ i → ∀ t, Stays ts i (i + 1) (f t) fun _ j => i < j) :
    Opens ts b (advance >>= f) :=
  .intro fun i hi hlive => advancing h hlive (hf i hi)

theorem parseFuncDef_opens (decorators : List Expr) : Opens ts b (parseFuncDef N decorators) := by
  refine opening h fun i hi _ => ?_
  refine (parseName_consumes h _).bind (Nat.zero_le _) fun name j hj => ?_
  refine (parseTypeParams_within h).bind fun typeParams k hk => ?_
  refine (parseParamList_consumes h hN).bind (by omega) fun params l hl => ?_
  refine (parseAnnotation_within h hN .arrow (by omega)).bind fun returnType m hm => ?_
  refine Stays.ite (fun _ => ?_) fun _ => ?_
  · refine matching h ?_ (finish_within (by omega) (by omega))
    refine expecting h fun _ n hn => ?_
    refine (matchToken_within h .newline).bind fun r o ho => ?_
    have hno : n ≤ o := by
      rw [ho.1]
      split <;> omega
    exact finish_within (by omega) (by omega)
  · refine (parseBody_consumes h hN _).bind (by omega) fun body n hn => ?_
    exact finish_within (by omega) (by omega)

theorem parseInitDef_opens : Opens ts b (parseInitDef N) := by
  refine opening h fun i hi _ => ?_
  refine (parseParamList_consumes h hN).bind (by omega) fun params j hj => ?_
  refine (parseBody_consumes h hN _).bind (by omega) fun body k hk => ?_
  exact finish_within (by omega) (by omega)

omit hN in
theorem parseExtraBases_within (trailing : Bool) : Stays ts c i (parseExtraBases trailing) fun _ j => i ≤ j := by
  refine Stays.loop (fun _ j => i ≤ j) le_rfl fun bases j hj => ?_
  refine matching h ?_ (Stays.pure hj)
  refine current_within.bind fun tok k hk => ?_
  obtain ⟨rfl, -⟩ := hk
  refine Stays.ite (fun _ => Stays.pure (by omega)) fun _ => ?_
  refine (parseName_consumes h _).bind (Nat.zero_le _) fun base l hl => ?_
  exact Stays.pure ⟨by omega, by omega⟩

omit hN in
theorem parseBases_within : Stays ts c i parseBases fun _ j => i ≤ j := by
  refine matching h ?_ ?_
  · refine (parseName_consumes h _).bind (Nat.zero_le _) fun baseClass j hj => ?_
    refine (parseExtraBases_within h false).bind fun extraBases k hk => ?_
    exact Stays.pure (by omega)
  refine matching h ?_ (Stays.pure le_rfl)
  refine checking (fun _ => ?_) ?_
  · exact expecting h fun _ j hj => Stays.pure (by omega)
  · refine (parseName_consumes h _).bind (Nat.zero_le _) fun baseClass j hj => ?_
    refine (parseExtraBases_within h true).bind fun extraBases k hk => ?_
    exact expecting h fun _ l hl => Stays.pure (by omega)

theorem parseClassDef_opens : Opens ts b (parseClassDef N) := by
  refine opening h fun i hi _ => ?_
  refine (parseName_consumes h _).bind (Nat.zero_le _) fun name j hj => ?_
  refine (parseTypeParams_within h).bind fun typeParams k hk => ?_
  refine (parseBases_within h).bind fun bases l hl => ?_
  refine Stays.bind (Q := fun _ m => l ≤ m) ?_ fun interfaces m hm => ?_
  · refine matching h ?_ (Stays.pure le_rfl)
    exact ((commaSeparated_consumes h (parseName_consumes h _)).stays (Nat.zero_le _)).mono fun _ _ hm => by omega
  refine (parseBody_consumes h hN _).bind (by omega) fun body n hn => ?_
  exact finish_within (by omega) (by omega)

omit hN in
theorem parseMembers_within : Stays ts c i parseMembers fun _ j => i ≤ j := by
  refine Stays.loop (fun _ j => i ≤ j) le_rfl fun members j hj => ?_
  refine checking (fun _ => Stays.pure hj) ?_
  refine skipping h fun k hk => ?_
  refine checking (fun _ => Stays.pure (by omega)) ?_
  refine (parseName_consumes h _).bind (Nat.zero_le _) fun member l hl => ?_
  exact skipping h fun m hm => Stays.pure ⟨by omega, by omega⟩

omit hN in
theorem parseEnumDef_opens : Opens ts b parseEnumDef := by
  refine opening h fun i hi _ => ?_
  refine (parseName_consumes h _).bind (Nat.zero_le _) fun name j hj => ?_
  refine expecting h fun _ k hk => ?_
  refine expecting h fun _ l hl => ?_
  refine expecting h fun _ m hm => ?_
  refine (parseMembers_within h).bind fun members n hn => ?_
  exact expecting h fun _ o ho => finish_within (by omega) (by omega)

theorem parseMethod_consumes : Consumes ts b (parseMethod N) := by
  refine .intro fun i hi => expecting h fun _ j hj => ?_
  refine (parseName_consumes h _).bind (Nat.zero_le _) fun name k hk => ?_
  refine (parseParamList_consumes h hN).bind (by omega) fun params l hl => ?_
  refine (parseAnnotation_within h hN .arrow (by omega)).bind fun returnType m hm => ?_
  refine (matchToken_within h .newline).bind fun r n hn => ?_
  have hmn : m ≤ n := by
    rw [hn.1]
    split <;> omega
  exact skipping h fun o ho => Stays.pure (by omega)

theorem parseInterfaceDef_opens : Opens ts b (parseInterfaceDef N) := by
  refine opening h fun i hi _ => ?_
  refine (parseName_consumes h _).bind (Nat.zero_le _) fun name j hj => ?_
  refine expecting h fun _ k hk => ?_
  refine expecting h fun _ l hl => ?_
  refine skipping h fun m hm => ?_
  refine expecting h fun _ n hn => ?_
  refine skipping h fun o ho => ?_
  refine (untilDedent_within (parseMethod_consumes h hN) (by omega)).bind fun methods p hp => ?_
  exact expecting h fun _ q hq => finish_within (by omega) (by omega)

/-! ## Control flow -/

theorem parseElsifs_within (hi : b ≤ i) : Stays ts c i (parseElsifs N) fun _ j => i ≤ j := by
  refine skipping h fun j hj => ?_
  refine Stays.loop (fun _ k => i ≤ k) hj fun elsifs k hk => ?_
  refine checking (fun hlive => ?_) (Stays.pure hk)
  refine advancing h hlive fun _ => ?_
  refine (parseExpression_consumes h hN).bind (by omega) fun condition l hl => ?_
  refine (parseBody_consumes h hN _).bind (by omega) fun body m hm => ?_
  exact skipping h fun n hn => Stays.pure ⟨by omega, by omega⟩

theorem parseIfStmt_opens : Opens ts b (parseIfStmt N) := by
  refine opening h fun i hi _ => ?_
  refine (parseExpression_consumes h hN).bind (by omega) fun condition j hj => ?_
  refine (parseBody_consumes h hN _).bind (by omega) fun thenBranch k hk => ?_
  refine (parseElsifs_within h hN (by omega)).bind fun elsifs l hl => ?_
  refine (parseBranch_within h hN .kwElse _ (by omega)).bind fun elseBranch m hm => ?_
  exact finish_within (by omega) (by omega)

omit hN in
theorem parseExtraVars_within : Stays ts c i parseExtraVars fun _ j => i ≤ j := by
  refine Stays.loop (fun _ j => i ≤ j) le_rfl fun vars j hj => ?_
  refine matching h ?_ (Stays.pure hj)
  exact (parseName_consumes h _).bind (Nat.zero_le _) fun var k hk => Stays.pure ⟨by omega, by omega⟩

theorem parseForStmt_opens : Opens ts b (parseForStmt N) := by
  refine opening h fun i hi _ => ?_
  refine (parseName_consumes h _).bind (Nat.zero_le _) fun firstVar j hj => ?_
  refine (parseExtraVars_within h).bind fun extraVars k hk => ?_
  refine expecting h fun _ l hl => ?_
  refine (parseExpression_consumes h hN).bind (by omega) fun iterable m hm => ?_
  refine (parseBody_consumes h hN _).bind (by omega) fun body n hn => ?_
  refine (parseBranch_within h hN .kwElse _ (by omega)).bind fun elseBranch o ho => ?_
  exact finish_within (by omega) (by omega)

theorem parseWhileStmt_opens : Opens ts b (parseWhileStmt N) := by
  refine opening h fun i hi _ => ?_
  refine (parseExpression_consumes h hN).bind (by omega) fun condition j hj => ?_
  refine (parseBody_consumes h hN _).bind (by omega) fun body k hk => ?_
  refine (parseBranch_within h hN .kwElse _ (by omega)).bind fun elseBranch l hl => ?_
  exact finish_within (by omega) (by omega)

theorem parseOptional_within (hi : b ≤ i) : Stays ts c i (parseOptional N) fun _ j => i ≤ j := by
  refine checking (fun _ => Stays.pure le_rfl) ?_
  refine checking (fun _ => Stays.pure le_rfl) ?_
  exact ((parseExpression_consumes h hN).map hi).mono fun _ _ hj => hj.le

/-- A keyword and an expression that may be left out. -/
theorem optional_opens (f : Option Expr → Stmt) :
    Opens ts b (do let _ ← advance; finish (f (← parseOptional N))) := by
  refine opening h fun i hi _ => ?_
  refine (parseOptional_within h hN (by omega)).bind fun value j hj => ?_
  exact finish_within (by omega) (by omega)

theorem parseReturnStmt_opens : Opens ts b (parseReturnStmt N) := optional_opens h hN .returnStmt

theorem parseYieldStmt_opens : Opens ts b (parseYieldStmt N) := optional_opens h hN .yieldStmt

theorem parseCatch_consumes : Consumes ts b (parseCatch N) := by
  refine .intro fun i hi => checking (fun hlive => ?_) ?_
  · refine advancing h hlive fun exceptionType => ?_
    refine current_within.bind fun tok j hj => ?_
    obtain ⟨rfl, htok⟩ := hj
    refine Stays.ite (fun has => ?_) fun _ => ?_
    · have hne : tok.type ≠ .endOfFile := by
        intro heof
        rw [heof] at has
        simp at has
      refine advancing h ⟨tok, htok, hne⟩ fun _ => ?_
      refine (parseName_consumes h _).bind (Nat.zero_le _) fun varName k hk => ?_
      exact (parseBody_consumes h hN _).bind (by omega) fun body l hl => Stays.pure (by omega)
    · exact (parseBody_consumes h hN _).bind (by omega) fun body k hk => Stays.pure (by omega)
  · exact (parseBody_consumes h hN _).bind hi fun body j hj => Stays.pure hj

theorem parseCatches_within (hi : b ≤ i) : Stays ts c i (parseCatches N) fun _ j => i ≤ j := by
  refine skipping h fun j hj => ?_
  refine Stays.loop (fun _ k => i ≤ k) hj fun catches k hk => ?_
  refine checking (fun hlive => ?_) (Stays.pure hk)
  refine advancing h hlive fun _ => ?_
  refine (parseCatch_consumes h hN).bind (by omega) fun clause l hl => ?_
  exact skipping h fun m hm => Stays.pure ⟨by omega, by omega⟩

theorem parseTryStmt_opens : Opens ts b (parseTryStmt N) := by
  refine opening h fun i hi _ => ?_
  refine (parseBody_consumes h hN _).bind (by omega) fun tryBody j hj => ?_
  refine (parseCatches_within h hN (by omega)).bind fun catchClauses k hk => ?_
  refine (parseBranch_within h hN .kwFinally _ (by omega)).bind fun finallyBody l hl => ?_
  exact finish_within (by omega) (by omega)

/-- An expression and the end of the statement, behind what begins at `k`. -/
theorem closing {f : Expr → Stmt} {k : ℕ} (hi : b ≤ i) (hk : k ≤ i) :
    Stays ts c i (do finish (f (← parseExpression N))) fun _ j => k < j :=
  (parseExpression_consumes h hN).bind hi fun _ j hj => finish_within (by omega) (by omega)

theorem parseThrowStmt_opens : Opens ts b (parseThrowStmt N) := by
  refine opening h fun i hi _ => ?_
  refine current_within.bind fun tok j hj => ?_
  obtain ⟨rfl, -⟩ := hj
  refine Stays.ite (fun _ => finish_within (by omega) (by omega)) fun _ => ?_
  exact closing h hN (by omega) (by omega)

theorem parseAssertStmt_opens : Opens ts b (parseAssertStmt N) := by
  refine opening h fun i hi _ => ?_
  refine (parseExpression_consumes h hN).bind (by omega) fun condition j hj => ?_
  refine matching h ?_ (finish_within (by omega) (by omega))
  exact closing h hN (by omega) (by omega)

theorem parseDelStmt_opens : Opens ts b (parseDelStmt N) := by
  refine opening h fun i hi _ => ?_
  exact closing h hN (by omega) (by omega)

theorem parseWithStmt_opens : Opens ts b (parseWithStmt N) := by
  refine opening h fun i hi _ => ?_
  refine (parseExpression_consumes h hN).bind (by omega) fun expr j hj => ?_
  refine Stays.bind (Q := fun _ k => j ≤ k) ?_ fun asName k hk => ?_
  · refine matching h ?_ (Stays.pure le_rfl)
    exact ((parseName_consumes h _).stays (Nat.zero_le _)).mono fun _ _ hk => by omega
  refine (parseBody_consumes h hN _).bind (by omega) fun body l hl => ?_
  exact finish_within (by omega) (by omega)

theorem parsePattern_consumes : Consumes ts b (parsePattern N) := by
  refine .intro fun i hi => current_within.bind fun tok j hj => ?_
  obtain ⟨rfl, htok⟩ := hj
  refine Stays.ite (fun hwild => ?_) fun _ => ?_
  · have hne : tok.type ≠ .endOfFile := by
      intro heof
      rw [heof] at hwild
      simp at hwild
    exact advancing h ⟨tok, htok, hne⟩ fun _ => Stays.pure (by omega)
  · exact (parseNullCoalesce_consumes h hN).map hi

theorem parseCase_consumes : Consumes ts b (parseCase N) := by
  refine .intro fun i hi => expecting h fun _ j hj => ?_
  refine (parsePattern_consumes h hN).bind (by omega) fun pattern k hk => ?_
  refine Stays.bind (Q := fun _ l => k ≤ l) ?_ fun guard l hl => ?_
  · refine matching h ?_ (Stays.pure le_rfl)
    exact ((parseExpression_consumes h hN).map (by omega)).mono fun _ _ hl => by omega
  refine (parseBody_consumes h hN _).bind (by omega) fun body m hm => ?_
  exact skipping h fun n hn => Stays.pure (by omega)

theorem parseMatchStmt_opens : Opens ts b (parseMatchStmt N) := by
  refine opening h fun i hi _ => ?_
  refine (parseExpression_consumes h hN).bind (by omega) fun subject j hj => ?_
  refine expecting h fun _ k hk => ?_
  refine expecting h fun _ l hl => ?_
  refine skipping h fun m hm => ?_
  refine expecting h fun _ n hn => ?_
  refine skipping h fun o ho => ?_
  refine (untilDedent_within (parseCase_consumes h hN) (by omega)).bind fun cases p hp => ?_
  exact expecting h fun _ q hq => finish_within (by omega) (by omega)

/-! ## Simple statements -/

omit hN in
theorem parseImportStmt_opens : Opens ts b parseImportStmt := by
  refine opening h fun i hi _ => ?_
  refine (parseName_consumes h _).bind (Nat.zero_le _) fun first j hj => ?_
  refine Stays.bind (Q := fun _ k => i < k) ?_ fun module k hk => finish_within (by omega) hk
  refine Stays.loop (fun _ k => i < k) (by omega) fun module k hk => ?_
  refine matching h ?_ (Stays.pure hk)
  exact (parseName_consumes h _).bind (Nat.zero_le _) fun next l hl => Stays.pure ⟨by omega, by omega⟩

omit hN in
theorem parseFromImportStmt_opens : Opens ts b parseFromImportStmt := by
  refine opening h fun i hi _ => ?_
  refine (parseName_consumes h _).bind (Nat.zero_le _) fun module j hj => ?_
  refine expecting h fun _ k hk => ?_
  refine (commaSeparated_consumes h (parseName_consumes h _)).bind (Nat.zero_le _) fun names l hl => ?_
  exact finish_within (by omega) (by omega)

omit hN in
theorem keyword_opens (s : Stmt) : Opens ts b (do let _ ← advance; return s) := by
  exact opening h fun i hi _ => Stays.pure (by omega)

theorem parseConstDecl_opens : Opens ts b (parseConstDecl N) := by
  refine opening h fun i hi _ => ?_
  refine (parseName_consumes h _).bind (Nat.zero_le _) fun name j hj => ?_
  refine (parseAnnotation_within h hN .colon (by omega)).bind fun type k hk => ?_
  refine expecting h fun _ l hl => ?_
  exact (parseExpression_consumes h hN).bind (by omega) fun value m hm => finish_within (by omega) (by omega)

theorem parseGoStmt_opens : Opens ts b (parseGoStmt N) := by
  refine opening h fun i hi _ => ?_
  refine (parseExpression_consumes h hN).bind (by omega) fun expr j hj => ?_
  have hfinish (s : Stmt) : Stays ts i j (finish s) fun _ k => i < k :=
    finish_within (by omega) (by omega)
  cases expr <;> exact hfinish _

theorem parseDecorated_opens : Opens ts b (parseDecorated N) := by
  refine .intro fun i hi hlive => Stays.bind (Q := fun _ j => i ≤ j) ?_ fun decorators j hj => ?_
  · refine Stays.loop (fun _ j => i ≤ j) le_rfl fun decorators j hj => ?_
    refine checking (fun hlive => ?_) (Stays.pure hj)
    refine advancing h hlive fun _ => ?_
    refine (parseExpression_consumes h hN).bind (by omega) fun expr k hk => ?_
    refine (matchToken_within h .newline).bind fun r l hl => ?_
    have hkl : k ≤ l := by
      rw [hl.1]
      split <;> omega
    exact skipping h fun m hm => Stays.pure ⟨by omega, by omega⟩
  refine checking (fun hlive => ?_) (error_within _)
  exact (parseFuncDef_opens h hN decorators).stays (by omega) hj hlive

theorem parseChain_consumes : Consumes ts b (parseChain N) := by
  refine .intro fun i hi => (parseExpression_consumes h hN).bind hi fun value j hj => ?_
  refine Stays.loop (fun _ k => i < k) hj fun state k hk => ?_
  refine matching h ?_ (Stays.pure hk)
  exact (parseExpression_consumes h hN).bind (by omega) fun next l hl => Stays.pure ⟨by omega, by omega⟩

/-- Behind the expression, which begins before. -/
theorem parseAssignment_within (pos : Position) (expr : Expr) (hi : b ≤ i) (hpos : 0 < i) :
    Stays ts c i (parseAssignment N pos expr) fun _ j => i ≤ j := by
  refine matching h ?_ ?_
  · cases identifierName expr with
    | none => exact error_within _
    | some first =>
      refine (commaSeparated_consumes h (parseName_consumes h _)).bind (Nat.zero_le _) fun more j hj => ?_
      refine expecting h fun _ k hk => ?_
      exact (parseExpression_consumes h hN).bind (by omega) fun value l hl => finish_within (by omega) (by omega)
  refine matchingAny h (fun op => ?_) ?_
  · exact (parseExpression_consumes h hN).bind (by omega) fun rhs j hj => finish_within (by omega) (by omega)
  refine matching h ?_ (finish_within hpos le_rfl)
  exact (parseChain_consumes h hN).bind (by omega) fun r j hj => finish_within (by omega) (by omega)

theorem parseExpressionStatement_consumes : Consumes ts b (parseExpressionStatement N) := by
  refine .intro fun i hi => current_within.bind fun tok j hj => ?_
  obtain ⟨rfl, -⟩ := hj
  refine (parseExpression_consumes h hN).bind hi fun expr k hk => ?_
  refine matching h (closing h hN (by omega) (by omega)) ?_
  have hrest {l : ℕ} (hkl : k ≤ l) :
      Stays ts j l (parseAssignment N tok.pos expr) fun _ m => j < m :=
    (parseAssignment_within h hN tok.pos expr (by omega) (by omega)).mono fun _ _ hm => by omega
  refine Stays.ite (fun _ => ?_) fun _ => hrest le_rfl
  refine matching h ?_ (hrest le_rfl)
  refine (parseTypeAnnotation_consumes h hN).bind (by omega) fun type l hl => ?_
  refine matching h ?_ (hrest (by omega))
  exact (parseExpression_consumes h hN).bind (by omega) fun value m hm => finish_within (by omega) (by omega)

theorem parseStatement_consumes : Consumes ts b (parseStatement N) := by
  refine .intro fun i hi => skipping h fun j hj => ?_
  refine current_within.bind fun t k hk => ?_
  obtain ⟨rfl, ht⟩ := hk
  have hopen {p : Parse Stmt} {type : TokenType} (hp : Opens ts b p) (htype : t.type = type)
      (hne : type ≠ .endOfFile := by decide) : Stays ts i k p fun _ l => i < l :=
    hp.stays (by omega) hj ⟨t, ht, htype ▸ hne⟩
  have hrest : Stays ts i k (parseExpressionStatement N) fun _ l => i < l :=
    ((parseExpressionStatement_consumes h hN).stays (by omega)).mono fun _ l hl => by omega
  cases htype : t.type with
  | kwDefine => exact hopen (parseFuncDef_opens h hN []) htype
  | kwInit => exact hopen (parseInitDef_opens h hN) htype
  | kwClass => exact hopen (parseClassDef_opens h hN) htype
  | kwInterface => exact hopen (parseInterfaceDef_opens h hN) htype
  | kwEnum => exact hopen (parseEnumDef_opens h) htype
  | kwYield => exact hopen (parseYieldStmt_opens h hN) htype
  | kwGo => exact hopen (parseGoStmt_opens h hN) htype
  | kwIf => exact hopen (parseIfStmt_opens h hN) htype
  | kwFor => exact hopen (parseForStmt_opens h hN) htype
  | kwWhile => exact hopen (parseWhileStmt_opens h hN) htype
  | kwReturn => exact hopen (parseReturnStmt_opens h hN) htype
  | kwTry => exact hopen (parseTryStmt_opens h hN) htype
  | kwThrow => exact hopen (parseThrowStmt_opens h hN) htype
  | kwAssert => exact hopen (parseAssertStmt_opens h hN) htype
  | kwDel => exact hopen (parseDelStmt_opens h hN) htype
  | kwWith => exact hopen (parseWithStmt_opens h hN) htype
  | kwMatch => exact hopen (parseMatchStmt_opens h hN) htype
  | kwImport => exact hopen (parseImportStmt_opens h) htype
  | kwFrom => exact hopen (parseFromImportStmt_opens h) htype
  | kwBreak => exact hopen (keyword_opens h .breakStmt) htype
  | kwContinue => exact hopen (keyword_opens h .continueStmt) htype
  | kwConst => exact hopen (parseConstDecl_opens h hN) htype
  | atSign => exact hopen (parseDecorated_opens h hN) htype
  | ellipsis =>
    exact advancing h ⟨t, ht, by simp [htype]⟩ fun _ => finish_within (by omega) (by omega)
  | _ => exact hrest

end Productions

end Visuall.Parser
