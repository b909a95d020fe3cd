import Visuall.Lexer.Token
import Visuall.Lib.Descent

/-!
# The cursor of the parser

The token helpers of `src/parser.cpp`.  `pos_` is the index of the parser; `tokens_[pos_]` and
`tokens_[pos_ - 1]` may lie outside the list.

* `current`, `previous`, `advance`, `check`, `matchToken`, `expect`, `skipNewlines`, `synchronize`;
* `Ended` — the list ends with `END_OF_FILE`; then the helpers stay in it.
-/

namespace Visuall.Parser

open Visuall.Descent Descent.Parser

/-! ## Exceptions -/

/-- `ParseError`, without the file name. -/
structure ParseError where
  message : String
  pos : Position
  deriving DecidableEq, Repr

/-- What may be thrown while parsing: a `ParseError`, an error of the lexer of an interpolation, or
`std::out_of_range`; and the use of a null pointer, which ends the program. -/
inductive Thrown
  | parse (e : ParseError)
  | lex (e : LexError)
  | outOfRange
  | nullPointer
  deriving DecidableEq, Repr

abbrev Parse (α : Type) : Type := Descent.Parser Token Thrown α

/-! ## Token helpers -/

def current : Parse Token := do token (← index)

/-- `tokens_[pos_ - 1]`. -/
def previous : Parse Token := do
  match ← index with
  | 0 => ofExcept (.error .outside)
  | i + 1 => token i

def isAtEnd : Parse Bool := do return (← current).type == .endOfFile

def advance : Parse Token := do
  if ← isAtEnd then previous
  else
    moveTo ((← index) + 1)
    previous

def check (type : TokenType) : Parse Bool := do
  if ← isAtEnd then return false
  else return (← current).type == type

/-- `match`. -/
def matchToken (type : TokenType) : Parse Bool := do
  if ← check type then
    let _ ← advance
    return true
  else return false

/-- The first of several token types that matches. -/
def matchAny {α : Type} : List (TokenType × α) → Parse (Option α)
  | [] => return none
  | (type, a) :: more => do
    if ← matchToken type then return some a
    else matchAny more

def errorAt {α : Type} (tok : Token) (msg : String) : Parse α := Descent.Parser.throw (.parse ⟨msg, tok.pos⟩)

def error {α : Type} (msg : String) : Parse α := do errorAt (← current) msg

def expect (type : TokenType) (msg : String) : Parse Token := do
  if ← check type then advance
  else error msg

def skipNewlines : Parse Unit :=
  loop (fun _ => do
    if ← check .newline then
      let _ ← advance
      return .again ()
    else return .done ()) ()

def synchronize : Parse Unit :=
  loop (fun _ => do
    if ← isAtEnd then return .done ()
    else
      let t ← current
      let _ ← advance
      if t.type == .newline || t.type == .dedent then return .done ()
      else return .again ()) ()

/-- `pos_ + 1 < tokens_.size() && tokens_[pos_ + 1].type == type`. -/
def nextIs (type : TokenType) : Parse Bool := fun ts i => (.ok (ts[i + 1]?.any (·.type == type)), i)

/-- A node, whose end is taken from the last token: `node->endLine = previous().line; …`. -/
def finish {α : Type} (node : α) : Parse α := do
  let _ ← previous
  return node

/-- Items with commas between them: `do … while (match(COMMA))`. -/
def commaSeparated {α : Type} (item : Parse α) : Parse (List α) := do
  let first ← item
  loop (fun items => do
    if ← matchToken .comma then
      let next ← item
      return .again (items ++ [next])
    else return .done items) [first]

/-! ## Lists that end with `END_OF_FILE` -/

/-- The last token is `END_OF_FILE`. -/
def Ended (ts : List Token) : Prop := ∃ t, ts.getLast? = some t ∧ t.type = .endOfFile

/-- There is a token at the index, and it is not `END_OF_FILE`. -/
def Live (ts : List Token) (i : ℕ) : Prop := ∃ t, ts[i]? = some t ∧ t.type ≠ .endOfFile

variable {ts : List Token} {b i : ℕ}

theorem Ended.length_pos (h : Ended ts) : 0 < ts.length := by
  obtain ⟨t, hlast, -⟩ := h
  cases ts with
  | nil => cases hlast
  | cons a ts => exact Nat.succ_pos _

/-- Behind a token that is not the end there is another. -/
theorem Ended.succ_lt (h : Ended ts) (hlive : Live ts i) : i + 1 < ts.length := by
  obtain ⟨t, hlast, heof⟩ := h
  obtain ⟨t', hi, hne⟩ := hlive
  have hlt : i < ts.length := by
    by_contra hge
    rw [List.getElem?_eq_none (by omega)] at hi
    cases hi
  by_contra hge
  have hlen : i = ts.length - 1 := by omega
  rw [List.getLast?_eq_getElem?, ← hlen, hi] at hlast
  cases hlast
  exact hne heof

theorem Live.lt (h : Live ts i) : i < ts.length := by
  obtain ⟨t, hi, -⟩ := h
  by_contra hge
  rw [List.getElem?_eq_none (by omega)] at hi
  cases hi

theorem current_within : Stays ts b i current fun t j => j = i ∧ ts[i]? = some t := by
  intro hle hlt
  refine (Within.index hle hlt).bind fun j k hle hlt hj => ?_
  obtain ⟨rfl, rfl⟩ := hj
  exact (Within.token hle hlt hlt).mono le_rfl fun t m _ _ hm => ⟨hm.2, hm.1⟩

theorem previous_within (hpos : 0 < i) : Stays ts b i previous fun t j => j = i ∧ ts[i - 1]? = some t := by
  intro hle hlt
  refine (Within.index hle hlt).bind fun j k hle hlt hj => ?_
  obtain ⟨rfl, rfl⟩ := hj
  obtain ⟨m, rfl⟩ : ∃ m, k = m + 1 := ⟨k - 1, by omega⟩
  exact (Within.token hle hlt (by omega)).mono le_rfl fun t m _ _ hm => ⟨hm.2, hm.1⟩

theorem finish_within {α : Type} {node : α} {Q : α → ℕ → Prop} (hpos : 0 < i) (hQ : Q node i) :
    Stays ts b i (finish node) Q :=
  (previous_within hpos).bind fun _ _ hj => Stays.pure (hj.1 ▸ hQ)

theorem isAtEnd_within : Stays ts b i isAtEnd fun r j => j = i ∧ (r = false ↔ Live ts i) := by
  refine current_within.bind fun t j hj => ?_
  obtain ⟨rfl, ht⟩ := hj
  refine Stays.pure ⟨rfl, ?_⟩
  constructor
  · intro hr
    exact ⟨t, ht, by simpa using hr⟩
  · rintro ⟨t', ht', hne⟩
    rw [ht] at ht'
    cases ht'
    simpa using hne

variable (h : Ended ts)
include h

theorem advance_within (hlive : Live ts i) : Stays ts b i advance fun _ j => j = i + 1 := by
  intro hle hlt
  have hsucc := h.succ_lt hlive
  refine (isAtEnd_within hle hlt).bind fun r j hle hlt hj => ?_
  obtain ⟨rfl, hr⟩ := hj
  rw [hr.mpr hlive, if_neg Bool.false_ne_true]
  refine (Within.index hle hlt).bind fun k m _ _ hk => ?_
  obtain ⟨rfl, rfl⟩ := hk
  refine (Within.moveTo (by omega) hsucc).bind fun _ k hle hlt hk => ?_
  subst hk
  exact (previous_within (Nat.succ_pos _) hle hlt).mono le_rfl fun _ _ _ _ hk => hk.1

omit h in
theorem check_within (type : TokenType) : Stays ts b i (check type) fun r j =>
    j = i ∧ (r = true → Live ts i ∧ ∃ t, ts[i]? = some t ∧ t.type = type) := by
  refine isAtEnd_within.bind fun r j hj => ?_
  obtain ⟨rfl, hr⟩ := hj
  refine Stays.ite (fun hc => ?_) fun hc => ?_
  · exact Stays.pure ⟨rfl, fun hf => absurd hf Bool.false_ne_true⟩
  · refine current_within.bind fun t k hk => ?_
    obtain ⟨rfl, ht⟩ := hk
    exact Stays.pure ⟨rfl, fun htype => ⟨hr.mp (by simpa using hc), t, ht, by simpa using htype⟩⟩

omit h in
/-- A test of the current token. -/
theorem checking {α : Type} {p q : Parse α} {Q : α → ℕ → Prop} {type : TokenType} (hp : Live ts i → Stays ts b i p Q)
    (hq : Stays ts b i q Q) : Stays ts b i (do if ← check type then p else q) Q := by
  refine (check_within type).bind fun r j hj => ?_
  obtain ⟨rfl, hr⟩ := hj
  exact Stays.ite (fun hc => hp (hr hc).1) fun _ => hq

/-- A token that is there is taken. -/
theorem advancing {α : Type} {f : Token → Parse α} {Q : α → ℕ → Prop} (hlive : Live ts i)
    (hf : ∀ t, Stays ts b (i + 1) (f t) Q) : Stays ts b i (advance >>= f) Q := by
  refine (advance_within h hlive).bind fun t j hj => ?_
  subst hj
  exact hf t

theorem matchToken_within (type : TokenType) : Stays ts b i (matchToken type) fun r j =>
    j = (if r then i + 1 else i) ∧ (r = true → ∃ t, ts[i]? = some t ∧ t.type = type) := by
  refine (check_within type).bind fun r j hj => ?_
  obtain ⟨rfl, hr⟩ := hj
  refine Stays.ite (fun hc => ?_) fun _ => ?_
  · exact advancing h (hr hc).1 fun _ => Stays.pure ⟨rfl, fun _ => (hr hc).2⟩
  · exact Stays.pure ⟨rfl, fun hf => absurd hf Bool.false_ne_true⟩

/-- A token is taken if it is of the type. -/
theorem matching {α : Type} {p q : Parse α} {Q : α → ℕ → Prop} {type : TokenType} (hp : Stays ts b (i + 1) p Q)
    (hq : Stays ts b i q Q) : Stays ts b i (do if ← matchToken type then p else q) Q := by
  refine (matchToken_within h type).bind fun r j hj => ?_
  refine Stays.ite (fun hc => ?_) fun hc => ?_
  · rw [if_pos hc] at hj
    obtain ⟨rfl, -⟩ := hj
    exact hp
  · rw [if_neg hc] at hj
    obtain ⟨rfl, -⟩ := hj
    exact hq

theorem matchAny_within {α : Type} (types : List (TokenType × α)) :
    Stays ts b i (matchAny types) fun r j => j = if r.isSome then i + 1 else i := by
  induction types with
  | nil => exact Stays.pure rfl
  | cons p types ih => exact matching h (Stays.pure rfl) ih

/-- A token is taken if it is of one of the types. -/
theorem matchingAny {α β : Type} {types : List (TokenType × α)} {f : Option α → Parse β} {Q : β → ℕ → Prop}
    (hsome : ∀ a, Stays ts b (i + 1) (f (some a)) Q) (hnone : Stays ts b i (f none) Q) :
    Stays ts b i (matchAny types >>= f) Q := by
  refine (matchAny_within h types).bind fun r j hj => ?_
  cases r with
  | none =>
    subst hj
    exact hnone
  | some a =>
    subst hj
    exact hsome a

omit h in
theorem error_within {α : Type} {Q : α → ℕ → Prop} (msg : String) : Stays ts b i (error msg) Q :=
  current_within.bind fun _ _ _ => Stays.throw _

theorem expect_consumes (type : TokenType) (msg : String) : Consumes ts 0 (expect type msg) := by
  refine .intro fun i _ => checking (fun hlive => ?_) (error_within msg)
  exact (advance_within h hlive).mono fun _ k hk => by omega

/-- A token of the type is taken, or an exception is thrown. -/
theorem expecting {α : Type} {type : TokenType} {msg : String} {f : Token → Parse α} {Q : α → ℕ → Prop}
    (hf : ∀ t j, i < j → Stays ts b j (f t) Q) : Stays ts b i (expect type msg >>= f) Q :=
  (expect_consumes h type msg).bind (Nat.zero_le i) hf

theorem skipNewlines_within : Stays ts b i skipNewlines fun _ j => i ≤ j := by
  refine Stays.loop (fun _ j => i ≤ j) le_rfl fun _ j hij => ?_
  exact checking (fun hlive => advancing h hlive fun _ => Stays.pure ⟨by omega, by omega⟩) (Stays.pure hij)

/-- Newlines are left behind. -/
theorem skipping {α : Type} {f : Unit → Parse α} {Q : α → ℕ → Prop} (hf : ∀ j, i ≤ j → Stays ts b j (f ()) Q) :
    Stays ts b i (skipNewlines >>= f) Q :=
  (skipNewlines_within h).bind fun _ j hj => hf j hj

/-- `synchronize` leaves a token that is not the end behind. -/
theorem synchronize_within : Stays ts b i synchronize fun _ j => i ≤ j ∧ (Live ts i → i < j) := by
  refine Stays.loop (fun _ j => i ≤ j ∧ (j = i ∨ i < j)) ⟨le_rfl, .inl rfl⟩ fun _ j hij => ?_
  refine isAtEnd_within.bind fun r k hk => ?_
  obtain ⟨rfl, hr⟩ := hk
  refine Stays.ite (fun hc => ?_) fun hc => ?_
  · refine Stays.pure ⟨hij.1, fun hlive => ?_⟩
    rcases hij.2 with rfl | hlt
    · rw [hr.mpr hlive] at hc
      exact absurd hc Bool.false_ne_true
    · exact hlt
  · have hlive := hr.mp (by simpa using hc)
    refine current_within.bind fun t m hm => ?_
    obtain ⟨rfl, -⟩ := hm
    refine advancing h hlive fun _ => ?_
    refine Stays.ite (fun _ => ?_) fun _ => ?_
    · exact Stays.pure ⟨by omega, fun _ => by omega⟩
    · exact Stays.pure ⟨by omega, by omega, by omega⟩

omit h in
/-- What is next, when it is not the end. -/
theorem nextIs_within {type : TokenType} (htype : type ≠ .endOfFile) :
    Stays ts b i (nextIs type) fun r j => j = i ∧ (r = true → Live ts (i + 1)) := by
  intro hle hlt
  refine Within.of_ok rfl hle hlt ⟨rfl, fun hr => ?_⟩
  cases ht : ts[i + 1]? with
  | none =>
    rw [ht] at hr
    exact absurd hr Bool.false_ne_true
  | some t =>
    rw [ht] at hr
    exact ⟨t, ht, by rw [beq_iff_eq.mp hr]; exact htype⟩

/-- A list with commas takes a token when each of its items does. -/
theorem commaSeparated_consumes {α : Type} {item : Parse α} (hitem : Consumes ts b item) :
    Consumes ts b (commaSeparated item) := by
  refine .intro fun i hi => hitem.bind hi fun first j hj => ?_
  refine Stays.loop (fun _ k => i < k) hj fun items k hk => ?_
  refine matching h ?_ (Stays.pure hk)
  exact hitem.bind (by omega) fun next m hm => Stays.pure ⟨by omega, by omega⟩

end Visuall.Parser
