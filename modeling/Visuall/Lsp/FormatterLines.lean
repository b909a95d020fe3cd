import Visuall.Lsp.Formatter

/-!
# The formatter on a line

A line as a list of atoms: spaces, commas, string literals, a comment, operators and single characters.  Both loops
over a line only put spaces between atoms or take some away, so what the second run does is seen from what stands
next to what.

* `Atom`, `texts`, `exists_atoms` — every text is that of atoms which do not run together (`Sep`);
* `operatorAtoms`, `commaAtoms` — the two loops on atoms;
* `Settled` — what the neighbours of operators are after the first run;
* `normalizeLine_idem_iff` — a line is formatted alike twice, unless an operator opens it behind an indentation.
-/

namespace Visuall.Lsp

/-! ## Atoms -/

/-- An operator of two characters. -/
def isPair (c d : Char) : Bool := (c == '-' && d == '>') || isCompound c d

/-- What is behind the quote `d` that begins a literal, and whether the quote comes again. -/
inductive Body (d : Char) : Bool → List Char → Prop
  | unclosed : Body d false []
  | lone : Body d false ['\\']
  | close : Body d true [d]
  | escape {closed : Bool} {s : List Char} (c : Char) (rest : Body d closed s) : Body d closed ('\\' :: c :: s)
  | char {closed : Bool} {s : List Char} {c : Char} (hc : c ≠ '\\' ∧ c ≠ d) (rest : Body d closed s) :
      Body d closed (c :: s)

/-- A piece of a line. -/
inductive Atom where
  | space
  | comma
  | literal (d : Char) (closed : Bool) (s : List Char) (quote : isQuote d) (body : Body d closed s)
  | comment (s : List Char)
  | assign
  | pair (c d : Char) (isPair : isPair c d)
  | sign (c : Char) (isSign : isOperatorChar c ∧ c ≠ '=')
  | other (c : Char) (isOther : c ≠ ' ' ∧ c ≠ ',' ∧ c ≠ '\n' ∧ isQuote c = false ∧ isOperatorChar c = false)

namespace Atom

/-- The first character. -/
def head : Atom → Char
  | space => ' '
  | comma => ','
  | literal d _ _ _ _ => d
  | comment _ => '#'
  | assign => '='
  | pair c _ _ => c
  | sign c _ => c
  | other c _ => c

/-- The characters behind the first one. -/
def tail : Atom → List Char
  | literal _ _ s _ _ => s
  | comment s => '#' :: s
  | pair _ d _ => [d]
  | _ => []

def text (a : Atom) : List Char := a.head :: a.tail

def last (a : Atom) : Char := a.text.getLast (List.cons_ne_nil _ _)

/-- Something can stand behind the atom. -/
def Closed : Atom → Prop
  | literal _ closed _ _ _ => closed
  | comment _ => False
  | _ => True

/-- The two characters are not taken for an atom together. -/
def Apart (a : Atom) (c : Char) : Prop :=
  match a with
  | assign => isPair '=' c = false
  | sign d _ => isPair d c = false
  | other d _ => ¬ (d = '#' ∧ c = '#')
  | _ => True

def isSpace : Atom → Bool
  | space => true
  | _ => false

/-- An operator with spaces at its sides, where `back` comes in front of it. -/
def isSpaced (back : Option Char) : Atom → Bool
  | assign => true
  | pair _ _ _ => true
  | sign _ _ => back.any endsOperand
  | _ => false

end Atom

/-- The text of a list of atoms. -/
def texts (as : List Atom) : List Char := as.flatMap Atom.text

/-- Next to each other, the atoms do not run together. -/
def Sep (a b : Atom) : Prop := a.Closed ∧ a.Apart b.head

section Atoms

variable {a b : Atom} {as bs : List Atom} {c d : Char} {s : List Char}

theorem texts_cons (a : Atom) (as : List Atom) : texts (a :: as) = a.text ++ texts as := List.flatMap_cons

theorem texts_append (as bs : List Atom) : texts (as ++ bs) = texts as ++ texts bs := List.flatMap_append

theorem head?_texts (as : List Atom) : (texts as).head? = as.head?.map Atom.head := by
  cases as <;> rfl

theorem pair_second (h : isPair c d) : d = '=' ∨ d = '>' ∨ d = '*' ∨ d = '/' ∨ d = '<' := by
  simp only [isPair, isCompound, List.contains_iff_mem, List.mem_cons, Prod.mk.injEq, Bool.or_eq_true, Bool.and_eq_true,
    beq_iff_eq, List.not_mem_nil, or_false] at h
  tauto

theorem pair_first (h : isPair c d) : isOperatorChar c := by
  simp only [isPair, isCompound, List.contains_iff_mem, List.mem_cons, Prod.mk.injEq, Bool.or_eq_true, Bool.and_eq_true,
    beq_iff_eq, List.not_mem_nil, or_false] at h
  simp only [isOperatorChar, List.contains_iff_mem, List.mem_cons, List.not_mem_nil, or_false]
  tauto

theorem isOperatorChar_iff : isOperatorChar c ↔ c = '+' ∨ c = '-' ∨ c = '*' ∨ c = '/' ∨ c = '%' ∨ c = '=' ∨ c = '!' ∨
    c = '<' ∨ c = '>' ∨ c = '|' ∨ c = '&' ∨ c = '^' := by
  simp only [isOperatorChar, List.contains_iff_mem, List.mem_cons, List.not_mem_nil, or_false]

theorem apart_of_not_pair (hc : ¬ isPair a.head c) (hd : ¬ (a.head = '#' ∧ c = '#')) : a.Apart c := by
  cases a with
  | assign => exact Bool.eq_false_iff.mpr hc
  | sign d' _ => exact Bool.eq_false_iff.mpr hc
  | other d' _ => exact hd
  | _ => trivial

/-- Behind an atom, a space or a comma stands for itself. -/
theorem apart_separator (a : Atom) (h : c = ' ' ∨ c = ',') : a.Apart c := by
  refine apart_of_not_pair (fun hp => ?_) fun hh => ?_
  · have := pair_second hp
    rcases h with rfl | rfl <;> simp at this
  · rcases h with rfl | rfl <;> simp at hh

theorem isSpace_iff : a.isSpace ↔ a.head = ' ' := by
  constructor
  · intro h
    cases a with
    | space => rfl
    | _ => cases h
  · intro h
    cases a with
    | space => rfl
    | comma | assign => exact absurd h (by decide)
    | comment s => exact absurd h (show '#' ≠ ' ' by decide)
    | literal d closed s quote body =>
        have hd : d = ' ' := h
        rw [hd] at quote
        cases quote
    | pair c d isPair =>
        have hc : c = ' ' := h
        have hop := pair_first isPair
        rw [hc] at hop
        cases hop
    | sign c isSign =>
        have hc : c = ' ' := h
        have hop := isSign.1
        rw [hc] at hop
        cases hop
    | other c isOther => exact absurd h isOther.1

theorem eq_space (h : a.isSpace) : a = .space := by
  cases a with
  | space => rfl
  | _ => cases h

theorem body_ends {closed : Bool} (h : Body d closed s) (hclosed : closed) : ∃ t, s = t ++ [d] := by
  induction h with
  | unclosed => cases hclosed
  | lone => cases hclosed
  | close => exact ⟨[], rfl⟩
  | escape c _ ih =>
      obtain ⟨t, rfl⟩ := ih hclosed
      exact ⟨'\\' :: c :: t, rfl⟩
  | @char _ _ c _ _ ih =>
      obtain ⟨t, rfl⟩ := ih hclosed
      exact ⟨c :: t, rfl⟩

theorem body_last {closed : Bool} (h : Body d closed s) (hclosed : closed) :
    (d :: s).getLast (List.cons_ne_nil _ _) = d := by
  obtain ⟨t, rfl⟩ := body_ends h hclosed
  rw [List.getLast_cons (by simp), List.getLast_append_singleton]

/-- Among the atoms behind which something can stand, only the space ends with a space. -/
theorem last_ne_space (hclosed : a.Closed) (h : a ≠ .space) : a.last ≠ ' ' := by
  have hhead : a.head ≠ ' ' := fun heq => h (eq_space (isSpace_iff.mpr heq))
  cases a with
  | space => exact absurd rfl h
  | literal d closed s quote body =>
      have hlast : (Atom.literal d closed s quote body).last = d := body_last body hclosed
      rw [hlast]
      exact hhead
  | comment s => exact hclosed.elim
  | pair c d isPair =>
      have hlast : (Atom.pair c d isPair).last = d := rfl
      rw [hlast]
      rintro rfl
      have := pair_second isPair
      simp at this
  | comma | assign | sign | other => exact hhead

/-! ## Taking a text apart -/

theorem exists_body (d : Char) : ∀ s : List Char, ∃ lit rest closed, s = lit ++ rest ∧ Body d closed lit ∧
    (closed = false → rest = [])
  | [] => ⟨[], [], false, rfl, .unclosed, fun _ => rfl⟩
  | c :: s => by
    by_cases hc : c = '\\'
    · subst hc
      cases s with
      | nil => exact ⟨['\\'], [], false, rfl, .lone, fun _ => rfl⟩
      | cons c₁ s =>
          obtain ⟨lit, rest, closed, rfl, hbody, hrest⟩ := exists_body d s
          exact ⟨'\\' :: c₁ :: lit, rest, closed, rfl, .escape c₁ hbody, hrest⟩
    · by_cases hd : c = d
      · subst hd
        exact ⟨[c], s, true, rfl, .close, fun h => by cases h⟩
      · obtain ⟨lit, rest, closed, rfl, hbody, hrest⟩ := exists_body d s
        exact ⟨c :: lit, rest, closed, rfl, .char ⟨hc, hd⟩ hbody, hrest⟩

/-- An atom in front of others. -/
theorem exists_cons (a : Atom) (s : List Char) (hclosed : a.Closed) (hapart : ∀ c, s.head? = some c → a.Apart c)
    (h : ∃ as, texts as = s ∧ as.IsChain Sep) : ∃ as, texts as = a.text ++ s ∧ as.IsChain Sep := by
  obtain ⟨as, rfl, hchain⟩ := h
  refine ⟨a :: as, texts_cons a as, List.isChain_cons.mpr ⟨fun b hb => ⟨hclosed, hapart b.head ?_⟩, hchain⟩⟩
  rw [head?_texts, hb]
  rfl

/-- Every text is that of atoms. -/
theorem exists_atoms (s : List Char) (hs : '\n' ∉ s) : ∃ as, texts as = s ∧ as.IsChain Sep := by
  induction hn : s.length using Nat.strong_induction_on generalizing s with
  | h n ih =>
      subst hn
      cases s with
      | nil => exact ⟨[], rfl, .nil⟩
      | cons c s =>
          have hnewline : c ≠ '\n' := fun h => hs (h ▸ List.mem_cons_self)
          have hs' : '\n' ∉ s := fun h => hs (List.mem_cons_of_mem _ h)
          have hrest := ih s.length (Nat.lt_succ_self _) s hs' rfl
          by_cases hspace : c = ' '
          · subst hspace
            exact exists_cons .space s trivial (fun _ _ => trivial) hrest
          by_cases hcomma : c = ','
          · subst hcomma
            exact exists_cons .comma s trivial (fun _ _ => trivial) hrest
          by_cases hquote : isQuote c
          · obtain ⟨lit, rest, closed, rfl, hbody, hend⟩ := exists_body c s
            cases closed with
            | false =>
                rw [hend rfl, List.append_nil]
                exact ⟨[.literal c false lit hquote hbody], by simp [texts, Atom.text, Atom.head, Atom.tail], .singleton _⟩
            | true =>
                refine exists_cons (.literal c true lit hquote hbody) rest rfl (fun _ _ => trivial) (ih _ ?_ rest ?_ rfl)
                · rw [List.length_cons, List.length_append]
                  omega
                · exact fun h => hs' (List.mem_append_right _ h)
          by_cases hcomment : c = '#' ∧ s.head? = some '#'
          · obtain ⟨rfl, hhead⟩ := hcomment
            obtain ⟨t, rfl⟩ := List.head?_eq_some_iff.mp hhead
            exact ⟨[.comment t], by simp [texts, Atom.text, Atom.head, Atom.tail], .singleton _⟩
          have hhash : ∀ c₁, s.head? = some c₁ → ¬ (c = '#' ∧ c₁ = '#') := by
            rintro c₁ hhead ⟨rfl, rfl⟩
            exact hcomment ⟨rfl, hhead⟩
          by_cases hop : isOperatorChar c
          · by_cases hpair : ∃ c₁, s.head? = some c₁ ∧ isPair c c₁
            · obtain ⟨c₁, hhead, hpair⟩ := hpair
              obtain ⟨t, rfl⟩ := List.head?_eq_some_iff.mp hhead
              exact exists_cons (.pair c c₁ hpair) t trivial (fun _ _ => trivial)
                (ih _ (by simp) t (fun h => hs' (List.mem_cons_of_mem _ h)) rfl)
            · have hnot : ∀ c₁, s.head? = some c₁ → ¬ isPair c c₁ := fun c₁ hhead h => hpair ⟨c₁, hhead, h⟩
              by_cases heq : c = '='
              · subst heq
                exact exists_cons .assign s trivial (fun c₁ h => Bool.eq_false_iff.mpr (hnot c₁ h)) hrest
              · exact exists_cons (.sign c ⟨hop, heq⟩) s trivial (fun c₁ h => Bool.eq_false_iff.mpr (hnot c₁ h)) hrest
          · exact exists_cons
              (.other c ⟨hspace, hcomma, hnewline, Bool.eq_false_iff.mpr hquote, Bool.eq_false_iff.mpr hop⟩)
              s trivial hhash hrest

end Atoms

/-! ## The loops on atoms -/

/-- The space in front of an operator. -/
def leadSpace (back : Option Char) : List Atom := if back.all (· == ' ') then [] else [.space]

/-- `normalizeOperators`, where `back` is the last character so far. -/
def operatorAtoms (back : Option Char) : List Atom → List Atom
  | [] => []
  | a :: as =>
    if a.isSpaced back then
      leadSpace back ++ a :: (if as.head?.all Atom.isSpace then operatorAtoms (some a.last) as
        else .space :: operatorAtoms (some ' ') as)
    else a :: operatorAtoms (some a.last) as

/-- `normalizeCommas`, where `pend` spaces are the last characters so far. -/
def commaAtoms : ℕ → Bool → List Atom → List Atom
  | pend, _, [] => List.replicate pend .space
  | pend, skip, .space :: as => if skip then commaAtoms pend true as else commaAtoms (pend + 1) false as
  | _, _, .comma :: as => .comma :: if as = [] then [] else commaAtoms 1 true as
  | pend, _, a :: as => List.replicate pend .space ++ a :: commaAtoms 0 false as

section Steps

variable {c d : Char} {rest result : List Char} {skip : Bool}

theorem operator_chars (h : isOperatorChar c) : isQuote c = false ∧ c ≠ '#' ∧ c ≠ ',' ∧ c ≠ ' ' := by
  rcases isOperatorChar_iff.mp h with rfl | rfl | rfl | rfl | rfl | rfl | rfl | rfl | rfl | rfl | rfl | rfl <;> decide

theorem quote_chars (h : isQuote c) : c ≠ '\\' ∧ c ≠ ' ' ∧ c ≠ '\n' := by
  have hc : c = '"' ∨ c = '\'' := by simpa [isQuote] using h
  rcases hc with rfl | rfl <;> decide

theorem operatorsLoop_escape : operatorsLoop result (some d) ('\\' :: c :: rest) =
    operatorsLoop (result ++ ['\\', c]) (some d) rest := by
  rw [operatorsLoop.eq_def]
  rfl

theorem operatorsLoop_close (hd : d ≠ '\\') : operatorsLoop result (some d) (d :: rest) =
    operatorsLoop (result ++ [d]) none rest := by
  rw [operatorsLoop.eq_def]
  dsimp only
  rw [if_neg hd, if_pos rfl]

theorem operatorsLoop_inside (hc : c ≠ '\\' ∧ c ≠ d) : operatorsLoop result (some d) (c :: rest) =
    operatorsLoop (result ++ [c]) (some d) rest := by
  rw [operatorsLoop.eq_def]
  dsimp only
  rw [if_neg hc.1, if_neg hc.2]

theorem operatorsLoop_quote (hc : isQuote c) : operatorsLoop result none (c :: rest) =
    operatorsLoop (result ++ [c]) (some c) rest := by
  rw [operatorsLoop.eq_def]
  dsimp only
  rw [if_pos hc]

theorem operatorsLoop_comment : operatorsLoop result none ('#' :: '#' :: rest) = result ++ '#' :: '#' :: rest := by
  rw [operatorsLoop.eq_def]
  rfl

theorem gap_newline (h : rest.head? ≠ some '\n') : gap [' ', '\n'] rest = gap [' '] rest := by
  cases rest with
  | nil => rfl
  | cons c rest =>
      have hc : c ≠ '\n' := fun heq => h (congrArg some heq)
      simp [gap, hc]

theorem operatorsLoop_pair (h : isPair c d) (hrest : rest.head? ≠ some '\n') :
    operatorsLoop result none (c :: d :: rest) = operatorsLoop (spaced result ++ [c, d] ++ gap [' '] rest) none rest := by
  obtain ⟨hquote, hhash, _⟩ := operator_chars (pair_first h)
  rw [operatorsLoop.eq_def]
  dsimp only
  rw [if_neg (by rw [hquote]; exact Bool.false_ne_true), if_neg fun heq => hhash heq.1, if_pos (pair_first h)]
  by_cases harrow : c = '-' ∧ d = '>'
  · rw [if_pos harrow]
  · have hcompound : isCompound c d := by simpa [isPair, harrow] using h
    rw [if_neg harrow, if_pos hcompound, gap_newline hrest]

theorem operatorsLoop_single (hc : isOperatorChar c) (h : ∀ d, rest.head? = some d → isPair c d = false) :
    operatorsLoop result none (c :: rest) = operatorsLoop (operator result c rest) none rest := by
  obtain ⟨hquote, hhash, _⟩ := operator_chars hc
  rw [operatorsLoop.eq_def]
  dsimp only
  rw [if_neg (by rw [hquote]; exact Bool.false_ne_true), if_neg fun heq => hhash heq.1, if_pos hc]
  cases rest with
  | nil => rfl
  | cons d rest =>
      have hpair : ¬ (c = '-' ∧ d = '>') ∧ ¬ isCompound c d := by simpa [isPair] using h d rfl
      dsimp only
      rw [if_neg hpair.1, if_neg hpair.2]

theorem operatorsLoop_other (hc : isQuote c = false ∧ isOperatorChar c = false) (h : ¬ (c = '#' ∧ rest.head? = some '#')) :
    operatorsLoop result none (c :: rest) = operatorsLoop (result ++ [c]) none rest := by
  rw [operatorsLoop.eq_def]
  dsimp only
  rw [if_neg (by rw [hc.1]; exact Bool.false_ne_true), if_neg h, if_neg (by rw [hc.2]; exact Bool.false_ne_true)]

theorem commasLoop_escape : commasLoop result (some d) skip ('\\' :: c :: rest) =
    commasLoop (result ++ ['\\', c]) (some d) false rest := by
  rw [commasLoop.eq_def]
  rfl

theorem commasLoop_close (hd : d ≠ '\\') : commasLoop result (some d) skip (d :: rest) =
    commasLoop (result ++ [d]) none false rest := by
  rw [commasLoop.eq_def]
  dsimp only
  rw [if_neg hd, if_pos rfl]

theorem commasLoop_inside (hc : c ≠ '\\' ∧ c ≠ d) : commasLoop result (some d) skip (c :: rest) =
    commasLoop (result ++ [c]) (some d) false rest := by
  rw [commasLoop.eq_def]
  dsimp only
  rw [if_neg hc.1, if_neg hc.2]

theorem commasLoop_quote (hc : isQuote c) : commasLoop result none skip (c :: rest) =
    commasLoop (result ++ [c]) (some c) false rest := by
  rw [commasLoop.eq_def]
  dsimp only
  rw [if_neg fun h => (quote_chars hc).2.1 h.2, if_pos hc]

theorem commasLoop_comment : commasLoop result none skip ('#' :: '#' :: rest) = result ++ '#' :: '#' :: rest := by
  rw [commasLoop.eq_def]
  dsimp only
  rw [if_neg fun h => absurd h.2 (by decide), if_neg (by decide), if_pos ⟨rfl, rfl⟩]

theorem commasLoop_space : commasLoop result none skip (' ' :: rest) =
    commasLoop (if skip then result else result ++ [' ']) none skip rest := by
  rw [commasLoop.eq_def]
  cases skip <;> rfl

theorem commasLoop_comma (h : rest.head? ≠ some '\n') : commasLoop result none skip (',' :: rest) =
    if rest = [] then result.rdropWhile (· == ' ') ++ [',']
    else commasLoop (result.rdropWhile (· == ' ') ++ [',', ' ']) none true rest := by
  rw [commasLoop.eq_def]
  dsimp only
  rw [if_neg fun h => absurd h.2 (by decide), if_neg (by decide), if_neg fun h => absurd h.1 (by decide), if_pos rfl]
  cases rest with
  | nil => rfl
  | cons c rest =>
      have hc : ¬ ((c :: rest).head?.all (· == '\n')) := by
        simpa using fun heq : c = '\n' => h (congrArg some heq)
      rw [if_neg hc, if_neg (List.cons_ne_nil _ _), List.append_assoc]
      rfl

theorem commasLoop_other (hc : c ≠ ' ' ∧ c ≠ ',' ∧ isQuote c = false) (h : ¬ (c = '#' ∧ rest.head? = some '#')) :
    commasLoop result none skip (c :: rest) = commasLoop (result ++ [c]) none false rest := by
  rw [commasLoop.eq_def]
  dsimp only
  rw [if_neg fun h => hc.1 h.2, if_neg (by rw [hc.2.2]; exact Bool.false_ne_true), if_neg h, if_neg hc.2.1]

end Steps

section Loops

variable {a b : Atom} {as bs : List Atom} {c d : Char} {s rest result : List Char} {closed : Bool}

theorem operatorsLoop_body (hd : isQuote d) (h : Body d closed s) (hrest : closed = false → rest = []) (result : List Char) :
    operatorsLoop result (some d) (s ++ rest) = operatorsLoop (result ++ s) none rest := by
  induction h generalizing result with
  | unclosed =>
      rw [hrest rfl, List.append_nil, List.append_nil, operatorsLoop_nil, operatorsLoop_nil]
  | lone =>
      rw [hrest rfl]
      rfl
  | close => exact operatorsLoop_close (quote_chars hd).1
  | escape c _ ih => rw [List.cons_append, List.cons_append, operatorsLoop_escape, ih hrest, List.append_assoc]; rfl
  | char hc _ ih => rw [List.cons_append, operatorsLoop_inside hc, ih hrest, List.append_assoc]; rfl

theorem commasLoop_body (hd : isQuote d) (h : Body d closed s) (hrest : closed = false → rest = []) (result : List Char) :
    commasLoop result (some d) false (s ++ rest) = commasLoop (result ++ s) none false rest := by
  induction h generalizing result with
  | unclosed =>
      rw [hrest rfl, List.append_nil, List.append_nil, commasLoop_nil, commasLoop_nil]
  | lone =>
      rw [hrest rfl]
      rfl
  | close => exact commasLoop_close (quote_chars hd).1
  | escape c _ ih => rw [List.cons_append, List.cons_append, commasLoop_escape, ih hrest, List.append_assoc]; rfl
  | char hc _ ih => rw [List.cons_append, commasLoop_inside hc, ih hrest, List.append_assoc]; rfl

theorem getLast?_append_text (result : List Char) (a : Atom) : (result ++ a.text).getLast? = some a.last := by
  have hne : a.text ≠ [] := List.cons_ne_nil _ _
  rw [List.getLast?_append_of_ne_nil _ hne, Atom.last, List.getLast?_eq_some_getLast hne]

theorem spaced_eq (result : List Char) : spaced result = result ++ texts (leadSpace result.getLast?) := by
  rw [spaced, leadSpace]
  split
  · exact (List.append_nil _).symm
  · rfl

/-- The space behind an operator, where the next atom does not begin with one of the other stops. -/
theorem gap_eq {stops : List Char} (hspace : stops.contains ' ')
    (hstops : ∀ b, as.head? = some b → b.head ∈ stops → b.head = ' ') :
    gap stops (texts as) = if as.head?.all Atom.isSpace then [] else [' '] := by
  rw [gap, head?_texts]
  cases as with
  | nil => rfl
  | cons b as =>
      have hiff : stops.contains b.head = b.isSpace := by
        rw [Bool.eq_iff_iff, isSpace_iff, List.contains_iff_mem]
        constructor
        · exact hstops b rfl
        · intro h
          rw [h]
          exact List.contains_iff_mem.mp hspace
      show (if stops.contains b.head then [] else [' ']) = if b.isSpace then [] else [' ']
      rw [hiff]

/-- An operator with spaces at its sides. -/
theorem operatorsLoop_spaced (ih : ∀ result, operatorsLoop result none (texts as) = result ++ texts (operatorAtoms result.getLast? as))
    (ha : a.isSpaced result.getLast?) :
    operatorsLoop (spaced result ++ a.text ++ if as.head?.all Atom.isSpace then [] else [' ']) none (texts as) =
      result ++ texts (operatorAtoms result.getLast? (a :: as)) := by
  rw [operatorAtoms, if_pos ha, spaced_eq]
  split
  · rw [List.append_nil, ih, getLast?_append_text, texts_append, texts_cons, List.append_assoc, List.append_assoc]
  · rw [ih, List.getLast?_append_of_ne_nil _ (List.cons_ne_nil _ _), texts_append, texts_cons, texts_cons]
    simp only [List.append_assoc]
    rfl

/-- No atom begins with a newline. -/
theorem head_ne_newline (a : Atom) : a.head ≠ '\n' := by
  cases a with
  | space | comma | assign => exact fun h => absurd h (by decide)
  | comment s => exact show '#' ≠ '\n' by decide
  | literal d closed s quote body =>
      rintro rfl
      cases quote
  | pair c d isPair =>
      rintro rfl
      cases pair_first isPair
  | sign c isSign =>
      rintro rfl
      cases isSign.1
  | other c isOther => exact isOther.2.2.1

/-- The loop over the operators, on the text of atoms. -/
theorem operatorsLoop_texts (h : as.IsChain Sep) (result : List Char) :
    operatorsLoop result none (texts as) = result ++ texts (operatorAtoms result.getLast? as) := by
  induction as generalizing result with
  | nil => exact (List.append_nil _).symm
  | cons a as ih =>
      obtain ⟨hnext, hchain⟩ := List.isChain_cons.mp h
      have ih := ih hchain
      have hplain : a.isSpaced result.getLast? = false → result ++ texts (operatorAtoms result.getLast? (a :: as)) =
          operatorsLoop (result ++ a.text) none (texts as) := by
        intro hspaced
        rw [operatorAtoms, if_neg (by rw [hspaced]; exact Bool.false_ne_true), ih, getLast?_append_text, texts_cons,
          List.append_assoc]
      have hnewline : (texts as).head? ≠ some '\n' := by
        rw [head?_texts]
        cases as with
        | nil => exact fun h => by cases h
        | cons b as => exact fun h => head_ne_newline b (Option.some_injective _ h)
      have hapart : ∀ c, (texts as).head? = some c → a.Apart c := by
        intro c hc
        rw [head?_texts] at hc
        obtain ⟨b, hb, rfl⟩ := Option.map_eq_some_iff.mp hc
        exact (hnext b hb).2
      have hgap : gap [' '] (texts as) = if as.head?.all Atom.isSpace then [] else [' '] :=
        gap_eq rfl fun b _ h => List.mem_singleton.mp h
      rw [texts_cons]
      cases a with
      | space =>
          rw [hplain rfl]
          exact operatorsLoop_other (by decide) fun h => absurd h.1 (by decide)
      | comma =>
          rw [hplain rfl]
          exact operatorsLoop_other (by decide) fun h => absurd h.1 (by decide)
      | literal d closed s quote body =>
          have hend : closed = false → texts as = [] := by
            rintro rfl
            cases as with
            | nil => rfl
            | cons b as => cases (hnext b rfl).1
          rw [hplain rfl]
          show operatorsLoop result none (d :: (s ++ texts as)) = _
          rw [operatorsLoop_quote quote, operatorsLoop_body quote body hend, List.append_assoc]
          rfl
      | comment s =>
          have hend : as = [] := by
            cases as with
            | nil => rfl
            | cons b as => exact (hnext b rfl).1.elim
          rw [hend]
          show operatorsLoop result none ('#' :: '#' :: (s ++ [])) = _
          rw [operatorsLoop_comment, List.append_nil]
          simp [operatorAtoms, texts, Atom.isSpaced, Atom.text, Atom.head, Atom.tail]
      | assign =>
          rw [← operatorsLoop_spaced ih rfl]
          show operatorsLoop result none ('=' :: texts as) = _
          rw [operatorsLoop_single rfl hapart, operator, if_pos rfl, gap_eq rfl fun b hb h => ?_]
          · rfl
          · -- two of them are one operator
            rcases List.mem_cons.mp h with h | h
            · exact h
            · have hsep : isPair '=' b.head = false := (hnext b hb).2
              rw [List.mem_singleton.mp h] at hsep
              cases hsep
      | pair c d isPair =>
          rw [← operatorsLoop_spaced ih rfl]
          show operatorsLoop result none (c :: d :: texts as) = _
          rw [operatorsLoop_pair isPair hnewline, hgap]
          rfl
      | sign c isSign =>
          show operatorsLoop result none (c :: texts as) = _
          rw [operatorsLoop_single isSign.1 hapart, operator, if_neg isSign.2]
          by_cases hback : result.getLast?.any endsOperand
          · rw [← operatorsLoop_spaced (a := .sign c isSign) ih hback, if_pos hback, hgap]
            rfl
          · rw [hplain (Bool.eq_false_iff.mpr hback), if_neg hback]
            rfl
      | other c isOther =>
          rw [hplain rfl]
          exact operatorsLoop_other isOther.2.2.2 fun h => hapart _ h.2 ⟨h.1, rfl⟩

theorem rdropWhile_spaces {base : List Char} (hbase : base.getLast? ≠ some ' ') (pend : ℕ) :
    (base ++ List.replicate pend ' ').rdropWhile (· == ' ') = base := by
  have hends : ∀ hne : base ≠ [], ¬ (base.getLast hne == ' ') := by
    intro hne heq
    refine hbase ?_
    rw [List.getLast?_eq_some_getLast hne, eq_of_beq heq]
  induction pend with
  | zero =>
      rw [List.replicate_zero, List.append_nil]
      exact List.rdropWhile_eq_self_iff.mpr hends
  | succ pend ih =>
      rw [List.replicate_succ', ← List.append_assoc, List.rdropWhile_concat_pos _ _ _ (by decide), ih]

theorem texts_replicate (pend : ℕ) : texts (List.replicate pend .space) = List.replicate pend ' ' := by
  induction pend with
  | zero => rfl
  | succ pend ih =>
      rw [List.replicate_succ, texts_cons, ih]
      rfl

theorem pair_second_chars (h : isPair c d) : d ≠ ' ' ∧ d ≠ ',' ∧ isQuote d = false ∧ d ≠ '#' := by
  rcases pair_second h with rfl | rfl | rfl | rfl | rfl <;> decide

/-- The loop over the commas copies every other atom. -/
theorem commasLoop_atom (hne : a ≠ .space ∧ a ≠ .comma) (hnext : ∀ b ∈ as.head?, Sep a b) (result : List Char) (skip : Bool) :
    commasLoop result none skip (a.text ++ texts as) = commasLoop (result ++ a.text) none false (texts as) := by
  cases a with
  | space => exact absurd rfl hne.1
  | comma => exact absurd rfl hne.2
  | literal d closed s quote body =>
      have hend : closed = false → texts as = [] := by
        rintro rfl
        cases as with
        | nil => rfl
        | cons b as => cases (hnext b rfl).1
      show commasLoop result none skip (d :: (s ++ texts as)) = _
      rw [commasLoop_quote quote, commasLoop_body quote body hend, List.append_assoc]
      rfl
  | comment s =>
      have hend : as = [] := by
        cases as with
        | nil => rfl
        | cons b as => exact (hnext b rfl).1.elim
      rw [hend]
      show commasLoop result none skip ('#' :: '#' :: (s ++ [])) = commasLoop _ none false []
      rw [commasLoop_comment, List.append_nil, commasLoop_nil]
      rfl
  | assign => exact commasLoop_other (by decide) fun h => absurd h.1 (by decide)
  | pair c d isPair =>
      obtain ⟨hquote, hhash, hcomma, hspace⟩ := operator_chars (pair_first isPair)
      obtain ⟨hspace', hcomma', hquote', hhash'⟩ := pair_second_chars isPair
      show commasLoop result none skip (c :: d :: texts as) = _
      rw [commasLoop_other ⟨hspace, hcomma, hquote⟩ fun h => hhash h.1,
        commasLoop_other ⟨hspace', hcomma', hquote'⟩ fun h => hhash' h.1, List.append_assoc]
      rfl
  | sign c isSign =>
      obtain ⟨hquote, hhash, hcomma, hspace⟩ := operator_chars isSign.1
      exact commasLoop_other ⟨hspace, hcomma, hquote⟩ fun h => hhash h.1
  | other c isOther =>
      refine commasLoop_other ⟨isOther.1, isOther.2.1, isOther.2.2.2.1⟩ fun h => ?_
      have hhead : (texts as).head? = some '#' := h.2
      rw [head?_texts] at hhead
      obtain ⟨b, hb, hhash⟩ := Option.map_eq_some_iff.mp hhead
      exact (hnext b hb).2 ⟨h.1, hhash⟩

theorem commaAtoms_atom (hne : a ≠ .space ∧ a ≠ .comma) (pend : ℕ) (skip : Bool) (as : List Atom) :
    commaAtoms pend skip (a :: as) = List.replicate pend .space ++ a :: commaAtoms 0 false as := by
  cases a with
  | space => exact absurd rfl hne.1
  | comma => exact absurd rfl hne.2
  | _ => rfl

/-- The loop over the commas, on the text of atoms behind a text and `pend` spaces. -/
theorem commasLoop_texts (h : as.IsChain Sep) (base : List Char) (hbase : base.getLast? ≠ some ' ') (pend : ℕ) (skip : Bool) :
    commasLoop (base ++ List.replicate pend ' ') none skip (texts as) = base ++ texts (commaAtoms pend skip as) := by
  induction as generalizing base pend skip with
  | nil =>
      rw [commaAtoms, texts_replicate]
      exact commasLoop_nil _ _ _
  | cons a as ih =>
      obtain ⟨hnext, hchain⟩ := List.isChain_cons.mp h
      have ih := ih hchain
      by_cases hspace : a = .space
      · subst hspace
        rw [texts_cons]
        show commasLoop _ none skip (' ' :: texts as) = _
        rw [commasLoop_space]
        cases skip with
        | false =>
            have := ih base hbase (pend + 1) false
            rw [List.replicate_succ', ← List.append_assoc] at this
            exact this
        | true => exact ih base hbase pend true
      by_cases hcomma : a = .comma
      · subst hcomma
        have hnewline : (texts as).head? ≠ some '\n' := by
          rw [head?_texts]
          cases as with
          | nil => exact fun h => by cases h
          | cons b as => exact fun h => head_ne_newline b (Option.some_injective _ h)
        rw [texts_cons]
        show commasLoop _ none skip (',' :: texts as) = _
        rw [commasLoop_comma hnewline, rdropWhile_spaces hbase, commaAtoms, texts_cons]
        cases as with
        | nil => rfl
        | cons b as =>
            have hlast : (base ++ [',']).getLast? ≠ some ' ' := by
              rw [List.getLast?_append_of_ne_nil _ (List.cons_ne_nil _ _)]
              decide
            have := ih (base ++ [',']) hlast 1 true
            rw [List.append_assoc, List.append_assoc] at this
            exact this
      rw [texts_cons, commasLoop_atom ⟨hspace, hcomma⟩ hnext, commaAtoms_atom ⟨hspace, hcomma⟩, texts_append, texts_replicate, texts_cons]
      cases as with
      | nil =>
          rw [commaAtoms, List.append_assoc, List.replicate_zero, show texts [] = [] from rfl, List.append_nil]
          exact commasLoop_nil _ _ _
      | cons b as =>
          have hlast : (base ++ List.replicate pend ' ' ++ a.text).getLast? ≠ some ' ' := by
            rw [getLast?_append_text]
            exact fun h => last_ne_space (hnext b rfl).1 hspace (Option.some_injective _ h)
          have := ih _ hlast 0 false
          rw [List.replicate_zero, List.append_nil] at this
          rw [this]
          simp only [List.append_assoc]

end Loops

/-! ## The second run -/

/-- What stands next to an operator after the first run: it has its spaces, unless a comma has taken the one behind it. -/
def Settled (a b : Atom) : Prop :=
  (a.isSpaced none → b = .space ∨ b = .comma) ∧ (b.isSpaced (some a.last) → a = .space)

section Second

variable {a b p : Atom} {as bs : List Atom} {R : Atom → Atom → Prop} {back : Option Char} {c : Char}

theorem sep_space (b : Atom) : Sep .space b := ⟨trivial, trivial⟩

theorem sep_left (h : Sep a b) : Sep a .space ∧ Sep a .comma :=
  ⟨⟨h.1, apart_separator a (.inl rfl)⟩, ⟨h.1, apart_separator a (.inr rfl)⟩⟩

theorem settled_space (b : Atom) : Settled .space b := ⟨fun h => absurd h Bool.false_ne_true, fun _ => rfl⟩

theorem settled_left (a : Atom) : Settled a .space ∧ Settled a .comma :=
  ⟨⟨fun _ => .inl rfl, fun h => absurd h Bool.false_ne_true⟩, ⟨fun _ => .inr rfl, fun h => absurd h Bool.false_ne_true⟩⟩

theorem isSpaced_of_none (h : a.isSpaced none) (back : Option Char) : a.isSpaced back := by
  cases a with
  | assign | pair => rfl
  | _ => cases h

theorem not_space_of_isSpaced (h : a.isSpaced back) : a.isSpace = false := by
  cases a with
  | space => cases h
  | _ => rfl

theorem chain_pad (hspace : ∀ b, R .space b) {pend : ℕ} (hzero : pend = 0 → (p :: bs).IsChain R)
    (hpos : pend ≠ 0 → R p .space) (hbs : bs.IsChain R) : (p :: (List.replicate pend .space ++ bs)).IsChain R := by
  cases pend with
  | zero => exact hzero rfl
  | succ n =>
      refine List.isChain_cons_cons.mpr ⟨hpos (Nat.succ_ne_zero n), ?_⟩
      induction n with
      | zero => exact List.isChain_cons.mpr ⟨fun b _ => hspace b, hbs⟩
      | succ n ih =>
          exact List.isChain_cons_cons.mpr ⟨hspace _, ih (fun h => by cases h) fun _ => hpos (Nat.succ_ne_zero _)⟩

/-- The loop over the commas keeps what holds of neighbours, where spaces and commas can stand anywhere. -/
theorem commaAtoms_chain (hspace : ∀ b, R .space b) (hleft : ∀ a b, R a b → R a .space ∧ R a .comma)
    (hcomma : R .comma .space ∧ R .comma .comma) (pend : ℕ) (skip : Bool) (hzero : pend = 0 → skip = false ∧ (p :: as).IsChain R)
    (hpos : pend ≠ 0 → R p .space ∧ R p .comma ∧ as.IsChain R) : (p :: commaAtoms pend skip as).IsChain R := by
  induction as generalizing pend skip p with
  | nil =>
      have hpad : (p :: (List.replicate pend .space ++ [])).IsChain R :=
        chain_pad hspace (fun _ => .singleton _) (fun h => (hpos h).1) .nil
      rwa [List.append_nil] at hpad
  | cons a as ih =>
      have hrest : (a :: as).IsChain R := by
        by_cases h : pend = 0
        · exact (hzero h).2.tail
        · exact (hpos h).2.2
      by_cases hsp : a = .space
      · subst hsp
        have hprev : R p .space ∧ R p .comma := by
          by_cases h : pend = 0
          · exact hleft p .space (List.isChain_cons_cons.mp (hzero h).2).1
          · exact ⟨(hpos h).1, (hpos h).2.1⟩
        rw [commaAtoms]
        cases skip with
        | false =>
            exact ih (pend + 1) false (fun h => absurd h (Nat.succ_ne_zero _)) fun _ => ⟨hprev.1, hprev.2, hrest.tail⟩
        | true =>
            exact ih pend true (fun h => absurd (hzero h).1 (by decide)) fun _ => ⟨hprev.1, hprev.2, hrest.tail⟩
      by_cases hco : a = .comma
      · subst hco
        have hprev : R p .comma := by
          by_cases h : pend = 0
          · exact (List.isChain_cons_cons.mp (hzero h).2).1
          · exact (hpos h).2.1
        rw [commaAtoms]
        refine List.isChain_cons_cons.mpr ⟨hprev, ?_⟩
        split
        · exact .singleton _
        · exact ih 1 true (fun h => absurd h Nat.one_ne_zero) fun _ => ⟨hcomma.1, hcomma.2, hrest.tail⟩
      have hnext : (a :: commaAtoms 0 false as).IsChain R := ih 0 false (fun _ => ⟨rfl, hrest⟩) fun h => absurd rfl h
      rw [commaAtoms_atom ⟨hsp, hco⟩]
      refine chain_pad hspace (fun h => ?_) (fun h => (hpos h).1) hnext
      exact List.isChain_cons_cons.mpr ⟨(List.isChain_cons_cons.mp (hzero h).2).1, hnext⟩

/-- The loop over the operators keeps atoms apart. -/
theorem operatorAtoms_sep (h : (p :: as).IsChain Sep) : (p :: operatorAtoms (some p.last) as).IsChain Sep := by
  induction as generalizing p with
  | nil => exact .singleton _
  | cons a as ih =>
      obtain ⟨hprev, hrest⟩ := List.isChain_cons_cons.mp h
      rw [operatorAtoms]
      split
      · have hbehind : (a :: if as.head?.all Atom.isSpace then operatorAtoms (some a.last) as
            else .space :: operatorAtoms (some ' ') as).IsChain Sep := by
          split
          · exact ih hrest
          · have hspace : (Atom.space :: operatorAtoms (some ' ') as).IsChain Sep :=
              ih (p := .space) (List.isChain_cons.mpr ⟨fun b _ => sep_space b, hrest.tail⟩)
            cases as with
            | nil => exact List.isChain_cons_cons.mpr ⟨absurd rfl ‹¬ _›, hspace⟩
            | cons b as => exact List.isChain_cons_cons.mpr ⟨(sep_left (List.isChain_cons_cons.mp hrest).1).1, hspace⟩
        rw [leadSpace]
        split
        · exact List.isChain_cons_cons.mpr ⟨hprev, hbehind⟩
        · exact List.isChain_cons_cons.mpr ⟨(sep_left hprev).1, List.isChain_cons_cons.mpr ⟨sep_space a, hbehind⟩⟩
      · exact List.isChain_cons_cons.mpr ⟨hprev, ih hrest⟩

/-- The loop over the operators gives them their spaces. -/
theorem operatorAtoms_settled (h : (p :: as).IsChain Sep) (hprev : p.isSpaced none → as.head?.all Atom.isSpace) :
    (p :: operatorAtoms (some p.last) as).IsChain Settled := by
  induction as generalizing p with
  | nil => exact .singleton _
  | cons a as ih =>
      obtain ⟨hsep, hrest⟩ := List.isChain_cons_cons.mp h
      rw [operatorAtoms]
      split
      · rename_i hspaced
        have hplain : ¬ p.isSpaced none := fun hnone => by
          have := hprev hnone
          rw [List.head?_cons, Option.all_some, not_space_of_isSpaced hspaced] at this
          cases this
        have hbehind : (a :: if as.head?.all Atom.isSpace then operatorAtoms (some a.last) as
            else .space :: operatorAtoms (some ' ') as).IsChain Settled := by
          split
          · rename_i hall
            exact ih hrest fun _ => hall
          · refine List.isChain_cons_cons.mpr ⟨(settled_left a).1, ?_⟩
            exact ih (p := .space) (List.isChain_cons.mpr ⟨fun b _ => sep_space b, hrest.tail⟩) fun h => by cases h
        rw [leadSpace]
        split
        · rename_i hlast
          have hspace : p = .space := by
            by_contra hne
            refine last_ne_space hsep.1 hne ?_
            simpa using hlast
          subst hspace
          exact List.isChain_cons_cons.mpr ⟨settled_space a, hbehind⟩
        · exact List.isChain_cons_cons.mpr ⟨(settled_left p).1, List.isChain_cons_cons.mpr ⟨settled_space a, hbehind⟩⟩
      · rename_i hspaced
        refine List.isChain_cons_cons.mpr ⟨⟨fun hnone => .inl (eq_space (hprev hnone)), fun h => absurd h hspaced⟩, ?_⟩
        exact ih hrest fun hnone => absurd (isSpaced_of_none hnone _) hspaced

theorem operatorAtoms_eq_nil : operatorAtoms back as = [] ↔ as = [] := by
  cases as with
  | nil => exact iff_of_true rfl rfl
  | cons a as =>
      rw [operatorAtoms]
      split <;> simp

theorem commaAtoms_congr (h : ∀ pend skip, commaAtoms pend skip as = commaAtoms pend skip bs) (hnil : as = [] ↔ bs = [])
    (a : Atom) (pend : ℕ) (skip : Bool) : commaAtoms pend skip (a :: as) = commaAtoms pend skip (a :: bs) := by
  by_cases hsp : a = .space
  · rw [hsp, commaAtoms, commaAtoms, h, h]
  by_cases hco : a = .comma
  · rw [hco, commaAtoms, commaAtoms, h]
    simp only [hnil]
  rw [commaAtoms_atom ⟨hsp, hco⟩, commaAtoms_atom ⟨hsp, hco⟩, h]

/-- The second run puts spaces in front of commas only, and the loop over the commas takes them away again. -/
theorem commaAtoms_operatorAtoms (h : (p :: as).IsChain Settled) (pend : ℕ) (skip : Bool) :
    commaAtoms pend skip (operatorAtoms (some p.last) as) = commaAtoms pend skip as := by
  induction as generalizing p pend skip with
  | nil => rfl
  | cons a as ih =>
      obtain ⟨hprev, hrest⟩ := List.isChain_cons_cons.mp h
      have ih := fun pend skip => ih hrest pend skip
      rw [operatorAtoms]
      split
      · rename_i hspaced
        have hspace := hprev.2 hspaced
        subst hspace
        have hnone : a.isSpaced none := by
          cases a with
          | assign | pair => rfl
          | _ => cases hspaced
        show commaAtoms pend skip ([] ++ a :: _) = _
        rw [List.nil_append]
        split
        · exact commaAtoms_congr ih operatorAtoms_eq_nil a pend skip
        · rename_i hnext
          cases as with
          | nil => exact absurd rfl hnext
          | cons b as =>
              have hcomma : b = .comma := by
                rcases (List.isChain_cons_cons.mp hrest).1.1 hnone with rfl | rfl
                · exact absurd rfl hnext
                · rfl
              subst hcomma
              have hatom : a ≠ .space ∧ a ≠ .comma := by
                constructor <;> rintro rfl <;> cases hnone
              rw [commaAtoms_atom hatom, commaAtoms_atom hatom, ← ih 0 false]
              rfl
      · exact commaAtoms_congr ih operatorAtoms_eq_nil a pend skip

theorem commaAtoms_replicate (n pend : ℕ) (bs : List Atom) :
    commaAtoms pend false (List.replicate n .space ++ bs) = commaAtoms (pend + n) false bs := by
  induction n generalizing pend with
  | zero => rfl
  | succ n ih =>
      rw [List.replicate_succ, List.cons_append, commaAtoms]
      exact (ih (pend + 1)).trans (by rw [Nat.add_right_comm, Nat.add_assoc])

theorem commaAtoms_ne_nil (pend : ℕ) (skip : Bool) (as : List Atom) : commaAtoms (pend + 1) skip as ≠ [] := by
  induction as generalizing pend skip with
  | nil => exact List.cons_ne_nil _ _
  | cons a as ih =>
      by_cases hsp : a = .space
      · rw [hsp, commaAtoms]
        split
        · exact ih pend true
        · exact ih (pend + 1) false
      by_cases hco : a = .comma
      · rw [hco, commaAtoms]
        exact List.cons_ne_nil _ _
      rw [commaAtoms_atom ⟨hsp, hco⟩]
      exact List.cons_ne_nil _ _

/-- A second run of the loop over the commas changes nothing. -/
theorem commaAtoms_idem (as : List Atom) : (∀ pend, commaAtoms 0 false (commaAtoms pend false as) = commaAtoms pend false as) ∧
    commaAtoms 1 true (commaAtoms 1 true as) = commaAtoms 1 true as := by
  induction as with
  | nil =>
      refine ⟨fun pend => ?_, rfl⟩
      have := commaAtoms_replicate pend 0 []
      rw [List.append_nil, Nat.zero_add] at this
      exact this
  | cons a as ih =>
      obtain ⟨ihOut, ihIn⟩ := ih
      by_cases hsp : a = .space
      · rw [hsp]
        exact ⟨fun pend => ihOut (pend + 1), ihIn⟩
      by_cases hco : a = .comma
      · have hcomma : ∀ pend skip, commaAtoms pend skip (if as = [] then [.comma] else .comma :: commaAtoms 1 true as) =
            if as = [] then [.comma] else .comma :: commaAtoms 1 true as := by
          intro pend skip
          split
          · rfl
          · rw [commaAtoms, if_neg (commaAtoms_ne_nil 0 true as), ihIn]
        have hfirst : ∀ pend skip, commaAtoms pend skip (.comma :: as) =
            if as = [] then [.comma] else .comma :: commaAtoms 1 true as := by
          intro pend skip
          rw [commaAtoms]
          split <;> rfl
        rw [hco]
        exact ⟨fun pend => by rw [hfirst, hcomma], by rw [hfirst, hcomma]⟩
      constructor
      · intro pend
        rw [commaAtoms_atom ⟨hsp, hco⟩, commaAtoms_replicate, commaAtoms_atom ⟨hsp, hco⟩, ihOut, Nat.zero_add]
      · rw [commaAtoms_atom ⟨hsp, hco⟩]
        show commaAtoms 1 true (.space :: a :: commaAtoms 0 false as) = _
        rw [commaAtoms, if_pos rfl, commaAtoms_atom ⟨hsp, hco⟩, ihOut]

end Second

/-! ## A whole line -/

section Whole

variable {a b : Atom} {as bs : List Atom} {back : Option Char} {c d : Char} {s line : List Char}

/-- Both loops on the atoms of a line. -/
def respace (as : List Atom) : List Atom := commaAtoms 0 false (operatorAtoms (some ' ') as)

theorem operatorAtoms_none (as : List Atom) : operatorAtoms none as = operatorAtoms (some ' ') as := by
  cases as with
  | nil => rfl
  | cons a as =>
      have hspaced : a.isSpaced none = a.isSpaced (some ' ') := by cases a <;> rfl
      rw [operatorAtoms, operatorAtoms, hspaced]
      rfl

theorem chain_behind_space (h : as.IsChain Sep) : (Atom.space :: as).IsChain Sep :=
  List.isChain_cons.mpr ⟨fun b _ => sep_space b, h⟩

theorem operatorAtoms_sep_first (h : as.IsChain Sep) : (operatorAtoms (some ' ') as).IsChain Sep :=
  (operatorAtoms_sep (p := .space) (chain_behind_space h)).tail

theorem respace_sep (h : as.IsChain Sep) : (respace as).IsChain Sep := by
  have hchain := operatorAtoms_sep (p := .space) (chain_behind_space h)
  exact (commaAtoms_chain sep_space (fun a b => sep_left) ⟨⟨trivial, trivial⟩, ⟨trivial, trivial⟩⟩ 0 false (p := .space)
    (fun _ => ⟨rfl, hchain⟩) fun h => absurd rfl h).tail

/-- The second run of both loops changes nothing. -/
theorem respace_idem (h : as.IsChain Sep) : respace (respace as) = respace as := by
  have hsettled := operatorAtoms_settled (p := .space) (chain_behind_space h) fun h => by cases h
  have hchain := commaAtoms_chain settled_space (fun a b _ => settled_left a) (settled_left .comma) 0 false (p := .space)
    (fun _ => ⟨rfl, hsettled⟩) fun h => absurd rfl h
  calc respace (respace as) = commaAtoms 0 false (respace as) := commaAtoms_operatorAtoms hchain 0 false
    _ = respace as := (commaAtoms_idem _).1 0

theorem operatorsLoop_indent (ws : List Char) (hws : ∀ c ∈ ws, isIndentChar c) (result : List Char) :
    operatorsLoop result none (ws ++ s) = operatorsLoop (result ++ ws) none s := by
  induction ws generalizing result with
  | nil => rw [List.nil_append, List.append_nil]
  | cons c ws ih =>
      obtain ⟨hc, hws⟩ := List.forall_mem_cons.mp hws
      have hc : c = ' ' ∨ c = '\t' := by simpa [isIndentChar] using hc
      have hstep : operatorsLoop result none (c :: (ws ++ s)) = operatorsLoop (result ++ [c]) none (ws ++ s) := by
        rcases hc with rfl | rfl <;> exact operatorsLoop_other (by decide) fun h => absurd h.1 (by decide)
      rw [List.cons_append, hstep, ih hws, List.append_assoc, List.singleton_append]

/-- The two loops on a line, in one. -/
theorem normalize_texts (h : as.IsChain Sep) : normalizeCommas (normalizeOperators (texts as)) = texts (respace as) := by
  have hindent := operatorsLoop_indent (s := (texts as).dropWhile isIndentChar) ((texts as).takeWhile isIndentChar)
    (fun c hc => List.mem_takeWhile_imp hc) []
  rw [List.takeWhile_append_dropWhile, List.nil_append] at hindent
  have hcommas := commasLoop_texts (operatorAtoms_sep_first h) [] (by decide) 0 false
  rw [normalizeOperators, ← hindent, operatorsLoop_texts h, List.nil_append, List.getLast?_nil, operatorAtoms_none]
  exact hcommas

/-! ### The ends of the line -/

/-- The tab as an atom. -/
def tab : Atom := .other '\t' (by decide)

theorem texts_tabs (n : ℕ) : texts (List.replicate n tab) = List.replicate n '\t' := by
  induction n with
  | zero => rfl
  | succ n ih =>
      rw [List.replicate_succ, texts_cons, ih]
      rfl

theorem commaAtoms_tabs (n : ℕ) : commaAtoms 0 false (List.replicate n tab ++ as) = List.replicate n tab ++ commaAtoms 0 false as := by
  induction n with
  | zero => rfl
  | succ n ih =>
      rw [List.replicate_succ, List.cons_append, List.cons_append, ← ih]
      rfl

theorem operatorAtoms_tabs (n : ℕ) : operatorAtoms (some '\t') (List.replicate n tab ++ as) =
    List.replicate n tab ++ operatorAtoms (some '\t') as := by
  induction n with
  | zero => rfl
  | succ n ih =>
      rw [List.replicate_succ, List.cons_append, List.cons_append, ← ih]
      rfl

theorem commaAtoms_first (ha : a ≠ .space) (as : List Atom) : ∃ bs, commaAtoms 0 false (a :: as) = a :: bs := by
  by_cases hco : a = .comma
  · subst hco
    exact ⟨_, rfl⟩
  · exact ⟨_, commaAtoms_atom ⟨ha, hco⟩ 0 false as⟩

theorem operatorAtoms_first (h : back = some ' ' ∨ ¬ a.isSpaced back) (as : List Atom) :
    ∃ bs, operatorAtoms back (a :: as) = a :: bs := by
  rw [operatorAtoms]
  split
  · rename_i hspaced
    rcases h with rfl | h
    · exact ⟨_, rfl⟩
    · exact absurd hspaced h
  · exact ⟨_, rfl⟩

theorem isSpaced_tab (h : a.isSpaced (some '\t')) : a.isSpaced none := by
  cases a with
  | assign | pair => rfl
  | _ => cases h

theorem respace_behind_tabs (n : ℕ) (as : List Atom) : respace (List.replicate (n + 1) tab ++ as) =
    List.replicate (n + 1) tab ++ commaAtoms 0 false (operatorAtoms (some '\t') as) := by
  have hops : operatorAtoms (some ' ') (List.replicate (n + 1) tab ++ as) =
      List.replicate (n + 1) tab ++ operatorAtoms (some '\t') as := by
    rw [List.replicate_succ, List.cons_append, List.cons_append, ← operatorAtoms_tabs]
    rfl
  rw [respace, hops, commaAtoms_tabs]

/-- What comes first behind the indentation stays there. -/
theorem respace_plain {n : ℕ} (ha : a ≠ .space) (h : n = 0 ∨ ¬ a.isSpaced none) (as : List Atom) :
    ∃ bs, respace (List.replicate n tab ++ a :: as) = List.replicate n tab ++ a :: bs := by
  cases n with
  | zero =>
      obtain ⟨cs, hcs⟩ := operatorAtoms_first (a := a) (.inl rfl) as
      obtain ⟨bs, hbs⟩ := commaAtoms_first ha cs
      exact ⟨bs, (congrArg _ hcs).trans hbs⟩
  | succ m =>
      have hnone : ¬ a.isSpaced none := h.resolve_left (Nat.succ_ne_zero m)
      obtain ⟨cs, hcs⟩ := operatorAtoms_first (.inr fun hspaced => hnone (isSpaced_tab hspaced)) as
      obtain ⟨bs, hbs⟩ := commaAtoms_first ha cs
      rw [respace_behind_tabs, hcs, hbs]
      exact ⟨bs, rfl⟩

/-- An operator gets a space behind tabs. -/
theorem respace_operator {n : ℕ} (h : a.isSpaced none) (as : List Atom) :
    ∃ bs, respace (List.replicate (n + 1) tab ++ a :: as) = List.replicate (n + 1) tab ++ .space :: a :: bs := by
  have hatom : a ≠ .space ∧ a ≠ .comma := by
    constructor <;> rintro rfl <;> cases h
  rw [respace_behind_tabs, operatorAtoms, if_pos (isSpaced_of_none h _)]
  refine ⟨commaAtoms 0 false (if as.head?.all Atom.isSpace then operatorAtoms (some a.last) as
    else .space :: operatorAtoms (some ' ') as), congrArg _ ?_⟩
  show commaAtoms 1 false (a :: _) = _
  rw [commaAtoms_atom hatom]
  rfl

theorem getLast?_operatorAtoms (back : Option Char) (as : List Atom) : (operatorAtoms back as).getLast? = as.getLast? := by
  induction as generalizing back with
  | nil => rfl
  | cons a as ih =>
      have hcons : ∀ bs : List Atom, bs.getLast? = as.getLast? → (a :: bs).getLast? = (a :: as).getLast? := by
        intro bs h
        rw [List.getLast?_cons, List.getLast?_cons, h]
      rw [operatorAtoms]
      split
      · rw [List.getLast?_append_of_ne_nil _ (List.cons_ne_nil _ _)]
        refine hcons _ ?_
        split
        · exact ih _
        · rename_i hnext
          cases as with
          | nil => exact absurd rfl hnext
          | cons b as =>
              have hne : operatorAtoms (some ' ') (b :: as) ≠ [] := fun h => List.cons_ne_nil _ _ (operatorAtoms_eq_nil.mp h)
              rw [List.getLast?_cons_of_ne_nil hne, ih]
      · exact hcons _ (ih _)

theorem getLast?_commaAtoms (pend : ℕ) (skip : Bool) (h : ∀ a ∈ as.getLast?, a ≠ .space) (hne : as ≠ []) :
    (commaAtoms pend skip as).getLast? = as.getLast? := by
  induction as generalizing pend skip with
  | nil => exact absurd rfl hne
  | cons a as ih =>
      cases as with
      | nil =>
          have ha : a ≠ .space := h a rfl
          by_cases hco : a = .comma
          · subst hco
            rfl
          · rw [commaAtoms_atom ⟨ha, hco⟩, List.getLast?_append_of_ne_nil _ (List.cons_ne_nil _ _)]
            rfl
      | cons b as =>
          rw [List.getLast?_cons_of_ne_nil (List.cons_ne_nil _ _)] at h ⊢
          have ih := fun pend skip => ih pend skip h (List.cons_ne_nil _ _)
          have hcons : ∀ c pend skip, (c :: commaAtoms pend skip (b :: as)).getLast? = (b :: as).getLast? := by
            intro c pend skip
            rw [List.getLast?_cons, ih, List.getLast?_cons]
            rfl
          by_cases hsp : a = .space
          · rw [hsp, commaAtoms]
            split <;> exact ih _ _
          by_cases hco : a = .comma
          · rw [hco, commaAtoms, if_neg (List.cons_ne_nil _ _)]
            exact hcons _ _ _
          rw [commaAtoms_atom ⟨hsp, hco⟩, List.getLast?_append_of_ne_nil _ (List.cons_ne_nil _ _)]
          exact hcons _ _ _

theorem getLast?_texts (as : List Atom) : (texts as).getLast? = as.getLast?.map Atom.last := by
  induction as using List.reverseRecOn with
  | nil => rfl
  | append_singleton as a =>
      have hsingle : texts [a] = a.text := by
        rw [texts_cons]
        exact List.append_nil _
      rw [texts_append, hsingle, getLast?_append_text, List.getLast?_concat]
      rfl

/-- The last character of a line stays the last. -/
theorem getLast?_respace (h : (texts as).getLast? ≠ some ' ') : (texts (respace as)).getLast? = (texts as).getLast? := by
  by_cases hne : as = []
  · subst hne
    rfl
  have hlast : ∀ a ∈ (operatorAtoms (some ' ') as).getLast?, a ≠ .space := by
    intro a ha hspace
    rw [getLast?_operatorAtoms, hspace] at ha
    refine h ?_
    rw [getLast?_texts, ha]
    rfl
  rw [getLast?_texts, getLast?_texts, respace,
    getLast?_commaAtoms 0 false hlast fun h => hne (operatorAtoms_eq_nil.mp h), getLast?_operatorAtoms]

end Whole

/-! ### The indentation -/

/-- A text that begins and ends with something. -/
structure Solid (s : List Char) : Prop where
  ne_nil : s ≠ []
  head : ∀ c ∈ s.head?, isIndentChar c = false
  last : ∀ c ∈ s.getLast?, isSpaceChar c = false

def indentOf (line : Line) : List Char := (stripTrailingWhitespace line).takeWhile isIndentChar

def contentOf (line : Line) : List Char := (stripTrailingWhitespace line).dropWhile isIndentChar

/-- The line begins with an indentation and, behind it, `=`, `->` or an operator of two characters. -/
def opensWithOperator (line : Line) : Bool :=
  !(indentOf line).isEmpty && match contentOf line with
    | [] => false
    | c :: rest => c == '=' || rest.head?.any (isPair c)

section Indentation

variable {a : Atom} {as : List Atom} {s line : List Char} {n : ℕ}

theorem strip_of_last (h : ∀ c ∈ line.getLast?, isSpaceChar c = false) : stripTrailingWhitespace line = line := by
  refine List.rdropWhile_eq_self_iff.mpr fun hne hspace => ?_
  rw [h _ (List.getLast?_eq_some_getLast hne)] at hspace
  cases hspace

theorem content_solid (h : contentOf line ≠ []) : Solid (contentOf line) where
  ne_nil := h
  head c hc := by
    have hnot := List.head?_dropWhile_not isIndentChar (stripTrailingWhitespace line)
    rw [contentOf] at hc
    rw [Option.mem_def.mp hc] at hnot
    simpa using hnot
  last c hc := by
    have hsuffix : contentOf line <:+ stripTrailingWhitespace line := List.dropWhile_suffix _
    have hlast : (stripTrailingWhitespace line).getLast? = some c := by
      obtain ⟨t, ht⟩ := hsuffix
      rw [← ht, List.getLast?_append_of_ne_nil _ h]
      exact hc
    have hne : stripTrailingWhitespace line ≠ [] := fun heq => by rw [heq] at hlast; cases hlast
    have hnot := List.rdropWhile_last_not isSpaceChar line hne
    rw [List.getLast?_eq_some_getLast hne] at hlast
    cases hlast
    exact Bool.eq_false_iff.mpr hnot

theorem takeWhile_indent (ws : List Char) (hws : ∀ c ∈ ws, isIndentChar c) (hs : Solid s) :
    (ws ++ s).takeWhile isIndentChar = ws ∧ (ws ++ s).dropWhile isIndentChar = s := by
  obtain ⟨c, t, rfl⟩ := List.exists_cons_of_ne_nil hs.ne_nil
  have hc := hs.head c rfl
  rw [List.takeWhile_append_of_pos hws, List.dropWhile_append_of_pos hws, List.takeWhile_cons_of_neg (by rw [hc]; decide),
    List.dropWhile_cons_of_neg (by rw [hc]; decide), List.append_nil]
  exact ⟨rfl, rfl⟩

theorem indent_tabs (n : ℕ) : ∀ c ∈ List.replicate n '\t', isIndentChar c := by
  intro c hc
  rw [List.eq_of_mem_replicate hc]
  rfl

theorem tabsFor_tabs (n : ℕ) : tabsFor (List.replicate n '\t') = n := by
  rw [tabsFor, List.count_replicate_self, List.count_eq_zero_of_not_mem fun h => absurd (List.eq_of_mem_replicate h) (by decide)]
  rfl

theorem solid_append (ws : List Char) (hs : Solid s) : ∀ c ∈ (ws ++ s).getLast?, isSpaceChar c = false := by
  rw [List.getLast?_append_of_ne_nil _ hs.ne_nil]
  exact hs.last

/-- A line with an indentation of its own. -/
theorem normalizeLine_indent (ws : List Char) (hws : ∀ c ∈ ws, isIndentChar c) (hs : Solid s) : normalizeLine (ws ++ s) =
    if ['#', '#'].isPrefixOf s then List.replicate (tabsFor ws) '\t' ++ s
    else normalizeCommas (normalizeOperators (List.replicate (tabsFor ws) '\t' ++ s)) := by
  obtain ⟨htake, hdrop⟩ := takeWhile_indent ws hws hs
  have hindent : normalizeIndentation (stripTrailingWhitespace (ws ++ s)) = List.replicate (tabsFor ws) '\t' ++ s := by
    rw [strip_of_last (solid_append ws hs), normalizeIndentation, htake, hdrop]
    exact if_neg hs.ne_nil
  have hcomment : isComment (List.replicate (tabsFor ws) '\t' ++ s) = ['#', '#'].isPrefixOf s := by
    rw [isComment, (takeWhile_indent _ (indent_tabs _) hs).2]
  have hblank : isBlank (List.replicate (tabsFor ws) '\t' ++ s) = false := by
    rw [isBlank, List.all_eq_false]
    have hlast := List.getLast?_eq_some_getLast hs.ne_nil
    refine ⟨s.getLast hs.ne_nil, List.mem_append_right _ (List.getLast_mem _), ?_⟩
    rw [hs.last _ hlast]
    exact Bool.false_ne_true
  rw [normalizeLine, hindent, hcomment, hblank]
  cases ['#', '#'].isPrefixOf s <;> rfl

theorem normalizeLine_strip (line : Line) : normalizeLine line = normalizeLine (indentOf line ++ contentOf line) := by
  have hself : stripTrailingWhitespace (stripTrailingWhitespace line) = stripTrailingWhitespace line :=
    List.rdropWhile_idempotent _ _
  have hline : indentOf line ++ contentOf line = stripTrailingWhitespace line := List.takeWhile_append_dropWhile
  rw [normalizeLine, normalizeLine, hline, hself]

theorem normalizeLine_empty (h : contentOf line = []) : normalizeLine line = [] := by
  have hindent : normalizeIndentation (stripTrailingWhitespace line) = [] := if_pos h
  rw [normalizeLine, hindent]
  rfl

theorem isComment_texts (h : (a :: as).IsChain Sep) (hcomment : ['#', '#'].isPrefixOf (texts (a :: as))) :
    ∃ s, a = .comment s := by
  obtain ⟨t, ht⟩ := List.isPrefixOf_iff_prefix.mp hcomment
  rw [texts_cons, Atom.text] at ht
  have hhead : a.head = '#' := (List.cons.inj ht).1.symm
  have htail : a.tail ++ texts as = '#' :: t := (List.cons.inj ht).2.symm
  cases a with
  | comment s => exact ⟨s, rfl⟩
  | other c isOther =>
      have hnext : (texts as).head? = some '#' := by
        have htail : texts as = '#' :: t := htail
        rw [htail]
        rfl
      rw [head?_texts] at hnext
      obtain ⟨b, hb, hhash⟩ := Option.map_eq_some_iff.mp hnext
      exact absurd ⟨hhead, hhash⟩ ((List.isChain_cons.mp h).1 b hb).2
  | space | comma | assign => cases hhead
  | literal d closed s quote body =>
      have hd : d = '#' := hhead
      rw [hd] at quote
      cases quote
  | pair c d isPair =>
      have hc : c = '#' := hhead
      have hop := pair_first isPair
      rw [hc] at hop
      cases hop
  | sign c isSign =>
      have hc : c = '#' := hhead
      have hop := isSign.1
      rw [hc] at hop
      cases hop

theorem chain_tabs (n : ℕ) (h : as.IsChain Sep) : (List.replicate n tab ++ as).IsChain Sep := by
  induction n with
  | zero => exact h
  | succ n ih =>
      rw [List.replicate_succ, List.cons_append]
      exact List.isChain_cons.mpr ⟨fun b _ => ⟨trivial, fun hh => absurd hh.1 (by decide)⟩, ih⟩

theorem isIndentChar_head (h : isIndentChar a.head = false) : a ≠ .space := by
  rintro rfl
  cases h

theorem tabsFor_pos {ws : List Char} (hws : ∀ c ∈ ws, isIndentChar c) : 0 < tabsFor ws ↔ ws ≠ [] := by
  have hcount : ws.count '\t' + ws.count ' ' = ws.length := by
    induction ws with
    | nil => rfl
    | cons c ws ih =>
        obtain ⟨hc, hws⟩ := List.forall_mem_cons.mp hws
        have hc : c = ' ' ∨ c = '\t' := by simpa [isIndentChar] using hc
        have := ih hws
        rcases hc with rfl | rfl <;> simp <;> omega
  rw [← List.length_pos_iff, tabsFor, ← hcount]
  split <;> omega

theorem exists_first (hs : Solid s) (hnewline : '\n' ∉ s) : ∃ a as, texts (a :: as) = s ∧ (a :: as).IsChain Sep ∧ a ≠ .space := by
  obtain ⟨as, rfl, hchain⟩ := exists_atoms s hnewline
  cases as with
  | nil => exact absurd rfl hs.ne_nil
  | cons a as => exact ⟨a, as, rfl, hchain, isIndentChar_head (hs.head a.head rfl)⟩

/-- The first atom of a line is one of the operators that have spaces everywhere. -/
theorem opens_iff (h : (a :: as).IsChain Sep) :
    (a.head == '=' || (a.tail ++ texts as).head?.any (isPair a.head)) = a.isSpaced none := by
  have hplain : a.head ≠ '=' → (∀ c, (a.tail ++ texts as).head? = some c → isPair a.head c = false) →
      (a.head == '=' || (a.tail ++ texts as).head?.any (isPair a.head)) = false := by
    intro hne hpair
    rw [Bool.or_eq_false_iff, beq_eq_false_iff_ne, Option.any_eq_false]
    exact ⟨hne, fun c hc => by rw [hpair c hc]⟩
  have hquiet : isOperatorChar a.head = false →
      (a.head == '=' || (a.tail ++ texts as).head?.any (isPair a.head)) = false := by
    intro hop
    refine hplain (fun heq => by rw [heq] at hop; cases hop) fun c _ => Bool.eq_false_iff.mpr fun hpair => ?_
    rw [pair_first hpair] at hop
    cases hop
  cases a with
  | space | comma => exact hquiet rfl
  | comment s => exact hquiet (show isOperatorChar '#' = false by decide)
  | literal d closed s quote body =>
      have hd : d = '"' ∨ d = '\'' := by simpa [isQuote] using quote
      refine hquiet ?_
      rcases hd with rfl | rfl <;> rfl
  | other c isOther => exact hquiet isOther.2.2.2.2
  | assign => rfl
  | pair c d isPair =>
      show (c == '=' || Visuall.Lsp.isPair c d) = true
      rw [isPair, Bool.or_true]
  | sign c isSign =>
      refine hplain isSign.2 fun d hd => ?_
      have hd : (texts as).head? = some d := hd
      rw [head?_texts] at hd
      obtain ⟨b, hb, rfl⟩ := Option.map_eq_some_iff.mp hd
      exact ((List.isChain_cons.mp h).1 b hb).2

/-- A line of code behind `n` tabs. -/
theorem normalizeLine_code (n : ℕ) (hs : Solid (texts (a :: as))) (hchain : (a :: as).IsChain Sep) (ha : ∀ s, a ≠ .comment s) :
    normalizeLine (List.replicate n '\t' ++ texts (a :: as)) = texts (respace (List.replicate n tab ++ a :: as)) := by
  rw [normalizeLine_indent _ (indent_tabs n) hs, tabsFor_tabs, if_neg fun h => ?_]
  · rw [← texts_tabs, ← texts_append, normalize_texts (chain_tabs n hchain)]
  · obtain ⟨s, hs⟩ := isComment_texts hchain h
    exact ha s hs

theorem mem_operatorAtoms {b : Atom} {back : Option Char} (h : b ∈ operatorAtoms back as) : b = .space ∨ b ∈ as := by
  induction as generalizing back with
  | nil => cases h
  | cons a as ih =>
      have hcons : ∀ {back}, b ∈ operatorAtoms back as → b = .space ∨ b ∈ a :: as :=
        fun h => (ih h).imp_right (List.mem_cons_of_mem a)
      rw [operatorAtoms] at h
      split at h
      · rcases List.mem_append.mp h with h | h
        · rw [leadSpace] at h
          split at h
          · cases h
          · exact .inl (List.mem_singleton.mp h)
        rcases List.mem_cons.mp h with rfl | h
        · exact .inr List.mem_cons_self
        split at h
        · exact hcons h
        · exact (List.mem_cons.mp h).elim .inl hcons
      · rcases List.mem_cons.mp h with rfl | h
        · exact .inr List.mem_cons_self
        · exact hcons h

theorem mem_commaAtoms {b : Atom} {pend : ℕ} {skip : Bool} (h : b ∈ commaAtoms pend skip as) : b = .space ∨ b ∈ as := by
  induction as generalizing pend skip with
  | nil => exact .inl (List.eq_of_mem_replicate h)
  | cons a as ih =>
      have hcons : ∀ {pend skip}, b ∈ commaAtoms pend skip as → b = .space ∨ b ∈ a :: as :=
        fun h => (ih h).imp_right (List.mem_cons_of_mem a)
      by_cases hsp : a = .space
      · rw [hsp, commaAtoms] at h
        split at h <;> exact hcons h
      by_cases hco : a = .comma
      · rw [hco, commaAtoms] at h
        rcases List.mem_cons.mp h with rfl | h
        · exact .inr (hco ▸ List.mem_cons_self)
        split at h
        · cases h
        · exact hcons h
      rw [commaAtoms_atom ⟨hsp, hco⟩] at h
      rcases List.mem_append.mp h with h | h
      · exact .inl (List.eq_of_mem_replicate h)
      rcases List.mem_cons.mp h with rfl | h
      · exact .inr List.mem_cons_self
      · exact hcons h

theorem newline_notMem_respace (h : '\n' ∉ texts as) : '\n' ∉ texts (respace as) := by
  intro hmem
  obtain ⟨b, hb, hnewline⟩ := List.mem_flatMap.mp hmem
  have hb : b = .space ∨ b ∈ as := by
    rcases mem_commaAtoms hb with rfl | hb
    · exact .inl rfl
    · exact mem_operatorAtoms hb
  rcases hb with rfl | hb
  · exact absurd hnewline (by decide)
  · exact h (List.mem_flatMap.mpr ⟨b, hb, hnewline⟩)

theorem contentOf_ne_nil (h : isBlank line = false) : contentOf line ≠ [] := by
  intro hempty
  have hall : ∀ c ∈ stripTrailingWhitespace line, isIndentChar c := List.dropWhile_eq_nil_iff.mp hempty
  have hnil : stripTrailingWhitespace line = [] := by
    by_contra hne
    exact List.rdropWhile_last_not isSpaceChar line hne ((Bool.or_eq_true _ _).mpr (.inl (hall _ (List.getLast_mem hne))))
  have hblank : isBlank line = true := List.all_eq_true.mpr (List.rdropWhile_eq_nil_iff.mp hnil)
  rw [h] at hblank
  cases hblank

theorem contentOf_newline (h : '\n' ∉ line) : '\n' ∉ contentOf line := fun hmem => h <|
  (List.rdropWhile_prefix isSpaceChar line).subset ((List.dropWhile_suffix isIndentChar).subset hmem)

/-- The last character of a line stays the last. -/
theorem getLast?_normalizeLine (hline : '\n' ∉ line) (h : contentOf line ≠ []) :
    (normalizeLine line).getLast? = (contentOf line).getLast? ∧ '\n' ∉ normalizeLine line := by
  have hs := content_solid h
  have hws : ∀ c ∈ indentOf line, isIndentChar c := fun c hc => List.mem_takeWhile_imp hc
  obtain ⟨a, as, htexts, hchain, _⟩ := exists_first hs (contentOf_newline hline)
  have hnewline : '\n' ∉ List.replicate (tabsFor (indentOf line)) '\t' ++ contentOf line := by
    intro hmem
    rcases List.mem_append.mp hmem with hmem | hmem
    · exact absurd (List.eq_of_mem_replicate hmem) (by decide)
    · exact contentOf_newline hline hmem
  rw [normalizeLine_strip, normalizeLine_indent _ hws hs]
  split
  · exact ⟨List.getLast?_append_of_ne_nil _ h, hnewline⟩
  · rw [← htexts] at hs hnewline ⊢
    rw [← texts_tabs, ← texts_append] at hnewline ⊢
    have hend : (texts (List.replicate (tabsFor (indentOf line)) tab ++ a :: as)).getLast? ≠ some ' ' := fun hspace => by
      rw [texts_append] at hspace
      exact absurd (solid_append _ hs _ hspace) (by decide)
    have hlast := getLast?_respace hend
    rw [normalize_texts (chain_tabs _ hchain)]
    refine ⟨?_, newline_notMem_respace hnewline⟩
    rw [hlast, texts_append, List.getLast?_append_of_ne_nil _ hs.ne_nil]

/-- A line is formatted alike twice just when no operator opens it behind an indentation. -/
theorem normalizeLine_idem_iff (line : Line) (hline : '\n' ∉ line) :
    normalizeLine (normalizeLine line) = normalizeLine line ↔ opensWithOperator line = false := by
  by_cases hempty : contentOf line = []
  · rw [normalizeLine_empty hempty]
    refine iff_of_true rfl ?_
    rw [opensWithOperator, hempty]
    exact Bool.and_false _
  have hs := content_solid hempty
  have hws : ∀ c ∈ indentOf line, isIndentChar c := fun c hc => List.mem_takeWhile_imp hc
  obtain ⟨a, as, htexts, hchain, ha⟩ := exists_first hs (contentOf_newline hline)
  have hopens : opensWithOperator line = (!(indentOf line).isEmpty && a.isSpaced none) := by
    rw [opensWithOperator, ← htexts, ← opens_iff hchain]
    rfl
  have hfirst := normalizeLine_strip line
  rw [← htexts] at hs hfirst
  have hpos := tabsFor_pos hws
  rw [hfirst, hopens, normalizeLine_indent _ hws hs]
  generalize tabsFor (indentOf line) = n at hpos
  by_cases hcomment : ['#', '#'].isPrefixOf (texts (a :: as))
  · obtain ⟨s, rfl⟩ := isComment_texts hchain hcomment
    rw [if_pos hcomment, normalizeLine_indent _ (indent_tabs n) hs, if_pos hcomment, tabsFor_tabs]
    exact iff_of_true rfl (Bool.and_false _)
  have hnot : ∀ s, a ≠ .comment s := by
    rintro s rfl
    exact hcomment rfl
  rw [if_neg hcomment, ← texts_tabs, ← texts_append, normalize_texts (chain_tabs n hchain)]
  have hlast : ∀ c ∈ (texts (respace (List.replicate n tab ++ a :: as))).getLast?, isSpaceChar c = false := by
    rw [getLast?_respace]
    · rw [texts_append]
      exact solid_append _ hs
    · rw [texts_append]
      exact fun h => absurd (solid_append _ hs _ h) (by decide)
  have hsep := respace_sep (chain_tabs n hchain)
  have hidem := respace_idem (chain_tabs n hchain)
  have hsolid : ∀ ts bs, texts (respace (List.replicate n tab ++ a :: as)) = ts ++ texts (a :: bs) → Solid (texts (a :: bs)) :=
    fun ts bs heq => ⟨List.cons_ne_nil _ _, hs.head, fun c hc => hlast c <| by
      have hne : texts (a :: bs) ≠ [] := List.cons_ne_nil _ _
      rw [heq, List.getLast?_append_of_ne_nil _ hne]
      exact hc⟩
  by_cases hop : 0 < n ∧ a.isSpaced none
  · -- the second run takes the space for one more tab
    obtain ⟨hn, hspaced⟩ := hop
    obtain ⟨m, rfl⟩ : ∃ m, n = m + 1 := ⟨n - 1, by omega⟩
    obtain ⟨bs, hbs⟩ := respace_operator (n := m) hspaced as
    have htext : texts (respace (List.replicate (m + 1) tab ++ a :: as)) =
        List.replicate (m + 1) '\t' ++ [' '] ++ texts (a :: bs) := by
      rw [hbs, texts_append, texts_tabs, texts_cons, List.append_assoc]
      rfl
    have hindent : ∀ c ∈ List.replicate (m + 1) '\t' ++ [' '], isIndentChar c := by
      intro c hc
      rcases List.mem_append.mp hc with hc | hc
      · exact indent_tabs _ c hc
      · rw [List.mem_singleton.mp hc]
        rfl
    have htabs : tabsFor (List.replicate (m + 1) '\t' ++ [' ']) = m + 2 := by
      have hsp : (List.replicate (m + 1) '\t').count ' ' = 0 :=
        List.count_eq_zero_of_not_mem fun h => absurd (List.eq_of_mem_replicate h) (by decide)
      rw [tabsFor, List.count_append, List.count_append, List.count_replicate_self, hsp]
      rfl
    have hchain' : (a :: bs).IsChain Sep := by
      rw [hbs] at hsep
      exact hsep.right_of_append.tail
    obtain ⟨cs, hcs⟩ := respace_operator (n := m + 1) hspaced bs
    rw [htext, normalizeLine_indent _ hindent (hsolid _ bs htext), htabs, if_neg fun h => ?_]
    · rw [← texts_tabs, ← texts_append, normalize_texts (chain_tabs _ hchain'), hcs, texts_append, texts_tabs]
      refine iff_of_false (fun heq => ?_) ?_
      · have hat := congrArg (·[m + 1]?) heq
        simp [List.getElem?_append] at hat
      · rw [hspaced]
        simpa using hpos.mp hn
    · obtain ⟨s, rfl⟩ := isComment_texts hchain' h
      exact hnot s rfl
  · have hplain : n = 0 ∨ ¬ a.isSpaced none := by
      by_cases h : n = 0
      · exact .inl h
      · exact .inr fun hspaced => hop ⟨Nat.pos_of_ne_zero h, hspaced⟩
    obtain ⟨bs, hbs⟩ := respace_plain ha hplain as
    have htext : texts (respace (List.replicate n tab ++ a :: as)) = List.replicate n '\t' ++ texts (a :: bs) := by
      rw [hbs, texts_append, texts_tabs]
    have hchain' : (a :: bs).IsChain Sep := by
      rw [hbs] at hsep
      exact hsep.right_of_append
    refine iff_of_true ?_ ?_
    · rw [htext, normalizeLine_code n (hsolid _ bs htext) hchain' hnot, ← hbs, hidem, htext]
    · rw [Bool.and_eq_false_iff]
      rcases hplain with h | h
      · refine .inl ?_
        have hnil : indentOf line = [] := by
          by_contra hne
          exact absurd (hpos.mpr hne) (by omega)
        rw [hnil]
        rfl
      · exact .inr (Bool.eq_false_iff.mpr h)

end Indentation

end Visuall.Lsp
