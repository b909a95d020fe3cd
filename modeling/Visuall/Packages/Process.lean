import Visuall.Lib.CommandLine

/-!
# The command line of a process

`execProcess` of `tools/vslpkg/fetcher.cpp`, where it builds the command line for Windows: the program and every
argument stand in quotes, and a quote in an argument has a backslash in front of it.

* `commandLine` — the command line;
* `Plain` — an argument in which no backslash comes to stand in front of a quote;
* `roundTrips_iff` — exactly when the command line is taken apart into the program and the arguments.
-/

namespace Visuall.Packages

open CommandLine

/-! ## The command line -/

/-- The loop over the characters of an argument. -/
def escapeArg (arg : List Char) : List Char := arg.flatMap fun c => if c = '"' then ['\\', '"'] else [c]

/-- What is appended for an argument. -/
def quoteArg (arg : List Char) : List Char := ' ' :: '"' :: (escapeArg arg ++ ['"'])

/-- `cmdLine` of `execProcess`. -/
def commandLine (program : List Char) (args : List (List Char)) : List Char :=
  '"' :: (program ++ '"' :: args.flatMap quoteArg)

/-- **The program receives its arguments**, by either version of the rules. -/
def RoundTrips (pairs : Bool) (program : List Char) (args : List (List Char)) : Prop :=
  splitCommandLine pairs (commandLine program args) = program :: args

/-- No backslash is in front of a quote, and none at the end, where the closing quote will stand. -/
def Plain (arg : List Char) : Prop := (arg ++ ['"']).IsChain fun c d => c = '\\' → d ≠ '"'

instance : DecidablePred Plain := fun arg =>
  inferInstanceAs (Decidable ((arg ++ ['"']).IsChain fun c d => c = '\\' → d ≠ '"'))

/-- A last argument that ends with a backslash and a quote: with the closing quote they are a pair. -/
def EndsEscaped (arg : List Char) : Prop := ∃ b, arg = b ++ ['\\', '"'] ∧ Plain b

section Plain

variable {a : List Char} {c : Char} {n : ℕ}

theorem plain_nil : Plain [] := List.isChain_singleton _

theorem plain_cons : Plain (c :: a) ↔ (c = '\\' → a ≠ [] ∧ a.head? ≠ some '"') ∧ Plain a := by
  unfold Plain
  rw [List.cons_append, List.isChain_cons]
  refine and_congr_left fun _ => ?_
  cases a with
  | nil => simp
  | cons d a => simp

/-- Backslashes in front of another character. -/
theorem plain_slashes (hslash : c ≠ '\\') (hquote : c ≠ '"') : Plain (slashes n ++ c :: a) ↔ Plain a := by
  induction n with
  | zero => exact plain_cons.trans (and_iff_right fun h => absurd h hslash)
  | succ n ih =>
    refine plain_cons.trans ((and_iff_right fun _ => ⟨?_, ?_⟩).trans ih)
    · exact List.append_ne_nil_of_right_ne_nil _ (List.cons_ne_nil _ _)
    · cases n with
      | zero => simpa [slashes] using hquote
      | succ n => simp [List.replicate_succ]

theorem slashes_succ_append (n : ℕ) (a : List Char) : slashes n ++ '\\' :: a = slashes (n + 1) ++ a := by
  rw [slashes, slashes, List.replicate_succ', List.append_assoc]
  rfl

theorem endsEscaped_slashes (hslash : c ≠ '\\') (hquote : c ≠ '"') :
    EndsEscaped (slashes n ++ c :: a) ↔ EndsEscaped a := by
  constructor
  · rintro ⟨b, hb, hplain⟩
    rcases List.append_eq_append_iff.mp hb with ⟨b', rfl, hrest⟩ | ⟨t, -, hrest⟩
    · cases b' with
      | nil => exact absurd (List.cons.inj hrest).1 hslash
      | cons d b' =>
        obtain ⟨rfl, ha⟩ := List.cons.inj hrest
        exact ⟨b', ha, (plain_slashes hslash hquote).mp hplain⟩
    · have hmem : c ∈ ['\\', '"'] := by
        rw [hrest]
        exact List.mem_append_right _ List.mem_cons_self
      rcases List.mem_pair.mp hmem with h | h
      · exact absurd h hslash
      · exact absurd h hquote
  · rintro ⟨b, rfl, hplain⟩
    exact ⟨slashes n ++ c :: b, by rw [List.append_assoc, List.cons_append], (plain_slashes hslash hquote).mpr hplain⟩

theorem plain_quote : Plain ('"' :: a) ↔ Plain a := plain_cons.trans (and_iff_right fun h => absurd h (by decide))

theorem endsEscaped_quote : EndsEscaped ('"' :: a) ↔ EndsEscaped a := by
  constructor
  · rintro ⟨b, hb, hplain⟩
    cases b with
    | nil => exact absurd (List.cons.inj hb).1 (by decide)
    | cons d b =>
      obtain ⟨rfl, ha⟩ := List.cons.inj hb
      exact ⟨b, ha, plain_quote.mp hplain⟩
  · rintro ⟨b, rfl, hplain⟩
    exact ⟨'"' :: b, rfl, plain_quote.mpr hplain⟩

theorem not_plain_slash_quote (a : List Char) : ¬ Plain ('\\' :: '"' :: a) := fun h => ((plain_cons.mp h).1 rfl).2 rfl

theorem plain_of_append {u v : List Char} (h : Plain (u ++ v)) : Plain v := by
  rw [Plain, List.append_assoc] at h
  exact (List.isChain_append.mp h).2.1

/-- Backslashes at the end. -/
theorem not_plain_slashes (n : ℕ) : ¬ Plain (slashes (n + 1)) := by
  intro h
  rw [← List.append_nil (slashes (n + 1)), ← slashes_succ_append] at h
  exact absurd rfl ((plain_cons.mp (plain_of_append h)).1 rfl).1

/-- A backslash and a quote must be the last two characters. -/
theorem endsEscaped_slash_quote : EndsEscaped ('\\' :: '"' :: a) ↔ a = [] := by
  constructor
  · rintro ⟨b, hb, hplain⟩
    match b with
    | [] => exact (List.cons.inj (List.cons.inj hb).2).2
    | [_] => exact absurd (List.cons.inj (List.cons.inj hb).2).1 (by decide)
    | d :: e :: b =>
      have hd := (List.cons.inj hb).1
      have he := (List.cons.inj (List.cons.inj hb).2).1
      rw [← hd, ← he] at hplain
      exact absurd hplain (not_plain_slash_quote b)
  · rintro rfl
    exact ⟨[], rfl, plain_nil⟩

end Plain

/-! ## How many backslashes are left -/

/-- The backslashes that are left of an argument and its closing quote, where so many have been seen. -/
def argSlashes : ℕ → List Char → ℕ
  | n, [] => n / 2
  | n, c :: a =>
    if c = '\\' then argSlashes (n + 1) a else if c = '"' then (n + 1) / 2 + argSlashes 0 a else n + argSlashes 0 a

/-- At most one backslash in front of each quote, and none at the end. -/
def Single : ℕ → List Char → Prop
  | n, [] => n = 0
  | n, c :: a => if c = '\\' then Single (n + 1) a else if c = '"' then n ≤ 1 ∧ Single 0 a else Single 0 a

section Slashes

variable {a : List Char} {args : List (List Char)} {n : ℕ}

theorem escapeArg_cons (c : Char) (a : List Char) :
    escapeArg (c :: a) = (if c = '"' then ['\\', '"'] else [c]) ++ escapeArg a := rfl

theorem slashesLeft_escapeArg (n : ℕ) (a s : List Char) :
    slashesLeft n (escapeArg a ++ '"' :: s) = argSlashes n a + slashesLeft 0 s := by
  induction a generalizing n with
  | nil =>
    show slashesLeft n ('"' :: s) = _
    rw [slashesLeft, if_neg (by decide), if_pos rfl, argSlashes]
  | cons c a ih =>
    rw [escapeArg_cons, argSlashes]
    by_cases hslash : c = '\\'
    · subst hslash
      rw [if_neg (by decide), if_pos rfl, List.append_assoc, List.singleton_append, slashesLeft, if_pos rfl, ih]
    · rw [if_neg hslash]
      by_cases hquote : c = '"'
      · subst hquote
        rw [if_pos rfl, if_pos rfl, List.append_assoc]
        show slashesLeft n ('\\' :: '"' :: (escapeArg a ++ '"' :: s)) = _
        rw [slashesLeft, if_pos rfl, slashesLeft, if_neg (by decide), if_pos rfl, ih, Nat.add_assoc]
      · rw [if_neg hquote, if_neg hquote, List.append_assoc, List.singleton_append, slashesLeft, if_neg hslash,
          if_neg hquote, ih, Nat.add_assoc]

theorem slashesLeft_quoteArgs (args : List (List Char)) :
    slashesLeft 0 (args.flatMap quoteArg) = (args.map (argSlashes 0)).sum := by
  induction args with
  | nil => rfl
  | cons a args ih =>
    rw [List.flatMap_cons, List.map_cons, List.sum_cons, ← ih]
    show slashesLeft 0 (' ' :: '"' :: (escapeArg a ++ ['"'] ++ args.flatMap quoteArg)) = _
    rw [slashesLeft, if_neg (by decide), if_neg (by decide), slashesLeft, if_neg (by decide), if_pos rfl,
      List.append_assoc, List.singleton_append, slashesLeft_escapeArg]
    omega

/-- **Backslashes are lost**, unless there is at most one in front of a quote. -/
theorem argSlashes_le (n : ℕ) (a : List Char) :
    argSlashes n a ≤ n + a.count '\\' ∧ (argSlashes n a = n + a.count '\\' → Single n a) := by
  induction a generalizing n with
  | nil =>
    rw [argSlashes, List.count_nil, Single]
    omega
  | cons c a ih =>
    rw [argSlashes, Single]
    by_cases hslash : c = '\\'
    · subst hslash
      have h := ih (n + 1)
      rw [if_pos rfl, if_pos rfl, List.count_cons_self]
      refine ⟨by omega, fun heq => h.2 (by omega)⟩
    · have h := ih 0
      rw [if_neg hslash, if_neg hslash, List.count_cons_of_ne hslash]
      by_cases hquote : c = '"'
      · rw [if_pos hquote, if_pos hquote]
        exact ⟨by omega, fun heq => ⟨by omega, h.2 (by omega)⟩⟩
      · rw [if_neg hquote, if_neg hquote]
        exact ⟨by omega, fun heq => h.2 (by omega)⟩

/-- Arguments that come out with all their backslashes. -/
theorem single_of_sum (h : (args.map (argSlashes 0)).sum = args.flatten.count '\\') : ∀ a ∈ args, Single 0 a := by
  have hle : ∀ args : List (List Char), (args.map (argSlashes 0)).sum ≤ args.flatten.count '\\' := by
    intro args
    induction args with
    | nil => exact Nat.zero_le _
    | cons a args ih =>
      have ha := (argSlashes_le 0 a).1
      rw [List.map_cons, List.sum_cons, List.flatten_cons, List.count_append]
      omega
  induction args with
  | nil => exact fun a ha => absurd ha List.not_mem_nil
  | cons a args ih =>
    have ha := argSlashes_le 0 a
    have hargs := hle args
    rw [List.map_cons, List.sum_cons, List.flatten_cons, List.count_append] at h
    refine List.forall_mem_cons.mpr ⟨ha.2 (by omega), ih (by omega)⟩

/-- Several backslashes in front of a quote. -/
theorem not_endsEscaped_slashes (n : ℕ) (a : List Char) : ¬ EndsEscaped (slashes (n + 2) ++ '"' :: a) := by
  rintro ⟨b, hb, hplain⟩
  rw [← slashes_succ_append] at hb
  rcases List.append_eq_append_iff.mp hb with ⟨b', rfl, hrest⟩ | ⟨t, hslashes, hrest⟩
  · match b' with
    | [] =>
      rw [List.append_nil] at hplain
      exact not_plain_slashes n hplain
    | [_] => exact absurd (List.cons.inj (List.cons.inj hrest).2).1 (by decide)
    | d :: e :: b' =>
      have hd := (List.cons.inj hrest).1
      have he := (List.cons.inj (List.cons.inj hrest).2).1
      have hsuffix := plain_of_append hplain
      rw [← hd, ← he] at hsuffix
      exact not_plain_slash_quote b' hsuffix
  · have ht : t = [] := by
      have hlength := congrArg List.length hrest
      simp only [List.length_append, List.length_cons, List.length_nil] at hlength
      exact List.eq_nil_of_length_eq_zero (by omega)
    rw [ht, List.append_nil] at hslashes
    rw [← hslashes] at hplain
    exact not_plain_slashes n hplain

theorem single_of_plain (h : Plain (slashes n ++ a) ∨ EndsEscaped (slashes n ++ a)) : Single n a := by
  induction a generalizing n with
  | nil =>
    cases n with
    | zero => rfl
    | succ n =>
      rw [List.append_nil] at h
      rcases h with h | ⟨b, hb, -⟩
      · exact absurd h (not_plain_slashes n)
      · have hlast := congrArg List.getLast? hb
        rw [slashes, List.replicate_succ', List.getLast?_append, List.getLast?_append] at hlast
        cases hlast
  | cons c a ih =>
    rw [Single]
    by_cases hslash : c = '\\'
    · subst hslash
      rw [slashes_succ_append] at h
      rw [if_pos rfl]
      exact ih h
    · rw [if_neg hslash]
      by_cases hquote : c = '"'
      · subst hquote
        rw [if_pos rfl]
        have hnot : ∀ n, ¬ Plain (slashes (n + 1) ++ '"' :: a) := by
          intro n hplain
          rw [← slashes_succ_append] at hplain
          exact not_plain_slash_quote a (plain_of_append hplain)
        rcases n with _ | _ | n
        · exact ⟨Nat.zero_le _, ih (h.imp plain_quote.mp endsEscaped_quote.mp)⟩
        · rw [endsEscaped_slash_quote.mp (h.resolve_left (hnot 0))]
          exact ⟨le_rfl, rfl⟩
        · exact absurd (h.resolve_left (hnot (n + 1))) (not_endsEscaped_slashes n a)
      · rw [if_neg hquote]
        exact ih (h.imp (plain_slashes hslash hquote).mp (endsEscaped_slashes hslash hquote).mp)

end Slashes

/-! ## One argument -/

/-- What stands behind the closing quote of an argument: nothing, or a blank. -/
def AfterQuote (tail : List Char) : Prop := tail = [] ∨ ∃ s, tail = ' ' :: s

section Argument

variable {pairs : Bool} {read a tail : List Char} {rest : List (List Char)} {n : ℕ}

theorem prefix_clash {read u v : List Char} {x y : Char} (h : read ++ x :: u <+: read ++ y :: v) : x = y :=
  (List.cons_prefix_cons.mp ((List.prefix_append_right_inj read).mp h)).1

/-- An argument that has begun with another character than it should. -/
theorem ne_of_begins {quoted : Bool} {x y : Char} {s u : List Char} (hne : x ≠ y) (m : ℕ) :
    splitArgs pairs quoted (some (read ++ [x])) m s ≠ (read ++ y :: u) :: rest := by
  intro h
  obtain ⟨head, t, heq, hprefix⟩ := exists_head pairs s quoted (read ++ [x]) m
  obtain ⟨rfl, -⟩ := List.cons.inj (heq.symm.trans h)
  rw [List.append_assoc] at hprefix
  exact hne (prefix_clash hprefix)

/-- An argument that has begun with a backslash that should be a quote. -/
theorem ne_of_slashes {quoted : Bool} {s u : List Char} {m : ℕ} (hm : 2 ≤ m) :
    splitArgs pairs quoted (some read) m s ≠ (read ++ '"' :: u) :: rest := by
  intro h
  obtain ⟨head, t, heq, hprefix⟩ := exists_head pairs s quoted read m
  obtain ⟨rfl, -⟩ := List.cons.inj (heq.symm.trans h)
  obtain ⟨k, hk⟩ : ∃ k, m / 2 = k + 1 := ⟨m / 2 - 1, by omega⟩
  rw [hk] at hprefix
  exact absurd (prefix_clash hprefix) (by decide)

theorem pair_none (htail : AfterQuote tail) (quoted : Bool) : (pairs && quoted && tail.head? = some '"') = false := by
  rcases htail with rfl | ⟨s, rfl⟩ <;> simp

/-- Outside quotes, with a backslash in front, an argument cannot go on with a quote and something behind it. -/
theorem ne_unquoted_slash (htail : AfterQuote tail) (a : List Char) (n : ℕ) (u : List Char) (hu : u ≠ []) :
    splitArgs pairs false (some read) (n + 1) (escapeArg a ++ '"' :: tail) ≠ (read ++ '"' :: u) :: rest := by
  induction a generalizing n with
  | nil =>
    show splitArgs pairs false (some read) (n + 1) ('"' :: tail) ≠ _
    cases n with
    | succ n => exact ne_of_slashes (by omega)
    | zero =>
      rw [split_quote_odd rfl]
      show splitArgs pairs false (some (read ++ [] ++ ['"'])) 0 tail ≠ _
      rw [List.append_nil]
      have hread : read ++ ['"'] ≠ read ++ '"' :: u := fun h => hu (List.cons.inj (List.append_cancel_left h)).2.symm
      rcases htail with rfl | ⟨s, rfl⟩
      · rw [split_nil]
        intro h
        exact hread ((List.append_nil _).symm.trans (List.cons.inj h).1)
      · rw [split_blank rfl]
        intro h
        exact hread ((List.append_nil _).symm.trans (List.cons.inj h).1)
  | cons c a ih =>
    rw [escapeArg_cons]
    by_cases hslash : c = '\\'
    · subst hslash
      rw [if_neg (by decide), List.append_assoc, List.singleton_append, split_slash]
      exact ih (n + 1)
    · by_cases hquote : c = '"'
      · rw [if_pos hquote, List.append_assoc]
        show splitArgs pairs false (some read) (n + 1) ('\\' :: '"' :: (escapeArg a ++ '"' :: tail)) ≠ _
        rw [split_slash]
        exact ne_of_slashes (by omega)
      · rw [if_neg hquote, List.append_assoc, List.singleton_append]
        have hslashes : ∀ s : List Char, read ++ slashes (n + 1) ++ s = read ++ '\\' :: (slashes n ++ s) := by
          intro s
          rw [List.append_assoc]
          rfl
        cases hblank : isBlank c with
        | true =>
          rw [split_blank hblank]
          intro h
          have hhead := (List.cons.inj h).1
          exact absurd (List.cons.inj (List.append_cancel_left hhead)).1 (by decide)
        | false =>
          rw [split_char hslash hquote (by rw [hblank]; rfl)]
          intro h
          obtain ⟨head, t, heq, hprefix⟩ := exists_head pairs (escapeArg a ++ '"' :: tail) false
            (read ++ slashes (n + 1) ++ [c]) 0
          obtain ⟨rfl, -⟩ := List.cons.inj (heq.symm.trans h)
          rw [List.append_assoc, hslashes] at hprefix
          exact absurd (prefix_clash hprefix) (by decide)

/-- **Outside quotes an argument cannot go on with a quote** and what is still to come of it. -/
theorem ne_unquoted (htail : AfterQuote tail) (a : List Char) :
    splitArgs pairs false (some read) 0 (escapeArg a ++ '"' :: tail) ≠ (read ++ '"' :: a) :: rest := by
  induction a generalizing read with
  | nil =>
    show splitArgs pairs false (some read) 0 ('"' :: tail) ≠ _
    rw [split_quote_even rfl (pair_none htail false)]
    show splitArgs pairs true (some (read ++ [])) 0 tail ≠ _
    rw [List.append_nil]
    rcases htail with rfl | ⟨s, rfl⟩
    · rw [split_nil]
      intro h
      exact absurd (List.append_cancel_left (List.cons.inj h).1) (by decide)
    · rw [split_char (by decide) (by decide) (by decide)]
      show splitArgs pairs true (some (read ++ [] ++ [' '])) 0 s ≠ _
      rw [List.append_nil]
      exact ne_of_begins (by decide) 0
  | cons c a ih =>
    rw [escapeArg_cons]
    by_cases hslash : c = '\\'
    · subst hslash
      rw [if_neg (by decide), List.append_assoc, List.singleton_append, split_slash]
      exact ne_unquoted_slash htail a 0 _ (List.cons_ne_nil _ _)
    · by_cases hquote : c = '"'
      · subst hquote
        rw [if_pos rfl, List.append_assoc]
        show splitArgs pairs false (some read) 0 ('\\' :: '"' :: (escapeArg a ++ '"' :: tail)) ≠ _
        rw [split_slash, split_quote_odd rfl]
        show splitArgs pairs false (some (read ++ [] ++ ['"'])) 0 _ ≠ _
        rw [List.append_nil]
        have hnext := @ih (read ++ ['"'])
        rwa [List.append_assoc, List.singleton_append] at hnext
      · rw [if_neg hquote, List.append_assoc, List.singleton_append]
        cases hblank : isBlank c with
        | true =>
          rw [split_blank hblank]
          intro h
          have hhead : read ++ [] = read ++ '"' :: c :: a := (List.cons.inj h).1
          exact absurd (List.append_cancel_left hhead) nofun
        | false =>
          rw [split_char hslash hquote (by rw [hblank]; rfl)]
          show splitArgs pairs false (some (read ++ [] ++ [c])) 0 _ ≠ _
          rw [List.append_nil]
          exact ne_of_begins hquote 0

/-- A quote with one backslash in front: the closing quote and it are a pair, if that is the end. -/
theorem split_slash_quote_iff (htail : AfterQuote tail) (a : List Char) :
    splitArgs pairs true (some read) 1 (escapeArg ('"' :: a) ++ '"' :: tail) = (read ++ '\\' :: '"' :: a) :: rest ↔
      a = [] ∧ pairs = true ∧ tail = [] ∧ rest = [] := by
  have hstep : splitArgs pairs true (some read) 1 (escapeArg ('"' :: a) ++ '"' :: tail) =
      splitArgs pairs true (some read) 2 ('"' :: (escapeArg a ++ '"' :: tail)) := by
    rw [escapeArg_cons, if_pos rfl]
    exact split_slash
  have htarget : read ++ '\\' :: '"' :: a = (read ++ ['\\']) ++ '"' :: a := by rw [List.append_assoc]; rfl
  rw [hstep]
  cases a with
  | cons c a =>
    refine iff_of_false (fun h => ?_) fun h => absurd h.1 (List.cons_ne_nil _ _)
    have hpair : (pairs && true && (escapeArg (c :: a) ++ '"' :: tail).head? = some '"') = false := by
      rw [escapeArg_cons]
      by_cases hquote : c = '"'
      · rw [if_pos hquote]
        simp
      · rw [if_neg hquote]
        simp [hquote]
    rw [split_quote_even rfl hpair, htarget] at h
    exact ne_unquoted htail (c :: a) h
  | nil =>
    show splitArgs pairs true (some read) 2 ('"' :: '"' :: tail) = _ ↔ _
    cases pairs with
    | true =>
      rw [split_quote_pair rfl, htarget]
      show splitArgs true true (some (read ++ ['\\'] ++ ['"'])) 0 tail = _ ↔ _
      rcases htail with rfl | ⟨s, rfl⟩
      · rw [split_nil]
        show [read ++ ['\\'] ++ ['"'] ++ []] = _ ↔ _
        rw [List.append_nil]
        simp [eq_comm]
      · rw [split_char (by decide) (by decide) (by decide)]
        refine iff_of_false (fun h => ?_) fun h => absurd h.2.2.1 (List.cons_ne_nil _ _)
        obtain ⟨head, t, heq, hprefix⟩ := exists_head true s true (read ++ ['\\'] ++ ['"'] ++ slashes 0 ++ [' ']) 0
        obtain ⟨rfl, -⟩ := List.cons.inj (heq.symm.trans h)
        have hle := hprefix.length_le
        simp [slashes] at hle
    | false =>
      refine iff_of_false (fun h => ?_) fun h => absurd h.2.1 Bool.false_ne_true
      rw [split_quote_even rfl rfl, htarget] at h
      change splitArgs false false (some (read ++ ['\\'])) 0 ('"' :: tail) = _ at h
      rw [split_quote_even rfl (pair_none htail false)] at h
      change splitArgs false true (some (read ++ ['\\'] ++ [])) 0 tail = _ at h
      rw [List.append_nil] at h
      rcases htail with rfl | ⟨s, rfl⟩
      · rw [split_nil] at h
        exact absurd (List.append_cancel_left (List.cons.inj h).1) (by decide)
      · rw [split_char (by decide) (by decide) (by decide)] at h
        change splitArgs false true (some (read ++ ['\\'] ++ [] ++ [' '])) 0 s = _ at h
        rw [List.append_nil] at h
        exact ne_of_begins (by decide) 0 h

/-- **One argument**, of which a part has been read, is the first that comes out and what is behind it the others. -/
theorem split_arg_iff (htail : AfterQuote tail) (hsingle : Single n a) :
    splitArgs pairs true (some read) n (escapeArg a ++ '"' :: tail) = (read ++ slashes n ++ a) :: rest ↔
      Plain (slashes n ++ a) ∧
        splitArgs pairs false (some (read ++ slashes n ++ a)) 0 tail = (read ++ slashes n ++ a) :: rest ∨
      EndsEscaped (slashes n ++ a) ∧ pairs = true ∧ tail = [] ∧ rest = [] := by
  induction a generalizing n read with
  | nil =>
    cases hsingle
    have hnot : ¬ EndsEscaped (slashes 0 ++ []) := by
      rintro ⟨b, hb, -⟩
      exact absurd hb.symm (List.append_ne_nil_of_right_ne_nil _ (List.cons_ne_nil _ _))
    show splitArgs pairs true (some read) 0 ('"' :: tail) = _ ↔ _
    rw [split_quote_even rfl (pair_none htail true)]
    show splitArgs pairs false (some (read ++ [])) 0 tail = (read ++ [] ++ []) :: rest ↔ _
    rw [List.append_nil, List.append_nil, or_iff_left fun h => hnot h.1]
    show _ ↔ Plain [] ∧ splitArgs pairs false (some (read ++ [] ++ [])) 0 tail = (read ++ [] ++ []) :: rest
    rw [List.append_nil, List.append_nil]
    exact (and_iff_right plain_nil).symm
  | cons c a ih =>
    rw [Single] at hsingle
    by_cases hslash : c = '\\'
    · subst hslash
      rw [if_pos rfl] at hsingle
      have hnext := @ih read (n + 1) hsingle
      rw [List.append_assoc, ← slashes_succ_append, ← List.append_assoc] at hnext
      rw [escapeArg_cons, if_neg (by decide), List.append_assoc, List.singleton_append, split_slash]
      exact hnext
    · rw [if_neg hslash] at hsingle
      by_cases hquote : c = '"'
      · subst hquote
        rw [if_pos rfl] at hsingle
        obtain ⟨hn, hsingle⟩ := hsingle
        rcases Nat.le_one_iff_eq_zero_or_eq_one.mp hn with rfl | rfl
        · have hnext := @ih (read ++ ['"']) 0 hsingle
          have hread : read ++ ['"'] ++ slashes 0 ++ a = read ++ slashes 0 ++ '"' :: a := by simp [slashes]
          have hplain : Plain (slashes 0 ++ '"' :: a) ↔ Plain (slashes 0 ++ a) := plain_quote
          have hends : EndsEscaped (slashes 0 ++ '"' :: a) ↔ EndsEscaped (slashes 0 ++ a) := endsEscaped_quote
          rw [hread, ← hplain, ← hends] at hnext
          rw [← hnext, escapeArg_cons, if_pos rfl, List.append_assoc]
          show splitArgs pairs true (some read) 0 ('\\' :: '"' :: (escapeArg a ++ '"' :: tail)) = _ ↔ _
          rw [split_slash, split_quote_odd rfl]
          show splitArgs pairs true (some (read ++ [] ++ ['"'])) 0 _ = _ ↔ _
          rw [List.append_nil]
        · have hplain : ¬ Plain (slashes 1 ++ '"' :: a) := not_plain_slash_quote a
          have hends : EndsEscaped (slashes 1 ++ '"' :: a) ↔ a = [] := endsEscaped_slash_quote
          rw [or_iff_right fun h => hplain h.1, hends, List.append_assoc]
          exact split_slash_quote_iff htail a
      · rw [if_neg hquote] at hsingle
        have hnext := @ih (read ++ slashes n ++ [c]) 0 hsingle
        have hread : read ++ slashes n ++ [c] ++ slashes 0 ++ a = read ++ slashes n ++ c :: a := by simp [slashes]
        have hplain : Plain (slashes n ++ c :: a) ↔ Plain (slashes 0 ++ a) := plain_slashes hslash hquote
        have hends : EndsEscaped (slashes n ++ c :: a) ↔ EndsEscaped (slashes 0 ++ a) := endsEscaped_slashes hslash hquote
        rw [hread, ← hplain, ← hends] at hnext
        rw [← hnext, escapeArg_cons, if_neg hquote, List.append_assoc, List.singleton_append,
          split_char hslash hquote (by rw [Bool.not_true, Bool.and_false])]

end Argument

/-! ## All arguments -/

section Arguments

variable {pairs : Bool}

/-- **The condition**: no backslash comes to stand in front of a quote; where two quotes are one, the last argument
may end with a single backslash and a quote. -/
def Quotable (pairs : Bool) (args : List (List Char)) : Prop :=
  (∀ a ∈ args, Plain a) ∨
    pairs = true ∧ ∃ init a, args = init ++ [a ++ ['\\', '"']] ∧ (∀ b ∈ init, Plain b) ∧ Plain a

theorem quotable_cons (a : List Char) (args : List (List Char)) :
    Quotable pairs (a :: args) ↔ Plain a ∧ Quotable pairs args ∨ EndsEscaped a ∧ pairs = true ∧ args = [] := by
  constructor
  · rintro (h | ⟨hpairs, init, b, hargs, hinit, hb⟩)
    · obtain ⟨ha, hrest⟩ := List.forall_mem_cons.mp h
      exact .inl ⟨ha, .inl hrest⟩
    · cases init with
      | nil =>
        obtain ⟨rfl, rfl⟩ := List.cons.inj hargs
        exact .inr ⟨⟨b, rfl, hb⟩, hpairs, rfl⟩
      | cons d init =>
        obtain ⟨rfl, rfl⟩ := List.cons.inj hargs
        obtain ⟨ha, hrest⟩ := List.forall_mem_cons.mp hinit
        exact .inl ⟨ha, .inr ⟨hpairs, init, b, rfl, hrest, hb⟩⟩
  · rintro (⟨ha, h | ⟨hpairs, init, b, rfl, hinit, hb⟩⟩ | ⟨⟨b, rfl, hb⟩, hpairs, rfl⟩)
    · exact .inl (List.forall_mem_cons.mpr ⟨ha, h⟩)
    · exact .inr ⟨hpairs, a :: init, b, rfl, List.forall_mem_cons.mpr ⟨ha, hinit⟩, hb⟩
    · exact .inr ⟨hpairs, [], b, rfl, fun _ h => absurd h List.not_mem_nil, hb⟩

theorem single_of_quotable {args : List (List Char)} (h : Quotable pairs args) : ∀ a ∈ args, Single 0 a := by
  induction args with
  | nil => exact fun a ha => absurd ha List.not_mem_nil
  | cons a args ih =>
    rcases (quotable_cons a args).mp h with ⟨ha, hargs⟩ | ⟨ha, -, rfl⟩
    · exact List.forall_mem_cons.mpr ⟨single_of_plain (.inl ha), ih hargs⟩
    · exact List.forall_mem_cons.mpr ⟨single_of_plain (.inr ha), fun _ h => absurd h List.not_mem_nil⟩

/-- The arguments come out one after another. -/
theorem split_args_iff {args : List (List Char)} (hsingle : ∀ a ∈ args, Single 0 a) :
    splitArgs pairs false none 0 (args.flatMap quoteArg) = args ↔ Quotable pairs args := by
  induction args with
  | nil => exact iff_of_true (by rw [List.flatMap_nil, splitArgs]) (.inl fun _ h => absurd h List.not_mem_nil)
  | cons a args ih =>
    obtain ⟨ha, hargs⟩ := List.forall_mem_cons.mp hsingle
    have htail : AfterQuote (args.flatMap quoteArg) := by
      cases args with
      | nil => exact .inl rfl
      | cons b args => exact .inr ⟨_, rfl⟩
    have hnil : args.flatMap quoteArg = [] ↔ args = [] := by
      cases args with
      | nil => exact iff_of_true rfl rfl
      | cons b args => exact iff_of_false (List.cons_ne_nil _ _) (List.cons_ne_nil _ _)
    have hrest : splitArgs pairs false (some a) 0 (args.flatMap quoteArg) =
        a :: splitArgs pairs false none 0 (args.flatMap quoteArg) := by
      rcases htail with htail | ⟨s, htail⟩
      · rw [htail, split_nil, splitArgs]
        exact congrArg (· :: []) (List.append_nil a)
      · rw [htail, split_blank rfl, split_skip rfl]
        exact congrArg (· :: _) (List.append_nil a)
    have hone := @split_arg_iff pairs [] a _ args 0 htail ha
    change splitArgs pairs true (some []) 0 _ = a :: args ↔
      Plain a ∧ splitArgs pairs false (some a) 0 _ = a :: args ∨ EndsEscaped a ∧ _ at hone
    rw [quotable_cons, ← ih hargs, List.flatMap_cons]
    show splitArgs pairs false none 0 (' ' :: '"' :: (escapeArg a ++ ['"'] ++ args.flatMap quoteArg)) = _ ↔ _
    rw [split_skip rfl, split_begin, List.append_assoc, List.singleton_append, hone, hrest, hnil, List.cons_inj_right,
      and_self]

/-- The program is read up to its closing quote. -/
theorem splitProgram_quoted {program : List Char} (h : '"' ∉ program) (s : List Char) :
    splitProgram true (program ++ '"' :: s) = (program ++ (splitProgram false s).1, (splitProgram false s).2) := by
  induction program with
  | nil => rw [List.nil_append, splitProgram, if_pos rfl, Bool.not_true, List.nil_append]
  | cons c program ih =>
    obtain ⟨hc, hrest⟩ := not_or.mp (List.mem_cons.not.mp h)
    rw [List.cons_append, splitProgram, if_neg (Ne.symm hc), Bool.not_true, Bool.and_false, if_neg Bool.false_ne_true,
      ih hrest]
    rfl

/-- What is behind the name of the program. -/
theorem splitCommandLine_commandLine {program : List Char} (h : '"' ∉ program) (args : List (List Char)) :
    splitCommandLine pairs (commandLine program args) = program :: splitArgs pairs false none 0 (args.flatMap quoteArg) := by
  have hquoted : splitProgram false (commandLine program args) = (program ++ (splitProgram false (args.flatMap quoteArg)).1,
      (splitProgram false (args.flatMap quoteArg)).2) := by
    rw [commandLine, splitProgram, if_pos rfl]
    exact splitProgram_quoted h _
  rw [splitCommandLine, hquoted]
  cases args with
  | nil =>
    rw [List.flatMap_nil, splitProgram, List.append_nil]
  | cons a args =>
    have hblank : splitProgram false ((a :: args).flatMap quoteArg) = ([], ((a :: args).flatMap quoteArg).tail) := rfl
    have hskip : splitArgs pairs false none 0 ((a :: args).flatMap quoteArg) =
        splitArgs pairs false none 0 ((a :: args).flatMap quoteArg).tail := split_skip rfl
    rw [hblank, hskip, List.append_nil]

/-- Where the arguments come out, all their backslashes do. -/
theorem single_of_roundTrips {program : List Char} (hprogram : '"' ∉ program) {args : List (List Char)}
    (h : RoundTrips pairs program args) : ∀ a ∈ args, Single 0 a := by
  rw [RoundTrips, splitCommandLine_commandLine hprogram, List.cons_inj_right] at h
  have hcount := count_splitArgs pairs (args.flatMap quoteArg) false none 0 fun _ => rfl
  rw [h, slashesLeft_quoteArgs] at hcount
  exact single_of_sum (hcount.trans (Nat.zero_add _)).symm

end Arguments

/-- **Command lines round trip exactly when the arguments are quotable**, for every program and all arguments. -/
theorem roundTrips_iff (pairs : Bool) {program : List Char} (hprogram : '"' ∉ program) (args : List (List Char)) :
    RoundTrips pairs program args ↔ Quotable pairs args := by
  have hparts : RoundTrips pairs program args ↔ splitArgs pairs false none 0 (args.flatMap quoteArg) = args := by
    rw [RoundTrips, splitCommandLine_commandLine hprogram, List.cons_inj_right]
  constructor
  · intro h
    exact (split_args_iff (single_of_roundTrips hprogram h)).mp (hparts.mp h)
  · intro h
    exact hparts.mpr ((split_args_iff (single_of_quotable h)).mpr h)

/-- `git clone https://example.org/x` as a command line. -/
theorem roundTrips_clone : RoundTrips false "git".toList ["clone".toList, "https://example.org/x".toList] :=
  (roundTrips_iff false (by decide) _).mpr (.inl (by decide))

/-- **A directory with a backslash at its end** takes the next argument in. -/
theorem not_roundTrips_trailing : ¬ RoundTrips false "git".toList ["C:\\work\\".toList, "tag".toList] ∧
    ¬ RoundTrips true "git".toList ["C:\\work\\".toList, "tag".toList] := by
  have hnot : ¬ Single 0 "C:\\work\\".toList := by simp [Single]
  exact ⟨fun h => hnot (single_of_roundTrips (by decide) h _ List.mem_cons_self),
    fun h => hnot (single_of_roundTrips (by decide) h _ List.mem_cons_self)⟩

end Visuall.Packages
