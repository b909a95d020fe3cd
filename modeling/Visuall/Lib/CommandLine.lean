import Mathlib

/-!
# Command lines taken apart

The rules by which a program on Windows takes its command line apart.  The name of the program is what stands in
front of the first blank that is not in quotes; backslashes have no meaning there.  Behind it, arguments are
separated by blanks outside quotes, and backslashes count in front of a quote: of an even number one half is left and
the quote begins or ends a quoted part, of an odd number one half is left and the quote is a character.

There are two versions of the rules.  In one of them, `pairs`, two quotes in a quoted part are one quote character.

* `splitArgs`, `splitCommandLine` — the rules;
* `exists_head` — what has been read of an argument stands at its beginning;
* `count_splitArgs` — how many backslashes are left.
-/

namespace Visuall.CommandLine

/-- A blank between arguments. -/
def isBlank (c : Char) : Bool := c = ' ' || c = '\t'

/-- So many backslashes. -/
def slashes (n : ℕ) : List Char := List.replicate n '\\'

/-- The arguments.  `quoted` says whether a quoted part has begun, `arg` is what has been read of an argument, if one
has begun, and `n` the number of backslashes that have been seen behind that. -/
def splitArgs (pairs quoted : Bool) (arg : Option (List Char)) (n : ℕ) : List Char → List (List Char)
  | [] => match arg with
    | none => []
    | some read => [read ++ slashes n]
  | c :: s =>
    let read := arg.getD []
    if c = '\\' then splitArgs pairs quoted (some read) (n + 1) s
    else if c = '"' then
      if n % 2 = 1 then splitArgs pairs quoted (some (read ++ slashes (n / 2) ++ ['"'])) 0 s
      else if pairs && quoted && s.head? = some '"' then
        splitArgs pairs quoted (some (read ++ slashes (n / 2) ++ ['"'])) 0 s.tail
      else splitArgs pairs (!quoted) (some (read ++ slashes (n / 2))) 0 s
    else if isBlank c && !quoted then
      match arg with
      | none => splitArgs pairs false none 0 s
      | some read => (read ++ slashes n) :: splitArgs pairs false none 0 s
    else splitArgs pairs quoted (some (read ++ slashes n ++ [c])) 0 s
termination_by s => s.length
decreasing_by all_goals simp [List.length_tail]

/-- The name of the program, and what stands behind it. -/
def splitProgram : Bool → List Char → List Char × List Char
  | _, [] => ([], [])
  | quoted, c :: s =>
    if c = '"' then splitProgram (!quoted) s
    else if isBlank c && !quoted then ([], s)
    else (c :: (splitProgram quoted s).1, (splitProgram quoted s).2)

/-- The program and its arguments. -/
def splitCommandLine (pairs : Bool) (s : List Char) : List (List Char) :=
  (splitProgram false s).1 :: splitArgs pairs false none 0 (splitProgram false s).2

/-! ## Steps -/

section Steps

variable {pairs quoted : Bool} {arg : Option (List Char)} {read : List Char} {n : ℕ} {c : Char} {s : List Char}

theorem split_nil : splitArgs pairs quoted (some read) n [] = [read ++ slashes n] := by rw [splitArgs]

theorem split_slash : splitArgs pairs quoted (some read) n ('\\' :: s) = splitArgs pairs quoted (some read) (n + 1) s := by
  rw [splitArgs, if_pos rfl]
  rfl

/-- A quote behind an odd number of backslashes is a character. -/
theorem split_quote_odd (hn : n % 2 = 1) : splitArgs pairs quoted (some read) n ('"' :: s) =
    splitArgs pairs quoted (some (read ++ slashes (n / 2) ++ ['"'])) 0 s := by
  rw [splitArgs, if_neg (by decide), if_pos rfl, if_pos hn]
  rfl

/-- Any other quote begins or ends a quoted part, or is the first of a pair. -/
theorem split_quote_even (hn : n % 2 = 0) (hpair : (pairs && quoted && s.head? = some '"') = false) :
    splitArgs pairs quoted (some read) n ('"' :: s) = splitArgs pairs (!quoted) (some (read ++ slashes (n / 2))) 0 s := by
  rw [splitArgs, if_neg (by decide), if_pos rfl, if_neg (by omega), hpair, if_neg Bool.false_ne_true]
  rfl

theorem split_quote_pair (hn : n % 2 = 0) : splitArgs true true (some read) n ('"' :: '"' :: s) =
    splitArgs true true (some (read ++ slashes (n / 2) ++ ['"'])) 0 s := by
  have hpair : (true && true && decide (('"' :: s).head? = some '"')) = true := by simp
  rw [splitArgs, if_neg (by decide), if_pos rfl, if_neg (by omega), if_pos hpair]
  rfl

/-- A blank outside quotes ends the argument. -/
theorem split_blank (hc : isBlank c = true) :
    splitArgs pairs false (some read) n (c :: s) = (read ++ slashes n) :: splitArgs pairs false none 0 s := by
  have hslash : c ≠ '\\' := by
    rintro rfl
    exact absurd hc (by decide)
  have hquote : c ≠ '"' := by
    rintro rfl
    exact absurd hc (by decide)
  rw [splitArgs, if_neg hslash, if_neg hquote, hc]
  rfl

/-- Every other character is one of the argument. -/
theorem split_char (hslash : c ≠ '\\') (hquote : c ≠ '"') (hblank : (isBlank c && !quoted) = false) :
    splitArgs pairs quoted (some read) n (c :: s) = splitArgs pairs quoted (some (read ++ slashes n ++ [c])) 0 s := by
  rw [splitArgs, if_neg hslash, if_neg hquote, hblank, if_neg Bool.false_ne_true]
  rfl

theorem split_begin : splitArgs pairs false none 0 ('"' :: s) = splitArgs pairs true (some []) 0 s := by
  rw [splitArgs, if_neg (by decide), if_pos rfl, if_neg (by decide), Bool.and_false, Bool.false_and,
    if_neg Bool.false_ne_true]
  rfl

theorem split_skip (hc : isBlank c = true) : splitArgs pairs false none n (c :: s) = splitArgs pairs false none 0 s := by
  have hslash : c ≠ '\\' := by
    rintro rfl
    exact absurd hc (by decide)
  have hquote : c ≠ '"' := by
    rintro rfl
    exact absurd hc (by decide)
  rw [splitArgs, if_neg hslash, if_neg hquote, hc]
  rfl

end Steps

/-! ## What has been read -/

/-- **What has been read of an argument stands at its beginning**, with half of the backslashes behind it. -/
theorem exists_head (pairs : Bool) : ∀ (s : List Char) (quoted : Bool) (read : List Char) (n : ℕ),
    ∃ h t, splitArgs pairs quoted (some read) n s = h :: t ∧ read ++ slashes (n / 2) <+: h := by
  intro s
  induction hlen : s.length using Nat.strong_induction_on generalizing s with
  | _ len ih =>
    intro quoted read n
    have hhalf : slashes (n / 2) <+: slashes n := by
      refine ⟨slashes (n - n / 2), ?_⟩
      rw [slashes, slashes, List.replicate_append_replicate]
      congr 1
      omega
    cases s with
    | nil =>
      rw [split_nil]
      exact ⟨_, [], rfl, (List.prefix_append_right_inj read).mpr hhalf⟩
    | cons c s =>
      have hs : s.length < len := by rw [← hlen]; exact Nat.lt_succ_self _
      by_cases hslash : c = '\\'
      · subst hslash
        rw [split_slash]
        obtain ⟨h, t, heq, hprefix⟩ := ih _ hs s rfl quoted read (n + 1)
        refine ⟨h, t, heq, List.IsPrefix.trans ((List.prefix_append_right_inj read).mpr ?_) hprefix⟩
        refine ⟨slashes ((n + 1) / 2 - n / 2), ?_⟩
        rw [slashes, slashes, slashes, List.replicate_append_replicate]
        congr 1
        omega
      · by_cases hquote : c = '"'
        · subst hquote
          rcases Nat.mod_two_eq_zero_or_one n with heven | hodd
          · cases hpair : (pairs && quoted && s.head? = some '"') with
            | false =>
              rw [split_quote_even heven hpair]
              obtain ⟨h, t, heq, hprefix⟩ := ih _ hs s rfl (!quoted) (read ++ slashes (n / 2)) 0
              exact ⟨h, t, heq, (List.prefix_append _ _).trans hprefix⟩
            | true =>
              simp only [Bool.and_eq_true, decide_eq_true_eq] at hpair
              obtain ⟨⟨rfl, rfl⟩, hhead⟩ := hpair
              cases s with
              | nil => cases hhead
              | cons c' s =>
                cases hhead
                rw [split_quote_pair heven]
                obtain ⟨h, t, heq, hprefix⟩ := ih _ (Nat.lt_of_succ_lt hs) s rfl true (read ++ slashes (n / 2) ++ ['"']) 0
                refine ⟨h, t, heq, List.IsPrefix.trans ?_ hprefix⟩
                rw [List.append_assoc, List.append_assoc]
                exact (List.prefix_append_right_inj read).mpr (List.prefix_append _ _)
          · rw [split_quote_odd hodd]
            obtain ⟨h, t, heq, hprefix⟩ := ih _ hs s rfl quoted (read ++ slashes (n / 2) ++ ['"']) 0
            refine ⟨h, t, heq, List.IsPrefix.trans ?_ hprefix⟩
            rw [List.append_assoc, List.append_assoc]
            exact (List.prefix_append_right_inj read).mpr (List.prefix_append _ _)
        · cases hblank : (isBlank c && !quoted) with
          | true =>
            simp only [Bool.and_eq_true, Bool.not_eq_true'] at hblank
            obtain ⟨hc, rfl⟩ := hblank
            rw [split_blank hc]
            exact ⟨_, _, rfl, (List.prefix_append_right_inj read).mpr hhalf⟩
          | false =>
            rw [split_char hslash hquote hblank]
            obtain ⟨h, t, heq, hprefix⟩ := ih _ hs s rfl quoted (read ++ slashes n ++ [c]) 0
            refine ⟨h, t, heq, List.IsPrefix.trans ?_ hprefix⟩
            rw [List.append_assoc, List.append_assoc]
            exact (List.prefix_append_right_inj read).mpr (hhalf.trans (List.prefix_append _ _))

/-! ## Backslashes -/

/-- The backslashes that are left of a text, where so many have been seen. -/
def slashesLeft : ℕ → List Char → ℕ
  | n, [] => n
  | n, c :: s => if c = '\\' then slashesLeft (n + 1) s else if c = '"' then n / 2 + slashesLeft 0 s else n + slashesLeft 0 s

theorem count_slashes (n : ℕ) : (slashes n).count '\\' = n := by rw [slashes, List.count_replicate_self]

/-- **How many backslashes are left**, in all arguments together, does not depend on where the quoted parts are. -/
theorem count_splitArgs (pairs : Bool) : ∀ (s : List Char) (quoted : Bool) (arg : Option (List Char)) (n : ℕ),
    (arg = none → n = 0) →
    (splitArgs pairs quoted arg n s).flatten.count '\\' = (arg.getD []).count '\\' + slashesLeft n s := by
  intro s
  induction hlen : s.length using Nat.strong_induction_on generalizing s with
  | _ len ih =>
    intro quoted arg n hn
    have hsome : ∀ s' : List Char, s'.length < len → ∀ (quoted : Bool) (read : List Char) (n : ℕ),
        (splitArgs pairs quoted (some read) n s').flatten.count '\\' = read.count '\\' + slashesLeft n s' :=
      fun s' hs' quoted read n => ih _ hs' s' rfl quoted (some read) n fun h => nomatch h
    cases s with
    | nil =>
      rw [splitArgs.eq_def]
      cases arg with
      | none =>
        rw [hn rfl]
        rfl
      | some read =>
        show ([read ++ slashes n].flatten).count '\\' = read.count '\\' + n
        rw [List.flatten_singleton, List.count_append, count_slashes]
    | cons c s =>
      have hs : s.length < len := by rw [← hlen]; exact Nat.lt_succ_self _
      rw [splitArgs.eq_def, slashesLeft]
      dsimp only
      by_cases hslash : c = '\\'
      · rw [if_pos hslash, if_pos hslash, hsome s hs]
      · rw [if_neg hslash, if_neg hslash]
        by_cases hquote : c = '"'
        · rw [if_pos hquote, if_pos hquote]
          have hread : ∀ t : List Char, '\\' ∉ t → ((arg.getD []) ++ slashes (n / 2) ++ t).count '\\' =
              (arg.getD []).count '\\' + n / 2 := by
            intro t ht
            rw [List.count_append, List.count_append, count_slashes, List.count_eq_zero_of_not_mem ht, Nat.add_zero]
          by_cases hodd : n % 2 = 1
          · rw [if_pos hodd, hsome s hs, hread _ (by decide), Nat.add_assoc]
          · rw [if_neg hodd]
            split
            · rename_i hpair
              simp only [Bool.and_eq_true, decide_eq_true_eq] at hpair
              cases s with
              | nil => cases hpair.2
              | cons c' s =>
                cases hpair.2
                rw [List.tail_cons, hsome s (Nat.lt_of_succ_lt hs), hread _ (by decide),
                  Nat.add_assoc, slashesLeft, if_neg (by decide), if_pos rfl, Nat.zero_div, Nat.zero_add]
            · rw [hsome s hs]
              have hplain := hread [] List.not_mem_nil
              rw [List.append_nil] at hplain
              rw [hplain, Nat.add_assoc]
        · rw [if_neg hquote, if_neg hquote]
          split
          · cases arg with
            | none =>
              show (splitArgs pairs false none 0 s).flatten.count '\\' = _
              rw [ih _ hs s rfl _ _ _ fun _ => rfl, hn rfl, Nat.zero_add]
            | some read =>
              show ((read ++ slashes n) :: splitArgs pairs false none 0 s).flatten.count '\\' = _
              rw [List.flatten_cons, List.count_append, ih _ hs s rfl _ _ _ fun _ => rfl, List.count_append, count_slashes]
              show read.count '\\' + n + (0 + slashesLeft 0 s) = read.count '\\' + (n + slashesLeft 0 s)
              omega
          · have hother : [c].count '\\' = 0 := List.count_eq_zero_of_not_mem (by simpa using Ne.symm hslash)
            rw [hsome s hs, List.count_append, List.count_append, count_slashes, hother, Nat.add_zero, Nat.add_assoc]

end Visuall.CommandLine
