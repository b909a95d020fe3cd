import Mathlib

/-!
# Brackets

Words of opening and closing brackets, where an opening one tells what it opens.

* `Nested` — every opening bracket is closed once, and nothing else is;
* `pending` — what is open behind a word;
* `Nested.append`, `Nested.enclose` — balanced words from balanced words;
* `Nested.pending_eq` — a balanced word leaves what was open as it was.
-/

namespace Visuall.Brackets

variable {α : Type*}

inductive Bracket (α : Type*)
  | opening (a : α)
  | closing
  deriving DecidableEq, Repr

/-- Every opening bracket is closed by one of its own, behind all that has been opened in between. -/
inductive Nested : List (Bracket α) → Prop
  | nil : Nested []
  | region (a : α) {inside rest : List (Bracket α)} :
      Nested inside → Nested rest → Nested (.opening a :: (inside ++ .closing :: rest))

/-- What is open behind a word, innermost first; closing where nothing is open does nothing. -/
def pending (stack : List α) : List (Bracket α) → List α
  | [] => stack
  | .opening a :: word => pending (a :: stack) word
  | .closing :: word => pending stack.tail word

/-- The opening brackets that are more than the closing ones. -/
def excess : List (Bracket α) → ℤ
  | [] => 0
  | .opening _ :: word => excess word + 1
  | .closing :: word => excess word - 1

variable {word word' : List (Bracket α)}

theorem pending_append (stack : List α) (word word' : List (Bracket α)) :
    pending stack (word ++ word') = pending (pending stack word) word' := by
  induction word generalizing stack with
  | nil => rfl
  | cons b word ih =>
    cases b with
    | opening a => exact ih (a :: stack)
    | closing => exact ih stack.tail

theorem excess_append (word word' : List (Bracket α)) : excess (word ++ word') = excess word + excess word' := by
  induction word with
  | nil => exact (zero_add _).symm
  | cons b word ih =>
    cases b with
    | opening a =>
      show excess (word ++ word') + 1 = excess word + 1 + excess word'
      omega
    | closing =>
      show excess (word ++ word') - 1 = excess word - 1 + excess word'
      omega

theorem excess_opening (word : List (Bracket α)) (a : α) : excess (word ++ [.opening a]) = excess word + 1 := by
  rw [excess_append]
  rfl

theorem excess_closing (word : List (Bracket α)) : excess (word ++ [.closing]) = excess word - 1 := by
  rw [excess_append]
  rfl

namespace Nested

theorem append (h : Nested word) (h' : Nested word') : Nested (word ++ word') := by
  induction h with
  | nil => exact h'
  | region a hinside _ _ ih =>
    rw [List.cons_append, List.append_assoc, List.cons_append]
    exact .region a hinside ih

/-- Opened in front of a balanced word, and closed behind it. -/
theorem enclose (a : α) (h : Nested word) : Nested (.opening a :: (word ++ [.closing])) := .region a h .nil

theorem excess_eq (h : Nested word) : excess word = 0 := by
  induction h with
  | nil => rfl
  | region a _ _ hinside hrest =>
    show excess (_ ++ _) + 1 = 0
    rw [excess_append, hinside]
    show 0 + (excess _ - 1) + 1 = 0
    omega

/-- What is open is as it was. -/
theorem pending_eq (h : Nested word) (stack : List α) : pending stack word = stack := by
  induction h generalizing stack with
  | nil => rfl
  | region a _ _ hinside hrest =>
    show pending (a :: stack) (_ ++ _) = stack
    rw [pending_append, hinside]
    exact hrest stack

end Nested

end Visuall.Brackets
