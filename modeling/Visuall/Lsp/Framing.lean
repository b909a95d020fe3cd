import Visuall.Lib.Decimal

/-!
# Message framing

The reader and the writer of `json_rpc.cpp`: a header line with the number of bytes, an empty line, and the bytes.

* `readMessage`, `writeMessage` — one message; `reads` — one call after the other;
* `readHeaders_writeMessage` — the headers that are written, read from the first byte of a message on;
* `reads_written` — the messages come back in their order, and then nothing.
-/

namespace Visuall.Lsp.Framing

open Visuall.Decimal

/-! ## The reader -/

/-- `std::stoi`; `none` is an exception. -/
def stoi (s : List UInt8) : Option ℤ :=
  let (negative, s) := signOf (s.dropWhile isSpace)
  let digits := s.takeWhile isDigit
  let n : ℤ := if negative then -value digits else value digits
  if digits = [] ∨ n < -2 ^ 31 ∨ 2 ^ 31 ≤ n then none else some n

/-- `"Content-Length: "`. -/
def contentLengthPrefix : List UInt8 := [67, 111, 110, 116, 101, 110, 116, 45, 76, 101, 110, 103, 116, 104, 58, 32]

/-- The line without a carriage return at its end. -/
def stripReturn (line : List UInt8) : List UInt8 := if line.getLast? = some 13 then line.dropLast else line

/-- What a header line does to `contentLength`. -/
def parseHeader (contentLength : ℤ) (line : List UInt8) : ℤ :=
  if contentLengthPrefix.isPrefixOf line then (stoi (line.drop contentLengthPrefix.length)).getD (-1) else contentLength

/-- The loop over the header lines, in a line of which some bytes are read; `none` is the end of the input. -/
def readHeaders (contentLength : ℤ) (line : List UInt8) : List UInt8 → Option (ℤ × List UInt8)
  | [] => none
  | ch :: input =>
    if ch = 10 then
      if stripReturn line = [] then some (contentLength, input)
      else readHeaders (parseHeader contentLength (stripReturn line)) [] input
    else readHeaders contentLength (line ++ [ch]) input

/-- `JsonRpc::readMessage`, with the input that is left. -/
def readMessage (input : List UInt8) : List UInt8 × List UInt8 :=
  match readHeaders (-1) [] input with
  | none => ([], [])
  | some (contentLength, input) =>
    if contentLength ≤ 0 then ([], input)
    else if input.length < contentLength.toNat then ([], [])
    else (input.take contentLength.toNat, input.drop contentLength.toNat)

/-- The results of so many calls of `readMessage`. -/
def reads : ℕ → List UInt8 → List (List UInt8)
  | 0, _ => []
  | calls + 1, input => (readMessage input).1 :: reads calls (readMessage input).2

/-! ## The writer -/

/-- `JsonRpc::writeMessage`. -/
def writeMessage (content : List UInt8) : List UInt8 :=
  contentLengthPrefix ++ numeral content.length ++ [13, 10, 13, 10] ++ content

/-! ## One message -/

variable {body input line : List UInt8} {contentLength : ℤ} {n : ℕ}

/-- The bytes of a line are collected up to its end. -/
theorem readHeaders_append (hline : 10 ∉ line) (start : List UInt8) :
    readHeaders contentLength start (line ++ 10 :: input) = readHeaders contentLength (start ++ line) (10 :: input) := by
  induction line generalizing start with
  | nil => rw [List.append_nil, List.nil_append]
  | cons ch line ih =>
      obtain ⟨hch, hrest⟩ := not_or.mp (List.mem_cons.not.mp hline)
      rw [List.cons_append, readHeaders, if_neg (Ne.symm hch), ih hrest, List.append_assoc, List.singleton_append]

/-- A number that fits is read as it is written. -/
theorem stoi_numeral (hn : n < 2 ^ 31) : stoi (numeral n) = some (n : ℤ) := by
  rw [stoi, dropWhile_numeral, signOf_numeral]
  show (if (numeral n).takeWhile isDigit = [] ∨ _ ∨ _ then none else some (value ((numeral n).takeWhile isDigit) : ℤ)) = _
  rw [takeWhile_numeral, value_numeral]
  refine if_neg fun h => ?_
  rcases h with h | h | h
  · exact numeral_ne_nil n h
  · have h : (n : ℤ) < -2 ^ 31 := by simpa [takeWhile_numeral, value_numeral] using h
    omega
  · have h : 2 ^ 31 ≤ (n : ℤ) := by simpa [takeWhile_numeral, value_numeral] using h
    omega

theorem stripReturn_append (line : List UInt8) : stripReturn (line ++ [13]) = line := by
  rw [stripReturn, List.getLast?_concat, if_pos rfl, List.dropLast_concat]

theorem parseHeader_numeral (hn : n < 2 ^ 31) : parseHeader contentLength (contentLengthPrefix ++ numeral n) = n := by
  have hprefix : contentLengthPrefix.isPrefixOf (contentLengthPrefix ++ numeral n) = true :=
    List.isPrefixOf_iff_prefix.mpr (List.prefix_append _ _)
  rw [parseHeader, if_pos hprefix, List.drop_left, stoi_numeral hn]
  rfl

/-- **The headers of a message.** -/
theorem readHeaders_writeMessage (hbody : body.length < 2 ^ 31) (rest : List UInt8) :
    readHeaders contentLength [] (writeMessage body ++ rest) = some ((body.length : ℤ), body ++ rest) := by
  have hnewline : 10 ∉ contentLengthPrefix ++ numeral body.length ++ [13] := by
    intro hmem
    rcases List.mem_append.mp hmem with hmem | hmem
    · rcases List.mem_append.mp hmem with hmem | hmem
      · exact absurd hmem (by decide)
      · exact absurd (isDigit_of_mem hmem) (by decide)
    · exact absurd hmem (by decide)
  have hline : contentLengthPrefix ++ numeral body.length ≠ [] :=
    List.append_ne_nil_of_left_ne_nil (List.cons_ne_nil _ _) _
  have hsplit : writeMessage body ++ rest =
      (contentLengthPrefix ++ numeral body.length ++ [13]) ++ 10 :: ([13] ++ 10 :: (body ++ rest)) := by
    simp only [writeMessage, List.append_assoc, List.cons_append, List.nil_append]
  rw [hsplit, readHeaders_append hnewline, List.nil_append, readHeaders, if_pos rfl, stripReturn_append, if_neg hline,
    parseHeader_numeral hbody, readHeaders_append (by decide), List.nil_append, readHeaders, if_pos rfl]
  exact if_pos rfl

/-- **One message** comes back, and what follows is left. -/
theorem readMessage_writeMessage (hne : body ≠ []) (hbody : body.length < 2 ^ 31) (rest : List UInt8) :
    readMessage (writeMessage body ++ rest) = (body, rest) := by
  have hpos : 0 < body.length := List.length_pos_iff.mpr hne
  rw [readMessage, readHeaders_writeMessage hbody]
  dsimp only
  rw [if_neg (by omega), Int.toNat_natCast, if_neg (by simp), List.take_left, List.drop_left]

/-! ## All messages -/

/-- At the end of the input there is nothing more to read. -/
theorem reads_nil (calls : ℕ) : reads calls [] = List.replicate calls [] := by
  induction calls with
  | zero => rfl
  | succ calls ih =>
      rw [reads, List.replicate_succ]
      exact congrArg ([] :: ·) ih

/-- **The messages come back** in their order, and every call behind the last one reports the end of the input. -/
theorem reads_written (bodies : List (List UInt8)) (hne : ∀ body ∈ bodies, body ≠ []) (hbound : ∀ body ∈ bodies, body.length < 2 ^ 31)
    (calls : ℕ) : reads (bodies.length + calls) (bodies.flatMap writeMessage) = bodies ++ List.replicate calls [] := by
  induction bodies with
  | nil =>
      rw [List.length_nil, Nat.zero_add]
      exact reads_nil calls
  | cons body bodies ih =>
      obtain ⟨hbody, hrest⟩ := List.forall_mem_cons.mp hne
      obtain ⟨hlength, hbounds⟩ := List.forall_mem_cons.mp hbound
      rw [List.length_cons, Nat.add_right_comm, reads, List.flatMap_cons, readMessage_writeMessage hbody hlength, ih hrest hbounds,
        List.cons_append]

/-- A body that looks like a message of its own. -/
theorem reads_written_nested : reads 2 (writeMessage (writeMessage [104, 105])) = [writeMessage [104, 105], []] := by
  have hwritten := reads_written [writeMessage [104, 105]] (by decide) (by decide) 1
  rwa [List.flatMap_singleton] at hwritten

end Visuall.Lsp.Framing
