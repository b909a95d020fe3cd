import Visuall.Lib.Split
import Visuall.Lib.Toml

/-!
# A reader of plain documents

A TOML reader for the documents that have one array of tables, and in them strings of one line without
escapes.  It rejects all others.

* `readLine`, `State.add`, `readDocument` — the reader;
* `isReader_readDocument` — it is correct.
-/

namespace Visuall.Toml

/-! ### Lines -/

inductive Line
  | blank
  | comment
  | header (name : List Char)
  | field (key value : List Char)
  deriving DecidableEq

def isBlank (c : Char) : Bool := c == ' ' || c == '\t'

/-- The text of a string, up to the quote in the last place. -/
def readBody (body : List Char) : Option (List Char) :=
  if body = body.takeWhile isPlain ++ ['"'] then some (body.takeWhile isPlain) else none

def readField (s : List Char) : Option Line :=
  match (s.dropWhile isBare).dropWhile isBlank with
  | '=' :: ' ' :: '"' :: body => (readBody body).map (.field (s.takeWhile isBare))
  | _ => none

def readHeader (s : List Char) : Option Line :=
  if s = s.takeWhile isBare ++ [']', ']'] then some (.header (s.takeWhile isBare)) else none

def readLine : List Char → Option Line
  | [] => some .blank
  | '#' :: s => if s.all isComment then some .comment else none
  | '[' :: '[' :: s => readHeader s
  | s => readField s

/-! ### Documents -/

/-- The tables that are complete, and the one that is read. -/
structure State where
  name : List Char
  done : List (List (List Char × List Char))
  current : Option (List (List Char × List Char))

/-- One more line. -/
def State.add (st : State) : Line → Option State
  | .blank => some st
  | .comment => some st
  | .header name =>
      match st.current with
      | none => some ⟨name, [], some []⟩
      | some t => if name = st.name then some ⟨name, st.done ++ [t], some []⟩ else none
  | .field key value =>
      match st.current with
      | none => none
      | some t => if key ∈ t.map Prod.fst then none else some { st with current := some (t ++ [(key, value)]) }

def State.run (st : State) : List (List Char) → Option State
  | [] => some st
  | l :: ls => (readLine l).bind fun line => (st.add line).bind fun st' => st'.run ls

def State.tables (st : State) : List (List (List Char × List Char)) := st.done ++ st.current.toList

def tableOf (t : List (List Char × List Char)) : Value := .table (t.map fun p => (p.1, .string p.2))

def State.value (st : State) : Value :=
  match st.current with
  | none => .table []
  | some _ => .table [(st.name, .array (st.tables.map tableOf))]

/-- The reader. -/
def readDocument (text : List Char) : Except (List Char) Value :=
  match State.run ⟨[], [], none⟩ (splitAll '\n' text) with
  | none => .error []
  | some st => .ok st.value

/-! ### Reading lines -/

section Lines

variable {name r s t : List Char} {f : Field} {st : State}

theorem takeWhile_cut {p : Char → Bool} (hs : ∀ c ∈ s, p c = true) (hr : ∀ c ∈ r.head?, p c = false) :
    (s ++ r).takeWhile p = s ∧ (s ++ r).dropWhile p = r := by
  rw [List.takeWhile_append_of_pos hs, List.dropWhile_append_of_pos hs]
  cases r with
  | nil => exact ⟨List.append_nil s, rfl⟩
  | cons c r =>
      have hc : p c = false := hr c rfl
      rw [List.takeWhile_cons_of_neg (by rw [hc]; decide), List.dropWhile_cons_of_neg (by rw [hc]; decide), List.append_nil]
      exact ⟨rfl, rfl⟩

/-- What a field is read as, from its start on. -/
theorem readLine_opening (hne : f.key ≠ []) (hbare : ∀ c ∈ f.key, isBare c = true) (hpad : ∀ c ∈ f.pad, c = ' ' ∨ c = '\t') (s : List Char) :
    readLine (f.opening ++ s) = (readBody s).map (.field f.key) := by
  have hfield : readField (f.opening ++ s) = (readBody s).map (.field f.key) := by
    have hhead : ∀ c ∈ (f.pad ++ ['=', ' ', '"'] ++ s).head?, isBare c = false := by
      intro c hc
      cases hp : f.pad with
      | nil =>
          rw [hp] at hc
          obtain rfl := Option.some.inj hc
          decide
      | cons d pad =>
          rw [hp] at hc
          obtain rfl := Option.some.inj hc
          rcases hpad d (hp ▸ List.mem_cons_self) with rfl | rfl <;> decide
    obtain ⟨htake, hdrop⟩ := takeWhile_cut hbare hhead
    have hblank : ∀ c ∈ f.pad, isBlank c = true := fun c hc => by rcases hpad c hc with rfl | rfl <;> decide
    obtain ⟨-, hrest⟩ := takeWhile_cut (r := ['=', ' ', '"'] ++ s) hblank fun c hc => by
      obtain rfl := Option.some.inj hc
      decide
    rw [readField, Field.opening, List.append_assoc, htake, hdrop, List.append_assoc, hrest]
    rfl
  obtain ⟨c, key, hkey⟩ := List.exists_cons_of_ne_nil hne
  have hc := hbare c (hkey ▸ List.mem_cons_self)
  rw [← hfield]
  have hopen : f.opening ++ s = c :: (key ++ (f.pad ++ ['=', ' ', '"']) ++ s) := by rw [Field.opening, hkey]; rfl
  rw [hopen, readLine.eq_def]
  split
  · next h => cases h
  · next h =>
      obtain ⟨rfl, -⟩ := List.cons.inj h
      exact absurd hc (by decide)
  · next h =>
      obtain ⟨rfl, -⟩ := List.cons.inj h
      exact absurd hc (by decide)
  · rfl

theorem readBody_plain (h : ∀ c ∈ s, isPlain c = true) : readBody (s ++ ['"']) = some s := by
  obtain ⟨htake, -⟩ := takeWhile_cut h (r := ['"']) fun c hc => by
    obtain rfl := Option.some.inj hc
    decide
  rw [readBody, htake, if_pos rfl]

theorem readLine_header (hbare : ∀ c ∈ name, isBare c = true) : readLine ('[' :: '[' :: (name ++ [']', ']'])) = some (.header name) := by
  obtain ⟨htake, -⟩ := takeWhile_cut hbare (r := [']', ']']) fun c hc => by
    obtain rfl := Option.some.inj hc
    decide
  show readHeader _ = _
  rw [readHeader, htake, if_pos rfl]

theorem newline_notMem_bare (h : ∀ c ∈ s, isBare c = true) : '\n' ∉ s := fun hmem => absurd (h _ hmem) (by decide)

theorem newline_notMem_plain (h : ∀ c ∈ s, isPlain c = true) : '\n' ∉ s := fun hmem => absurd (h _ hmem) (by decide)

theorem newline_notMem_opening (hbare : ∀ c ∈ f.key, isBare c = true) (hpad : ∀ c ∈ f.pad, c = ' ' ∨ c = '\t') : '\n' ∉ f.opening := by
  rw [Field.opening, List.mem_append, List.mem_append]
  rintro (h | h | h)
  · exact newline_notMem_bare hbare h
  · exact absurd (hpad _ h) (by decide)
  · exact absurd h (by decide)

/-- A line at the front of a text. -/
theorem State.run_line {s : List Char} {line : Line} (hs : '\n' ∉ s) (hline : readLine s = some line) (t : List Char) :
    st.run (splitAll '\n' (s ++ '\n' :: t)) = (st.add line).bind fun st' => st'.run (splitAll '\n' t) := by
  rw [splitAll_append_sep hs, State.run, hline]
  rfl

end Lines

/-! ### Reading tables -/

section Tables

variable {comment name : List Char} {done fs : List Field} {tables : List (List Field)} {tabs : List (List (List Char × List Char))}

/-- The keys of fields with their texts. -/
def pairs (fs : List Field) : List (List Char × List Char) := fs.map fun f => (f.key, f.value)

theorem pairs_keys (fs : List Field) : (pairs fs).map Prod.fst = fs.map Field.key := by
  rw [pairs, List.map_map]
  rfl

/-- The start of the document. -/
def State.start : State := ⟨[], [], none⟩

theorem State.run_blank (st : State) (t : List Char) : st.run (splitAll '\n' ('\n' :: t)) = st.run (splitAll '\n' t) := by
  have hblank : readLine [] = some .blank := rfl
  exact State.run_line List.not_mem_nil hblank t

theorem State.run_fields (done fs : List Field) (hformed : Formed (done ++ fs)) (hplain : ∀ f ∈ fs, f.Plain) (t : List Char) :
    State.run ⟨name, tabs, some (pairs done)⟩ (splitAll '\n' (fs.flatMap Field.text ++ t)) =
      State.run ⟨name, tabs, some (pairs (done ++ fs))⟩ (splitAll '\n' t) := by
  induction fs generalizing done with
  | nil => rw [List.append_nil, List.flatMap_nil, List.nil_append]
  | cons f fs ih =>
      obtain ⟨hf, hfs⟩ := List.forall_mem_cons.mp hplain
      obtain ⟨hne, hbare, hpad⟩ := hformed.1 f (List.mem_append_right _ List.mem_cons_self)
      have hnew : f.key ∉ (pairs done).map Prod.fst := by
        have hnodup := hformed.2
        rw [List.map_append, List.nodup_append] at hnodup
        rw [pairs_keys]
        exact fun hmem => hnodup.2.2 _ hmem _ (List.mem_map_of_mem List.mem_cons_self) rfl
      have hline : readLine (f.opening ++ (f.value ++ ['"'])) = some (.field f.key f.value) := by
        rw [readLine_opening hne hbare hpad, readBody_plain hf]
        rfl
      have hnewline : '\n' ∉ f.opening ++ (f.value ++ ['"']) := by
        rw [List.mem_append, List.mem_append]
        rintro (h | h | h)
        · exact newline_notMem_opening hbare hpad h
        · exact newline_notMem_plain hf h
        · exact absurd h (by decide)
      have htext : (f :: fs).flatMap Field.text ++ t = f.opening ++ (f.value ++ ['"']) ++ '\n' :: (fs.flatMap Field.text ++ t) := by
        rw [List.flatMap_cons, Field.text]
        simp
      have hadd : State.add ⟨name, tabs, some (pairs done)⟩ (.field f.key f.value) = some ⟨name, tabs, some (pairs (done ++ [f]))⟩ := by
        rw [pairs, pairs, List.map_append]
        exact if_neg hnew
      rw [htext, State.run_line hnewline hline, hadd, Option.bind_some, ih _ (by rwa [List.append_assoc]) hfs, List.append_assoc]
      rfl

theorem State.run_header (hbare : ∀ c ∈ name, isBare c = true) (st : State) (t : List Char) :
    st.run (splitAll '\n' (header name ++ t)) = (st.add (.header name)).bind fun st' => st'.run (splitAll '\n' t) := by
  have hnewline : '\n' ∉ '[' :: '[' :: (name ++ [']', ']']) := by
    rw [List.mem_cons, List.mem_cons, List.mem_append]
    rintro (h | h | h | h)
    · exact absurd h (by decide)
    · exact absurd h (by decide)
    · exact newline_notMem_bare hbare h
    · exact absurd h (by decide)
  have htext : header name ++ t = '[' :: '[' :: (name ++ [']', ']']) ++ '\n' :: t := by
    rw [header]
    simp
  rw [htext, State.run_line hnewline (readLine_header hbare)]

/-- Complete tables, and the start of one more. -/
theorem State.run_tables (hbare : ∀ c ∈ name, isBare c = true) (htables : ∀ fs ∈ tables, Formed fs ∧ ∀ f ∈ fs, f.Plain) (t : List Char) :
    State.start.run (splitAll '\n' (tables.flatMap (tableText name) ++ (header name ++ t))) =
      State.run ⟨name, tables.map pairs, some []⟩ (splitAll '\n' t) := by
  induction tables using List.reverseRecOn generalizing t with
  | nil => exact State.run_header hbare _ t
  | append_singleton tables fs ih =>
      have htext : (tables ++ [fs]).flatMap (tableText name) ++ (header name ++ t) =
          tables.flatMap (tableText name) ++ (header name ++ (fs.flatMap Field.text ++ '\n' :: (header name ++ t))) := by
        rw [List.flatMap_append, List.flatMap_singleton, tableText]
        simp
      obtain ⟨hformed, hplain⟩ := htables fs (List.mem_append_right _ List.mem_cons_self)
      have hadd : State.add ⟨name, tables.map pairs, some (pairs fs)⟩ (.header name) = some ⟨name, tables.map pairs ++ [pairs fs], some []⟩ :=
        if_pos rfl
      have hfields : State.run ⟨name, tables.map pairs, some (pairs [])⟩ _ = State.run ⟨name, tables.map pairs, some (pairs ([] ++ fs))⟩ _ :=
        State.run_fields [] fs hformed hplain ('\n' :: (header name ++ t))
      rw [htext, ih fun gs hgs => htables gs (List.mem_append_left _ hgs)]
      refine hfields.trans ?_
      rw [List.nil_append, State.run_blank, State.run_header hbare, hadd, List.map_append]
      rfl

theorem State.run_document (hcomment : ∀ c ∈ comment, isComment c = true) (t : List Char) :
    State.start.run (splitAll '\n' (document comment name tables ++ t)) =
      State.start.run (splitAll '\n' (tables.flatMap (tableText name) ++ t)) := by
  have hnewline : '\n' ∉ '#' :: comment := by
    rw [List.mem_cons]
    rintro (h | h)
    · exact absurd h (by decide)
    · exact absurd (hcomment _ h) (by decide)
  have hline : readLine ('#' :: comment) = some .comment := if_pos (List.all_eq_true.mpr hcomment)
  have htext : document comment name tables ++ t = '#' :: comment ++ '\n' :: '\n' :: (tables.flatMap (tableText name) ++ t) := by
    rw [document]
    simp
  rw [htext, State.run_line hnewline hline]
  exact State.run_blank _ _

/-- A document that ends behind a table. -/
theorem State.run_last (hcomment : ∀ c ∈ comment, isComment c = true) (hbare : ∀ c ∈ name, isBare c = true)
    (htables : ∀ gs ∈ tables ++ [fs], Formed gs ∧ ∀ f ∈ gs, f.Plain) :
    State.start.run (splitAll '\n' (document comment name (tables ++ [fs]))) = some ⟨name, tables.map pairs, some (pairs fs)⟩ := by
  have htext : (tables ++ [fs]).flatMap (tableText name) ++ [] =
      tables.flatMap (tableText name) ++ (header name ++ (fs.flatMap Field.text ++ ['\n'])) := by
    rw [List.flatMap_append, List.flatMap_singleton, tableText, List.append_nil]
  obtain ⟨hformed, hplain⟩ := htables fs (List.mem_append_right _ List.mem_cons_self)
  have hfields : State.run ⟨name, tables.map pairs, some (pairs [])⟩ _ = State.run ⟨name, tables.map pairs, some (pairs ([] ++ fs))⟩ _ :=
    State.run_fields [] fs hformed hplain ['\n']
  rw [← List.append_nil (document _ _ _), State.run_document hcomment, htext,
    State.run_tables hbare fun gs hgs => htables gs (List.mem_append_left _ hgs)]
  exact hfields.trans (State.run_blank _ [])

theorem tableOf_find (key : List Char) (fs : List Field) : (tableOf (pairs fs)).find key = (fieldValue key fs).map Value.string := by
  show ((pairs fs).map fun p => (p.1, Value.string p.2)).lookup key = _
  induction fs with
  | nil => rfl
  | cons f fs ih =>
      show List.lookup key ((f.key, Value.string f.value) :: (pairs fs).map fun p => (p.1, Value.string p.2)) = _
      rw [fieldValue]
      by_cases hkey : f.key = key
      · rw [hkey, List.lookup_cons_self, List.find?_cons_of_pos (by simpa using hkey)]
        rfl
      · have hne : (key == f.key) = false := beq_eq_false_iff_ne.mpr (Ne.symm hkey)
        rw [List.lookup_cons, hne, List.find?_cons_of_neg (by simpa using hkey)]
        exact ih

end Tables

/-! ### What was read stays -/

section Stays

variable {st st' : State} {i : ℕ} {key value : List Char}

/-- The table that was read as number `i` has the text under the key. -/
def State.Has (st : State) (i : ℕ) (key value : List Char) : Prop :=
  st.current ≠ none ∧ ∃ t, st.tables[i]? = some t ∧ t.lookup key = some value

theorem State.Has.add {line : Line} (h : st.Has i key value) (hadd : st.add line = some st') : st'.Has i key value ∧ st'.name = st.name := by
  obtain ⟨hcurrent, t, ht, hvalue⟩ := h
  obtain ⟨name, done, current⟩ := st
  cases current with
  | none => exact absurd rfl hcurrent
  | some cur =>
      have htables : (done ++ [cur])[i]? = some t := ht
      cases line with
      | blank =>
          cases hadd
          exact ⟨⟨hcurrent, t, ht, hvalue⟩, rfl⟩
      | comment =>
          cases hadd
          exact ⟨⟨hcurrent, t, ht, hvalue⟩, rfl⟩
      | header name' =>
          rw [State.add] at hadd
          dsimp only at hadd
          split at hadd
          · next hname =>
              cases hadd
              refine ⟨⟨Option.some_ne_none _, t, ?_, hvalue⟩, hname⟩
              exact (List.getElem?_append_left (List.getElem?_eq_some_iff.mp htables).1).trans htables
          · cases hadd
      | field key' value' =>
          rw [State.add] at hadd
          dsimp only at hadd
          split at hadd
          · cases hadd
          · cases hadd
            refine ⟨⟨Option.some_ne_none _, ?_⟩, rfl⟩
            have htables' : State.tables ⟨name, done, some (cur ++ [(key', value')])⟩ = done ++ [cur ++ [(key', value')]] := rfl
            rw [htables']
            by_cases hi : i < done.length
            · rw [List.getElem?_append_left hi] at htables
              exact ⟨t, (List.getElem?_append_left hi).trans htables, hvalue⟩
            · rw [List.getElem?_append_right (not_lt.mp hi)] at htables
              obtain ⟨hlast, rfl⟩ := List.getElem?_eq_some_iff.mp htables
              have hzero : i - done.length = 0 := by
                rw [List.length_singleton] at hlast
                omega
              simp only [hzero, List.getElem_cons_zero] at hvalue
              refine ⟨cur ++ [(key', value')], ?_, ?_⟩
              · rw [List.getElem?_append_right (not_lt.mp hi), hzero]
                rfl
              · rw [List.lookup_append, hvalue]
                rfl

theorem State.Has.run {ls : List (List Char)} (h : st.Has i key value) (hrun : st.run ls = some st') :
    st'.Has i key value ∧ st'.name = st.name := by
  induction ls generalizing st with
  | nil =>
      cases hrun
      exact ⟨h, rfl⟩
  | cons l ls ih =>
      obtain ⟨line, hline, hrun⟩ := Option.bind_eq_some_iff.mp hrun
      obtain ⟨st₁, hadd, hrun⟩ := Option.bind_eq_some_iff.mp hrun
      obtain ⟨h₁, hname⟩ := h.add hadd
      obtain ⟨h₂, hname'⟩ := ih h₁ hrun
      exact ⟨h₂, hname'.trans hname⟩

theorem State.Has.hasString (h : st.Has i key value) : HasString st.value st.name i key value := by
  obtain ⟨hcurrent, t, ht, hvalue⟩ := h
  obtain ⟨name, done, current⟩ := st
  cases current with
  | none => exact absurd rfl hcurrent
  | some cur =>
      refine ⟨_, tableOf t, List.lookup_cons_self, ?_, ?_⟩
      · rw [List.getElem?_map, ht]
        rfl
      · show (t.map fun p => (p.1, Value.string p.2)).lookup key = _
        clear ht
        induction t with
        | nil => cases hvalue
        | cons p t ih =>
            rw [List.map_cons, List.lookup_cons]
            rw [List.lookup_cons] at hvalue
            split
            · next hkey =>
                rw [hkey] at hvalue
                obtain rfl := Option.some.inj hvalue
                rfl
            · next hkey =>
                rw [hkey] at hvalue
                exact ih hvalue

end Stays

/-! ### Correctness -/

theorem seq_of_plain {s : List Char} (h : ∀ c ∈ s, isPlain c = true) : Seq BasicToken s s := by
  induction s with
  | nil => exact .nil
  | cons c s ih =>
      obtain ⟨hc, hs⟩ := List.forall_mem_cons.mp h
      exact .cons (.plain hc) (ih hs)

theorem readBody_some {body value : List Char} (h : readBody body = some value) : body = value ++ ['"'] ∧ ∀ c ∈ value, isPlain c = true := by
  rw [readBody] at h
  split at h
  · next hbody =>
      obtain rfl := Option.some.inj h
      exact ⟨hbody, fun c hc => List.mem_takeWhile_imp hc⟩
  · cases h

/-- **The reader is correct.** -/
theorem isReader_readDocument : IsReader readDocument where
  reads comment name tables hcomment hname hbare htables := by
    rcases List.eq_nil_or_concat' tables with rfl | ⟨tables, fs, rfl⟩
    · have hrun : State.start.run (splitAll '\n' (document comment name [] ++ [])) = some State.start := State.run_document hcomment []
      rw [List.append_nil] at hrun
      refine ⟨.table [], ?_, fun _ => rfl, fun h => absurd rfl h⟩
      show (match State.start.run _ with | none => _ | some st => _) = _
      rw [hrun]
      rfl
    · have hrun := State.run_last hcomment hbare htables
      refine ⟨State.value ⟨name, tables.map pairs, some (pairs fs)⟩, ?_, fun h => absurd h (by simp), fun _ => ?_⟩
      · show (match State.start.run _ with | none => _ | some st => _) = _
        rw [hrun]
      · refine ⟨_, List.lookup_cons_self, ?_⟩
        have htables' : State.tables ⟨name, tables.map pairs, some (pairs fs)⟩ = (tables ++ [fs]).map pairs := by
          rw [List.map_append]
          rfl
        rw [htables', List.map_map, List.forall₂_map_right_iff]
        exact List.forall₂_same.mpr fun gs _ key => tableOf_find key gs
  string comment name tables fs f r root hcomment hname hbare htables hformed hplain hread := by
    have hfields : State.run ⟨name, tables.map pairs, some (pairs [])⟩ _ = State.run ⟨name, tables.map pairs, some (pairs ([] ++ fs))⟩ _ :=
      State.run_fields [] fs ⟨fun g hg => hformed.1 g (List.mem_append_left _ hg), (List.map_append ▸ hformed.2).of_append_left⟩ hplain (f.opening ++ r)
    obtain ⟨hne, hkey, hpad⟩ := hformed.1 f (List.mem_append_right _ List.mem_cons_self)
    have hnew : f.key ∉ (pairs fs).map Prod.fst := by
      have hnodup := hformed.2
      rw [List.map_append, List.nodup_append] at hnodup
      rw [pairs_keys]
      exact fun hmem => hnodup.2.2 _ hmem _ List.mem_cons_self rfl
    have hrun : State.start.run (splitAll '\n' (document comment name tables ++ (header name ++ (fs.flatMap Field.text ++ (f.opening ++ r))))) =
        State.run ⟨name, tables.map pairs, some (pairs fs)⟩ (splitAll '\n' (f.opening ++ r)) := by
      rw [State.run_document hcomment, State.run_tables hbare htables]
      exact hfields
    have hread' : (match State.start.run (splitAll '\n' (document comment name tables ++ (header name ++ (fs.flatMap Field.text ++ (f.opening ++ r))))) with
      | none => .error []
      | some st => .ok st.value) = Except.ok root := hread
    rw [hrun] at hread'
    split at hread'
    · cases hread'
    · next st hst =>
        obtain rfl := Except.ok.inj hread'
        have hopen : f.opening ++ r ≠ [] := fun h => by
          rw [Field.opening] at h
          simp at h
        -- the line of the field ends in the text or with it
        have htake : (f.opening ++ r).takeWhile (· ≠ '\n') = f.opening ++ r.takeWhile (· ≠ '\n') :=
          List.takeWhile_append_of_pos fun c hc => by simpa using ne_of_mem_of_not_mem hc (newline_notMem_opening hkey hpad)
        rw [splitAll_of_ne_nil hopen, htake] at hst
        obtain ⟨line, hline, hst⟩ := Option.bind_eq_some_iff.mp hst
        obtain ⟨st₁, hadd, hst⟩ := Option.bind_eq_some_iff.mp hst
        rw [readLine_opening hne hkey hpad] at hline
        obtain ⟨value, hvalue, rfl⟩ := Option.map_eq_some_iff.mp hline
        obtain ⟨hbody, hvalueplain⟩ := readBody_some hvalue
        have hadd' : State.add ⟨name, tables.map pairs, some (pairs fs)⟩ (.field f.key value) =
            some ⟨name, tables.map pairs, some (pairs fs ++ [(f.key, value)])⟩ := if_neg hnew
        obtain rfl := Option.some.inj (hadd'.symm.trans hadd)
        have hhas : State.Has ⟨name, tables.map pairs, some (pairs fs ++ [(f.key, value)])⟩ tables.length f.key value := by
          refine ⟨Option.some_ne_none _, pairs fs ++ [(f.key, value)], ?_, ?_⟩
          · show (tables.map pairs ++ [pairs fs ++ [(f.key, value)]])[tables.length]? = _
            rw [List.getElem?_append_right (by rw [List.length_map]), List.length_map, Nat.sub_self]
            rfl
          · rw [List.lookup_append, List.lookup_eq_none_iff.mpr ?_]
            · rw [Option.none_or, List.lookup_cons_self]
            · intro p hp
              have hkeys : f.key ≠ p.1 := fun heq => hnew (List.mem_map.mpr ⟨p, hp, heq.symm⟩)
              simpa using hkeys
        obtain ⟨hlast, hname'⟩ := hhas.run hst
        have hname'' : st.name = name := hname'
        refine ⟨value, ?_, hname'' ▸ hlast.hasString⟩
        have hr : r = value ++ '"' :: r.dropWhile (· ≠ '\n') := by
          conv_lhs => rw [← List.takeWhile_append_dropWhile (p := (· ≠ '\n')) (l := r)]
          rw [hbody, List.append_assoc]
          rfl
        rw [hr]
        refine .basic (seq_of_plain hvalueplain) ?_
        cases value with
        | nil =>
            intro hpre
            have hsecond := (List.cons_prefix_cons.mp hpre).2
            cases hd : r.dropWhile (· ≠ '\n') with
            | nil =>
                rw [hd] at hsecond
                exact absurd (List.prefix_nil.mp hsecond) (List.cons_ne_nil _ _)
            | cons c rest =>
                rw [hd] at hsecond
                obtain ⟨rfl, -⟩ := List.cons_prefix_cons.mp hsecond
                have hhead : (r.dropWhile (· ≠ '\n')).head? = some '"' := by rw [hd]; rfl
                have hnot := List.head?_dropWhile_not (· ≠ '\n') r
                rw [hhead] at hnot
                exact absurd hnot (by decide)
        | cons c value =>
            intro hpre
            exact (isPlain_ne (hvalueplain c List.mem_cons_self)).1 (List.cons_prefix_cons.mp hpre).1.symm

end Visuall.Toml
