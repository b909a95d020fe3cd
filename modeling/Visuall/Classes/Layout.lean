import Visuall.Classes.Analyzer

/-!
# The layout of a class

What the class analyzer leaves as the fields of a class.

* `collectFields_eq` — the walk over a body adds the fields that it assigns at the places looked at;
* `Layout` — the list that a class is meant to have: that of the base class, and then its own fields;
* `processClass_spec`, `analyze_layout` — without cycles every class has it, in whatever order the classes come;
* `layout_iff` — when it has every field that is assigned.
-/

namespace Visuall.Classes

open Visuall.Ast
open Relation

/-! ### Lists of fields -/

section Fields

variable {fields names : List Name} {f name : Name}

theorem addFields_append (fields xs ys : List Name) :
    addFields fields (xs ++ ys) = addFields (addFields fields xs) ys := List.foldl_append

theorem mem_addField : f ∈ addField fields name ↔ f ∈ fields ∨ f = name := by
  unfold addField
  split
  · rename_i h
    constructor
    · exact Or.inl
    · rintro (hf | rfl)
      · exact hf
      · exact h
  · rw [List.mem_append, List.mem_singleton]

theorem mem_addFields : f ∈ addFields fields names ↔ f ∈ fields ∨ f ∈ names := by
  induction names generalizing fields with
  | nil => exact ⟨.inl, fun h => h.resolve_right List.not_mem_nil⟩
  | cons name names ih =>
      show f ∈ addFields (addField fields name) names ↔ _
      rw [ih, mem_addField, List.mem_cons, or_assoc]

theorem addField_nodup (h : fields.Nodup) (name : Name) : (addField fields name).Nodup := by
  unfold addField
  split
  · exact h
  · rename_i hnew
    exact List.nodup_append_comm.mp (List.nodup_cons.mpr ⟨hnew, h⟩)

theorem addFields_nodup (h : fields.Nodup) (names : List Name) : (addFields fields names).Nodup := by
  induction names generalizing fields with
  | nil => exact h
  | cons name names ih => exact ih (addField_nodup h name)

theorem addField_extends (fields : List Name) (name : Name) : fields <+: addField fields name := by
  unfold addField
  split
  · exact List.prefix_rfl
  · exact List.prefix_append _ _

theorem addFields_prefix (fields names : List Name) : fields <+: addFields fields names := by
  induction names generalizing fields with
  | nil => exact List.prefix_rfl
  | cons name names ih => exact (addField_extends fields name).trans (ih _)

/-- Fields that are all different and new are appended. -/
theorem addFields_of_disjoint (h : (fields ++ names).Nodup) : addFields fields names = fields ++ names := by
  induction names generalizing fields with
  | nil => exact (List.append_nil _).symm
  | cons name names ih =>
      have hnew : name ∉ fields := fun hmem => List.disjoint_of_nodup_append h hmem List.mem_cons_self
      rw [← List.singleton_append, ← List.append_assoc] at h ⊢
      show addFields (addField fields name) names = _
      rw [addField, if_neg hnew]
      exact ih h

theorem addFields_nil (h : names.Nodup) : addFields [] names = names := addFields_of_disjoint h

end Fields

/-! ### The walk over a body -/

mutual

theorem collectFieldsFromStmt_eq (fields : List Name) : (s : Stmt) →
    collectFieldsFromStmt fields s = addFields fields (stmtFields false s)
  | .initDef _ body => collectFields_eq fields body
  | .funcDef _ body => collectFields_eq fields body
  | .assignStmt target _ _ _ _ => by
    rw [collectFieldsFromStmt, stmtFields, if_neg Bool.false_ne_true, List.append_nil]
  | .ifStmt _ thenBranch elsifBranches elseBranch => by
    rw [collectFieldsFromStmt, stmtFields, addFields_append, addFields_append, collectFields_eq,
      collectElsifs_eq, collectFields_eq]
  | .forStmt _ _ _ body _ => by
    rw [collectFieldsFromStmt, stmtFields, if_neg Bool.false_ne_true, List.append_nil, collectFields_eq]
  | .whileStmt _ body _ => by
    rw [collectFieldsFromStmt, stmtFields, if_neg Bool.false_ne_true, List.append_nil, collectFields_eq]
  | .tryStmt tryBody catchClauses finallyBody => by
    rw [collectFieldsFromStmt, stmtFields, addFields_append, addFields_append, collectFields_eq,
      collectCatches_eq, collectFields_eq]
  | .withStmt _ _ _ | .matchStmt _ _ | .exprStmt _ | .constStmt _ _ _ | .tupleUnpackStmt _ _ | .returnStmt _
  | .breakStmt | .continueStmt | .passStmt | .classDef _ _ | .throwStmt _ | .assertStmt _ _ | .delStmt _
  | .importStmt _ | .fromImportStmt _ _ | .interfaceDef _ _ | .enumDef _ _ | .yieldStmt _ | .chanSendStmt _ _ => rfl

theorem collectFields_eq (fields : List Name) : (stmts : List Stmt) →
    collectFields fields stmts = addFields fields (blockFields false stmts)
  | [] => rfl
  | s :: stmts => by
    rw [collectFields, blockFields, addFields_append, collectFields_eq, collectFieldsFromStmt_eq]

theorem collectElsifs_eq (fields : List Name) : (branches : List (Expr × List Stmt)) →
    collectElsifs fields branches = addFields fields (elsifFields false branches)
  | [] => rfl
  | (_, body) :: branches => by
    rw [collectElsifs, elsifFields, addFields_append, collectElsifs_eq, collectFields_eq]

theorem collectCatches_eq (fields : List Name) : (clauses : List (Name × Name × List Stmt)) →
    collectCatches fields clauses = addFields fields (catchFields false clauses)
  | [] => rfl
  | (_, _, body) :: clauses => by
    rw [collectCatches, catchFields, addFields_append, collectCatches_eq, collectFields_eq]

end

/-! ### The intended layout -/

section Layouts

variable (maps : ClassMaps)

/-- `b` is the base class of `a`, and in the program. -/
def Inherits (a b : Name) : Prop := maps.baseClasses a = some b ∧ (maps.classDefs b).isSome

/-- The fields of a class: those of its base class, when that is in the program, and then those of its body. -/
inductive Layout : Name → List Name → Prop
  | root {name : Name} {h : ClassHeader} {body : List Stmt} :
      maps.classDefs name = some (h, body) → (∀ b, ¬ Inherits maps name b) →
      Layout name (addFields [] (blockFields false body))
  | derived {name base : Name} {h : ClassHeader} {body : List Stmt} {inherited : List Name} :
      maps.classDefs name = some (h, body) → Inherits maps name base → Layout base inherited →
      Layout name (addFields (addFields [] inherited) (blockFields false body))

/-- The class or one that it inherits from assigns the field where the walk looks. -/
def Collected (name f : Name) : Prop :=
  ∃ ancestor h body, ReflTransGen (Inherits maps) name ancestor ∧ maps.classDefs ancestor = some (h, body) ∧
    f ∈ blockFields false body

variable {maps} {name base f : Name} {fields fields' : List Name}

theorem Inherits.unique {b c : Name} (hb : Inherits maps name b) (hc : Inherits maps name c) : b = c :=
  Option.some_injective _ (hb.1.symm.trans hc.1)

theorem Layout.nodup (h : Layout maps name fields) : fields.Nodup := by
  cases h with
  | root _ _ => exact addFields_nodup List.nodup_nil _
  | derived _ _ _ => exact addFields_nodup (addFields_nodup List.nodup_nil _) _

/-- A class has one layout. -/
theorem Layout.unique (h : Layout maps name fields) (h' : Layout maps name fields') : fields = fields' := by
  induction h generalizing fields' with
  | root hdef hroot =>
      cases h' with
      | root hdef' _ =>
          rw [hdef] at hdef'
          cases hdef'
          rfl
      | derived _ hbase _ => exact absurd hbase (hroot _)
  | derived hdef hbase _ ih =>
      cases h' with
      | root _ hroot => exact absurd hbase (hroot _)
      | derived hdef' hbase' hlayout =>
          rw [hdef] at hdef'
          cases hdef'
          cases hbase.unique hbase'
          rw [ih hlayout]

/-- The list of the base class comes first. -/
theorem Layout.base_extends (h : Layout maps name fields) (hbase : Inherits maps name base)
    (h' : Layout maps base fields') : fields' <+: fields := by
  cases h with
  | root _ hroot => exact absurd hbase (hroot _)
  | derived _ hbase' hlayout =>
      cases hbase.unique hbase'
      cases hlayout.unique h'
      rw [addFields_nil hlayout.nodup]
      exact addFields_prefix _ _

/-- The fields of a class are those that it or an ancestor assigns where the walk looks. -/
theorem Layout.mem_iff (h : Layout maps name fields) : f ∈ fields ↔ Collected maps name f := by
  induction h with
  | root hdef hroot =>
      rw [mem_addFields]
      constructor
      · rintro (hnil | hf)
        · exact absurd hnil List.not_mem_nil
        · exact ⟨_, _, _, .refl, hdef, hf⟩
      · rintro ⟨ancestor, h, body, hreach, hdef', hf⟩
        rcases hreach.cases_head with rfl | ⟨b, hbase, -⟩
        · rw [hdef] at hdef'
          cases hdef'
          exact .inr hf
        · exact absurd hbase (hroot b)
  | derived hdef hbase hlayout ih =>
      rw [mem_addFields, addFields_nil hlayout.nodup, ih]
      constructor
      · rintro (⟨ancestor, h, body, hreach, hdef', hf⟩ | hf)
        · exact ⟨ancestor, h, body, .head hbase hreach, hdef', hf⟩
        · exact ⟨_, _, _, .refl, hdef, hf⟩
      · rintro ⟨ancestor, h, body, hreach, hdef', hf⟩
        rcases hreach.cases_head with rfl | ⟨b, hbase', hreach⟩
        · rw [hdef] at hdef'
          cases hdef'
          exact .inr hf
        · cases hbase.unique hbase'
          exact .inl ⟨ancestor, h, body, hreach, hdef', hf⟩

end Layouts

/-! ### The second pass -/

section Pass

variable {maps : ClassMaps} {inside : Name → Prop} {name : Name} {A A₂ A₃ : ClassAnalyzer}

theorem setFields_self (A : ClassAnalyzer) (name : Name) (fields : List Name) :
    (A.setFields name fields).classFields name = fields := Function.update_self ..

theorem setFields_of_ne {n : Name} (hne : n ≠ name) (A : ClassAnalyzer) (fields : List Name) :
    (A.setFields name fields).classFields n = A.classFields n := Function.update_of_ne hne ..

/-- Between two calls: the classes that are done have their layout, and the others have no fields yet.  Those
`inside` are the classes whose calls wait for that of their base class. -/
structure Waiting (maps : ClassMaps) (inside : Name → Prop) (A : ClassAnalyzer) : Prop where
  done : ∀ n ∈ A.processed, ¬ inside n → Layout maps n (A.classFields n)
  fresh : ∀ n ∉ A.processed, A.classFields n = []
  known : ∀ n ∈ A.processed, (maps.classDefs n).isSome

/-- What is processed stays so, with the same list. -/
structure Grown (A A' : ClassAnalyzer) : Prop where
  keeps : ∀ n ∈ A.processed, n ∈ A'.processed
  same : ∀ n ∈ A.processed, A'.classFields n = A.classFields n

/-- What the call for `name` leaves. -/
structure Processed (maps : ClassMaps) (inside : Name → Prop) (name : Name) (A A' : ClassAnalyzer) : Prop where
  waiting : Waiting maps inside A'
  grown : Grown A A'
  mem : name ∈ A'.processed

/-- The state in which the call for the base class is made. -/
def started (A : ClassAnalyzer) (name : Name) : ClassAnalyzer := { A with processed := name :: A.processed }

theorem Waiting.started (h : Waiting maps inside A) (hdef : (maps.classDefs name).isSome) :
    Waiting maps (fun n => n = name ∨ inside n) (started A name) where
  done n hn hout := by
    rcases List.mem_cons.mp hn with rfl | hn
    · exact absurd (.inl rfl) hout
    · exact h.done n hn fun hin => hout (.inr hin)
  fresh n hn := h.fresh n fun hmem => hn (List.mem_cons_of_mem _ hmem)
  known n hn := by
    rcases List.mem_cons.mp hn with rfl | hn
    · exact hdef
    · exact h.known n hn

/-- The list of `name` is written last, and nothing else is. -/
theorem Processed.of_layout (hwaiting : Waiting maps (fun n => n = name ∨ inside n) A₂)
    (hgrown : Grown (started A name) A₂) (hnew : name ∉ A.processed) (hprocessed : A₃.processed = A₂.processed)
    (hother : ∀ n, n ≠ name → A₃.classFields n = A₂.classFields n)
    (hlayout : Layout maps name (A₃.classFields name)) : Processed maps inside name A A₃ := by
  have hmem : name ∈ A₂.processed := hgrown.keeps name List.mem_cons_self
  refine ⟨⟨?_, ?_, ?_⟩, ⟨?_, ?_⟩, hprocessed ▸ hmem⟩
  · intro n hn hout
    by_cases hne : n = name
    · exact hne ▸ hlayout
    · rw [hother n hne]
      exact hwaiting.done n (hprocessed ▸ hn) fun h => h.elim hne hout
  · intro n hn
    rw [hprocessed] at hn
    rw [hother n fun hne => hn (hne ▸ hmem)]
    exact hwaiting.fresh n hn
  · exact fun n hn => hwaiting.known n (hprocessed ▸ hn)
  · exact fun n hn => hprocessed ▸ hgrown.keeps n (List.mem_cons_of_mem _ hn)
  · intro n hn
    rw [hother n fun hne => hnew (hne ▸ hn)]
    exact hgrown.same n (List.mem_cons_of_mem _ hn)

theorem collect_eq {h : ClassHeader} {body : List Stmt} (hdef : maps.classDefs name = some (h, body))
    (A : ClassAnalyzer) : A.collect maps name =
      A.setFields name (addFields (A.classFields name) (blockFields false body)) := by
  rw [ClassAnalyzer.collect, hdef, ← collectFields_eq]

/-- **A call, and the calls in it.**  Without cycles the base class is not among those that wait. -/
theorem processClass_spec (hacyclic : ∀ n, ¬ TransGen (Inherits maps) n n) (order : HashOrder maps)
    (name : Name) (hname : name ∈ order.names) (A : ClassAnalyzer) (inside : Name → Prop)
    (hinside : ∀ n, inside n → TransGen (Inherits maps) n name) (hA : Waiting maps inside A) :
    Processed maps inside name A (processClass order name hname A) := by
  have hout : ¬ inside name := fun h => hacyclic name (hinside name h)
  by_cases hdone : name ∈ A.processed
  · rw [processClass, dif_pos hdone]
    exact ⟨hA, ⟨fun _ h => h, fun _ _ => rfl⟩, hdone⟩
  have hsome : (maps.classDefs name).isSome := (order.mem_iff name).mp hname
  obtain ⟨⟨header, body⟩, hdef⟩ := Option.isSome_iff_exists.mp hsome
  have hstarted := hA.started hsome
  have hempty : (started A name).classFields name = [] := hA.fresh name hdone
  rw [processClass, dif_neg hdone]
  cases hbase : maps.baseClasses name with
  | none =>
      have hroot : ∀ b, ¬ Inherits maps name b := fun b hb => by
        rw [Inherits, hbase] at hb
        cases hb.1
      show Processed maps inside name A (ClassAnalyzer.collect (started A name) maps name)
      refine .of_layout hstarted ⟨fun _ h => h, fun _ _ => rfl⟩ hdone ?_ ?_ ?_
      · rw [collect_eq hdef]
        rfl
      · intro n hne
        rw [collect_eq hdef, setFields_of_ne hne]
      · rw [collect_eq hdef, setFields_self, hempty]
        exact .root hdef hroot
  | some baseName =>
      by_cases hmem : baseName ∈ order.names
      · -- the base class is processed first; none of the waiting calls is its own
        have hinherits : Inherits maps name baseName := ⟨hbase, (order.mem_iff baseName).mp hmem⟩
        have hbaseInside : ∀ n, n = name ∨ inside n → TransGen (Inherits maps) n baseName := by
          rintro n (rfl | hn)
          · exact .single hinherits
          · exact (hinside n hn).tail hinherits
        have hrec := processClass_spec hacyclic order baseName hmem (started A name) _ hbaseInside hstarted
        have hbaseOut : ¬ (baseName = name ∨ inside baseName) := fun h => hacyclic baseName (hbaseInside _ h)
        have hbaseLayout := hrec.waiting.done baseName hrec.mem hbaseOut
        have hstill := hrec.grown.same name List.mem_cons_self
        rw [hempty] at hstill
        show Processed maps inside name A (ClassAnalyzer.collect (ClassAnalyzer.inherit
          (if hbase : baseName ∈ order.names then processClass order baseName hbase (started A name)
            else started A name) name baseName) maps name)
        rw [dif_pos hmem]
        refine .of_layout hrec.waiting hrec.grown hdone ?_ ?_ ?_
        · rw [collect_eq hdef]
          rfl
        · intro n hne
          rw [collect_eq hdef, setFields_of_ne hne, ClassAnalyzer.inherit, setFields_of_ne hne]
        · rw [collect_eq hdef, setFields_self, ClassAnalyzer.inherit, setFields_self, hstill]
          exact .derived hdef hinherits hbaseLayout
      · -- a base class of another program has no fields here
        have hroot : ∀ b, ¬ Inherits maps name b := fun b hb => by
          have heq : baseName = b := Option.some_injective _ (hbase.symm.trans hb.1)
          exact hmem ((order.mem_iff baseName).mpr (heq ▸ hb.2))
        have hnone : (started A name).classFields baseName = [] :=
          hA.fresh baseName fun h => hmem ((order.mem_iff baseName).mpr (hA.known baseName h))
        show Processed maps inside name A (ClassAnalyzer.collect (ClassAnalyzer.inherit
          (if hbase : baseName ∈ order.names then processClass order baseName hbase (started A name)
            else started A name) name baseName) maps name)
        rw [dif_neg hmem]
        refine .of_layout hstarted ⟨fun _ h => h, fun _ _ => rfl⟩ hdone ?_ ?_ ?_
        · rw [collect_eq hdef]
          rfl
        · intro n hne
          rw [collect_eq hdef, setFields_of_ne hne, ClassAnalyzer.inherit, setFields_of_ne hne]
        · rw [collect_eq hdef, setFields_self, ClassAnalyzer.inherit, setFields_self, hempty, hnone]
          exact .root hdef hroot
termination_by (order.names.filter (· ∉ A.processed)).length
decreasing_by exact unprocessed_lt hname hdone

/-- One class after another. -/
theorem processAll_spec (hacyclic : ∀ n, ¬ TransGen (Inherits maps) n n) (order : HashOrder maps)
    (names : List {n // n ∈ order.names}) (A : ClassAnalyzer) (hA : Waiting maps (fun _ => False) A) :
    Waiting maps (fun _ => False) (names.foldl (fun A n => processClass order n.1 n.2 A) A) ∧
      ∀ n, n ∈ A.processed ∨ n ∈ names.map (·.1) →
        n ∈ (names.foldl (fun A n => processClass order n.1 n.2 A) A).processed := by
  induction names generalizing A with
  | nil => exact ⟨hA, fun n hn => hn.resolve_right List.not_mem_nil⟩
  | cons name names ih =>
      have hcall := processClass_spec hacyclic order name.1 name.2 A _ (fun _ h => h.elim) hA
      obtain ⟨hwaiting, hall⟩ := ih _ hcall.waiting
      refine ⟨hwaiting, fun n hn => hall n ?_⟩
      rcases hn with hn | hn
      · exact .inl (hcall.grown.keeps n hn)
      · rcases List.mem_cons.mp hn with rfl | hn
        · exact .inl hcall.mem
        · exact .inr hn

end Pass

/-! ### Programs -/

section Programs

variable {program : List Stmt} {order : HashOrder (collectClasses program)} {name : Name}

/-- The primary inheritance of the program has no cycle. -/
def Acyclic (program : List Stmt) : Prop := ∀ n, ¬ TransGen (Inherits (collectClasses program)) n n

/-- Every class gets its layout, in whatever order the hash map is gone through. -/
theorem analyze_layout (hacyclic : Acyclic program) (hname : name ∈ order.names) :
    Layout (collectClasses program) name ((analyze program order).classFields name) := by
  have hstart : Waiting (collectClasses program) (fun _ => False) {} :=
    ⟨fun n hn => absurd hn List.not_mem_nil, fun _ _ => rfl, fun n hn => absurd hn List.not_mem_nil⟩
  obtain ⟨hwaiting, hall⟩ := processAll_spec hacyclic order order.names.attach {} hstart
  refine hwaiting.done name (hall name (.inr ?_)) fun h => h
  rw [List.attach_map_subtype_val]
  exact hname

section Enter

variable (maps : ClassMaps) {header : ClassHeader} {stmts : List Stmt}

theorem enter_classDefs_self : (maps.enter (.classDef header stmts)).classDefs header.name = some (header, stmts) :=
  Function.update_self ..

theorem enter_classDefs_of_ne (hne : name ≠ header.name) :
    (maps.enter (.classDef header stmts)).classDefs name = maps.classDefs name := Function.update_of_ne hne ..

theorem enter_baseClasses_self {base : Name} (hbase : header.baseClass = some base) :
    (maps.enter (.classDef header stmts)).baseClasses header.name = some base := by
  rw [ClassMaps.enter, hbase]
  exact Function.update_self ..

theorem enter_baseClasses_of_ne (hne : name ≠ header.name) :
    (maps.enter (.classDef header stmts)).baseClasses name = maps.baseClasses name := by
  rw [ClassMaps.enter]
  cases header.baseClass with
  | none => rfl
  | some base => exact Function.update_of_ne hne ..

end Enter

/-- The base class that a definition names is the one that is found for it. -/
theorem baseClass_eq (program : List Stmt) {h : ClassHeader} {body : List Stmt} {base : Name}
    (hdef : (collectClasses program).classDefs name = some (h, body)) (hbase : h.baseClass = some base) :
    (collectClasses program).baseClasses name = some base := by
  induction program using List.reverseRecOn with
  | nil => cases hdef
  | append_singleton program s ih =>
      rw [collectClasses, List.foldl_append] at hdef ⊢
      show ((collectClasses program).enter s).baseClasses name = some base
      have hdef : ((collectClasses program).enter s).classDefs name = some (h, body) := hdef
      cases s with
      | classDef header stmts =>
          by_cases hname : name = header.name
          · subst hname
            rw [enter_classDefs_self] at hdef
            cases hdef
            exact enter_baseClasses_self _ hbase
          · rw [enter_classDefs_of_ne _ hname] at hdef
            rw [enter_baseClasses_of_ne _ hname]
            exact ih hdef
      | _ => exact ih hdef

/-- The fields that `init` and the methods of a class assign. -/
def methodFields (body : List Stmt) : List Name :=
  body.flatMap fun
    | .initDef _ stmts => blockFields true stmts
    | .funcDef _ stmts => blockFields true stmts
    | _ => []

/-- What the analyzer is for. -/
structure LaidOut (program : List Stmt) (A : ClassAnalyzer) : Prop where
  nodup : ∀ name h body, (collectClasses program).classDefs name = some (h, body) → (A.classFields name).Nodup
  inherits : ∀ name h body, (collectClasses program).classDefs name = some (h, body) →
    ∀ base, h.baseClass = some base → ((collectClasses program).classDefs base).isSome →
      A.classFields base <+: A.classFields name
  complete : ∀ name h body, (collectClasses program).classDefs name = some (h, body) →
    ∀ f ∈ methodFields body, f ∈ A.classFields name

/-- Every field that `init` or a method assigns is also assigned where the walk looks: in the class itself or in
one that it inherits from. -/
def Covered (program : List Stmt) : Prop :=
  ∀ name h body, (collectClasses program).classDefs name = some (h, body) →
    ∀ f ∈ methodFields body, Collected (collectClasses program) name f

theorem analyze_layout_of_def (hacyclic : Acyclic program) (order : HashOrder (collectClasses program))
    {h : ClassHeader} {body : List Stmt} (hdef : (collectClasses program).classDefs name = some (h, body)) :
    Layout (collectClasses program) name ((analyze program order).classFields name) := by
  refine analyze_layout hacyclic ((order.mem_iff name).mpr ?_)
  rw [hdef]
  rfl

/-- **Class layout.**  Without cycles, every class has the list that it is meant to have exactly when each field
that its methods assign is also assigned where the walk looks. -/
theorem layout_iff (hacyclic : Acyclic program) (order : HashOrder (collectClasses program)) :
    LaidOut program (analyze program order) ↔ Covered program := by
  constructor
  · intro hlaid name h body hdef f hf
    exact (analyze_layout_of_def hacyclic order hdef).mem_iff.mp (hlaid.complete name h body hdef f hf)
  · intro hcovered
    refine ⟨fun name h body hdef => (analyze_layout_of_def hacyclic order hdef).nodup, ?_, ?_⟩
    · intro name h body hdef base hbase hsome
      obtain ⟨⟨header, stmts⟩, hdef'⟩ := Option.isSome_iff_exists.mp hsome
      exact (analyze_layout_of_def hacyclic order hdef).base_extends ⟨baseClass_eq program hdef hbase, hsome⟩
        (analyze_layout_of_def hacyclic order hdef')
    · intro name h body hdef f hf
      exact (analyze_layout_of_def hacyclic order hdef).mem_iff.mpr (hcovered name h body hdef f hf)

/-- `class A` with the given statements in its `init`. -/
def classOf (stmts : List Stmt) : List Stmt := [.classDef { name := ['A'] } [.initDef [] stmts]]

/-- `this.x = null`. -/
def assignField : Stmt := .assignStmt (.memberExpr .thisExpr ['x']) .nullLiteral [] []

theorem classOf_acyclic (stmts : List Stmt) : Acyclic (classOf stmts) := by
  intro n h
  obtain ⟨b, ⟨hbase, -⟩, -⟩ := TransGen.head'_iff.mp h
  cases hbase

/-- `class A` whose `init` assigns a field, and `class B` derived from it. -/
def twoClasses : List Stmt :=
  [.classDef { name := ['A'] } [.initDef [] [assignField]], .classDef { name := ['B'], baseClass := some ['A'] } []]

theorem twoClasses_inherits {a b : Name} (h : Inherits (collectClasses twoClasses) a b) : a = ['B'] ∧ b = ['A'] := by
  have hbase : Function.update (fun _ => none) ['B'] (some ['A']) a = some b := h.1
  by_cases ha : a = ['B']
  · subst ha
    rw [Function.update_self] at hbase
    exact ⟨rfl, (Option.some_injective _ hbase).symm⟩
  · rw [Function.update_of_ne ha] at hbase
    cases hbase

theorem twoClasses_acyclic : Acyclic twoClasses := by
  intro n h
  obtain ⟨b, hbase, hback⟩ := TransGen.head'_iff.mp h
  obtain ⟨rfl, rfl⟩ := twoClasses_inherits hbase
  rcases hback.cases_head with heq | ⟨c, hbase, -⟩
  · cases heq
  · cases (twoClasses_inherits hbase).1

def twoClassesOrder : HashOrder (collectClasses twoClasses) where
  names := [['B'], ['A']]
  nodup := by decide
  mem_iff name := by
    show name ∈ _ ↔ (Function.update (Function.update (fun _ => none) ['A'] _) ['B'] _ name).isSome
    by_cases hb : name = ['B']
    · subst hb
      exact ⟨fun _ => rfl, fun _ => List.mem_cons_self⟩
    by_cases ha : name = ['A']
    · subst ha
      exact ⟨fun _ => rfl, fun _ => List.mem_cons_of_mem _ List.mem_cons_self⟩
    rw [Function.update_of_ne hb, Function.update_of_ne ha]
    constructor
    · intro h
      rcases List.mem_cons.mp h with rfl | h
      · exact absurd rfl hb
      · exact absurd (List.mem_singleton.mp h) ha
    · exact fun h => by cases h

/-- The derived class comes first in the hash map. -/
theorem layout_iff_twoClasses :
    LaidOut twoClasses (analyze twoClasses twoClassesOrder) ↔ Covered twoClasses :=
  layout_iff twoClasses_acyclic twoClassesOrder

/-- A field that `init` assigns in the `else` block of a loop, as in `while null:` … `else:` `this.x = null`. -/
theorem layout_loop_else :
    Acyclic (classOf [.whileStmt .nullLiteral [.passStmt] [assignField]]) ∧
    ∀ order, ¬ LaidOut (classOf [.whileStmt .nullLiteral [.passStmt] [assignField]])
      (analyze (classOf [.whileStmt .nullLiteral [.passStmt] [assignField]]) order) := by
  refine ⟨classOf_acyclic _, fun order hlaid => ?_⟩
  have hdef : (collectClasses (classOf [.whileStmt .nullLiteral [.passStmt] [assignField]])).classDefs ['A'] =
      some ({ name := ['A'] }, [.initDef [] [.whileStmt .nullLiteral [.passStmt] [assignField]]]) := rfl
  have hmem := hlaid.complete ['A'] _ _ hdef ['x'] (List.mem_singleton_self _)
  obtain ⟨ancestor, h, body, hreach, hfound, hf⟩ :=
    (analyze_layout_of_def (classOf_acyclic _) order hdef).mem_iff.mp hmem
  rcases hreach.cases_head with rfl | ⟨b, ⟨hbase, -⟩, -⟩
  · rw [hdef] at hfound
    cases hfound
    cases hf
  · cases hbase

end Programs

end Visuall.Classes
