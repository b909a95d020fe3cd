import Visuall.Checker.Statements
import Visuall.Checker.Walk
import Visuall.Lib.Effect

/-!
# Visitors that follow the names

When the runs of a visitor are walks over some acts, with the reports of the errors it adds, and the rules
by which this is put together.

* `Follows W acts x` — in a state where the names `W` are in scope, running `x` is a walk over `acts`;
* `Quiet x` — `x` does nothing with names;
* `Follows.bind`, `Follows.inScope`, `Follows.assign`, … — the rules.
-/

namespace Visuall.Checker

open Visuall.Ast Visuall.Types

/-- What an error reports. -/
def report : TypeErr → Report
  | .undefinedVariable name => .undefined name
  | .constantReassigned name pos => .constant name pos
  | .sendTo _ => .unsent
  | _ => .other

/-- The names that a state knows. -/
def State.known (σ : State) : Known := ⟨{n | σ.isDeclared n = true}, {n | n ∈ σ.constVars}⟩

namespace State

variable (σ : State) (m n : Name) (t : Ty)

theorem isDeclared_declare (hne : σ.symbols ≠ []) :
    (σ.declare n t).isDeclared m = (decide (m = n) || σ.isDeclared m) := by
  rcases σ with ⟨_ | ⟨scope, scopes⟩, consts, errors⟩
  · exact absurd rfl hne
  · show (((n, t) :: scope) :: scopes).any _ = _
    rw [List.any_cons, List.lookup_cons]
    by_cases hm : m = n
    · simp [hm]
    · rw [beq_false_of_ne hm, decide_eq_false hm]
      simp [State.isDeclared]

theorem known_declare (hne : σ.symbols ≠ []) : (σ.declare n t).known = σ.known.declare n := by
  have hconsts : (σ.declare n t).constVars = σ.constVars := by
    unfold State.declare
    split <;> rfl
  apply Known.ext
  · ext m
    show (σ.declare n t).isDeclared m = true ↔ m ∈ insert n {k | σ.isDeclared k = true}
    rw [isDeclared_declare σ m n t hne, Bool.or_eq_true, decide_eq_true_eq]
    exact Iff.rfl
  · show {k | k ∈ (σ.declare n t).constVars} = {k | k ∈ σ.constVars}
    rw [hconsts]

theorem declare_symbols (hne : σ.symbols ≠ []) :
    (σ.declare n t).symbols ≠ [] ∧ (σ.declare n t).symbols.tail = σ.symbols.tail := by
  rcases σ with ⟨_ | ⟨scope, scopes⟩, consts, errors⟩
  · exact absurd rfl hne
  · exact ⟨List.cons_ne_nil _ _, rfl⟩

theorem declare_errors : (σ.declare n t).errors = σ.errors := by
  unfold State.declare
  split <;> rfl

theorem known_enterScope : σ.enterScope.known = σ.known := by
  apply Known.ext
  · ext m
    show ([] :: σ.symbols).any _ = true ↔ σ.symbols.any _ = true
    rw [List.any_cons]
    rfl
  · rfl

end State

variable {α β : Type} {W W' : Set Name} {acts as bs : List NameAct} {x : Check α} {f : α → Check β}
  {σ σ' : State} {n : Name} {t : Ty} {e : TypeErr}

/-- What a run does with the names: a walk to where it ends, in the same scopes. -/
def Walked (acts : List NameAct) (σ : State) (r : Except Stop α) (σ' : State) (rs : List Report) :
    Prop :=
  match r with
  | .ok _ =>
      σ'.symbols ≠ [] ∧ σ'.symbols.tail = σ.symbols.tail ∧ Walk acts σ.known (some σ'.known) rs
  | .error _ => Walk acts σ.known none rs

/-- **A visitor follows the acts.**  From a state with the names `W` in scope, a run of it is a walk over
the acts, with the reports of the errors it adds. -/
def Follows (W : Set Name) (acts : List NameAct) (x : Check α) : Prop :=
  ∀ σ, σ.symbols ≠ [] → W ⊆ σ.known.visible →
    ∃ errs rs, (x σ).2.errors = σ.errors ++ errs ∧ errs.map report = rs ∧
      Walked acts σ (x σ).1 (x σ).2 rs

namespace Follows

/-! ## Rules -/

theorem mono (h : Follows W acts x) (hW : W ⊆ W') : Follows W' acts x :=
  fun σ hne hvis => h σ hne (hW.trans hvis)

theorem pure (a : α) : Follows W [] (Pure.pure a : Check α) := by
  intro σ hne _
  exact ⟨[], [], (List.append_nil _).symm, rfl, hne, rfl, .nil⟩

/-- A visitor may be left by throwing, whatever is still to come. -/
theorem throw (s : Stop) : Follows W acts (MonadExcept.throw s : Check α) := by
  intro σ _ _
  exact ⟨[], [], (List.append_nil _).symm, rfl, .cut⟩

theorem bind (hx : Follows W as x) (hf : ∀ a, Follows W bs (f a)) : Follows W (as ++ bs) (x >>= f) := by
  intro σ hne hvis
  obtain ⟨errs, rs, herrs, hreport, hwalk⟩ := hx σ hne hvis
  rw [Effect.bind_run]
  rcases hrun : x σ with ⟨s | a, τ⟩
  · rw [hrun] at herrs hwalk
    exact ⟨errs, rs, herrs, hreport, Walk.append_none hwalk⟩
  · rw [hrun] at herrs hwalk
    obtain ⟨hne', htail, hwalk⟩ := hwalk
    obtain ⟨errs', rs', herrs', hreport', hwalk'⟩ :=
      hf a τ hne' (hvis.trans hwalk.mono.1)
    refine ⟨errs ++ errs', rs ++ rs', ?_, ?_, ?_⟩
    · show (f a τ).2.errors = _
      rw [herrs', ← List.append_assoc]
      exact congrArg (· ++ errs') herrs
    · rw [List.map_append, hreport, hreport']
    · show Walked _ σ (f a τ).1 (f a τ).2 _
      unfold Walked at hwalk' ⊢
      split at hwalk'
      · obtain ⟨hne'', htail', hwalk'⟩ := hwalk'
        exact ⟨hne'', htail'.trans htail, hwalk.append_some hwalk'⟩
      · exact hwalk.append_some hwalk'

/-- A visitor that goes on with nothing that matters for names. -/
theorem bind_quiet (hx : Follows W as x) (hf : ∀ a, Follows W [] (f a)) :
    Follows W as (x >>= f) := by
  have h := hx.bind hf
  rwa [List.append_nil] at h

theorem quiet_bind (hx : Follows W [] x) (hf : ∀ a, Follows W bs (f a)) : Follows W bs (x >>= f) :=
  hx.bind hf

/-- Reading the state first. -/
theorem get_bind {g : State → Check α}
    (hg : ∀ σ : State, ∃ W', W' ⊆ σ.known.visible ∧ Follows (W ∪ W') acts (g σ)) :
    Follows W acts (get >>= g) := by
  intro σ hne hvis
  obtain ⟨W', hW', hfollows⟩ := hg σ
  exact hfollows σ hne (Set.union_subset hvis hW')

/-- An error that is none about names. -/
theorem error (he : report e = .other) : Follows W [] (Checker.error e) := by
  intro σ hne _
  refine ⟨[e], [.other], rfl, ?_, hne, rfl, .other .nil⟩
  rw [List.map_singleton, he]

/-- An error in place of the value of a send. -/
theorem unsent (body : List NameAct) (he : report e = .unsent) :
    Follows W [.sent body] (Checker.error e) := by
  intro σ hne _
  refine ⟨[e], [.unsent], rfl, ?_, hne, rfl, .unsent .nil⟩
  rw [List.map_singleton, he]

theorem sent (hx : Follows W acts x) : Follows W [.sent acts] x := by
  intro σ hne hvis
  obtain ⟨errs, rs, herrs, hreport, hwalk⟩ := hx σ hne hvis
  refine ⟨errs, rs, herrs, hreport, ?_⟩
  unfold Walked at hwalk ⊢
  split at hwalk
  · obtain ⟨hne', htail, hwalk⟩ := hwalk
    have hsent : Walk [.sent acts] σ.known (some (x σ).2.known) (rs ++ []) := .sent hwalk .nil
    rw [List.append_nil] at hsent
    exact ⟨hne', htail, hsent⟩
  · exact .sentCut hwalk

/-- Acts behind which nothing has changed. -/
theorem pass (hx : Follows W as x) (hbs : ∀ s, Walk bs s (some s) []) : Follows W (as ++ bs) x := by
  intro σ hne hvis
  obtain ⟨errs, rs, herrs, hreport, hwalk⟩ := hx σ hne hvis
  refine ⟨errs, rs, herrs, hreport, ?_⟩
  unfold Walked at hwalk ⊢
  split at hwalk
  · obtain ⟨hne', htail, hwalk⟩ := hwalk
    have hpass : Walk (as ++ bs) σ.known (some (x σ).2.known) (rs ++ []) := hwalk.append_some (hbs _)
    rw [List.append_nil] at hpass
    exact ⟨hne', htail, hpass⟩
  · exact hwalk.append_none

/-- What no visitor goes into. -/
theorem skipped (hx : Follows W as x) (body : List NameAct) :
    Follows W (as ++ [.skipped body]) x := hx.pass fun _ => .skipped .nil

theorem del (hx : Follows W as x) (n : Name) : Follows W (as ++ [.del n]) x :=
  hx.pass fun _ => .del .nil

theorem scope_skipped (hx : Follows W [.scope as] x) (body : List NameAct) :
    Follows W [.scope as, .skipped body] x := hx.skipped body

theorem scope_bind (hx : Follows W [.scope as] x) (hf : ∀ a, Follows W bs (f a)) :
    Follows W (.scope as :: bs) (x >>= f) := hx.bind hf

theorem emptyScope : Follows W [.scope []] (Pure.pure () : Check Unit) :=
  (pure ()).pass fun _ => .scope .nil .nil

/-- A block with a scope of its own. -/
theorem inScope (hx : Follows W acts x) : Follows W [.scope acts] (Checker.inScope x) := by
  intro σ hne hvis
  obtain ⟨errs, rs, herrs, hreport, hwalk⟩ :=
    hx σ.enterScope (List.cons_ne_nil _ _) (by rwa [State.known_enterScope])
  have hrun : Checker.inScope x σ = match x σ.enterScope with
      | (.ok a, τ) => (.ok a, τ.exitScope)
      | (.error s, τ) => (.error s, τ) := by
    unfold Checker.inScope
    rw [Effect.bind_run, Effect.modify_run]
    show (x >>= _) σ.enterScope = _
    rw [Effect.bind_run]
    rcases x σ.enterScope with ⟨s | a, τ⟩ <;> rfl
  rw [hrun]
  rcases hx' : x σ.enterScope with ⟨s | a, τ⟩
  · rw [hx'] at herrs hwalk
    unfold Walked at hwalk
    rw [State.known_enterScope] at hwalk
    exact ⟨errs, rs, herrs, hreport, .scopeCut hwalk⟩
  · rw [hx'] at herrs hwalk
    obtain ⟨-, htail, hwalk⟩ := hwalk
    rw [State.known_enterScope] at hwalk
    have hsymbols : τ.exitScope.symbols = σ.symbols := htail
    have hknown : τ.exitScope.known = { σ.known with consts := τ.known.consts } := by
      apply Known.ext
      · ext m
        show τ.exitScope.symbols.any _ = true ↔ σ.symbols.any _ = true
        rw [hsymbols]
      · rfl
    have hscope : Walk [.scope acts] σ.known (some τ.exitScope.known) (rs ++ []) := by
      rw [hknown]
      exact .scope hwalk .nil
    rw [List.append_nil] at hscope
    refine ⟨errs, rs, herrs, hreport, ?_, ?_, hscope⟩
    · rw [hsymbols]
      exact hne
    · rw [hsymbols]

/-! ## Names -/

/-- A state with another scope content and no error, in the same scopes. -/
theorem of_modify {g : State → State}
    (hg : ∀ σ, σ.symbols ≠ [] → W ⊆ σ.known.visible → (g σ).errors = σ.errors ∧ (g σ).symbols ≠ [] ∧
      (g σ).symbols.tail = σ.symbols.tail ∧ Walk acts σ.known (some (g σ).known) []) :
    Follows W acts (modify g) := by
  intro σ hne hvis
  obtain ⟨herrs, hne', htail, hwalk⟩ := hg σ hne hvis
  refine ⟨[], [], ?_, rfl, hne', htail, hwalk⟩
  rw [List.append_nil]
  exact herrs

theorem declare (n : Name) (t : Ty) : Follows W [.bind n] (Checker.declare n t) := by
  refine of_modify fun σ hne _ => ?_
  obtain ⟨hne', htail⟩ := σ.declare_symbols n t hne
  refine ⟨σ.declare_errors n t, hne', htail, ?_⟩
  rw [σ.known_declare n t hne]
  exact .bind .nil

theorem redeclare (n : Name) (t : Ty) : Follows W [.rebind n] (Checker.declare n t) := by
  refine of_modify fun σ hne _ => ?_
  obtain ⟨hne', htail⟩ := σ.declare_symbols n t hne
  refine ⟨σ.declare_errors n t, hne', htail, ?_⟩
  rw [σ.known_declare n t hne]
  exact .rebind .nil

/-- Declaring a name that is in scope changes nothing that matters. -/
theorem declare_visible (hn : n ∈ W) (t : Ty) : Follows W [] (Checker.declare n t) := by
  refine of_modify fun σ hne hvis => ?_
  obtain ⟨hne', htail⟩ := σ.declare_symbols n t hne
  refine ⟨σ.declare_errors n t, hne', htail, ?_⟩
  have hsame : σ.known.declare n = σ.known :=
    Known.ext (Set.insert_eq_of_mem (hvis hn)) rfl
  rw [σ.known_declare n t hne, hsame]
  exact .nil

theorem declareAll (t : Ty) (names : List Name) :
    Follows W (names.map .bind) (Checker.declareAll t names) := by
  induction names with
  | nil => exact pure ()
  | cons n names ih => exact (declare n t).bind fun _ => ih

theorem redeclareAll (t : Ty) (names : List Name) :
    Follows W (names.map .rebind) (Checker.declareAll t names) := by
  induction names with
  | nil => exact pure ()
  | cons n names ih => exact (redeclare n t).bind fun _ => ih

/-- What a lookup does: nothing, or one report. -/
theorem lookup_cases (name : Occurrence) (σ : State) :
    (σ.known.Resolves name.name ∧ ∃ t, Checker.lookup name σ = (.ok t, σ)) ∨
      (¬ σ.known.Resolves name.name ∧ Checker.lookup name σ =
        (.ok .unknown, { σ with errors := σ.errors ++ [.undefinedVariable name] })) := by
  have hrun : Checker.lookup name σ =
      if σ.isDeclared name.name then (.ok (σ.find name.name), σ)
      else if name.name ∈ builtins then (.ok .unknown, σ)
      else (.ok .unknown, { σ with errors := σ.errors ++ [.undefinedVariable name] }) := by
    show (if σ.isDeclared name.name = true then Checker.find name.name else _ : Check Ty) σ = _
    split_ifs <;> rfl
  rw [hrun]
  split_ifs with hdecl hbuiltin
  · exact .inl ⟨.inl hdecl, _, rfl⟩
  · exact .inl ⟨.inr hbuiltin, _, rfl⟩
  · refine .inr ⟨?_, rfl⟩
    rintro (hvis | hb)
    · exact hdecl hvis
    · exact hbuiltin hb

theorem lookup (name : Occurrence) : Follows W [.use name] (Checker.lookup name) := by
  intro σ hne _
  rcases lookup_cases name σ with ⟨hres, t, hrun⟩ | ⟨hres, hrun⟩
  · rw [hrun]
    exact ⟨[], [], (List.append_nil _).symm, rfl, hne, rfl, .use hres .nil⟩
  · rw [hrun]
    exact ⟨[.undefinedVariable name], [.undefined name], rfl, rfl, hne, rfl,
      .useUndefined hres .nil⟩

theorem lookupThis : Follows W [.this] (Checker.lookup thisName) := by
  intro σ hne _
  rcases lookup_cases thisName σ with ⟨hres, t, hrun⟩ | ⟨hres, hrun⟩
  · rw [hrun]
    exact ⟨[], [], (List.append_nil _).symm, rfl, hne, rfl, .this hres .nil⟩
  · rw [hrun]
    exact ⟨[.undefinedVariable thisName], [.undefined thisName], rfl, rfl, hne, rfl,
      .thisUndefined hres .nil⟩

end Follows

/-! ## What does not matter for names -/

/-- A computation that does nothing with names, in any state. -/
def Quiet (x : Check α) : Prop := ∀ W, Follows W [] x

namespace Quiet

theorem pure (a : α) : Quiet (Pure.pure a : Check α) := fun _ => .pure a

theorem throw (s : Stop) : Quiet (MonadExcept.throw s : Check α) := fun _ => .throw s

theorem error (he : report e = .other) : Quiet (Checker.error e) := fun _ => .error he

theorem bind (hx : Quiet x) (hf : ∀ a, Quiet (f a)) : Quiet (x >>= f) :=
  fun W => (hx W).quiet_bind fun a => hf a W

theorem ite {p : Prop} [Decidable p] {y : Check α} (hx : Quiet x) (hy : Quiet y) :
    Quiet (if p then x else y) := by
  split_ifs
  · exact hx
  · exact hy

theorem onlyIf {y : Check Unit} (hy : Quiet y) (c : Bool) : Quiet (Checker.onlyIf c y) :=
  hy.ite (pure ())

theorem errorIf (he : report e = .other) (c : Bool) : Quiet (Checker.onlyIf c (Checker.error e)) :=
  (error he).onlyIf c

end Quiet

/-! ## Assignments and declarations -/

namespace Follows

/-- The test whether a name is declared. -/
theorem isDeclared_bind {g : Bool → Check α} (htrue : Follows (W ∪ {n}) acts (g true))
    (hfalse : Follows W acts (g false)) : Follows W acts (Checker.isDeclared n >>= g) := by
  refine get_bind fun σ => ?_
  show ∃ W' : Set Name, W' ⊆ σ.known.visible ∧ Follows (W ∪ W') acts (g (σ.isDeclared n))
  cases hdecl : σ.isDeclared n with
  | true => exact ⟨{n}, Set.singleton_subset_iff.mpr hdecl, htrue⟩
  | false => exact ⟨∅, Set.empty_subset _, hfalse.mono Set.subset_union_left⟩

/-- Binding a name that is in scope. -/
theorem bound (hn : n ∈ W) (hx : Follows W [] x) : Follows W [.bind n] x := by
  intro σ hne hvis
  obtain ⟨errs, rs, herrs, hreport, hwalk⟩ := hx σ hne hvis
  refine ⟨errs, rs, herrs, hreport, ?_⟩
  have hsame : σ.known.declare n = σ.known := Known.ext (Set.insert_eq_of_mem (hvis hn)) rfl
  have hbind : ∀ out rs, Walk [] σ.known out rs → Walk [.bind n] σ.known out rs :=
    fun out rs h => .bind (by rwa [hsame])
  unfold Walked at hwalk ⊢
  split at hwalk
  · obtain ⟨hne', htail, hwalk⟩ := hwalk
    exact ⟨hne', htail, hbind _ _ hwalk⟩
  · exact hbind _ _ hwalk

/-- Declaring a const again. -/
theorem constAgain (hn : n ∈ W) (he : report e = .other) :
    Follows W [.const n] (Checker.error e) := by
  intro σ hne hvis
  refine ⟨[e], [.other], rfl, ?_, hne, rfl, .constAgain (hvis hn) .nil⟩
  rw [List.map_singleton, he]

theorem declareConst (n : Name) (t : Ty) :
    Follows W [.const n] (do
      Checker.declare n t
      insertConst n) := by
  show Follows W [.const n] (modify _)
  refine of_modify (g := fun σ => { σ.declare n t with constVars := n :: (σ.declare n t).constVars })
    fun σ hne _ => ?_
  obtain ⟨hne', htail⟩ := σ.declare_symbols n t hne
  refine ⟨σ.declare_errors n t, hne', htail, ?_⟩
  have hdecl : (σ.declare n t).known = σ.known.declare n := σ.known_declare n t hne
  have hknown : State.known { σ.declare n t with constVars := n :: (σ.declare n t).constVars } =
      σ.known.declareConst n := by
    apply Known.ext
    · show (σ.declare n t).known.visible = insert n σ.known.visible
      rw [hdecl]
      rfl
    · have hconsts : (σ.declare n t).known.consts = σ.known.consts := by
        rw [hdecl]
        rfl
      ext m
      show m ∈ n :: (σ.declare n t).constVars ↔ m ∈ insert n σ.known.consts
      rw [← hconsts, List.mem_cons]
      exact Iff.rfl
  rw [hknown]
  exact .const .nil

/-- **Assignments.**  The test for a const, then the value, then the declaration. -/
theorem assign (hvalue : Follows W as x) {k : α → Check Unit} (hk : ∀ a, Follows W [.bind n] (k a))
    (pos : Position) :
    Follows W [.assign n pos as] (do
      if n ∈ (← get).constVars then
        Checker.error (.constantReassigned n pos)
        let _ ← x
        Pure.pure ()
      else
        let a ← x
        k a) := by
  intro σ hne hvis
  rw [Effect.get_bind_run]
  by_cases hconst : n ∈ σ.constVars
  · let τ : State := { σ with errors := σ.errors ++ [.constantReassigned n pos] }
    let rest : Check Unit := x >>= fun _ => Pure.pure ()
    have hrest : Follows W as rest := hvalue.bind_quiet fun _ => pure ()
    obtain ⟨errs, rs, herrs, hreport, hwalk⟩ := hrest τ hne hvis
    rw [if_pos hconst]
    show ∃ errs rs, (rest τ).2.errors = σ.errors ++ errs ∧ errs.map report = rs ∧
      Walked _ σ (rest τ).1 (rest τ).2 rs
    refine ⟨.constantReassigned n pos :: errs, .constant n pos :: rs, ?_, ?_, ?_⟩
    · rw [herrs]
      exact List.append_assoc _ _ _
    · rw [List.map_cons, hreport]
      rfl
    · unfold Walked at hwalk ⊢
      split at hwalk
      · obtain ⟨hne', htail, hwalk⟩ := hwalk
        have hassign : Walk [.assign n pos as] σ.known (some (rest τ).2.known)
            (.constant n pos :: (rs ++ [])) := .assignConst hconst hwalk .nil
        rw [List.append_nil] at hassign
        exact ⟨hne', htail, hassign⟩
      · exact .assignConstCut hconst hwalk
  · rw [if_neg hconst, Effect.bind_run]
    obtain ⟨errs, rs, herrs, hreport, hwalk⟩ := hvalue σ hne hvis
    rcases hrun : x σ with ⟨s | a, τ⟩
    · rw [hrun] at herrs hwalk
      exact ⟨errs, rs, herrs, hreport, .assignCut hconst hwalk⟩
    · rw [hrun] at herrs hwalk
      obtain ⟨hne', htail, hwalk⟩ := hwalk
      obtain ⟨errs', rs', herrs', hreport', hwalk'⟩ := hk a τ hne' (hvis.trans hwalk.mono.1)
      refine ⟨errs ++ errs', rs ++ rs', ?_, ?_, ?_⟩
      · show (k a τ).2.errors = _
        rw [herrs', ← List.append_assoc]
        exact congrArg (· ++ errs') herrs
      · rw [List.map_append, hreport, hreport']
      · show Walked _ σ (k a τ).1 (k a τ).2 _
        unfold Walked at hwalk' ⊢
        split at hwalk'
        · obtain ⟨hne'', htail', hwalk'⟩ := hwalk'
          obtain ⟨hout, hrs⟩ := hwalk'.of_bind
          refine ⟨hne'', htail'.trans htail, ?_⟩
          rw [hout.resolve_left (Option.some_ne_none _)]
          exact .assign hconst hwalk (by simpa using Walk.others hrs .nil)
        · obtain ⟨-, hrs⟩ := hwalk'.of_bind
          exact .assign hconst hwalk (by simpa using Walk.others hrs .cut)

end Follows

end Visuall.Checker
