import Visuall.Checker.Statements

/-!
# The search for a return

`stmtListHasReturn` of `typechecker.cpp` against the returns that are in the control flow of a function body.

* `Part`, `returnPaths` — the blocks of statements, and for each return of a body the blocks that it is in;
* `alwaysReturns` — every path through a body ends with a return;
* `stmtListHasReturn_iff` — which returns the search finds;
* `complete_iff` — the bodies for which it finds what there is.
-/

namespace Visuall.Checker

open Visuall.Ast Visuall.Types

/-! ## Returns in a body -/

/-- The blocks that a statement has. -/
inductive Part
  | thenBranch | elsifBranch | elseBranch | loopBody | loopElse
  | tryBody | catchClause | finallyBody | withBody | matchCase
  deriving DecidableEq, Repr

/-- The search goes into the block. -/
def Part.searched : Part → Bool
  | .thenBranch | .loopBody => true
  | _ => false

mutual

/-- The returns of a statement: for each the blocks that it is in, the outermost first.  Functions and classes have
a control flow of their own. -/
def returnPathsOf : Stmt → List (List Part)
  | .returnStmt _ => [[]]
  | .ifStmt _ thenBranch elsifBranches elseBranch =>
      (returnPaths thenBranch).map (.thenBranch :: ·) ++ elsifPaths elsifBranches ++
        (returnPaths elseBranch).map (.elseBranch :: ·)
  | .forStmt _ _ _ body elseBranch =>
      (returnPaths body).map (.loopBody :: ·) ++ (returnPaths elseBranch).map (.loopElse :: ·)
  | .whileStmt _ body elseBranch =>
      (returnPaths body).map (.loopBody :: ·) ++ (returnPaths elseBranch).map (.loopElse :: ·)
  | .withStmt _ _ body => (returnPaths body).map (.withBody :: ·)
  | .tryStmt tryBody catchClauses finallyBody =>
      (returnPaths tryBody).map (.tryBody :: ·) ++ catchPaths catchClauses ++
        (returnPaths finallyBody).map (.finallyBody :: ·)
  | .matchStmt _ cases => casePaths cases
  | _ => []

/-- The returns of a body. -/
def returnPaths : List Stmt → List (List Part)
  | [] => []
  | s :: stmts => returnPathsOf s ++ returnPaths stmts

/-- The returns of `elsif` branches. -/
def elsifPaths : List (Expr × List Stmt) → List (List Part)
  | [] => []
  | (_, body) :: branches => (returnPaths body).map (.elsifBranch :: ·) ++ elsifPaths branches

/-- The returns of `catch` clauses. -/
def catchPaths : List (Name × Name × List Stmt) → List (List Part)
  | [] => []
  | (_, _, body) :: clauses => (returnPaths body).map (.catchClause :: ·) ++ catchPaths clauses

/-- The returns of the cases of a `match`. -/
def casePaths : List (Option Expr × Option Expr × List Stmt) → List (List Part)
  | [] => []
  | (_, _, body) :: cases => (returnPaths body).map (.matchCase :: ·) ++ casePaths cases

end

/-! ## Paths through a body -/

mutual

/-- Every path through a statement ends with a return. -/
def stmtAlwaysReturns : Stmt → Bool
  | .returnStmt _ => true
  | .ifStmt _ thenBranch elsifBranches elseBranch =>
      alwaysReturns thenBranch && elsifsReturn elsifBranches && alwaysReturns elseBranch
  | .withStmt _ _ body => alwaysReturns body
  | .tryStmt tryBody catchClauses finallyBody =>
      alwaysReturns finallyBody || alwaysReturns tryBody && catchesReturn catchClauses
  | .matchStmt _ cases => casesReturn cases
  | _ => false

/-- Every path through a body ends with a return. -/
def alwaysReturns : List Stmt → Bool
  | [] => false
  | s :: stmts => stmtAlwaysReturns s || alwaysReturns stmts

def elsifsReturn : List (Expr × List Stmt) → Bool
  | [] => true
  | (_, body) :: branches => alwaysReturns body && elsifsReturn branches

def catchesReturn : List (Name × Name × List Stmt) → Bool
  | [] => true
  | (_, _, body) :: clauses => alwaysReturns body && catchesReturn clauses

/-- One of the cases is taken if a case has neither a pattern nor a guard. -/
def casesReturn : List (Option Expr × Option Expr × List Stmt) → Bool
  | [] => false
  | (pattern, guard, body) :: cases =>
      alwaysReturns body && (pattern.isNone && guard.isNone || casesReturn cases)

end

/-! ## What the search finds -/

/-- A return that the search finds. -/
def Found (path : List Part) : Prop := ∀ part ∈ path, part.searched = true

instance (path : List Part) : Decidable (Found path) :=
  inferInstanceAs (Decidable (∀ part ∈ path, part.searched = true))

theorem found_cons {part : Part} {path : List Part} : Found (part :: path) ↔ part.searched = true ∧ Found path :=
  List.forall_mem_cons

/-- The returns of a block, seen from the statement that has it. -/
theorem exists_found_map {part : Part} {paths : List (List Part)} :
    (∃ path ∈ paths.map (part :: ·), Found path) ↔ part.searched = true ∧ ∃ path ∈ paths, Found path := by
  simp only [List.mem_map, exists_exists_and_eq_and, found_cons]
  constructor
  · intro h
    obtain ⟨path, hmem, hpart, hfound⟩ := h
    exact ⟨hpart, path, hmem, hfound⟩
  · intro h
    obtain ⟨hpart, path, hmem, hfound⟩ := h
    exact ⟨path, hmem, hpart, hfound⟩

theorem exists_found_append {paths paths' : List (List Part)} :
    (∃ path ∈ paths ++ paths', Found path) ↔ (∃ path ∈ paths, Found path) ∨ ∃ path ∈ paths', Found path := by
  simp only [List.mem_append, or_and_right, exists_or]

/-- None of the returns in a block that is not searched. -/
theorem not_found_of_all {paths : List (List Part)} {part : Part} (hpart : part.searched = false)
    (h : ∀ path ∈ paths, path.head? = some part) : ¬ ∃ path ∈ paths, Found path := by
  intro hfound
  obtain ⟨path, hmem, hpath⟩ := hfound
  have hhead : part ∈ path := List.mem_of_mem_head? (h path hmem)
  rw [hpath part hhead] at hpart
  cases hpart

theorem head_of_mem_map {part : Part} {paths : List (List Part)} :
    ∀ path ∈ paths.map (part :: ·), path.head? = some part := by
  intro path hmem
  obtain ⟨rest, _, rfl⟩ := List.mem_map.mp hmem
  rfl

theorem head_of_mem_elsifPaths (branches : List (Expr × List Stmt)) :
    ∀ path ∈ elsifPaths branches, path.head? = some .elsifBranch := by
  induction branches with
  | nil =>
    intro path hmem
    cases hmem
  | cons branch branches ih =>
    intro path hmem
    rcases List.mem_append.mp hmem with hmem | hmem
    · exact head_of_mem_map path hmem
    · exact ih path hmem

theorem head_of_mem_catchPaths (clauses : List (Name × Name × List Stmt)) :
    ∀ path ∈ catchPaths clauses, path.head? = some .catchClause := by
  induction clauses with
  | nil =>
    intro path hmem
    cases hmem
  | cons clause clauses ih =>
    intro path hmem
    rcases List.mem_append.mp hmem with hmem | hmem
    · exact head_of_mem_map path hmem
    · exact ih path hmem

theorem head_of_mem_casePaths (cases : List (Option Expr × Option Expr × List Stmt)) :
    ∀ path ∈ casePaths cases, path.head? = some .matchCase := by
  induction cases with
  | nil =>
    intro path hmem
    cases hmem
  | cons c cases ih =>
    intro path hmem
    rcases List.mem_append.mp hmem with hmem | hmem
    · exact head_of_mem_map path hmem
    · exact ih path hmem

mutual

theorem stmtHasReturn_iff : ∀ s : Stmt, stmtHasReturn s = true ↔ ∃ path ∈ returnPathsOf s, Found path
  | .returnStmt _ => by
    constructor
    · intro _
      exact ⟨[], List.mem_singleton_self _, fun part hpart => by cases hpart⟩
    · intro _
      rfl
  | .ifStmt _ thenBranch elsifBranches elseBranch => by
    have helsif := not_found_of_all rfl (head_of_mem_elsifPaths elsifBranches)
    rw [returnPathsOf, exists_found_append, exists_found_append, exists_found_map, exists_found_map,
      ← stmtListHasReturn_iff thenBranch]
    simp [stmtHasReturn, Part.searched, helsif]
  | .forStmt _ _ _ body elseBranch => by
    rw [returnPathsOf, exists_found_append, exists_found_map, exists_found_map, ← stmtListHasReturn_iff body]
    simp [stmtHasReturn, Part.searched]
  | .whileStmt _ body elseBranch => by
    rw [returnPathsOf, exists_found_append, exists_found_map, exists_found_map, ← stmtListHasReturn_iff body]
    simp [stmtHasReturn, Part.searched]
  | .withStmt _ _ body => by
    rw [returnPathsOf, exists_found_map]
    simp [stmtHasReturn, Part.searched]
  | .tryStmt tryBody catchClauses finallyBody => by
    have hcatch := not_found_of_all rfl (head_of_mem_catchPaths catchClauses)
    rw [returnPathsOf, exists_found_append, exists_found_append, exists_found_map, exists_found_map]
    simp [stmtHasReturn, Part.searched, hcatch]
  | .matchStmt _ cases => by
    have hcases := not_found_of_all rfl (head_of_mem_casePaths cases)
    rw [returnPathsOf]
    simp [stmtHasReturn, hcases]
  | .exprStmt _ | .assignStmt .. | .constStmt .. | .tupleUnpackStmt .. | .breakStmt | .continueStmt | .passStmt
  | .funcDef .. | .initDef .. | .classDef .. | .throwStmt _ | .assertStmt .. | .delStmt _ | .importStmt _
  | .fromImportStmt .. | .interfaceDef .. | .enumDef .. | .yieldStmt _ | .chanSendStmt .. => by
    simp [stmtHasReturn, returnPathsOf]

/-- **The search finds a return exactly if it is in then branches and bodies of loops only.** -/
theorem stmtListHasReturn_iff : ∀ body : List Stmt,
    stmtListHasReturn body = true ↔ ∃ path ∈ returnPaths body, Found path
  | [] => by simp [stmtListHasReturn, returnPaths]
  | s :: stmts => by
    rw [stmtListHasReturn, Bool.or_eq_true, returnPaths, exists_found_append, stmtHasReturn_iff s,
      stmtListHasReturn_iff stmts]

end

/-! ## Bodies that always return -/

theorem map_ne_nil {p : Part} {paths : List (List Part)} (h : paths ≠ []) : paths.map (p :: ·) ≠ [] :=
  mt List.map_eq_nil_iff.mp h

mutual

theorem paths_of_stmtAlwaysReturns : ∀ s : Stmt, stmtAlwaysReturns s = true → returnPathsOf s ≠ []
  | .returnStmt _, _ => by simp [returnPathsOf]
  | .ifStmt _ thenBranch elsifBranches elseBranch, h => by
    rw [stmtAlwaysReturns, Bool.and_eq_true, Bool.and_eq_true] at h
    have hthen := map_ne_nil (p := .thenBranch) (paths_of_alwaysReturns thenBranch h.1.1)
    rw [returnPathsOf]
    simp [hthen]
  | .withStmt _ _ body, h => map_ne_nil (paths_of_alwaysReturns body h)
  | .tryStmt tryBody catchClauses finallyBody, h => by
    rw [stmtAlwaysReturns, Bool.or_eq_true, Bool.and_eq_true] at h
    rw [returnPathsOf]
    rcases h with h | h
    · have hfinally := map_ne_nil (p := .finallyBody) (paths_of_alwaysReturns finallyBody h)
      simp [hfinally]
    · have htry := map_ne_nil (p := .tryBody) (paths_of_alwaysReturns tryBody h.1)
      simp [htry]
  | .matchStmt _ cases, h => paths_of_casesReturn cases h
  | .forStmt .., h | .whileStmt .., h
  | .exprStmt _, h | .assignStmt .., h | .constStmt .., h | .tupleUnpackStmt .., h | .breakStmt, h
  | .continueStmt, h | .passStmt, h | .funcDef .., h | .initDef .., h | .classDef .., h | .throwStmt _, h
  | .assertStmt .., h | .delStmt _, h | .importStmt _, h | .fromImportStmt .., h | .interfaceDef .., h
  | .enumDef .., h | .yieldStmt _, h | .chanSendStmt .., h => by cases h

/-- A body of which every path returns has a return. -/
theorem paths_of_alwaysReturns : ∀ body : List Stmt, alwaysReturns body = true → returnPaths body ≠ []
  | [], h => by cases h
  | s :: stmts, h => by
    rw [alwaysReturns, Bool.or_eq_true] at h
    rw [returnPaths]
    rcases h with h | h
    · have hs := paths_of_stmtAlwaysReturns s h
      simp [hs]
    · have hstmts := paths_of_alwaysReturns stmts h
      simp [hstmts]

theorem paths_of_casesReturn : ∀ cases : List (Option Expr × Option Expr × List Stmt),
    casesReturn cases = true → casePaths cases ≠ []
  | [], h => by cases h
  | (pattern, guard, body) :: cases, h => by
    rw [casesReturn, Bool.and_eq_true] at h
    have hbody := map_ne_nil (p := .matchCase) (paths_of_alwaysReturns body h.1)
    rw [casePaths]
    simp [hbody]

end

/-! ## The result -/

/-- The search finds a return exactly if there is one, and no function of which every path returns is rejected for
having none. -/
def Complete (body : List Stmt) : Prop :=
  (stmtListHasReturn body = true ↔ returnPaths body ≠ []) ∧
    (alwaysReturns body = true → ∀ (C : Context) (function : Name), checkMissingReturn C function body = pure ())

theorem checkMissingReturn_of_found {body : List Stmt} (h : stmtListHasReturn body = true) (C : Context)
    (function : Name) : checkMissingReturn C function body = pure () := by
  unfold checkMissingReturn
  rw [h, Bool.not_true, Bool.and_false]
  rfl

/-- **The bodies for which the search is complete**: those without a return, and those in which one is in then
branches and bodies of loops only. -/
theorem complete_iff (body : List Stmt) :
    Complete body ↔ returnPaths body = [] ∨ ∃ path ∈ returnPaths body, ∀ part ∈ path, part.searched = true := by
  have hfound := stmtListHasReturn_iff body
  constructor
  · intro h
    by_cases hpaths : returnPaths body = []
    · exact .inl hpaths
    · exact .inr (hfound.mp (h.1.mpr hpaths))
  · intro h
    have hcomplete : stmtListHasReturn body = true ↔ returnPaths body ≠ [] := by
      constructor
      · intro hsearch
        obtain ⟨path, hmem, _⟩ := hfound.mp hsearch
        exact List.ne_nil_of_mem hmem
      · intro hpaths
        exact hfound.mpr (h.resolve_left hpaths)
    constructor
    · exact hcomplete
    · intro halways C function
      exact checkMissingReturn_of_found (hcomplete.mpr (paths_of_alwaysReturns body halways)) C function

/-- `try: return 1`, and `catch e: return 2`. -/
def tryReturning : List Stmt :=
  [.tryStmt [.returnStmt (some (.intLiteral 1))] [([], "e".toList, [.returnStmt (some (.intLiteral 2))])] []]

/-- Every path of the body returns, and the function is rejected. -/
theorem tryReturning_rejected :
    ¬ Complete tryReturning ∧ alwaysReturns tryReturning = true ∧
      (check [.funcDef { name := "f".toList, params := [], returnType := intName } tryReturning]).2.errors =
        [.missingReturn "f".toList .int] := by
  constructor
  · intro h
    have hfound : stmtListHasReturn tryReturning = true := h.1.mpr (List.cons_ne_nil _ _)
    cases hfound
  · exact ⟨rfl, rfl⟩

end Visuall.Checker
