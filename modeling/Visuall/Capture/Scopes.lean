import Visuall.Capture.Analyzer
import Visuall.Lib.Binding

/-!
# What is bound where

The language's binders: a program as a tree of items, where the parts that the analyzer does not walk into are
hidden, and the bindings that it does not define are unknown.

* `tree`, `items`, `programItems` — the expressions, the statements and the program;
* `analyze_seen` — the analyzer leaves in the lambda expressions it comes to, in order, what it can see there.
-/

namespace Visuall.Capture

open Visuall.Ast Visuall.Binding

/-! ## Programs with binders -/

mutual

/-- An expression.  A closure is tagged with the body of the lambda expression. -/
def tree : Expr → Tree Name Expr
  | .identifier id => .name id.name
  | .lambdaExpr params body => .closure body params (tree body)
  | .walrusExpr target value => .assign target (tree value)
  | .listComprehension body var iterable condition =>
    .node [tree iterable, .binder var (tree body :: optionTrees condition)]
  | .dictComprehension key value var iterable condition =>
    .node [tree iterable, .binder var (tree key :: tree value :: optionTrees condition)]
  | .fstringExpr parts => .hidden (partTrees parts)
  | .goExpr callee args => .hidden (tree callee :: trees args)
  | .chanRecvExpr channel => .hidden [tree channel]
  | .binaryExpr _ left right => .node [tree left, tree right]
  | .unaryExpr _ operand => .node [tree operand]
  | .callExpr callee args _ => .node (tree callee :: trees args)
  | .memberExpr object _ => .node [tree object]
  | .indexExpr object index => .node [tree object, tree index]
  | .listExpr elements => .node (trees elements)
  | .dictExpr entries => .node (entryTrees entries)
  | .tupleExpr elements => .node (trees elements)
  | .ternaryExpr condition thenExpr elseExpr => .node [tree condition, tree thenExpr, tree elseExpr]
  | .sliceExpr object start stop step =>
    .node [tree object, .node (optionTrees start), .node (optionTrees stop), .node (optionTrees step)]
  | .spreadExpr operand => .node [tree operand]
  | .dictSpreadExpr operand => .node [tree operand]
  | .intLiteral _ | .floatLiteral _ | .stringLiteral _ | .fstringLiteral _ | .boolLiteral _ | .nullLiteral
  | .thisExpr | .superExpr => .node []

def trees : List Expr → List (Tree Name Expr)
  | [] => []
  | e :: es => tree e :: trees es

def entryTrees : List (Expr × Expr) → List (Tree Name Expr)
  | [] => []
  | (key, value) :: entries => tree key :: tree value :: entryTrees entries

def partTrees : List (Name ⊕ Expr) → List (Tree Name Expr)
  | [] => []
  | .inl _ :: parts => partTrees parts
  | .inr e :: parts => tree e :: partTrees parts

def optionTrees : Option Expr → List (Tree Name Expr)
  | none => []
  | some e => [tree e]

end

abbrev Items := List (Item Name Expr)

/-- An expression that the analyzer walks into. -/
def walked (e : Expr) : Item Name Expr := .expr (tree e)

/-- Expressions that it does not walk into. -/
def unwalked (es : List Expr) : Item Name Expr := .expr (.hidden (trees es))

/-- A target of an assignment: an identifier is bound. -/
def targetItem (known : Bool) : Expr → Item Name Expr
  | .identifier id => .bind known id.name
  | target => unwalked [target]

/-- The default values of parameters, which stand outside the function. -/
def defaults (params : List Param) : Item Name Expr := unwalked (params.filterMap Param.defaultValue)

/-- The names an enum declares. -/
def enumNames (name : Name) (members : List Name) : List Name := name :: members.map fun m => name ++ '_' :: m

mutual

/-- A statement. -/
def items : Stmt → Items
  | .assignStmt target value extraTargets _ _ =>
    targetItem true target :: (extraTargets.map (targetItem false) ++ [walked value])
  | .exprStmt expr => [walked expr]
  | .constStmt name value _ => [.bind false name, unwalked [value]]
  | .tupleUnpackStmt targets value => walked value :: targets.map (.bind true)
  | .returnStmt value => [.expr (.node (optionTrees value))]
  | .throwStmt expr => [.expr (.node (optionTrees expr))]
  | .funcDef h body =>
    [.bind true h.name, unwalked h.decorators, defaults h.params,
      .scope (byRefCandidates body) ((paramNames h.params).map (.bind true) ++ itemsAll body)]
  | .initDef params body =>
    [defaults params, .scope (byRefCandidates body) ((paramNames params).map (.bind true) ++ itemsAll body)]
  | .classDef h body =>
    [.bind true h.name,
      .scope (byRefCandidates body) (["this".toList, "super".toList].map (.bind true) ++ itemsAll body)]
  | .ifStmt condition thenBranch elsifBranches elseBranch =>
    walked condition :: .scope (byRefCandidates thenBranch) (itemsAll thenBranch) ::
      (elsifItems elsifBranches ++ [.scope (byRefCandidates elseBranch) (itemsAll elseBranch)])
  | .forStmt var vars iterable body elseBranch =>
    [walked iterable,
      .scope (byRefCandidates body) (.bind true var :: (vars.map (.bind false) ++ itemsAll body)),
      .hidden [.scope (byRefCandidates elseBranch) (itemsAll elseBranch)]]
  | .whileStmt condition body elseBranch =>
    [walked condition, .scope (byRefCandidates body) (itemsAll body),
      .hidden [.scope (byRefCandidates elseBranch) (itemsAll elseBranch)]]
  | .withStmt expr asName body =>
    [unwalked [expr],
      .hidden [.scope (byRefCandidates body) ((catchNames asName).map (.bind false) ++ itemsAll body)]]
  | .tryStmt tryBody catchClauses finallyBody =>
    .scope (byRefCandidates tryBody) (itemsAll tryBody) ::
      (catchItems catchClauses ++ [.scope (byRefCandidates finallyBody) (itemsAll finallyBody)])
  | .assertStmt condition message => [unwalked (condition :: message.toList)]
  | .delStmt target => [unwalked [target]]
  | .matchStmt subject cases => unwalked [subject] :: caseItems cases
  | .importStmt module => [.bind false (module.takeWhile (· ≠ '.'))]
  | .fromImportStmt _ names => names.map (.bind false)
  | .interfaceDef name methods => .bind false name :: methods.map fun m => defaults m.params
  | .enumDef name members => (enumNames name members).map (.bind false)
  | .yieldStmt value => [unwalked value.toList]
  | .chanSendStmt channel value => [unwalked [channel, value]]
  | .breakStmt | .continueStmt | .passStmt => []

/-- A statement list. -/
def itemsAll : List Stmt → Items
  | [] => []
  | s :: stmts => items s ++ itemsAll stmts

def elsifItems : List (Expr × List Stmt) → Items
  | [] => []
  | (condition, body) :: branches =>
    walked condition :: .scope (byRefCandidates body) (itemsAll body) :: elsifItems branches

def catchItems : List (Name × Name × List Stmt) → Items
  | [] => []
  | (_, varName, body) :: clauses =>
    .scope (byRefCandidates body) ((catchNames varName).map (.bind true) ++ itemsAll body) :: catchItems clauses

def caseItems : List (Option Expr × Option Expr × List Stmt) → Items
  | [] => []
  | (pattern, guard, body) :: cases =>
    unwalked (pattern.toList ++ guard.toList) :: .hidden [.scope (byRefCandidates body) (itemsAll body)] ::
      caseItems cases

end

/-- The names that are declared throughout the file although the analyzer does not define them. -/
def unknownTopLevel : Stmt → List Name
  | .interfaceDef name _ => [name]
  | .enumDef name members => enumNames name members
  | _ => []

/-- A program: its functions, classes, interfaces and enums are declared throughout the file. -/
def programItems (program : List Stmt) : Items :=
  (program.filterMap topLevelName).map (.bind true) ++
    ((program.flatMap unknownTopLevel).map (.bind false) ++ itemsAll program)

/-- The top level before anything is declared; the analyzer defines `print`. -/
def topLevel (program : List Stmt) : Context Name :=
  { bound := [], known := ["print".toList], twice := byRefCandidates program }

/-- The lambda expressions of a program where they stand. -/
def sites (program : List Stmt) : List (Site Name Expr) := Item.sitesAll (topLevel program) (programItems program)

/-! ## What the analyzer sees -/

/-- The captures that the analyzer leaves at a site, if it gets there. -/
def capturesAt (s : Site Name Expr) : List CaptureInfo :=
  (sorted (((s.body.collect s.context.known).filter (· ∉ s.params)).filter (· ∈ s.context.known))).map
    fun name => ⟨name, decide (name ∈ s.context.twice)⟩

/-- The lambda expression at a site. -/
def annotate (s : Site Name Expr) : Annotation := ⟨s.params, s.tag, capturesAt s⟩

/-- The sites that the analyzer gets to, annotated. -/
def seen (l : List (Site Name Expr)) : List Annotation := (l.filter fun s => s.context.visited).map annotate

theorem seen_append (l l' : List (Site Name Expr)) : seen (l ++ l') = seen l ++ seen l' := by
  simp [seen]

/-- The analyzer is where the context says, and has defined what is known there. -/
structure Sees (A : CaptureAnalyzer) (c : Context Name) : Prop where
  scopes : A.scopes ≠ []
  visited : c.visited = true
  defined : ∀ x, A.isDefined x = true ↔ x ∈ c.known
  candidate : ∀ x, A.isByRefCandidate x = true ↔ x ∈ c.twice

namespace Sees

variable {A : CaptureAnalyzer} {c : Context Name}

/-- Unknown bindings do not concern the analyzer. -/
theorem bind (h : Sees A c) (names : List Name) : Sees A (c.bind names) :=
  ⟨h.scopes, h.visited, h.defined, h.candidate⟩

theorem define (h : Sees A c) (name : Name) :
    Sees (A.define name) { c with bound := name :: c.bound, known := name :: c.known } := by
  obtain ⟨scope, scopes, hs⟩ := List.exists_cons_of_ne_nil h.scopes
  have hA : A.define name = { A with scopes := (name :: scope) :: scopes } := by
    rw [CaptureAnalyzer.define, hs]
  rw [hA]
  refine ⟨List.cons_ne_nil _ _, h.visited, fun x => ?_, h.candidate⟩
  rw [List.mem_cons, ← h.defined x]
  simp [CaptureAnalyzer.isDefined, hs, or_assoc]

theorem defineAll (names : List Name) : ∀ {A : CaptureAnalyzer} {c : Context Name}, Sees A c →
    Sees (A.defineAll names) (Item.afterAll c (names.map (.bind true) : Items)) := by
  induction names with
  | nil => exact fun h => h
  | cons name names ih => exact fun h => ih (h.define name)

theorem pushScope (h : Sees A c) : Sees A.pushScope c where
  scopes := List.cons_ne_nil _ _
  visited := h.visited
  defined := fun x => by
    rw [← h.defined x]
    simp [CaptureAnalyzer.isDefined, CaptureAnalyzer.pushScope]
  candidate := h.candidate

theorem pushCandidates (h : Sees A c) (stmts : List Stmt) :
    Sees (A.pushCandidates stmts) { c with twice := byRefCandidates stmts } where
  scopes := h.scopes
  visited := h.visited
  defined := h.defined
  candidate := fun x => by simp [CaptureAnalyzer.isByRefCandidate, CaptureAnalyzer.pushCandidates]

theorem pushCandidates_define (A : CaptureAnalyzer) (stmts : List Stmt) (name : Name) :
    (A.define name).pushCandidates stmts = (A.pushCandidates stmts).define name := by
  rcases A with ⟨_ | ⟨scope, scopes⟩, candidates⟩ <;> rfl

theorem pushCandidates_defineAll (stmts : List Stmt) (names : List Name) :
    ∀ A : CaptureAnalyzer, (A.defineAll names).pushCandidates stmts = (A.pushCandidates stmts).defineAll names := by
  induction names with
  | nil => exact fun _ => rfl
  | cons name names ih =>
    intro A
    show ((A.define name).defineAll names).pushCandidates stmts = ((A.pushCandidates stmts).define name).defineAll names
    rw [ih, pushCandidates_define]

theorem enter (h : Sees A c) (names : List Name) (stmts : List Stmt) :
    Sees (A.enter names stmts)
      (Item.afterAll { c with twice := byRefCandidates stmts } (names.map (.bind true) : Items)) := by
  rw [CaptureAnalyzer.enter, pushCandidates_defineAll]
  exact defineAll names (h.pushScope.pushCandidates stmts)

end Sees

theorem afterAll_append (c : Context Name) (l l' : Items) :
    Item.afterAll c (l ++ l') = Item.afterAll (Item.afterAll c l) l' := by
  induction l generalizing c with
  | nil => rfl
  | cons i l ih => exact ih _

theorem sitesAll_append (c : Context Name) (l l' : Items) :
    Item.sitesAll c (l ++ l') = Item.sitesAll c l ++ Item.sitesAll (Item.afterAll c l) l' := by
  induction l generalizing c with
  | nil => rfl
  | cons i l ih =>
    show i.sites c ++ Item.sitesAll (i.after c) (l ++ l') = (i.sites c ++ Item.sitesAll (i.after c) l) ++ _
    rw [ih, List.append_assoc]
    rfl

theorem sitesAll_binds (names : List Name) : ∀ c : Context Name,
    Item.sitesAll c (names.map (.bind true) : Items) = [] := by
  induction names with
  | nil => exact fun _ => rfl
  | cons name names ih => exact fun c => ih _

/-! ## Expressions -/

section Expressions

variable {A : CaptureAnalyzer} {c : Context Name}

mutual

/-- The walk collects what the tree says. -/
theorem freeVars_tree (h : Sees A c) : ∀ e : Expr, (analyzeExpr A e).freeVars = (tree e).collect c.known
  | .lambdaExpr params body => by
    show ((analyzeExpr A body).freeVars.filter (· ∉ params)).filter (fun name => !A.isDefined name) = _
    rw [freeVars_tree h body, tree, Tree.collect]
    refine Eq.trans (List.filter_congr fun name _ => ?_) (congrArg _ (List.filter_congr fun name _ => ?_))
    · rw [Bool.eq_iff_iff]
      simp [← h.defined name]
    · simp
  | .identifier _ | .intLiteral _ | .floatLiteral _ | .stringLiteral _ | .fstringLiteral _ | .fstringExpr _
  | .boolLiteral _ | .nullLiteral | .thisExpr | .superExpr | .goExpr _ _ | .chanRecvExpr _ => rfl
  | .binaryExpr _ left right => by
    simp [analyzeExpr, tree, Tree.collect, Tree.collectAll, freeVars_tree h left, freeVars_tree h right]
  | .unaryExpr _ operand => by
    simp [analyzeExpr, tree, Tree.collect, Tree.collectAll, freeVars_tree h operand]
  | .callExpr callee args _ => by
    simp [analyzeExpr, tree, Tree.collect, Tree.collectAll, freeVars_tree h callee, freeVars_trees h args]
  | .memberExpr object _ => by
    simp [analyzeExpr, tree, Tree.collect, Tree.collectAll, freeVars_tree h object]
  | .indexExpr object index => by
    simp [analyzeExpr, tree, Tree.collect, Tree.collectAll, freeVars_tree h object, freeVars_tree h index]
  | .ternaryExpr condition thenExpr elseExpr => by
    simp [analyzeExpr, tree, Tree.collect, Tree.collectAll, freeVars_tree h condition, freeVars_tree h thenExpr,
      freeVars_tree h elseExpr]
  | .listExpr elements => by
    simp [analyzeExpr, tree, Tree.collect, freeVars_trees h elements]
  | .dictExpr entries => by
    simp [analyzeExpr, tree, Tree.collect, freeVars_entryTrees h entries]
  | .tupleExpr elements => by
    simp [analyzeExpr, tree, Tree.collect, freeVars_trees h elements]
  | .spreadExpr operand => by
    simp [analyzeExpr, tree, Tree.collect, Tree.collectAll, freeVars_tree h operand]
  | .dictSpreadExpr operand => by
    simp [analyzeExpr, tree, Tree.collect, Tree.collectAll, freeVars_tree h operand]
  | .walrusExpr _ value => by
    simp [analyzeExpr, tree, Tree.collect, freeVars_tree h value]
  | .listComprehension body var iterable condition => by
    simp [analyzeExpr, tree, Tree.collect, Tree.collectAll, Found.erase, freeVars_tree h body,
      freeVars_tree h iterable, freeVars_optionTrees h condition]
  | .dictComprehension key value var iterable condition => by
    simp [analyzeExpr, tree, Tree.collect, Tree.collectAll, Found.erase, freeVars_tree h key,
      freeVars_tree h value, freeVars_tree h iterable, freeVars_optionTrees h condition]
  | .sliceExpr object start stop step => by
    simp [analyzeExpr, tree, Tree.collect, Tree.collectAll, freeVars_tree h object, freeVars_optionTrees h start,
      freeVars_optionTrees h stop, freeVars_optionTrees h step]

theorem freeVars_trees (h : Sees A c) :
    ∀ es : List Expr, (analyzeExprs A es).freeVars = Tree.collectAll c.known (trees es)
  | [] => rfl
  | e :: es => by
    simp [analyzeExprs, trees, Tree.collectAll, freeVars_tree h e, freeVars_trees h es]

theorem freeVars_entryTrees (h : Sees A c) :
    ∀ entries : List (Expr × Expr), (analyzeEntries A entries).freeVars = Tree.collectAll c.known (entryTrees entries)
  | [] => rfl
  | (key, value) :: entries => by
    simp [analyzeEntries, entryTrees, Tree.collectAll, freeVars_tree h key, freeVars_tree h value,
      freeVars_entryTrees h entries]

theorem freeVars_optionTrees (h : Sees A c) :
    ∀ o : Option Expr, (analyzeOption A o).freeVars = Tree.collectAll c.known (optionTrees o)
  | none => rfl
  | some e => by
    simp [analyzeOption, optionTrees, Tree.collectAll, freeVars_tree h e]

end

/-- What the analyzer leaves in a lambda expression is what it can see there. -/
theorem captures_eq (h : Sees A c) (params : List Name) (body : Expr) :
    A.captures ((analyzeExpr A body).erase params).freeVars = capturesAt ⟨body, c, params, tree body⟩ := by
  have hnames : ((analyzeExpr A body).erase params).freeVars.filter (fun name => A.isDefined name)
      = (((tree body).collect c.known).filter (· ∉ params)).filter (· ∈ c.known) := by
    rw [← freeVars_tree h body]
    refine List.filter_congr fun name _ => ?_
    rw [Bool.eq_iff_iff, h.defined name, decide_eq_true_eq]
  have hinfo : (fun name => CaptureInfo.mk name (A.isByRefCandidate name))
      = fun name => ⟨name, decide (name ∈ c.twice)⟩ := by
    funext name
    have : A.isByRefCandidate name = decide (name ∈ c.twice) := by
      rw [Bool.eq_iff_iff, h.candidate name, decide_eq_true_eq]
    rw [this]
  rw [CaptureAnalyzer.captures, hnames, hinfo]
  rfl

theorem seen_hiddenTree (parts : List (Tree Name Expr)) (c : Context Name) :
    seen ((Tree.hidden parts).sites c) = [] := by
  have hnil := Tree.filter_visited_hidden (.node parts) (c := c.hide) rfl
  rw [Tree.sites] at hnil
  rw [seen, Tree.sites, hnil, List.map_nil]

theorem seen_hiddenItem (l : Items) (c : Context Name) : seen ((Item.hidden l).sites c) = [] := by
  rw [seen, Item.sites, Item.filter_visited_hidden l rfl, List.map_nil]

mutual

/-- The walk leaves in the lambda expressions of an expression what it can see there. -/
theorem lambdas_tree {c : Context Name} (h : Sees A c) :
    ∀ e : Expr, (analyzeExpr A e).lambdas = seen ((tree e).sites c)
  | .lambdaExpr params body => by
    have hbody := lambdas_tree (h.bind (params ++ (tree body).assigned)) body
    have hsite : seen [⟨body, c, params, tree body⟩]
        = [⟨params, body, A.captures ((analyzeExpr A body).erase params).freeVars⟩] := by
      rw [captures_eq h]
      simp [seen, h.visited, annotate]
    rw [tree, Tree.sites, seen_append, ← hbody, hsite]
    rfl
  | .fstringExpr parts => (seen_hiddenTree (partTrees parts) c).symm
  | .goExpr callee args => (seen_hiddenTree (tree callee :: trees args) c).symm
  | .chanRecvExpr channel => (seen_hiddenTree [tree channel] c).symm
  | .identifier _ | .intLiteral _ | .floatLiteral _ | .stringLiteral _ | .fstringLiteral _ | .boolLiteral _
  | .nullLiteral | .thisExpr | .superExpr => rfl
  | .binaryExpr _ left right => by
    simp [analyzeExpr, tree, Tree.sites, Tree.sitesAll, seen_append, lambdas_tree h left, lambdas_tree h right]
  | .unaryExpr _ operand => by
    simp [analyzeExpr, tree, Tree.sites, Tree.sitesAll, lambdas_tree h operand]
  | .callExpr callee args _ => by
    simp [analyzeExpr, tree, Tree.sites, Tree.sitesAll, seen_append, lambdas_tree h callee, lambdas_trees h args]
  | .memberExpr object _ => by
    simp [analyzeExpr, tree, Tree.sites, Tree.sitesAll, lambdas_tree h object]
  | .indexExpr object index => by
    simp [analyzeExpr, tree, Tree.sites, Tree.sitesAll, seen_append, lambdas_tree h object, lambdas_tree h index]
  | .ternaryExpr condition thenExpr elseExpr => by
    simp [analyzeExpr, tree, Tree.sites, Tree.sitesAll, seen_append, lambdas_tree h condition,
      lambdas_tree h thenExpr, lambdas_tree h elseExpr]
  | .listExpr elements => by
    simp [analyzeExpr, tree, Tree.sites, lambdas_trees h elements]
  | .dictExpr entries => by
    simp [analyzeExpr, tree, Tree.sites, lambdas_entryTrees h entries]
  | .tupleExpr elements => by
    simp [analyzeExpr, tree, Tree.sites, lambdas_trees h elements]
  | .spreadExpr operand => by
    simp [analyzeExpr, tree, Tree.sites, Tree.sitesAll, lambdas_tree h operand]
  | .dictSpreadExpr operand => by
    simp [analyzeExpr, tree, Tree.sites, Tree.sitesAll, lambdas_tree h operand]
  | .walrusExpr _ value => by
    simp [analyzeExpr, tree, Tree.sites, lambdas_tree h value]
  | .listComprehension body var iterable condition => by
    simp [analyzeExpr, tree, Tree.sites, Tree.sitesAll, seen_append, Found.erase, lambdas_tree h iterable,
      lambdas_tree (h.bind [var]) body, lambdas_optionTrees (h.bind [var]) condition]
  | .dictComprehension key value var iterable condition => by
    simp [analyzeExpr, tree, Tree.sites, Tree.sitesAll, seen_append, Found.erase, lambdas_tree h iterable,
      lambdas_tree (h.bind [var]) key, lambdas_tree (h.bind [var]) value,
      lambdas_optionTrees (h.bind [var]) condition]
  | .sliceExpr object start stop step => by
    simp [analyzeExpr, tree, Tree.sites, Tree.sitesAll, seen_append, lambdas_tree h object,
      lambdas_optionTrees h start, lambdas_optionTrees h stop, lambdas_optionTrees h step]

theorem lambdas_trees {c : Context Name} (h : Sees A c) :
    ∀ es : List Expr, (analyzeExprs A es).lambdas = seen (Tree.sitesAll c (trees es))
  | [] => rfl
  | e :: es => by
    simp [analyzeExprs, trees, Tree.sitesAll, seen_append, lambdas_tree h e, lambdas_trees h es]

theorem lambdas_entryTrees {c : Context Name} (h : Sees A c) : ∀ entries : List (Expr × Expr),
    (analyzeEntries A entries).lambdas = seen (Tree.sitesAll c (entryTrees entries))
  | [] => rfl
  | (key, value) :: entries => by
    simp [analyzeEntries, entryTrees, Tree.sitesAll, seen_append, lambdas_tree h key, lambdas_tree h value,
      lambdas_entryTrees h entries]

theorem lambdas_optionTrees {c : Context Name} (h : Sees A c) :
    ∀ o : Option Expr, (analyzeOption A o).lambdas = seen (Tree.sitesAll c (optionTrees o))
  | none => rfl
  | some e => by
    simp [analyzeOption, optionTrees, Tree.sitesAll, lambdas_tree h e]

end

end Expressions

/-! ## Statements -/

/-- The analyzer walks over the items, which leaves it as `B` is, and leaves `log` in the lambda expressions. -/
def Follows (A : CaptureAnalyzer) (l : Items) (B : CaptureAnalyzer) (log : List Annotation) : Prop :=
  ∀ c, Sees A c → Sees B (Item.afterAll c l) ∧ log = seen (Item.sitesAll c l)

namespace Follows

variable {A B C : CaptureAnalyzer} {l l' : Items} {i : Item Name Expr} {log log' : List Annotation}

theorem nil (A : CaptureAnalyzer) : Follows A [] A [] := fun _ h => ⟨h, rfl⟩

theorem append (h : Follows A l B log) (h' : Follows B l' C log') : Follows A (l ++ l') C (log ++ log') := by
  intro c hc
  obtain ⟨hB, rfl⟩ := h c hc
  obtain ⟨hC, rfl⟩ := h' _ hB
  rw [afterAll_append, sitesAll_append, seen_append]
  exact ⟨hC, rfl⟩

theorem cons (h : Follows A [i] B log) (h' : Follows B l C log') : Follows A (i :: l) C (log ++ log') :=
  append h h'

/-- An item behind which the analyzer is as before. -/
theorem single (hafter : ∀ c, Sees A c → Sees A (i.after c)) (hlog : ∀ c, Sees A c → log = seen (i.sites c)) :
    Follows A [i] A log := by
  intro c hc
  refine ⟨hafter c hc, ?_⟩
  rw [hlog c hc]
  simp [Item.sitesAll]

theorem walked (e : Expr) : Follows A [Capture.walked e] A (analyzeExpr A e).lambdas :=
  single (fun _ hc => hc.bind _) fun _ hc => lambdas_tree (hc.bind _) e

theorem walkedOption (o : Option Expr) :
    Follows A [.expr (.node (optionTrees o))] A (analyzeOption A o).lambdas :=
  single (fun _ hc => hc.bind _) fun _ hc => lambdas_optionTrees (hc.bind _) o

theorem unwalked (es : List Expr) : Follows A [Capture.unwalked es] A [] :=
  single (fun _ hc => hc.bind _) fun _ _ => (seen_hiddenTree _ _).symm

theorem hidden (l : Items) : Follows A [.hidden l] A [] :=
  single (fun _ hc => hc) fun _ _ => (seen_hiddenItem l _).symm

theorem define (name : Name) : Follows A [.bind true name] (A.define name) [] :=
  fun _ hc => ⟨hc.define name, rfl⟩

theorem unknown (name : Name) : Follows A [.bind false name] A [] :=
  single (fun _ hc => hc.bind [name]) fun _ _ => rfl

theorem defineAll (names : List Name) : ∀ {A : CaptureAnalyzer},
    Follows A (names.map (.bind true)) (A.defineAll names) [] := by
  induction names with
  | nil => exact fun {A} => nil A
  | cons name names ih => exact fun {A} => (define name).cons ih

theorem unknownAll (names : List Name) : Follows A (names.map (.bind false)) A [] := by
  induction names with
  | nil => exact nil A
  | cons name names ih => exact (unknown name).cons ih

/-- A target of an assignment that is not the first. -/
theorem extraTargets (targets : List Expr) : Follows A (targets.map (targetItem false)) A [] := by
  induction targets with
  | nil => exact nil A
  | cons target targets ih =>
    refine cons (?_ : Follows A [targetItem false target] A []) ih
    cases target with
    | identifier id => exact unknown id.name
    | _ => exact unwalked _

/-- A block with a scope of its own, and the names defined in it first. -/
theorem scope (names : List Name) (stmts : List Stmt) (h : Follows (A.enter names stmts) l B log) :
    Follows A [.scope (byRefCandidates stmts) (names.map (.bind true) ++ l)] A log := by
  refine single (fun _ hc => hc) fun c hc => ?_
  obtain ⟨-, rfl⟩ := h _ (hc.enter names stmts)
  rw [Item.sites, sitesAll_append, sitesAll_binds, List.nil_append]

theorem caseItems (cases : List (Option Expr × Option Expr × List Stmt)) :
    Follows A (Capture.caseItems cases) A [] := by
  induction cases with
  | nil => exact nil A
  | cons case cases ih => exact (unwalked _).cons ((hidden _).cons ih)

theorem methods (l : List MethodSignature) : Follows A (l.map fun m => defaults m.params) A [] := by
  induction l with
  | nil => exact nil A
  | cons m l ih => exact (unwalked _).cons ih

end Follows

mutual

/-- One statement. -/
theorem analyzeStmt_follows (A : CaptureAnalyzer) : ∀ s : Stmt, Follows A (items s) (analyzeStmt A s).1 (analyzeStmt A s).2
  | .assignStmt target value extraTargets _ _ => by
    cases target with
    | identifier id =>
      exact (Follows.define id.name).cons ((Follows.extraTargets extraTargets).append (Follows.walked value))
    | _ => exact (Follows.unwalked _).cons ((Follows.extraTargets extraTargets).append (Follows.walked value))
  | .exprStmt expr => Follows.walked expr
  | .constStmt name value _ => (Follows.unknown name).cons (Follows.unwalked [value])
  | .tupleUnpackStmt targets value => by
    have h := (Follows.walked (A := A) value).cons (Follows.defineAll targets)
    rw [List.append_nil] at h
    exact h
  | .returnStmt value => Follows.walkedOption value
  | .throwStmt expr => Follows.walkedOption expr
  | .funcDef h body => by
    obtain ⟨B, hbody⟩ := analyzeStmts_follows ((A.define h.name).enter (paramNames h.params) body) body
    exact (Follows.define h.name).cons ((Follows.unwalked _).cons ((Follows.unwalked _).cons
      (Follows.scope (paramNames h.params) body hbody)))
  | .initDef params body => by
    obtain ⟨B, hbody⟩ := analyzeStmts_follows (A.enter (paramNames params) body) body
    exact (Follows.unwalked _).cons (Follows.scope (paramNames params) body hbody)
  | .classDef h body => by
    obtain ⟨B, hbody⟩ := analyzeStmts_follows ((A.define h.name).enter ["this".toList, "super".toList] body) body
    exact (Follows.define h.name).cons (Follows.scope ["this".toList, "super".toList] body hbody)
  | .ifStmt condition thenBranch elsifBranches elseBranch => by
    obtain ⟨B, hthen⟩ := analyzeStmts_follows (A.enter [] thenBranch) thenBranch
    obtain ⟨C, helse⟩ := analyzeStmts_follows (A.enter [] elseBranch) elseBranch
    exact (Follows.walked condition).cons ((Follows.scope [] thenBranch hthen).cons
      ((analyzeElsifs_follows A elsifBranches).append (Follows.scope [] elseBranch helse)))
  | .forStmt var vars iterable body elseBranch => by
    obtain ⟨B, hbody⟩ := analyzeStmts_follows (A.enter [var] body) body
    have hloop := Follows.scope [var] body ((Follows.unknownAll vars).append hbody)
    have h := (Follows.walked iterable).cons (hloop.cons (Follows.hidden [.scope (byRefCandidates elseBranch)
      (itemsAll elseBranch)]))
    rw [List.append_nil] at h
    exact h
  | .whileStmt condition body elseBranch => by
    obtain ⟨B, hbody⟩ := analyzeStmts_follows (A.enter [] body) body
    have h := (Follows.walked condition).cons ((Follows.scope [] body hbody).cons
      (Follows.hidden [.scope (byRefCandidates elseBranch) (itemsAll elseBranch)]))
    rw [List.append_nil] at h
    exact h
  | .withStmt expr asName body => (Follows.unwalked [expr]).cons (Follows.hidden _)
  | .tryStmt tryBody catchClauses finallyBody => by
    obtain ⟨B, htry⟩ := analyzeStmts_follows (A.enter [] tryBody) tryBody
    obtain ⟨C, hfinally⟩ := analyzeStmts_follows (A.enter [] finallyBody) finallyBody
    exact (Follows.scope [] tryBody htry).cons
      ((analyzeCatches_follows A catchClauses).append (Follows.scope [] finallyBody hfinally))
  | .assertStmt condition message => Follows.unwalked _
  | .delStmt target => Follows.unwalked _
  | .matchStmt subject cases => (Follows.unwalked [subject]).cons (Follows.caseItems cases)
  | .importStmt module => Follows.unknown _
  | .fromImportStmt _ names => Follows.unknownAll names
  | .interfaceDef name methods => (Follows.unknown name).cons (Follows.methods methods)
  | .enumDef name members => Follows.unknownAll _
  | .yieldStmt value => Follows.unwalked _
  | .chanSendStmt channel value => Follows.unwalked _
  | .breakStmt | .continueStmt | .passStmt => Follows.nil A

/-- A statement list. -/
theorem analyzeStmts_follows (A : CaptureAnalyzer) :
    ∀ stmts : List Stmt, ∃ B, Follows A (itemsAll stmts) B (analyzeStmts A stmts)
  | [] => ⟨A, Follows.nil A⟩
  | s :: stmts => by
    obtain ⟨B, h⟩ := analyzeStmts_follows (analyzeStmt A s).1 stmts
    exact ⟨B, (analyzeStmt_follows A s).append h⟩

theorem analyzeElsifs_follows (A : CaptureAnalyzer) : ∀ branches : List (Expr × List Stmt),
    Follows A (elsifItems branches) A (analyzeElsifs A branches)
  | [] => Follows.nil A
  | (condition, body) :: branches => by
    obtain ⟨B, hbody⟩ := analyzeStmts_follows (A.enter [] body) body
    exact (Follows.walked condition).cons ((Follows.scope [] body hbody).cons (analyzeElsifs_follows A branches))

theorem analyzeCatches_follows (A : CaptureAnalyzer) : ∀ clauses : List (Name × Name × List Stmt),
    Follows A (catchItems clauses) A (analyzeCatches A clauses)
  | [] => Follows.nil A
  | (_, varName, body) :: clauses => by
    obtain ⟨B, hbody⟩ := analyzeStmts_follows (A.enter (catchNames varName) body) body
    exact (Follows.scope (catchNames varName) body hbody).cons (analyzeCatches_follows A clauses)

end

/-! ## The program -/

/-- Before anything is declared. -/
theorem sees_topLevel (program : List Stmt) :
    Sees ((({} : CaptureAnalyzer).pushScope.define "print".toList).pushCandidates program) (topLevel program) where
  scopes := List.cons_ne_nil _ _
  visited := rfl
  defined := fun x => by simp [CaptureAnalyzer.isDefined, CaptureAnalyzer.pushCandidates, CaptureAnalyzer.define,
    CaptureAnalyzer.pushScope, topLevel]
  candidate := fun x => by simp [CaptureAnalyzer.isByRefCandidate, CaptureAnalyzer.pushCandidates, topLevel]

/-- The analyzer leaves in every lambda expression that it comes to what it can see there. -/
theorem analyze_seen (program : List Stmt) : analyze program = seen (sites program) := by
  let A := (({} : CaptureAnalyzer).pushScope.define "print".toList).pushCandidates program
  obtain ⟨B, hbody⟩ := analyzeStmts_follows (A.defineAll (program.filterMap topLevelName)) program
  have hunknown := Follows.unknownAll (A := A.defineAll (program.filterMap topLevelName))
    (program.flatMap unknownTopLevel)
  have hall := (Follows.defineAll (program.filterMap topLevelName)).append (hunknown.append hbody)
  have hlog := (hall _ (sees_topLevel program)).2
  rw [← Sees.pushCandidates_defineAll] at hlog
  exact hlog

end Visuall.Capture
