import Mathlib

/-!
# Programs as trees with binders

Expressions with two kinds of binders, closures and local binders, and blocks of items that bind names in
scopes.  Parts of either may be hidden from an analysis that goes through the program, and of the binding items
it may know only some.

* `Tree.free` — the free names of an expression; `Tree.direct` — those that occur outside closures and hidden
  parts; `Tree.collect` — what an analysis collects that passes on the unknown names of a closure;
* `Item.sitesAll` — the closures of a program, innermost first, each with what is bound where it stands;
* `mem_collect`, `Stable` — what an analysis can see, and what it keeps at every closure.
-/

namespace Visuall.Binding

variable {ν α : Type*}

/-- An expression.  A closure carries a tag; `binder x` holds the parts in which `x` is bound, `assign x` binds
`x` around it. -/
inductive Tree (ν α : Type*)
  | name (x : ν)
  | closure (tag : α) (params : List ν) (body : Tree ν α)
  | binder (x : ν) (parts : List (Tree ν α))
  | assign (x : ν) (value : Tree ν α)
  | node (parts : List (Tree ν α))
  | hidden (parts : List (Tree ν α))

/-- What stands in a block: an expression, a binding, which the analysis may know of, a block with a scope of
its own and the names that are assigned twice in it, or hidden items. -/
inductive Item (ν α : Type*)
  | expr (t : Tree ν α)
  | bind (known : Bool) (x : ν)
  | scope (twice : List ν) (items : List (Item ν α))
  | hidden (items : List (Item ν α))

/-- Where an item or an expression stands: whether the analysis gets there, the names bound there, latest
first, those of them that it knows of, and the names assigned twice in the innermost block. -/
structure Context (ν : Type*) where
  visited : Bool := true
  bound : List ν
  known : List ν
  twice : List ν

/-- A closure where it stands. -/
structure Site (ν α : Type*) where
  tag : α
  context : Context ν
  params : List ν
  body : Tree ν α

namespace Context

/-- More names that the analysis does not know of. -/
def bind (c : Context ν) (names : List ν) : Context ν := { c with bound := names ++ c.bound }

/-- Out of the sight of the analysis. -/
def hide (c : Context ν) : Context ν := { c with visited := false }

end Context

/-! ## Names of expressions -/

section Names

variable [DecidableEq ν]

namespace Tree

mutual

/-- The free names. -/
def free : Tree ν α → List ν
  | .name x => [x]
  | .closure _ params body => body.free.filter (· ∉ params)
  | .binder x parts => (freeAll parts).filter (· ≠ x)
  | .assign _ value => value.free
  | .node parts | .hidden parts => freeAll parts

def freeAll : List (Tree ν α) → List ν
  | [] => []
  | t :: parts => t.free ++ freeAll parts

end

mutual

/-- The free names that occur outside closures and hidden parts. -/
def direct : Tree ν α → List ν
  | .name x => [x]
  | .closure _ _ _ | .hidden _ => []
  | .binder x parts => (directAll parts).filter (· ≠ x)
  | .assign _ value => value.direct
  | .node parts => directAll parts

def directAll : List (Tree ν α) → List ν
  | [] => []
  | t :: parts => t.direct ++ directAll parts

end

mutual

/-- The names that an analysis collects which passes on those free names of a closure that it does not
know. -/
def collect (known : List ν) : Tree ν α → List ν
  | .name x => [x]
  | .closure _ params body => ((body.collect known).filter (· ∉ params)).filter (· ∉ known)
  | .binder x parts => (collectAll known parts).filter (· ≠ x)
  | .assign _ value => value.collect known
  | .node parts => collectAll known parts
  | .hidden _ => []

def collectAll (known : List ν) : List (Tree ν α) → List ν
  | [] => []
  | t :: parts => t.collect known ++ collectAll known parts

end

mutual

/-- What is passed on from closures is unknown, so the known names collected are the direct ones. -/
theorem mem_collect {known : List ν} {x : ν} (hx : x ∈ known) :
    ∀ t : Tree ν α, x ∈ t.collect known ↔ x ∈ t.direct
  | .name y => Iff.rfl
  | .closure _ params body => by
    simp only [collect, direct, List.mem_filter, decide_eq_true_eq, hx, not_true, and_false, List.not_mem_nil]
  | .binder y parts => by
    simp only [collect, direct, List.mem_filter, mem_collectAll hx parts]
  | .assign _ value => by
    simp only [collect, direct, mem_collect hx value]
  | .node parts => by
    simp only [collect, direct, mem_collectAll hx parts]
  | .hidden _ => Iff.rfl

theorem mem_collectAll {known : List ν} {x : ν} (hx : x ∈ known) :
    ∀ parts : List (Tree ν α), x ∈ collectAll known parts ↔ x ∈ directAll parts
  | [] => Iff.rfl
  | t :: parts => by
    simp only [collectAll, directAll, List.mem_append, mem_collect hx t, mem_collectAll hx parts]

end

mutual

/-- The direct names are free. -/
theorem direct_subset : ∀ t : Tree ν α, t.direct ⊆ t.free
  | .name _ => fun _ h => h
  | .closure _ _ _ | .hidden _ => fun _ h => absurd h List.not_mem_nil
  | .binder y parts => fun x h => by
    rw [free, List.mem_filter]
    rw [direct, List.mem_filter] at h
    exact ⟨directAll_subset parts h.1, h.2⟩
  | .assign _ value => direct_subset value
  | .node parts => directAll_subset parts

theorem directAll_subset : ∀ parts : List (Tree ν α), directAll parts ⊆ freeAll parts
  | [] => fun _ h => h
  | t :: parts => fun x h => by
    rw [freeAll, List.mem_append]
    rcases List.mem_append.mp h with h | h
    · exact .inl (direct_subset t h)
    · exact .inr (directAll_subset parts h)

end

end Tree

end Names

/-! ## Closures where they stand -/

namespace Tree

mutual

/-- The names an expression binds around it.  A closure keeps its own to itself. -/
def assigned : Tree ν α → List ν
  | .name _ | .closure _ _ _ => []
  | .binder _ parts => assignedAll parts
  | .assign x value => x :: value.assigned
  | .node parts | .hidden parts => assignedAll parts

def assignedAll : List (Tree ν α) → List ν
  | [] => []
  | t :: parts => t.assigned ++ assignedAll parts

end

mutual

/-- The closures of an expression, each behind those inside it. -/
def sites (c : Context ν) : Tree ν α → List (Site ν α)
  | .name _ => []
  | .closure tag params body =>
    body.sites (c.bind (params ++ body.assigned)) ++ [⟨tag, c, params, body⟩]
  | .binder x parts => sitesAll (c.bind [x]) parts
  | .assign _ value => value.sites c
  | .node parts => sitesAll c parts
  | .hidden parts => sitesAll c.hide parts

def sitesAll (c : Context ν) : List (Tree ν α) → List (Site ν α)
  | [] => []
  | t :: parts => t.sites c ++ sitesAll c parts

end

end Tree

namespace Item

/-- What is bound behind an item. -/
def after (c : Context ν) : Item ν α → Context ν
  | .expr t => c.bind t.assigned
  | .bind known x => { c with bound := x :: c.bound, known := if known then x :: c.known else c.known }
  | .scope _ _ | .hidden _ => c

/-- What is bound behind several items. -/
def afterAll (c : Context ν) : List (Item ν α) → Context ν
  | [] => c
  | i :: items => afterAll (i.after c) items

mutual

/-- The closures of an item. -/
def sites (c : Context ν) : Item ν α → List (Site ν α)
  | .expr t => t.sites (c.bind t.assigned)
  | .bind _ _ => []
  | .scope twice items => sitesAll { c with twice := twice } items
  | .hidden items => sitesAll c.hide items

/-- The closures of several items. -/
def sitesAll (c : Context ν) : List (Item ν α) → List (Site ν α)
  | [] => []
  | i :: items => i.sites c ++ sitesAll (i.after c) items

end

end Item

/-! ## What holds at every site -/

section Everywhere

/-- A property of contexts that no step into a program loses. -/
structure Stable (I : Context ν → Prop) : Prop where
  bind : ∀ c names, I c → I (c.bind names)
  hide : ∀ c, I c → I c.hide
  scope : ∀ c twice, I c → I { c with twice := twice }
  known : ∀ c x, I c → I { c with bound := x :: c.bound, known := x :: c.known }

variable {I : Context ν → Prop}

mutual

theorem Tree.forall_sites (hI : Stable I) : ∀ (t : Tree ν α) (c : Context ν), I c → ∀ s ∈ t.sites c, I s.context
  | .name _, _, _ => fun _ hs => absurd hs List.not_mem_nil
  | .closure tag params body, c, hc => fun s hs => by
    rw [Tree.sites, List.mem_append, List.mem_singleton] at hs
    rcases hs with hs | rfl
    · exact Tree.forall_sites hI body _ (hI.bind c _ hc) s hs
    · exact hc
  | .binder x parts, c, hc => Tree.forall_sitesAll hI parts _ (hI.bind c _ hc)
  | .assign _ value, c, hc => Tree.forall_sites hI value c hc
  | .node parts, c, hc => Tree.forall_sitesAll hI parts c hc
  | .hidden parts, c, hc => Tree.forall_sitesAll hI parts _ (hI.hide c hc)

theorem Tree.forall_sitesAll (hI : Stable I) : ∀ (parts : List (Tree ν α)) (c : Context ν), I c →
    ∀ s ∈ Tree.sitesAll c parts, I s.context
  | [], _, _ => fun _ hs => absurd hs List.not_mem_nil
  | t :: parts, c, hc => fun s hs => by
    rw [Tree.sitesAll, List.mem_append] at hs
    rcases hs with hs | hs
    · exact Tree.forall_sites hI t c hc s hs
    · exact Tree.forall_sitesAll hI parts c hc s hs

end

theorem Item.stable_after (hI : Stable I) (i : Item ν α) (c : Context ν) (hc : I c) : I (i.after c) := by
  cases i with
  | expr t => exact hI.bind c _ hc
  | bind known x =>
    cases known with
    | true => exact hI.known c x hc
    | false => exact hI.bind c [x] hc
  | scope twice items => exact hc
  | hidden items => exact hc

mutual

theorem Item.forall_sites (hI : Stable I) : ∀ (i : Item ν α) (c : Context ν), I c → ∀ s ∈ i.sites c, I s.context
  | .expr t, c, hc => Tree.forall_sites hI t _ (hI.bind c _ hc)
  | .bind _ _, _, _ => fun _ hs => absurd hs List.not_mem_nil
  | .scope twice items, c, hc => Item.forall_sitesAll hI items _ (hI.scope c twice hc)
  | .hidden items, c, hc => Item.forall_sitesAll hI items _ (hI.hide c hc)

theorem Item.forall_sitesAll (hI : Stable I) : ∀ (items : List (Item ν α)) (c : Context ν), I c →
    ∀ s ∈ Item.sitesAll c items, I s.context
  | [], _, _ => fun _ hs => absurd hs List.not_mem_nil
  | i :: items, c, hc => fun s hs => by
    rw [Item.sitesAll, List.mem_append] at hs
    rcases hs with hs | hs
    · exact Item.forall_sites hI i c hc s hs
    · exact Item.forall_sitesAll hI items _ (Item.stable_after hI i c hc) s hs

end

end Everywhere

/-- Once out of sight, an analysis does not come back. -/
theorem stable_hidden : Stable (fun c : Context ν => c.visited = false) where
  bind _ _ h := h
  hide _ _ := rfl
  scope _ _ h := h
  known _ _ h := h

/-- What an analysis once knows of, it does not forget inside. -/
theorem stable_mem_known (x : ν) : Stable (fun c : Context ν => x ∈ c.known) where
  bind _ _ h := h
  hide _ h := h
  scope _ _ h := h
  known _ _ h := List.mem_cons_of_mem _ h

/-- An analysis knows of what is bound, and of `builtins`. -/
theorem stable_known (builtins : List ν) :
    Stable (fun c : Context ν => ∀ x ∈ c.known, x ∈ c.bound ∨ x ∈ builtins) where
  bind c names h := fun x hx => (h x hx).imp_left (List.mem_append_right names)
  hide _ h := h
  scope _ _ h := h
  known c y h := by
    intro x hx
    rcases List.mem_cons.mp hx with rfl | hx
    · exact .inl List.mem_cons_self
    · exact (h x hx).imp_left (List.mem_cons_of_mem y)

theorem Tree.filter_visited_hidden (t : Tree ν α) {c : Context ν} (hc : c.visited = false) :
    (t.sites c).filter (fun s => s.context.visited) = [] :=
  List.filter_eq_nil_iff.mpr fun s hs => by
    rw [Tree.forall_sites stable_hidden t c hc s hs]
    exact Bool.false_ne_true

theorem Item.filter_visited_hidden (items : List (Item ν α)) {c : Context ν} (hc : c.visited = false) :
    (Item.sitesAll c items).filter (fun s => s.context.visited) = [] :=
  List.filter_eq_nil_iff.mpr fun s hs => by
    rw [Item.forall_sitesAll stable_hidden items c hc s hs]
    exact Bool.false_ne_true

end Visuall.Binding
