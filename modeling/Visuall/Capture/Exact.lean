import Visuall.Capture.Scopes

/-!
# Which captures are exact

A lambda expression is to capture the free names of its body that are bound around it and are not its own
parameters.  The analyzer sees them all when it gets to the lambda expression, each of them is used outside
nested lambda expressions and of the parts that it does not walk into, and what binds it is among what it
defines; it sees one too many when `print` is used.

* `capturable`, `captured` — what is to be captured at a site, and what the analyzer captures there;
* `captured_exact_iff` — when the two agree.
-/

namespace Visuall.Capture

open Visuall.Ast Visuall.Binding

/-! ## Sets as sorted lists -/

theorem mem_sorted (names : List Name) (x : Name) : x ∈ sorted names ↔ x ∈ names := by
  rw [sorted, List.mem_insertionSort, List.mem_dedup]

theorem sorted_nodup (names : List Name) : (sorted names).Nodup :=
  (List.perm_insertionSort _ _).nodup_iff.mpr names.nodup_dedup

/-- The names, each once, determine the list. -/
theorem sorted_eq_iff (names names' : List Name) :
    sorted names = sorted names' ↔ ∀ x, x ∈ names ↔ x ∈ names' := by
  constructor
  · intro h x
    rw [← mem_sorted names, h, mem_sorted]
  · intro h
    have hperm : (sorted names).Perm (sorted names') := by
      rw [List.perm_ext_iff_of_nodup (sorted_nodup names) (sorted_nodup names')]
      intro x
      rw [mem_sorted, mem_sorted, h]
    exact hperm.eq_of_pairwise' (List.pairwise_insertionSort (· ≤ ·) _) (List.pairwise_insertionSort (· ≤ ·) _)

theorem sorted_eq_nil_iff (names : List Name) : [] = sorted names ↔ names = [] := by
  constructor
  · intro h
    rw [List.eq_nil_iff_forall_not_mem]
    intro x hx
    rw [← mem_sorted, ← h] at hx
    exact List.not_mem_nil hx
  · intro h
    rw [h]
    decide

/-! ## What is to be captured -/

/-- The free names of the body that are bound around the lambda expression and are not its parameters. -/
def capturable (s : Site Name Expr) : List Name :=
  s.body.free.filter fun x => x ∉ s.params ∧ x ∈ s.context.bound

/-- The captures of the lambda expression after the analysis; where the analyzer does not get to, there are
none. -/
def captured (s : Site Name Expr) : List CaptureInfo := if s.context.visited then capturesAt s else []

/-- The analyzer gets to the lambda expression; what is to be captured is used there in its sight, and bound by
a binding that it defines; and if `print` is used, the program binds it. -/
structure InSight (s : Site Name Expr) : Prop where
  visited : capturable s ≠ [] → s.context.visited = true
  used : ∀ x ∈ capturable s, x ∈ s.body.direct
  known : ∀ x ∈ capturable s, x ∈ s.context.known
  print : s.context.visited = true → "print".toList ∈ s.body.direct →
    "print".toList ∈ s.params ∨ "print".toList ∈ s.context.bound

theorem mem_capturable (s : Site Name Expr) (x : Name) :
    x ∈ capturable s ↔ x ∈ s.body.free ∧ x ∉ s.params ∧ x ∈ s.context.bound := by
  simp [capturable]

/-- The names that the analyzer captures where it gets to. -/
theorem names_capturesAt (s : Site Name Expr) : (capturesAt s).map CaptureInfo.name
    = sorted (((s.body.collect s.context.known).filter (· ∉ s.params)).filter (· ∈ s.context.known)) := by
  rw [capturesAt, List.map_map]
  exact List.map_id _

/-- The names it captures are those used in its sight that it has defined. -/
theorem mem_capturesAt (s : Site Name Expr) (x : Name) :
    x ∈ ((s.body.collect s.context.known).filter (· ∉ s.params)).filter (· ∈ s.context.known)
      ↔ x ∈ s.body.direct ∧ x ∉ s.params ∧ x ∈ s.context.known := by
  rw [List.mem_filter, List.mem_filter, decide_eq_true_eq, decide_eq_true_eq, and_assoc]
  constructor
  · rintro ⟨hcollect, hparams, hknown⟩
    exact ⟨(Tree.mem_collect hknown s.body).mp hcollect, hparams, hknown⟩
  · rintro ⟨hdirect, hparams, hknown⟩
    exact ⟨(Tree.mem_collect hknown s.body).mpr hdirect, hparams, hknown⟩

/-! ## What holds at every site -/

/-- The analyzer has defined `print`, and nothing else that is not bound. -/
theorem known_at_sites (program : List Stmt) {s : Site Name Expr} (hs : s ∈ sites program) :
    "print".toList ∈ s.context.known ∧
      ∀ x ∈ s.context.known, x ∈ s.context.bound ∨ x = "print".toList := by
  constructor
  · exact Item.forall_sitesAll (stable_mem_known _) _ (topLevel program) List.mem_cons_self s hs
  · intro x hx
    have h := Item.forall_sitesAll (stable_known ["print".toList]) (programItems program) (topLevel program)
      (fun _ hy => .inr hy) s hs x hx
    rwa [List.mem_singleton] at h

/-- Where the analyzer gets to, it captures the right names when they are in its sight. -/
theorem capturesAt_exact_iff {s : Site Name Expr} (hvisited : s.context.visited = true)
    (hprint : "print".toList ∈ s.context.known)
    (hbound : ∀ x ∈ s.context.known, x ∈ s.context.bound ∨ x = "print".toList) :
    (capturesAt s).map CaptureInfo.name = sorted (capturable s) ↔ InSight s := by
  rw [names_capturesAt, sorted_eq_iff]
  simp only [mem_capturesAt, mem_capturable]
  constructor
  · intro h
    have hin : ∀ x ∈ capturable s, x ∈ s.body.direct ∧ x ∉ s.params ∧ x ∈ s.context.known :=
      fun x hx => (h x).mpr ((mem_capturable s x).mp hx)
    refine ⟨fun _ => hvisited, fun x hx => (hin x hx).1, fun x hx => (hin x hx).2.2, fun _ hdirect => ?_⟩
    by_cases hparam : "print".toList ∈ s.params
    · exact .inl hparam
    · exact .inr ((h _).mp ⟨hdirect, hparam, hprint⟩).2.2
  · intro h x
    constructor
    · rintro ⟨hdirect, hparam, hknown⟩
      refine ⟨Tree.direct_subset s.body hdirect, hparam, ?_⟩
      rcases hbound x hknown with hx | rfl
      · exact hx
      · exact (h.print hvisited hdirect).resolve_left hparam
    · intro hx
      have hx' := (mem_capturable s x).mpr hx
      exact ⟨h.used x hx', hx.2.1, h.known x hx'⟩

/-- Where it does not get to, that is when there is nothing to capture. -/
theorem unvisited_exact_iff {s : Site Name Expr} (hvisited : s.context.visited = false) :
    [] = sorted (capturable s) ↔ InSight s := by
  rw [sorted_eq_nil_iff]
  constructor
  · intro h
    refine ⟨fun hne => absurd h hne, ?_, ?_, fun hv => ?_⟩
    · simp [h]
    · simp [h]
    · rw [hvisited] at hv
      exact absurd hv Bool.false_ne_true
  · intro h
    by_contra hne
    rw [h.visited hne] at hvisited
    exact absurd hvisited (by decide)

/-- The analyzer leaves the captures of `captured` in the lambda expressions it gets to, in the order in which
it leaves them; and at any lambda expression the captures are, once each and in order, the free names that are
bound around it and are not its parameters, if and only if all of this is in the sight of the analyzer. -/
theorem captured_exact_iff (program : List Stmt) :
    analyze program = ((sites program).filter fun s => s.context.visited).map
        (fun s => ⟨s.params, s.tag, captured s⟩) ∧
      ∀ s ∈ sites program, (captured s).map CaptureInfo.name = sorted (capturable s) ↔ InSight s := by
  constructor
  · rw [analyze_seen, seen]
    refine List.map_congr_left fun s hs => ?_
    rw [captured, if_pos (List.mem_filter.mp hs).2, annotate]
  · intro s hs
    obtain ⟨hprint, hbound⟩ := known_at_sites program hs
    cases hvisited : s.context.visited with
    | true =>
      rw [captured, if_pos hvisited]
      exact capturesAt_exact_iff hvisited hprint hbound
    | false =>
      rw [captured, if_neg (by simp [hvisited])]
      exact unvisited_exact_iff hvisited

/-- `f = a -> b -> a`. -/
def nestedLambda : List Stmt :=
  [.assignStmt (.identifier ⟨"f".toList, ⟨1, 1⟩⟩)
    (.lambdaExpr ["a".toList] (.lambdaExpr ["b".toList] (.identifier ⟨"a".toList, ⟨1, 15⟩⟩))) [] []]

/-- The inner of two nested lambda expressions does not capture the parameter of the outer one, which it
uses. -/
theorem enclosing_parameter_not_captured :
    (analyze nestedLambda).map (fun a => (a.params, a.captures)) = [(["b".toList], []), (["a".toList], [])] ∧
      ¬ ∀ s ∈ sites nestedLambda, (captured s).map CaptureInfo.name = sorted (capturable s) := by
  decide

end Visuall.Capture
