import Visuall.Lib.Effect
import Visuall.Packages.Resolver

/-!
# Minimal version selection

Which version `resolveDeps` selects for a URL, and when it fails.

* `Requires` — the requirements of a dependency graph: those of the root, and of every manifest that is
  required;
* `Selected` — what `resolvedVersion` holds after some requirements: the invariant of the loop;
* `terminates` — the loop ends when there are finitely many manifests;
* `minimal_versions` — the lock holds the maximum of the versions required for each URL required.
-/

namespace Visuall.Packages

variable {root : VslManifest} {fetcher : ManifestFetcher} {s s' : Resolution} {item : WorkItem}
  {items : List WorkItem}

/-! ## Requirements -/

/-- A version is required for a URL, by the root or by a manifest that is required. -/
inductive Requires (root : VslManifest) (fetcher : ManifestFetcher) : List Char → List Char → Prop
  | root {dep} : dep ∈ root.gitDeps → Requires root fetcher dep.2.url dep.2.version
  | manifest {url version manifest dep} : Requires root fetcher url version →
      fetcher url version = .ok manifest → dep ∈ manifest.gitDeps →
      Requires root fetcher dep.2.url dep.2.version

/-- No two requirements write the same `url@version`. -/
def KeysDistinct (root : VslManifest) (fetcher : ManifestFetcher) : Prop :=
  ∀ url version url' version', Requires root fetcher url version → Requires root fetcher url' version' →
    keyOf url version = keyOf url' version' → url = url' ∧ version = version'

/-- The manifests that can be fetched are finitely many. -/
def FiniteUniverse (fetcher : ManifestFetcher) : Prop :=
  {manifest | ∃ url version, fetcher url version = .ok manifest}.Finite

/-- How `resolveDeps` ends, with fuel enough. -/
def Resolves (E : Enumeration) (root : VslManifest) (fetcher : ManifestFetcher)
    (out : Except ResolveError VslLock) : Prop :=
  ∃ fuel, resolveDeps E fuel root fetcher = some out

/-- What the manifest of an item puts into the queue. -/
def children (fetcher : ManifestFetcher) (item : WorkItem) : List WorkItem :=
  match fetcher item.gitUrl item.version with
  | .error _ => []
  | .ok manifest => itemsOf manifest.gitDeps ('\'' :: item.gitUrl ++ "' @ ".toList ++ item.version)

theorem resolver_gives (fetcher : ManifestFetcher) : (resolver fetcher).Gives (children fetcher) := by
  intro s item s' items h
  have hdiscover : discover fetcher s item = .ok (s', items) := h
  unfold discover at hdiscover
  cases hfetch : fetcher item.gitUrl item.version with
  | error message =>
    rw [hfetch] at hdiscover
    cases hdiscover
  | ok manifest =>
    have hchildren : children fetcher item =
        itemsOf manifest.gitDeps ('\'' :: item.gitUrl ++ "' @ ".toList ++ item.version) := by
      rw [children, hfetch]
    rw [hfetch] at hdiscover
    cases hfold : manifest.gitDeps.foldlM (declareDep manifest) s with
    | error e =>
      simp only [hfold] at hdiscover
      cases hdiscover
    | ok s₁ =>
      simp only [hfold] at hdiscover
      cases hdiscover
      exact hchildren.symm

theorem mem_itemsOf {deps : List (List Char × GitDep)} {requiredBy : List Char}
    (h : item ∈ itemsOf deps requiredBy) :
    ∃ dep ∈ deps, item.gitUrl = dep.2.url ∧ item.version = dep.2.version := by
  obtain ⟨dep, hdep, rfl⟩ := List.mem_map.mp h
  exact ⟨dep, hdep, rfl, rfl⟩

theorem itemsOf_mem {deps : List (List Char × GitDep)} {dep : List Char × GitDep} (hdep : dep ∈ deps)
    (requiredBy : List Char) : ⟨dep.2.url, dep.2.version, requiredBy⟩ ∈ itemsOf deps requiredBy :=
  List.mem_map.mpr ⟨dep, hdep, rfl⟩

theorem initial_queue (root : VslManifest) :
    (initial root).queue = itemsOf root.gitDeps "root vsl.toml".toList := rfl

/-- Items that can be reached are requirements. -/
theorem requires_of_reached (h : Worklist.Reached (children fetcher) (initial root).queue item) :
    Requires root fetcher item.gitUrl item.version := by
  induction h with
  | first hmem =>
      obtain ⟨dep, hdep, hurl, hversion⟩ := mem_itemsOf hmem
      rw [hurl, hversion]
      exact .root hdep
  | @child i j hi hj ih =>
      unfold children at hj
      split at hj
      · cases hj
      · rename_i manifest hfetch
        obtain ⟨dep, hdep, hurl, hversion⟩ := mem_itemsOf hj
        rw [hurl, hversion]
        exact .manifest ih hfetch hdep

/-- Requirements are items that can be reached. -/
theorem reached_of_requires {url version : List Char} (h : Requires root fetcher url version) :
    ∃ item, Worklist.Reached (children fetcher) (initial root).queue item ∧ item.gitUrl = url ∧
      item.version = version := by
  induction h with
  | root hdep => exact ⟨_, .first (itemsOf_mem hdep _), rfl, rfl⟩
  | @manifest url version manifest dep _ hfetch hdep ih =>
      obtain ⟨item, hitem, rfl, rfl⟩ := ih
      have hchild : ⟨dep.2.url, dep.2.version, '\'' :: item.gitUrl ++ "' @ ".toList ++ item.version⟩ ∈
          children fetcher item := by
        unfold children
        rw [hfetch]
        exact itemsOf_mem hdep _
      exact ⟨_, .child hitem hchild, rfl, rfl⟩

theorem children_of_key (hkeys : KeysDistinct root fetcher) :
    Worklist.KeyDetermines (resolver fetcher).key (children fetcher) (initial root).queue := by
  intro i j hi hj hkey
  obtain ⟨hurl, hversion⟩ := hkeys _ _ _ _ (requires_of_reached hi) (requires_of_reached hj) hkey
  unfold children
  rw [hurl, hversion]

/-! ## Termination -/

/-- Finitely many manifests require finitely many versions. -/
theorem requires_finite (root : VslManifest) (hfinite : FiniteUniverse fetcher) :
    {r : List Char × List Char | Requires root fetcher r.1 r.2}.Finite := by
  have hdeps : ∀ manifest : VslManifest,
      {r : List Char × List Char | ∃ dep ∈ manifest.gitDeps, r = (dep.2.url, dep.2.version)}.Finite := by
    intro manifest
    refine (manifest.gitDeps.map fun dep => (dep.2.url, dep.2.version)).finite_toSet.subset ?_
    rintro r ⟨dep, hdep, rfl⟩
    exact List.mem_map.mpr ⟨dep, hdep, rfl⟩
  refine ((hdeps root).union (hfinite.biUnion fun manifest _ => hdeps manifest)).subset ?_
  rintro ⟨url, version⟩ h
  have h' : Requires root fetcher url version := h
  cases h' with
  | @root dep hdep => exact .inl ⟨dep, hdep, rfl⟩
  | @manifest url version manifest dep _ hfetch hdep =>
      exact .inr (Set.mem_biUnion ⟨url, version, hfetch⟩ ⟨dep, hdep, rfl⟩)

/-- **Termination.** -/
theorem terminates (E : Enumeration) (root : VslManifest) (hfinite : FiniteUniverse fetcher) :
    ∃ out, Resolves E root fetcher out := by
  have hkeys : {k : List Char | ∃ item, Worklist.Reached (children fetcher) (initial root).queue item ∧
      (resolver fetcher).key item = k}.Finite := by
    refine ((requires_finite root hfinite).image fun r => keyOf r.1 r.2).subset ?_
    rintro k ⟨item, hitem, rfl⟩
    exact ⟨(item.gitUrl, item.version), requires_of_reached hitem, rfl⟩
  obtain ⟨fuel, out, hrun⟩ := Worklist.run_terminates (s := initial root) (resolver_gives fetcher)
    hkeys.toFinset fun i hi => (Set.Finite.mem_toFinset hkeys).mpr ⟨i, hi, rfl⟩
  exact ⟨out.map (lockOf E), fuel, congrArg (Option.map _) hrun⟩

/-! ## The versions selected -/

/-- Two requirements for one URL are versions with the same major component. -/
def Compatible (i j : WorkItem) : Prop :=
  i.gitUrl = j.gitUrl → ∃ a b, parseSemver i.version = some a ∧ parseSemver j.version = some b ∧
    a.major = b.major

instance : Std.Symm Compatible where
  symm := by
    intro i j h hurl
    obtain ⟨a, b, ha, hb, hmajor⟩ := h hurl.symm
    exact ⟨b, a, hb, ha, hmajor.symm⟩

/-- The version is no less than the other, and compatible with it; a version that is no semver is compared
only with itself. -/
def Covers (v w : List Char) : Prop :=
  w = v ∨ ∃ a b, parseSemver v = some a ∧ parseSemver w = some b ∧ a.major = b.major ∧
    semverGreater b a = false

/-- What `resolvedVersion` holds after some requirements have been merged. -/
structure Selected (items : List WorkItem) (m : AList (fun _ : List Char => List Char)) : Prop where
  compatible : items.Pairwise Compatible
  missing : ∀ url, m.lookup url = none → ∀ i ∈ items, i.gitUrl ≠ url
  holds : ∀ url v, m.lookup url = some v → (∃ i ∈ items, i.gitUrl = url ∧ i.version = v) ∧
    ∀ i ∈ items, i.gitUrl = url → Covers v i.version

theorem semverGreater_iff (a b : Semver) :
    semverGreater a b = true ↔
      b.major < a.major ∨ b.major = a.major ∧ (b.minor < a.minor ∨ b.minor = a.minor ∧ b.patch < a.patch) := by
  unfold semverGreater
  split_ifs with hmajor hminor
  · rw [decide_eq_true_iff]
    omega
  · rw [decide_eq_true_iff]
    omega
  · rw [decide_eq_true_iff]
    omega

theorem not_semverGreater_trans {a b c : Semver} (hab : semverGreater b a = true)
    (hca : semverGreater c a = false) : semverGreater c b = false := by
  rw [Bool.eq_false_iff, ne_eq, semverGreater_iff] at hca ⊢
  rw [semverGreater_iff] at hab
  omega

/-- What a requirement that is merged does. -/
theorem mergeVersion_cases (h : mergeVersion s item = .ok s') :
    (s.resolvedVersion.lookup item.gitUrl = none ∧
      s' = { s with resolvedVersion := s.resolvedVersion.insert item.gitUrl item.version }) ∨
    ∃ v a b, s.resolvedVersion.lookup item.gitUrl = some v ∧ parseSemver v = some a ∧
      parseSemver item.version = some b ∧ a.major = b.major ∧
      ((semverGreater b a = true ∧
          s' = { s with resolvedVersion := s.resolvedVersion.insert item.gitUrl item.version }) ∨
        (semverGreater b a = false ∧ s' = s)) := by
  unfold mergeVersion at h
  cases hlookup : s.resolvedVersion.lookup item.gitUrl with
  | none =>
      rw [hlookup] at h
      cases h
      exact .inl ⟨rfl, rfl⟩
  | some v =>
      rw [hlookup] at h
      dsimp only at h
      cases hv : parseSemver v with
      | none =>
          rw [hv] at h
          cases h
      | some a =>
          cases hitem : parseSemver item.version with
          | none =>
              rw [hv, hitem] at h
              cases h
          | some b =>
              rw [hv, hitem] at h
              dsimp only at h
              split_ifs at h with hmajor hgreater
              · cases h
                exact .inr ⟨v, a, b, rfl, hv, rfl, not_not.mp hmajor, .inl ⟨hgreater, rfl⟩⟩
              · cases h
                exact .inr ⟨v, a, b, rfl, hv, rfl, not_not.mp hmajor, .inr ⟨by simpa using hgreater, rfl⟩⟩

/-- Why a requirement cannot be merged. -/
theorem mergeVersion_error {e : ResolveError} (h : mergeVersion s item = .error e) :
    ∃ v, s.resolvedVersion.lookup item.gitUrl = some v ∧ e.isAliasConflict = false ∧
      ((e.isMajor = false ∧ (parseSemver v = none ∨ parseSemver item.version = none)) ∨
        (e.isMajor = true ∧ ∃ a b, parseSemver v = some a ∧ parseSemver item.version = some b ∧
          a.major ≠ b.major)) := by
  unfold mergeVersion at h
  cases hlookup : s.resolvedVersion.lookup item.gitUrl with
  | none =>
      rw [hlookup] at h
      cases h
  | some v =>
      rw [hlookup] at h
      dsimp only at h
      refine ⟨v, rfl, ?_⟩
      cases hv : parseSemver v with
      | none =>
          rw [hv] at h
          cases h
          exact ⟨rfl, .inl ⟨rfl, .inl rfl⟩⟩
      | some a =>
          cases hitem : parseSemver item.version with
          | none =>
              rw [hv, hitem] at h
              cases h
              exact ⟨rfl, .inl ⟨rfl, .inr rfl⟩⟩
          | some b =>
              rw [hv, hitem] at h
              dsimp only at h
              split_ifs at h with hmajor hgreater
              cases h
              exact ⟨rfl, .inr ⟨rfl, a, b, rfl, rfl, hmajor⟩⟩

theorem Selected.start : Selected [] (initial root).acc.resolvedVersion := by
  have hempty : (initial root).acc.resolvedVersion = ∅ := by
    show (root.gitDeps.foldl declareRoot ⟨∅, ∅, []⟩).resolvedVersion = ∅
    have hfold : ∀ (deps : List (List Char × GitDep)) (s : Resolution),
        (deps.foldl declareRoot s).resolvedVersion = s.resolvedVersion := by
      intro deps
      induction deps with
      | nil => exact fun s => rfl
      | cons dep deps ih => exact fun s => ih _
    exact hfold _ _
  rw [hempty]
  refine ⟨List.Pairwise.nil, fun url _ i hi => absurd hi List.not_mem_nil, fun url v h => ?_⟩
  rw [AList.lookup_empty] at h
  cases h

/-- A requirement whose version covers those before it is the version selected. -/
theorem Selected.insert {m : AList (fun _ : List Char => List Char)} (hsel : Selected items m)
    (hcompatible : (items ++ [item]).Pairwise Compatible)
    (hcovers : ∀ i ∈ items, i.gitUrl = item.gitUrl → Covers item.version i.version) :
    Selected (items ++ [item]) (m.insert item.gitUrl item.version) := by
  refine ⟨hcompatible, ?_, ?_⟩
  · intro url hlookup i hi
    by_cases hurl : url = item.gitUrl
    · rw [hurl, AList.lookup_insert] at hlookup
      cases hlookup
    · rw [AList.lookup_insert_ne hurl] at hlookup
      rcases List.mem_append.mp hi with hi | hi
      · exact hsel.missing url hlookup i hi
      · rw [List.mem_singleton.mp hi]
        exact fun h => hurl h.symm
  · intro url v hlookup
    by_cases hurl : url = item.gitUrl
    · rw [hurl, AList.lookup_insert] at hlookup
      cases hlookup
      rw [hurl]
      refine ⟨⟨item, by simp, rfl, rfl⟩, fun i hi hi' => ?_⟩
      rcases List.mem_append.mp hi with hi | hi
      · exact hcovers i hi hi'
      · rw [List.mem_singleton.mp hi]
        exact .inl rfl
    · rw [AList.lookup_insert_ne hurl] at hlookup
      obtain ⟨⟨i, hi, hi'⟩, hcov⟩ := hsel.holds url v hlookup
      refine ⟨⟨i, List.mem_append_left _ hi, hi'⟩, fun j hj hj' => ?_⟩
      rcases List.mem_append.mp hj with hj | hj
      · exact hcov j hj hj'
      · rw [List.mem_singleton.mp hj] at hj'
        exact absurd hj'.symm hurl

/-- What the requirements for a URL are, when a version is selected that is a semver. -/
theorem Selected.same {m : AList (fun _ : List Char => List Char)} {url v : List Char} {a : Semver}
    (hsel : Selected items m) (hv : m.lookup url = some v) (ha : parseSemver v = some a) {i : WorkItem}
    (hi : i ∈ items) (hurl : i.gitUrl = url) :
    ∃ c, parseSemver i.version = some c ∧ c.major = a.major ∧ semverGreater c a = false := by
  rcases (hsel.holds url v hv).2 i hi hurl with hiv | ⟨a', c, ha', hc, hmajor', hle⟩
  · refine ⟨a, hiv ▸ ha, rfl, ?_⟩
    rw [Bool.eq_false_iff, ne_eq, semverGreater_iff]
    omega
  · rw [ha] at ha'
    cases ha'
    exact ⟨c, hc, hmajor'.symm, hle⟩

/-- **The step.**  A requirement that is merged keeps the maximum of the versions. -/
theorem Selected.merge (hsel : Selected items s.resolvedVersion) (h : mergeVersion s item = .ok s') :
    Selected (items ++ [item]) s'.resolvedVersion := by
  have hpairwise : (∀ i ∈ items, i.gitUrl = item.gitUrl → Compatible i item) →
      (items ++ [item]).Pairwise Compatible := by
    intro hall
    refine List.pairwise_append.mpr ⟨hsel.compatible, List.pairwise_singleton _ _, ?_⟩
    intro i hi j hj hurl
    rw [List.mem_singleton.mp hj] at hurl ⊢
    exact hall i hi hurl hurl
  rcases mergeVersion_cases h with ⟨hnone, rfl⟩ | ⟨v, a, b, hv, ha, hb, hmajor, hcase⟩
  · -- the first requirement for its URL
    have hnew := hsel.missing _ hnone
    exact hsel.insert (hpairwise fun i hi hurl => absurd hurl (hnew i hi))
      fun i hi hurl => absurd hurl (hnew i hi)
  · -- it is compared with the version selected so far
    have hcompatible : (items ++ [item]).Pairwise Compatible := by
      apply hpairwise
      intro i hi hurl _
      obtain ⟨c, hc, hcmajor, _⟩ := hsel.same hv ha hi hurl
      exact ⟨c, b, hc, hb, hcmajor.trans hmajor⟩
    rcases hcase with ⟨hgreater, rfl⟩ | ⟨hnot, rfl⟩
    · apply hsel.insert hcompatible
      intro i hi hurl
      obtain ⟨c, hc, hcmajor, hle⟩ := hsel.same hv ha hi hurl
      exact .inr ⟨b, c, hb, hc, (hcmajor.trans hmajor).symm, not_semverGreater_trans hgreater hle⟩
    · refine ⟨hcompatible, ?_, ?_⟩
      · intro url hlookup i hi
        rcases List.mem_append.mp hi with hi | hi
        · exact hsel.missing url hlookup i hi
        · rw [List.mem_singleton.mp hi]
          intro hurl
          rw [← hurl, hv] at hlookup
          cases hlookup
      · intro url w hlookup
        obtain ⟨⟨i, hi, hi'⟩, hcov⟩ := hsel.holds url w hlookup
        refine ⟨⟨i, List.mem_append_left _ hi, hi'⟩, fun j hj hj' => ?_⟩
        rcases List.mem_append.mp hj with hj | hj
        · exact hcov j hj hj'
        · rw [List.mem_singleton.mp hj] at hj' ⊢
          rw [← hj', hv] at hlookup
          cases hlookup
          exact .inr ⟨a, b, ha, hb, hmajor, hnot⟩

/-! ## Runs -/

/-- What a manifest that is fetched does. -/
theorem discover_cases {new : List WorkItem} (h : discover fetcher s item = .ok (s', new)) :
    ∃ manifest, fetcher item.gitUrl item.version = .ok manifest ∧
      manifest.gitDeps.foldlM (declareDep manifest) s = .ok s' := by
  unfold discover at h
  cases hfetch : fetcher item.gitUrl item.version with
  | error message =>
      rw [hfetch] at h
      cases h
  | ok manifest =>
      rw [hfetch] at h
      dsimp only at h
      cases hfold : manifest.gitDeps.foldlM (declareDep manifest) s with
      | error e =>
          rw [hfold] at h
          cases h
      | ok s₁ =>
          rw [hfold] at h
          cases h
          exact ⟨manifest, rfl, hfold⟩

/-- What a dependency that is declared does. -/
theorem declareDep_cases {manifest : VslManifest} {dep : List Char × GitDep}
    (h : declareDep manifest s dep = .ok s') :
    (dep.2.url ∈ s.urlToAlias ∧ s' = s) ∨
      (dep.2.url ∉ s.urlToAlias ∧ manifest.package.name ∉ s.rootAliases ∧
        s' = { s with urlToAlias := s.urlToAlias.insert dep.2.url dep.1 }) := by
  unfold declareDep at h
  dsimp only at h
  split_ifs at h with hold hname
  · cases h
    exact .inl ⟨hold, rfl⟩
  · cases h
    exact .inr ⟨hold, hname, rfl⟩

/-- Only aliases are declared. -/
theorem declareDeps_frame {manifest : VslManifest} {deps : List (List Char × GitDep)}
    (h : deps.foldlM (declareDep manifest) s = .ok s') :
    s'.resolvedVersion = s.resolvedVersion ∧ s'.rootAliases = s.rootAliases := by
  induction deps generalizing s with
  | nil =>
      cases h
      exact ⟨rfl, rfl⟩
  | cons dep deps ih =>
      rw [List.foldlM_cons] at h
      obtain ⟨s₁, hdep, hdeps⟩ := Effect.ok_of_bind h
      have hframe := ih hdeps
      rcases declareDep_cases hdep with ⟨_, rfl⟩ | ⟨_, _, rfl⟩
      · exact hframe
      · exact hframe

/-- **The run.**  What the loop holds after the items it has taken. -/
theorem selected_of_steps {t : Worklist.State WorkItem (List Char) Resolution}
    (h : (resolver fetcher).Steps (initial root) items t) : Selected items t.acc.resolvedVersion := by
  refine h.invariant (I := fun taken s => Selected taken s.acc.resolvedVersion) Selected.start ?_
  intro taken s item queue s' hsel _ hstep
  obtain ⟨acc, hmeet, ⟨_, rfl⟩ | ⟨_, acc', new, hexpand, rfl⟩⟩ := Worklist.step_cases hstep
  · exact hsel.merge hmeet
  · obtain ⟨manifest, _, hfold⟩ := discover_cases hexpand
    show Selected _ acc'.resolvedVersion
    rw [(declareDeps_frame hfold).1]
    exact hsel.merge hmeet

theorem steps_of_ok {E : Enumeration} {lock : VslLock} (h : Resolves E root fetcher (.ok lock)) :
    ∃ items t, (resolver fetcher).Steps (initial root) items t ∧ t.queue = [] ∧ lock = lockOf E t.acc := by
  obtain ⟨fuel, h⟩ := h
  obtain ⟨out, hrun, hout⟩ := Option.map_eq_some_iff.mp h
  cases out with
  | error e => cases hout
  | ok acc =>
      cases hout
      obtain ⟨items, t, hsteps, hqueue, rfl⟩ := Worklist.run_ok_iff.mp ⟨fuel, hrun⟩
      exact ⟨items, t, hsteps, hqueue, rfl⟩

theorem steps_of_error {E : Enumeration} {e : ResolveError} (h : Resolves E root fetcher (.error e)) :
    ∃ items t item queue, (resolver fetcher).Steps (initial root) items t ∧ t.queue = item :: queue ∧
      (resolver fetcher).step item { t with queue := queue } = .error e := by
  obtain ⟨fuel, h⟩ := h
  obtain ⟨out, hrun, hout⟩ := Option.map_eq_some_iff.mp h
  cases out with
  | ok acc => cases hout
  | error e' =>
      cases hout
      exact Worklist.run_error_iff.mp ⟨fuel, hrun⟩

/-- A run ends in one way. -/
theorem Resolves.unique {E : Enumeration} {out out' : Except ResolveError VslLock}
    (h : Resolves E root fetcher out) (h' : Resolves E root fetcher out') : out = out' := by
  obtain ⟨fuel, h⟩ := h
  obtain ⟨fuel', h'⟩ := h'
  obtain ⟨end₁, hrun, rfl⟩ := Option.map_eq_some_iff.mp h
  obtain ⟨end₂, hrun', rfl⟩ := Option.map_eq_some_iff.mp h'
  have hadd := Worklist.run_add hrun fuel'
  rw [Nat.add_comm, Worklist.run_add hrun' fuel] at hadd
  cases hadd
  rfl

/-- The items taken are requirements. -/
theorem requires_of_steps {t : Worklist.State WorkItem (List Char) Resolution}
    (h : (resolver fetcher).Steps (initial root) items t) :
    ∀ i ∈ items ++ t.queue, Requires root fetcher i.gitUrl i.version :=
  fun i hi => requires_of_reached (h.reached (resolver_gives fetcher) i hi)

/-- When the queue is empty, every requirement has been taken. -/
theorem taken_of_requires {t : Worklist.State WorkItem (List Char) Resolution} {url version : List Char}
    (hkeys : KeysDistinct root fetcher) (h : (resolver fetcher).Steps (initial root) items t)
    (hqueue : t.queue = []) (hreq : Requires root fetcher url version) :
    ∃ i ∈ items, i.gitUrl = url ∧ i.version = version := by
  obtain ⟨i, hi, hurl, hversion⟩ := reached_of_requires hreq
  exact ⟨i, h.complete (resolver_gives fetcher) (children_of_key hkeys) rfl hqueue hi, hurl, hversion⟩

/-- Why a dependency cannot be declared. -/
theorem declareDeps_error {manifest : VslManifest} {deps : List (List Char × GitDep)} {e : ResolveError}
    (h : deps.foldlM (declareDep manifest) s = .error e) :
    (∃ dep ∈ deps, dep.2.url ∉ s.urlToAlias) ∧ manifest.package.name ∈ s.rootAliases ∧
      e = .aliasConflict manifest.package.name := by
  induction deps generalizing s with
  | nil => cases h
  | cons dep deps ih =>
      rw [List.foldlM_cons] at h
      cases hdep : declareDep manifest s dep with
      | error e' =>
          rw [hdep] at h
          cases h
          unfold declareDep at hdep
          dsimp only at hdep
          split_ifs at hdep with hnew hname
          cases hdep
          exact ⟨⟨dep, List.mem_cons_self, hnew⟩, hname, rfl⟩
      | ok s₁ =>
          rw [hdep] at h
          obtain ⟨⟨d, hd, hurl⟩, hname, he⟩ := ih h
          rcases declareDep_cases hdep with ⟨_, rfl⟩ | ⟨_, _, rfl⟩
          · exact ⟨⟨d, List.mem_cons_of_mem _ hd, hurl⟩, hname, he⟩
          · exact ⟨⟨d, List.mem_cons_of_mem _ hd, fun h => hurl (AList.mem_insert _ |>.mpr (.inr h))⟩,
              hname, he⟩

/-- Why a manifest cannot be taken in. -/
theorem discover_error {e : ResolveError} (h : discover fetcher s item = .error e) :
    (∃ message, fetcher item.gitUrl item.version = .error message ∧ e = .fetchFailed item message) ∨
      ∃ manifest, fetcher item.gitUrl item.version = .ok manifest ∧
        (∃ dep ∈ manifest.gitDeps, dep.2.url ∉ s.urlToAlias) ∧
        manifest.package.name ∈ s.rootAliases ∧ e = .aliasConflict manifest.package.name := by
  unfold discover at h
  cases hfetch : fetcher item.gitUrl item.version with
  | error message =>
      rw [hfetch] at h
      cases h
      exact .inl ⟨message, rfl, rfl⟩
  | ok manifest =>
      rw [hfetch] at h
      dsimp only at h
      cases hfold : manifest.gitDeps.foldlM (declareDep manifest) s with
      | error e' =>
          rw [hfold] at h
          cases h
          exact .inr ⟨manifest, rfl, declareDeps_error hfold⟩
      | ok s₁ =>
          rw [hfold] at h
          cases h

theorem mergeVersion_rootAliases (h : mergeVersion s item = .ok s') : s'.rootAliases = s.rootAliases := by
  rcases mergeVersion_cases h with ⟨_, rfl⟩ | ⟨_, _, _, _, _, _, _, ⟨_, rfl⟩ | ⟨_, rfl⟩⟩
  · rfl
  · rfl
  · rfl

theorem initial_rootAliases (root : VslManifest) (name : List Char) :
    name ∈ (initial root).acc.rootAliases ↔ name ∈ root.gitDeps.map Prod.fst := by
  have hfold : ∀ (deps : List (List Char × GitDep)) (s : Resolution),
      name ∈ (deps.foldl declareRoot s).rootAliases ↔
        name ∈ deps.map Prod.fst ∨ name ∈ s.rootAliases := by
    intro deps
    induction deps with
    | nil => simp
    | cons dep deps ih =>
        intro s
        rw [List.foldl_cons, ih]
        show _ ∨ name ∈ dep.1 :: s.rootAliases ↔ _
        rw [List.map_cons, List.mem_cons, List.mem_cons]
        tauto
  have h := hfold root.gitDeps ⟨∅, ∅, []⟩
  rw [or_iff_left List.not_mem_nil] at h
  exact h

/-- The root aliases stay as they are. -/
theorem rootAliases_of_steps {t : Worklist.State WorkItem (List Char) Resolution}
    (h : (resolver fetcher).Steps (initial root) items t) :
    t.acc.rootAliases = (initial root).acc.rootAliases := by
  refine h.invariant (I := fun _ s => s.acc.rootAliases = (initial root).acc.rootAliases) rfl ?_
  intro taken s item queue s' hs _ hstep
  obtain ⟨acc, hmeet, ⟨_, rfl⟩ | ⟨_, acc', new, hexpand, rfl⟩⟩ := Worklist.step_cases hstep
  · exact (mergeVersion_rootAliases hmeet).trans hs
  · obtain ⟨manifest, _, hfold⟩ := discover_cases hexpand
    exact (declareDeps_frame hfold).2.trans ((mergeVersion_rootAliases hmeet).trans hs)

/-! ## The lock -/

theorem mem_entriesOf {m : AList (fun _ : List Char => List Char)} {url v : List Char} :
    (url, v) ∈ entriesOf m ↔ m.lookup url = some v := by
  rw [← Option.mem_def, AList.mem_lookup_iff]
  unfold entriesOf
  constructor
  · intro h
    obtain ⟨⟨k, w⟩, hmem, heq⟩ := List.mem_map.mp h
    cases heq
    exact hmem
  · exact fun h => List.mem_map.mpr ⟨⟨url, v⟩, h, rfl⟩

theorem lock_perm (E : Enumeration) (s : Resolution) :
    (lockOf E s).packages.Perm ((entriesOf s.resolvedVersion).map (lockEntry s)) :=
  (List.perm_insertionSort _ _).trans ((E.perm _).map _)

theorem mem_lock {E : Enumeration} {entry : LockEntry} :
    entry ∈ (lockOf E s).packages ↔
      ∃ url v, s.resolvedVersion.lookup url = some v ∧ entry = lockEntry s (url, v) := by
  rw [(lock_perm E s).mem_iff, List.mem_map]
  constructor
  · rintro ⟨⟨url, v⟩, hmem, rfl⟩
    exact ⟨url, v, mem_entriesOf.mp hmem, rfl⟩
  · rintro ⟨url, v, hlookup, rfl⟩
    exact ⟨(url, v), mem_entriesOf.mpr hlookup, rfl⟩

theorem lock_urls_nodup (E : Enumeration) (s : Resolution) :
    ((lockOf E s).packages.map LockEntry.url).Nodup := by
  refine ((lock_perm E s).map LockEntry.url).nodup_iff.mpr ?_
  have hkeys : ((entriesOf s.resolvedVersion).map (lockEntry s)).map LockEntry.url =
      s.resolvedVersion.keys := by
    unfold entriesOf AList.keys List.keys
    rw [List.map_map, List.map_map]
    rfl
  rw [hkeys]
  exact s.resolvedVersion.keys_nodup

/-! ## Main result -/

/-- Two versions required for one URL differ in their major component. -/
def DifferInMajor (root : VslManifest) (fetcher : ManifestFetcher) : Prop :=
  ∃ url v w a b, Requires root fetcher url v ∧ Requires root fetcher url w ∧
    parseSemver v = some a ∧ parseSemver w = some b ∧ a.major ≠ b.major

/-- The version is the greatest of those required for the URL. -/
def Maximum (root : VslManifest) (fetcher : ManifestFetcher) (url v : List Char) : Prop :=
  Requires root fetcher url v ∧ ∀ w, Requires root fetcher url w → Covers v w

/-- No error but that of a major version can come up: what is required can be fetched, its versions are
semvers, and no package with git dependencies is named as a root alias. -/
structure Unhindered (root : VslManifest) (fetcher : ManifestFetcher) : Prop where
  fetched : ∀ url v, Requires root fetcher url v → ∃ manifest, fetcher url v = .ok manifest
  semver : ∀ url v, Requires root fetcher url v → ∃ a, parseSemver v = some a
  names : ∀ url v manifest, Requires root fetcher url v → fetcher url v = .ok manifest →
    manifest.gitDeps ≠ [] → manifest.package.name ∉ root.gitDeps.map Prod.fst

/-- An error of a major version has its reason. -/
theorem differInMajor_of_error {E : Enumeration} {e : ResolveError}
    (h : Resolves E root fetcher (.error e)) (he : e.isMajor = true) : DifferInMajor root fetcher := by
  obtain ⟨items, t, item, queue, hsteps, hqueue, hstep⟩ := steps_of_error h
  have hreq := requires_of_steps hsteps
  have hitem : Requires root fetcher item.gitUrl item.version := by
    apply hreq
    rw [hqueue]
    exact List.mem_append_right _ List.mem_cons_self
  rcases Worklist.step_error hstep with hmeet | ⟨acc, _, _, hexpand⟩
  · obtain ⟨v, hv, _, ⟨hnot, _⟩ | ⟨_, a, b, ha, hb, hmajor⟩⟩ := mergeVersion_error hmeet
    · rw [he] at hnot
      cases hnot
    · obtain ⟨⟨i, hi, hurl, hiv⟩, _⟩ := (selected_of_steps hsteps).holds _ v hv
      have hi' := hreq i (List.mem_append_left _ hi)
      rw [hurl, hiv] at hi'
      exact ⟨_, v, _, a, b, hi', hitem, ha, hb, hmajor⟩
  · rcases discover_error hexpand with ⟨message, _, rfl⟩ | ⟨manifest, _, _, _, rfl⟩
    · cases he
    · cases he

/-- Unless something else stands in the way, the error is that of a major version. -/
theorem isMajor_of_unhindered {E : Enumeration} {e : ResolveError} (hfree : Unhindered root fetcher)
    (h : Resolves E root fetcher (.error e)) : e.isMajor = true := by
  obtain ⟨items, t, item, queue, hsteps, hqueue, hstep⟩ := steps_of_error h
  have hreq := requires_of_steps hsteps
  have hitem : Requires root fetcher item.gitUrl item.version := by
    apply hreq
    rw [hqueue]
    exact List.mem_append_right _ List.mem_cons_self
  rcases Worklist.step_error hstep with hmeet | ⟨acc, hmeet, _, hexpand⟩
  · obtain ⟨v, hv, _, ⟨_, hparse⟩ | ⟨hmajor, _⟩⟩ := mergeVersion_error hmeet
    · obtain ⟨⟨i, hi, hurl, hiv⟩, _⟩ := (selected_of_steps hsteps).holds _ v hv
      obtain ⟨a, ha⟩ := hfree.semver _ _ (hreq i (List.mem_append_left _ hi))
      obtain ⟨b, hb⟩ := hfree.semver _ _ hitem
      rw [hiv] at ha
      rcases hparse with hnone | hnone
      · rw [ha] at hnone
        cases hnone
      · rw [hb] at hnone
        cases hnone
    · exact hmajor
  · rcases discover_error hexpand with ⟨message, hfetch, _⟩ | ⟨manifest, hfetch, ⟨dep, hdep, _⟩, hname, _⟩
    · obtain ⟨manifest, hok⟩ := hfree.fetched _ _ hitem
      rw [hfetch] at hok
      cases hok
    · refine absurd ?_ (hfree.names _ _ _ hitem hfetch (List.ne_nil_of_mem hdep))
      rw [← initial_rootAliases, ← rootAliases_of_steps hsteps, ← mergeVersion_rootAliases hmeet]
      exact hname

/-- Two requirements that differ in their major component are not both taken. -/
theorem not_differInMajor {t : Worklist.State WorkItem (List Char) Resolution}
    (hkeys : KeysDistinct root fetcher) (h : (resolver fetcher).Steps (initial root) items t)
    (hqueue : t.queue = []) : ¬ DifferInMajor root fetcher := by
  rintro ⟨url, v, w, a, b, hv, hw, ha, hb, hmajor⟩
  obtain ⟨i, hi, hiurl, rfl⟩ := taken_of_requires hkeys h hqueue hv
  obtain ⟨j, hj, hjurl, rfl⟩ := taken_of_requires hkeys h hqueue hw
  have hij : i ≠ j := by
    rintro rfl
    rw [ha] at hb
    cases hb
    exact hmajor rfl
  have hpairwise := (selected_of_steps h).compatible
  obtain ⟨a', b', ha', hb', hsame⟩ :=
    hpairwise.forall hi hj hij (hiurl.trans hjurl.symm)
  rw [ha] at ha'
  rw [hb] at hb'
  cases ha'
  cases hb'
  exact hmajor hsame

/-- **Minimal version selection.**  `resolveDeps` ends.  It reports a major version only when two
requirements for one URL differ in it.  Where each `url@version` is one requirement, the lock it returns has
one entry for each URL required, with the maximum of the versions; and if two requirements differ in their
major component it fails, with that error unless another one comes first. -/
theorem minimal_versions (E : Enumeration) (root : VslManifest) (fetcher : ManifestFetcher)
    (hfinite : FiniteUniverse fetcher) :
    (∃ out, Resolves E root fetcher out) ∧
      (∀ e, Resolves E root fetcher (.error e) → e.isMajor = true → DifferInMajor root fetcher) ∧
      (KeysDistinct root fetcher →
        (∀ lock, Resolves E root fetcher (.ok lock) →
          (lock.packages.map LockEntry.url).Nodup ∧
            (∀ url, url ∈ lock.packages.map LockEntry.url ↔ ∃ v, Requires root fetcher url v) ∧
            ∀ entry ∈ lock.packages, Maximum root fetcher entry.url entry.version) ∧
          (DifferInMajor root fetcher → ∃ e, Resolves E root fetcher (.error e) ∧
            (Unhindered root fetcher → e.isMajor = true))) := by
  refine ⟨terminates E root hfinite, fun e => differInMajor_of_error, fun hkeys => ⟨?_, ?_⟩⟩
  · intro lock hlock
    obtain ⟨items, t, hsteps, hqueue, rfl⟩ := steps_of_ok hlock
    have hsel := selected_of_steps hsteps
    have hreq : ∀ i ∈ items, Requires root fetcher i.gitUrl i.version :=
      fun i hi => requires_of_steps hsteps i (List.mem_append_left _ hi)
    refine ⟨lock_urls_nodup E t.acc, fun url => ⟨?_, ?_⟩, ?_⟩
    · intro hmem
      obtain ⟨entry, hentry, rfl⟩ := List.mem_map.mp hmem
      obtain ⟨url, v, hlookup, rfl⟩ := mem_lock.mp hentry
      obtain ⟨⟨i, hi, rfl, rfl⟩, _⟩ := hsel.holds url v hlookup
      exact ⟨_, hreq i hi⟩
    · rintro ⟨v, hv⟩
      obtain ⟨i, hi, rfl, rfl⟩ := taken_of_requires hkeys hsteps hqueue hv
      cases hlookup : t.acc.resolvedVersion.lookup i.gitUrl with
      | none => exact absurd rfl (hsel.missing _ hlookup i hi)
      | some w => exact List.mem_map.mpr ⟨_, mem_lock.mpr ⟨_, w, hlookup, rfl⟩, rfl⟩
    · intro entry hentry
      obtain ⟨url, v, hlookup, rfl⟩ := mem_lock.mp hentry
      obtain ⟨⟨i, hi, hurl, hiv⟩, hcovers⟩ := hsel.holds url v hlookup
      refine ⟨?_, fun w hw => ?_⟩
      · have hi' := hreq i hi
        rw [hurl, hiv] at hi'
        exact hi'
      · obtain ⟨j, hj, hjurl, rfl⟩ := taken_of_requires hkeys hsteps hqueue hw
        exact hcovers j hj hjurl
  · intro hdiffer
    obtain ⟨out, hout⟩ := terminates E root hfinite
    cases out with
    | error e => exact ⟨e, hout, fun hfree => isMajor_of_unhindered hfree hout⟩
    | ok lock =>
        obtain ⟨items, t, hsteps, hqueue, _⟩ := steps_of_ok hout
        exact absurd hdiffer (not_differInMajor hkeys hsteps hqueue)

/-- A manifest with these git dependencies. -/
def gitManifest (name : String) (deps : List (String × String × String)) : VslManifest where
  package := ⟨name.toList⟩
  dependencies := (deps.map fun dep =>
    (⟨dep.1.toList, .git ⟨dep.2.1.toList, dep.2.2.toList⟩⟩ : Sigma fun _ : List Char => Dependency)).toAList

/-- The loop over a map meets its entries as they are. -/
def Enumeration.id : Enumeration := ⟨fun entries => entries, fun _ => List.Perm.refl _⟩

/-- Two packages that depend on each other. -/
def cyclicFetcher : ManifestFetcher := fun url _ =>
  if url = "net".toList then .ok (gitManifest "net" [("json", "json", "1.4.0")])
  else if url = "json".toList then .ok (gitManifest "json" [("net", "net", "1.0.0")])
  else .error "not found".toList

def cyclicRoot : VslManifest := gitManifest "app" [("net", "net", "1.0.0"), ("json", "json", "1.2.0")]

theorem cyclic_finite : FiniteUniverse cyclicFetcher := by
  refine ((Set.finite_singleton (gitManifest "json" [("net", "net", "1.0.0")])).insert
    (gitManifest "net" [("json", "json", "1.4.0")])).subset ?_
  rintro manifest ⟨url, version, h⟩
  unfold cyclicFetcher at h
  split_ifs at h
  · cases h
    exact Set.mem_insert _ _
  · cases h
    exact Set.mem_insert_of_mem _ rfl

theorem cyclic_requires {url version : List Char} (h : Requires cyclicRoot cyclicFetcher url version) :
    (url, version) ∈ [("net".toList, "1.0.0".toList), ("json".toList, "1.2.0".toList),
      ("json".toList, "1.4.0".toList)] := by
  induction h with
  | @root dep hdep =>
      have hall : ∀ dep ∈ cyclicRoot.gitDeps, (dep.2.url, dep.2.version) ∈ [("net".toList, "1.0.0".toList),
          ("json".toList, "1.2.0".toList), ("json".toList, "1.4.0".toList)] := by decide
      exact hall dep hdep
  | @manifest url version manifest dep _ hfetch hdep _ =>
      have hnet : ∀ dep ∈ (gitManifest "net" [("json", "json", "1.4.0")]).gitDeps,
          (dep.2.url, dep.2.version) ∈ [("net".toList, "1.0.0".toList), ("json".toList, "1.2.0".toList),
            ("json".toList, "1.4.0".toList)] := by decide
      have hjson : ∀ dep ∈ (gitManifest "json" [("net", "net", "1.0.0")]).gitDeps,
          (dep.2.url, dep.2.version) ∈ [("net".toList, "1.0.0".toList), ("json".toList, "1.2.0".toList),
            ("json".toList, "1.4.0".toList)] := by decide
      unfold cyclicFetcher at hfetch
      split_ifs at hfetch
      · cases hfetch
        exact hnet dep hdep
      · cases hfetch
        exact hjson dep hdep

theorem cyclic_keys : KeysDistinct cyclicRoot cyclicFetcher := by
  intro url version url' version' h h' hkey
  have hall : ∀ r ∈ [("net".toList, "1.0.0".toList), ("json".toList, "1.2.0".toList),
      ("json".toList, "1.4.0".toList)], ∀ r' ∈ [("net".toList, "1.0.0".toList),
      ("json".toList, "1.2.0".toList), ("json".toList, "1.4.0".toList)],
      keyOf r.1 r.2 = keyOf r'.1 r'.2 → r.1 = r'.1 ∧ r.2 = r'.2 := by decide
  exact hall _ (cyclic_requires h) _ (cyclic_requires h') hkey

/-- Two packages that depend on each other are resolved: the greater version of `json` is selected. -/
theorem minimal_versions_cyclic :
    ∃ lock, Resolves .id cyclicRoot cyclicFetcher (.ok lock) ∧
      (lock.packages.map LockEntry.url).Nodup ∧
        ∀ entry ∈ lock.packages, Maximum cyclicRoot cyclicFetcher entry.url entry.version := by
  have hrun : resolveDeps .id 9 cyclicRoot cyclicFetcher =
      some (.ok ⟨[⟨"json".toList, "json".toList, "1.4.0".toList, []⟩,
        ⟨"net".toList, "net".toList, "1.0.0".toList, []⟩]⟩) := by rfl
  have h := ((minimal_versions .id cyclicRoot cyclicFetcher cyclic_finite).2.2 cyclic_keys).1 _ ⟨9, hrun⟩
  exact ⟨_, ⟨9, hrun⟩, h.1, h.2.2⟩

/-- Two root dependencies on different major versions, behind one that cannot be fetched: what is reported
is that it cannot be fetched. -/
theorem fetch_error_before_major :
    ∃ root fetcher, FiniteUniverse fetcher ∧ DifferInMajor root fetcher ∧
      ¬ ∃ e, Resolves .id root fetcher (.error e) ∧ e.isMajor = true := by
  refine ⟨gitManifest "app" [("net", "net", "1.0.0"), ("json", "json", "1.0.0"), ("json2", "json", "2.0.0")],
    fun _ _ => .error "offline".toList, ?_, ?_, ?_⟩
  · refine Set.finite_empty.subset ?_
    rintro manifest ⟨url, version, h⟩
    cases h
  · refine ⟨"json".toList, "1.0.0".toList, "2.0.0".toList, ⟨1, 0, 0⟩, ⟨2, 0, 0⟩, ?_, ?_, by decide, by decide,
      by decide⟩
    · exact @Requires.root _ _ ("json".toList, ⟨"json".toList, "1.0.0".toList⟩) (by decide)
    · exact @Requires.root _ _ ("json2".toList, ⟨"json".toList, "2.0.0".toList⟩) (by decide)
  · rintro ⟨e, he, hmajor⟩
    have hfetch : Resolves .id (gitManifest "app" [("net", "net", "1.0.0"), ("json", "json", "1.0.0"),
        ("json2", "json", "2.0.0")]) (fun _ _ => .error "offline".toList)
        (.error (.fetchFailed ⟨"net".toList, "1.0.0".toList, "root vsl.toml".toList⟩ "offline".toList)) :=
      ⟨3, rfl⟩
    cases he.unique hfetch
    cases hmajor

end Visuall.Packages
