import Visuall.Packages.Selection

/-!
# Aliases in the lock

A URL gets its alias when the breadth-first walk of the dependency graph first meets it: the root's own
alias, or else the key under which it is first declared.

* `aliases` — these declarations;
* `Aliased` — what `urlToAlias` holds after some items: the invariant of the loop;
* `NamesFree` — no package that is named as a root alias declares a URL that has no alias yet;
* `aliases_sound_iff` — exactly when the aliases of the lock are sound, and no conflict is reported that is
  none.
-/

namespace Visuall.Packages

variable {root : VslManifest} {fetcher : ManifestFetcher} {s s' : Resolution} {item : WorkItem}
  {items : List WorkItem} {E : Enumeration}

/-- The git dependencies that the manifest of an item declares. -/
def depsOf (fetcher : ManifestFetcher) (item : WorkItem) : List (List Char × GitDep) :=
  match fetcher item.gitUrl item.version with
  | .error _ => []
  | .ok manifest => manifest.gitDeps

/-- The URL that is declared. -/
def urlOf (dep : List Char × GitDep) : List Char := dep.2.url

/-- What the manifests of some items declare; each manifest is read once. -/
def transitive (fetcher : ManifestFetcher) (items : List WorkItem) : List (List Char × GitDep) :=
  (Worklist.fresh (resolver fetcher).key [] items).flatMap (depsOf fetcher)

/-- The declarations that give a URL its alias: those of the root, and the first of every other URL. -/
def aliases (root : VslManifest) (fetcher : ManifestFetcher) (items : List WorkItem) :
    List (List Char × GitDep) :=
  root.gitDeps ++ Worklist.fresh urlOf (root.gitDeps.map urlOf) (transitive fetcher items)

/-- The first items of the breadth-first walk of the dependency graph. -/
def breadthFirst (root : VslManifest) (fetcher : ManifestFetcher) (n : ℕ) : List WorkItem :=
  Worklist.walk (resolver fetcher).key (children fetcher) n [] (initial root).queue

/-- The aliases are non-empty and different, and no URL has two. -/
structure AliasesDistinct (root : VslManifest) (fetcher : ManifestFetcher) : Prop where
  roots : (root.gitDeps.map urlOf).Nodup
  nonempty : ∀ n, ∀ dep ∈ aliases root fetcher (breadthFirst root fetcher n), dep.1 ≠ []
  distinct : ∀ n, ((aliases root fetcher (breadthFirst root fetcher n)).map Prod.fst).Nodup

/-- Two URLs would have to share an alias. -/
def SharedAlias (root : VslManifest) (fetcher : ManifestFetcher) : Prop :=
  ∃ n, ∃ dep ∈ aliases root fetcher (breadthFirst root fetcher n),
    ∃ dep' ∈ aliases root fetcher (breadthFirst root fetcher n), urlOf dep ≠ urlOf dep' ∧ dep.1 = dep'.1

/-- A package that is named as a root alias declares only URLs that have an alias already. -/
def NamesFree (root : VslManifest) (fetcher : ManifestFetcher) : Prop :=
  ∀ n before item, breadthFirst root fetcher n = before ++ [item] →
    (resolver fetcher).key item ∉ before.map (resolver fetcher).key →
    ∀ manifest, fetcher item.gitUrl item.version = .ok manifest →
      manifest.package.name ∈ root.gitDeps.map Prod.fst →
      ∀ dep ∈ manifest.gitDeps, urlOf dep ∈ (aliases root fetcher before).map urlOf

/-! ## What the loop declares -/

theorem children_eq (fetcher : ManifestFetcher) (item : WorkItem) :
    children fetcher item =
      itemsOf (depsOf fetcher item) ('\'' :: item.gitUrl ++ "' @ ".toList ++ item.version) := by
  unfold children depsOf
  cases fetcher item.gitUrl item.version with
  | error message => rfl
  | ok manifest => rfl

theorem itemsOf_urls (deps : List (List Char × GitDep)) (requiredBy : List Char) :
    (itemsOf deps requiredBy).map WorkItem.gitUrl = deps.map urlOf := by
  unfold itemsOf
  rw [List.map_map]
  rfl

theorem mem_fresh_urls {seen : List (List Char)} {deps : List (List Char × GitDep)} {url : List Char} :
    url ∈ seen ∨ url ∈ (Worklist.fresh urlOf seen deps).map urlOf ↔ url ∈ seen ∨ url ∈ deps.map urlOf := by
  constructor
  · rintro (h | h)
    · exact .inl h
    · obtain ⟨dep, hdep, rfl⟩ := List.mem_map.mp h
      exact .inr (List.mem_map_of_mem (Worklist.mem_of_mem_fresh hdep).1)
  · rintro (h | h)
    · exact .inl h
    · by_cases hseen : url ∈ seen
      · exact .inl hseen
      · obtain ⟨dep, hdep, rfl⟩ := List.mem_map.mp h
        obtain ⟨dep', hdep', hurl⟩ := Worklist.exists_fresh urlOf seen hdep hseen
        exact .inr (List.mem_map.mpr ⟨dep', hdep', hurl⟩)

/-- The URLs that have an alias are those declared. -/
theorem mem_aliases_urls {url : List Char} :
    url ∈ (aliases root fetcher items).map urlOf ↔
      url ∈ root.gitDeps.map urlOf ∨ url ∈ (transitive fetcher items).map urlOf := by
  unfold aliases
  rw [List.map_append, List.mem_append]
  exact mem_fresh_urls

/-- When the queue is empty, the URLs that have an alias are those of the items taken. -/
theorem urls_of_steps {t : Worklist.State WorkItem (List Char) Resolution}
    (h : (resolver fetcher).Steps (initial root) items t) (hqueue : t.queue = []) (url : List Char) :
    url ∈ (aliases root fetcher items).map urlOf ↔ url ∈ items.map WorkItem.gitUrl := by
  have horder : items = (initial root).queue ++
      (Worklist.fresh (resolver fetcher).key [] items).flatMap (children fetcher) := by
    have h' := h.order (resolver_gives fetcher)
    rwa [hqueue, List.append_nil] at h'
  have hurls : items.map WorkItem.gitUrl = root.gitDeps.map urlOf ++ (transitive fetcher items).map urlOf := by
    refine (congrArg (List.map WorkItem.gitUrl) horder).trans ?_
    unfold transitive
    rw [List.map_append, initial_queue, itemsOf_urls, List.map_flatMap, List.map_flatMap]
    congr 1
    apply List.flatMap_congr
    intro i _
    rw [children_eq, itemsOf_urls]
  rw [hurls, List.mem_append]
  exact mem_aliases_urls

theorem transitive_concat (fetcher : ManifestFetcher) (items : List WorkItem) (item : WorkItem) :
    transitive fetcher (items ++ [item]) =
      if (resolver fetcher).key item ∈ items.map (resolver fetcher).key then transitive fetcher items
      else transitive fetcher items ++ depsOf fetcher item := by
  unfold transitive
  rw [Worklist.fresh_concat]
  simp only [List.not_mem_nil, false_or]
  split_ifs
  · rfl
  · rw [List.flatMap_append, List.flatMap_singleton]

theorem aliases_prefix {items' : List WorkItem} (h : items <+: items') :
    aliases root fetcher items <+: aliases root fetcher items' := by
  obtain ⟨more, rfl⟩ := h
  obtain ⟨rest, hrest⟩ := Worklist.fresh_append_prefix (resolver fetcher).key [] items more
  unfold aliases transitive
  rw [← hrest, List.flatMap_append, List.prefix_append_right_inj]
  exact Worklist.fresh_append_prefix _ _ _ _

/-! ## The invariant -/

/-- `urlToAlias` after the declarations of the root and these. -/
structure Named (root : VslManifest) (deps : List (List Char × GitDep))
    (m : AList (fun _ : List Char => List Char)) : Prop where
  mem : ∀ url, url ∈ m ↔ url ∈ root.gitDeps.map urlOf ∨ url ∈ deps.map urlOf
  lookup : (root.gitDeps.map urlOf).Nodup → ∀ url name, m.lookup url = some name ↔
    ∃ dep ∈ root.gitDeps ++ Worklist.fresh urlOf (root.gitDeps.map urlOf) deps,
      urlOf dep = url ∧ dep.1 = name

theorem Named.start (root : VslManifest) : Named root [] (initial root).acc.urlToAlias := by
  have hfold : ∀ (deps : List (List Char × GitDep)) (s : Resolution),
      (∀ url, url ∈ (deps.foldl declareRoot s).urlToAlias ↔ url ∈ deps.map urlOf ∨ url ∈ s.urlToAlias) ∧
        ((deps.map urlOf).Nodup → (∀ dep ∈ deps, urlOf dep ∉ s.urlToAlias) → ∀ url name,
          (deps.foldl declareRoot s).urlToAlias.lookup url = some name ↔
            (∃ dep ∈ deps, urlOf dep = url ∧ dep.1 = name) ∨ s.urlToAlias.lookup url = some name) := by
    intro deps
    induction deps with
    | nil => intro s; simp
    | cons dep deps ih =>
        intro s
        obtain ⟨hmem, hlookup⟩ := ih (declareRoot s dep)
        rw [List.foldl_cons]
        refine ⟨fun url => ?_, fun hnodup hnew url name => ?_⟩
        · rw [hmem, List.map_cons, List.mem_cons]
          show _ ∨ url ∈ s.urlToAlias.insert (urlOf dep) dep.1 ↔ _
          rw [AList.mem_insert]
          tauto
        · rw [List.map_cons, List.nodup_cons] at hnodup
          rw [hlookup hnodup.2]
          · show _ ∨ (s.urlToAlias.insert (urlOf dep) dep.1).lookup url = some name ↔ _
            by_cases hurl : url = urlOf dep
            · subst hurl
              rw [AList.lookup_insert]
              have hnone : s.urlToAlias.lookup (urlOf dep) = none :=
                AList.lookup_eq_none.mpr (hnew dep List.mem_cons_self)
              rw [hnone]
              constructor
              · rintro (⟨d, hd, hdurl, hname⟩ | hname)
                · exact .inl ⟨d, List.mem_cons_of_mem _ hd, hdurl, hname⟩
                · exact .inl ⟨dep, List.mem_cons_self, rfl, Option.some.inj hname⟩
              · rintro (⟨d, hd, hdurl, hname⟩ | hname)
                · rcases List.mem_cons.mp hd with rfl | hd
                  · exact .inr (congrArg some hname)
                  · exact .inl ⟨d, hd, hdurl, hname⟩
                · cases hname
            · rw [AList.lookup_insert_ne hurl]
              constructor
              · rintro (⟨d, hd, hd'⟩ | hname)
                · exact .inl ⟨d, List.mem_cons_of_mem _ hd, hd'⟩
                · exact .inr hname
              · rintro (⟨d, hd, hdurl, hname⟩ | hname)
                · rcases List.mem_cons.mp hd with rfl | hd
                  · exact absurd hdurl.symm hurl
                  · exact .inl ⟨d, hd, hdurl, hname⟩
                · exact .inr hname
          · intro d hd hmem'
            rcases (AList.mem_insert _).mp hmem' with hurl | hmem'
            · exact hnodup.1 (List.mem_map.mpr ⟨d, hd, hurl⟩)
            · exact hnew d (List.mem_cons_of_mem _ hd) hmem'
  obtain ⟨hmem, hlookup⟩ := hfold root.gitDeps ⟨∅, ∅, []⟩
  refine ⟨fun url => (hmem url).trans ?_, fun hnodup url name => (hlookup hnodup ?_ url name).trans ?_⟩
  · simp
  · exact fun dep _ => AList.notMem_empty _
  · simp [Worklist.fresh]

/-- A dependency that is declared. -/
theorem Named.declare {manifest : VslManifest} {deps : List (List Char × GitDep)} {dep : List Char × GitDep}
    (hnamed : Named root deps s.urlToAlias) (h : declareDep manifest s dep = .ok s') :
    Named root (deps ++ [dep]) s'.urlToAlias := by
  have hmem : urlOf dep ∈ s.urlToAlias ↔ urlOf dep ∈ root.gitDeps.map urlOf ∨ urlOf dep ∈ deps.map urlOf :=
    hnamed.mem _
  rcases declareDep_cases h with ⟨hold, rfl⟩ | ⟨hnew, _, rfl⟩
  · have hold' := hmem.mp hold
    refine ⟨fun url => ?_, fun hnodup url name => ?_⟩
    · rw [hnamed.mem, List.map_append, List.mem_append, List.map_singleton, List.mem_singleton]
      constructor
      · tauto
      · rintro (h | h | rfl)
        · exact .inl h
        · exact .inr h
        · exact hold'
    · rw [hnamed.lookup hnodup, Worklist.fresh_concat, if_pos hold']
  · have hnew' : ¬ (urlOf dep ∈ root.gitDeps.map urlOf ∨ urlOf dep ∈ deps.map urlOf) :=
      fun h => hnew (hmem.mpr h)
    refine ⟨fun url => ?_, fun hnodup url name => ?_⟩
    · show url ∈ s.urlToAlias.insert (urlOf dep) dep.1 ↔ _
      rw [AList.mem_insert, hnamed.mem, List.map_append, List.mem_append, List.map_singleton,
        List.mem_singleton]
      tauto
    · show (s.urlToAlias.insert (urlOf dep) dep.1).lookup url = some name ↔ _
      rw [Worklist.fresh_concat, if_neg hnew', ← List.append_assoc]
      by_cases hurl : url = urlOf dep
      · subst hurl
        rw [AList.lookup_insert]
        constructor
        · intro hname
          exact ⟨dep, List.mem_append_right _ (List.mem_singleton_self dep), rfl, Option.some.inj hname⟩
        · rintro ⟨d, hd, hdurl, rfl⟩
          rcases List.mem_append.mp hd with hd | hd
          · have hsome := (hnamed.lookup hnodup (urlOf dep) d.1).mpr ⟨d, hd, hdurl, rfl⟩
            have hnone : s.urlToAlias.lookup (urlOf dep) = none := AList.lookup_eq_none.mpr hnew
            rw [hnone] at hsome
            cases hsome
          · rw [List.mem_singleton.mp hd]
      · rw [AList.lookup_insert_ne hurl, hnamed.lookup hnodup]
        constructor
        · rintro ⟨d, hd, hd'⟩
          exact ⟨d, List.mem_append_left _ hd, hd'⟩
        · rintro ⟨d, hd, hdurl, hname⟩
          rcases List.mem_append.mp hd with hd | hd
          · exact ⟨d, hd, hdurl, hname⟩
          · rw [List.mem_singleton.mp hd] at hdurl
            exact absurd hdurl.symm hurl

theorem Named.declareAll {manifest : VslManifest} {deps new : List (List Char × GitDep)}
    (hnamed : Named root deps s.urlToAlias) (h : new.foldlM (declareDep manifest) s = .ok s') :
    Named root (deps ++ new) s'.urlToAlias := by
  induction new generalizing s deps with
  | nil =>
      cases h
      rwa [List.append_nil]
  | cons dep new ih =>
      rw [List.foldlM_cons] at h
      obtain ⟨s₁, hdep, hdeps⟩ := Effect.ok_of_bind h
      have happend : deps ++ dep :: new = deps ++ [dep] ++ new := by simp
      rw [happend]
      exact ih (hnamed.declare hdep) hdeps

/-- What the loop has found out after some items. -/
structure Aliased (root : VslManifest) (fetcher : ManifestFetcher) (items : List WorkItem)
    (s : Worklist.State WorkItem (List Char) Resolution) : Prop where
  seen : ∀ k, k ∈ s.seen ↔ k ∈ items.map (resolver fetcher).key
  rootAliases : s.acc.rootAliases = (initial root).acc.rootAliases
  named : Named root (transitive fetcher items) s.acc.urlToAlias
  free : ∀ before item after, items = before ++ item :: after →
    (resolver fetcher).key item ∉ before.map (resolver fetcher).key →
    ∀ manifest, fetcher item.gitUrl item.version = .ok manifest →
      manifest.package.name ∈ root.gitDeps.map Prod.fst →
      ∀ dep ∈ manifest.gitDeps, urlOf dep ∈ (aliases root fetcher before).map urlOf

theorem mergeVersion_urlToAlias (h : mergeVersion s item = .ok s') : s'.urlToAlias = s.urlToAlias := by
  rcases mergeVersion_cases h with ⟨_, rfl⟩ | ⟨_, _, _, _, _, _, _, ⟨_, rfl⟩ | ⟨_, rfl⟩⟩
  · rfl
  · rfl
  · rfl

/-- A package that is named as a root alias has only dependencies with an alias. -/
theorem declareDeps_named {manifest : VslManifest} {deps : List (List Char × GitDep)}
    (h : deps.foldlM (declareDep manifest) s = .ok s') (hname : manifest.package.name ∈ s.rootAliases) :
    ∀ dep ∈ deps, urlOf dep ∈ s.urlToAlias := by
  induction deps generalizing s with
  | nil => exact fun dep hdep => absurd hdep List.not_mem_nil
  | cons d deps ih =>
      rw [List.foldlM_cons] at h
      obtain ⟨s₁, hd, hdeps⟩ := Effect.ok_of_bind h
      rcases declareDep_cases hd with ⟨hold, rfl⟩ | ⟨_, hnot, _⟩
      · intro dep hdep
        rcases List.mem_cons.mp hdep with rfl | hdep
        · exact hold
        · exact ih hdeps hname dep hdep
      · exact absurd hname hnot

/-- **The run.** -/
theorem aliased_of_steps {t : Worklist.State WorkItem (List Char) Resolution}
    (h : (resolver fetcher).Steps (initial root) items t) : Aliased root fetcher items t := by
  refine h.invariant (I := Aliased root fetcher) ?_ ?_
  · refine ⟨fun k => ?_, rfl, Named.start root, fun before item after hitems => ?_⟩
    · show k ∈ [] ↔ _
      rw [List.map_nil]
    · exact absurd hitems.symm (List.append_ne_nil_of_right_ne_nil _ (List.cons_ne_nil _ _))
  · intro taken s item queue s' hI _ hstep
    have hkeys : (taken ++ [item]).map (resolver fetcher).key =
        taken.map (resolver fetcher).key ++ [(resolver fetcher).key item] := by
      rw [List.map_append, List.map_singleton]
    -- what held of the items before holds still; the new one is last
    have hfree : ((resolver fetcher).key item ∉ taken.map (resolver fetcher).key →
          ∀ manifest, fetcher item.gitUrl item.version = .ok manifest →
          manifest.package.name ∈ root.gitDeps.map Prod.fst →
          ∀ dep ∈ manifest.gitDeps, urlOf dep ∈ (aliases root fetcher taken).map urlOf) →
        ∀ before i after, taken ++ [item] = before ++ i :: after →
          (resolver fetcher).key i ∉ before.map (resolver fetcher).key →
          ∀ manifest, fetcher i.gitUrl i.version = .ok manifest →
          manifest.package.name ∈ root.gitDeps.map Prod.fst →
          ∀ dep ∈ manifest.gitDeps, urlOf dep ∈ (aliases root fetcher before).map urlOf := by
      intro hlast before i after hitems
      rcases List.eq_nil_or_concat after with rfl | ⟨after, j, rfl⟩
      · obtain ⟨rfl, hi⟩ := List.append_inj' hitems rfl
        cases hi
        exact hlast
      · rw [List.concat_eq_append, ← List.cons_append, ← List.append_assoc] at hitems
        obtain ⟨rfl, _⟩ := List.append_inj' hitems rfl
        exact hI.free before i after rfl
    obtain ⟨acc, hmeet, ⟨hseen, rfl⟩ | ⟨hseen, acc', new, hexpand, rfl⟩⟩ := Worklist.step_cases hstep
    · have hold : (resolver fetcher).key item ∈ taken.map (resolver fetcher).key := (hI.seen _).mp hseen
      refine ⟨fun k => ?_, (mergeVersion_rootAliases hmeet).trans hI.rootAliases, ?_,
        hfree fun hnew => absurd hold hnew⟩
      · rw [hkeys, List.mem_append, List.mem_singleton]
        show k ∈ s.seen ↔ _
        rw [hI.seen k]
        constructor
        · exact .inl
        · rintro (hk | rfl)
          · exact hk
          · exact hold
      · show Named root _ acc.urlToAlias
        rw [mergeVersion_urlToAlias hmeet, transitive_concat, if_pos hold]
        exact hI.named
    · have hnew : (resolver fetcher).key item ∉ taken.map (resolver fetcher).key :=
        fun hk => hseen ((hI.seen _).mpr hk)
      obtain ⟨manifest, hfetch, hfold⟩ := discover_cases hexpand
      have hroots : acc.rootAliases = (initial root).acc.rootAliases :=
        (mergeVersion_rootAliases hmeet).trans hI.rootAliases
      have hnamed : Named root (transitive fetcher taken) acc.urlToAlias := by
        rw [mergeVersion_urlToAlias hmeet]
        exact hI.named
      have hdeps : depsOf fetcher item = manifest.gitDeps := by
        unfold depsOf
        rw [hfetch]
      refine ⟨fun k => ?_, (declareDeps_frame hfold).2.trans hroots, ?_, hfree fun _ => ?_⟩
      · show k ∈ (resolver fetcher).key item :: s.seen ↔ _
        rw [hkeys, List.mem_append, List.mem_singleton, List.mem_cons, hI.seen k]
        tauto
      · show Named root _ acc'.urlToAlias
        rw [transitive_concat, if_neg hnew, hdeps]
        exact hnamed.declareAll hfold
      · intro manifest' hfetch' hname dep hdep
        rw [hfetch] at hfetch'
        cases hfetch'
        rw [mem_aliases_urls, ← hnamed.mem]
        refine declareDeps_named hfold ?_ dep hdep
        rw [hroots, initial_rootAliases]
        exact hname

/-! ## Returned locks -/

/-- The aliases of a lock are non-empty and different, and every git alias of the root names its URL. -/
structure AliasesSound (root : VslManifest) (lock : VslLock) : Prop where
  nonempty : ∀ entry ∈ lock.packages, entry.importAlias ≠ []
  distinct : (lock.packages.map LockEntry.importAlias).Nodup
  declared : ∀ dep ∈ root.gitDeps, ∃ entry ∈ lock.packages,
    entry.importAlias = dep.1 ∧ entry.url = urlOf dep

theorem aliases_urls_nodup (fetcher : ManifestFetcher) (items : List WorkItem)
    (hroots : (root.gitDeps.map urlOf).Nodup) : ((aliases root fetcher items).map urlOf).Nodup := by
  unfold aliases
  rw [List.map_append]
  refine hroots.append (Worklist.fresh_keys_nodup _ _ _) ?_
  intro url hroot hmem
  obtain ⟨dep, hdep, rfl⟩ := List.mem_map.mp hmem
  exact (Worklist.mem_of_mem_fresh hdep).2 hroot

/-- The dependencies on repositories are some of the dependencies. -/
theorem filterMap_git_sublist (entries : List (Sigma fun _ : List Char => Dependency)) :
    (entries.filterMap fun entry => Option.map Prod.fst
      (match entry.2 with | .git dep => some (entry.1, dep) | .path _ => none)).Sublist (entries.map Sigma.fst) := by
  induction entries with
  | nil => exact List.Sublist.refl _
  | cons entry entries ih =>
      obtain ⟨name, dep | path⟩ := entry
      · exact ih.cons_cons name
      · exact ih.cons name

/-- A manifest has one dependency under an alias. -/
theorem gitDeps_keys_nodup (manifest : VslManifest) : (manifest.gitDeps.map Prod.fst).Nodup := by
  have hsub : (manifest.gitDeps.map Prod.fst).Sublist manifest.dependencies.keys := by
    unfold VslManifest.gitDeps AList.keys List.keys
    rw [List.map_filterMap]
    exact filterMap_git_sublist _
  exact hsub.nodup manifest.dependencies.keys_nodup

/-- A lock whose aliases are sound gives no URL two root aliases. -/
theorem roots_nodup_of_sound (hsound : AliasesSound root (lockOf E s)) :
    (root.gitDeps.map urlOf).Nodup := by
  have hkeys := gitDeps_keys_nodup root
  refine List.Nodup.map_on ?_ hkeys.of_map
  intro dep hdep dep' hdep' hurl
  obtain ⟨entry, hentry, hname, hentryUrl⟩ := hsound.declared dep hdep
  obtain ⟨entry', hentry', hname', hentryUrl'⟩ := hsound.declared dep' hdep'
  have hsame : entry = entry' := by
    refine List.inj_on_of_nodup_map (lock_urls_nodup E s) hentry hentry' ?_
    rw [hentryUrl, hentryUrl', hurl]
  subst hsame
  exact List.inj_on_of_nodup_map hkeys hdep hdep' (hname.symm.trans hname')

section Returned

variable {t : Worklist.State WorkItem (List Char) Resolution}
  (hsteps : (resolver fetcher).Steps (initial root) items t) (hqueue : t.queue = [])

include hsteps hqueue

/-- The URLs of the lock. -/
theorem mem_lock_urls {url : List Char} :
    url ∈ (aliases root fetcher items).map urlOf ↔ ∃ v, t.acc.resolvedVersion.lookup url = some v := by
  have hsel := selected_of_steps hsteps
  rw [urls_of_steps hsteps hqueue]
  constructor
  · intro hmem
    obtain ⟨i, hi, rfl⟩ := List.mem_map.mp hmem
    cases hlookup : t.acc.resolvedVersion.lookup i.gitUrl with
    | none => exact absurd rfl (hsel.missing _ hlookup i hi)
    | some v => exact ⟨v, rfl⟩
  · rintro ⟨v, hlookup⟩
    obtain ⟨⟨i, hi, rfl, _⟩, _⟩ := hsel.holds url v hlookup
    exact List.mem_map_of_mem hi

/-- The aliases of the lock, with their URLs, are those declared. -/
theorem lock_aliases_perm (E : Enumeration) (hroots : (root.gitDeps.map urlOf).Nodup) :
    ((lockOf E t.acc).packages.map fun entry => (entry.importAlias, entry.url)).Perm
      ((aliases root fetcher items).map fun dep => (dep.1, urlOf dep)) := by
  have hnamed := (aliased_of_steps hsteps).named
  have hurls := lock_urls_nodup E t.acc
  have hurls' := aliases_urls_nodup fetcher items hroots
  apply (List.perm_ext_iff_of_nodup ?_ ?_).mpr
  · rintro ⟨name, url⟩
    constructor
    · intro hmem
      obtain ⟨entry, hentry, heq⟩ := List.mem_map.mp hmem
      obtain ⟨url', v, hlookup, rfl⟩ := mem_lock.mp hentry
      cases heq
      obtain ⟨dep, hdep, hurl⟩ := List.mem_map.mp ((mem_lock_urls hsteps hqueue).mpr ⟨v, hlookup⟩)
      have hname : t.acc.urlToAlias.lookup url' = some dep.1 :=
        (hnamed.lookup hroots _ _).mpr ⟨dep, hdep, hurl, rfl⟩
      refine List.mem_map.mpr ⟨dep, hdep, ?_⟩
      show (dep.1, urlOf dep) = ((t.acc.urlToAlias.lookup url').getD [], url')
      rw [hname, hurl]
      rfl
    · intro hmem
      obtain ⟨dep, hdep, heq⟩ := List.mem_map.mp hmem
      cases heq
      obtain ⟨v, hlookup⟩ := (mem_lock_urls hsteps hqueue).mp (List.mem_map_of_mem hdep)
      have hname : t.acc.urlToAlias.lookup (urlOf dep) = some dep.1 :=
        (hnamed.lookup hroots _ _).mpr ⟨dep, hdep, rfl, rfl⟩
      refine List.mem_map.mpr ⟨_, mem_lock.mpr ⟨_, v, hlookup, rfl⟩, ?_⟩
      show ((t.acc.urlToAlias.lookup (urlOf dep)).getD [], urlOf dep) = _
      rw [hname]
      rfl
  · refine List.Nodup.of_map Prod.snd ?_
    rw [List.map_map]
    exact hurls
  · refine List.Nodup.of_map Prod.snd ?_
    rw [List.map_map]
    exact hurls'

/-- **Exactly when the aliases of a returned lock are sound.** -/
theorem lock_sound_iff : AliasesSound root (lockOf E t.acc) ↔ AliasesDistinct root fetcher := by
  have hfirst : ∀ n, aliases root fetcher (breadthFirst root fetcher n) <+: aliases root fetcher items :=
    fun n => aliases_prefix (hsteps.walk_prefix (resolver_gives fetcher) hqueue n)
  have hwhole : breadthFirst root fetcher items.length = items := by
    have hwalk := hsteps.walk_add (resolver_gives fetcher) 0
    rwa [hqueue, Worklist.walk_nil, List.append_nil] at hwalk
  constructor
  · intro hsound
    have hroots := roots_nodup_of_sound hsound
    have hperm := (lock_aliases_perm hsteps hqueue E hroots).map Prod.fst
    rw [List.map_map, List.map_map] at hperm
    refine ⟨hroots, fun n dep hdep => ?_, fun n => ?_⟩
    · have hmem : dep.1 ∈ (aliases root fetcher items).map Prod.fst :=
        List.mem_map_of_mem ((hfirst n).subset hdep)
      obtain ⟨entry, hentry, hname⟩ := List.mem_map.mp (hperm.mem_iff.mpr hmem)
      rw [← hname]
      exact hsound.nonempty entry hentry
    · exact ((hfirst n).map Prod.fst).sublist.nodup (hperm.nodup_iff.mp hsound.distinct)
  · intro hdistinct
    have hperm' := lock_aliases_perm hsteps hqueue E hdistinct.roots
    have hperm := hperm'.map Prod.fst
    rw [List.map_map, List.map_map] at hperm
    have hnonempty := hdistinct.nonempty items.length
    have hnodup := hdistinct.distinct items.length
    rw [hwhole] at hnonempty hnodup
    refine ⟨fun entry hentry => ?_, hperm.nodup_iff.mpr hnodup, fun dep hdep => ?_⟩
    · have hmem : entry.importAlias ∈ (lockOf E t.acc).packages.map (Prod.fst ∘ fun entry =>
          (entry.importAlias, entry.url)) := List.mem_map_of_mem hentry
      obtain ⟨dep, hdep, hname⟩ := List.mem_map.mp (hperm.mem_iff.mp hmem)
      have hname' : dep.1 = entry.importAlias := hname
      rw [← hname']
      exact hnonempty dep hdep
    · have hmem : (dep.1, urlOf dep) ∈ (aliases root fetcher items).map fun dep => (dep.1, urlOf dep) := by
        unfold aliases
        exact List.mem_map_of_mem (List.mem_append_left _ hdep)
      obtain ⟨entry, hentry, heq⟩ := List.mem_map.mp (hperm'.mem_iff.mpr hmem)
      exact ⟨entry, hentry, congrArg Prod.fst heq, congrArg Prod.snd heq⟩

/-- In a run that returns, no package that is named as a root alias declares a new URL. -/
theorem namesFree_of_returned : NamesFree root fetcher := by
  intro n before item hwalk
  obtain ⟨after, hafter⟩ := hsteps.walk_prefix (resolver_gives fetcher) hqueue n
  have hitems : items = before ++ item :: after := by
    have hwalk' : Worklist.walk (resolver fetcher).key (children fetcher) n (initial root).seen
        (initial root).queue = before ++ [item] := hwalk
    rw [← hafter, hwalk', List.append_assoc]
    rfl
  exact (aliased_of_steps hsteps).free before item after hitems

end Returned

/-- An alias conflict is reported where a package that is named as a root alias declares a new URL. -/
theorem not_namesFree_of_conflict {e : ResolveError} (h : Resolves E root fetcher (.error e))
    (he : e.isAliasConflict = true) : ¬ NamesFree root fetcher := by
  obtain ⟨items, t, item, queue, hsteps, hqueue, hstep⟩ := steps_of_error h
  intro hfree
  have hI := aliased_of_steps hsteps
  rcases Worklist.step_error hstep with hmeet | ⟨acc, hmeet, hseen, hexpand⟩
  · obtain ⟨v, _, hnot, _⟩ := mergeVersion_error hmeet
    rw [he] at hnot
    cases hnot
  · rcases discover_error hexpand with ⟨message, _, rfl⟩ | ⟨manifest, hfetch, ⟨dep, hdep, hnew⟩, hname, _⟩
    · cases he
    · have hwalk : breadthFirst root fetcher (items.length + 1) = items ++ [item] := by
        have hwalk := hsteps.walk_add (resolver_gives fetcher) 1
        rw [hqueue, Worklist.walk_cons] at hwalk
        refine hwalk.trans ?_
        split_ifs <;> rfl
      have hkey : (resolver fetcher).key item ∉ items.map (resolver fetcher).key :=
        fun hk => hseen ((hI.seen _).mpr hk)
      have hroot : manifest.package.name ∈ root.gitDeps.map Prod.fst := by
        rw [← initial_rootAliases, ← hI.rootAliases, ← mergeVersion_rootAliases hmeet]
        exact hname
      have hmem := hfree _ items item hwalk hkey manifest hfetch hroot dep hdep
      rw [mem_aliases_urls, ← hI.named.mem] at hmem
      rw [mergeVersion_urlToAlias hmeet] at hnew
      exact hnew hmem

/-! ## Main result -/

/-- The aliases of the lock are sound, and an alias conflict is reported only where two URLs would have to
share an alias. -/
def AliasClaim (E : Enumeration) (root : VslManifest) (fetcher : ManifestFetcher) : Prop :=
  (∀ lock, Resolves E root fetcher (.ok lock) → AliasesSound root lock) ∧
    ∀ e, Resolves E root fetcher (.error e) → e.isAliasConflict = true → SharedAlias root fetcher

/-- `resolveDeps` returns, or reports an alias conflict. -/
def Decided (E : Enumeration) (root : VslManifest) (fetcher : ManifestFetcher) : Prop :=
  ∃ out, Resolves E root fetcher out ∧ ∀ e, out = .error e → e.isAliasConflict = true

/-- **Exactly when aliases are sound.**  If no package that is named as a root alias declares a new URL, the
aliases that the breadth-first walk gives must be different; if one does, two of them must be equal.  That is
enough, and wherever `resolveDeps` does not fail for another reason it is needed. -/
theorem aliases_sound_iff (E : Enumeration) (root : VslManifest) (fetcher : ManifestFetcher) :
    ((NamesFree root fetcher → AliasesDistinct root fetcher) →
      (¬ NamesFree root fetcher → SharedAlias root fetcher) → AliasClaim E root fetcher) ∧
    (Decided E root fetcher → AliasClaim E root fetcher →
      (NamesFree root fetcher → AliasesDistinct root fetcher) ∧
        (¬ NamesFree root fetcher → SharedAlias root fetcher)) := by
  refine ⟨fun hfree hnot => ⟨fun lock hlock => ?_, fun e he hconflict => ?_⟩, ?_⟩
  · obtain ⟨items, t, hsteps, hqueue, rfl⟩ := steps_of_ok hlock
    exact (lock_sound_iff hsteps hqueue).mpr (hfree (namesFree_of_returned hsteps hqueue))
  · exact hnot (not_namesFree_of_conflict he hconflict)
  · rintro ⟨out, hout, hdecided⟩ hclaim
    cases out with
    | ok lock =>
        obtain ⟨items, t, hsteps, hqueue, rfl⟩ := steps_of_ok hout
        exact ⟨fun _ => (lock_sound_iff hsteps hqueue).mp (hclaim.1 _ hout),
          fun hnot => absurd (namesFree_of_returned hsteps hqueue) hnot⟩
    | error e =>
        have hconflict := hdecided e rfl
        exact ⟨fun hfree => absurd hfree (not_namesFree_of_conflict hout hconflict),
          fun _ => hclaim.2 e hout hconflict⟩

/-- A root dependency under the name of its package. -/
def selfNamedRoot : VslManifest := gitManifest "app" [("json", "json", "1.0.0")]

/-- That package has a dependency of its own. -/
def selfNamedFetcher : ManifestFetcher := fun url _ =>
  if url = "json".toList then .ok (gitManifest "json" [("net", "net", "1.0.0")])
  else .ok (gitManifest "net" [])

/-- A package whose own name is its root alias, with a dependency of its own, is refused, though its alias
and that of the dependency are different. -/
theorem own_name_conflicts : ¬ AliasClaim .id selfNamedRoot selfNamedFetcher := by
  intro hclaim
  obtain ⟨n, dep, hdep, dep', hdep', hurl, hname⟩ := hclaim.2 (.aliasConflict "json".toList) ⟨2, rfl⟩ rfl
  have hwalk : breadthFirst selfNamedRoot selfNamedFetcher (2 + n) =
      breadthFirst selfNamedRoot selfNamedFetcher 2 := by
    rw [Nat.add_comm]
    exact congrArg (fun items => [_, _] ++ items) (Worklist.walk_nil _ _ n _)
  have hfirst : aliases selfNamedRoot selfNamedFetcher (breadthFirst selfNamedRoot selfNamedFetcher n) <+:
      aliases selfNamedRoot selfNamedFetcher (breadthFirst selfNamedRoot selfNamedFetcher 2) := by
    rw [← hwalk, Nat.add_comm]
    exact aliases_prefix (Worklist.walk_prefix _ _ n 2 _ _)
  have hall : ∀ dep ∈ aliases selfNamedRoot selfNamedFetcher (breadthFirst selfNamedRoot selfNamedFetcher 2),
      ∀ dep' ∈ aliases selfNamedRoot selfNamedFetcher (breadthFirst selfNamedRoot selfNamedFetcher 2),
      dep.1 = dep'.1 → urlOf dep = urlOf dep' := by decide
  exact hurl (hall dep (hfirst.subset hdep) dep' (hfirst.subset hdep') hname)

end Visuall.Packages
