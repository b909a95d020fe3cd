import Visuall.Packages.Aliases

/-!
# Reproducible locks

Two runs of `resolveDeps` on the same manifests, which enumerate their tables in different orders.

* `Reordered`, `SameFetcher` — the same manifests, in another order;
* `Unambiguous` — no choice is left to the order: one alias for a URL, one URL for an alias, and one way to
  write a version;
* `reproducible` — then both runs give the same lock, or both fail.
-/

namespace Visuall.Packages

variable {root root' : VslManifest} {fetcher fetcher' : ManifestFetcher} {items items' : List WorkItem}
  {E E' : Enumeration}

/-! ## The same manifests in another order -/

/-- The same manifest, with its dependencies in another order. -/
structure Reordered (manifest manifest' : VslManifest) : Prop where
  package : manifest.package = manifest'.package
  dependencies : manifest.dependencies.entries.Perm manifest'.dependencies.entries

/-- The same manifest is fetched, or the same error comes up. -/
def SameFetch : Except (List Char) VslManifest → Except (List Char) VslManifest → Prop
  | .ok manifest, .ok manifest' => Reordered manifest manifest'
  | .error message, .error message' => message = message'
  | _, _ => False

def SameFetcher (fetcher fetcher' : ManifestFetcher) : Prop :=
  ∀ url version, SameFetch (fetcher url version) (fetcher' url version)

theorem Reordered.symm {manifest manifest' : VslManifest} (h : Reordered manifest manifest') :
    Reordered manifest' manifest := ⟨h.package.symm, h.dependencies.symm⟩

theorem SameFetcher.symm (h : SameFetcher fetcher fetcher') : SameFetcher fetcher' fetcher := by
  intro url version
  have hfetch := h url version
  revert hfetch
  cases fetcher url version with
  | error message =>
      cases fetcher' url version with
      | error message' => exact Eq.symm
      | ok manifest' => exact id
  | ok manifest =>
      cases fetcher' url version with
      | error message' => exact id
      | ok manifest' => exact Reordered.symm

theorem SameFetcher.ok (h : SameFetcher fetcher fetcher') {url version : List Char} {manifest : VslManifest}
    (hfetch : fetcher url version = .ok manifest) :
    ∃ manifest', fetcher' url version = .ok manifest' ∧ Reordered manifest manifest' := by
  have hsame := h url version
  rw [hfetch] at hsame
  cases hfetch' : fetcher' url version with
  | error message =>
      rw [hfetch'] at hsame
      exact hsame.elim
  | ok manifest' =>
      rw [hfetch'] at hsame
      exact ⟨manifest', rfl, hsame⟩

theorem Reordered.gitDeps {manifest manifest' : VslManifest} (h : Reordered manifest manifest') :
    manifest.gitDeps.Perm manifest'.gitDeps := h.dependencies.filterMap _

theorem Reordered.queue (h : Reordered root root') : (initial root).queue.Perm (initial root').queue :=
  h.gitDeps.map _

theorem SameFetcher.children (h : SameFetcher fetcher fetcher') (item : WorkItem) :
    (children fetcher item).Perm (children fetcher' item) := by
  unfold Packages.children
  cases hfetch : fetcher item.gitUrl item.version with
  | error message =>
      cases hfetch' : fetcher' item.gitUrl item.version with
      | error message' => exact List.Perm.refl _
      | ok manifest' =>
          obtain ⟨manifest, hok, _⟩ := h.symm.ok hfetch'
          rw [hfetch] at hok
          cases hok
  | ok manifest =>
      obtain ⟨manifest', hok, hsame⟩ := h.ok hfetch
      rw [hok]
      exact hsame.gitDeps.map _

theorem Requires.reordered {url version : List Char} (hroot : Reordered root root')
    (hfetcher : SameFetcher fetcher fetcher') (h : Requires root fetcher url version) :
    Requires root' fetcher' url version := by
  induction h with
  | root hdep => exact .root (hroot.gitDeps.mem_iff.mp hdep)
  | manifest _ hfetch hdep ih =>
      obtain ⟨manifest', hok, hsame⟩ := hfetcher.ok hfetch
      exact .manifest ih hok (hsame.gitDeps.mem_iff.mp hdep)

/-! ## Unambiguous graphs -/

/-- The name is an alias of the URL in the root, or, if it has none there, in a required manifest. -/
def Declares (root : VslManifest) (fetcher : ManifestFetcher) (url name : List Char) : Prop :=
  (∃ dep ∈ root.gitDeps, urlOf dep = url ∧ dep.1 = name) ∨
    (url ∉ root.gitDeps.map urlOf ∧ ∃ declarer version manifest, Requires root fetcher declarer version ∧
      fetcher declarer version = .ok manifest ∧ ∃ dep ∈ manifest.gitDeps, urlOf dep = url ∧ dep.1 = name)

/-- Nothing is left to the order: a URL has one alias and an alias one URL, versions that compare equal are
written alike, no two requirements write the same `url@version`, and a package that is named as a root alias
depends on root dependencies only. -/
structure Unambiguous (root : VslManifest) (fetcher : ManifestFetcher) : Prop where
  keys : KeysDistinct root fetcher
  versions : ∀ url v w a b, Requires root fetcher url v → Requires root fetcher url w →
    parseSemver v = some a → parseSemver w = some b → semverGreater a b = false →
    semverGreater b a = false → v = w
  oneAlias : ∀ url name name', Declares root fetcher url name → Declares root fetcher url name' → name = name'
  oneUrl : ∀ url url' name, Declares root fetcher url name → Declares root fetcher url' name → url = url'
  names : ∀ url version manifest, Requires root fetcher url version → fetcher url version = .ok manifest →
    manifest.package.name ∈ root.gitDeps.map Prod.fst →
    ∀ dep ∈ manifest.gitDeps, urlOf dep ∈ root.gitDeps.map urlOf

theorem Declares.reordered {url name : List Char} (hroot : Reordered root root')
    (hfetcher : SameFetcher fetcher fetcher') (h : Declares root fetcher url name) :
    Declares root' fetcher' url name := by
  rcases h with ⟨dep, hdep, hurl⟩ | ⟨hnot, u, v, manifest, hreq, hfetch, dep, hdep, hurl⟩
  · exact .inl ⟨dep, hroot.gitDeps.mem_iff.mp hdep, hurl⟩
  · obtain ⟨manifest', hok, hsame⟩ := hfetcher.ok hfetch
    refine .inr ⟨fun hmem => hnot ((hroot.gitDeps.map urlOf).mem_iff.mpr hmem), u, v, manifest',
      hreq.reordered hroot hfetcher, hok, dep, hsame.gitDeps.mem_iff.mp hdep, hurl⟩

theorem Unambiguous.reordered (hroot : Reordered root root') (hfetcher : SameFetcher fetcher fetcher')
    (h : Unambiguous root fetcher) : Unambiguous root' fetcher' := by
  have hreq : ∀ {url v}, Requires root' fetcher' url v → Requires root fetcher url v :=
    fun hr => hr.reordered hroot.symm hfetcher.symm
  have hdecl : ∀ {url name}, Declares root' fetcher' url name → Declares root fetcher url name :=
    fun hd => hd.reordered hroot.symm hfetcher.symm
  refine ⟨?_, ?_, ?_, ?_, ?_⟩
  · exact fun url v url' v' h₁ h₂ => h.keys url v url' v' (hreq h₁) (hreq h₂)
  · exact fun url v w a b h₁ h₂ => h.versions url v w a b (hreq h₁) (hreq h₂)
  · exact fun url name name' h₁ h₂ => h.oneAlias url name name' (hdecl h₁) (hdecl h₂)
  · exact fun url url' name h₁ h₂ => h.oneUrl url url' name (hdecl h₁) (hdecl h₂)
  · intro url version manifest' h₁ hfetch hname dep hdep
    obtain ⟨manifest, hok, hsame⟩ := hfetcher.symm.ok hfetch
    rw [(hroot.gitDeps.map Prod.fst).symm.mem_iff, hsame.package] at hname
    exact (hroot.gitDeps.map urlOf).mem_iff.mp
      (h.names url version manifest (hreq h₁) hok hname dep (hsame.gitDeps.mem_iff.mp hdep))

theorem Unambiguous.roots (h : Unambiguous root fetcher) : (root.gitDeps.map urlOf).Nodup := by
  have hkeys := gitDeps_keys_nodup root
  refine List.Nodup.map_on ?_ hkeys.of_map
  intro dep hdep dep' hdep' hurl
  exact List.inj_on_of_nodup_map hkeys hdep hdep'
    (h.oneAlias (urlOf dep) dep.1 dep'.1 (.inl ⟨dep, hdep, rfl, rfl⟩) (.inl ⟨dep', hdep', hurl.symm, rfl⟩))

/-! ## Errors -/

/-- What is taken has been fetched. -/
theorem fetched_of_steps {t : Worklist.State WorkItem (List Char) Resolution}
    (hkeys : KeysDistinct root fetcher) (h : (resolver fetcher).Steps (initial root) items t)
    {item : WorkItem} (hitem : item ∈ items) :
    ∃ manifest, fetcher item.gitUrl item.version = .ok manifest := by
  obtain ⟨i, hi, hkey⟩ := Worklist.exists_fresh (resolver fetcher).key [] hitem List.not_mem_nil
  obtain ⟨acc, acc', new, hexpand⟩ := h.expanded i hi
  obtain ⟨manifest, hfetch, _⟩ := discover_cases hexpand
  have hreq := requires_of_steps h
  obtain ⟨hurl, hversion⟩ := hkeys _ _ _ _
    (hreq i (List.mem_append_left _ (Worklist.mem_of_mem_fresh hi).1))
    (hreq item (List.mem_append_left _ hitem)) hkey
  rw [hurl, hversion] at hfetch
  exact ⟨manifest, hfetch⟩

theorem Selected.compatible_of_subperm {m : AList (fun _ : List Char => List Char)} {i j : WorkItem}
    (hsel : Selected items m) (h : [i, j].Subperm items) : Compatible i j := by
  obtain ⟨l, hperm, hsub⟩ := h
  have hpairwise : [i, j].Pairwise Compatible :=
    (hperm.pairwise_iff (fun {a b} h => symm h)).mp (hsel.compatible.sublist hsub)
  exact (List.pairwise_cons.mp hpairwise).1 j (List.mem_singleton_self j)

/-- **An error has its reason in the graph.**  Where one run fails, no run takes all it has taken. -/
theorem not_taken_of_error {t : Worklist.State WorkItem (List Char) Resolution} {item : WorkItem}
    {queue : List WorkItem} {e : ResolveError} {t' : Worklist.State WorkItem (List Char) Resolution}
    (hclear : Unambiguous root fetcher) (hroot : Reordered root root')
    (hfetcher : SameFetcher fetcher fetcher')
    (h : (resolver fetcher).Steps (initial root) items t) (hqueue : t.queue = item :: queue)
    (hstep : (resolver fetcher).step item { t with queue := queue } = .error e)
    (h' : (resolver fetcher').Steps (initial root') items' t') :
    ¬ (items ++ t.queue).Subperm items' := by
  intro hsub
  rw [hqueue] at hsub
  have hitem' : item ∈ items' := hsub.subset (List.mem_append_right _ List.mem_cons_self)
  have hitem : Requires root fetcher item.gitUrl item.version := by
    apply requires_of_steps h
    rw [hqueue]
    exact List.mem_append_right _ List.mem_cons_self
  rcases Worklist.step_error hstep with hmeet | ⟨acc, hmeet, _, hexpand⟩
  · -- a requirement that does not go with one taken before
    obtain ⟨v, hv, _, hreason⟩ := mergeVersion_error hmeet
    obtain ⟨⟨i, hi, hurl, hiv⟩, _⟩ := (selected_of_steps h).holds _ v hv
    have hpair : [i, item].Sublist (items ++ item :: queue) :=
      (List.singleton_sublist.mpr hi).append (List.singleton_sublist.mpr List.mem_cons_self)
    obtain ⟨a, b, ha, hb, hmajor⟩ :=
      (selected_of_steps h').compatible_of_subperm (hpair.subperm.trans hsub) hurl
    rw [hiv] at ha
    rcases hreason with ⟨_, hnone | hnone⟩ | ⟨_, a', b', ha', hb', hne⟩
    · rw [ha] at hnone
      cases hnone
    · rw [hb] at hnone
      cases hnone
    · rw [ha] at ha'
      rw [hb] at hb'
      cases ha'
      cases hb'
      exact hne hmajor
  · rcases discover_error hexpand with ⟨message, hfetch, _⟩ | ⟨manifest, hfetch, ⟨dep, hdep, hnew⟩, hname, _⟩
    · obtain ⟨manifest', hok'⟩ :=
        fetched_of_steps (hclear.reordered hroot hfetcher).keys h' hitem'
      obtain ⟨manifest, hok, _⟩ := hfetcher.symm.ok hok'
      rw [hfetch] at hok
      cases hok
    · -- a package named as a root alias depends on root dependencies only, which have their aliases
      have hI := aliased_of_steps h
      rw [mergeVersion_rootAliases hmeet, hI.rootAliases, initial_rootAliases] at hname
      have hmem := hclear.names _ _ _ hitem hfetch hname dep hdep
      rw [mergeVersion_urlToAlias hmeet] at hnew
      exact hnew ((hI.named.mem _).mpr (.inl hmem))

/-! ## The same lock -/

theorem declares_of_lookup {t : Worklist.State WorkItem (List Char) Resolution} {url name : List Char}
    (hroots : (root.gitDeps.map urlOf).Nodup) (h : (resolver fetcher).Steps (initial root) items t)
    (hlookup : t.acc.urlToAlias.lookup url = some name) : Declares root fetcher url name := by
  obtain ⟨dep, hdep, hurl, hname⟩ := ((aliased_of_steps h).named.lookup hroots url name).mp hlookup
  rcases List.mem_append.mp hdep with hdep | hdep
  · exact .inl ⟨dep, hdep, hurl, hname⟩
  · obtain ⟨hmem, hnot⟩ := Worklist.mem_of_mem_fresh hdep
    obtain ⟨i, hi, hdep'⟩ := List.mem_flatMap.mp hmem
    have hreq := requires_of_steps h i (List.mem_append_left _ (Worklist.mem_of_mem_fresh hi).1)
    unfold depsOf at hdep'
    split at hdep'
    · cases hdep'
    · rename_i manifest hfetch
      rw [hurl] at hnot
      exact .inr ⟨hnot, _, _, manifest, hreq, hfetch, dep, hdep', hurl, hname⟩

/-- One version covers another that covers it: they are written alike. -/
theorem Unambiguous.eq_of_covers (hclear : Unambiguous root fetcher) {url v w : List Char}
    (hv : Requires root fetcher url v) (hw : Requires root fetcher url w) (hvw : Covers v w)
    (hwv : Covers w v) : v = w := by
  rcases hvw with rfl | ⟨a, b, ha, hb, _, hba⟩
  · rfl
  · rcases hwv with rfl | ⟨b', a', hb', ha', _, hab⟩
    · rfl
    · rw [ha] at ha'
      rw [hb] at hb'
      cases ha'
      cases hb'
      exact hclear.versions url v w a b hv hw ha hb hab hba

instance : Std.Total fun a b : LockEntry => a.importAlias ≤ b.importAlias where
  total a b := le_total a.importAlias b.importAlias

instance : IsTrans LockEntry fun a b => a.importAlias ≤ b.importAlias where
  trans _ _ _ := le_trans

section Finished

variable {t t' : Worklist.State WorkItem (List Char) Resolution}
  (hclear : Unambiguous root fetcher) (hroot : Reordered root root')
  (hfetcher : SameFetcher fetcher fetcher')
  (h : (resolver fetcher).Steps (initial root) items t) (hqueue : t.queue = [])
  (h' : (resolver fetcher').Steps (initial root') items' t') (hqueue' : t'.queue = [])

include hclear hroot hfetcher h hqueue h' hqueue'

theorem same_items : items.Perm items' :=
  h.perm h' (resolver_gives fetcher) (resolver_gives fetcher') rfl hroot.queue hfetcher.children
    (children_of_key hclear.keys) (children_of_key (hclear.reordered hroot hfetcher).keys) rfl rfl hqueue hqueue'

theorem same_version {url v : List Char} (hv : t.acc.resolvedVersion.lookup url = some v) :
    t'.acc.resolvedVersion.lookup url = some v := by
  have hperm := same_items hclear hroot hfetcher h hqueue h' hqueue'
  have hsel := selected_of_steps h
  have hsel' := selected_of_steps h'
  have hreq : ∀ i ∈ items, Requires root fetcher i.gitUrl i.version :=
    fun i hi => requires_of_steps h i (List.mem_append_left _ hi)
  obtain ⟨⟨i, hi, rfl, rfl⟩, hcovers⟩ := hsel.holds url v hv
  cases hw : t'.acc.resolvedVersion.lookup i.gitUrl with
  | none => exact absurd rfl (hsel'.missing _ hw i (hperm.mem_iff.mp hi))
  | some w =>
      obtain ⟨⟨j, hj, hjurl, rfl⟩, hcovers'⟩ := hsel'.holds _ w hw
      have hj' := hperm.mem_iff.mpr hj
      have hjreq := hreq j hj'
      rw [hjurl] at hjreq
      rw [hclear.eq_of_covers (hreq i hi) hjreq (hcovers j hj' hjurl) (hcovers' i (hperm.mem_iff.mp hi) rfl)]

theorem same_entry {url v : List Char} (hv : t.acc.resolvedVersion.lookup url = some v) :
    lockEntry t.acc (url, v) = lockEntry t'.acc (url, v) := by
  have hclear' := hclear.reordered hroot hfetcher
  obtain ⟨dep, hdep, hurl⟩ := List.mem_map.mp ((mem_lock_urls h hqueue).mpr ⟨v, hv⟩)
  obtain ⟨dep', hdep', hurl'⟩ := List.mem_map.mp ((mem_lock_urls h' hqueue').mpr
    ⟨v, same_version hclear hroot hfetcher h hqueue h' hqueue' hv⟩)
  have hname := ((aliased_of_steps h).named.lookup hclear.roots url dep.1).mpr ⟨dep, hdep, hurl, rfl⟩
  have hname' := ((aliased_of_steps h').named.lookup hclear'.roots url dep'.1).mpr ⟨dep', hdep', hurl', rfl⟩
  have hsame : dep.1 = dep'.1 := hclear.oneAlias url _ _ (declares_of_lookup hclear.roots h hname)
    ((declares_of_lookup hclear'.roots h' hname').reordered hroot.symm hfetcher.symm)
  unfold lockEntry
  rw [hname, hname', hsame]

theorem lock_subset : (lockOf E t.acc).packages ⊆ (lockOf E' t'.acc).packages := by
  intro entry hentry
  obtain ⟨url, v, hv, rfl⟩ := mem_lock.mp hentry
  rw [same_entry hclear hroot hfetcher h hqueue h' hqueue' hv]
  exact mem_lock.mpr ⟨url, v, same_version hclear hroot hfetcher h hqueue h' hqueue' hv, rfl⟩

/-- **Two finished runs give the same lock.** -/
theorem same_lock : lockOf E t.acc = lockOf E' t'.acc := by
  have hclear' := hclear.reordered hroot hfetcher
  have hperm : (lockOf E t.acc).packages.Perm (lockOf E' t'.acc).packages := by
    refine (List.perm_ext_iff_of_nodup (lock_urls_nodup E t.acc).of_map (lock_urls_nodup E' t'.acc).of_map).mpr
      fun entry => ⟨fun hentry => ?_, fun hentry => ?_⟩
    · exact lock_subset hclear hroot hfetcher h hqueue h' hqueue' hentry
    · exact lock_subset hclear' hroot.symm hfetcher.symm h' hqueue' h hqueue hentry
  have hpackages : (lockOf E t.acc).packages = (lockOf E' t'.acc).packages := by
    refine hperm.eq_of_pairwise ?_ (List.pairwise_insertionSort _ _) (List.pairwise_insertionSort _ _)
    intro entry entry' hentry hentry' hle hge
    -- an alias is the alias of one URL, and a URL has one entry
    have hnames := le_antisymm hle hge
    have hentry'' := hperm.mem_iff.mpr hentry'
    have hdeclares : ∀ entry ∈ (lockOf E t.acc).packages,
        Declares root fetcher entry.url entry.importAlias := by
      intro entry hentry
      obtain ⟨url, v, hv, rfl⟩ := mem_lock.mp hentry
      obtain ⟨dep, hdep, hurl⟩ := List.mem_map.mp ((mem_lock_urls h hqueue).mpr ⟨v, hv⟩)
      have hname := ((aliased_of_steps h).named.lookup hclear.roots url dep.1).mpr ⟨dep, hdep, hurl, rfl⟩
      have hdecl := declares_of_lookup hclear.roots h hname
      show Declares root fetcher url ((t.acc.urlToAlias.lookup url).getD [])
      rw [hname]
      exact hdecl
    refine List.inj_on_of_nodup_map (lock_urls_nodup E t.acc) hentry hentry'' ?_
    refine hclear.oneUrl _ _ entry.importAlias (hdeclares entry hentry) ?_
    rw [hnames]
    exact hdeclares entry' hentry''
  unfold lockOf at hpackages ⊢
  exact congrArg VslLock.mk hpackages

end Finished

/-! ## Main result -/

/-- Where one run returns, so does the other, with the same lock. -/
theorem returns_same {lock : VslLock} (hclear : Unambiguous root fetcher) (hroot : Reordered root root')
    (hfetcher : SameFetcher fetcher fetcher') (h : Resolves E root fetcher (.ok lock)) :
    Resolves E' root' fetcher' (.ok lock) := by
  obtain ⟨items, t, hsteps, hqueue, rfl⟩ := steps_of_ok h
  have hclear' := hclear.reordered hroot hfetcher
  -- the other run ends, since it meets no more keys
  obtain ⟨fuel, out, hrun⟩ := Worklist.run_terminates (s := initial root') (resolver_gives fetcher')
    (items.map (resolver fetcher).key).toFinset fun i hi => by
      rw [List.mem_toFinset]
      refine List.mem_map_of_mem ?_
      exact hsteps.complete (resolver_gives fetcher) (children_of_key hclear.keys) rfl hqueue
        (hi.congr hroot.symm.queue.subset fun i => (hfetcher.symm.children i).subset)
  have hends : Resolves E' root' fetcher' (out.map (lockOf E')) := ⟨fuel, congrArg (Option.map _) hrun⟩
  cases out with
  | error e =>
      obtain ⟨items', t', item, queue, hsteps', hqueue', hstep⟩ := steps_of_error hends
      obtain ⟨n, hn⟩ := hsteps'.subperm_walk (resolver_gives fetcher') hroot.symm.queue
        hfetcher.symm.children (children_of_key hclear.keys) rfl
      have hwalk := hsteps.walk_prefix (resolver_gives fetcher) hqueue n
      exact absurd (hn.trans hwalk.sublist.subperm)
        (not_taken_of_error hclear' hroot.symm hfetcher.symm hsteps' hqueue' hstep hsteps)
  | ok acc =>
      obtain ⟨items', t', hsteps', hqueue', hlock⟩ := steps_of_ok hends
      rw [same_lock hclear hroot hfetcher hsteps hqueue hsteps' hqueue', ← hlock]
      exact hends

/-- Where one run fails, so does the other. -/
theorem fails_same {e : ResolveError} (hclear : Unambiguous root fetcher) (hroot : Reordered root root')
    (hfetcher : SameFetcher fetcher fetcher') (h : Resolves E root fetcher (.error e)) :
    ∃ e', Resolves E' root' fetcher' (.error e') := by
  have hclear' := hclear.reordered hroot hfetcher
  obtain ⟨items, t, item, queue, hsteps, hqueue, hstep⟩ := steps_of_error h
  obtain ⟨n, hn⟩ := hsteps.subperm_walk (resolver_gives fetcher) hroot.queue hfetcher.children
    (children_of_key hclear'.keys) rfl
  obtain ⟨items', t', hsteps', ⟨hrun, hqueue'⟩ | ⟨e', _, _, hrun, _⟩ | ⟨_, hlen⟩⟩ :=
    Worklist.run_cases (resolver fetcher') n (initial root')
  · have hlock : Resolves E' root' fetcher' (.ok (lockOf E' t'.acc)) :=
      ⟨n, congrArg (Option.map (Except.map (lockOf E'))) hrun⟩
    have hback : Resolves E root fetcher (.ok (lockOf E' t'.acc)) :=
      returns_same hclear' hroot.symm hfetcher.symm hlock
    have habsurd := h.unique hback
    cases habsurd
  · exact ⟨e', n, congrArg (Option.map (Except.map (lockOf E'))) hrun⟩
  · -- a run that goes on takes all that the other has taken
    have hwalk : Worklist.walk (resolver fetcher').key (children fetcher') n [] (initial root').queue =
        items' := by
      have h0 := hsteps'.walk_add (resolver_gives fetcher') 0
      rw [hlen, Nat.add_zero] at h0
      exact h0.trans (List.append_nil items')
    have hkey : (resolver fetcher).key = (resolver fetcher').key := rfl
    rw [hkey, hwalk] at hn
    exact absurd hn (not_taken_of_error hclear hroot hfetcher hsteps hqueue hstep hsteps')

/-- Two packages without dependencies. -/
def pairRoot : VslManifest := gitManifest "app" [("json", "json", "1.0.0"), ("net", "net", "1.2.0")]

def pairFetcher : ManifestFetcher := fun _ _ => .ok (gitManifest "lib" [])

theorem pair_requires {url version : List Char} (h : Requires pairRoot pairFetcher url version) :
    (url, version) ∈ [("json".toList, "1.0.0".toList), ("net".toList, "1.2.0".toList)] := by
  cases h with
  | @root dep hdep =>
      have hall : ∀ dep ∈ pairRoot.gitDeps, (dep.2.url, dep.2.version) ∈
          [("json".toList, "1.0.0".toList), ("net".toList, "1.2.0".toList)] := by decide
      exact hall dep hdep
  | manifest _ hfetch hdep =>
      cases hfetch
      cases hdep

theorem pair_declares {url name : List Char} (h : Declares pairRoot pairFetcher url name) :
    (url, name) ∈ [("json".toList, "json".toList), ("net".toList, "net".toList)] := by
  rcases h with ⟨dep, hdep, rfl, rfl⟩ | ⟨_, u, v, manifest, _, hfetch, dep, hdep, _⟩
  · have hall : ∀ dep ∈ pairRoot.gitDeps, (urlOf dep, dep.1) ∈
        [("json".toList, "json".toList), ("net".toList, "net".toList)] := by decide
    exact hall dep hdep
  · cases hfetch
    cases hdep

theorem pair_unambiguous : Unambiguous pairRoot pairFetcher := by
  refine ⟨?_, ?_, ?_, ?_, ?_⟩
  · intro url v url' v' h h' hkey
    have hall : ∀ r ∈ [("json".toList, "1.0.0".toList), ("net".toList, "1.2.0".toList)],
        ∀ r' ∈ [("json".toList, "1.0.0".toList), ("net".toList, "1.2.0".toList)],
        keyOf r.1 r.2 = keyOf r'.1 r'.2 → r.1 = r'.1 ∧ r.2 = r'.2 := by decide
    exact hall _ (pair_requires h) _ (pair_requires h') hkey
  · intro url v w a b h h' _ _ _ _
    have hall : ∀ r ∈ [("json".toList, "1.0.0".toList), ("net".toList, "1.2.0".toList)],
        ∀ r' ∈ [("json".toList, "1.0.0".toList), ("net".toList, "1.2.0".toList)],
        r.1 = r'.1 → r.2 = r'.2 := by decide
    exact hall _ (pair_requires h) _ (pair_requires h') rfl
  · intro url name name' h h'
    have hall : ∀ r ∈ [("json".toList, "json".toList), ("net".toList, "net".toList)],
        ∀ r' ∈ [("json".toList, "json".toList), ("net".toList, "net".toList)],
        r.1 = r'.1 → r.2 = r'.2 := by decide
    exact hall _ (pair_declares h) _ (pair_declares h') rfl
  · intro url url' name h h'
    have hall : ∀ r ∈ [("json".toList, "json".toList), ("net".toList, "net".toList)],
        ∀ r' ∈ [("json".toList, "json".toList), ("net".toList, "net".toList)],
        r.2 = r'.2 → r.1 = r'.1 := by decide
    exact hall _ (pair_declares h) _ (pair_declares h') rfl
  · intro url v manifest _ hfetch _ dep hdep
    cases hfetch
    cases hdep

end Visuall.Packages
