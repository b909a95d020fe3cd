import Visuall.Lib.Run
import Visuall.Packages.Fetcher

/-!
# The package store

What successful calls return, over whole histories of calls of any projects, of which any may fail at any step.

* `Honest` — every directory whose checkout was completed holds the tree that was checked out; each call keeps that;
* `Unmixed` — before a call, the directories that it takes as they are have been made for its url and version;
* `Right` — what a successful call returns is of its url, at its tag;
* `never_mixes` — the result, for histories whose calls are unmixed.
-/

namespace Visuall.Packages

variable {Tree : Type} (dataDir : List Char) (G : Git Tree)

/-- A call, with what fails in it. -/
inductive Call (Tree : Type)
  | package (importAlias url version : List Char) (force : Bool) (F : Faults Tree)
  | manifest (url version : List Char) (F : Faults Tree)

/-- What a call returns. -/
inductive Fetched
  | package (entry : LockEntry)
  | manifest (m : VslManifest)

/-- A call from a state of the directories. -/
def call : Call Tree → Fetch Tree Fetched
  | .package importAlias url version force F => do
    let entry ← fetchPackage dataDir G F importAlias url version force
    return .package entry
  | .manifest url version F => do
    let m ← fetchManifest dataDir G F url version
    return .manifest m

/-- A call leads from one state to the next, however it ends. -/
def Calls (σ : Store Tree) (c : Call Tree) (σ' : Store Tree) : Prop := (call dataDir G c σ).2 = σ'

/-! ## What directories hold -/

/-- A directory whose checkout was completed holds the tree. -/
def Honest (σ : Store Tree) : Prop :=
  ∀ path dir, σ.packages path = some dir → ∀ url version, dir.origin = some (url, version) →
    G.tree url ('v' :: version) = some dir.content

variable {G}

theorem Honest.update {σ : Store Tree} (h : Honest G σ) (path : List Char) {left : Option (PackageDir Tree)}
    (hleft : ∀ dir ∈ left, ∀ url version, dir.origin = some (url, version) →
      G.tree url ('v' :: version) = some dir.content) :
    Honest G { σ with packages := Function.update σ.packages path left } := by
  intro p dir hdir
  have hpackages : Function.update σ.packages path left p = some dir := hdir
  by_cases hp : p = path
  · subst hp
    rw [Function.update_self] at hpackages
    exact hleft dir hpackages
  · rw [Function.update_of_ne hp] at hpackages
    exact h p dir hpackages

theorem mustRunGit_keeps {I : Store Tree → Prop} (fails : Bool) (e : FetchError) :
    Effect.Keeps I (mustRunGit fails e : Fetch Tree Unit) := (Effect.Keeps.throw e).ite (.pure ())

theorem ensureCache_keeps (F : Faults Tree) (url path : List Char) :
    Effect.Keeps (Honest G) (ensureCache F url path) := by
  refine .bind .get fun σ => .ite (mustRunGit_keeps _ _) ?_
  exact .bind (mustRunGit_keeps _ _) fun _ => .modify fun σ h => h

theorem assertTagExists_keeps {I : Store Tree → Prop} (F : Faults Tree) (path tag url : List Char) :
    Effect.Keeps I (assertTagExists G F path tag url) :=
  .bind .get fun _ => .ite (.throw _) (.pure ())

/-- What is kept where the clone is made, is kept by all of `fetchManifest`. -/
theorem fetchManifest_keeps {I : Store Tree → Prop} {F : Faults Tree} {url : List Char}
    (hcache : Effect.Keeps I (ensureCache F url (cacheDir dataDir url))) (version : List Char) :
    Effect.Keeps I (fetchManifest dataDir G F url version) := by
  refine .bind hcache fun _ => .bind (assertTagExists_keeps F _ _ url) fun _ => .bind .get fun σ => ?_
  cases (cloneTree G σ (cacheDir dataDir url) ('v' :: version)).bind G.manifestText with
  | none => exact .throw _
  | some content =>
    refine .bind (mustRunGit_keeps _ _) fun _ => .ite (.throw _) ?_
    cases G.parseManifest content with
    | error message => exact .throw _
    | ok m => exact .pure m

theorem removePackage_keeps (F : Faults Tree) (path : List Char) :
    Effect.Keeps (Honest G) (removePackage F path) := by
  unfold removePackage
  cases F.remove with
  | none => exact Effect.Keeps.modify fun σ h => h.update path fun dir hdir => by cases hdir
  | some left =>
    have hleft : ∀ dir ∈ left.map fun t => (⟨t, none⟩ : PackageDir Tree), ∀ url version,
        dir.origin = some (url, version) → G.tree url ('v' :: version) = some dir.content := by
      intro dir hdir url version horigin
      obtain ⟨t, _, rfl⟩ := Option.map_eq_some_iff.mp hdir
      cases horigin
    exact (Effect.Keeps.modify fun σ h => h.update path hleft).bind fun _ => .throw _

theorem checkoutPackage_keeps (F : Faults Tree) (cache path url version : List Char) :
    Effect.Keeps (Honest G) (checkoutPackage G F cache ('v' :: version) path url version) := by
  apply Effect.Keeps.get_bind
  intro σ hσ
  cases hcheckout : F.checkout with
  | some left =>
    exact hσ.update path fun dir hdir url version horigin => by
      cases hdir
      cases horigin
  | none =>
    cases hcache : σ.caches cache with
    | none => exact hσ
    | some origin =>
      cases htree : cloneTree G σ cache ('v' :: version) with
      | none => exact hσ
      | some tree =>
        have horigin : G.tree origin ('v' :: version) = some tree := by
          unfold cloneTree at htree
          rw [hcache] at htree
          exact htree
        apply hσ.update path
        intro dir hdir url version' hdirOrigin
        cases hdir
        cases hdirOrigin
        exact horigin

/-- What is kept where the clone is made, and the directory removed and filled, is kept by all of `fetchPackage`. -/
theorem fetchPackage_keeps {I : Store Tree → Prop} {F : Faults Tree} {importAlias url version : List Char}
    (hcache : Effect.Keeps I (ensureCache F url (cacheDir dataDir url)))
    (hremove : Effect.Keeps I (removePackage F (storeDir dataDir importAlias version)))
    (hcheckout : Effect.Keeps I (checkoutPackage G F (cacheDir dataDir url) ('v' :: version)
      (storeDir dataDir importAlias version) url version)) (force : Bool) :
    Effect.Keeps I (fetchPackage dataDir G F importAlias url version force) := by
  refine .bind hcache fun _ => .bind (assertTagExists_keeps F _ _ url) fun _ =>
    .bind (mustRunGit_keeps _ _) fun _ => .bind ?_ fun _ => .bind ?_ fun _ => .pure _
  · exact .bind .get fun _ => .ite hremove (.pure ())
  · exact .bind .get fun _ => .ite (.ite (.throw _) hcheckout) (.pure ())

/-- **Every call keeps the directories honest**, however it ends. -/
theorem call_keeps (c : Call Tree) : Effect.Keeps (Honest G) (call dataDir G c) := by
  cases c with
  | package importAlias url version force F =>
    exact .bind (fetchPackage_keeps dataDir (ensureCache_keeps F url _) (removePackage_keeps F _)
      (checkoutPackage_keeps F _ _ url version) force) fun _ => .pure _
  | manifest url version F =>
    exact .bind (fetchManifest_keeps dataDir (ensureCache_keeps F url _) version) fun _ => .pure _

/-! ## What calls return -/

/-- Names that are one component of a path, in a directory that does not need its separators changed. -/
def PlainDir (importAlias version : List Char) : Prop :=
  '/' ∉ importAlias ++ version ∧ '\\' ∉ storeDir dataDir importAlias version

instance (importAlias version : List Char) : Decidable (PlainDir dataDir importAlias version) :=
  inferInstanceAs (Decidable (_ ∧ _))

/-- The clone that a call finds under the name of its url is one of that url. -/
def OwnCache (σ : Store Tree) (url : List Char) : Prop := ∀ origin ∈ σ.caches (cacheDir dataDir url), origin = url

/-- **What the calls have to be like**, and the directories in front of them: the clone that a call finds is one of
its url, and the package directory that it finds and does not wipe was left by a completed checkout of its url and
version. -/
def Unmixed (σ : Store Tree) : Call Tree → Prop
  | .package importAlias url version force _ =>
    PlainDir dataDir importAlias version ∧ OwnCache dataDir σ url ∧
      (force = true ∨ ∀ dir ∈ σ.packages (storeDir dataDir importAlias version), dir.origin = some (url, version))
  | .manifest url _ _ => OwnCache dataDir σ url

variable (G) in
/-- What a successful call returns is of its url, at the tag of its version: a directory with the tree, or the manifest
that is in the tree. -/
def Right (σ : Store Tree) (c : Call Tree) : Prop :=
  ∀ fetched σ', call dataDir G c σ = (.ok fetched, σ') →
    match c, fetched with
    | .package _ url version _ _, .package entry =>
      ∃ dir, σ'.packages entry.dir = some dir ∧ G.tree url ('v' :: version) = some dir.content
    | .manifest url version _, .manifest m =>
      ∃ tree text, G.tree url ('v' :: version) = some tree ∧ G.manifestText tree = some text ∧
        G.parseManifest text = .ok m
    | _, _ => False

theorem mustRunGit_ok {fails : Bool} {e : FetchError} {σ σ' : Store Tree}
    (h : mustRunGit fails e σ = (.ok (), σ')) : σ' = σ := by
  cases fails with
  | true => cases h
  | false =>
    cases h
    rfl

/-- Behind `ensureCache` there is a clone of the url, and the packages are as before. -/
theorem ensureCache_ok {F : Faults Tree} {url : List Char} {σ σ' : Store Tree} (hown : OwnCache dataDir σ url)
    (h : ensureCache F url (cacheDir dataDir url) σ = (.ok (), σ')) :
    σ'.caches (cacheDir dataDir url) = some url ∧ σ'.packages = σ.packages := by
  obtain ⟨_, τ, hget, h⟩ := Effect.ok_of_bind_run h
  cases hget
  cases hcache : σ.caches (cacheDir dataDir url) with
  | some origin =>
    rw [hcache] at h
    obtain rfl := mustRunGit_ok h
    obtain rfl := hown origin hcache
    exact ⟨hcache, rfl⟩
  | none =>
    rw [hcache, Option.isSome_none, if_neg Bool.false_ne_true] at h
    obtain ⟨_, τ, hclone, hmodify⟩ := Effect.ok_of_bind_run h
    obtain rfl := mustRunGit_ok hclone
    cases hmodify
    exact ⟨Function.update_self _ _ _, rfl⟩

theorem assertTagExists_ok {F : Faults Tree} {path tag url : List Char} {σ σ' : Store Tree}
    (h : assertTagExists G F path tag url σ = (.ok (), σ')) : σ' = σ := by
  obtain ⟨_, τ, hget, h⟩ := Effect.ok_of_bind_run h
  cases hget
  by_cases hfails : (F.listTags || (cloneTree G σ path tag).isNone) = true
  · rw [if_pos hfails] at h
    cases h
  · rw [if_neg hfails] at h
    cases h
    rfl

theorem cloneTree_own {σ : Store Tree} {path url tag : List Char} (h : σ.caches path = some url) :
    cloneTree G σ path tag = G.tree url tag := by
  unfold cloneTree
  rw [h]
  rfl

theorem fetchManifest_right {F : Faults Tree} {url version : List Char} {σ σ' : Store Tree} {m : VslManifest}
    (hown : OwnCache dataDir σ url) (h : fetchManifest dataDir G F url version σ = (.ok m, σ')) :
    ∃ tree text, G.tree url ('v' :: version) = some tree ∧ G.manifestText tree = some text ∧
      G.parseManifest text = .ok m := by
  obtain ⟨_, σ₁, hcache, h₁⟩ := Effect.ok_of_bind_run h
  obtain ⟨_, σ₂, htag, h₂⟩ := Effect.ok_of_bind_run h₁
  obtain ⟨_, σ₃, hget, h⟩ := Effect.ok_of_bind_run h₂
  cases hget
  obtain rfl := assertTagExists_ok htag
  rw [cloneTree_own (ensureCache_ok dataDir hown hcache).1] at h
  cases htree : G.tree url ('v' :: version) with
  | none =>
    rw [htree] at h
    cases h
  | some tree =>
    rw [htree] at h
    cases htext : G.manifestText tree with
    | none =>
      rw [Option.bind_some, htext] at h
      cases h
    | some text =>
      rw [Option.bind_some, htext] at h
      obtain ⟨_, σ₄, hshow, h⟩ := Effect.ok_of_bind_run h
      refine ⟨tree, text, rfl, htext, ?_⟩
      by_cases hwrite : F.writeTemp = true
      · rw [if_pos hwrite] at h
        cases h
      · rw [if_neg hwrite] at h
        cases hparse : G.parseManifest text with
        | error message =>
          rw [hparse] at h
          cases h
        | ok m' =>
          rw [hparse] at h
          cases h
          rfl

/-- Behind `wipePackage` a directory that is still there has not been forced. -/
theorem wipePackage_ok {F : Faults Tree} {force : Bool} {path : List Char} {σ σ' : Store Tree}
    (h : wipePackage F force path σ = (.ok (), σ')) :
    σ'.caches = σ.caches ∧ (σ'.packages path = none ∨ force = false ∧ σ'.packages path = σ.packages path) := by
  obtain ⟨_, τ, hget, h⟩ := Effect.ok_of_bind_run h
  cases hget
  cases hpath : σ.packages path with
  | none =>
    rw [hpath, Option.isSome_none, Bool.and_false] at h
    cases h
    exact ⟨rfl, .inl hpath⟩
  | some dir =>
    cases force with
    | false =>
      cases h
      exact ⟨rfl, .inr ⟨rfl, hpath⟩⟩
    | true =>
      rw [hpath, Option.isSome_some, Bool.and_self, if_pos rfl] at h
      unfold removePackage at h
      cases hremove : F.remove with
      | none =>
        rw [hremove] at h
        cases h
        exact ⟨rfl, .inl (Function.update_self _ _ _)⟩
      | some left =>
        rw [hremove] at h
        obtain ⟨_, τ, _, hthrow⟩ := Effect.ok_of_bind_run h
        cases hthrow

/-- Behind `populatePackage` there is the directory that was there, or a checkout. -/
theorem populatePackage_ok {F : Faults Tree} {cache path url version : List Char} {σ σ' : Store Tree}
    (hcache : σ.caches cache = some url)
    (h : populatePackage G F cache ('v' :: version) path url version σ = (.ok (), σ')) :
    ∃ dir, σ'.packages path = some dir ∧
      (σ.packages path = some dir ∨ G.tree url ('v' :: version) = some dir.content) := by
  obtain ⟨_, τ, hget, h⟩ := Effect.ok_of_bind_run h
  cases hget
  cases hpath : σ.packages path with
  | some dir =>
    rw [hpath] at h
    cases h
    exact ⟨dir, hpath, .inl rfl⟩
  | none =>
    rw [hpath, Option.isNone_none, if_pos rfl] at h
    by_cases hcreate : F.createDirs = true
    · rw [if_pos hcreate] at h
      cases h
    · rw [if_neg hcreate] at h
      obtain ⟨_, τ, hget, h⟩ := Effect.ok_of_bind_run h
      cases hget
      rw [hcache, cloneTree_own hcache] at h
      cases hcheckout : F.checkout with
      | some left =>
        rw [hcheckout] at h
        obtain ⟨_, τ, _, hthrow⟩ := Effect.ok_of_bind_run h
        cases hthrow
      | none =>
        rw [hcheckout] at h
        cases htree : G.tree url ('v' :: version) with
        | none =>
          rw [htree] at h
          cases h
        | some tree =>
          rw [htree] at h
          cases h
          exact ⟨⟨tree, some (url, version)⟩, Function.update_self _ _ _, .inr rfl⟩

theorem normalizePathSep_eq {path : List Char} (h : '\\' ∉ path) : normalizePathSep path = path := by
  unfold normalizePathSep
  conv => rhs; rw [← List.map_id path]
  apply List.map_congr_left
  intro c hc
  have hne : c ≠ '\\' := fun heq => h (heq ▸ hc)
  rw [if_neg hne]
  rfl

/-- **An unmixed call returns the tree of its tag.** -/
theorem right_of_unmixed {σ : Store Tree} {c : Call Tree} (hσ : Honest G σ) (h : Unmixed dataDir σ c) :
    Right dataDir G σ c := by
  intro fetched σ' hrun
  cases c with
  | manifest url version F =>
    obtain ⟨m, τ, hfetch, hreturn⟩ := Effect.ok_of_bind_run hrun
    cases hreturn
    exact fetchManifest_right dataDir h hfetch
  | package importAlias url version force F =>
    obtain ⟨hplain, hown, hdir⟩ := h
    obtain ⟨entry, τ, hfetch, hreturn⟩ := Effect.ok_of_bind_run hrun
    cases hreturn
    obtain ⟨_, σ₁, hcache, hfetch⟩ := Effect.ok_of_bind_run hfetch
    obtain ⟨_, σ₂, htag, hfetch⟩ := Effect.ok_of_bind_run hfetch
    obtain ⟨_, σ₃, hparse, hfetch⟩ := Effect.ok_of_bind_run hfetch
    obtain ⟨_, σ₄, hwipe, hfetch⟩ := Effect.ok_of_bind_run hfetch
    obtain ⟨_, σ₅, hpopulate, hfetch⟩ := Effect.ok_of_bind_run hfetch
    cases hfetch
    obtain ⟨hclone, hpackages⟩ := ensureCache_ok dataDir hown hcache
    obtain rfl := assertTagExists_ok htag
    obtain rfl := mustRunGit_ok hparse
    obtain ⟨hcaches, hkept⟩ := wipePackage_ok hwipe
    obtain ⟨dir, hresult, hcontent⟩ := populatePackage_ok (hcaches ▸ hclone) hpopulate
    refine ⟨dir, ?_, ?_⟩
    · show σ'.packages (normalizePathSep _) = some dir
      rw [normalizePathSep_eq hplain.2]
      exact hresult
    · rcases hcontent with hold | hnew
      · rcases hkept with hnone | ⟨hforce, hsame⟩
        · rw [hold] at hnone
          cases hnone
        · rw [hsame, hpackages] at hold
          have horigin := (hdir.resolve_left (by rw [hforce]; exact Bool.false_ne_true)) dir hold
          exact hσ _ dir hold url version horigin
      · exact hnew

/-! ## Histories -/

/-- No directory yet. -/
def Store.empty : Store Tree := ⟨fun _ => none, fun _ => none⟩

theorem honest_empty : Honest G Store.empty := fun _ _ h => by cases h

/-- The url of a call. -/
def Call.url : Call Tree → List Char
  | .package _ url _ _ _ => url
  | .manifest url _ _ => url

/-! ## Two projects with one alias -/

/-- Two repositories at one version. -/
def twoRepositories : Git Bool where
  tree url tag :=
    if tag ≠ "v1.0.0".toList then none
    else if url = "https://h/x".toList then some true
    else if url = "https://h/y".toList then some false
    else none
  manifestText _ := none
  parseManifest _ := .error []

/-- `fetchPackage("util", url, "1.0.0", false)`, in which nothing fails. -/
def fetchUtil (url : List Char) : Call Bool := .package "util".toList url "1.0.0".toList false {}

/-- The directories behind `fetchUtil`. -/
def afterUtil (url : List Char) (σ : Store Bool) : Store Bool := (call "/d".toList twoRepositories (fetchUtil url) σ).2

end Visuall.Packages
