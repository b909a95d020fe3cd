import Visuall.Lib.Places
import Visuall.Packages.Selection
import Visuall.Packages.Store

/-!
# Where packages are installed

Which directories the calls of an installation make and remove, by the places that their paths lead to.

A path is taken name by name, as a POSIX system takes it where no name is a link; it ends at its first NUL.

* `placeOf` — the place a path leads to;
* `ChangesPackage`, `ChangesCache` — the directories that a call makes or removes, over all states of the store and all
  repositories;
* `StaysInside` — what an installation must not do; `stays_inside_iff` — exactly when it does not.
-/

namespace Visuall.Packages

/-! ## Paths -/

/-- What a system call reads of a text. -/
def cString (text : List Char) : List Char := text.takeWhile (· ≠ '\x00')

def stepOf (name : List Char) : Places.Step (List Char) :=
  if name = [] ∨ name = ".".toList then .stay
  else if name = "..".toList then .up
  else .down name

/-- The steps of a path. -/
def stepsOf (path : List Char) : List (Places.Step (List Char)) :=
  ((cString path).splitOnP (· == '/')).map stepOf

/-- The place that a path leads to, from the working directory. -/
def placeOf (cwd : List (List Char)) (path : List Char) : List (List Char) :=
  (stepsOf path).foldl Places.go (if path.head? = some '/' then [] else cwd)

theorem stepsOf_append {a : List Char} (ha : '\x00' ∉ a) (b : List Char) :
    stepsOf (a ++ '/' :: b) = stepsOf a ++ stepsOf b := by
  have hnul : ∀ c ∈ a, decide (c ≠ '\x00') = true := fun c hc => decide_eq_true fun h => ha (h ▸ hc)
  have hcut : cString (a ++ '/' :: b) = a ++ '/' :: cString b := by
    rw [cString, List.takeWhile_append_of_pos hnul, List.takeWhile_cons_of_pos (by decide)]
    rfl
  have hall : cString a = a := List.takeWhile_eq_self_iff.mpr hnul
  rw [stepsOf, stepsOf, stepsOf, hcut, hall, List.splitOnP_append_cons _ _ (by decide), List.map_append]

/-- A path goes on from the place that its first part leads to. -/
theorem placeOf_append (cwd : List (List Char)) {a : List Char} (ha : '\x00' ∉ a) (hne : a ≠ []) (b : List Char) :
    placeOf cwd (a ++ '/' :: b) = (stepsOf b).foldl Places.go (placeOf cwd a) := by
  have hhead : (a ++ '/' :: b).head? = a.head? := by
    cases a with
    | nil => exact absurd rfl hne
    | cons c a => rfl
  rw [placeOf, placeOf, hhead, stepsOf_append ha, List.foldl_append]

/-- A plain name is a step down. -/
theorem stepsOf_name {name : List Char} (hne : name ≠ []) (hdot : name ≠ ".".toList) (hdots : name ≠ "..".toList)
    (hplain : ∀ c ∈ name, c ≠ '/' ∧ c ≠ '\x00') : stepsOf name = [.down name] := by
  have hall : cString name = name := List.takeWhile_eq_self_iff.mpr fun c hc => decide_eq_true (hplain c hc).2
  have hsep : ∀ c ∈ name, (c == '/') = false := fun c hc => beq_eq_false_iff_ne.mpr (hplain c hc).1
  rw [stepsOf, hall, List.splitOnP_eq_singleton hsep, List.map_singleton, stepOf, if_neg (not_or.mpr ⟨hne, hdot⟩),
    if_neg hdots]

/-! ## Names of clones -/

/-- What is left of a url without its scheme. -/
def schemeless (url : List Char) : List Char := (schemeEnd url).getD url

/-- Characters that are the same in the name of a cache directory. -/
def Alike (c d : Char) : Prop := c = d ∨ (c = '_' ∨ isSafe c = false) ∧ (d = '_' ∨ isSafe d = false)

/-- Urls that differ only in their schemes, in characters that no file name needs, and behind their first 200. -/
def SameName (url url' : List Char) : Prop :=
  List.Forall₂ Alike ((schemeless url).take 200) ((schemeless url').take 200)

theorem safe_eq_iff (c d : Char) :
    (if isSafe c then c else '_') = (if isSafe d then d else '_') ↔ Alike c d := by
  have hblank : isSafe '_' = true := by decide
  unfold Alike
  cases hc : isSafe c with
  | true =>
    cases hd : isSafe d with
    | true =>
      refine ⟨fun h => .inl h, ?_⟩
      rintro (h | ⟨hc' | hc', hd' | hd'⟩)
      · exact h
      · exact hc'.trans hd'.symm
      · cases hd'
      · cases hc'
      · cases hc'
    | false =>
      refine ⟨fun h => .inr ⟨.inl h, .inr rfl⟩, ?_⟩
      rintro (rfl | ⟨hc' | hc', _⟩)
      · rw [hc] at hd
        cases hd
      · exact hc'
      · cases hc'
  | false =>
    cases hd : isSafe d with
    | true =>
      refine ⟨fun h => .inr ⟨.inr rfl, .inl h.symm⟩, ?_⟩
      rintro (rfl | ⟨_, hd' | hd'⟩)
      · rw [hc] at hd
        cases hd
      · exact hd'.symm
      · cases hd'
    | false => exact ⟨fun _ => .inr ⟨.inr rfl, .inr rfl⟩, fun _ => rfl⟩

/-- **Two urls have one name.** -/
theorem sanitizeUrlForCache_eq_iff (url url' : List Char) :
    sanitizeUrlForCache url = sanitizeUrlForCache url' ↔ SameName url url' := by
  rw [sanitizeUrlForCache, sanitizeUrlForCache, List.append_left_inj, ← List.map_take, ← List.map_take,
    ← List.forall₂_eq_eq_eq, List.forall₂_map_left_iff, List.forall₂_map_right_iff]
  exact ⟨fun h => h.imp fun c d => (safe_eq_iff c d).mp, fun h => h.imp fun c d => (safe_eq_iff c d).mpr⟩

/-- The name of a cache directory is a plain one. -/
theorem stepsOf_sanitize (url : List Char) : stepsOf (sanitizeUrlForCache url) = [.down (sanitizeUrlForCache url)] := by
  have hlength : 4 ≤ (sanitizeUrlForCache url).length := by
    rw [sanitizeUrlForCache, List.length_append]
    exact Nat.le_add_left _ _
  have hsafe : ∀ c : Char, isSafe (if isSafe c then c else '_') = true := by
    intro c
    split_ifs with hc
    · exact hc
    · decide
  have hgit : ∀ c ∈ ".git".toList, isSafe c = true := List.all_eq_true.mp rfl
  have hplain : ∀ c ∈ sanitizeUrlForCache url, isSafe c = true := by
    intro c hc
    rcases List.mem_append.mp hc with hc | hc
    · obtain ⟨d, _, rfl⟩ := List.mem_map.mp (List.mem_of_mem_take hc)
      exact hsafe d
    · exact hgit c hc
  have hdiffer : ∀ {short : List Char}, short.length < 4 → sanitizeUrlForCache url ≠ short := by
    intro short hshort h
    rw [h] at hlength
    omega
  refine stepsOf_name (hdiffer (by decide)) (hdiffer (by decide)) (hdiffer (by decide)) fun c hc => ⟨?_, ?_⟩
  · rintro rfl
    exact absurd (hplain _ hc) (by decide)
  · rintro rfl
    exact absurd (hplain _ hc) (by decide)

/-! ## What a call changes -/

section Calls

variable {Tree : Type} (dataDir : List Char) (G : Git Tree)

/-- A package directory that a call makes, fills or removes, from some state of the store. -/
def ChangesPackage (c : Call Tree) (dir : List Char) : Prop :=
  ∃ σ : Store Tree, (call dataDir G c σ).2.packages dir ≠ σ.packages dir

/-- A cache directory that a call makes. -/
def ChangesCache (c : Call Tree) (dir : List Char) : Prop :=
  ∃ σ : Store Tree, (call dataDir G c σ).2.caches dir ≠ σ.caches dir

/-- Some repository has a tag for the version. -/
def Tagged (version : List Char) : Prop := ∃ url, (G.tree url ('v' :: version)).isSome

variable {dataDir G}

theorem ensureCache_caches {dir : List Char} {left : Option (List Char)} (F : Faults Tree) (url : List Char) {path : List Char}
    (h : dir ≠ path) : Effect.Keeps (fun σ : Store Tree => σ.caches dir = left) (ensureCache F url path) := by
  refine .bind .get fun σ => .ite (mustRunGit_keeps _ _) (.bind (mustRunGit_keeps _ _) fun _ => .modify fun σ hσ => ?_)
  exact (Function.update_of_ne h _ _).trans hσ

theorem ensureCache_packages {dir : List Char} {left : Option (PackageDir Tree)} (F : Faults Tree) (url path : List Char) :
    Effect.Keeps (fun σ : Store Tree => σ.packages dir = left) (ensureCache F url path) :=
  .bind .get fun _ => .ite (mustRunGit_keeps _ _) (.bind (mustRunGit_keeps _ _) fun _ => .modify fun _ hσ => hσ)

theorem removePackage_keeps_all {I : Store Tree → Prop} (F : Faults Tree) {path : List Char}
    (h : ∀ σ left, I σ → I { σ with packages := Function.update σ.packages path left }) :
    Effect.Keeps I (removePackage F path) := by
  unfold removePackage
  cases F.remove with
  | none => exact Effect.Keeps.modify fun σ hσ => h σ _ hσ
  | some left => exact (Effect.Keeps.modify fun σ hσ => h σ _ hσ).bind fun _ => .throw _

theorem checkoutPackage_keeps_all {I : Store Tree → Prop} (F : Faults Tree) (cache tag : List Char) {path : List Char}
    (url version : List Char) (h : ∀ σ left, I σ → I { σ with packages := Function.update σ.packages path left }) :
    Effect.Keeps I (checkoutPackage G F cache tag path url version) := by
  apply Effect.Keeps.get_bind
  intro σ hσ
  cases hcheckout : F.checkout with
  | some left => exact h σ _ hσ
  | none =>
    cases hcache : σ.caches cache with
    | none => exact hσ
    | some origin =>
      cases htree : cloneTree G σ cache tag with
      | none => exact hσ
      | some tree => exact h σ _ hσ

/-- **A call makes no cache directory but that of its url.** -/
theorem changesCache_eq {c : Call Tree} {dir : List Char} (h : ChangesCache dataDir G c dir) : dir = cacheDir dataDir c.url := by
  obtain ⟨σ, hσ⟩ := h
  by_contra hne
  refine hσ ?_
  have hkeeps : Effect.Keeps (fun τ : Store Tree => τ.caches dir = σ.caches dir) (call dataDir G c) := by
    cases c with
    | package importAlias url version force F =>
      have hpackages : ∀ (τ : Store Tree) (left : Option (PackageDir Tree)), τ.caches dir = σ.caches dir →
          { τ with packages := Function.update τ.packages (storeDir dataDir importAlias version) left }.caches dir =
            σ.caches dir := fun τ left hτ => hτ
      exact .bind (fetchPackage_keeps dataDir (ensureCache_caches F url hne) (removePackage_keeps_all F hpackages)
        (checkoutPackage_keeps_all F _ _ url version hpackages) force) fun _ => .pure _
    | manifest url version F => exact .bind (fetchManifest_keeps dataDir (ensureCache_caches F url hne) version) fun _ => .pure _
  exact hkeeps σ rfl

/-- A call may make the cache directory of its url. -/
theorem changesCache (dataDir : List Char) (G : Git Tree) (url version : List Char) :
    ChangesCache dataDir G (.manifest url version { listTags := true }) (cacheDir dataDir url) := by
  refine ⟨⟨fun _ => none, fun _ => none⟩, ?_⟩
  show Function.update (fun _ => none) (cacheDir dataDir url) (some url) (cacheDir dataDir url) ≠ none
  rw [Function.update_self]
  exact nofun

/-- To ask for a manifest changes no package directory. -/
theorem not_changesPackage_manifest (url version : List Char) (F : Faults Tree) (dir : List Char) :
    ¬ ChangesPackage dataDir G (.manifest url version F) dir := by
  rintro ⟨σ, hσ⟩
  have hkeeps : Effect.Keeps (fun τ : Store Tree => τ.packages dir = σ.packages dir)
      (call dataDir G (.manifest url version F)) :=
    .bind (fetchManifest_keeps dataDir (ensureCache_packages F url _) version) fun _ => .pure _
  exact hσ (hkeeps σ rfl)

/-- A call may fill the directory of its alias and version, if there is the tag. -/
theorem changesPackage (dataDir importAlias url : List Char) {version : List Char} (htag : Tagged G version) :
    ChangesPackage dataDir G (.package importAlias url version false {}) (storeDir dataDir importAlias version) := by
  obtain ⟨origin, htag⟩ := htag
  obtain ⟨tree, htree⟩ := Option.isSome_iff_exists.mp htag
  refine ⟨⟨fun _ => some origin, fun _ => none⟩, ?_⟩
  generalize hσ : (⟨fun _ => some origin, fun _ => none⟩ : Store Tree) = σ
  have hclone : cloneTree G σ (cacheDir dataDir url) ('v' :: version) = some tree := hσ ▸ htree
  have hensure : ensureCache ({} : Faults Tree) url (cacheDir dataDir url) σ = (.ok (), σ) := hσ ▸ rfl
  have hassert : assertTagExists G {} (cacheDir dataDir url) ('v' :: version) url σ = (.ok (), σ) := by
    show (if false || (cloneTree G σ (cacheDir dataDir url) ('v' :: version)).isNone then _ else _ : Fetch Tree Unit) σ = _
    rw [hclone]
    rfl
  have hpopulate : populatePackage G {} (cacheDir dataDir url) ('v' :: version) (storeDir dataDir importAlias version) url
      version σ = (.ok (), { σ with
        packages := Function.update σ.packages (storeDir dataDir importAlias version) (some ⟨tree, some (origin, version)⟩) }) := by
    have hget : (get : Fetch Tree (Store Tree)) σ = (.ok σ, σ) := rfl
    have hcache : σ.caches (cacheDir dataDir url) = some origin := hσ ▸ rfl
    have hnone : (σ.packages (storeDir dataDir importAlias version)).isNone = true := hσ ▸ rfl
    unfold populatePackage checkoutPackage
    rw [Effect.bind_run, hget]
    dsimp only
    rw [if_pos hnone, if_neg Bool.false_ne_true, Effect.bind_run, hget]
    dsimp only
    rw [hcache, hclone]
    rfl
  have hrevParse : (mustRunGit ({} : Faults Tree).revParse (.resolveFailed ('v' :: version) url) : Fetch Tree Unit) σ =
      (.ok (), σ) := rfl
  have hwipe : wipePackage ({} : Faults Tree) false (storeDir dataDir importAlias version) σ = (.ok (), σ) := rfl
  have hrun : (call dataDir G (.package importAlias url version false {}) σ).2 = { σ with
      packages := Function.update σ.packages (storeDir dataDir importAlias version) (some ⟨tree, some (origin, version)⟩) } := by
    show ((fetchPackage dataDir G {} importAlias url version false >>= fun entry => pure (Fetched.package entry)) σ).2 = _
    unfold fetchPackage
    rw [Effect.bind_run, Effect.bind_run, hensure]
    dsimp only
    rw [Effect.bind_run, hassert]
    dsimp only
    rw [Effect.bind_run, hrevParse]
    dsimp only
    rw [Effect.bind_run, hwipe]
    dsimp only
    rw [Effect.bind_run, hpopulate]
    rfl
  have hdir : Function.update σ.packages (storeDir dataDir importAlias version) (some ⟨tree, some (origin, version)⟩)
      (storeDir dataDir importAlias version) = some ⟨tree, some (origin, version)⟩ := Function.update_self _ _ _
  rw [hrun]
  dsimp only
  rw [hdir, ← hσ]
  exact Option.some_ne_none _

/-- **A call changes no package directory but that of its alias and version**, and that only for a tag that some
repository has. -/
theorem changesPackage_iff {importAlias url version dir : List Char} :
    (∃ force F, ChangesPackage dataDir G (.package importAlias url version force F) dir) ↔
      dir = storeDir dataDir importAlias version ∧ Tagged G version := by
  constructor
  · rintro ⟨force, F, σ, hσ⟩
    have hcache : Effect.Keeps (fun τ : Store Tree => τ.packages dir = σ.packages dir)
        (ensureCache F url (cacheDir dataDir url)) := ensureCache_packages F url _
    constructor
    · by_contra hne
      refine hσ ?_
      have hpackages : ∀ (τ : Store Tree) (left : Option (PackageDir Tree)), τ.packages dir = σ.packages dir →
          Function.update τ.packages (storeDir dataDir importAlias version) left dir = σ.packages dir :=
        fun τ left hτ => (Function.update_of_ne hne _ _).trans hτ
      have hkeeps : Effect.Keeps (fun τ : Store Tree => τ.packages dir = σ.packages dir)
          (call dataDir G (.package importAlias url version force F)) :=
        .bind (fetchPackage_keeps dataDir hcache (removePackage_keeps_all F hpackages)
          (checkoutPackage_keeps_all F _ _ url version hpackages) force) fun _ => .pure _
      exact hkeeps σ rfl
    · by_contra htag
      refine hσ ?_
      -- without a tag every call ends before it touches a package directory
      have hnone : ∀ τ : Store Tree, cloneTree G τ (cacheDir dataDir url) ('v' :: version) = none := by
        intro τ
        unfold cloneTree
        cases τ.caches (cacheDir dataDir url) with
        | none => rfl
        | some origin => exact Option.not_isSome_iff_eq_none.mp fun h => htag ⟨origin, h⟩
      have hkeeps : Effect.Keeps (fun τ : Store Tree => τ.packages dir = σ.packages dir)
          (call dataDir G (.package importAlias url version force F)) := by
        refine .bind (.bind hcache fun _ τ hτ => ?_) fun _ => .pure _
        rw [Effect.bind_run]
        have hthrows : assertTagExists G F (cacheDir dataDir url) ('v' :: version) url τ =
            (.error (.tagNotFound ('v' :: version) url), τ) := by
          show (if F.listTags || (cloneTree G τ (cacheDir dataDir url) ('v' :: version)).isNone then _ else _ : Fetch Tree Unit) τ = _
          rw [hnone, Option.isNone_none, Bool.or_true]
          rfl
        rw [hthrows]
        exact hτ
      exact hkeeps σ rfl
  · rintro ⟨rfl, htag⟩
    exact ⟨false, {}, changesPackage dataDir importAlias url htag⟩

end Calls

/-! ## Installations -/

section Installation

variable {Tree : Type} (cwd : List (List Char)) (dataDir : List Char) (G : Git Tree) (E : Enumeration)
  (root : VslManifest) (fetcher : ManifestFetcher)

/-- The calls of an installation: the manifests that the resolver asks for, and the packages of its lock. -/
inductive Made : Call Tree → Prop
  | manifest {url version F} : Requires root fetcher url version → Made (.manifest url version F)
  | package {lock entry force F} : Resolves E root fetcher (.ok lock) → entry ∈ lock.packages → entry.url ≠ [] →
      Made (.package entry.importAlias entry.url entry.version force F)

/-- **What an installation keeps to**: package directories are inside the store, and cache directories inside the cache,
each for one url. -/
structure StaysInside : Prop where
  packages : ∀ c, Made E root fetcher c → ∀ dir, ChangesPackage dataDir G c dir →
    Places.Inside (placeOf cwd (getPackageStoreDir dataDir)) (placeOf cwd dir)
  caches : ∀ c, Made E root fetcher c → ∀ dir, ChangesCache dataDir G c dir →
    Places.Inside (placeOf cwd (getPackageCacheDir dataDir)) (placeOf cwd dir)
  apart : ∀ c c', Made E root fetcher c → Made E root fetcher c' → c.url ≠ c'.url →
    ∀ dir dir', ChangesCache dataDir G c dir → ChangesCache dataDir G c' dir' → placeOf cwd dir ≠ placeOf cwd dir'

/-- Aliases and versions that lead back into the store if they climb out of it, and urls that have names of their own. -/
structure NamesStay : Prop where
  packages : ∀ lock, Resolves E root fetcher (.ok lock) → ∀ entry ∈ lock.packages, entry.url ≠ [] → Tagged G entry.version →
    Places.Returns (placeOf cwd (getPackageStoreDir dataDir)) (stepsOf (entry.importAlias ++ '@' :: entry.version))
  urls : ∀ url version url' version', Requires root fetcher url version → Requires root fetcher url' version' → url ≠ url' →
    ¬ SameName url url'

variable {cwd dataDir G E root fetcher}

theorem placeOf_storeDir (hdata : '\x00' ∉ dataDir) (importAlias version : List Char) :
    placeOf cwd (storeDir dataDir importAlias version) =
      (stepsOf (importAlias ++ '@' :: version)).foldl Places.go (placeOf cwd (getPackageStoreDir dataDir)) := by
  have hdir : storeDir dataDir importAlias version = getPackageStoreDir dataDir ++ '/' :: (importAlias ++ '@' :: version) :=
    List.append_assoc _ _ _
  rw [hdir]
  refine placeOf_append cwd ?_ (List.append_ne_nil_of_right_ne_nil _ (List.cons_ne_nil _ _)) _
  exact List.not_mem_append hdata (by decide)

theorem placeOf_cacheDir (hdata : '\x00' ∉ dataDir) (url : List Char) :
    placeOf cwd (cacheDir dataDir url) = sanitizeUrlForCache url :: placeOf cwd (getPackageCacheDir dataDir) := by
  have hnul : '\x00' ∉ getPackageCacheDir dataDir := List.not_mem_append hdata (by decide)
  rw [cacheDir, placeOf_append cwd hnul (List.append_ne_nil_of_right_ne_nil _ (List.cons_ne_nil _ _)), stepsOf_sanitize]
  rfl

/-- What the calls of an installation are about, is required. -/
theorem Made.requires {c : Call Tree} (h : Made E root fetcher c) : ∃ version, Requires root fetcher c.url version := by
  cases h with
  | manifest hreq => exact ⟨_, hreq⟩
  | package hlock hentry hurl =>
    obtain ⟨items, t, hsteps, hqueue, rfl⟩ := steps_of_ok hlock
    obtain ⟨url, v, hlookup, rfl⟩ := mem_lock.mp hentry
    obtain ⟨⟨i, hi, rfl, rfl⟩, _⟩ := (selected_of_steps hsteps).holds url v hlookup
    exact ⟨_, requires_of_steps hsteps i (List.mem_append_left _ hi)⟩

end Installation

/-- A repository with every tag. -/
def emptyGit : Git Unit where
  tree _ _ := some ()
  manifestText _ := none
  parseManifest _ := .error []

end Visuall.Packages
