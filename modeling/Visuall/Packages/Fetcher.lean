import Visuall.Lib.Effect
import Visuall.Packages.Resolver

/-!
# Fetching packages

`tools/vslpkg/fetcher.cpp` and the path helpers of `src/vsl_paths.cpp`: clones of repositories under a name made of
their url, and directories of packages under a name made of alias and version.

What the program runs and the file system do is told by `Faults`: which of the steps of a call fail, and what a step
that failed midway has left.  Git itself is correct: a clone has the tags of its origin, and a checkout into an empty
directory leaves the tree of the tag.

* `sanitizeUrlForCache`, `cacheDir`, `storeDir` — the names of the directories;
* `fetchManifest`, `fetchPackage` — the calls.
-/

namespace Visuall.Packages

/-! ## Names of directories -/

/-- What follows the first `://`. -/
def schemeEnd : List Char → Option (List Char)
  | [] => none
  | c :: url => if "://".toList <+: c :: url then some (url.drop 2) else schemeEnd url

/-- The characters that are kept in the name of a cache directory. -/
def isSafe (c : Char) : Bool :=
  'a' ≤ c && c ≤ 'z' || 'A' ≤ c && c ≤ 'Z' || '0' ≤ c && c ≤ '9' || c = '.' || c = '_' || c = '-'

/-- `sanitizeUrlForCache`. -/
def sanitizeUrlForCache (url : List Char) : List Char :=
  ((((schemeEnd url).getD url).map fun c => if isSafe c then c else '_').take 200) ++ ".git".toList

/-- `normalizePathSep`. -/
def normalizePathSep (path : List Char) : List Char := path.map fun c => if c = '\\' then '/' else c

section Fetcher

variable (dataDir : List Char)

/-- `getPackageCacheDir`. -/
def getPackageCacheDir : List Char := dataDir ++ "/cache".toList

/-- `getPackageStoreDir`. -/
def getPackageStoreDir : List Char := dataDir ++ "/packages".toList

/-- `cacheDir`. -/
def cacheDir (gitUrl : List Char) : List Char := getPackageCacheDir dataDir ++ '/' :: sanitizeUrlForCache gitUrl

/-- `storeDir`. -/
def storeDir (importAlias version : List Char) : List Char :=
  getPackageStoreDir dataDir ++ '/' :: importAlias ++ '@' :: version

/-! ## Repositories, and what is kept of them -/

/-- The repositories behind the urls, and what is read of a tree. -/
structure Git (Tree : Type) where
  tree : (url tag : List Char) → Option Tree
  manifestText : Tree → Option (List Char)
  parseManifest : List Char → Except (List Char) VslManifest

variable {Tree : Type} (G : Git Tree)

/-- A package directory.  `origin` is not in the code: it tells which repository and version have been checked out
there, unless that was not completed. -/
structure PackageDir (Tree : Type) where
  content : Tree
  origin : Option (List Char × List Char)

/-- The directories by their paths: of a clone the url of its origin. -/
structure Store (Tree : Type) where
  caches : List Char → Option (List Char)
  packages : List Char → Option (PackageDir Tree)

/-- Which steps of a call fail; and what is then left of a directory. -/
structure Faults (Tree : Type) where
  update : Bool := false
  clone : Bool := false
  listTags : Bool := false
  revParse : Bool := false
  remove : Option (Option Tree) := none
  createDirs : Bool := false
  checkout : Option Tree := none
  showFile : Bool := false
  writeTemp : Bool := false

/-- The `PackageError`s, without the output of git. -/
inductive FetchError
  | updateFailed (url : List Char)
  | cloneFailed (url : List Char)
  | tagNotFound (tag url : List Char)
  | resolveFailed (tag url : List Char)
  | removeFailed (dir : List Char)
  | createFailed (dir : List Char)
  | checkoutFailed (tag url : List Char)
  | noManifest (url version : List Char)
  | cannotWrite
  | badManifest (message : List Char)

/-- A call: it may end with an error, and the directories stay as they are then. -/
abbrev Fetch (Tree : Type) := ExceptT FetchError (StateM (Store Tree))

/-! ## Calls -/

/-- `mustRunGit`, where nothing but the exit code matters. -/
def mustRunGit (fails : Bool) (e : FetchError) : Fetch Tree Unit := if fails then throw e else pure ()

/-- `ensureCache`. -/
def ensureCache (F : Faults Tree) (gitUrl cachePath : List Char) : Fetch Tree Unit := do
  if ((← get).caches cachePath).isSome then mustRunGit F.update (.updateFailed gitUrl)
  else
    mustRunGit F.clone (.cloneFailed gitUrl)
    modify fun σ => { σ with caches := Function.update σ.caches cachePath (some gitUrl) }

/-- The tree of a tag in a clone, which is that of its origin. -/
def cloneTree (σ : Store Tree) (cache tag : List Char) : Option Tree :=
  (σ.caches cache).bind fun origin => G.tree origin tag

/-- `assertTagExists`. -/
def assertTagExists (F : Faults Tree) (cachePath tag gitUrl : List Char) : Fetch Tree Unit := do
  if F.listTags || (cloneTree G (← get) cachePath tag).isNone then throw (.tagNotFound tag gitUrl)
  else pure ()

/-- `fetchManifest`. -/
def fetchManifest (F : Faults Tree) (gitUrl version : List Char) : Fetch Tree VslManifest := do
  let tag := 'v' :: version
  let cache := cacheDir dataDir gitUrl
  ensureCache F gitUrl cache
  assertTagExists G F cache tag gitUrl
  match (cloneTree G (← get) cache tag).bind G.manifestText with
  | none => throw (.noManifest gitUrl version)
  | some content =>
    mustRunGit F.showFile (.noManifest gitUrl version)
    if F.writeTemp then throw .cannotWrite
    else
      match G.parseManifest content with
      | .error message => throw (.badManifest message)
      | .ok m => return m

/-- `fs::remove_all` of a package directory that exists. -/
def removePackage (F : Faults Tree) (pkgDir : List Char) : Fetch Tree Unit :=
  match F.remove with
  | none => modify fun σ => { σ with packages := Function.update σ.packages pkgDir none }
  | some left => do
    modify fun σ => { σ with packages := Function.update σ.packages pkgDir (left.map fun t => ⟨t, none⟩) }
    throw (.removeFailed pkgDir)

/-- The checkout of a tag into a package directory that has been made for it. -/
def checkoutPackage (F : Faults Tree) (cache tag pkgDir gitUrl version : List Char) : Fetch Tree Unit := do
  let σ ← get
  match F.checkout, σ.caches cache, cloneTree G σ cache tag with
  | none, some origin, some tree =>
    modify fun σ => { σ with packages := Function.update σ.packages pkgDir (some ⟨tree, some (origin, version)⟩) }
  | some left, _, _ => do
    modify fun σ => { σ with packages := Function.update σ.packages pkgDir (some ⟨left, none⟩) }
    throw (.checkoutFailed tag gitUrl)
  | _, _, _ => throw (.checkoutFailed tag gitUrl)

/-- A package directory that exists is wiped by `force`. -/
def wipePackage (F : Faults Tree) (force : Bool) (pkgDir : List Char) : Fetch Tree Unit := do
  if force && ((← get).packages pkgDir).isSome then removePackage F pkgDir else pure ()

/-- A package directory that does not exist is made, and the tag checked out there. -/
def populatePackage (F : Faults Tree) (cache tag pkgDir gitUrl version : List Char) : Fetch Tree Unit := do
  if ((← get).packages pkgDir).isNone then
    if F.createDirs then throw (.createFailed pkgDir)
    else checkoutPackage G F cache tag pkgDir gitUrl version
  else pure ()

/-- `fetchPackage`. -/
def fetchPackage (F : Faults Tree) (importAlias gitUrl version : List Char) (force : Bool) : Fetch Tree LockEntry := do
  let tag := 'v' :: version
  let cache := cacheDir dataDir gitUrl
  let pkgDir := storeDir dataDir importAlias version
  ensureCache F gitUrl cache
  assertTagExists G F cache tag gitUrl
  mustRunGit F.revParse (.resolveFailed tag gitUrl)
  wipePackage F force pkgDir
  populatePackage G F cache tag pkgDir gitUrl version
  return { importAlias := importAlias, url := gitUrl, version := version, dir := normalizePathSep pkgDir }

end Fetcher

end Visuall.Packages
