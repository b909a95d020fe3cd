import Visuall.Lib.Split
import Visuall.Lib.Worklist

/-!
# The dependency resolver

`vsl_resolver.cpp`, with the data of `vsl_manifest.h` that it reads.  An `unordered_map` is an `AList`: the
order of its entries is the order in which a loop over it runs.  The main loop of `resolveDeps` is a
worklist on the items of its queue, with the text `url@version` as the key; the resolved versions are listed
in whatever order an `Enumeration` gives.
-/

namespace Visuall.Packages

/-! ## Semver -/

/-- The white space that `>>` skips. -/
def isSpace (c : Char) : Bool :=
  c == ' ' || c == '\t' || c == '\n' || c == '\x0b' || c == '\x0c' || c == '\r'

/-- The value of decimal digits. -/
def decimal (digits : List Char) : ℕ := digits.foldl (fun n c => 10 * n + (c.toNat - '0'.toNat)) 0

/-- The sign in front of a number, if it is negative, and the text behind it. -/
def readSign : List Char → Bool × List Char
  | '-' :: text => (true, text)
  | '+' :: text => (false, text)
  | text => (false, text)

/-- `ss >> n` for an `int`. -/
def readInt (text : List Char) : Option (ℤ × List Char) :=
  let (negative, text) := readSign (text.dropWhile isSpace)
  let digits := text.takeWhile Char.isDigit
  let value : ℤ := if negative then -decimal digits else decimal digits
  if digits = [] ∨ value < -2147483648 ∨ 2147483647 < value then none
  else some (value, text.dropWhile Char.isDigit)

/-- `ss >> c` for a `char`. -/
def readChar (text : List Char) : Option (Char × List Char) :=
  match text.dropWhile isSpace with
  | [] => none
  | c :: text => some (c, text)

structure Semver where
  major : ℤ
  minor : ℤ
  patch : ℤ
  deriving DecidableEq

/-- `parseSemver`; what follows the third number is not read. -/
def parseSemver (s : List Char) : Option Semver := do
  let (major, s) ← readInt s
  let (sep1, s) ← readChar s
  let (minor, s) ← readInt s
  let (sep2, s) ← readChar s
  let (patch, _) ← readInt s
  if sep1 = '.' ∧ sep2 = '.' then some ⟨major, minor, patch⟩ else none

def semverGreater (a b : Semver) : Bool :=
  if a.major ≠ b.major then b.major < a.major
  else if a.minor ≠ b.minor then b.minor < a.minor
  else b.patch < a.patch

/-! ## Manifests and locks -/

structure GitDep where
  url : List Char
  version : List Char
  deriving DecidableEq

structure PathDep where
  path : List Char
  deriving DecidableEq

inductive Dependency
  | git (dep : GitDep)
  | path (dep : PathDep)
  deriving DecidableEq

structure ManifestPackage where
  name : List Char
  deriving DecidableEq

structure VslManifest where
  package : ManifestPackage
  dependencies : AList (fun _ : List Char => Dependency)

/-- The git dependencies of a manifest under their aliases, in the order in which a loop meets them. -/
def VslManifest.gitDeps (manifest : VslManifest) : List (List Char × GitDep) :=
  manifest.dependencies.entries.filterMap fun entry =>
    match entry.2 with
    | .git dep => some (entry.1, dep)
    | .path _ => none

structure LockEntry where
  importAlias : List Char
  url : List Char
  version : List Char
  dir : List Char
  deriving DecidableEq

structure VslLock where
  packages : List LockEntry
  deriving DecidableEq

/-- `ManifestFetcher`: the manifest, or the message of the `PackageError`. -/
abbrev ManifestFetcher := List Char → List Char → Except (List Char) VslManifest

/-! ## Errors -/

structure WorkItem where
  gitUrl : List Char
  version : List Char
  requiredBy : List Char
  deriving DecidableEq

/-- The errors that `resolveDeps` throws. -/
inductive ResolveError
  | invalidSemver (version requiredBy : List Char)
  | incompatibleMajor (url existing incoming requiredBy : List Char)
  | fetchFailed (item : WorkItem) (message : List Char)
  | aliasConflict (name : List Char)
  deriving DecidableEq

/-- The error that two requirements differ in their major version. -/
def ResolveError.isMajor : ResolveError → Bool
  | .incompatibleMajor .. => true
  | _ => false

/-- The error that a package takes the name of a root alias. -/
def ResolveError.isAliasConflict : ResolveError → Bool
  | .aliasConflict _ => true
  | _ => false

/-! ## The main loop -/

/-- The maps that `resolveDeps` fills. -/
structure Resolution where
  resolvedVersion : AList (fun _ : List Char => List Char)
  urlToAlias : AList (fun _ : List Char => List Char)
  rootAliases : List (List Char)

/-- The version of an item is merged into `resolvedVersion`. -/
def mergeVersion (s : Resolution) (item : WorkItem) : Except ResolveError Resolution :=
  match s.resolvedVersion.lookup item.gitUrl with
  | none => .ok { s with resolvedVersion := s.resolvedVersion.insert item.gitUrl item.version }
  | some version =>
    match parseSemver version, parseSemver item.version with
    | some existing, some incoming =>
      if existing.major ≠ incoming.major then
        .error (.incompatibleMajor item.gitUrl version item.version item.requiredBy)
      else if semverGreater incoming existing then
        .ok { s with resolvedVersion := s.resolvedVersion.insert item.gitUrl item.version }
      else .ok s
    | some _, none => .error (.invalidSemver item.version item.requiredBy)
    | none, _ => .error (.invalidSemver version item.requiredBy)

/-- `url + "@" + ver`. -/
def keyOf (url version : List Char) : List Char := url ++ '@' :: version

/-- A dependency of a fetched manifest gets its alias, if its URL has none yet. -/
def declareDep (manifest : VslManifest) (s : Resolution) (dep : List Char × GitDep) :
    Except ResolveError Resolution :=
  if dep.2.url ∈ s.urlToAlias then .ok s
  else
    -- the name of the package that depends, not of the one that gets the alias
    let generatedAlias := manifest.package.name
    if generatedAlias ∈ s.rootAliases then .error (.aliasConflict generatedAlias)
    else .ok { s with urlToAlias := s.urlToAlias.insert dep.2.url dep.1 }

/-- The items that the dependencies of a manifest put into the queue. -/
def itemsOf (deps : List (List Char × GitDep)) (requiredBy : List Char) : List WorkItem :=
  deps.map fun dep => ⟨dep.2.url, dep.2.version, requiredBy⟩

/-- The manifest of an item is fetched, and its git dependencies are declared and put into the queue. -/
def discover (fetcher : ManifestFetcher) (s : Resolution) (item : WorkItem) :
    Except ResolveError (Resolution × List WorkItem) :=
  match fetcher item.gitUrl item.version with
  | .error message => .error (.fetchFailed item message)
  | .ok manifest =>
    match manifest.gitDeps.foldlM (declareDep manifest) s with
    | .error e => .error e
    | .ok s =>
      .ok (s, itemsOf manifest.gitDeps
        ('\'' :: item.gitUrl ++ "' @ ".toList ++ item.version))

/-- The loop over the queue; `seenUrlVersion` holds the keys. -/
def resolver (fetcher : ManifestFetcher) : Worklist WorkItem (List Char) Resolution ResolveError where
  key item := keyOf item.gitUrl item.version
  meet := mergeVersion
  expand := discover fetcher

/-- A root dependency gets its alias. -/
def declareRoot (s : Resolution) (dep : List Char × GitDep) : Resolution :=
  { s with
    rootAliases := dep.1 :: s.rootAliases
    urlToAlias := s.urlToAlias.insert dep.2.url dep.1 }

/-- The state in which the loop starts. -/
def initial (root : VslManifest) : Worklist.State WorkItem (List Char) Resolution where
  queue := itemsOf root.gitDeps "root vsl.toml".toList
  seen := []
  acc := root.gitDeps.foldl declareRoot ⟨∅, ∅, []⟩

/-! ## The lock -/

/-- The order in which a loop over an `unordered_map` meets its entries. -/
structure Enumeration where
  order : List (List Char × List Char) → List (List Char × List Char)
  perm : ∀ entries, (order entries).Perm entries

/-- The entries of a map. -/
def entriesOf (m : AList (fun _ : List Char => List Char)) : List (List Char × List Char) :=
  m.entries.map fun entry => (entry.1, entry.2)

/-- The lock entry of a resolved version. -/
def lockEntry (s : Resolution) (entry : List Char × List Char) : LockEntry where
  importAlias := (s.urlToAlias.lookup entry.1).getD []
  url := entry.1
  version := entry.2
  dir := []

/-- The lock: the resolved versions, sorted by alias. -/
def lockOf (E : Enumeration) (s : Resolution) : VslLock where
  packages := ((E.order (entriesOf s.resolvedVersion)).map (lockEntry s)).insertionSort
    fun a b => a.importAlias ≤ b.importAlias

/-- `resolveDeps`, as far as the fuel goes. -/
def resolveDeps (E : Enumeration) (fuel : ℕ) (root : VslManifest) (fetcher : ManifestFetcher) :
    Option (Except ResolveError VslLock) :=
  ((resolver fetcher).run fuel (initial root)).map fun out => out.map (lockOf E)

end Visuall.Packages
