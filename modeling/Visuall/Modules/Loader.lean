import Visuall.Lib.Split

/-!
# The module loader

`module_loader.cpp`: resolving a module name from an importing file, and loading with a cache.  What the
compiler makes of a source file is a parameter; the file system is a table of regular files.

* `resolve` — the file that a name means for an importing directory;
* `load`, `loadAll` — a call, and a sequence of calls;
* `Cached` — what the cache holds after some calls;
* `loads_bind_iff` — exactly when every call gives the module that `resolve` selects.
-/

namespace Visuall.Modules

/-! ## Paths -/

/-- `getDirectory`: what stands before the last separator. -/
def getDirectory (filepath : List Char) : List Char :=
  match filepath.reverse.dropWhile fun c => c != '/' && c != '\\' with
  | [] => ".".toList
  | _ :: directory => directory.reverse

/-- The components that are left when `.` and `..` are resolved, last first. -/
def resolveComponents : List (List Char) → List (List Char) → List (List Char)
  | components, [] => components
  | components, component :: rest =>
    if component = [] ∨ component = ".".toList then resolveComponents components rest
    else if component = "..".toList then resolveComponents components.tail rest
    else resolveComponents (component :: components) rest

/-- The components put together again. -/
def rebuild (wasAbsolute : Bool) (components : List (List Char)) : List Char :=
  let result := components.foldl (fun result c =>
    result ++ if result = [] ∧ wasAbsolute = false then c else '/' :: c) []
  if result = [] then (if wasAbsolute then "/".toList else ".".toList) else result

/-- `normalizePath`. -/
def normalizePath (path : List Char) : List Char :=
  let result := (path.filter (· != '\x00')).map fun c => if c = '\\' then '/' else c
  let wasAbsolute := path.head?.any fun c => c == '/' || c == '\\'
  rebuild wasAbsolute (resolveComponents [] (splitAll '/' result)).reverse

/-! ## The loader -/

/-- The names that are handled in the compiler. -/
def isStdlibModule (name : List Char) : Bool :=
  ["string".toList, "math".toList, "io".toList, "sys".toList, "collections".toList,
    "random".toList].contains name

/-- A loaded module: `code` is what the compiler made of it, nothing for a built-in one. -/
structure Module (κ : Type) where
  name : List Char
  filepath : List Char
  code : Option κ
  deriving DecidableEq

/-- What the loader is given: the directories, the regular files with their contents, and the compiler, with
the error it throws. -/
structure Setup (κ : Type) where
  stdlibDir : List Char
  searchPaths : List (List Char)
  aliasToDir : List Char → Option (List Char)
  files : List Char → Option (List Char)
  build : List Char → List Char → List Char → Except (List Char) κ

/-- The members of `ModuleLoader` that `load` changes. -/
structure ModuleLoader (κ : Type) where
  cache : AList (fun _ : List Char => Module κ)
  loadingStack : List (List Char)

variable {κ : Type}

/-- The message where no path leads to a file. -/
def notFound (moduleName : List Char) (tried : List (List Char)) : List Char :=
  "Cannot find module '".toList ++ moduleName ++ "'\n  Paths tried:".toList ++
    tried.flatMap fun p => "\n    - ".toList ++ p

/-- The paths that `resolve` tries, in their order. -/
def candidates (S : Setup κ) (moduleName importDir : List Char) : List (List Char) :=
  let relativePath := (moduleName.map fun c => if c = '.' then '/' else c) ++ ".vsl".toList
  let dirs := (S.aliasToDir moduleName).toList ++ importDir :: S.searchPaths ++ [S.stdlibDir]
  dirs.map fun dir => normalizePath (dir ++ '/' :: relativePath)

/-- `ModuleLoader::resolve`. -/
def resolve (S : Setup κ) (moduleName importDir : List Char) : Except (List Char) (List Char) :=
  if moduleName.any fun c => c == '\x00' || c == '/' || c == '\\' then
    .error ("Invalid module name '".toList ++ moduleName ++ "': contains path characters".toList)
  else if (splitAll '.' moduleName).any fun part => part == [] || part == "..".toList then
    .error ("Invalid module name '".toList ++ moduleName ++
      "': contains empty component or '..'".toList)
  else
    match (candidates S moduleName importDir).find? fun path => (S.files path).isSome with
    | some path => .ok path
    | none => .error (notFound moduleName (candidates S moduleName importDir))

/-- `readFile`: carriage returns are stripped. -/
def readFile (S : Setup κ) (path : List Char) : Except (List Char) (List Char) :=
  match S.files path with
  | some contents => .ok (contents.filter (· != '\r'))
  | none => .error ("Could not open module file: ".toList ++ path)

/-- `ModuleLoader::compile`. -/
def compile (S : Setup κ) (moduleName filepath : List Char) : Except (List Char) (Module κ) := do
  let source ← readFile S filepath
  let code ← S.build moduleName filepath source
  pure { name := moduleName, filepath := filepath, code := some code }

/-- The module of a built-in name. -/
def builtin (moduleName : List Char) : Module κ where
  name := moduleName
  filepath := "<builtin:".toList ++ moduleName ++ ">".toList
  code := none

/-- The message of a circular import. -/
def circular (stack : List (List Char)) (moduleName : List Char) : List Char :=
  "Circular import detected: ".toList ++ (stack.flatMap fun m => m ++ " -> ".toList) ++ moduleName

/-- A module is taken into the cache. -/
def ModuleLoader.store (L : ModuleLoader κ) (moduleName : List Char) (mod : Module κ) : ModuleLoader κ :=
  { L with cache := L.cache.insert moduleName mod }

/-- `ModuleLoader::load`. -/
def load (S : Setup κ) (L : ModuleLoader κ) (moduleName importFromFile : List Char) :
    Except (List Char) (Module κ) × ModuleLoader κ :=
  match L.cache.lookup moduleName with
  | some mod => (.ok mod, L)
  | none =>
    if isStdlibModule moduleName then (.ok (builtin moduleName), L.store moduleName (builtin moduleName))
    else if moduleName ∈ L.loadingStack then (.error (circular L.loadingStack moduleName), L)
    else
      match resolve S moduleName (getDirectory importFromFile) with
      | .error e => (.error e, L)
      | .ok filepath =>
        -- the name is on the loading stack while its file is compiled, and off it again in either case
        match compile S moduleName filepath with
        | .ok mod => (.ok mod, L.store moduleName mod)
        | .error e => (.error e, L)

/-- A call of `load`: the module name and the importing file. -/
abbrev Call := List Char × List Char

/-- The loader that is constructed. -/
def ModuleLoader.new : ModuleLoader κ := ⟨∅, []⟩

/-- The calls of a sequence, with what each of them gives. -/
def loadAll (S : Setup κ) : ModuleLoader κ → List Call → List (Call × Except (List Char) (Module κ))
  | _, [] => []
  | L, call :: calls =>
    (call, (load S L call.1 call.2).1) :: loadAll S (load S L call.1 call.2).2 calls

/-! ## Which module a call gives -/

/-- The path that `resolve` selects for a call. -/
def selected (S : Setup κ) (call : Call) : Except (List Char) (List Char) :=
  resolve S call.1 (getDirectory call.2)

/-- The module that a call gives when nothing is in the cache. -/
def fresh (S : Setup κ) (call : Call) : Except (List Char) (Module κ) :=
  match selected S call with
  | .error e => .error e
  | .ok path => compile S call.1 path

/-- What a call gives, if it gives a module that is not built in, is the one compiled from the path that
`resolve` selects. -/
def Binds (S : Setup κ) (call : Call) (result : Except (List Char) (Module κ)) : Prop :=
  isStdlibModule call.1 = false → ∀ mod, result = .ok mod →
    ∃ path, selected S call = .ok path ∧ compile S call.1 path = .ok mod

/-- Two calls that select the same path, if they ask for the same module and the first one finds it. -/
def Agree (S : Setup κ) (call call' : Call) : Prop :=
  isStdlibModule call.1 = false → call.1 = call'.1 → (∃ mod, fresh S call = .ok mod) →
    selected S call' = selected S call

variable {S : Setup κ} {L : ModuleLoader κ} {call : Call} {calls before : List Call} {mod : Module κ}

theorem compile_filepath {moduleName path : List Char} (h : compile S moduleName path = .ok mod) :
    mod.filepath = path := by
  unfold compile at h
  cases hread : readFile S path with
  | error e =>
      rw [hread] at h
      cases h
  | ok source =>
      rw [hread] at h
      cases hbuild : S.build moduleName path source with
      | error e =>
          have h' : (S.build moduleName path source >>= fun code =>
              (pure { name := moduleName, filepath := path, code := some code } :
                Except (List Char) (Module κ))) = .ok mod := h
          rw [hbuild] at h'
          cases h'
      | ok code =>
          have h' : (S.build moduleName path source >>= fun code =>
              (pure { name := moduleName, filepath := path, code := some code } :
                Except (List Char) (Module κ))) = .ok mod := h
          rw [hbuild] at h'
          cases h'
          rfl

theorem fresh_ok (h : fresh S call = .ok mod) :
    ∃ path, selected S call = .ok path ∧ compile S call.1 path = .ok mod := by
  unfold fresh at h
  cases hselected : selected S call with
  | error e =>
      rw [hselected] at h
      cases h
  | ok path =>
      rw [hselected] at h
      exact ⟨path, rfl, h⟩

/-- What the cache holds after some calls: for each name, what the first call that found a module found. -/
structure Cached (S : Setup κ) (before : List Call) (L : ModuleLoader κ) : Prop where
  idle : L.loadingStack = []
  held : ∀ name mod, isStdlibModule name = false → L.cache.lookup name = some mod →
    ∃ call ∈ before, call.1 = name ∧ fresh S call = .ok mod
  complete : ∀ call ∈ before, isStdlibModule call.1 = false → (∃ mod, fresh S call = .ok mod) →
    ∃ mod, L.cache.lookup call.1 = some mod

theorem Cached.new : Cached S [] ModuleLoader.new := by
  refine ⟨rfl, fun name mod _ h => ?_, fun call hcall => absurd hcall List.not_mem_nil⟩
  have hempty : (∅ : AList fun _ : List Char => Module κ).lookup name = some mod := h
  rw [AList.lookup_empty] at hempty
  cases hempty

/-- What a call does to a module that is not built in. -/
theorem load_cases (hidle : L.loadingStack = []) (hname : isStdlibModule call.1 = false) :
    (∃ mod, L.cache.lookup call.1 = some mod ∧ load S L call.1 call.2 = (.ok mod, L)) ∨
      (L.cache.lookup call.1 = none ∧
        ((∃ mod, fresh S call = .ok mod ∧ load S L call.1 call.2 = (.ok mod, L.store call.1 mod)) ∨
          ∃ e, fresh S call = .error e ∧ load S L call.1 call.2 = (.error e, L))) := by
  unfold load
  cases hlookup : L.cache.lookup call.1 with
  | some mod => exact .inl ⟨mod, rfl, rfl⟩
  | none =>
      refine .inr ⟨rfl, ?_⟩
      dsimp only
      rw [hname, hidle, if_neg (by simp), if_neg List.not_mem_nil]
      unfold fresh selected
      cases resolve S call.1 (getDirectory call.2) with
      | error e => exact .inr ⟨e, rfl, rfl⟩
      | ok path =>
          dsimp only
          cases compile S call.1 path with
          | error e => exact .inr ⟨e, rfl, rfl⟩
          | ok mod => exact .inl ⟨mod, rfl, rfl⟩

theorem load_builtin (hname : isStdlibModule call.1 = true) :
    (load S L call.1 call.2).2.loadingStack = L.loadingStack ∧
      ∀ name, name ≠ call.1 → (load S L call.1 call.2).2.cache.lookup name = L.cache.lookup name := by
  unfold load
  cases hlookup : L.cache.lookup call.1 with
  | some mod => exact ⟨rfl, fun _ _ => rfl⟩
  | none =>
      dsimp only
      rw [if_pos hname]
      exact ⟨rfl, fun name hne => AList.lookup_insert_ne hne⟩

/-- **The step, on the cache.** -/
theorem Cached.after (h : Cached S before L) (call : Call) :
    Cached S (before ++ [call]) (load S L call.1 call.2).2 := by
  have hlast : call ∈ before ++ [call] := List.mem_append_right _ (List.mem_singleton_self call)
  cases hname : isStdlibModule call.1 with
  | true =>
      obtain ⟨hidle, hkept⟩ := load_builtin (S := S) (L := L) hname
      have hne : ∀ name, isStdlibModule name = false → name ≠ call.1 := by
        rintro name hfalse rfl
        rw [hname] at hfalse
        cases hfalse
      refine ⟨hidle.trans h.idle, fun name mod hfalse hlookup => ?_, fun c hc hfalse hfound => ?_⟩
      · rw [hkept name (hne name hfalse)] at hlookup
        obtain ⟨c, hc, hc'⟩ := h.held name mod hfalse hlookup
        exact ⟨c, List.mem_append_left _ hc, hc'⟩
      · rw [hkept c.1 (hne c.1 hfalse)]
        rcases List.mem_append.mp hc with hc | hc
        · exact h.complete c hc hfalse hfound
        · rw [List.mem_singleton.mp hc, hname] at hfalse
          cases hfalse
  | false =>
      -- the cache keeps what it has; a name that it has not gets what this call finds
      rcases load_cases (S := S) h.idle hname with
        ⟨mod, hlookup, hload⟩ | ⟨hlookup, ⟨mod, hfresh, hload⟩ | ⟨e, hfresh, hload⟩⟩
      · rw [hload]
        refine ⟨h.idle, fun name mod hfalse hlookup => ?_, fun c hc hfalse hfound => ?_⟩
        · obtain ⟨c, hc, hc'⟩ := h.held name mod hfalse hlookup
          exact ⟨c, List.mem_append_left _ hc, hc'⟩
        · rcases List.mem_append.mp hc with hc | hc
          · exact h.complete c hc hfalse hfound
          · rw [List.mem_singleton.mp hc]
            exact ⟨mod, hlookup⟩
      · rw [hload]
        refine ⟨h.idle, fun name mod' hfalse hlookup' => ?_, fun c hc hfalse hfound => ?_⟩
        · have hinsert : (L.cache.insert call.1 mod).lookup name = some mod' := hlookup'
          by_cases heq : name = call.1
          · subst heq
            rw [AList.lookup_insert] at hinsert
            cases hinsert
            exact ⟨call, hlast, rfl, hfresh⟩
          · rw [AList.lookup_insert_ne heq] at hinsert
            obtain ⟨c, hc, hc'⟩ := h.held name mod' hfalse hinsert
            exact ⟨c, List.mem_append_left _ hc, hc'⟩
        · show ∃ mod', (L.cache.insert call.1 mod).lookup c.1 = some mod'
          by_cases heq : c.1 = call.1
          · rw [heq, AList.lookup_insert]
            exact ⟨mod, rfl⟩
          · rw [AList.lookup_insert_ne heq]
            rcases List.mem_append.mp hc with hc | hc
            · exact h.complete c hc hfalse hfound
            · exact absurd (congrArg Prod.fst (List.mem_singleton.mp hc)) heq
      · rw [hload]
        refine ⟨h.idle, fun name mod hfalse hlookup => ?_, fun c hc hfalse hfound => ?_⟩
        · obtain ⟨c, hc, hc'⟩ := h.held name mod hfalse hlookup
          exact ⟨c, List.mem_append_left _ hc, hc'⟩
        · rcases List.mem_append.mp hc with hc | hc
          · exact h.complete c hc hfalse hfound
          · rw [List.mem_singleton.mp hc, hfresh] at hfound
            obtain ⟨mod, hmod⟩ := hfound
            cases hmod

/-- Two calls that find the module select the same path. -/
def FoundAgree (S : Setup κ) (call call' : Call) : Prop :=
  isStdlibModule call.1 = false → call.1 = call'.1 → (∃ mod, fresh S call = .ok mod) →
    (∃ mod, fresh S call' = .ok mod) → selected S call = selected S call'

instance (S : Setup κ) : Std.Symm (FoundAgree S) where
  symm _ _ h hfalse heq hfound hfound' := (h (heq ▸ hfalse) heq.symm hfound' hfound).symm

theorem found_agree {c c' : Call} (hagree : before.Pairwise (Agree S)) (hc : c ∈ before)
    (hc' : c' ∈ before) (hne : c ≠ c') : FoundAgree S c c' := by
  have hpairwise : before.Pairwise (FoundAgree S) :=
    hagree.imp fun h hfalse heq hfound _ => (h hfalse heq hfound).symm
  exact hpairwise.forall hc hc' hne

/-- **The step, on the result.**  After calls that agree, a call binds exactly when it agrees with them. -/
theorem Cached.binds_iff (h : Cached S before L) (hagree : before.Pairwise (Agree S)) (call : Call) :
    Binds S call (load S L call.1 call.2).1 ↔ ∀ c ∈ before, Agree S c call := by
  cases hname : isStdlibModule call.1 with
  | true =>
      refine ⟨fun _ c _ hfalse heq _ => ?_, fun _ hfalse => ?_⟩
      · rw [heq, hname] at hfalse
        cases hfalse
      · rw [hname] at hfalse
        cases hfalse
  | false =>
      rcases load_cases (S := S) h.idle hname with ⟨mod, hlookup, hload⟩ | ⟨hlookup, hcase⟩
      · -- the module comes from the cache, where some call before has put it
        obtain ⟨c₀, hc₀, hc₀name, hfresh₀⟩ := h.held _ mod hname hlookup
        obtain ⟨path₀, hselected₀, hcompile₀⟩ := fresh_ok hfresh₀
        rw [hload]
        constructor
        · intro hbinds c hc hfalse heq hfound
          obtain ⟨path, hselected, hcompile⟩ := hbinds hname mod rfl
          have hpath : path = path₀ := (compile_filepath hcompile).symm.trans (compile_filepath hcompile₀)
          have hsame : selected S c = selected S c₀ := by
            by_cases hcc : c₀ = c
            · rw [hcc]
            · have hnames : c₀.1 = c.1 := hc₀name.trans heq.symm
              exact (found_agree hagree hc₀ hc hcc (hc₀name ▸ hname) hnames ⟨mod, hfresh₀⟩ hfound).symm
          rw [hsame, hselected₀, hselected, hpath]
        · intro hall _ mod' hmod'
          cases hmod'
          have hselected := hall c₀ hc₀ (hc₀name ▸ hname) hc₀name ⟨mod, hfresh₀⟩
          refine ⟨path₀, hselected.trans hselected₀, ?_⟩
          rw [← hc₀name]
          exact hcompile₀
      · have hnone : ∀ c ∈ before, isStdlibModule c.1 = false → c.1 = call.1 →
            ¬ ∃ mod, fresh S c = .ok mod := by
          intro c hc hfalse heq hfound
          obtain ⟨mod, hmod⟩ := h.complete c hc hfalse hfound
          rw [heq, hlookup] at hmod
          cases hmod
        refine ⟨fun _ c hc hfalse heq hfound => absurd hfound (hnone c hc hfalse heq), fun _ _ mod hmod => ?_⟩
        rcases hcase with ⟨mod', hfresh, hload⟩ | ⟨e, _, hload⟩
        · rw [hload] at hmod
          cases hmod
          exact fresh_ok hfresh
        · rw [hload] at hmod
          cases hmod

/-- **The run.** -/
theorem binds_all_iff (h : Cached S before L) (hagree : before.Pairwise (Agree S)) :
    (∀ r ∈ loadAll S L calls, Binds S r.1 r.2) ↔ (before ++ calls).Pairwise (Agree S) := by
  induction calls generalizing L before with
  | nil =>
      rw [List.append_nil]
      exact ⟨fun _ => hagree, fun _ r hr => absurd hr List.not_mem_nil⟩
  | cons call calls ih =>
      have hstep := h.binds_iff hagree call
      have happend : before ++ call :: calls = before ++ [call] ++ calls := by simp
      have hsplit : (before ++ [call]).Pairwise (Agree S) ↔ ∀ c ∈ before, Agree S c call := by
        rw [List.pairwise_append]
        refine ⟨fun hp c hc => hp.2.2 c hc call (List.mem_singleton_self call), fun hall => ?_⟩
        refine ⟨hagree, List.pairwise_singleton _ _, fun c hc d hd => ?_⟩
        rw [List.mem_singleton.mp hd]
        exact hall c hc
      unfold loadAll
      rw [List.forall_mem_cons, happend, hstep, ← hsplit]
      constructor
      · rintro ⟨hfirst, hrest⟩
        exact (ih (h.after call) hfirst).mp hrest
      · intro hall
        have hfirst : (before ++ [call]).Pairwise (Agree S) := (List.pairwise_append.mp hall).1
        exact ⟨hfirst, (ih (h.after call) hfirst).mpr hall⟩

/-- **Imports bind to the file that resolution selects, exactly when** every later call for a name that an
earlier call has found selects the path that the earlier one selected. -/
theorem loads_bind_iff (S : Setup κ) (calls : List Call) :
    (∀ r ∈ loadAll S ModuleLoader.new calls, Binds S r.1 r.2) ↔ calls.Pairwise (Agree S) :=
  binds_all_iff Cached.new List.Pairwise.nil

/-- Two directories with a module of the same name. -/
def twoDirectories : Setup (List Char) where
  stdlibDir := "stdlib".toList
  searchPaths := []
  aliasToDir _ := none
  files path :=
    if path = "a/util.vsl".toList then some "one".toList
    else if path = "b/util.vsl".toList then some "two".toList
    else none
  build _ _ source := .ok source

/-- The second file gets the module of the first one's directory. -/
theorem second_import_misbound :
    ∃ r ∈ loadAll twoDirectories ModuleLoader.new
        [("util".toList, "a/main.vsl".toList), ("util".toList, "b/main.vsl".toList)],
      ¬ Binds twoDirectories r.1 r.2 := by
  refine ⟨(("util".toList, "b/main.vsl".toList),
    .ok ⟨"util".toList, "a/util.vsl".toList, some "one".toList⟩), ?_, ?_⟩
  · have hrun : loadAll twoDirectories ModuleLoader.new
        [("util".toList, "a/main.vsl".toList), ("util".toList, "b/main.vsl".toList)] =
        [(("util".toList, "a/main.vsl".toList),
            .ok ⟨"util".toList, "a/util.vsl".toList, some "one".toList⟩),
          (("util".toList, "b/main.vsl".toList),
            .ok ⟨"util".toList, "a/util.vsl".toList, some "one".toList⟩)] := by rfl
    rw [hrun]
    exact List.mem_cons_of_mem _ (List.mem_singleton_self _)
  · intro hbinds
    obtain ⟨path, hselected, hcompile⟩ := hbinds (by decide) _ rfl
    have hpath := compile_filepath hcompile
    have hsecond : selected twoDirectories ("util".toList, "b/main.vsl".toList) =
        .ok "b/util.vsl".toList := by rfl
    rw [hsecond] at hselected
    cases hselected
    revert hpath
    decide

end Visuall.Modules
