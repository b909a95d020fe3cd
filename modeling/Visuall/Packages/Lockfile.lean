import Visuall.Lib.Effect
import Visuall.Lib.TomlLines
import Visuall.Packages.Resolver

/-!
# The lock file

`parseLock` and `writeLock` of `vsl_manifest.cpp`.  The TOML reader is a parameter: it takes the contents of a
file to a value or to the text of its exception.
-/

namespace Visuall.Packages

open Toml

/-! ## Reading -/

/-- `requireString`. -/
def requireString (tbl : Value) (key context : List Char) : Except (List Char) (List Char) :=
  match tbl.find key with
  | none => .error ("Missing required key '".toList ++ key ++ "' in ".toList ++ context)
  | some (.string s) => .ok s
  | some _ => .error ("Key '".toList ++ key ++ "' in ".toList ++ context ++ " must be a string".toList)

/-- `toml::find_or` for a string. -/
def findOr (tbl : Value) (key opt : List Char) : List Char :=
  match tbl.find key with
  | some (.string s) => s
  | _ => opt

/-- The body of the loop over the packages. -/
def parseEntry (lockPath : List Char) (entry : Value) : Except (List Char) LockEntry := do
  let importAlias ← requireString entry "alias".toList ("lock entry in ".toList ++ lockPath)
  let url := findOr entry "url".toList []
  let version := findOr entry "version".toList []
  let dir ← requireString entry "dir".toList ("lock entry in ".toList ++ lockPath)
  return { importAlias, url, version, dir }

/-- `parseLock`; a file that is missing has no contents. -/
def parseLock (reader : List Char → Except (List Char) Value) (lockPath : List Char) : Option (List Char) → Except (List Char) VslLock
  | none => .ok ⟨[]⟩
  | some contents =>
      match reader contents with
      | .error what => .error ("Failed to parse ".toList ++ lockPath ++ ": ".toList ++ what)
      | .ok root =>
          match root.find "package".toList with
          | none => .ok ⟨[]⟩
          | some (.array arr) => (arr.mapM (parseEntry lockPath)).map VslLock.mk
          | some _ => .error (lockPath ++ ": 'package' must be an array of tables".toList)

/-! ## Writing -/

/-- A value with what stands in front of it, and the end of the line. -/
def quoted (start value : List Char) : List Char := start ++ (value ++ "\"\n".toList)

/-- The text of one package. -/
def entryText (entry : LockEntry) : List Char :=
  "[[package]]\n".toList ++
    (quoted "alias   = \"".toList entry.importAlias ++
      ((if entry.url ≠ [] then quoted "url     = \"".toList entry.url ++ quoted "version = \"".toList entry.version else []) ++
        (quoted "dir     = \"".toList entry.dir ++ "\n".toList)))

/-- The text of a lock. -/
def lockText (lock : VslLock) : List Char :=
  "# vsl.lock - generated by vslpkg. Do not edit by hand.\n\n".toList ++ lock.packages.flatMap entryText

/-- What becomes of the output stream. -/
inductive Output
  | written
  | cannotOpen
  | failed
  deriving DecidableEq

/-- `writeLock`: the contents of the file. -/
def writeLock (lock : VslLock) (lockPath : List Char) : Output → Except (List Char) (List Char)
  | .cannotOpen => .error ("Cannot write lock file: ".toList ++ lockPath)
  | .failed => .error ("I/O error while writing lock file: ".toList ++ lockPath)
  | .written => .ok (lockText lock)

/-- `parseLock` of what `writeLock` has written. -/
def readBack (reader : List Char → Except (List Char) Value) (lock : VslLock) (lockPath : List Char) : Except (List Char) VslLock :=
  (writeLock lock lockPath .written).bind fun contents => parseLock reader lockPath (some contents)

/-! ## The text as a document -/

/-- The comment in the first line. -/
def comment : List Char := " vsl.lock - generated by vslpkg. Do not edit by hand.".toList

/-- The lines that are written for a package. -/
def LockEntry.fields (entry : LockEntry) : List Field :=
  ⟨"alias".toList, "   ".toList, entry.importAlias⟩ ::
    ((if entry.url ≠ [] then [⟨"url".toList, "     ".toList, entry.url⟩, ⟨"version".toList, " ".toList, entry.version⟩] else []) ++
      [⟨"dir".toList, "     ".toList, entry.dir⟩])

/-- A package without the version that is not written. -/
def LockEntry.locked (entry : LockEntry) : LockEntry := if entry.url = [] then { entry with version := [] } else entry

theorem LockEntry.fields_of_nil {entry : LockEntry} (h : entry.url = []) :
    entry.fields = [⟨"alias".toList, "   ".toList, entry.importAlias⟩, ⟨"dir".toList, "     ".toList, entry.dir⟩] := by
  rw [LockEntry.fields, if_neg (not_not.mpr h), List.nil_append]

theorem LockEntry.fields_of_ne {entry : LockEntry} (h : entry.url ≠ []) :
    entry.fields = [⟨"alias".toList, "   ".toList, entry.importAlias⟩, ⟨"url".toList, "     ".toList, entry.url⟩,
      ⟨"version".toList, " ".toList, entry.version⟩, ⟨"dir".toList, "     ".toList, entry.dir⟩] := by
  rw [LockEntry.fields, if_pos h, List.cons_append, List.cons_append, List.nil_append]

theorem quoted_eq {start key pad : List Char} (h : start = key ++ (pad ++ ['=', ' ', '"'])) (value : List Char) :
    quoted start value = Field.text ⟨key, pad, value⟩ := by
  rw [h]
  rfl

/-- The text of a package is that of its lines. -/
theorem entryText_eq (entry : LockEntry) : entryText entry = tableText "package".toList entry.fields := by
  have halias : "alias   = \"".toList = "alias".toList ++ ("   ".toList ++ ['=', ' ', '"']) := rfl
  have hurl : "url     = \"".toList = "url".toList ++ ("     ".toList ++ ['=', ' ', '"']) := rfl
  have hversion : "version = \"".toList = "version".toList ++ (" ".toList ++ ['=', ' ', '"']) := rfl
  have hdir : "dir     = \"".toList = "dir".toList ++ ("     ".toList ++ ['=', ' ', '"']) := rfl
  refine congrArg₂ (· ++ ·) (rfl : "[[package]]\n".toList = header "package".toList) ?_
  rw [quoted_eq halias, quoted_eq hurl, quoted_eq hversion, quoted_eq hdir]
  by_cases hempty : entry.url = []
  · rw [LockEntry.fields_of_nil hempty, if_neg (not_not.mpr hempty), List.flatMap_cons, List.flatMap_singleton, List.append_assoc]
    rfl
  · rw [LockEntry.fields_of_ne hempty, if_pos hempty, List.flatMap_cons, List.flatMap_cons, List.flatMap_cons, List.flatMap_singleton]
    simp only [List.append_assoc]
    rfl

/-- The text of a lock is a document. -/
theorem lockText_eq (lock : VslLock) :
    lockText lock = document comment "package".toList (lock.packages.map LockEntry.fields) := by
  have hcomment : comment = " vsl.lock - generated by vslpkg. Do not edit by hand.".toList := rfl
  have hstart : "# vsl.lock - generated by vslpkg. Do not edit by hand.\n\n".toList = '#' :: (comment ++ ['\n', '\n']) := by
    rw [hcomment]
    simp
  have htables : lock.packages.flatMap entryText = (lock.packages.map LockEntry.fields).flatMap (tableText "package".toList) := by
    rw [List.flatMap_map]
    exact List.flatMap_congr fun e _ => entryText_eq e
  show "# vsl.lock - generated by vslpkg. Do not edit by hand.\n\n".toList ++ lock.packages.flatMap entryText = _
  rw [hstart, htables, document, List.cons_append, List.append_assoc]
  rfl

theorem comment_ok : ∀ c ∈ comment, isComment c = true := List.all_eq_true.mp rfl

theorem package_bare : ∀ c ∈ "package".toList, isBare c = true := List.all_eq_true.mp rfl

theorem LockEntry.fields_formed (entry : LockEntry) : Formed entry.fields := by
  have halias : "alias".toList ≠ [] ∧ (∀ c ∈ "alias".toList, isBare c = true) ∧ ∀ c ∈ "   ".toList, c = ' ' ∨ c = '\t' := by
    simp [isBare]
  have hurl : "url".toList ≠ [] ∧ (∀ c ∈ "url".toList, isBare c = true) ∧ ∀ c ∈ "     ".toList, c = ' ' ∨ c = '\t' := by
    simp [isBare]
  have hversion : "version".toList ≠ [] ∧ (∀ c ∈ "version".toList, isBare c = true) ∧ ∀ c ∈ " ".toList, c = ' ' ∨ c = '\t' := by
    simp [isBare]
  have hdir : "dir".toList ≠ [] ∧ (∀ c ∈ "dir".toList, isBare c = true) ∧ ∀ c ∈ "     ".toList, c = ' ' ∨ c = '\t' := by
    simp [isBare]
  by_cases hempty : entry.url = []
  · rw [LockEntry.fields_of_nil hempty]
    refine ⟨?_, by simp⟩
    exact List.forall_mem_cons.mpr ⟨halias, List.forall_mem_cons.mpr ⟨hdir, List.forall_mem_nil _⟩⟩
  · rw [LockEntry.fields_of_ne hempty]
    refine ⟨?_, by simp⟩
    exact List.forall_mem_cons.mpr ⟨halias, List.forall_mem_cons.mpr ⟨hurl, List.forall_mem_cons.mpr ⟨hversion,
      List.forall_mem_cons.mpr ⟨hdir, List.forall_mem_nil _⟩⟩⟩⟩

/-! ## Reading back -/

theorem requireString_ok {tbl : Value} {key s : List Char} (context : List Char) :
    requireString tbl key context = .ok s ↔ tbl.find key = some (.string s) := by
  rw [requireString.eq_def]
  cases hfind : tbl.find key with
  | none => simp
  | some v => cases v <;> simp

theorem findOr_of_some {tbl : Value} {key s : List Char} (h : tbl.find key = some (.string s)) (opt : List Char) : findOr tbl key opt = s := by
  rw [findOr.eq_def, h]

theorem findOr_of_none {tbl : Value} {key : List Char} (h : tbl.find key = none) (opt : List Char) : findOr tbl key opt = opt := by
  rw [findOr.eq_def, h]

/-- A text that is not the default is there. -/
theorem find_of_findOr {tbl : Value} {key : List Char} (h : findOr tbl key [] ≠ []) : tbl.find key = some (.string (findOr tbl key [])) := by
  rw [findOr.eq_def] at h ⊢
  cases hfind : tbl.find key with
  | none => exact absurd (by rw [hfind]) h
  | some v =>
      rw [hfind] at h
      cases v with
      | string s => rfl
      | array items => exact absurd rfl h
      | table entries => exact absurd rfl h
      | other => exact absurd rfl h

theorem parseEntry_iff {lockPath : List Char} {item : Value} {entry : LockEntry} :
    parseEntry lockPath item = .ok entry ↔ item.find "alias".toList = some (.string entry.importAlias) ∧
      item.find "dir".toList = some (.string entry.dir) ∧ findOr item "url".toList [] = entry.url ∧
        findOr item "version".toList [] = entry.version := by
  have hdef : parseEntry lockPath item = requireString item "alias".toList ("lock entry in ".toList ++ lockPath) >>= fun importAlias =>
      requireString item "dir".toList ("lock entry in ".toList ++ lockPath) >>= fun dir =>
        .ok ⟨importAlias, findOr item "url".toList [], findOr item "version".toList [], dir⟩ := rfl
  rw [hdef]
  constructor
  · intro h
    obtain ⟨importAlias, halias, h⟩ := Effect.ok_of_bind h
    obtain ⟨dir, hdir, h⟩ := Effect.ok_of_bind h
    obtain rfl := Except.ok.inj h
    exact ⟨(requireString_ok _).mp halias, (requireString_ok _).mp hdir, rfl, rfl⟩
  · rintro ⟨halias, hdir, hurl, hversion⟩
    rw [(requireString_ok _).mpr halias, Effect.ok_bind, (requireString_ok _).mpr hdir, Effect.ok_bind, hurl, hversion]

/-- An element with the lines of a package is read as the package, without a version that was not written. -/
theorem parseEntry_fields {entry : LockEntry} {item : Value} (lockPath : List Char)
    (h : ∀ key, item.find key = (fieldValue key entry.fields).map Value.string) : parseEntry lockPath item = .ok entry.locked := by
  have hmem : ∀ f ∈ entry.fields, item.find f.key = some (.string f.value) := fun f hf => by
    rw [h, fieldValue_of_mem entry.fields_formed.2 hf]
    rfl
  rw [parseEntry_iff, LockEntry.locked]
  by_cases hempty : entry.url = []
  · have hfields := LockEntry.fields_of_nil hempty
    rw [hfields] at hmem
    obtain ⟨halias, hrest⟩ := List.forall_mem_cons.mp hmem
    have hnone : ∀ key ∈ ["url".toList, "version".toList], item.find key = none := fun key hkey => by
      rw [h, hfields, fieldValue_of_notMem, Option.map_none]
      simp only [List.mem_cons, List.not_mem_nil, or_false] at hkey
      rcases hkey with rfl | rfl <;> simp
    rw [if_pos hempty]
    refine ⟨halias, hrest _ List.mem_cons_self, ?_, ?_⟩
    · rw [findOr_of_none (hnone _ List.mem_cons_self)]
      exact hempty.symm
    · exact findOr_of_none (hnone _ (by simp)) []
  · rw [LockEntry.fields_of_ne hempty] at hmem
    obtain ⟨halias, hrest⟩ := List.forall_mem_cons.mp hmem
    obtain ⟨hurl, hrest⟩ := List.forall_mem_cons.mp hrest
    obtain ⟨hversion, hrest⟩ := List.forall_mem_cons.mp hrest
    rw [if_neg hempty]
    exact ⟨halias, hrest _ List.mem_cons_self, findOr_of_some hurl [], findOr_of_some hversion []⟩

/-- What a package that was read says of the element. -/
theorem find_of_parseEntry {entry : LockEntry} {item : Value} {lockPath : List Char} (h : parseEntry lockPath item = .ok entry) :
    ∀ f ∈ entry.fields, f.value ≠ [] → item.find f.key = some (.string f.value) := by
  obtain ⟨halias, hdir, hurl, hversion⟩ := parseEntry_iff.mp h
  intro f hf hne
  by_cases hempty : entry.url = []
  · rw [LockEntry.fields_of_nil hempty] at hf
    simp only [List.mem_cons, List.not_mem_nil, or_false] at hf
    rcases hf with rfl | rfl
    · exact halias
    · exact hdir
  · rw [LockEntry.fields_of_ne hempty] at hf
    simp only [List.mem_cons, List.not_mem_nil, or_false] at hf
    rcases hf with rfl | rfl | rfl | rfl
    · exact halias
    · rw [← hurl] at hne ⊢
      exact find_of_findOr hne
    · rw [← hversion] at hne ⊢
      exact find_of_findOr hne
    · exact hdir

section RoundTrip

variable {reader : List Char → Except (List Char) Value} {lockPath : List Char}

/-- The characters of a package stand for themselves, and only a package with a URL has a version. -/
def LockEntry.Plain (entry : LockEntry) : Prop :=
  (∀ c ∈ entry.importAlias ++ (entry.url ++ (entry.version ++ entry.dir)), isPlain c = true) ∧ (entry.url = [] → entry.version = [])

theorem LockEntry.fields_plain {entry : LockEntry} : entry.Plain ↔ (∀ f ∈ entry.fields, f.Plain) ∧ entry.locked = entry := by
  rw [LockEntry.Plain, List.forall_mem_append, List.forall_mem_append, List.forall_mem_append, LockEntry.locked]
  by_cases hempty : entry.url = []
  · rw [LockEntry.fields_of_nil hempty, if_pos hempty, List.forall_mem_cons, List.forall_mem_singleton]
    constructor
    · rintro ⟨⟨halias, -, -, hdir⟩, hversion⟩
      refine ⟨⟨halias, hdir⟩, ?_⟩
      rw [← hversion hempty]
    · rintro ⟨⟨halias, hdir⟩, hlocked⟩
      have hversion : entry.version = [] := (congrArg LockEntry.version hlocked).symm
      rw [hempty, hversion]
      exact ⟨⟨halias, List.forall_mem_nil _, List.forall_mem_nil _, hdir⟩, fun _ => rfl⟩
  · rw [LockEntry.fields_of_ne hempty, if_neg hempty, List.forall_mem_cons, List.forall_mem_cons, List.forall_mem_cons,
      List.forall_mem_singleton]
    constructor
    · rintro ⟨⟨halias, hurl, hversion, hdir⟩, -⟩
      exact ⟨⟨halias, hurl, hversion, hdir⟩, rfl⟩
    · rintro ⟨⟨halias, hurl, hversion, hdir⟩, -⟩
      exact ⟨⟨halias, hurl, hversion, hdir⟩, fun h => absurd h hempty⟩

theorem readBack_eq (lock : VslLock) : readBack reader lock lockPath =
    parseLock reader lockPath (some (document comment "package".toList (lock.packages.map LockEntry.fields))) := by
  rw [← lockText_eq]
  rfl

theorem package_ne : "package".toList ≠ [] := by simp

/-- Packages of plain texts are read back, without the versions that were not written. -/
theorem readBack_of_plain (hr : IsReader reader) {lock : VslLock} (h : ∀ e ∈ lock.packages, ∀ f ∈ e.fields, f.Plain) :
    readBack reader lock lockPath = .ok ⟨lock.packages.map LockEntry.locked⟩ := by
  obtain ⟨root, hread, hnone, hsome⟩ := hr.reads comment "package".toList (lock.packages.map LockEntry.fields) comment_ok package_ne
    package_bare (List.forall_mem_map.mpr fun e he => ⟨e.fields_formed, h e he⟩)
  rw [readBack_eq, parseLock.eq_def]
  dsimp only
  rw [hread]
  dsimp only
  cases hpackages : lock.packages with
  | nil =>
      rw [hnone (by rw [hpackages, List.map_nil])]
      rfl
  | cons e es =>
      obtain ⟨items, hitems, hall⟩ := hsome (by rw [hpackages]; exact List.cons_ne_nil _ _)
      rw [hitems, ← hpackages]
      have hparsed : List.Forall₂ (fun item entry => parseEntry lockPath item = .ok entry) items (lock.packages.map LockEntry.locked) := by
        rw [List.forall₂_map_right_iff]
        rw [List.forall₂_map_left_iff] at hall
        exact hall.flip.imp fun item entry hitem => parseEntry_fields lockPath hitem
      dsimp only
      rw [Effect.mapM_of_forall₂ hparsed]
      rfl

/-- A lock that is read back has plain texts in its lines. -/
theorem plain_of_readBack (hr : IsReader reader) {lock : VslLock} (h : readBack reader lock lockPath = .ok lock) :
    ∀ e ∈ lock.packages, ∀ f ∈ e.fields, f.Plain := by
  rw [readBack_eq, parseLock.eq_def] at h
  dsimp only at h
  split at h
  · cases h
  · next root hread =>
      split at h
      · obtain rfl := Except.ok.inj h
        exact List.forall_mem_nil _
      · next items hitems =>
          have hparsed : List.Forall₂ (fun item entry => parseEntry lockPath item = .ok entry) items lock.packages := by
            cases hmap : items.mapM (parseEntry lockPath) with
            | error message =>
                rw [hmap] at h
                cases h
            | ok entries =>
                rw [hmap] at h
                obtain rfl := Except.ok.inj h
                exact Effect.forall₂_of_mapM hmap
          have hall := hr.plain comment_ok package_ne package_bare (List.forall_mem_map.mpr fun e _ => e.fields_formed) hread ?_
          · exact fun e he => hall _ (List.mem_map_of_mem he)
          · intro pre fs post hsplit f hf hne
            obtain ⟨es, rest, hpackages, rfl, hrest⟩ := List.map_eq_append_iff.mp hsplit
            obtain ⟨e, es', rfl, rfl, -⟩ := List.map_eq_cons_iff.mp hrest
            obtain ⟨hlen, hget⟩ := List.forall₂_iff_get.mp hparsed
            have hi : es.length < lock.packages.length := by
              rw [hpackages, List.length_append, List.length_cons]
              omega
            have he : lock.packages.get ⟨es.length, hi⟩ = e := by
              simp only [hpackages, List.get_eq_getElem, List.getElem_append_right le_rfl, Nat.sub_self, List.getElem_cons_zero]
            have hitem := hget es.length (hlen ▸ hi) hi
            rw [he] at hitem
            exact ⟨items, _, hitems, by rw [List.length_map]; exact List.getElem?_eq_getElem (hlen ▸ hi), find_of_parseEntry hitem f hf hne⟩
      · cases h

/-- **The round trip of the lock file**, for every correct reader. -/
theorem readBack_iff (hr : IsReader reader) (lock : VslLock) (lockPath : List Char) :
    readBack reader lock lockPath = .ok lock ↔ ∀ e ∈ lock.packages, e.Plain := by
  constructor
  · intro h
    have hplain := plain_of_readBack hr h
    rw [readBack_of_plain hr hplain] at h
    have hlocked : lock.packages.map LockEntry.locked = lock.packages.map id := by
      rw [List.map_id]
      exact congrArg VslLock.packages (Except.ok.inj h)
    exact fun e he => LockEntry.fields_plain.mpr ⟨hplain e he, List.map_inj_left.mp hlocked e he⟩
  · intro h
    have hfields := fun e he => LockEntry.fields_plain.mp (h e he)
    rw [readBack_of_plain hr fun e he => (hfields e he).1]
    have hlocked : lock.packages.map LockEntry.locked = lock.packages.map id := List.map_inj_left.mpr fun e he => (hfields e he).2
    rw [hlocked, List.map_id]

end RoundTrip

/-- A package with a URL in a directory. -/
def pathsPackage (dir : List Char) : VslLock :=
  ⟨[⟨"paths".toList, "https://example.org/paths".toList, "1.0.0".toList, dir⟩]⟩

theorem readBack_iff_instance : readBack readDocument (pathsPackage "/pkgs/paths".toList) "vsl.lock".toList = .ok (pathsPackage "/pkgs/paths".toList) := by
  refine (readBack_iff isReader_readDocument _ _).mpr (List.forall_mem_singleton.mpr ⟨?_, fun h => absurd h (by simp)⟩)
  exact List.all_eq_true.mp rfl

/-- A directory with backslashes is not read back. -/
theorem not_readBack : readBack readDocument (pathsPackage "C:\\pkgs\\paths".toList) "vsl.lock".toList ≠ .ok (pathsPackage "C:\\pkgs\\paths".toList) := by
  intro h
  have hplain := plain_of_readBack isReader_readDocument h _ List.mem_cons_self ⟨"dir".toList, "     ".toList, "C:\\pkgs\\paths".toList⟩ (by
    rw [LockEntry.fields]
    exact List.mem_cons_of_mem _ (List.mem_append_right _ List.mem_cons_self))
  exact absurd (hplain '\\' (by simp)) (by decide)

end Visuall.Packages
