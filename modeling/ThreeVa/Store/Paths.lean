import ThreeVa.Permissions.Path
import ThreeVa.Pm.Install

/-!
# Where packages are put

The directory of a package in `node_modules` (`pm/src/lib.rs`) and in the content store (`pm/src/store.rs`). Paths are
those of Unix: `/` alone separates components.
-/

namespace ThreeVa.Store
open Text Permissions

/-! ## `node_modules` -/

/-- The components that a relative path adds to one it is joined to. -/
def segments (s : Str) : List Seg :=
  (s.splitOn '/').filterMap fun part =>
    if part = [] || part = ['.'] then none else if part = ['.', '.'] then some .parentDir else some (.normal part)

theorem curDir_not_mem_segments (s : Str) : .curDir ∉ segments s := by
  unfold segments
  simp only [List.mem_filterMap, not_exists, not_and]
  intro part _
  split
  · simp
  · split <;> simp

/-- `Path::join` on an absolute path. -/
def joinStr (base : PathBuf) (h : base.absolute = true) (s : Str) : PathBuf :=
  if s.head? = some '/' then ⟨true, segments s, by simpa using curDir_not_mem_segments s⟩
  else
    { absolute := true
      segs := base.segs ++ segments s
      curDir_first := by
        have hbase := base.curDir_first
        rw [h] at hbase
        simpa using ⟨hbase, curDir_not_mem_segments s⟩ }

/-- One component; a `..` with nothing to pop stays, and is popped by the next one. -/
def pushComponent (out : List Seg) : Seg → List Seg
  | .curDir => out
  | .parentDir => if out.isEmpty then [.parentDir] else out.dropLast
  | .normal name => out ++ [.normal name]

theorem curDir_not_mem_foldl {segs out : List Seg} (h : .curDir ∉ out) : .curDir ∉ segs.foldl pushComponent out := by
  induction segs generalizing out with
  | nil => exact h
  | cons seg segs ih =>
      apply ih
      cases seg with
      | curDir => exact h
      | parentDir =>
          change Seg.curDir ∉ if out.isEmpty then [Seg.parentDir] else out.dropLast
          split
          · simp
          · exact fun hmem => h (List.mem_of_mem_dropLast hmem)
      | normal name => simpa [pushComponent] using h

def lexicallyNormalize (p : PathBuf) : PathBuf where
  absolute := p.absolute
  segs := p.segs.foldl pushComponent []
  curDir_first := fun h => curDir_not_mem_foldl List.not_mem_nil (List.mem_of_mem_drop h)

def startsWith (p base : PathBuf) : Bool := p.absolute = base.absolute && base.segs.isPrefixOf p.segs

/-- A component that is a name: neither empty nor `.` nor `..`. -/
def isName (part : Str) : Bool := !part.isEmpty && part ≠ ['.'] && part ≠ ['.', '.']

/-- The path of a `node_modules` directory: absolute, and normalised to names. -/
structure NodeModules where
  names : List Str
  named : ∀ n ∈ names, isName n = true

namespace NodeModules

def path (nm : NodeModules) : PathBuf where
  absolute := true
  segs := nm.names.map .normal
  curDir_first := by simp

theorem path_absolute (nm : NodeModules) : nm.path.absolute = true := rfl

def safeNodeModulesPath (nm : NodeModules) (name : Str) : Except Str PathBuf :=
  let dest := lexicallyNormalize (joinStr nm.path nm.path_absolute name)
  if startsWith dest nm.path then .ok dest
  else
    .error ("Refusing to install package '".toList ++ name ++ "': resolved path escapes node_modules".toList)

end NodeModules

/-! ## The content store -/

def safeName (name : Str) : Str := name.map fun c => if c = '/' then '+' else c

def safeVersion (version : Str) : Str := version.map fun c => if c = '/' || c = '\\' then '_' else c

/-- `trim_start_matches` of a text, at most `n` times. -/
def trimStartTimes (pat : Str) : Nat → Str → Str
  | 0, s => s
  | n + 1, s =>
      match stripPrefix pat s with
      | some rest => trimStartTimes pat n rest
      | none => s

def trimStartMatches (pat s : Str) : Str := trimStartTimes pat s.length s

def safeRegistry (registry : Str) : Str :=
  ((trimStartMatches "http://".toList (trimStartMatches "https://".toList registry)).splitOn '/').headD registry

/-- The components of `package_path` below the root of the store. -/
def packagePath (registry name version : Str) : List Seg :=
  segments (safeRegistry registry) ++ segments (safeName name ++ "@".toList ++ safeVersion version)

end ThreeVa.Store

/-!
## Paths derived from versions

The paths that the installer of `pm/src/lib.rs` and the store of `pm/src/store.rs` write or copy to, from the name of a
package and the version that a registry answers.
-/

namespace ThreeVa.Store
open Text Permissions

/-- An absolute path that is normalised to names: a project, or the content store. -/
structure Root where
  names : List Str
  named : ∀ n ∈ names, isName n = true

/-- A directory below it. -/
def Root.dir (r : Root) (dirs : List Str) : PathBuf where
  absolute := true
  segs := (r.names ++ dirs).map .normal
  curDir_first := by simp

theorem Root.dir_absolute (r : Root) (dirs : List Str) : (r.dir dirs).absolute = true := rfl

def Root.join (r : Root) (dirs : List Str) (entry : Str) : PathBuf := joinStr (r.dir dirs) (r.dir_absolute dirs) entry

theorem joinStr_absolute (base : PathBuf) (h : base.absolute = true) (s : Str) : (joinStr base h s).absolute = true := by
  unfold joinStr
  split <;> rfl

def virtualEntryName (name : Str) : Str := name.map fun c => if c = '/' then '+' else c

/-- `trim_matches` of a character. -/
def trimMatches (c : Char) (s : Str) : Str := (s.dropWhile (· = c)).rdropWhile (· = c)

def safePkg (name : Str) : Str := trimMatches '-' (name.map fun c => if c = '/' then '-' else c)

/-! ## Entries -/

def zeroInstallEntry (name version : Str) : Str :=
  virtualEntryName name ++ "@".toList ++ safeVersion version ++ ".tgz".toList

def configDepEntry (name version : Str) : Str := virtualEntryName name ++ "@".toList ++ safeVersion version

/-- The tarball of one package, as `install` caches it. -/
def cachedTarballEntry (name version : Str) : Str :=
  safePkg name ++ "-".toList ++ safeVersion version ++ ".tgz".toList

/-- The tarball of a transitive dependency: the version is put in as it is. -/
def cachedPathEntry (name version : Str) : Str := safePkg name ++ "-".toList ++ version ++ ".tgz".toList

/-- The copy that `dlx` runs: the version is put in as it is. -/
def dlxEntry (name version : Str) : Str := virtualEntryName name ++ "@".toList ++ version

/-! ## Paths -/

def cacheDir : List Str := [".3va-cache".toList]

def zeroInstallDir : List Str := [".3va".toList, "cache".toList]

def dlxDir : List Str := [".3va".toList, "dlx".toList]

def configDepsDir : List Str := [".3va".toList, "config-deps".toList]

def zeroInstallCachePaths (project : Root) (name version : Str) : PathBuf × PathBuf :=
  (project.join zeroInstallDir (zeroInstallEntry name version),
    project.join zeroInstallDir (zeroInstallEntry name version ++ ".sha512".toList))

def storePackagePath (store : Root) (registry name version : Str) : PathBuf :=
  joinStr (store.join [] (safeRegistry registry)) (joinStr_absolute _ _ _)
    (safeName name ++ "@".toList ++ safeVersion version)

/-- Each path with its base directory. -/
def derived (project store : Root) (registry name version : Str) : List (PathBuf × PathBuf) :=
  [(store.dir [], storePackagePath store registry name version),
    (project.dir zeroInstallDir, (zeroInstallCachePaths project name version).1),
    (project.dir zeroInstallDir, (zeroInstallCachePaths project name version).2),
    (project.dir cacheDir, project.join cacheDir (cachedTarballEntry name version)),
    (project.dir cacheDir, project.join cacheDir (cachedPathEntry name version)),
    (project.dir dlxDir, project.join dlxDir (dlxEntry name version)),
    (project.dir configDepsDir, project.join configDepsDir (configDepEntry name version))]

/-- Normalised, the path is below its base and is not the base. -/
def Descends (base path : PathBuf) : Prop :=
  startsWith (lexicallyNormalize path) base = true ∧ lexicallyNormalize path ≠ base

/-! ## Components that stay -/

/-- The names that a list of components leaves of some directories and its own; nothing where a `..` has none left. -/
def walk : List Str → List Seg → Option (List Str)
  | names, [] => some names
  | names, .curDir :: segs => walk names segs
  | names, .parentDir :: segs => if names.isEmpty then none else walk names.dropLast segs
  | names, .normal n :: segs => walk (names ++ [n]) segs

/-- The components do not lead above the directories, and end below them. -/
def StaysIn (dirs : List Str) (segs : List Seg) : Prop := ∃ below, below ≠ [] ∧ walk dirs segs = some (dirs ++ below)

end ThreeVa.Store
