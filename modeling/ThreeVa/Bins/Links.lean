import Mathlib.Data.Char
import Mathlib.Data.List.Lex
import Mathlib.Data.List.Sort
import ThreeVa.Lib.Entries
import ThreeVa.Lib.Lexical
import ThreeVa.Lib.Text

/-!
# Command shims

`link_bins` of `pm/src/bins.rs`: the packages below a `node_modules` directory are visited in order, their commands
claimed, and a link made in `.bin` for each. Paths are absolute and those of Unix, read as their components.
-/

namespace ThreeVa.Bins
open Text Entries Lexical

abbrev Path := List (Step Str)

def nodeModulesName : Str := "node_modules".toList
def binName : Str := ".bin".toList

/-- A path as it is written, to be joined to a directory. -/
structure Written where
  absolute : Bool
  steps : Path
deriving DecidableEq

def written (s : Str) : Written where
  absolute := s.head? = some '/'
  steps := (s.splitOn '/').filterMap fun part =>
    if part = [] || part = ['.'] then none else if part = ['.', '.'] then some .up else some (.into part)

def join (base : Path) (p : Written) : Path := if p.absolute then p.steps else base ++ p.steps

/-! ## Manifests -/

inductive BinField
  /-- Not there, or neither a string nor an object. -/
  | none
  | single (path : Str)
  /-- A path that is no string is `none`. -/
  | table (paths : Entries Str (Option Str))

/-- The fields of a `package.json` that shims are made from. -/
structure Manifest where
  bin : BinField
  main : Option Str
  moduleField : Option Str

/-- The part of a package name after its scope, `rsplit('/').next()`. -/
def unscoped (pkgName : Str) : Str := ((rsplitOnce '/' pkgName).map Prod.snd).getD pkgName

def binEntries (manifest : Manifest) (pkgName : Str) : List (Str × Str) :=
  match manifest.bin with
  | .none => []
  | .single p => if p.isEmpty then [] else [(unscoped pkgName, p)]
  | .table paths => paths.list.filterMap fun x => (x.2.filter fun p => !p.isEmpty).map (x.1, ·)

/-! ## The disk -/

/-- What is read of the file system. A path longer than the system allows cannot be read. -/
structure Disk where
  /-- The names in a directory, in the order in which the system returns them. -/
  readDir : Path → Option (List Str)
  isDir : Path → Bool
  isFile : Path → Bool
  canonicalize : Path → Option Path
  /-- The `package.json` in a directory. -/
  manifest : Path → Option Manifest
  pathMax : Nat
  readDir_le : ∀ p, readDir p ≠ none → p.length ≤ pathMax
  readDir_names : ∀ p names, readDir p = some names → ∀ n ∈ names, '/' ∉ n

def bin (nodeModules : Path) : Path := nodeModules ++ [.into binName]

namespace Disk

variable (disk : Disk)

/-- The file that stands for a directory: an index, or what its manifest names. -/
def directoryEntry (dir : Path) : Option Path :=
  let index := ["index.js".toList, "index.mjs".toList, "index.cjs".toList, "cli.js".toList].map fun c => dir ++ [.into c]
  let named := (((disk.manifest dir).map fun m => [m.main, m.moduleField].filterMap id).getD []).map fun f =>
    join dir (written f)
  (index ++ named).find? disk.isFile

def resolveBinEntry (pkgDir : Path) (rel : Written) : Path :=
  let direct := join pkgDir rel
  if disk.isFile direct then direct
  else if disk.isDir direct then (disk.directoryEntry direct).getD direct
  else direct

/-- The name of a package by the directory it is in. -/
def packageName (dir : Path) : Option Str :=
  match dir.getLast? with
  | some (.into name) =>
      some (match dir.dropLast.getLast? with
        | some (.into scope) => if scope.head? = some '@' then scope ++ '/' :: name else name
        | _ => name)
  | _ => none

end Disk

/-! ## Links -/

structure BinLink where
  name : Str
  target : Path
  owner : Str
  /-- The file that `target` was made to lead to. -/
  entry : Path
deriving DecidableEq

/-- A link written into a `.bin` directory. -/
structure Shim where
  dir : Path
  target : Path
  /-- What it was made for. -/
  link : BinLink
deriving DecidableEq

structure Summary where
  created : List BinLink
  skipped : List (Str × Str)
  shims : List Shim

/-- What a `.bin` directory has under a name: the last link written there. -/
def Summary.shimAt (s : Summary) (dir : Path) (name : Str) : Option Shim :=
  s.shims.reverse.find? fun x => x.dir = dir && x.link.name = name

def Summary.skip (s : Summary) (name reason : Str) : Summary := { s with skipped := s.skipped ++ [(name, reason)] }

/-- The state of the walk. -/
structure Walk where
  wanted : Entries Str BinLink
  summary : Summary

def validBinName (name : Str) : Bool :=
  !(name.isEmpty || name = ['.'] || name = ['.', '.'] || name.any fun c => c ∈ ['/', '\\', '\u0000'])

/-- The package is named after the command. -/
def owns (owner name : Str) : Bool := unscoped owner = name

/-- A valid claim of a command: the first one stays, unless a package of the same name comes. -/
def Walk.claim (st : Walk) (link : BinLink) : Walk :=
  match st.wanted.get? link.name with
  | none => { st with wanted := st.wanted.insert link.name link }
  | some existing =>
      { wanted :=
          if owns link.owner link.name && !owns existing.owner link.name then st.wanted.insert link.name link
          else st.wanted
        summary := st.summary.skip link.name
          ("claimed by both ".toList ++ existing.owner ++ " and ".toList ++ link.owner) }

namespace Disk

variable (disk : Disk) (nodeModules : Path)

/-- The entry is the package's own file. -/
def inside (entry path : Path) : Bool :=
  match disk.canonicalize entry, disk.canonicalize path with
  | some t, some p => p.isPrefixOf t
  | _, _ => false

/-- Why a command is not linked. -/
def refusal (path : Path) (pkgName : Str) (entry : Str × Str) : Option Str :=
  let resolved := disk.resolveBinEntry path (written entry.2)
  if !validBinName entry.1 then some (pkgName ++ ": invalid bin name".toList)
  else if !disk.isFile resolved then some (pkgName ++ ": missing ".toList ++ entry.2)
  else if !disk.inside resolved path then
    some (pkgName ++ ": bin ".toList ++ entry.2 ++ " points outside the package".toList)
  else none

def linkOf (path : Path) (pkgName : Str) (entry : Str × Str) : BinLink :=
  let resolved := disk.resolveBinEntry path (written entry.2)
  { name := entry.1, target := relFrom (bin nodeModules) resolved, owner := pkgName, entry := resolved }

def visitBin (path : Path) (pkgName : Str) (st : Walk) (entry : Str × Str) : Walk :=
  match disk.refusal path pkgName entry with
  | some reason => { st with summary := st.summary.skip entry.1 reason }
  | none => st.claim (disk.linkOf nodeModules path pkgName entry)

/-- The entries of a map in the order of its keys. -/
def inOrder (wanted : Entries Str BinLink) : List BinLink :=
  (sortBy (fun a b => compare a.1 b.1) wanted.list).map Prod.snd

/-- The link of a nested package, computed again from its own `.bin`. -/
def nestedShim (nested : Path) (link : BinLink) : Shim :=
  { dir := bin nested
    target := relFrom (bin nested) (disk.resolveBinEntry nested ⟨false, link.target⟩)
    link := link }

/-- One entry of a directory; `recurse` visits a directory. -/
def visitEntry (recurse : Path → Walk → Walk) (dir : Path) (st : Walk) (fileName : Str) : Walk :=
  let path := dir ++ [.into fileName]
  if fileName.head? = some '.' then st
  else if fileName.head? = some '@' && disk.isDir path then recurse path st
  else if !disk.isDir path then st
  else
    match packageName path with
    | none => st
    | some pkgName =>
        let st := (((disk.manifest path).map (binEntries · pkgName)).getD []).foldl
          (disk.visitBin nodeModules path pkgName) st
        let nested := path ++ [.into nodeModulesName]
        if disk.isDir nested then
          let inner := recurse nested ⟨Entries.empty, st.summary⟩
          { st with summary :=
              { inner.summary with shims := inner.summary.shims ++ (inOrder inner.wanted).map (disk.nestedShim nested) } }
        else st

/-- The directories below one that can be read; as many steps as `pathMax` allows suffice. -/
def collectFromLevel : Nat → Path → Walk → Walk
  | 0, _, st => st
  | fuel + 1, dir, st =>
      match disk.readDir dir with
      | none => st
      | some names => (names.insertionSort (· ≤ ·)).foldl (disk.visitEntry nodeModules (collectFromLevel fuel) dir) st

def linkBins : Summary :=
  if !disk.isDir nodeModules then ⟨[], [], []⟩
  else
    let walk := disk.collectFromLevel nodeModules (disk.pathMax + 1) nodeModules ⟨Entries.empty, [], [], []⟩
    let links := inOrder walk.wanted
    { walk.summary with
      created := links
      shims := walk.summary.shims ++ links.map fun link => ⟨bin nodeModules, link.target, link⟩ }

end Disk

end ThreeVa.Bins
