import Mathlib.Data.List.Infix
import Mathlib.Logic.Function.Basic
import ThreeVa.Lib.Files
import ThreeVa.Lib.Lines
import ThreeVa.Lib.Utf8

/-!
# Patches of packages

`patch_commit`, `diff_dirs`, `collect_all_files`, `apply_patch_if_present` and `apply_patch_files` of `pm/src/lib.rs`. The
recursions over directories take the depth they may descend to. What an iterator over a directory or a hash set gives is
in an order of its own.
-/

namespace ThreeVa.Store.Patch
open Text Files

abbrev Path := List Str

abbrev Listing := List (Path × Bytes)

/-- File names in UTF-8, without line feed and backslash. -/
def ValidName (name : Str) : Prop :=
  name ≠ [] ∧ name ≠ ['.'] ∧ name ≠ ['.', '.'] ∧ '/' ∉ name ∧ '\n' ∉ name ∧ '\\' ∉ name

instance (name : Str) : Decidable (ValidName name) := inferInstanceAs (Decidable (_ ∧ _))

structure PackageTree extends Tree Str Bytes where
  valid : ∀ f ∈ files, ∀ name ∈ f.1, ValidName name

/-- The order of the names in a directory. -/
structure Order where
  sort : Path → List Str → List Str
  perm : ∀ rel names, (sort rel names).Perm names

def removedName : Str := ".removed".toList

/-! ## Committing -/

inductive Change
  | changed (path : Path) (bytes : Bytes)
  | removed (path : Path)
deriving DecidableEq

variable (order : Order)

def collectAllFiles (p : Listing) : Nat → Path → List Change
  | 0, _ => []
  | depth + 1, rel =>
      (order.sort rel (readDir p rel)).flatMap fun name =>
        if isDir p (rel ++ [name]) then collectAllFiles p depth (rel ++ [name]) else [.removed (rel ++ [name])]

/-- A file that is not in the pristine tree counts as empty there. -/
def diffDirs (p e : Listing) : Nat → Path → List Change
  | 0, _ => []
  | depth + 1, rel =>
      (order.sort rel (readDir p rel ++ readDir e rel).dedup).flatMap fun name =>
        let relChild := rel ++ [name]
        if isDir p relChild || isDir e relChild then
          if isThere e relChild then diffDirs p e depth relChild else collectAllFiles order p depth relChild
        else if !isThere e relChild then [.removed relChild]
        else
          let pBytes := (lookup p relChild).getD []
          let eBytes := (lookup e relChild).getD []
          if pBytes ≠ eBytes then [.changed relChild eBytes] else []

/-- The length of the longest path. -/
def depth (t : Listing) : Nat := (t.map fun f => f.1.length).foldr max 0

def diff (p e : Listing) : List Change := diffDirs order p e (depth p + depth e) []

/-- The files that are written to the patch directory. -/
def changedFiles (d : List Change) : Listing :=
  d.filterMap fun
    | .changed path bytes => some (path, bytes)
    | .removed _ => none

def removedFiles (d : List Change) : List Path :=
  d.filterMap fun
    | .changed _ _ => none
    | .removed path => some path

/-- `rel_child.to_string_lossy().replace('\\', "/")` -/
def toText (path : Path) : Str := (['/'].intercalate path).map fun c => if c = '\\' then '/' else c

/-- The patch directory, and whether the commit succeeds. -/
def patchCommit (name : Str) (p e : Listing) : Except Str Unit × Listing :=
  let d := diff order p e
  let files := changedFiles d
  let removed := removedFiles d
  if removed = [] then
    if files = [] then
      (.error ("No changes detected for '".toList ++ name ++ "' — nothing to commit.".toList), files)
    else (.ok (), files)
  else if isDir files [removedName] then (.error "Is a directory (os error 21)".toList, files)
  else
    (.ok (), files.filter (fun f => f.1 ≠ [removedName]) ++ [([removedName], encodeUtf8 (joinLines (removed.map toText)))])

/-! ## Applying -/

/-- A directory that is written to; it may have empty directories in it. -/
structure Dir where
  file : Path → Option Bytes
  dir : Path → Bool

namespace Dir

variable (t : Dir)

/-- A fresh copy of a tree. -/
def copyOf (p : Listing) : Dir := ⟨lookup p, fun r => r = [] || isDir p r⟩

/-- All directories above a path exist. -/
def Reachable (q : Path) : Prop := ∀ r, Below r q → t.dir r

instance (q : Path) : Decidable (t.Reachable q) :=
  decidable_of_iff (∀ r ∈ q.inits, Below r q → t.dir r) (by
    constructor
    · exact fun h r hr => h r ((List.mem_inits r q).mpr hr.1) hr
    · exact fun h r _ hr => h r hr)

def createDirAll (path : Path) : Dir :=
  if path.inits.any fun r => (t.file r).isSome then t else { t with dir := fun r => t.dir r || r <+: path }

def removeFile (path : Path) : Dir :=
  if t.Reachable path then { t with file := Function.update t.file path none } else t

def write (path : Path) (bytes : Bytes) : Dir :=
  if t.Reachable path ∧ t.dir path = false then { t with file := Function.update t.file path (some bytes) } else t

/-- A file of the patch: the directories above it are made, and the file is deleted and written. -/
def applyFile (path : Path) (bytes : Bytes) : Dir := ((t.createDirAll path.dropLast).removeFile path).write path bytes

end Dir

def applyPatchFiles (patch : Listing) : Nat → Path → Dir → Dir
  | 0, _, t => t
  | depth + 1, rel, t =>
      (order.sort rel (readDir patch rel)).foldl
        (fun t name =>
          if name = removedName then t
          else if isDir patch (rel ++ [name]) then applyPatchFiles patch depth (rel ++ [name]) t
          else
            match lookup patch (rel ++ [name]) with
            | some bytes => t.applyFile (rel ++ [name]) bytes
            | none => t)
        t

/-- The components of a line, unless it leads out of the package. -/
def lineComponents (line : Str) : Option Path :=
  if line.head? = some '/' ∨ ['.', '.'] ∈ line.splitOn '/' then none
  else some ((line.splitOn '/').filter fun c => c ≠ [] ∧ c ≠ ['.'])

/-- The loop over `.removed`. -/
def applyRemoved (patch : Listing) (t : Dir) : Dir :=
  match (lookup patch [removedName]).bind decodeUtf8 with
  | none => t
  | some text =>
      ((lines text).filter fun l => !l.isEmpty).foldl (fun t line => (lineComponents line).elim t t.removeFile) t

/-- What `apply_patch_if_present` makes of the package; without a patch directory there is nothing to do. -/
def applyPatch (patch : Listing) (t : Dir) : Dir :=
  applyRemoved patch (applyPatchFiles order patch (depth patch) [] t)

/-- Committing the edited tree and applying the patch to a copy of the pristine one, each with an order of its own. -/
def roundTrip (applyOrder : Order) (name : Str) (p e : Listing) : Dir :=
  applyPatch applyOrder (patchCommit order name p e).2 (.copyOf p)

/-! ## What is restored -/

/-- A file of the pristine tree with nothing in its place. -/
def Gone (p e : Listing) (q : Path) : Prop := (lookup p q).isSome ∧ isThere e q = false

/-- The last name ends with a carriage return. -/
def EndsCr (q : Path) : Prop := ∃ above name, q = above ++ [name ++ ['\r']]

/-- No new file is empty, no file takes the place of a directory and no directory that of a file, a path with changed bytes
has no component `.removed`, and a removed path that ends with a carriage return is the only one. -/
structure Restorable (p e : Listing) : Prop where
  filled : ∀ q, lookup e q = some [] → (lookup p q).isSome
  noFileForDir : ∀ q, (lookup e q).isSome → isDir p q = false
  noDirForFile : ∀ q, (lookup p q).isSome → isDir e q = false
  unreserved : ∀ q bytes, lookup e q = some bytes → lookup p q ≠ some bytes → removedName ∉ q
  returns : ∀ q q', Gone p e q → Gone p e q' → EndsCr q → q' = q

end ThreeVa.Store.Patch
