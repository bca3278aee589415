import ThreeVa.Lib.Text

/-!
# Physical resolution of paths

`absolutize`, `resolve_physically` and `path_covered_by` of `permissions/src/capability.rs`, over a file system
with symbolic links. `canonicalize` is the one of the standard library: links and `..` are resolved one component
at a time, from the left.
-/

namespace ThreeVa.Permissions
open Text

inductive Seg
  | curDir
  | parentDir
  | normal (name : Str)
deriving DecidableEq

/-- A path as its components: whether they start at the root, and the rest. Paths that spell the same
components are equal. A `.` is a component only where it starts a relative path. -/
structure PathBuf where
  absolute : Bool
  segs : List Seg
  curDir_first : .curDir ∉ segs.drop (if absolute then 0 else 1)
deriving DecidableEq

/-- Where a node is: the names that lead to it from the root. -/
abbrev Loc := List Str

inductive Node
  | file
  | dir
  | link (target : PathBuf)
deriving DecidableEq

structure FileSystem where
  node : Loc → Option Node
  root_dir : node [] = some .dir
  parent_dir : ∀ l n, node (l ++ [n]) ≠ none → node l = some .dir

def FileSystem.ofNodes (nodes : List (Loc × Node))
    (h : ∀ e ∈ nodes, e.1 ≠ [] ∧ (([], .dir) :: nodes).lookup e.1.dropLast = some .dir) : FileSystem where
  node := fun l => (([], .dir) :: nodes).lookup l
  root_dir := rfl
  parent_dir := by
    intro l n hne
    obtain ⟨k, hk⟩ := Option.ne_none_iff_exists'.mp hne
    obtain ⟨before, after, hsplit, -⟩ := List.lookup_eq_some_iff.mp hk
    have hm : (l ++ [n], k) ∈ ([], .dir) :: nodes := by simp [hsplit]
    rcases List.mem_cons.mp hm with he | he
    · simp at he
    · simpa using (h _ he).2

theorem FileSystem.no_nodes : ∀ e ∈ ([] : List (Loc × Node)),
    e.1 ≠ [] ∧ ((([], .dir) :: []).lookup e.1.dropLast : Option Node) = some .dir := List.forall_mem_nil _

inductive Walk
  /-- Every component exists; `budget` links may still be followed. -/
  | reached (loc : Loc) (budget : Nat)
  /-- `name` does not exist in the directory `dir`; `rest` was not looked at. -/
  | missing (dir : Loc) (name : Str) (rest : List Seg)
  | notDir
  | loop
deriving DecidableEq

namespace FileSystem

variable (fs : FileSystem)

/-- Walks components, and hands over to `follow` at a link. -/
def walkSegs (budget : Nat) (follow : Loc → List Seg → Walk) : Loc → List Seg → Walk
  | cur, [] => .reached cur budget
  | cur, seg :: rest =>
      if fs.node cur = some .dir then
        match seg with
        | .curDir => walkSegs budget follow cur rest
        | .parentDir => walkSegs budget follow cur.dropLast rest
        | .normal n =>
            match fs.node (cur ++ [n]) with
            | none => .missing cur n rest
            | some (.link t) => follow (if t.absolute then [] else cur) (t.segs ++ rest)
            | some .file => walkSegs budget follow (cur ++ [n]) rest
            | some .dir => walkSegs budget follow (cur ++ [n]) rest
      else .notDir

def walk : Nat → Loc → List Seg → Walk
  | 0 => fs.walkSegs 0 fun _ _ => .loop
  | budget + 1 => fs.walkSegs (budget + 1) (walk budget)

end FileSystem

/-- The most links a path may go through. -/
def maxSymlinks : Nat := 40

/-- The surroundings a path is resolved in: the file system and the current directory, if it can be read. -/
structure PathEnv where
  fs : FileSystem
  cwd : Option Loc
  cwd_dir : ∀ l, cwd = some l → fs.node l = some .dir

namespace PathEnv

theorem root_cwd (fs : FileSystem) : ∀ l, some [] = some l → fs.node l = some .dir := by
  rintro l ⟨⟩
  exact fs.root_dir

theorem empty_cwd : ∀ l, some [] = some l → (FileSystem.ofNodes [] FileSystem.no_nodes).node l = some .dir := root_cwd _

variable (env : PathEnv)

def start (p : PathBuf) : Option Loc := if p.absolute then some [] else env.cwd

def walkPath (p : PathBuf) : Option Walk :=
  (env.start p).map fun s => env.fs.walk maxSymlinks s p.segs

def canonicalize (p : PathBuf) : Option Loc :=
  match env.walkPath p with
  | some (.reached loc _) => some loc
  | _ => none

end PathEnv

/-- The components that don't exist yet, appended: `None` when one of them is `..`. -/
def appendTail (out : Loc) : List Seg → Option Loc
  | [] => some out
  | .normal n :: rest => appendTail (out ++ [n]) rest
  | .curDir :: rest => appendTail out rest
  | .parentDir :: _ => none

def PathBuf.take (p : PathBuf) (k : Nat) : PathBuf where
  absolute := p.absolute
  segs := p.segs.take k
  curDir_first := fun h => p.curDir_first (((List.take_prefix k p.segs).drop _).subset h)

/-- The loop of `resolve_physically` over the length of the existing prefix, from the longest down. The root is
a component, so an absolute path may be cut down to it. -/
def resolveFrom (env : PathEnv) (p : PathBuf) : Nat → Option Loc
  | 0 => if p.absolute then (env.canonicalize (p.take 0)).bind fun out => appendTail out p.segs else none
  | k + 1 =>
      match env.canonicalize (p.take (k + 1)) with
      | some out => appendTail out (p.segs.drop (k + 1))
      | none => resolveFrom env p k

/-- Where the kernel will actually land for `p`: the longest existing prefix resolved, the rest appended. -/
def resolvePhysically (env : PathEnv) (p : PathBuf) : Option Loc :=
  resolveFrom env p p.segs.length

def absolutize (env : PathEnv) (p : PathBuf) : PathBuf :=
  if p.absolute then p
  else
    match env.cwd with
    | some cwd => ⟨true, cwd.map .normal ++ p.segs.filter (· ≠ .curDir), by simp⟩
    | none => p

def pathCoveredBy (env : PathEnv) (target allowed : PathBuf) : Bool :=
  match resolvePhysically env (absolutize env target), resolvePhysically env (absolutize env allowed) with
  | some t, some a => a.isPrefixOf t
  | _, _ => false

/-! ## Physical locations -/

/-- The location a walk reaches, with the components that do not exist yet appended. -/
def Walk.location : Walk → Option Loc
  | .reached loc _ => some loc
  | .missing dir name rest => appendTail (dir ++ [name]) rest
  | _ => none

def FileSystem.location (fs : FileSystem) (segs : List Seg) : Option Loc :=
  (fs.walk maxSymlinks [] segs).location

/-- `fs'` is `fs` with more plain directories and files. -/
def FileSystem.Extends (fs fs' : FileSystem) : Prop :=
  (∀ l k, fs.node l = some k → fs'.node l = some k) ∧
    ∀ l k, fs.node l = none → fs'.node l = some k → k = .file ∨ k = .dir

/-- `pre` is the longest part of the components that exists, and leads to `cur`. -/
def FileSystem.LongestExisting (fs : FileSystem) (pre post : List Seg) (cur : Loc) : Prop :=
  (∃ budget, fs.walk maxSymlinks [] pre = .reached cur budget) ∧
    ∀ seg rest, post = seg :: rest → ∀ loc budget, fs.walk maxSymlinks [] (pre ++ [seg]) ≠ .reached loc budget

/-- What a positive answer about absolute paths promises: however missing components are created, the target
lands at or below the grant's location. A target whose missing tail goes up is never covered. -/
def CoverageSound (env : PathEnv) (target grant : PathBuf) : Prop :=
  (pathCoveredBy env target grant = true →
    ∀ fs', env.fs.Extends fs' → ∀ loc, fs'.location target.segs = some loc →
      ∃ g, env.fs.location grant.segs = some g ∧ g <+: loc) ∧
  ∀ pre post cur, target.segs = pre ++ post → env.fs.LongestExisting pre post cur → .parentDir ∈ post →
    pathCoveredBy env target grant = false

/-- The target leaves the grant through a link. Its longest existing part ends where the next name is a link to
something that does not exist. Spelled with that name the target is below the grant, but following the link it
lands elsewhere. -/
def EscapesThroughLink (env : PathEnv) (target grant : PathBuf) : Prop :=
  ∃ pre name post cur dest, target.segs = pre ++ .normal name :: post ∧
    env.fs.LongestExisting pre (.normal name :: post) cur ∧ env.fs.node (cur ++ [name]) = some (.link dest) ∧
    (∃ a t, resolvePhysically env grant = some a ∧ appendTail (cur ++ [name]) post = some t ∧ a <+: t) ∧
    ∃ fs' loc, env.fs.Extends fs' ∧ fs'.location target.segs = some loc ∧
      ∀ g, env.fs.location grant.segs = some g → ¬ g <+: loc

end ThreeVa.Permissions
