import ThreeVa.Lib.Json
import ThreeVa.Permissions.Capability

/-!
# The permissions of a run

`expand_env_vars_tracked`, `collect_paths`, `collect_strings_tracked`, `read_package_json_permissions`,
`merge_opt_slice` and `build_permissions` of `cli/src/main.rs`, on Unix.
-/

namespace ThreeVa.Cli
open Text Permissions

/-! ## Variables -/

/-- The environment of the process that starts the script. -/
abbrev Vars := Str → Option Str

def Vars.remove (vars : Vars) (name : Str) : Vars := Function.update vars name none

inductive Piece
  | lit (text : Str)
  | var (name : Str)
deriving DecidableEq

/-- The loop of `expand_env_vars_tracked`. The state is what has been read of a name; a placeholder that is not closed is
plain text. -/
def pieces : Option Str → Str → List Piece
  | none, '$' :: '\x7b' :: rest => pieces (some []) rest
  | none, c :: rest => .lit [c] :: pieces none rest
  | none, [] => []
  | some name, '\x7d' :: rest => .var name :: pieces none rest
  | some name, c :: rest => pieces (some (name ++ [c])) rest
  | some name, [] => [.lit ('$' :: '\x7b' :: name)]

/-- A variable that is not set is left as it is written. -/
def Piece.expand (vars : Vars) : Piece → Str
  | lit text => text
  | var name => (vars name).getD ('$' :: '\x7b' :: name ++ ['\x7d'])

def Piece.name? : Piece → Option Str
  | lit _ => none
  | var name => some name

def expandEnvVars (vars : Vars) (raw : Str) : Str := (pieces none raw).flatMap (·.expand vars)

/-- The variables a text refers to. -/
def varsOf (raw : Str) : List Str := (pieces none raw).filterMap Piece.name?

/-- What is added to `missing`, for the warning. -/
def missingVars (vars : Vars) (raw : Str) : List Str := (varsOf raw).filter fun name => (vars name).isNone

/-! ## Paths -/

def isAbsolute (path : Str) : Bool := ['/'] <+: path

/-- `Path::join`. -/
def joinPath (dir path : Str) : Str :=
  if isAbsolute path then path
  else if dir = [] ∨ ['/'] <:+ dir then dir ++ path
  else dir ++ '/' :: path

def segOf (name : Str) : Option Seg :=
  if name = ['.'] then none else if name = ['.', '.'] then some .parentDir else some (.normal name)

def pathSegs (absolute : Bool) (names : List Str) : List Seg :=
  match names with
  | name :: rest =>
      if !absolute ∧ name = ['.'] then .curDir :: rest.filterMap segOf else (name :: rest).filterMap segOf
  | [] => []

theorem curDir_not_mem_filterMap (names : List Str) : .curDir ∉ names.filterMap segOf := by
  intro h
  obtain ⟨name, -, hseg⟩ := List.mem_filterMap.mp h
  unfold segOf at hseg
  split at hseg
  · cases hseg
  · split at hseg <;> cases hseg

theorem pathSegs_curDir (absolute : Bool) (names : List Str) :
    .curDir ∉ (pathSegs absolute names).drop (if absolute then 0 else 1) := by
  unfold pathSegs
  cases names with
  | nil => simp
  | cons name rest =>
      cases absolute with
      | true => simpa using curDir_not_mem_filterMap (name :: rest)
      | false =>
          simp only [Bool.not_false, true_and, Bool.false_eq_true, ↓reduceIte]
          split
          · exact curDir_not_mem_filterMap rest
          · exact fun h => curDir_not_mem_filterMap (name :: rest) (List.mem_of_mem_drop h)

/-- `PathBuf::from`. -/
def pathBuf (text : Str) : PathBuf where
  absolute := isAbsolute text
  segs := pathSegs (isAbsolute text) ((text.splitOn '/').filter (· ≠ []))
  curDir_first := pathSegs_curDir _ _

def locPath (loc : Loc) : PathBuf := ⟨true, loc.map .normal, by simp⟩

/-! ## Entries -/

inductive Kind
  | read
  | write
  | net
  | env
  | ffi
deriving DecidableEq

namespace Kind

def all : List Kind := [read, write, net, env, ffi]

def isPath : Kind → Bool
  | read | write | ffi => true
  | net | env => false

def key : Kind → String
  | read => "read"
  | write => "write"
  | net => "net"
  | env => "env"
  | ffi => "ffi"

/-- The capability of a text, as denies and package scopes use it. -/
def rule (text : Str) : Kind → Capability
  | read => .fileRead (pathBuf text)
  | write => .fileWrite (pathBuf text)
  | net => .network text
  | env => .envVar text
  | ffi => .ffi (pathBuf text)

/-- The capability of a list that is empty or has an empty entry. -/
def wildcard : Kind → Capability
  | read => .fileRead (pathBuf ['/'])
  | write => .fileWrite (pathBuf ['/'])
  | net => .network ['*']
  | env => .envAccess
  | ffi => .ffi (pathBuf ['/'])

/-- The path against the current directory, and the place it leads to if that is spelled in another way. -/
def pathGrants (env : PathEnv) (make : PathBuf → Capability) (path : Str) : List Capability :=
  let raw := match env.cwd with
    | some _ => absolutize env (pathBuf path)
    | none => if isAbsolute path then pathBuf path else pathBuf (joinPath ['.'] path)
  make raw ::
    match env.canonicalize raw with
    | some loc => if locPath loc ≠ raw then [make (locPath loc)] else []
    | none => []

def grants (env : PathEnv) (text : Str) : Kind → List Capability
  | read => pathGrants env .fileRead text
  | write => pathGrants env .fileWrite text
  | net => [.network text]
  | Kind.env => [.envVar text]
  | ffi => [.ffi (pathBuf text)]

/-- The grants of one flag merged with the manifest. -/
def listGrants (env : PathEnv) (k : Kind) : Option (List Str) → List Capability
  | none => []
  | some texts => if texts = [] ∨ [] ∈ texts then [k.wildcard] else texts.flatMap fun text => k.grants env text

end Kind

/-- `allow-*` and `deny-*` of one scope. -/
structure Section where
  allow : Kind → List Str
  deny : Kind → List Str
  allowChildProcess : Bool
  denyChildProcess : Bool

/-- The scopes of `package.json["3va"].permissions`. -/
abbrev Manifest := List (Str × Section)

def Section.ofJson (scope : Json) : Section :=
  let strings := fun key => ((scope.field key).asArray.getD []).filterMap Json.asStr
  let isTrue := fun key => match scope.field key with | .bool b => b | _ => false
  { allow := fun k => strings ("allow-" ++ k.key)
    deny := fun k => strings ("deny-" ++ k.key)
    allowChildProcess := isTrue "allow-child-process"
    denyChildProcess := isTrue "deny-child-process" }

def Manifest.ofJson (json : Json) : Manifest :=
  (((json.field "3va").field "permissions").asObject.getD []).map fun scope => (scope.1, Section.ofJson scope.2)

/-- Where the entries of a manifest are read: the environment and the directory of the manifest. -/
structure Place where
  vars : Vars
  startDir : Str

def Place.remove (place : Place) (name : Str) : Place := { place with vars := place.vars.remove name }

/-- `resolve_pkg_path` for paths, the text itself for the rest. -/
def Place.expand (place : Place) (k : Kind) (raw : Str) : Str :=
  let expanded := expandEnvVars place.vars raw
  if k.isPath then joinPath place.startDir expanded else expanded

def Section.expand (place : Place) (s : Section) : Section :=
  { s with allow := fun k => (s.allow k).map (place.expand k), deny := fun k => (s.deny k).map (place.expand k) }

structure ThreeVaPermissions where
  /-- The scope of the app. -/
  flat : Section
  scopes : Manifest

def readPackageJsonPermissions (place : Place) (m : Manifest) : ThreeVaPermissions :=
  let expanded := m.map fun scope => (scope.1, scope.2.expand place)
  let root := (expanded.filter (·.1 = rootScope)).map Prod.snd
  { flat :=
      { allow := fun k => root.flatMap (·.allow k)
        deny := fun k => root.flatMap (·.deny k)
        allowChildProcess := root.any (·.allowChildProcess)
        denyChildProcess := root.any (·.denyChildProcess) }
    scopes := expanded.filter (·.1 ≠ rootScope) }

/-! ## The state of a run -/

structure Flags where
  allow : Kind → Option (List Str)
  allowChildProcess : Bool
  interactive : Bool

def mergeOptSlice (cli : Option (List Str)) (pkg : List Str) : Option (List Str) :=
  match cli with
  | none => if pkg = [] then none else some pkg
  | some slice => if slice = [] ∨ [] ∈ slice then some slice else some (slice ++ pkg)

section

variable (env : PathEnv) (flags : Flags) (pkg : ThreeVaPermissions)

def grantCalls : List RuleCall :=
  let of := fun k : Kind => (k.listGrants env (mergeOptSlice (flags.allow k) (pkg.flat.allow k))).map RuleCall.grant
  [.read, .write, .net, .env].flatMap of ++
    (if flags.allowChildProcess || pkg.flat.allowChildProcess then [.grant .spawnProcess] else []) ++ of .ffi

def denyCalls : List RuleCall :=
  (Kind.all.flatMap fun k => (pkg.flat.deny k).map fun text => .deny (k.rule text)) ++
    if pkg.flat.denyChildProcess then [.deny .spawnProcess] else []

def scopedCalls (scope : Str × Section) : List RuleCall :=
  let allow := fun k : Kind => (scope.2.allow k).map fun text => RuleCall.grantScoped scope.1 (k.rule text)
  [.read, .write, .net, .env].flatMap allow ++
    (if scope.2.allowChildProcess then [.grantScoped scope.1 .spawnProcess] else []) ++ allow .ffi ++
    (Kind.all.flatMap fun k => (scope.2.deny k).map fun text => .denyScoped scope.1 (k.rule text)) ++
    if scope.2.denyChildProcess then [.denyScoped scope.1 .spawnProcess] else []

def buildCalls : List RuleCall := grantCalls env flags pkg ++ denyCalls pkg ++ pkg.scopes.flatMap scopedCalls

end

/-- A process without a rule. -/
def bareProcess (interactive : Bool) : Process where
  perms := { PermissionState.new with interactive := interactive }
  scope := ⟨[], none, [], false⟩
  active_of_scoped := fun h => absurd rfl (h.elim id id)

def buildPermissions (env : PathEnv) (flags : Flags) (pkg : ThreeVaPermissions) : PermissionState :=
  ((bareProcess flags.interactive).applyAll (buildCalls env flags pkg)).perms

/-- The state a run starts with, from its flags and the manifest near the script. -/
def runPermissions (env : PathEnv) (flags : Flags) (place : Place) (m : Manifest) : PermissionState :=
  buildPermissions env flags (readPackageJsonPermissions place m)

/-! ## What an entry says -/

/-- Every variable of the text is set, and not to the empty text. -/
def Settled (vars : Vars) (raw : Str) : Prop := ∀ name ∈ varsOf raw, ∃ value, vars name = some value ∧ value ≠ []

/-- The capabilities an allow entry names: none if one of its variables is unset or empty. The empty text stands for
everything. -/
def Names (env : PathEnv) (place : Place) (k : Kind) (raw : Str) (cap : Capability) : Prop :=
  Settled place.vars raw ∧
    (place.expand k raw = [] ∧ cap = k.wildcard ∨ cap ∈ k.grants env (place.expand k raw) ∨
      cap = k.rule (place.expand k raw))

def scopedGrants (st : PermissionState) (scope : Str) : Finset Capability := (st.scopedGranted.lookup scope).getD ∅

def scopedDenies (st : PermissionState) (scope : Str) : Finset Capability := (st.scopedDenied.lookup scope).getD ∅

/-- Wherever the allow entry stands, it adds only what it names. -/
def AllowsNamed (env : PathEnv) (place : Place) (k : Kind) (raw : Str) : Prop :=
  ∀ (flags : Flags) (before after : Manifest) (name : Str) (s : Section) (left right : List Str),
    s.allow k = left ++ raw :: right →
      let entry := runPermissions env flags place (before ++ (name, s) :: after)
      let without := runPermissions env flags place
        (before ++ (name, { s with allow := Function.update s.allow k (left ++ right) }) :: after)
      (∀ cap ∈ entry.granted, cap ∈ without.granted ∨ Names env place k raw cap) ∧
        ∀ scope, ∀ cap ∈ scopedGrants entry scope, cap ∈ scopedGrants without scope ∨ Names env place k raw cap

/-- Wherever the deny entry stands, its text is denied, and what it denies stays denied without any one variable. -/
def DeniesAlways (env : PathEnv) (place : Place) (k : Kind) (raw : Str) : Prop :=
  ∀ (flags : Flags) (m : Manifest) (name : Str) (s : Section), (name, s) ∈ m → raw ∈ s.deny k →
    (k.rule (place.expand k raw) ∈
      if name = rootScope then (runPermissions env flags place m).denied
      else scopedDenies (runPermissions env flags place m) name) ∧
    ∀ (var : Str) (cap : Capability) (stdin : Stdin) (sc : ScopeState), name = rootScope ∨ name ∈ sc.denyScopes →
      capsMatch env (k.rule (place.expand k raw)) cap = true →
        (checkInner env stdin sc (runPermissions env flags (place.remove var) m) cap).1 = false

/-- Without any one variable the entry covers what it covered. -/
def CoversAlways (env : PathEnv) (place : Place) (k : Kind) (raw : Str) : Prop :=
  ∀ (var : Str) (cap : Capability), capsMatch env (k.rule (place.expand k raw)) cap = true →
    capsMatch env (k.rule ((place.remove var).expand k raw)) cap = true

end ThreeVa.Cli
