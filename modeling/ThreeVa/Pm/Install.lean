import Mathlib.Data.Finset.Basic
import ThreeVa.Lib.Entries
import ThreeVa.Lib.Runs
import ThreeVa.Pm.Semver

/-!
# The waves of an install

The first phase of `install_with_transitive_opts` in `pm/src/lib.rs`: the graph is resolved wave by wave, the lookups of
one wave run at the same time. The metadata lookups are functions, `node_modules` is a map, and the order in which the
lookups complete and the hash map of the next wave is iterated is the label of a step.
-/

namespace ThreeVa.Pm.Install
open Text Entries

/-! ## Platforms -/

inductive Field
  | os
  | cpu
  | libc
deriving DecidableEq

structure Platform where
  os : Str
  cpu : Str
  libc : Str

def Platform.valueFor (platform : Platform) : Field → Str
  | .os => platform.os
  | .cpu => platform.cpu
  | .libc => platform.libc

/-- The fields `os`, `cpu` and `libc` of a manifest, each the strings it lists; a field that is present and neither a
string nor an array lists none. -/
structure Constraints where
  os : Option (List Str)
  cpu : Option (List Str)
  libc : Option (List Str)
deriving DecidableEq

namespace Constraints

def none : Constraints := ⟨.none, .none, .none⟩

def get (c : Constraints) : Field → Option (List Str)
  | .os => c.os
  | .cpu => c.cpu
  | .libc => c.libc

end Constraints

def valueMatches (value : Str) (field : Field) (platform : Platform) : Bool :=
  let value := trim value
  if value.isEmpty then false
  else
    match stripPrefix ['!'] value with
    | some negated =>
        if field = .libc && platform.os ≠ "linux".toList then true else platform.valueFor field ≠ trim negated
    | .none => platform.valueFor field = value

def fieldAccepts (field : Field) (items : List Str) (platform : Platform) : Bool :=
  if items.isEmpty then true
  else if field = .libc && platform.os ≠ "linux".toList then
    !(items.any fun v => v.head? ≠ some '!' && v = "musl".toList)
  else items.any fun v => valueMatches v field platform

def manifestAccepts (c : Constraints) (platform : Platform) : Bool :=
  [Field.os, Field.cpu, Field.libc].all fun field => ((c.get field).map (fieldAccepts field · platform)).getD true

/-! ## Manifests -/

/-- `package.json`, or one version of a packument. A range that is no string is `none`. -/
structure Manifest where
  version : Option Str
  dependencies : Entries Str (Option Str)
  peerDependencies : Entries Str (Option Str)
  /-- The peers that `peerDependenciesMeta` marks optional. -/
  optionalPeers : List Str
  optionalDependencies : Entries Str (Option Str)
  constraints : Constraints

def utf8Length (s : Str) : Nat := s.foldl (fun n c => n + c.utf8Size) 0

def isValidPackageName (isUppercase : Char → Bool) (name : Str) : Bool :=
  let parts := name.splitOn '/'
  if name.isEmpty || 214 < utf8Length name then false
  else if name.head? = some '@' then
    2 ≤ parts.length && 2 ≤ utf8Length (parts.headD []) && parts.all fun p => !p.isEmpty
  else if name.any isUppercase then false
  else if 1 < parts.length && ((parts.headD []).isEmpty || (parts.getLastD []).isEmpty) then false
  else ¬ [':', ':'] <:+: name && ¬ ['.', '.'] <:+: name

/-- The entries with a valid name and a range. -/
def specs (isUppercase : Char → Bool) (deps : List (Str × Option Str)) : List (Str × Str) :=
  (deps.filter fun d => isValidPackageName isUppercase d.1).filterMap fun (name, range) => range.map (name, ·)

def collectOptionalDepSpecs (isUppercase : Char → Bool) (m : Manifest) : List (Str × Str) :=
  specs isUppercase m.optionalDependencies.list

def collectDepSpecs (isUppercase : Char → Bool) (m : Manifest) : List (Str × Str) :=
  specs isUppercase
    ((m.dependencies.list.filter fun d => !(m.optionalDependencies.list.any fun o => o.1 = d.1)) ++
      m.peerDependencies.list.filter fun d => d.1 ∉ m.optionalPeers)

/-! ## Versions -/

/-- One version in the metadata of a package. -/
structure VersionDoc where
  manifest : Manifest
  tarball : Option Str
  integrity : Option Str

structure Packument where
  latest : Option Str
  versions : Entries Str VersionDoc

def Packument.get (p : Packument) (version : Str) : Option VersionDoc :=
  (p.versions.list.find? fun v => v.1 = version).map Prod.snd

structure VersionMeta where
  tarball : Str
  integrity : Option Str
  optionalDeps : List (Str × Str)
  /-- What it was read from. -/
  manifest : Manifest

structure RegistryInfo where
  versions : List Str
  latest : Option Str
  versionMeta : Str → Option VersionMeta

def selectBestVersion (versions : List Str) (rangeStr : Str) (latest : Option Str) : Str :=
  let range := (SemverRange.parse rangeStr).getD .any
  let candidates := (versions.filterMap fun v => (Semver.parse v).map (·, v)).filter fun c => range.matches c.1
  ((((maxBy (fun a b => Semver.cmp a.1 b.1) candidates).map Prod.snd).or latest).or versions.getLast?).getD
    "latest".toList

def isRegistryRange (range : Str) : Bool :=
  let r := trim range
  if r.isEmpty || r = ['*'] || r = "latest".toList then true else ':' ∉ r

def installedVersionSatisfies (installed : Str) (requested : Option Str) : Bool :=
  match requested with
  | none => true
  | some requested =>
      let requested := trim requested
      if requested.isEmpty || requested = ['*'] || requested = "latest".toList then true
      else if isRegistryRange requested then
        match SemverRange.parse requested with
        | none => true
        | some range =>
            match Semver.parse installed with
            | none => false
            | some v => range.matches v
      else true

/-! ## The lockfile -/

/-- What `3va-lock.json` records of a package. -/
structure Pin where
  version : Str
  resolved : Option Str
  integrity : Option Str
  optional : Option Bool
  constraints : Constraints

/-- The algorithm of an integrity. -/
def algo (h : Str) : Str := ((h.splitOn '-').headD []).map Char.toLower

def lockViolation (lock : Str → Option Pin) (strict : Bool) (name version : Str) (integrity : Option Str) :
    Option Str :=
  match lock name with
  | none => if strict then some (name ++ "@".toList ++ version ++ " is not recorded in 3va-lock.json".toList) else none
  | some pin =>
      if pin.version ≠ version then
        if strict then
          some (name ++ " resolved to ".toList ++ version ++ " but 3va-lock.json pins ".toList ++ pin.version)
        else none
      else
        match pin.integrity, integrity with
        | some locked, some served =>
            if locked = served then none
            else if algo locked ≠ algo served then
              if strict then
                some (name ++ "@".toList ++ version ++ ": 3va-lock.json records a ".toList ++ algo locked ++
                  " hash that can't be checked against the registry's ".toList ++ algo served ++
                  "; re-lock with `3va install`".toList)
              else none
            else
              some (name ++ "@".toList ++ version ++ ": registry serves integrity ".toList ++ served ++
                " but 3va-lock.json records ".toList ++ locked)
        | some locked, none =>
            some (name ++ "@".toList ++ version ++ ": registry serves integrity (none)".toList ++
              " but 3va-lock.json records ".toList ++ locked)
        | none, _ =>
            if strict then some (name ++ "@".toList ++ version ++ " has no integrity in 3va-lock.json".toList) else none

/-! ## Lookups -/

/-- A package to resolve, how it was asked for, and whether it may be missing. -/
structure WaveNode where
  name : Str
  requested : Option Str
  optional : Bool
deriving DecidableEq

namespace WaveNode

def required (name : Str) (requested : Option Str) : WaveNode := ⟨name, requested, false⟩

def ofOptional (name requested : Str) : WaveNode := ⟨name, some requested, true⟩

/-- `version_to_fetch` -/
def versionToFetch (node : WaveNode) : Str := node.requested.getD "latest".toList

end WaveNode

/-- An optional dependency that does not apply to this platform. -/
structure SkippedOptional where
  name : Str
  version : Str
  constraints : Constraints
deriving DecidableEq

/-- What an install reads: its flags, `.npmrc`, `package.json`, `3va-lock.json`, `node_modules`, the content store and
the registry. -/
structure Env where
  force : Bool
  strictLock : Bool
  platform : Platform
  baseUrl : Str
  /-- The private registry of a name whose scope `.npmrc` pins. -/
  pinned : Str → Option Str
  /-- The Unicode property of the same name. -/
  isUppercase : Char → Bool
  overrides : Str → Option Str
  lock : Str → Option Pin
  nodeModules : Str → Option Manifest
  /-- The `package.json` of a version in the content store. -/
  store : Str → Str → Option Manifest
  /-- `GET /name/version`; `none` is a status that is no success. -/
  getVersion : Str → Str → Except Str (Option VersionDoc)
  /-- `fetch_packument` -/
  getPackument : Str → Except Str Packument

/-- The result of the task that looks a node up. -/
inductive Fetched
  | failed (message : Str)
  | skipped (record : Option SkippedOptional)
  | found (info : RegistryInfo) (deps : List (Str × Str))

namespace Env

variable (env : Env)

def tarballAt (base name version : Str) : Str :=
  base ++ "/".toList ++ name ++ "/-/".toList ++ name ++ "-".toList ++ version ++ ".tgz".toList

/-- The metadata of a version as the waves keep it. -/
def versionMeta (name version : Str) (doc : VersionDoc) : VersionMeta where
  tarball := doc.tarball.getD (tarballAt ((env.pinned name).getD env.baseUrl) name version)
  integrity := doc.integrity
  optionalDeps := collectOptionalDepSpecs env.isUppercase doc.manifest
  manifest := doc.manifest

def registryInfoFromPackument (name : Str) (data : Packument) : RegistryInfo where
  versions := data.versions.list.map Prod.fst
  latest := data.latest
  versionMeta := fun version => (data.get version).map (env.versionMeta name version)

/-- The dependencies of a version of a packument, none if it is not there. -/
def depsOf (data : Packument) (version : Str) : List (Str × Str) :=
  ((data.get version).map fun doc => collectDepSpecs env.isUppercase doc.manifest).getD []

def lookupNpmCompatWithDeps (name range : Str) : Except Str (RegistryInfo × List (Str × Str)) :=
  match env.getPackument name with
  | .error message => .error message
  | .ok data =>
      let info := env.registryInfoFromPackument name data
      .ok (info, env.depsOf data (selectBestVersion info.versions range info.latest))

def lookupNpmVersion (name version : Str) : Except Str (RegistryInfo × List (Str × Str)) :=
  match env.getVersion name version with
  | .error message => .error message
  | .ok none => env.lookupNpmCompatWithDeps name version
  | .ok (some doc) =>
      let resolvedVersion := doc.manifest.version.getD version
      .ok ({ versions := [resolvedVersion]
             latest := none
             versionMeta := fun v =>
               if v = resolvedVersion then some (env.versionMeta name resolvedVersion doc) else none },
        collectDepSpecs env.isUppercase doc.manifest)

/-- The constraints of a version, with the `libc` that only its full manifest has. -/
def constraintsOf (name version : Str) (c : Constraints) : Constraints :=
  if env.platform.os = "linux".toList && c.libc.isNone && c.os.isSome then
    match env.getVersion name version with
    | .ok (some full) => { c with libc := full.manifest.constraints.libc }
    | _ => c
  else c

def resolveOptionalDep (name range : Str) : Fetched :=
  match env.getPackument name with
  | .error _ => .skipped none
  | .ok data =>
      let info := env.registryInfoFromPackument name data
      if info.versions.isEmpty then .skipped none
      else
        let version := selectBestVersion info.versions range info.latest
        let constraints :=
          env.constraintsOf name version (((data.get version).map fun doc => doc.manifest.constraints).getD .none)
        if manifestAccepts constraints env.platform then .found info (env.depsOf data version)
        else .skipped (some ⟨name, version, constraints⟩)

/-- The requested range matches the pinned version. -/
def pinInRange (requested : Option Str) (pin : Pin) : Bool :=
  match requested.bind SemverRange.parse, Semver.parse pin.version with
  | some range, some version => range.matches version
  | _, _ => false

def lockSaysNotForThisPlatform (node : WaveNode) : Option SkippedOptional :=
  (env.lock node.name).bind fun pin =>
    if pin.optional = some true && pin.constraints ≠ .none && pinInRange node.requested pin &&
        !manifestAccepts pin.constraints env.platform then
      some ⟨node.name, pin.version, pin.constraints⟩
    else none

def offlineResolution (node : WaveNode) : Option (RegistryInfo × List (Str × Str)) := do
  let pin ← env.lock node.name
  let integrity ← pin.integrity
  let requested := node.versionToFetch
  if !isRegistryRange requested || (trim requested).all Char.isAlpha then none
  else if !pinInRange (some requested) pin then none
  else
    let manifest ← env.store node.name pin.version
    if node.optional && !manifestAccepts manifest.constraints env.platform then none
    else
      some
        ({ versions := [pin.version]
           latest := none
           versionMeta := fun v =>
             if v = pin.version then
               some ⟨pin.resolved.getD [], some integrity, collectOptionalDepSpecs env.isUppercase manifest, manifest⟩
             else none },
          collectDepSpecs env.isUppercase manifest)

/-- The failure of a name that is pinned to a private registry. -/
def guardError (name pin message : Str) : Str :=
  "dependency-confusion guard: '".toList ++ name ++ "' is pinned to private registry ".toList ++ pin ++
    " via .npmrc, which failed (".toList ++ message ++ "). Refusing to fall back to the public registry.".toList

/-- The lookup of a node at the registry. -/
def fetchOnline (node : WaveNode) : Fetched :=
  if node.optional then env.resolveOptionalDep node.name node.versionToFetch
  else
    match env.lookupNpmVersion node.name node.versionToFetch with
    | .ok (info, deps) => .found info deps
    | .error message =>
        match env.pinned node.name with
        | some pin => .failed (guardError node.name pin message)
        | none => .failed message

def fetch (node : WaveNode) : Fetched :=
  match env.pinned node.name with
  | some _ => env.fetchOnline node
  | none =>
      match if node.optional then env.lockSaysNotForThisPlatform node else none with
      | some record => .skipped (some record)
      | none =>
          match env.offlineResolution node with
          | some (info, deps) => .found info deps
          | none => env.fetchOnline node

def applyOverride (name : Str) (requested : Option Str) : Option Str := (env.overrides name).or requested

/-- A node with the range that an override forces. -/
def overridden (node : WaveNode) : WaveNode := { node with requested := env.applyOverride node.name node.requested }

/-- The package is not installed, or not at a version that satisfies the request. -/
def needsFetch (node : WaveNode) : Bool :=
  env.force ||
    match env.nodeModules node.name with
    | none => true
    | some manifest =>
        match manifest.version with
        | none => true
        | some installed =>
            match node.requested with
            | none => false
            | some range => !installedVersionSatisfies installed (some range)

/-- The highest match, or under `strict_lock` the pinned version. -/
def chosenVersion (node : WaveNode) (info : RegistryInfo) : Str :=
  let best := selectBestVersion info.versions node.versionToFetch info.latest
  match env.lock node.name with
  | some pin => if env.strictLock && (info.versionMeta pin.version).isSome then pin.version else best
  | none => best

/-- The dependencies that a manifest lists, required ones first. -/
def listed (m : Manifest) : List WaveNode :=
  (collectDepSpecs env.isUppercase m).map (fun d => .required d.1 (some d.2)) ++
    (collectOptionalDepSpecs env.isUppercase m).map fun d => .ofOptional d.1 d.2

end Env

/-! ## Waves -/

/-- A value of `resolved`. -/
structure Resolved where
  version : Str
  tarball : Str
  integrity : Option Str
deriving DecidableEq

/-- What the wave takes from the result of a task. -/
structure WaveResult where
  resolved : Option Resolved
  guardErrors : List Str
  /-- The dependencies that the lookup returned, with the optional ones of the version chosen. -/
  children : List WaveNode
  /-- The dependencies that a `package.json` already in place lists. -/
  onDisk : List WaveNode
  skipped : List SkippedOptional
  /-- The lookup failed, which is logged or aborts the install. -/
  failed : Bool
deriving DecidableEq

def Env.result (env : Env) (node : WaveNode) : WaveResult :=
  match env.fetch node with
  | .failed message =>
      { resolved := none
        guardErrors := if "dependency-confusion guard".toList <:+: message then [message] else []
        children := [], onDisk := [], skipped := [], failed := true }
  | .skipped record =>
      { resolved := none, guardErrors := [], children := [], onDisk := [], skipped := record.toList, failed := false }
  | .found info deps =>
      let version := env.chosenVersion node info
      let chosen := info.versionMeta version
      { resolved := chosen.map fun found => ⟨version, found.tarball, found.integrity⟩
        guardErrors := (chosen.bind fun found =>
          lockViolation env.lock env.strictLock node.name version found.integrity).toList
        children := deps.map (fun d => .required d.1 (some d.2)) ++
          ((chosen.map VersionMeta.optionalDeps).getD []).map fun d => .ofOptional d.1 d.2
        onDisk := ((env.nodeModules node.name).map (collectDepSpecs env.isUppercase)).getD []
          |>.map fun d => .required d.1 (some d.2)
        skipped := []
        failed := false }

/-- What is put into the next wave. -/
def WaveResult.listings (r : WaveResult) : List WaveNode := r.children ++ r.onDisk

structure State where
  currentWave : List WaveNode
  resolved : Str → Option Resolved
  visited : Finset Str
  guardErrors : List Str
  skipped : List SkippedOptional
  /-- The names whose lookup failed. -/
  failures : List Str
  /-- The nodes of all waves so far. -/
  seen : List WaveNode

/-- `next_wave_deps.entry(name).or_insert(..)` -/
def orInsert (nodes : List WaveNode) (node : WaveNode) : List WaveNode :=
  if nodes.any fun n => n.name = node.name then nodes else nodes ++ [node]

/-- The order in which the lookups of a wave complete and the one in which the next wave is read from its map. -/
structure Order where
  done : List WaveNode
  next : List WaveNode

namespace State

def start (roots : List (Str × Option Str)) : State where
  currentWave := roots.map fun (name, requested) => .required name requested
  resolved := fun _ => none
  visited := ∅
  guardErrors := []
  skipped := []
  failures := []
  seen := []

/-- A wave without the names visited before, unless they are required now. -/
def wave (env : Env) (s : State) : List WaveNode :=
  let requiredNames := (s.currentWave.filter fun n => !n.optional).map WaveNode.name
  (s.currentWave.filter fun n => !(n.name ∈ s.visited && n.name ∉ requiredNames)).map env.overridden

def unvisited (s : State) (node : WaveNode) : Bool := node.name ∉ s.visited

/-- A node of a wave that is installed as a whole. -/
def walk (env : Env) (s : State) (node : WaveNode) : State :=
  match env.nodeModules node.name with
  | none => s
  | some manifest =>
      { s with
        resolved :=
          match manifest.version with
          | none => s.resolved
          | some version =>
              Function.update s.resolved node.name ((s.resolved node.name).or (some
                { version, tarball := Env.tarballAt env.baseUrl node.name version, integrity := none }))
        currentWave := s.currentWave ++ (env.listed manifest).filter s.unvisited }

/-- The next result of a wave that has something to fetch; `currentWave` gathers `next_wave_deps`. -/
def join (env : Env) (s : State) (node : WaveNode) : State :=
  let r := env.result node
  { s with
    resolved := match r.resolved with
      | some entry => Function.update s.resolved node.name (some entry)
      | none => s.resolved
    guardErrors := s.guardErrors ++ r.guardErrors
    skipped := s.skipped ++ r.skipped
    failures := if r.failed then s.failures ++ [node.name] else s.failures
    currentWave := (r.listings.filter s.unvisited).foldl orInsert s.currentWave }

/-- The wave under way: its nodes are visited. -/
def enter (env : Env) (s : State) : State :=
  { s with
    currentWave := []
    visited := s.visited ∪ ((s.wave env).map WaveNode.name).toFinset
    seen := s.seen ++ s.wave env }

def needsFetch (env : Env) (s : State) : List WaveNode := (s.wave env).filter env.needsFetch

/-- One wave. The loop ends when there is none. -/
def step (env : Env) (s : State) (o : Order) : Option State :=
  if (s.wave env).isEmpty then none
  else if (s.needsFetch env).isEmpty then some ((s.wave env).foldl (walk env) (s.enter env))
  else
    let joined := o.done.foldl (join env) (s.enter env)
    if o.done.isPerm (s.needsFetch env) && o.next.isPerm joined.currentWave then
      some { joined with currentWave := o.next }
    else none

end State

end ThreeVa.Pm.Install
