import Mathlib.Data.Finset.Basic
import Mathlib.Logic.Function.Iterate
import ThreeVa.Lib.Entries
import ThreeVa.Pm.Semver

/-!
# The resolver

`pm/src/resolver.rs`: the worklist of `Resolver::resolve`, one iteration of its loop a step. The stack is a list with
its top first. The registry is what answers the requests of one call.
-/

namespace ThreeVa.Pm
open Text Entries

/-! ## Nodes and graphs -/

/-- A `HashMap<String, String>` of names and constraints. -/
abbrev DepMap := Entries Str Str

structure DependencyNode where
  name : Str
  version : Str
  resolved : Option Str
  integrity : Option Str
  dependencies : DepMap
  devDependencies : DepMap
  peerDependencies : DepMap

structure DependencyGraph where
  nodes : Str → Option DependencyNode
  resolvedVersions : Str → Option Str

namespace DependencyGraph

def new : DependencyGraph := ⟨fun _ => none, fun _ => none⟩

/-- The key of a node: `name@version`. -/
def key (name version : Str) : Str := name ++ ['@'] ++ version

def addNode (g : DependencyGraph) (node : DependencyNode) : DependencyGraph :=
  { g with nodes := Function.update g.nodes (key node.name node.version) (some node) }

/-- `resolved_versions.insert` -/
def record (g : DependencyGraph) (name version : Str) : DependencyGraph :=
  { g with resolvedVersions := Function.update g.resolvedVersions name (some version) }

end DependencyGraph

/-! ## The registry -/

/-- One entry of `versions` in the metadata of a package. -/
structure VersionMeta where
  tarball : Option Str
  integrity : Option Str
  dependencies : DepMap
  devDependencies : DepMap
  peerDependencies : DepMap

inductive Response
  /-- No answer in time, or one that is no JSON. -/
  | failed
  /-- A status that is no success. -/
  | refused
  | metadata (versions : Entries Str VersionMeta)

abbrev Registry := Str → Response

def DependencyNode.ofMeta (name version : Str) (info : VersionMeta) : DependencyNode where
  name := name
  version := version
  resolved := info.tarball
  integrity := info.integrity
  dependencies := info.dependencies
  devDependencies := info.devDependencies
  peerDependencies := info.peerDependencies

def fetch (registry : Registry) (name : Str) : Option (List DependencyNode) :=
  match registry name with
  | .failed => none
  | .refused => some []
  | .metadata versions => some (versions.list.map fun (version, info) => .ofMeta name version info)

theorem fetch_named {registry : Registry} {name : Str} {nodes : List DependencyNode}
    (h : fetch registry name = some nodes) : ∀ node ∈ nodes, node.name = name := by
  unfold fetch at h
  cases hr : registry name with
  | failed => simp [hr] at h
  | refused => simp_all
  | metadata versions =>
      simp only [hr, Option.some.injEq] at h
      intro node hnode
      rw [← h, List.mem_map] at hnode
      obtain ⟨_, _, rfl⟩ := hnode
      rfl

/-- The cache of a resolver: lists of nodes, each under the name its nodes carry. -/
structure Cache where
  get : Str → Option (List DependencyNode)
  named : ∀ name nodes, get name = some nodes → ∀ node ∈ nodes, node.name = name

namespace Cache

def empty : Cache := ⟨fun _ => none, by simp⟩

/-- `cache.entry(name).or_default().extend(nodes)` -/
def extend (c : Cache) (name : Str) (nodes : List DependencyNode) (h : ∀ node ∈ nodes, node.name = name) : Cache where
  get := Function.update c.get name (some ((c.get name).getD [] ++ nodes))
  named := by
    intro m l hl node hnode
    by_cases hm : m = name
    · subst hm
      simp only [Function.update_self, Option.some.injEq] at hl
      subst hl
      rcases List.mem_append.mp hnode with hold | hnew
      · cases hc : c.get m with
        | none => simp [hc] at hold
        | some old => exact c.named m old hc node (by simpa [hc] using hold)
      · exact h node hnew
    · rw [Function.update_of_ne hm] at hl
      exact c.named m l hl node hnode

/-- One handle of a batch awaited. -/
def await (registry : Registry) (c : Cache) (name : Str) : Cache :=
  match h : fetch registry name with
  | none => c
  | some nodes => c.extend name nodes (fetch_named h)

end Cache

/-! ## The worklist -/

instance : Ord Semver := ⟨Semver.cmp⟩

/-- The range matches the version of the node, if it is one. -/
def SemverRange.admits (range : SemverRange) (node : DependencyNode) : Bool :=
  match Semver.parse node.version with
  | some v => range.matches v
  | none => false

def findBestMatch (nodes : List DependencyNode) (version : Str) : Option DependencyNode :=
  (SemverRange.parse version).bind fun range =>
    maxBy (fun a b => compare (Semver.parse a.version) (Semver.parse b.version)) (nodes.filter range.admits)

/-- `Vec::extend` of a stack: the last item is on top. -/
def pushAll {α : Type} (items stack : List α) : List α := items.reverse ++ stack

/-- The entries of a map, names descending. -/
def descending (deps : DepMap) : List (Str × Str) := sortBy (fun a b => compare b.1 a.1) deps.list

structure Resolution where
  stack : List (Str × Str)
  cache : Cache
  fetched : Finset Str
  graph : DependencyGraph
  /-- The names asked from the registry so far. -/
  requests : List Str
  /-- The constraints the loop has taken off the stack and not put back, oldest first. -/
  popped : List (Str × Str)

namespace Resolution

def start (cache : Cache) (deps : DepMap) : Resolution where
  stack := pushAll (descending deps) []
  cache := cache
  fetched := ∅
  graph := .new
  requests := []
  popped := []

/-- Neither resolved nor cached nor fetched. -/
def unknown (s : Resolution) (item : Str × Str) : Bool :=
  !((s.graph.resolvedVersions item.1).isSome || (s.cache.get item.1).isSome || item.1 ∈ s.fetched)

/-- The popped entry joined by the unknown ones below it, fetched and put back on the stack. -/
def fetchBatch (registry : Registry) (s : Resolution) (item : Str × Str) (rest : List (Str × Str)) : Resolution :=
  let batch := item :: rest.takeWhile s.unknown
  { s with
    stack := pushAll batch.reverse (rest.dropWhile s.unknown)
    cache := (batch.map Prod.fst).foldl (Cache.await registry) s.cache
    fetched := s.fetched ∪ (batch.map Prod.fst).toFinset
    requests := s.requests ++ batch.map Prod.fst }

/-- The popped entry is done with. -/
def skip (s : Resolution) (item : Str × Str) (rest : List (Str × Str)) : Resolution :=
  { s with stack := rest, popped := s.popped ++ [item] }

/-- The popped entry is resolved to `best`, whose dependencies go on the stack. -/
def accept (s : Resolution) (item : Str × Str) (rest : List (Str × Str)) (best : DependencyNode) : Resolution :=
  { s.skip item rest with
    stack := pushAll (descending best.dependencies) rest
    graph := (s.graph.addNode best).record item.1 best.version }

def step (registry : Registry) (s : Resolution) : Resolution :=
  match s.stack with
  | [] => s
  | (name, version) :: rest =>
      if (s.graph.resolvedVersions name).isSome then s.skip (name, version) rest
      else
        match (s.cache.get name).bind (findBestMatch · version) with
        | some best => s.accept (name, version) rest best
        | none =>
            if name ∈ s.fetched || (s.cache.get name).isSome then s.skip (name, version) rest
            else s.fetchBatch registry (name, version) rest

/-- The loop after `n` iterations; it ends in the first state with an empty stack. -/
def run (registry : Registry) (cache : Cache) (deps : DepMap) (n : Nat) : Resolution :=
  (step registry)^[n] (start cache deps)

end Resolution

/-- `Resolver::resolve` returns, with `s` as the state at its end. -/
def Returns (registry : Registry) (cache : Cache) (deps : DepMap) (s : Resolution) : Prop :=
  ∃ n, Resolution.run registry cache deps n = s ∧ s.stack = []

end ThreeVa.Pm
