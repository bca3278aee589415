import Mathlib.Logic.Relation
import ThreeVa.Lib.Worklist
import ThreeVa.Store.Paths
import ThreeVa.Workspace.Graph

/-!
# The members that a change affects

`affected_packages` of `pm/src/workspace_v2.rs`: the members whose path a changed path starts with, and all that depend on
them. Paths are texts.
-/

namespace ThreeVa.Workspace
open Text

namespace WorkspaceGraph

variable (g : WorkspaceGraph) (changed : List Str)

/-- Some changed path starts with the text of the path of the package. -/
def startsWithPath (pkg : WorkspacePackage) : Bool := changed.any fun p => pkg.path.isPrefixOf p

def directlyChanged : List Str := (g.packages.list.filter fun x => startsWithPath changed x.2).map Prod.fst

/-- The queue is empty after as many rounds as there are packages. -/
def affected : Worklist Str := .run g.counts.rev g.names.length (g.directlyChanged changed)

def affectedPackages : List Str := (g.affected changed).seen

/-! ## Directories -/

/-- `Path::starts_with` of an absolute path, by components. -/
def Inside (path dir : Str) : Prop :=
  path.head? = some '/' ∧ dir.head? = some '/' ∧ Store.segments dir <+: Store.segments path

/-- A changed path lies in the directory of the package. -/
def Contains (pkg : WorkspacePackage) : Prop := ∃ p ∈ changed, Inside p pkg.path

/-- The package, or one it depends on, directly or not, satisfies this. -/
def Needs (P : WorkspacePackage → Prop) (name : Str) : Prop :=
  ∃ x ∈ g.packages.list, Relation.ReflTransGen g.Edge name x.1 ∧ P x.2

/-- A package is affected if a changed path lies in its directory or in that of a package it needs. -/
def AffectedExact : Prop := ∀ name, name ∈ g.affectedPackages changed ↔ g.Needs (Contains changed) name

/-- A package whose path some changed path starts with contains one or needs one that does, and the other way round. -/
structure PathsLikeDirectories : Prop where
  starts : ∀ x ∈ g.packages.list, startsWithPath changed x.2 = true → g.Needs (Contains changed) x.1
  contains : ∀ x ∈ g.packages.list, Contains changed x.2 → g.Needs (fun pkg => startsWithPath changed pkg = true) x.1

end WorkspaceGraph

/-! ## Lemmas about the members that a change affects -/

namespace WorkspaceGraph

variable {g : WorkspaceGraph} {changed : List Str} {name : Str}

theorem mem_directlyChanged :
    name ∈ g.directlyChanged changed ↔ ∃ x ∈ g.packages.list, x.1 = name ∧ startsWithPath changed x.2 = true := by
  simp only [directlyChanged, List.mem_map, List.mem_filter]
  constructor
  · rintro ⟨x, ⟨hx, hstarts⟩, rfl⟩
    exact ⟨x, hx, rfl, hstarts⟩
  · rintro ⟨x, hx, rfl, hstarts⟩
    exact ⟨x, ⟨hx, hstarts⟩, rfl⟩

theorem directlyChanged_nodup : (g.directlyChanged changed).Nodup :=
  g.packages.distinct.sublist (List.filter_sublist.map _)

theorem directlyChanged_subset : g.directlyChanged changed ⊆ g.names := by
  intro name h
  obtain ⟨x, hx, rfl, -⟩ := mem_directlyChanged.mp h
  exact List.mem_map_of_mem hx

theorem reach_rev {s : Str} :
    Relation.ReflTransGen (fun a b => b ∈ g.counts.rev a) s name ↔ Relation.ReflTransGen g.Edge name s := by
  have hrev : (fun a b => b ∈ g.counts.rev a) = Function.swap g.Edge := by
    funext a b
    exact propext (g.mem_rev (n := b) (d := a))
  rw [hrev, Relation.reflTransGen_swap]

theorem affected_spec :
    (g.affected changed).queue = [] ∧ ∀ name, name ∈ g.affectedPackages changed ↔
      g.Needs (fun pkg => startsWithPath changed pkg = true) name := by
  have hnext : ∀ d ∈ g.names, g.counts.rev d ⊆ g.names := fun d _ n hn => (Edge.member (g.mem_rev.mp hn)).1
  obtain ⟨hqueue, hseen⟩ := Worklist.run_spec (directlyChanged_nodup (g := g))
    directlyChanged_subset hnext
  refine ⟨hqueue, fun name => (hseen name).trans ⟨?_, ?_⟩⟩
  · rintro ⟨s, hs, hreach⟩
    obtain ⟨x, hx, rfl, hstarts⟩ := mem_directlyChanged.mp hs
    exact ⟨x, hx, reach_rev.mp hreach, hstarts⟩
  · rintro ⟨x, hx, hreach, hstarts⟩
    exact ⟨x.1, mem_directlyChanged.mpr ⟨x, hx, rfl, hstarts⟩, reach_rev.mpr hreach⟩

theorem Needs.trans {P Q : WorkspacePackage → Prop} (h : g.Needs P name)
    (hstep : ∀ x ∈ g.packages.list, P x.2 → g.Needs Q x.1) : g.Needs Q name := by
  obtain ⟨x, hx, hreach, hP⟩ := h
  obtain ⟨y, hy, hreach', hQ⟩ := hstep x hx hP
  exact ⟨y, hy, hreach.trans hreach', hQ⟩

theorem needs_self {P : WorkspacePackage → Prop} {x : Str × WorkspacePackage} (hx : x ∈ g.packages.list) (h : P x.2) :
    g.Needs P x.1 := ⟨x, hx, .refl, h⟩

end WorkspaceGraph

end ThreeVa.Workspace
