import ThreeVa.Workspace.Affected
import ThreeVa.Workspace.Lemmas.Run

/-!
# Theorems about workspaces

The order in which the members are listed, what a script that is run in all of them does after a failure, and the members
that a change affects.
-/

namespace ThreeVa.Workspace
open Text

namespace WorkspaceGraph

/-! ## Order -/

/-- The loop ends; there is an order exactly if there is no cycle, it lists every member after those it depends on, and it
does not depend on how the maps are iterated. -/
theorem topologicalOrder_spec (g : WorkspaceGraph) :
    g.kahn.queue = [] ∧ ((∃ order, g.topologicalOrder = .ok order) ↔ Dag.Acyclic g.Edge) ∧
      (∀ order, g.topologicalOrder = .ok order → order.Perm g.names ∧ Dag.Ordered g.Edge order) ∧
      ∀ g', SameMaps g g' → g.topologicalOrder = g'.topologicalOrder := by
  refine ⟨kahn_done.2, ⟨?_, ?_⟩, ?_, ?_⟩
  · rintro ⟨order, hok⟩
    exact acyclic_of_order_perm (topologicalOrder_eq_ok.mp hok).1
  · intro hacyclic
    exact ⟨_, topologicalOrder_eq_ok.mpr ⟨order_perm_of_acyclic hacyclic, rfl⟩⟩
  · intro order hok
    obtain ⟨hperm, rfl⟩ := topologicalOrder_eq_ok.mp hok
    exact ⟨hperm, kahn_done.1.ordered⟩
  · intro g' hsame
    unfold topologicalOrder
    rw [hsame.kahn, hsame.names_perm.length_eq]

/-! ## Failures -/

/-- A run ends with one result per member and starts none before the results of those it depends on; the failures reach
whoever depends on them, directly or not, exactly if they break directly. -/
theorem run_reports_failures_iff (g : WorkspaceGraph) (input : RunInput) (hacyclic : Dag.Acyclic g.Edge) :
    ∃ s, g.runWorkspaceScript input = .ok s ∧ s.remaining = [] ∧ (s.results.map Prod.fst).Perm g.names ∧
      (∀ l₁ p l₂, s.log = l₁ ++ .started p :: l₂ → ∀ d, g.Edge p d → ∃ status, .result d status ∈ l₁) ∧
      ((∀ p q message, Relation.TransGen g.Edge p q → (q, .failed message) ∈ s.results →
          (p, .skipped) ∈ s.results ∧ .started p ∉ s.log) ↔ g.BreaksDirectly input) := by
  have horder := order_perm_of_acyclic hacyclic
  obtain ⟨hinv, -, hleft⟩ := runOrder_done input hacyclic horder order_nodup
  refine ⟨g.runOrder input g.kahn.order, ?_, hleft, ?_, ?_, ?_⟩
  · unfold runWorkspaceScript
    rw [topologicalOrder_eq_ok.mpr ⟨horder, rfl⟩]
    rfl
  · have hperm := hinv.perm.trans horder
    rwa [hleft, List.append_nil, hinv.completed] at hperm
  · intro l₁ p l₂ hlog d hd
    exact hinv.result_before hlog hd
  · rw [← reaches_iff_breaksDirectly hacyclic (hinv.failed_iff hleft horder)]
    have hmember : ∀ {p q}, Relation.TransGen g.Edge p q → p ∈ g.kahn.order := by
      intro p q hpq
      obtain ⟨d, hd, -⟩ := Relation.TransGen.head'_iff.mp hpq
      exact horder.mem_iff.mpr (Edge.member hd).1
    constructor
    · rintro hall p q hpq ⟨message, hq⟩
      exact (hinv.skipped_iff hleft (hmember hpq)).mp (hall p q message hpq hq)
    · intro hall p q message hpq hq
      exact (hinv.skipped_iff hleft (hmember hpq)).mpr (hall p q hpq ⟨message, hq⟩)

def testMember (name : Str) (dep : Option Str) : WorkspacePackage where
  name := name
  path := "/fake/".toList ++ name
  dependencies := dep.elim .empty fun d => ⟨[(d, some ['*'])], by simp⟩
  devDependencies := .empty
  peerDependencies := .empty
  scripts := ["test".toList]

/-- `c` depends on `b` and `b` on `a`. -/
def chain : WorkspaceGraph := build [testMember ['a'] none, testMember ['b'] (some ['a']), testMember ['c'] (some ['b'])]

theorem chain_acyclic : Dag.Acyclic chain.Edge :=
  acyclic_of_order_perm (length_order_iff.mp (by decide +kernel))

/-- The script of `a` fails. -/
def brokenAtA : RunInput where
  script := "test".toList
  affectedOnly := none
  parallelism := 4
  outcome := fun name => if name = ['a'] then some "exit code Some(1)".toList else none

theorem chain_run : Dag.Acyclic chain.Edge ∧ ∃ s, chain.runWorkspaceScript brokenAtA = .ok s ∧ s.remaining = [] := by
  obtain ⟨s, hrun, hleft, -⟩ := run_reports_failures_iff chain brokenAtA chain_acyclic
  exact ⟨chain_acyclic, s, hrun, hleft⟩

/-- `b` is skipped and counts as completed, so `c` runs. -/
theorem chain_starts_below_failure :
    ∃ s, chain.runWorkspaceScript brokenAtA = .ok s ∧ Relation.TransGen chain.Edge ['c'] ['a'] ∧
      (['a'], .failed "exit code Some(1)".toList) ∈ s.results ∧ .started ['c'] ∈ s.log ∧
      (['c'], .success) ∈ s.results := by
  refine ⟨chain.runOrder brokenAtA chain.kahn.order, ?_, ?_, ?_, ?_, ?_⟩
  · unfold runWorkspaceScript topologicalOrder
    rw [if_neg (by decide +kernel)]
    rfl
  · have hc : chain.Edge ['c'] ['b'] := by
      unfold Edge
      decide +kernel
    have hb : chain.Edge ['b'] ['a'] := by
      unfold Edge
      decide +kernel
    exact .tail (.single hc) hb
  · decide +kernel
  · decide +kernel
  · decide +kernel

/-! ## Changes -/

/-- The affected packages are those that need a package with a changed path in its directory exactly if comparing the
texts of the paths makes no difference to them. -/
theorem affectedExact_iff (g : WorkspaceGraph) (changed : List Str) :
    g.AffectedExact changed ↔ g.PathsLikeDirectories changed := by
  have hmem : ∀ name, name ∈ g.affectedPackages changed ↔ g.Needs (fun pkg => startsWithPath changed pkg = true) name :=
    affected_spec.2
  constructor
  · intro h
    refine ⟨fun x hx hstarts => ?_, fun x hx hcontains => ?_⟩
    · exact (h x.1).mp ((hmem x.1).mpr (needs_self hx hstarts))
    · exact (hmem x.1).mp ((h x.1).mpr (needs_self hx hcontains))
  · intro h name
    rw [hmem]
    exact ⟨fun hneeds => hneeds.trans h.starts, fun hneeds => hneeds.trans h.contains⟩

def uiMember : WorkspacePackage := testMember "ui".toList none

def kitMember : WorkspacePackage := testMember "ui-kit".toList none

/-- Two members without dependencies. -/
def siblings : WorkspaceGraph := build [uiMember, kitMember]

def kitFile : Str := "/fake/ui-kit/index.js".toList

theorem sibling_affected :
    uiMember.name ∈ siblings.affectedPackages [kitFile] ∧ ¬ siblings.AffectedExact [kitFile] := by
  have hlist : siblings.packages.list = [(uiMember.name, uiMember), (kitMember.name, kitMember)] := rfl
  have hmem : uiMember.name ∈ siblings.affectedPackages [kitFile] :=
    (affected_spec.2 _).mpr (needs_self (hlist ▸ List.mem_cons_self) (by decide))
  refine ⟨hmem, fun h => ?_⟩
  obtain ⟨x, hx, hreach, p, hp, -, -, hinside⟩ := (h _).mp hmem
  rw [List.mem_singleton.mp hp] at hinside
  rcases hreach.cases_head with hself | ⟨dep, hdep, -⟩
  · rw [hlist, List.mem_cons, List.mem_singleton] at hx
    rcases hx with rfl | rfl
    · exact absurd hinside (by decide)
    · exact absurd hself (by decide)
  · have hnone : siblings.deps uiMember.name = [] := rfl
    unfold Edge at hdep
    rw [hnone] at hdep
    cases hdep

end WorkspaceGraph

end ThreeVa.Workspace
