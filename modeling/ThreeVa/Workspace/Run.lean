import Mathlib.Logic.Relation
import ThreeVa.Workspace.Graph

/-!
# Running a script in every member

`run_workspace_script` of `pm/src/workspace_v2.rs`. What a script ends with is a function of the package. The log says
when a package is started and when a result is reported.
-/

namespace ThreeVa.Workspace
open Text

inductive RunStatus
  | success
  | failed (message : Str)
  | skipped
deriving DecidableEq

inductive RunEvent
  | started (name : Str)
  | result (name : Str) (status : RunStatus)
deriving DecidableEq

/-- What a run is given: the script, the affected packages if only they are to run, the number of slots, and for each
package whether its script fails and with which message. -/
structure RunInput where
  script : Str
  affectedOnly : Option (List Str)
  parallelism : Nat
  outcome : Str → Option Str

structure RunState where
  remaining : List Str
  completed : List Str
  log : List RunEvent

namespace RunState

/-- `results` -/
def results (s : RunState) : List (Str × RunStatus) :=
  s.log.filterMap fun
    | .started _ => none
    | .result name status => some (name, status)

/-- A result is reported, and the package is done. -/
def report (s : RunState) (name : Str) (status : RunStatus) : RunState where
  remaining := s.remaining.filter (· ≠ name)
  completed := s.completed ++ [name]
  log := s.log ++ [.result name status]

end RunState

namespace WorkspaceGraph

variable (g : WorkspaceGraph) (input : RunInput)

def hasScript (name : Str) : Bool :=
  (g.packages.list.find? fun p => p.1 = name).elim false fun p => p.2.scripts.contains input.script

def isAffected (name : Str) : Bool := input.affectedOnly.elim true (·.contains name)

/-- A package of the batch: it is skipped, or its task is spawned. -/
def launch (st : RunState × List Str) (name : Str) : RunState × List Str :=
  let (s, tasks) := st
  if !isAffected input name then (s.report name .skipped, tasks)
  else if !g.hasScript input name then (s.report name .skipped, tasks)
  else ({ s with log := s.log ++ [.started name] }, tasks ++ [name])

/-- The packages still to run that depend on one that failed. -/
def toSkip (s : RunState) (failed : Str) : List Str := s.remaining.filter fun n => failed ∈ g.deps n

/-- The end of a task. -/
def await (s : RunState) (name : Str) : RunState :=
  match input.outcome name with
  | none => s.report name .success
  | some message =>
      let s := s.report name (.failed message)
      (g.toSkip s name).foldl (fun s n => s.report n .skipped) s

def batch (s : RunState) : List Str :=
  (s.remaining.filter fun n => (g.deps n).all (· ∈ s.completed)).take (max input.parallelism 1)

/-- One iteration of the loop; without a batch there is none. -/
def runStep (s : RunState) : RunState :=
  let (s, tasks) := (g.batch input s).foldl (g.launch input) (s, [])
  tasks.foldl (g.await input) s

/-- The run over an order, at most as many iterations as it has packages. -/
def runOrder (order : List Str) : RunState :=
  (g.runStep input)^[order.length] { remaining := order, completed := [], log := [] }

def runWorkspaceScript : Except Str RunState := g.topologicalOrder.map (g.runOrder input)

/-! ## Failures -/

/-- The package has the script and is affected. -/
def Selected (name : Str) : Prop := isAffected input name ∧ g.hasScript input name

/-- Its script fails whenever it runs. -/
def Broken (name : Str) : Prop := g.Selected input name ∧ (input.outcome name).isSome

/-- None of the packages it depends on, directly or not, is broken. -/
def FirstBroken (name : Str) : Prop :=
  g.Broken input name ∧ ∀ dep, Relation.TransGen g.Edge name dep → ¬ g.Broken input dep

/-- Whoever depends on a broken package depends directly on one that is the first to break. -/
def BreaksDirectly : Prop :=
  ∀ name dep, g.Selected input name → Relation.TransGen g.Edge name dep → g.Broken input dep →
    ∃ d, g.Edge name d ∧ g.FirstBroken input d

end WorkspaceGraph

end ThreeVa.Workspace
