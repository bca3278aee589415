import ThreeVa.Js.Lemmas.CallerScope
import ThreeVa.Js.Lemmas.EventSource
import ThreeVa.Js.Lemmas.Profiler
import ThreeVa.Permissions.Theorems

/-!
What holds of the work that a script leaves for later, of the events that it waits for, and of the profiles of a run.
-/

/-! ## Deferred work -/

namespace ThreeVa.Js.CallerScope
open Text Permissions

/-- A package makes a promise, returns, and the reaction runs with nothing on the stack. -/
def evilReaction : List Event :=
  [.activate, .frames [some "/app/node_modules/evil/index.js".toList], .init 0 none, .frames [], .before 0]

def evilProcess (scope : ScopeState) (h : scope.rulesActive = true) : Process :=
  ⟨{ PermissionState.new.grant (.network "*".toList) with
      scopedDenied := ScopedRules.add ∅ "evil".toList (.network "*".toList) }, scope, fun _ => h⟩

end ThreeVa.Js.CallerScope

/-! ## Server-sent events -/

namespace ThreeVa.Js.EventSource
open Text

/-- A comment and an event of two lines. -/
def greeting : Reply :=
  .stream true [.comment ⟨"hi".toList, by decide⟩, .message ⟨some ⟨"tick".toList, by decide⟩, none, ⟨"1\n2".toList, by decide⟩⟩]

def greetingRun : List Op :=
  [.create, .create, .act 1 (.respond greeting.answer), .act 1 .next, .act 2 (.respond (.error [])), .act 1 .next, .act 1 .next,
    .act 1 (.poll none), .act 1 .next, .act 1 .next, .act 2 .close, .act 1 .next, .act 1 .next, .act 1 (.poll none)]

def greeted : Sources := (Runs.exec Sources.step .new greetingRun).getD .new

theorem exec_greeted : Runs.exec Sources.step .new greetingRun = some greeted := by
  have hrun : (Runs.exec Sources.step .new greetingRun).isSome = true := by decide +kernel
  obtain ⟨x, hx⟩ := Option.isSome_iff_exists.mp hrun
  rw [greeted, hx, Option.getD_some]

end ThreeVa.Js.EventSource

/-! ## Profiles -/

namespace ThreeVa.Js.Profiler
open Text

theorem pushed_built {pushes : List Push}
    (hbars : ∀ p ∈ pushes, ∀ f ∈ parseV8Stack p.stackStr, '|' ∉ f.functionName ∧ '|' ∉ f.url) :
    Built {f | ∃ s ∈ (pushAll pushes).samples, f ∈ s.frames} (building (pushAll pushes)) (pushAll pushes).samples := by
  refine built_building (distinct_of_bars ?_)
  rintro f ⟨s, hs, hf⟩
  rw [(pushAll_spec pushes).1] at hs
  obtain ⟨p, hp, rfl⟩ := List.mem_map.mp hs
  exact hbars p hp f hf

/-- Two samples, of which the second has only the outer call. -/
def recorded : List Push :=
  [⟨0, "at foo (app.js:10:5)\nat bar (a.js:5:1)".toList, none⟩, ⟨7, "at bar (a.js:5:1)".toList, some "load".toList⟩]

end ThreeVa.Js.Profiler
