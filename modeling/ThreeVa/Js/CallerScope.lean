import ThreeVa.Lib.Runs
import ThreeVa.Permissions.Capability

/-!
# Packages behind deferred work

`js/src/caller_scope.rs`, with the timers of `builtins/timers.rs` and the request handlers of `builtins/http_server.rs`: which
packages are held responsible for what runs now. V8 is the order of the events. Promises, bound functions and jobs (timers and
handlers) are numbers.
-/

namespace ThreeVa.Js.CallerScope
open Text Permissions

/-! ## The package of a path -/

/-- What follows the last occurrence of a text. -/
def afterLast (sep : Str) : Str → Option Str
  | [] => none
  | c :: s => afterLast sep s <|> stripPrefix sep (c :: s)

def packageScope (path : Str) : Option Str :=
  (afterLast "/node_modules/".toList (path.map fun c => if c = '\\' then '/' else c)).bind fun rest =>
    match rest.splitOn '/' with
    | [] => none
    | first :: parts =>
        if first = [] then none
        else if first.head? = some '@' then (parts.head?.filter (· ≠ [])).map fun second => first ++ '/' :: second
        else some first

/-- One frame of a stack: a package is taken in once, and the one of the entry script is not. -/
def addFrame (entry : Option Str) (out : List Str) (name : Option Str) : List Str :=
  match name.bind packageScope with
  | some pkg => if entry ≠ some pkg ∧ pkg ∉ out then out ++ [pkg] else out
  | none => out

/-- The packages of the frames of a stack. -/
def stackPackages (entry : Option Str) (names : List (Option Str)) : List Str := names.foldl (addFrame entry) []

/-! ## The engine -/

structure Engine where
  scope : ScopeState
  entryScope : Option Str
  /-- The inherited scopes that a promise hook put aside, the last ones first. -/
  saved : List (List Str)
  /-- Those that a job or a call of a bound function under way put aside; a plain function puts nothing aside. -/
  calls : List (Option (List Str))
  tags : Nat → Option Str
  /-- The tag of a bound function, empty for a plain one. -/
  bound : Nat → Str
  jobs : Nat → List Str

inductive Event
  /-- The first rule of a package. -/
  | activate
  /-- The names of the scripts on the stack. -/
  | frames (names : List (Option Str))
  | setScope (scope : Str)
  | init (promise : Nat) (parent : Option Nat)
  | before (promise : Nat)
  | after
  | resolve (promise : Nat)
  | bind (func : Nat)
  | call (func : Nat)
  | schedule (job : Nat)
  | fire (job : Nat)
  /-- The end of a call or of a job. -/
  | leave

def joinTag (scopes : List Str) : Str := ['\n'].intercalate scopes

def readTag : Option Str → List Str
  | some tag => tag.splitOn '\n'
  | none => []

namespace Engine

variable (e : Engine)

/-- The scopes that a promise is marked with. -/
def read (p : Nat) : List Str := readTag (e.tags p)

def setInherited (scopes : List Str) : Engine := { e with scope := { e.scope with inherited := scopes } }

/-- The scopes a new promise is marked with. -/
def initScopes (parent : Option Nat) : List Str :=
  ((e.scope.denyScopes ++ (parent.map e.read).getD []).insertionSort (· ≤ ·)).dedup

def step : Event → Engine
  | .activate => { e with scope := e.scope.markScopedRulesActive }
  | .frames names => { e with scope := { e.scope with stackResolver := some (stackPackages e.entryScope names) } }
  | .setScope s => { e with scope := { e.scope with current := if s = rootScope then [] else s } }
  | .init p parent =>
      if e.scope.rulesActive && e.initScopes parent ≠ [] then
        { e with tags := Function.update e.tags p (some (joinTag (e.initScopes parent))) }
      else e
  | .before p =>
      if e.scope.rulesActive then { e.setInherited (e.read p) with saved := e.scope.inherited :: e.saved } else e
  | .after =>
      if e.scope.rulesActive then
        match e.saved with
        | prev :: saved => { e.setInherited prev with saved := saved }
        | [] => e
      else e
  | .resolve _ => e
  | .bind f => { e with bound := Function.update e.bound f (if e.scope.rulesActive then joinTag e.scope.denyScopes else []) }
  | .call f =>
      if e.bound f = [] then { e with calls := none :: e.calls }
      else
        { e.setInherited (e.scope.inherited ++ ((e.bound f).splitOn '\n').filter (· ≠ [])) with
          calls := some e.scope.inherited :: e.calls }
  | .schedule j => { e with jobs := Function.update e.jobs j e.scope.denyScopes }
  | .fire j => { e.setInherited (e.jobs j) with calls := some e.scope.inherited :: e.calls }
  | .leave =>
      match e.calls with
      | some prev :: calls => { e.setInherited prev with calls := calls }
      | none :: calls => { e with calls := calls }
      | [] => e

/-- An engine that has run nothing. -/
def start (entry : Option Str) (active : Bool) : Engine where
  scope := ⟨[], some [], [], active⟩
  entryScope := entry
  saved := []
  calls := []
  tags := fun _ => none
  bound := fun _ => []
  jobs := fun _ => []

end Engine

/-! ## Responsibility -/

/-- What was begun last, and who was responsible before. -/
inductive Frame
  | reaction (aside : Set Str)
  | call (aside : Set Str)

def Frame.aside : Frame → Set Str
  | reaction aside => aside
  | call aside => aside

/-- What packages are responsible for, whatever an engine keeps of it. -/
structure Flow where
  active : Bool
  stack : Set Str
  current : Set Str
  /-- Who is responsible for the reaction, the call or the job that runs. -/
  now : Set Str
  frames : List Frame
  promise : Nat → Set Str
  bound : Nat → Set Str
  job : Nat → Set Str

namespace Flow

variable (a : Flow)

/-- Who is responsible for what happens now. Until a package has a rule nobody looks at the stack. -/
def responsible : Set Str := {s | a.active = true ∧ s ∈ a.stack} ∪ a.current ∪ a.now

/-- One event, if it ends what was begun last. Whoever is responsible for the making of a promise, for binding a function or
for scheduling a job is responsible for what it runs later, and so is who is responsible for the promise it is made from. -/
def step (entry : Option Str) : Event → Option Flow
  | .activate => some { a with active := true }
  | .frames names => some { a with stack := {pkg | entry ≠ some pkg ∧ ∃ name ∈ names, name.bind packageScope = some pkg} }
  | .setScope s => some { a with current := {x | x = s ∧ s ≠ rootScope ∧ s ≠ []} }
  | .init p parent =>
      some (if a.active then
        { a with promise := Function.update a.promise p (a.responsible ∪ (parent.map a.promise).getD ∅) }
      else a)
  | .before p => some { a with now := a.promise p, frames := .reaction a.now :: a.frames }
  | .after =>
      match a.frames with
      | .reaction aside :: frames => some { a with now := aside, frames := frames }
      | _ => none
  | .resolve _ => some a
  | .bind f => some { a with bound := Function.update a.bound f {s | a.active = true ∧ s ∈ a.responsible} }
  | .call f => some { a with now := a.now ∪ a.bound f, frames := .call a.now :: a.frames }
  | .schedule j => some { a with job := Function.update a.job j a.responsible }
  | .fire j => some { a with now := a.job j, frames := .call a.now :: a.frames }
  | .leave =>
      match a.frames with
      | .call aside :: frames => some { a with now := aside, frames := frames }
      | _ => none

def start (active : Bool) : Flow := ⟨active, ∅, ∅, ∅, [], fun _ => ∅, fun _ => ∅, fun _ => ∅⟩

end Flow

/-- An engine and what is said of its events. Events that do not nest are no run. -/
structure System where
  engine : Engine
  flow : Flow

namespace System

def step (x : System) (event : Event) : Option System :=
  (x.flow.step x.engine.entryScope event).map fun flow => ⟨x.engine.step event, flow⟩

/-- The same, when nothing is counted as begun. -/
def fresh (x : System) : System := ⟨x.engine, { x.flow with frames := [] }⟩

def start (entry : Option Str) (active : Bool) : System := ⟨Engine.start entry active, Flow.start active⟩

end System

end ThreeVa.Js.CallerScope
