import ThreeVa.Cli.Proc

/-!
# What is saved of a managed process

The saves of a run, beside the record in which every save sets only the fields that its party sets.
-/

namespace ThreeVa.Cli
open Text

def Effect.saved : Effect → Option Save
  | .save w | .stopped w _ => some w
  | .none | .sigterm _ | .sigkill _ | .launch _ _ | .spawn => Option.none

namespace State

variable (s : State)

/-- The record that the step saves. -/
def saved : Op → Option Save
  | .command i ok now => do
      let c ← s.commands[i]?
      let (_, effect) ← c.turn s now ok
      effect.saved
  | .supervisor i event now => do
      let q ← s.supervisors[i]?
      let (_, effect) ← q.next s now event
      effect.saved
  | .start _ _ | .attach _ _ | .stop | .restart | .exit _ _ => none

/-- The configuration of the supervisor that the step starts. -/
def launched : Op → Option SupervisorConfig
  | .attach cfg _ => some { cfg with startRestarts := 0 }
  | .command i true _ =>
      match s.commands[i]? with
      | some (.starting cfg _ _) => some cfg
      | _ => none
  | .command _ false _ | .supervisor _ _ _ | .start _ _ | .stop | .restart | .exit _ _ => none

/-- The record that the step saves for a supervisor it has started. -/
def recorded : Op → Option ProcessInfo
  | .command i true _ =>
      match s.commands[i]? with
      | some (.recording info _) => some info
      | _ => none
  | .command _ false _ | .supervisor _ _ _ | .start _ _ | .attach _ _ | .stop | .restart | .exit _ _ => none

/-- Nothing is under way: every command has ended, and every supervisor has, or waits with all its children running. -/
def Idle : Prop :=
  (∀ c ∈ s.commands, c = .ended) ∧
    ∀ q ∈ s.supervisors, q.phase = .exited ∨ q.phase = .waiting ∧ q.alive = q.children ∧ q.sigterm = false

/-- The recorded instances are the children that run. -/
def Recorded : Prop := s.file.map (·.instancePids) = some (s.supervisors.flatMap (·.alive))

/-- No supervisor runs. -/
def NoneRunning : Prop := ∀ q ∈ s.supervisors, q.phase = .exited

end State

/-- `ideal` has every field as it was last set, and `counters` are the restart counters saved so far. -/
structure Traced where
  state : State
  ideal : Option ProcessInfo
  counters : List Nat

namespace Traced

def new (logPath : Str) : Traced := ⟨.new logPath, none, []⟩

def note (t : Traced) (w : Save) : Traced :=
  { t with
    ideal := some (t.ideal.elim w.info w.write.apply)
    counters := t.counters ++ [w.info.restarts] }

def step (t : Traced) (op : Op) : Option Traced :=
  (t.state.step op).map fun s' => { ((t.state.saved op).elim t t.note) with state := s' }

end Traced

/-! ## Conditions -/

/-- What a party saves is what it has read, which still stands in the file up to the fields it sets. -/
def State.UpToDate (s : State) (op : Op) : Prop :=
  ∀ w ∈ s.saved op, ∀ info ∈ s.file, w.info = w.write.apply info

def Phase.isSaving : Phase → Bool
  | .saving _ => true
  | .boot | .spawning | .waiting | .killing _ _ | .closing _ | .writing _ _ | .sleeping | .exited => false

/-- A supervisor is started where none runs, the record of a started supervisor is saved before that supervisor has saved
its own, and no save of a supervisor fails. -/
def State.Alone (s : State) (op : Op) : Prop :=
  (s.launched op ≠ none → s.NoneRunning) ∧
    (s.recorded op ≠ none → ∀ q ∈ s.supervisors, q.phase ≠ .waiting) ∧
      match op with
      | .supervisor i (.go false) _ => ∀ q ∈ s.supervisors[i]?, q.phase.isSaving = false
      | _ => True

/-- Between the start of a supervisor and the last save of the command that has started it. -/
def Command.starts : Command → Bool
  | .recording _ _ | .counting _ _ => true
  | .stopping _ _ | .restarting | .starting _ _ _ | .ended => false

/-- A supervisor is started where none runs or is being started and with a counter not below the recorded one, its record
is saved over a counter that is zero, and no counter overflows. -/
def State.Counts (s : State) (op : Op) : Prop :=
  (∀ cfg ∈ s.launched op, s.NoneRunning ∧ (∀ c ∈ s.commands, c.starts = false) ∧
      ∀ info ∈ s.file, info.restarts ≤ cfg.startRestarts) ∧
    (s.recorded op ≠ none → ∀ info ∈ s.file, info.restarts = 0) ∧
      match op with
      | .supervisor i _ _ => ∀ q ∈ s.supervisors[i]?, q.phase = .killing false [] → q.restarts < 4294967295
      | _ => True

end ThreeVa.Cli
