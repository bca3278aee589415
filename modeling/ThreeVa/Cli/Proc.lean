import ThreeVa.Lib.Runs
import ThreeVa.Lib.Text

/-!
# Managed processes

`start_managed`, `run_supervisor`, `stop_process` and `restart_process` of `cli/src/proc.rs`, for one process name on
Unix. A supervisor and a command see each other only through the record in the state file, through signals and through
pids; each of their accesses to one of these is a step of its own. Pids are not reused.
-/

namespace ThreeVa.Cli
open Text

abbrev Pid := Nat

inductive Status where
  | running
  | stopped
  | error
  | crashed
  deriving DecidableEq, Repr

structure ProcessInfo where
  entry : Str
  pid : Pid
  cwd : Str
  logPath : Str
  status : Status
  startedAt : Nat
  restarts : Nat
  args : List Str
  port : Option Nat
  instances : Nat
  maxRestarts : Nat
  autorestart : Bool
  instancePids : List Pid
  allowInsecure : Bool
  verbose : Bool
  deriving DecidableEq, Repr

structure SupervisorConfig where
  entry : Str
  args : List Str
  port : Option Nat
  instances : Nat
  maxRestarts : Nat
  autorestart : Bool
  startRestarts : Nat
  allowInsecure : Bool
  verbose : Bool
  deriving DecidableEq, Repr

/-- One more restart, in the counter's 32 bits. -/
def bump (restarts : Nat) : Nat := (restarts + 1) % 4294967296

def resolveEntryAndRunDir (entry cwd : Str) : Str × Str :=
  let absEntry :=
    if ['/'] <+: entry then entry
    else if cwd = [] ∨ ['/'] <:+ cwd then cwd ++ entry
    else cwd ++ '/' :: entry
  (absEntry, cwd)

/-- The configuration with which `restart_process` starts the process again. -/
def SupervisorConfig.again (info : ProcessInfo) : SupervisorConfig where
  entry := info.entry
  args := info.args
  port := info.port
  instances := info.instances
  maxRestarts := info.maxRestarts
  autorestart := info.autorestart
  startRestarts := bump info.restarts
  allowInsecure := info.allowInsecure
  verbose := info.verbose

/-- A record made from a configuration. -/
def ProcessInfo.new (cfg : SupervisorConfig) (pid : Pid) (cwd logPath : Str) (now restarts : Nat) : ProcessInfo where
  entry := cfg.entry
  pid := pid
  cwd := cwd
  logPath := logPath
  status := .running
  startedAt := now
  restarts := restarts
  args := cfg.args
  port := cfg.port
  instances := cfg.instances
  maxRestarts := cfg.maxRestarts
  autorestart := cfg.autorestart
  instancePids := []
  allowInsecure := cfg.allowInsecure
  verbose := cfg.verbose

/-! ## Saving -/

/-- The fields that a party sets in the record it has before it saves the record. -/
inductive Write where
  | all (info : ProcessInfo)
  | cohort (pid : Pid) (restarts : Nat) (cfg : SupervisorConfig) (pids : List Pid)
  | status (value : Status)
  | counter (restarts : Nat)

def Write.apply : Write → ProcessInfo → ProcessInfo
  | .all info, _ => info
  | .cohort pid restarts cfg pids, info =>
      { info with
        pid := pid
        status := .running
        restarts := restarts
        autorestart := cfg.autorestart
        allowInsecure := cfg.allowInsecure
        verbose := cfg.verbose
        instancePids := pids }
  | .status value, info => { info with status := value }
  | .counter restarts, info => { info with restarts := restarts }

/-- A whole record that is saved: the one that the party had, and the fields set in it. -/
structure Save where
  base : ProcessInfo
  write : Write

def Save.info (save : Save) : ProcessInfo := save.write.apply save.base

/-! ## Parties -/

/-- Where `run_supervisor` stands. -/
inductive Phase where
  /-- Before the signal handler is there. -/
  | boot
  | spawning
  | saving (info : Option ProcessInfo)
  | waiting
  | killing (shutdown : Bool) (rest : List Pid)
  | closing (status : Status)
  | writing (info : ProcessInfo) (status : Status)
  | sleeping
  | exited
  deriving DecidableEq, Repr

/-- A process that runs `run_supervisor`, with those of its children that still run. -/
structure Supervisor where
  pid : Pid
  cfg : SupervisorConfig
  cwd : Str
  phase : Phase
  restarts : Nat
  sigterm : Bool
  children : List Pid
  alive : List Pid
  deriving DecidableEq, Repr

/-- Where `stop_process` stands. -/
inductive Stop where
  | load
  | probe (info : ProcessInfo)
  | terminate (info : ProcessInfo)
  | poll (info : ProcessInfo)
  | kill (info : ProcessInfo)
  | save (info : ProcessInfo)
  deriving DecidableEq, Repr

/-- A command on its way; `restart_process` runs the other two with what it has read before. -/
inductive Command where
  | stopping (stop : Stop) (restart : Option ProcessInfo)
  | restarting
  | starting (cfg : SupervisorConfig) (cwd : Str) (restarts : Option Nat)
  | recording (info : ProcessInfo) (restarts : Option Nat)
  | counting (info : ProcessInfo) (restarts : Nat)
  | ended
  deriving DecidableEq, Repr

/-- `stopped` are the pids for which a `stop_process` has returned `Ok`. -/
structure State where
  logPath : Str
  file : Option ProcessInfo
  supervisors : List Supervisor
  commands : List Command
  stopped : List Pid
  nextPid : Pid
  deriving DecidableEq, Repr

def State.new (logPath : Str) : State := ⟨logPath, none, [], [], [], 1⟩

namespace State

variable (s : State)

def loadProcess (ok : Bool) : Option ProcessInfo := if ok then s.file else none

def isPidAlive (pid : Pid) : Bool := pid != 0 && s.supervisors.any fun q => q.pid == pid && q.phase != .exited

end State

/-- What a step does beside moving its party on. -/
inductive Effect where
  | none
  | save (save : Save)
  | stopped (save : Save) (pid : Pid)
  | sigterm (pid : Pid)
  | sigkill (pid : Pid)
  | launch (cfg : SupervisorConfig) (cwd : Str)
  | spawn

/-! ## The supervisor -/

/-- What a supervisor waits for, or the outcome of the call it makes. -/
inductive Event where
  | go (ok : Bool)
  | childExit
  | sigterm
  | ctrlC
  deriving DecidableEq, Repr

namespace Supervisor

variable (q : Supervisor)

def cohortSize : Nat := max q.cfg.instances 1

def cohortSave (s : State) (now : Nat) : Option ProcessInfo → Save
  | some info => ⟨info, .cohort q.pid q.restarts q.cfg q.children⟩
  | none =>
      let info := ProcessInfo.new q.cfg q.pid q.cwd s.logPath now q.restarts
      ⟨info, .all ((Write.cohort q.pid q.restarts q.cfg q.children).apply info)⟩

/-- What follows the end of a cohort that was not shut down. -/
def afterExit (info : Option ProcessInfo) : Supervisor :=
  if info.any (·.status == .stopped) then { q with phase := .exited }
  else if ¬ q.cfg.autorestart then { q with phase := .closing .error }
  else if bump q.restarts > q.cfg.maxRestarts then { q with phase := .closing .crashed, restarts := bump q.restarts }
  else { q with phase := .sleeping, restarts := bump q.restarts }

/-- `select!` takes any branch that is ready; a signal that was not received stays pending. -/
def wake : Event → Option Supervisor
  | .childExit => if q.children.all (· ∈ q.alive) then none else some { q with phase := .killing false q.children }
  | .sigterm => if q.sigterm then some { q with phase := .killing true q.children, sigterm := false } else none
  | .ctrlC => some { q with phase := .killing true q.children }
  | .go _ => none

def turn (s : State) (now : Nat) (ok : Bool) : Option (Supervisor × Effect) :=
  match q.phase with
  | .boot => some ({ q with phase := if ok then .spawning else .exited }, .none)
  | .spawning =>
      if q.children.length < q.cohortSize then
        -- A failed spawn ends the supervisor; the children it has are dropped, not killed.
        if ok then
          some ({ q with children := q.children ++ [s.nextPid], alive := q.alive ++ [s.nextPid] }, .spawn)
        else some ({ q with phase := .exited }, .none)
      else some ({ q with phase := .saving (s.loadProcess ok) }, .none)
  | .saving info =>
      some ({ q with phase := .waiting }, if ok then .save (q.cohortSave s now info) else .none)
  | .waiting => none
  | .killing shutdown (pid :: rest) =>
      some ({ q with phase := .killing shutdown rest, alive := q.alive.filter (· ≠ pid) }, .none)
  | .killing true [] => some ({ q with phase := .closing .stopped }, .none)
  | .killing false [] => some (q.afterExit (s.loadProcess ok), .none)
  | .closing status =>
      match s.loadProcess ok with
      | some info => some ({ q with phase := .writing info status }, .none)
      | none => some ({ q with phase := .exited }, .none)
  | .writing info status =>
      some ({ q with phase := .exited }, if ok then .save ⟨info, .status status⟩ else .none)
  | .sleeping => some ({ q with phase := .spawning, children := [] }, .none)
  | .exited => none

def next (s : State) (now : Nat) (event : Event) : Option (Supervisor × Effect) :=
  match q.phase, event with
  | .waiting, event => (q.wake event).map fun q' => (q', .none)
  | _, .go ok => q.turn s now ok
  | _, _ => none

/-- Without the handler the signal ends the process; with it, the signal is pending until it is received. -/
def terminate : Supervisor :=
  match q.phase with
  | .boot => { q with phase := .exited }
  | .exited => q
  | _ => { q with sigterm := true }

def kill : Supervisor := { q with phase := .exited }

end Supervisor

/-! ## The commands -/

namespace Command

def afterStop : Option ProcessInfo → Command
  | none => .ended
  | some info => .starting (.again info) info.cwd (some (bump info.restarts))

/-- For a wait that is over, `ok` says that the deadline has not passed. -/
def turn (s : State) (now : Nat) (ok : Bool) : Command → Option (Command × Effect)
  | .stopping .load restart =>
      match s.loadProcess ok with
      | some info =>
          if info.pid = 0 then some (afterStop restart, .none) else some (.stopping (.probe info) restart, .none)
      | none => some (afterStop restart, .none)
  | .stopping (.probe info) restart =>
      some (.stopping (if s.isPidAlive info.pid then .terminate info else .save info) restart, .none)
  | .stopping (.terminate info) restart => some (.stopping (.poll info) restart, .sigterm info.pid)
  | .stopping (.poll info) restart =>
      some (.stopping (if s.isPidAlive info.pid then if ok then .poll info else .kill info else .save info) restart,
        .none)
  | .stopping (.kill info) restart => some (.stopping (.save info) restart, .sigkill info.pid)
  | .stopping (.save info) restart =>
      some (afterStop restart, if ok then .stopped ⟨info, .status .stopped⟩ info.pid else .none)
  | .restarting =>
      match s.loadProcess ok with
      | some info => some (.stopping .load (some info), .none)
      | none => some (.ended, .none)
  | .starting cfg cwd restarts =>
      if ok then some (.recording (.new cfg s.nextPid cwd s.logPath now 0) restarts, .launch cfg cwd)
      else some (.ended, .none)
  | .recording info restarts =>
      if ok then
        match restarts with
        | none => some (.ended, .save ⟨info, .all info⟩)
        | some restarts => some (.counting info restarts, .save ⟨info, .all info⟩)
      else some (.ended, .none)
  | .counting info restarts => some (.ended, if ok then .save ⟨info, .counter restarts⟩ else .none)
  | .ended => none

end Command

/-! ## The system -/

inductive Op where
  | start (cfg : SupervisorConfig) (cwd : Str)
  | attach (cfg : SupervisorConfig) (cwd : Str)
  | stop
  | restart
  | command (i : Nat) (ok : Bool) (now : Nat)
  | supervisor (i : Nat) (event : Event) (now : Nat)
  | exit (i : Nat) (pid : Pid)

namespace State

variable (s : State)

def launch (cfg : SupervisorConfig) (cwd : Str) : State :=
  { s with
    supervisors := s.supervisors ++ [⟨s.nextPid, cfg, cwd, .boot, cfg.startRestarts, false, [], []⟩]
    nextPid := s.nextPid + 1 }

def signal (f : Supervisor → Supervisor) (pid : Pid) : State :=
  { s with supervisors := s.supervisors.map fun q => if q.pid = pid then f q else q }

def apply : Effect → State
  | .none => s
  | .save save => { s with file := some save.info }
  | .stopped save pid => { s with file := some save.info, stopped := pid :: s.stopped }
  | .sigterm pid => s.signal Supervisor.terminate pid
  | .sigkill pid => s.signal Supervisor.kill pid
  | .launch cfg cwd => s.launch { cfg with entry := (resolveEntryAndRunDir cfg.entry cwd).1 } cwd
  | .spawn => { s with nextPid := s.nextPid + 1 }

def setCommand (i : Nat) (c : Command) : State := { s with commands := s.commands.set i c }

def setSupervisor (i : Nat) (q : Supervisor) : State := { s with supervisors := s.supervisors.set i q }

def addCommand (c : Command) : State := { s with commands := s.commands ++ [c] }

def step : Op → Option State
  | .start cfg cwd => some (s.addCommand (.starting { cfg with startRestarts := 0 } cwd none))
  | .attach cfg cwd => some (s.launch { cfg with startRestarts := 0 } cwd)
  | .stop => some (s.addCommand (.stopping .load none))
  | .restart => some (s.addCommand .restarting)
  | .command i ok now => do
      let c ← s.commands[i]?
      let (c', effect) ← c.turn s now ok
      return (s.setCommand i c').apply effect
  | .supervisor i event now => do
      let q ← s.supervisors[i]?
      let (q', effect) ← q.next s now event
      return (s.setSupervisor i q').apply effect
  | .exit i pid => do
      let q ← s.supervisors[i]?
      if pid ∈ q.alive then some (s.setSupervisor i { q with alive := q.alive.filter (· ≠ pid) }) else none

end State

end ThreeVa.Cli
