import ThreeVa.Cli.Proc

/-!
Every supervisor knows which of its children may still run, and a pid that a command has found dead stays dead.
-/

namespace ThreeVa.Cli
open Text

variable {s s' : State} {q q' : Supervisor} {c c' : Command} {e : Effect} {i : Nat} {pid : Pid} {now : Nat} {ok : Bool}
  {event : Event} {op : Op}

/-! ## Steps -/

/-- The command that begins with `op`. -/
def Op.begins : Op → Option Command
  | .start cfg cwd => some (.starting { cfg with startRestarts := 0 } cwd none)
  | .stop => some (.stopping .load none)
  | .restart => some .restarting
  | .attach _ _ | .command _ _ _ | .supervisor _ _ _ | .exit _ _ => none

/-- All that a step can be. -/
inductive State.Step (s : State) : Op → State → Prop
  | begin {op : Op} {c : Command} : op.begins = some c → Step s op (s.addCommand c)
  | attach {cfg : SupervisorConfig} {cwd : Str} :
      Step s (.attach cfg cwd) (s.launch { cfg with startRestarts := 0 } cwd)
  | command {i : Nat} {ok : Bool} {now : Nat} {c c' : Command} {e : Effect} :
      s.commands[i]? = some c → c.turn s now ok = some (c', e) → Step s (.command i ok now) ((s.setCommand i c').apply e)
  | supervisor {i : Nat} {event : Event} {now : Nat} {q q' : Supervisor} {e : Effect} :
      s.supervisors[i]? = some q → q.next s now event = some (q', e) →
        Step s (.supervisor i event now) ((s.setSupervisor i q').apply e)
  | exit {i : Nat} {pid : Pid} {q : Supervisor} :
      s.supervisors[i]? = some q → pid ∈ q.alive →
        Step s (.exit i pid) (s.setSupervisor i { q with alive := q.alive.filter (· ≠ pid) })

theorem State.step_spec (h : s.step op = some s') : s.Step op s' := by
  cases op with
  | start cfg cwd | stop | restart =>
      obtain rfl := Option.some.inj h
      exact .begin rfl
  | attach cfg cwd =>
      obtain rfl := Option.some.inj h
      exact .attach
  | command i ok now =>
      simp only [State.step, Option.bind_eq_bind, Option.bind_eq_some_iff, Option.pure_def, Option.some.injEq] at h
      obtain ⟨c, hc, ⟨c', e⟩, hturn, rfl⟩ := h
      exact .command hc hturn
  | supervisor i event now =>
      simp only [State.step, Option.bind_eq_bind, Option.bind_eq_some_iff, Option.pure_def, Option.some.injEq] at h
      obtain ⟨q, hq, ⟨q', e⟩, hnext, rfl⟩ := h
      exact .supervisor hq hnext
  | exit i pid =>
      simp only [State.step, Option.bind_eq_bind, Option.bind_eq_some_iff, Option.ite_none_right_eq_some,
        Option.some.injEq] at h
      obtain ⟨q, hq, hpid, rfl⟩ := h
      exact .exit hq hpid

theorem State.mem_loadProcess {info : ProcessInfo} (h : s.loadProcess ok = some info) : info ∈ s.file := by
  simp only [State.loadProcess, Option.ite_none_right_eq_some] at h
  exact h.2

/-- All that a step of a supervisor can be. -/
inductive Supervisor.Next (s : State) (now : Nat) (q : Supervisor) : Event → Supervisor → Effect → Prop
  | boot : q.phase = .boot → Next s now q (.go true) { q with phase := .spawning } .none
  | bootFailed : q.phase = .boot → Next s now q (.go false) { q with phase := .exited } .none
  | spawn : q.phase = .spawning → q.children.length < q.cohortSize →
      Next s now q (.go true) { q with children := q.children ++ [s.nextPid], alive := q.alive ++ [s.nextPid] } .spawn
  | spawnFailed : q.phase = .spawning → q.children.length < q.cohortSize →
      Next s now q (.go false) { q with phase := .exited } .none
  | load {ok : Bool} : q.phase = .spawning → ¬ q.children.length < q.cohortSize →
      Next s now q (.go ok) { q with phase := .saving (s.loadProcess ok) } .none
  | save {info : Option ProcessInfo} : q.phase = .saving info →
      Next s now q (.go true) { q with phase := .waiting } (.save (q.cohortSave s now info))
  | saveFailed {info : Option ProcessInfo} : q.phase = .saving info →
      Next s now q (.go false) { q with phase := .waiting } .none
  | childExit : q.phase = .waiting → ¬ q.children.all (· ∈ q.alive) →
      Next s now q .childExit { q with phase := .killing false q.children } .none
  | sigterm : q.phase = .waiting → q.sigterm = true →
      Next s now q .sigterm { q with phase := .killing true q.children, sigterm := false } .none
  | ctrlC : q.phase = .waiting → Next s now q .ctrlC { q with phase := .killing true q.children } .none
  | kill {ok shutdown : Bool} {pid : Pid} {rest : List Pid} : q.phase = .killing shutdown (pid :: rest) →
      Next s now q (.go ok) { q with phase := .killing shutdown rest, alive := q.alive.filter (· ≠ pid) } .none
  | shutdown {ok : Bool} : q.phase = .killing true [] → Next s now q (.go ok) { q with phase := .closing .stopped } .none
  | check {ok : Bool} : q.phase = .killing false [] → Next s now q (.go ok) (q.afterExit (s.loadProcess ok)) .none
  | close {ok : Bool} {status : Status} {info : ProcessInfo} : q.phase = .closing status →
      s.loadProcess ok = some info → Next s now q (.go ok) { q with phase := .writing info status } .none
  | closeFailed {ok : Bool} {status : Status} : q.phase = .closing status → s.loadProcess ok = none →
      Next s now q (.go ok) { q with phase := .exited } .none
  | write {info : ProcessInfo} {status : Status} : q.phase = .writing info status →
      Next s now q (.go true) { q with phase := .exited } (.save ⟨info, .status status⟩)
  | writeFailed {info : ProcessInfo} {status : Status} : q.phase = .writing info status →
      Next s now q (.go false) { q with phase := .exited } .none
  | wake {ok : Bool} : q.phase = .sleeping →
      Next s now q (.go ok) { q with phase := .spawning, children := [] } .none

theorem Supervisor.turn_spec (h : q.turn s now ok = some (q', e)) : q.Next s now (.go ok) q' e := by
  unfold Supervisor.turn at h
  split at h <;> rename_i hp
  · obtain ⟨rfl, rfl⟩ := Prod.mk.inj (Option.some.inj h)
    cases ok with
    | true => exact .boot hp
    | false => exact .bootFailed hp
  · split at h <;> rename_i hlt
    · cases ok with
      | true =>
          obtain ⟨rfl, rfl⟩ := Prod.mk.inj (Option.some.inj h)
          exact .spawn hp hlt
      | false =>
          obtain ⟨rfl, rfl⟩ := Prod.mk.inj (Option.some.inj h)
          exact .spawnFailed hp hlt
    · obtain ⟨rfl, rfl⟩ := Prod.mk.inj (Option.some.inj h)
      exact .load hp hlt
  · obtain ⟨rfl, rfl⟩ := Prod.mk.inj (Option.some.inj h)
    cases ok with
    | true => exact .save hp
    | false => exact .saveFailed hp
  · cases h
  · obtain ⟨rfl, rfl⟩ := Prod.mk.inj (Option.some.inj h)
    exact .kill hp
  · obtain ⟨rfl, rfl⟩ := Prod.mk.inj (Option.some.inj h)
    exact .shutdown hp
  · obtain ⟨rfl, rfl⟩ := Prod.mk.inj (Option.some.inj h)
    exact .check hp
  · split at h <;> rename_i hload
    · obtain ⟨rfl, rfl⟩ := Prod.mk.inj (Option.some.inj h)
      exact .close hp hload
    · obtain ⟨rfl, rfl⟩ := Prod.mk.inj (Option.some.inj h)
      exact .closeFailed hp hload
  · obtain ⟨rfl, rfl⟩ := Prod.mk.inj (Option.some.inj h)
    cases ok with
    | true => exact .write hp
    | false => exact .writeFailed hp
  · obtain ⟨rfl, rfl⟩ := Prod.mk.inj (Option.some.inj h)
    exact .wake hp
  · cases h

theorem Supervisor.wake_spec (hp : q.phase = .waiting) (h : q.wake event = some q') : q.Next s now event q' .none := by
  cases event with
  | go ok => cases h
  | childExit =>
      simp only [Supervisor.wake, Option.ite_none_left_eq_some, Option.some.injEq] at h
      obtain ⟨hdead, rfl⟩ := h
      exact .childExit hp hdead
  | sigterm =>
      simp only [Supervisor.wake, Option.ite_none_right_eq_some, Option.some.injEq] at h
      obtain ⟨hpending, rfl⟩ := h
      exact .sigterm hp hpending
  | ctrlC =>
      obtain rfl := Option.some.inj h
      exact .ctrlC hp

theorem Supervisor.next_spec (h : q.next s now event = some (q', e)) : q.Next s now event q' e := by
  by_cases hp : q.phase = .waiting
  · simp only [Supervisor.next, hp, Option.map_eq_some_iff, Prod.mk.injEq] at h
    obtain ⟨q'', hwake, rfl, rfl⟩ := h
    exact Supervisor.wake_spec hp hwake
  · unfold Supervisor.next at h
    split at h
    · contradiction
    · exact Supervisor.turn_spec h
    · cases h

theorem Supervisor.afterExit_spec (q : Supervisor) (info : Option ProcessInfo) :
    q.afterExit info = { q with phase := .exited } ∨
      ∃ phase restarts, (phase = .sleeping ∨ ∃ status, phase = .closing status) ∧
        (restarts = q.restarts ∨ restarts = bump q.restarts) ∧
          q.afterExit info = { q with phase := phase, restarts := restarts } := by
  unfold Supervisor.afterExit
  split
  · exact .inl rfl
  · split
    · exact .inr ⟨_, q.restarts, .inr ⟨_, rfl⟩, .inl rfl, rfl⟩
    · split
      · exact .inr ⟨_, _, .inr ⟨_, rfl⟩, .inr rfl, rfl⟩
      · exact .inr ⟨_, _, .inl rfl, .inr rfl, rfl⟩

/-- All that a step of a command can be. -/
inductive Command.Next (s : State) (now : Nat) : Command → Bool → Command → Effect → Prop
  | load {ok : Bool} {info : ProcessInfo} {restart : Option ProcessInfo} : s.loadProcess ok = some info → info.pid ≠ 0 →
      Next s now (.stopping .load restart) ok (.stopping (.probe info) restart) .none
  | loadFailed {ok : Bool} {restart : Option ProcessInfo} :
      Next s now (.stopping .load restart) ok (afterStop restart) .none
  | found {ok : Bool} {info : ProcessInfo} {restart : Option ProcessInfo} :
      Next s now (.stopping (.probe info) restart) ok (.stopping (.terminate info) restart) .none
  | gone {ok : Bool} {stop : Stop} {info : ProcessInfo} {restart : Option ProcessInfo} :
      stop = .probe info ∨ stop = .poll info → s.isPidAlive info.pid = false →
        Next s now (.stopping stop restart) ok (.stopping (.save info) restart) .none
  | terminate {ok : Bool} {info : ProcessInfo} {restart : Option ProcessInfo} :
      Next s now (.stopping (.terminate info) restart) ok (.stopping (.poll info) restart) (.sigterm info.pid)
  | poll {info : ProcessInfo} {restart : Option ProcessInfo} :
      Next s now (.stopping (.poll info) restart) true (.stopping (.poll info) restart) .none
  | late {info : ProcessInfo} {restart : Option ProcessInfo} :
      Next s now (.stopping (.poll info) restart) false (.stopping (.kill info) restart) .none
  | kill {ok : Bool} {info : ProcessInfo} {restart : Option ProcessInfo} :
      Next s now (.stopping (.kill info) restart) ok (.stopping (.save info) restart) (.sigkill info.pid)
  | save {info : ProcessInfo} {restart : Option ProcessInfo} :
      Next s now (.stopping (.save info) restart) true (afterStop restart) (.stopped ⟨info, .status .stopped⟩ info.pid)
  | saveFailed {info : ProcessInfo} {restart : Option ProcessInfo} :
      Next s now (.stopping (.save info) restart) false (afterStop restart) .none
  | reload {ok : Bool} {info : ProcessInfo} : s.loadProcess ok = some info →
      Next s now .restarting ok (.stopping .load (some info)) .none
  | reloadFailed {ok : Bool} : Next s now .restarting ok .ended .none
  | launch {cfg : SupervisorConfig} {cwd : Str} {restarts : Option Nat} :
      Next s now (.starting cfg cwd restarts) true (.recording (.new cfg s.nextPid cwd s.logPath now 0) restarts)
        (.launch cfg cwd)
  | launchFailed {cfg : SupervisorConfig} {cwd : Str} {restarts : Option Nat} :
      Next s now (.starting cfg cwd restarts) false .ended .none
  | record {info : ProcessInfo} : Next s now (.recording info none) true .ended (.save ⟨info, .all info⟩)
  | recordAgain {info : ProcessInfo} {restarts : Nat} :
      Next s now (.recording info (some restarts)) true (.counting info restarts) (.save ⟨info, .all info⟩)
  | recordFailed {info : ProcessInfo} {restarts : Option Nat} :
      Next s now (.recording info restarts) false .ended .none
  | count {info : ProcessInfo} {restarts : Nat} :
      Next s now (.counting info restarts) true .ended (.save ⟨info, .counter restarts⟩)
  | countFailed {info : ProcessInfo} {restarts : Nat} : Next s now (.counting info restarts) false .ended .none

theorem Command.turn_spec (h : c.turn s now ok = some (c', e)) : Command.Next s now c ok c' e := by
  unfold Command.turn at h
  split at h
  · split at h
    · split at h
      · obtain ⟨rfl, rfl⟩ := Prod.mk.inj (Option.some.inj h)
        exact .loadFailed
      next hload hpid =>
        obtain ⟨rfl, rfl⟩ := Prod.mk.inj (Option.some.inj h)
        exact .load hload hpid
    · obtain ⟨rfl, rfl⟩ := Prod.mk.inj (Option.some.inj h)
      exact .loadFailed
  next info restart =>
    obtain ⟨rfl, rfl⟩ := Prod.mk.inj (Option.some.inj h)
    cases halive : s.isPidAlive info.pid with
    | true => exact .found
    | false => exact .gone (.inl rfl) halive
  · obtain ⟨rfl, rfl⟩ := Prod.mk.inj (Option.some.inj h)
    exact .terminate
  next info restart =>
    obtain ⟨rfl, rfl⟩ := Prod.mk.inj (Option.some.inj h)
    cases halive : s.isPidAlive info.pid with
    | true =>
        cases ok with
        | true => exact .poll
        | false => exact .late
    | false => exact .gone (.inr rfl) halive
  · obtain ⟨rfl, rfl⟩ := Prod.mk.inj (Option.some.inj h)
    exact .kill
  · obtain ⟨rfl, rfl⟩ := Prod.mk.inj (Option.some.inj h)
    cases ok with
    | true => exact .save
    | false => exact .saveFailed
  · split at h
    next hload =>
      obtain ⟨rfl, rfl⟩ := Prod.mk.inj (Option.some.inj h)
      exact .reload hload
    · obtain ⟨rfl, rfl⟩ := Prod.mk.inj (Option.some.inj h)
      exact .reloadFailed
  · cases ok with
    | true =>
        obtain ⟨rfl, rfl⟩ := Prod.mk.inj (Option.some.inj h)
        exact .launch
    | false =>
        obtain ⟨rfl, rfl⟩ := Prod.mk.inj (Option.some.inj h)
        exact .launchFailed
  next info restarts =>
    cases ok with
    | true =>
        cases restarts with
        | none =>
            obtain ⟨rfl, rfl⟩ := Prod.mk.inj (Option.some.inj h)
            exact .record
        | some restarts =>
            obtain ⟨rfl, rfl⟩ := Prod.mk.inj (Option.some.inj h)
            exact .recordAgain
    | false =>
        obtain ⟨rfl, rfl⟩ := Prod.mk.inj (Option.some.inj h)
        exact .recordFailed
  · obtain ⟨rfl, rfl⟩ := Prod.mk.inj (Option.some.inj h)
    cases ok with
    | true => exact .count
    | false => exact .countFailed
  · cases h

/-! ## Children -/

/-- The children that run are those the supervisor is going to wait for or to kill. -/
def Supervisor.Sound (q : Supervisor) : Prop :=
  match q.phase with
  | .boot | .closing _ | .writing _ _ | .sleeping | .exited => q.alive = []
  | .spawning | .saving _ | .waiting => q.alive ⊆ q.children
  | .killing _ rest => q.alive ⊆ rest

/-- A failed spawn leaves no child behind. -/
def Supervisor.CleanFailure (q : Supervisor) (event : Event) : Prop :=
  q.phase = .spawning → q.children.length < q.cohortSize → event = .go false → q.alive = []

theorem Supervisor.Sound.exits (h : q.Sound) (alive : List Pid) (hsub : alive ⊆ q.alive) :
    Supervisor.Sound { q with alive := alive } := by
  unfold Supervisor.Sound at h ⊢
  cases hp : q.phase <;> simp only [hp] at h ⊢
  all_goals first
    | exact List.Subset.trans hsub h
    | exact List.subset_nil.mp (h ▸ hsub)

theorem filter_ne_subset {xs rest : List Pid} (h : xs ⊆ pid :: rest) : xs.filter (· ≠ pid) ⊆ rest := by
  intro x hx
  obtain ⟨hmem, hne⟩ := List.mem_filter.mp hx
  exact (List.mem_cons.mp (h hmem)).resolve_left (by simpa using hne)

theorem Supervisor.Sound.next (h : q.Sound) (hclean : q.CleanFailure event) (hnext : q.Next s now event q' e) :
    q'.Sound := by
  unfold Supervisor.Sound at h
  cases hnext with
  | bootFailed hp | childExit hp _ | sigterm hp _ | ctrlC hp | load hp _ | save hp | saveFailed hp | close hp _
  | closeFailed hp _ | write hp | writeFailed hp =>
      rw [hp] at h
      exact h
  | boot hp =>
      rw [hp] at h
      simp [Supervisor.Sound, h]
  | spawn hp _ =>
      rw [hp] at h
      simp only [Supervisor.Sound, hp]
      exact List.append_subset.mpr ⟨List.Subset.trans h (List.subset_append_left _ _), List.subset_append_right _ _⟩
  | spawnFailed hp hlt => exact hclean hp hlt rfl
  | kill hp =>
      rw [hp] at h
      exact filter_ne_subset h
  | shutdown hp =>
      rw [hp] at h
      exact List.subset_nil.mp h
  | wake hp =>
      rw [hp] at h
      simp [Supervisor.Sound, h]
  | check hp =>
      rw [hp] at h
      have hnone : q.alive = [] := List.subset_nil.mp h
      obtain heq | ⟨phase, restarts, hphase, -, heq⟩ := q.afterExit_spec (s.loadProcess _)
      · rw [heq]
        exact hnone
      · rw [heq]
        obtain rfl | ⟨status, rfl⟩ := hphase <;> exact hnone

/-! ## Dead processes -/

/-- No process of this pid runs a supervisor. -/
def State.Dead (s : State) (pid : Pid) : Prop := ∀ q ∈ s.supervisors, q.pid = pid → q.phase = .exited

/-- The pids that were given stay given, and those of dead processes stay dead. -/
structure State.Later (s s' : State) : Prop where
  nextPid : s.nextPid ≤ s'.nextPid
  dead : ∀ pid < s.nextPid, s.Dead pid → s'.Dead pid

theorem State.dead_of_isPidAlive (h : s.isPidAlive pid = false) (hpid : pid ≠ 0) : s.Dead pid := by
  intro q hq hqpid
  simp only [State.isPidAlive, Bool.and_eq_false_iff, List.any_eq_false] at h
  obtain h | h := h
  · exact absurd h (by simpa using hpid)
  · simpa [hqpid] using h q hq

theorem State.Later.refl (s : State) : s.Later s := ⟨le_rfl, fun _ _ h => h⟩

theorem State.Later.trans {t : State} (h : s.Later t) (h' : t.Later s') : s.Later s' where
  nextPid := h.nextPid.trans h'.nextPid
  dead pid hpid hdead := h'.dead pid (hpid.trans_le h.nextPid) (h.dead pid hpid hdead)

theorem State.later_launch (s : State) (cfg : SupervisorConfig) (cwd : Str) : s.Later (s.launch cfg cwd) where
  nextPid := Nat.le_succ _
  dead pid hpid hdead := by
    intro q hq hqpid
    simp only [State.launch, List.mem_append, List.mem_singleton] at hq
    obtain hq | rfl := hq
    · exact hdead q hq hqpid
    · exact absurd hqpid (Nat.ne_of_gt hpid)

theorem State.later_signal (s : State) {f : Supervisor → Supervisor} (hpid : ∀ q, (f q).pid = q.pid)
    (hexited : ∀ q : Supervisor, q.phase = .exited → (f q).phase = .exited) (pid : Pid) : s.Later (s.signal f pid) where
  nextPid := le_rfl
  dead pid' _ hdead := by
    intro q hq hqpid
    obtain ⟨q₀, hq₀, rfl⟩ := List.mem_map.mp hq
    by_cases h : q₀.pid = pid
    · rw [if_pos h] at hqpid ⊢
      exact hexited q₀ (hdead q₀ hq₀ ((hpid q₀).symm.trans hqpid))
    · rw [if_neg h] at hqpid ⊢
      exact hdead q₀ hq₀ hqpid

theorem Supervisor.terminate_pid (q : Supervisor) : q.terminate.pid = q.pid := by
  unfold Supervisor.terminate
  split <;> rfl

theorem Supervisor.terminate_phase (q : Supervisor) :
    q.terminate.phase = q.phase ∨ q.phase = .boot ∧ q.terminate.phase = .exited := by
  unfold Supervisor.terminate
  split
  next hp => exact .inr ⟨hp, rfl⟩
  · exact .inl rfl
  · exact .inl rfl

theorem State.later_apply (s : State) (e : Effect) : s.Later (s.apply e) := by
  cases e with
  | none => exact .refl s
  | save save | stopped save pid => exact ⟨le_rfl, fun _ _ h => h⟩
  | sigterm pid =>
      refine s.later_signal Supervisor.terminate_pid (fun q hq => ?_) pid
      obtain h | ⟨-, h⟩ := q.terminate_phase
      · exact h.trans hq
      · exact h
  | sigkill pid => exact s.later_signal (f := Supervisor.kill) (fun _ => rfl) (fun _ _ => rfl) pid
  | launch cfg cwd => exact s.later_launch _ cwd
  | spawn => exact ⟨Nat.le_succ _, fun _ _ h => h⟩

theorem State.later_setSupervisor (hq : s.supervisors[i]? = some q) (hpid : q'.pid = q.pid)
    (hexited : q.phase = .exited → q'.phase = .exited) : s.Later (s.setSupervisor i q') where
  nextPid := le_rfl
  dead pid _ hdead := by
    intro r hr hrpid
    obtain hr | rfl := List.mem_or_eq_of_mem_set hr
    · exact hdead r hr hrpid
    · exact hexited (hdead q (List.mem_of_getElem? hq) (hpid.symm.trans hrpid))

theorem Supervisor.Next.pid_eq (h : q.Next s now event q' e) : q'.pid = q.pid := by
  cases h with
  | check =>
      obtain heq | ⟨_, _, -, -, heq⟩ := q.afterExit_spec (s.loadProcess _) <;> rw [heq]
  | _ => rfl

theorem Supervisor.Next.not_exited (h : q.Next s now event q' e) : q.phase ≠ .exited := by
  cases h <;> simp_all

/-! ## The invariant -/

/-- The record that a supervisor has loaded and not saved yet. -/
def Supervisor.held (q : Supervisor) : Option ProcessInfo :=
  match q.phase with
  | .saving info => info
  | .writing info _ => some info
  | _ => none

structure Supervisor.Ok (nextPid : Pid) (q : Supervisor) : Prop where
  sound : q.Sound
  known : q.pid < nextPid
  held : ∀ info ∈ q.held, info.pid < nextPid

def Command.Ok (s : State) : Command → Prop
  | .stopping (.probe info) _ | .stopping (.terminate info) _ | .stopping (.poll info) _ | .stopping (.kill info) _ =>
      info.pid ≠ 0 ∧ info.pid < s.nextPid
  | .stopping (.save info) _ => info.pid < s.nextPid ∧ s.Dead info.pid
  | .recording info _ | .counting info _ => info.pid < s.nextPid
  | .stopping .load _ | .restarting | .starting _ _ _ | .ended => True

structure State.Inv (s : State) : Prop where
  file : ∀ info ∈ s.file, info.pid < s.nextPid
  supervisors : ∀ q ∈ s.supervisors, q.Ok s.nextPid
  commands : ∀ c ∈ s.commands, c.Ok s
  stopped : ∀ pid ∈ s.stopped, pid < s.nextPid ∧ s.Dead pid

/-- What the party must know for an effect to keep the invariant. -/
def Effect.Ok (s : State) : Effect → Prop
  | .none | .sigterm _ | .launch _ _ | .spawn => True
  | .save w => w.info.pid < s.nextPid
  | .stopped w pid => w.info.pid < s.nextPid ∧ pid < s.nextPid ∧ s.Dead pid
  | .sigkill pid => ∀ q ∈ s.supervisors, q.pid = pid → q.alive = []

theorem Supervisor.Ok.mono {n m : Pid} (h : q.Ok n) (hle : n ≤ m) : q.Ok m where
  sound := h.sound
  known := h.known.trans_le hle
  held info hinfo := (h.held info hinfo).trans_le hle

theorem Command.Ok.later (h : c.Ok s) (hlater : s.Later s') : c.Ok s' := by
  unfold Command.Ok at h ⊢
  split
  · exact ⟨h.1, h.2.trans_le hlater.nextPid⟩
  · exact ⟨h.1, h.2.trans_le hlater.nextPid⟩
  · exact ⟨h.1, h.2.trans_le hlater.nextPid⟩
  · exact ⟨h.1, h.2.trans_le hlater.nextPid⟩
  · exact ⟨h.1.trans_le hlater.nextPid, hlater.dead _ h.1 h.2⟩
  · exact h.trans_le hlater.nextPid
  · exact h.trans_le hlater.nextPid
  all_goals trivial

theorem Supervisor.Ok.terminate {n : Pid} (h : q.Ok n) : q.terminate.Ok n := by
  obtain ⟨hsound, hknown, hheld⟩ := h
  unfold Supervisor.terminate
  split
  next hp =>
    refine ⟨?_, hknown, fun info hinfo => by simp [Supervisor.held] at hinfo⟩
    simpa [Supervisor.Sound, hp] using hsound
  · exact ⟨hsound, hknown, hheld⟩
  · exact ⟨hsound, hknown, hheld⟩

theorem Supervisor.Ok.kill {n : Pid} (h : q.Ok n) (hnone : q.alive = []) : q.kill.Ok n :=
  ⟨hnone, h.known, fun info hinfo => by simp [Supervisor.held, Supervisor.kill] at hinfo⟩

theorem State.Inv.launch (h : s.Inv) (cfg : SupervisorConfig) (cwd : Str) : (s.launch cfg cwd).Inv := by
  have hlater := s.later_launch cfg cwd
  refine ⟨fun info hinfo => (h.file info hinfo).trans_le hlater.nextPid, fun q hq => ?_,
    fun c hc => (h.commands c hc).later hlater, fun pid hpid => ?_⟩
  · obtain hq | hq := List.mem_append.mp hq
    · exact (h.supervisors q hq).mono hlater.nextPid
    · obtain rfl := List.mem_singleton.mp hq
      exact ⟨rfl, Nat.lt_succ_self _, fun info hinfo => by simp [Supervisor.held] at hinfo⟩
  · obtain ⟨hknown, hdead⟩ := h.stopped pid hpid
    exact ⟨hknown.trans_le hlater.nextPid, hlater.dead pid hknown hdead⟩

theorem State.Inv.apply (h : s.Inv) (he : e.Ok s) : (s.apply e).Inv := by
  have hlater := s.later_apply e
  have hinv := h
  obtain ⟨hfile, hsups, hcmds, hstopped⟩ := h
  have hstopped' : ∀ pid ∈ s.stopped, pid < (s.apply e).nextPid ∧ (s.apply e).Dead pid := fun pid hpid =>
    ⟨(hstopped pid hpid).1.trans_le hlater.nextPid, hlater.dead pid (hstopped pid hpid).1 (hstopped pid hpid).2⟩
  have hcmds' : ∀ c ∈ s.commands, c.Ok (s.apply e) := fun c hc => (hcmds c hc).later hlater
  have hfile' : ∀ info ∈ s.file, info.pid < (s.apply e).nextPid := fun info hinfo =>
    (hfile info hinfo).trans_le hlater.nextPid
  have hsups' : ∀ q ∈ s.supervisors, q.Ok (s.apply e).nextPid := fun q hq => (hsups q hq).mono hlater.nextPid
  cases e with
  | none => exact hinv
  | save save =>
      refine ⟨fun info hinfo => ?_, hsups', hcmds', hstopped'⟩
      obtain rfl := Option.some.inj hinfo
      exact he
  | stopped save pid =>
      refine ⟨fun info hinfo => ?_, hsups', hcmds', fun pid' hpid' => ?_⟩
      · obtain rfl := Option.some.inj hinfo
        exact he.1
      · obtain rfl | hpid' := List.mem_cons.mp hpid'
        · exact ⟨he.2.1, hlater.dead pid' he.2.1 he.2.2⟩
        · exact hstopped' pid' hpid'
  | sigterm pid =>
      refine ⟨hfile', fun q hq => ?_, hcmds', hstopped'⟩
      obtain ⟨q₀, hq₀, rfl⟩ := List.mem_map.mp hq
      split
      · exact (hsups' q₀ hq₀).terminate
      · exact hsups' q₀ hq₀
  | sigkill pid =>
      refine ⟨hfile', fun q hq => ?_, hcmds', hstopped'⟩
      obtain ⟨q₀, hq₀, rfl⟩ := List.mem_map.mp hq
      split
      next hpid => exact (hsups' q₀ hq₀).kill (he q₀ hq₀ hpid)
      · exact hsups' q₀ hq₀
  | launch cfg cwd =>
      exact hinv.launch _ _
  | spawn => exact ⟨hfile', hsups', hcmds', hstopped'⟩

/-- A command put in the place of another, or behind the others. -/
theorem State.Inv.commandsOf (h : s.Inv) {cs : List Command} (hcs : ∀ c ∈ cs, c ∈ s.commands ∨ c.Ok s) :
    State.Inv { s with commands := cs } where
  file := h.file
  supervisors := h.supervisors
  commands c hc := by
    obtain hc | hc := hcs c hc
    · exact (h.commands c hc).later ⟨le_rfl, fun _ _ hdead => hdead⟩
    · exact hc.later ⟨le_rfl, fun _ _ hdead => hdead⟩
  stopped := h.stopped

theorem State.Inv.setSupervisor (h : s.Inv) (hq : s.supervisors[i]? = some q) (hpid : q'.pid = q.pid)
    (hexited : q.phase = .exited → q'.phase = .exited) (hok : q'.Ok s.nextPid) : (s.setSupervisor i q').Inv := by
  have hlater := State.later_setSupervisor hq hpid hexited
  refine ⟨h.file, fun r hr => ?_, fun c hc => (h.commands c hc).later hlater, fun pid hpid =>
    ⟨(h.stopped pid hpid).1, hlater.dead pid (h.stopped pid hpid).1 (h.stopped pid hpid).2⟩⟩
  obtain hr | rfl := List.mem_or_eq_of_mem_set hr
  · exact h.supervisors r hr
  · exact hok

theorem State.apply_setCommand (s : State) (i : Nat) (c : Command) (e : Effect) :
    (s.setCommand i c).apply e = (s.apply e).setCommand i c := by
  cases e <;> rfl

theorem State.dead_sigkill (s : State) (pid : Pid) : (s.apply (.sigkill pid)).Dead pid := by
  intro q hq hqpid
  obtain ⟨q₀, -, rfl⟩ := List.mem_map.mp hq
  by_cases h : q₀.pid = pid
  · rw [if_pos h]
    rfl
  · rw [if_neg h] at hqpid
    exact absurd hqpid h

theorem Command.afterStop_ok (restart : Option ProcessInfo) : (afterStop restart).Ok s := by
  cases restart <;> trivial

/-- The killed supervisor has no child. -/
def Command.CleanKill (s : State) : Command → Prop
  | .stopping (.kill info) _ => ∀ q ∈ s.supervisors, q.pid = info.pid → q.alive = []
  | _ => True

theorem Command.Ok.next (h : s.Inv) (hc : c.Ok s) (hclean : c.CleanKill s) (hnext : Command.Next s now c ok c' e) :
    e.Ok s ∧ c'.Ok (s.apply e) := by
  cases hnext with
  | load hload hpid => exact ⟨trivial, hpid, h.file _ (State.mem_loadProcess hload)⟩
  | loadFailed | saveFailed => exact ⟨trivial, Command.afterStop_ok _⟩
  | found | poll | late => exact ⟨trivial, hc⟩
  | gone hstop hdead =>
      obtain rfl | rfl := hstop <;> exact ⟨trivial, hc.2, State.dead_of_isPidAlive hdead hc.1⟩
  | terminate => exact ⟨trivial, hc⟩
  | kill => exact ⟨hclean, hc.2, s.dead_sigkill _⟩
  | save => exact ⟨⟨hc.1, hc.1, hc.2⟩, Command.afterStop_ok _⟩
  | reload | reloadFailed | launchFailed | recordFailed | countFailed => exact ⟨trivial, trivial⟩
  | launch => exact ⟨trivial, Nat.lt_succ_self _⟩
  | record => exact ⟨hc, trivial⟩
  | recordAgain => exact ⟨hc, hc⟩
  | count => exact ⟨hc, trivial⟩

theorem Supervisor.cohortSave_pid (q : Supervisor) (s : State) (now : Nat) (info : Option ProcessInfo) :
    (q.cohortSave s now info).info.pid = q.pid := by
  cases info <;> rfl

theorem Supervisor.afterExit_held (q : Supervisor) (info : Option ProcessInfo) : (q.afterExit info).held = none := by
  obtain heq | ⟨phase, restarts, hphase, -, heq⟩ := q.afterExit_spec info
  · rw [heq]
    rfl
  · rw [heq]
    obtain rfl | ⟨status, rfl⟩ := hphase <;> rfl

theorem Supervisor.Next.held_known (h : s.Inv) (hnext : q.Next s now event q' e) :
    ∀ info ∈ q'.held, info.pid < s.nextPid := by
  intro info hinfo
  cases hnext with
  | load => exact h.file info (State.mem_loadProcess hinfo)
  | close hp hload =>
      obtain rfl := Option.some.inj hinfo
      exact h.file _ (State.mem_loadProcess hload)
  | check hp =>
      rw [q.afterExit_held] at hinfo
      cases hinfo
  | spawn hp => simp [Supervisor.held, hp] at hinfo
  | _ => simp [Supervisor.held] at hinfo

theorem Supervisor.Ok.effect (hq : q.Ok s.nextPid) (hnext : q.Next s now event q' e) :
    e.Ok (s.setSupervisor i q') := by
  cases hnext with
  | save hp =>
      rename_i info
      have hpid : (q.cohortSave s now info).info.pid < s.nextPid := (q.cohortSave_pid s now info).trans_lt hq.known
      exact hpid
  | write hp =>
      rename_i info status
      have hpid : info.pid < s.nextPid := hq.held info (by simp [Supervisor.held, hp])
      exact hpid
  | _ => trivial

/-! ## Runs -/

/-- `stop_process` kills no supervisor that has running children, and no supervisor fails to start a child while it has
running children. -/
def State.Clean (s : State) : Op → Prop
  | .command i _ _ => ∀ c ∈ s.commands[i]?, c.CleanKill s
  | .supervisor i event _ => ∀ q ∈ s.supervisors[i]?, q.CleanFailure event
  | .start _ _ | .attach _ _ | .stop | .restart | .exit _ _ => True

theorem State.inv_new (logPath : Str) : (State.new logPath).Inv where
  file _ h := by cases h
  supervisors _ h := by cases h
  commands _ h := by cases h
  stopped _ h := by cases h

theorem Op.begins_ok (h : op.begins = some c) : c.Ok s := by
  cases op <;> cases h <;> trivial

theorem State.Inv.step (h : s.Inv) (hclean : s.Clean op) (hstep : s.step op = some s') : s'.Inv := by
  cases State.step_spec hstep with
  | begin hbegins =>
      refine h.commandsOf fun c hc => ?_
      obtain hc | hc := List.mem_append.mp hc
      · exact .inl hc
      · obtain rfl := List.mem_singleton.mp hc
        exact .inr (Op.begins_ok hbegins)
  | attach => exact h.launch _ _
  | command hc hturn =>
      obtain ⟨he, hc'⟩ := (h.commands _ (List.mem_of_getElem? hc)).next h (hclean _ hc) (Command.turn_spec hturn)
      rw [State.apply_setCommand]
      refine (h.apply he).commandsOf fun d hd => ?_
      obtain hd | rfl := List.mem_or_eq_of_mem_set hd
      · exact .inl hd
      · exact .inr hc'
  | supervisor hq hnext =>
      have hnext := Supervisor.next_spec hnext
      have hok := h.supervisors _ (List.mem_of_getElem? hq)
      have hset := h.setSupervisor hq hnext.pid_eq (fun hexited => absurd hexited hnext.not_exited)
        ⟨hok.sound.next (hclean _ hq) hnext, hnext.pid_eq ▸ hok.known, hnext.held_known h⟩
      exact hset.apply (hok.effect hnext)
  | exit hq hpid =>
      have hok := h.supervisors _ (List.mem_of_getElem? hq)
      exact h.setSupervisor hq rfl (fun hexited => hexited)
        ⟨hok.sound.exits _ (List.filter_subset_self _), hok.known, hok.held⟩

end ThreeVa.Cli
