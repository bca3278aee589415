import ThreeVa.Cli.Lemmas.Manifest
import ThreeVa.Cli.Lemmas.Records

/-!
What holds of the command line.
-/

namespace ThreeVa.Cli
open Text Permissions

/-! ## Managed processes -/

/-- Where `stop_process` has returned `Ok`, the supervisor is gone, and no child of it runs. -/
def State.StopsHold (s : State) : Prop :=
  ∀ pid ∈ s.stopped, ∀ q ∈ s.supervisors, q.pid = pid → q.phase = .exited ∧ q.alive = []

theorem State.Inv.stopsHold {s : State} (h : s.Inv) : s.StopsHold := by
  intro pid hpid q hq hqpid
  have hexited : q.phase = .exited := (h.stopped pid hpid).2 q hq hqpid
  have hsound := (h.supervisors q hq).sound
  rw [Supervisor.Sound, hexited] at hsound
  exact ⟨hexited, hsound⟩

/-- In a run in which no supervisor with running children is killed at the deadline or fails to start another child, a
process that was stopped stays stopped. -/
theorem stopped_stays_stopped (logPath : Str) (ops : List Op) (s : State)
    (hrun : Runs.exec State.step (.new logPath) ops = some s)
    (hclean : Runs.Along State.step State.Clean (.new logPath) ops) : s.StopsHold :=
  (Runs.exec_invariant (fun _ _ _ h hclean hstep => State.Inv.step h hclean hstep) (State.inv_new logPath) hclean
    hrun).stopsHold

instance (q : Supervisor) (event : Event) : Decidable (q.CleanFailure event) :=
  inferInstanceAs (Decidable (_ → _ → _ → _))

instance (s : State) : (c : Command) → Decidable (c.CleanKill s)
  | .stopping (.kill _) _ => inferInstanceAs (Decidable (∀ _ ∈ _, _))
  | .stopping .load _ | .stopping (.probe _) _ | .stopping (.terminate _) _ | .stopping (.poll _) _
  | .stopping (.save _) _ | .restarting | .starting _ _ _ | .recording _ _ | .counting _ _ | .ended => .isTrue trivial

instance (s : State) : (op : Op) → Decidable (s.Clean op)
  | .command _ _ _ => inferInstanceAs (Decidable (∀ _ ∈ _, _))
  | .supervisor _ _ _ => inferInstanceAs (Decidable (∀ _ ∈ _, _))
  | .start _ _ | .attach _ _ | .stop | .restart | .exit _ _ => .isTrue trivial

instance (s : State) : Decidable s.StopsHold := inferInstanceAs (Decidable (∀ _ ∈ _, ∀ _ ∈ _, _))

namespace Op

def app (instances : Nat) : SupervisorConfig := ⟨"app.js".toList, [], none, instances, 15, true, 0, false, false⟩

def go (i : Nat) : Op := .supervisor i (.go true) 0

def run (i : Nat) : Op := .command i true 0

/-- The start of two instances, up to the point where their supervisor waits. -/
def started : List Op := [.start (app 2) "/srv".toList, run 0, run 0, go 0, go 0, go 0, go 0, go 0]

/-- One instance ends, the other is killed, and the supervisor goes to sleep. -/
def crash : List Op := [.exit 0 2, .supervisor 0 .childExit 0, go 0, go 0, go 0]

end Op

open Op (started crash go run)

/-- The state after a run. -/
def ran (ops : List Op) : State := (Runs.exec State.step (.new []) ops).getD (.new [])

theorem exec_ran {ops : List Op} (h : (Runs.exec State.step (.new []) ops).isSome = true) :
    Runs.exec State.step (.new []) ops = some (ran ops) := by
  obtain ⟨s, hs⟩ := Option.isSome_iff_exists.mp h
  rw [ran, hs, Option.getD_some]

/-- The request comes while the supervisor sleeps before a restart, and is met after it. -/
def stoppedAsleep : List Op :=
  started ++ crash ++ [.stop, run 1, run 1, run 1] ++ List.replicate 5 (go 0) ++
    [.supervisor 0 .sigterm 0] ++ List.replicate 5 (go 0) ++ [run 1, run 1]

theorem stoppedAsleep_stays_stopped : (ran stoppedAsleep).StopsHold ∧ (ran stoppedAsleep).stopped = [1] :=
  ⟨stopped_stays_stopped [] stoppedAsleep _ (exec_ran (by decide)) (by decide), by decide⟩

/-- The second instance cannot be started; and the deadline passes just after the sleep. -/
def secondFails : List Op :=
  [.start (Op.app 2) "/srv".toList, run 0, run 0, go 0, go 0, .supervisor 0 (.go false) 0, .stop, run 1, run 1, run 1]

def killedAwake : List Op :=
  started ++ crash ++ [.stop, run 1, run 1, run 1, go 0, go 0, .command 1 false 0, run 1, run 1]

theorem children_left_running :
    ¬ (ran secondFails).StopsHold ∧ ¬ (ran killedAwake).StopsHold ∧
      (ran secondFails).stopped = [1] ∧ (ran killedAwake).stopped = [1] ∧
        ∀ ops ∈ [secondFails, killedAwake], (Runs.exec State.step (.new []) ops).isSome = true := by
  decide

/-! ## Records of managed processes -/

/-- Exactly if every save is up to date, the file has every field as it was last set. If supervisors are also started
alone and leave no children behind, an idle state with a running supervisor has the running instances in the file. If
supervisors are also started with the recorded counter, no counter that is saved is below an earlier one. -/
theorem records_kept (logPath : Str) (ops : List Op) (t : Traced)
    (hrun : Runs.exec Traced.step (.new logPath) ops = some t) :
    (Runs.Along Traced.step (fun t op => t.state.UpToDate op) (.new logPath) ops ↔
        ∀ pre, pre <+: ops → ∀ t', Runs.exec Traced.step (.new logPath) pre = some t' → t'.state.file = t'.ideal) ∧
      (Runs.Along Traced.step (fun t op => t.state.UpToDate op ∧ t.state.Alone op ∧ t.state.Clean op) (.new logPath) ops →
        t.state.Idle → ¬ t.state.NoneRunning → t.state.Recorded) ∧
        (Runs.Along Traced.step (fun t op => t.state.UpToDate op ∧ t.state.Counts op) (.new logPath) ops →
          t.counters.Pairwise (· ≤ ·)) := by
  refine ⟨?_, fun hgood hidle hrunning => ?_, fun hgood => ?_⟩
  · refine Runs.along_iff_reached
      (show ∀ t : Traced, t.state.file = t.ideal → t.state.file = t.ideal from fun _ h => h)
      (fun t op t' h _ hup hstep => ?_) (fun t op t' h _ hup hstep => ?_) rfl (Runs.along_true _ _) hrun
    · exact (Traced.file_step h hstep).mpr hup
    · exact fun hfile => hup ((Traced.file_step h hstep).mp hfile)
  · have hkeep : ∀ (t : Traced) op t', t.state.Instances → (t.state.UpToDate op ∧ t.state.Alone op ∧ t.state.Clean op) →
        Traced.step t op = some t' → t'.state.Instances :=
      fun t op t' h hgood hstep => h.step hgood.1 hgood.2.1 hgood.2.2 (Traced.step_spec hstep).1
    have hall : t.state.Instances := Runs.exec_invariant hkeep (State.instances_new logPath) hgood hrun
    exact hall.inv.recorded hall.last hall.waiting hidle hrunning
  · have hkeep : ∀ (t : Traced) op t', t.Counted → (t.state.UpToDate op ∧ t.state.Counts op) →
        Traced.step t op = some t' → t'.Counted := fun t op t' h hgood hstep => h.step hgood.1 hgood.2 hstep
    have hall : t.Counted := Runs.exec_invariant hkeep (Traced.counted_new logPath) hgood hrun
    exact hall.sorted

instance (s : State) (op : Op) : Decidable (s.UpToDate op) := inferInstanceAs (Decidable (∀ _ ∈ _, ∀ _ ∈ _, _))

instance (s : State) : Decidable s.NoneRunning := inferInstanceAs (Decidable (∀ _ ∈ _, _))

instance (s : State) : Decidable s.Idle := inferInstanceAs (Decidable (_ ∧ ∀ _ ∈ _, _))

instance (s : State) : Decidable s.Recorded := inferInstanceAs (Decidable (_ = _))

instance (s : State) : (op : Op) → Decidable (s.Alone op)
  | .supervisor _ (.go false) _ => inferInstanceAs (Decidable ((_ → _) ∧ (_ → ∀ _ ∈ _, _) ∧ ∀ _ ∈ _, _))
  | .supervisor _ (.go true) _ | .supervisor _ .childExit _ | .supervisor _ .sigterm _ | .supervisor _ .ctrlC _
  | .command _ _ _ | .start _ _ | .attach _ _ | .stop | .restart | .exit _ _ =>
      inferInstanceAs (Decidable ((_ → _) ∧ (_ → ∀ _ ∈ _, _) ∧ True))

instance (s : State) : (op : Op) → Decidable (s.Counts op)
  | .supervisor _ _ _ =>
      inferInstanceAs (Decidable ((∀ _ ∈ _, _ ∧ (∀ _ ∈ _, _) ∧ ∀ _ ∈ _, _) ∧ (_ → ∀ _ ∈ _, _) ∧ ∀ _ ∈ _, _))
  | .command _ _ _ | .start _ _ | .attach _ _ | .stop | .restart | .exit _ _ =>
      inferInstanceAs (Decidable ((∀ _ ∈ _, _ ∧ (∀ _ ∈ _, _) ∧ ∀ _ ∈ _, _) ∧ (_ → ∀ _ ∈ _, _) ∧ True))

/-- The state and the saves after a run. -/
def traced (ops : List Op) : Traced := (Runs.exec Traced.step (.new []) ops).getD (.new [])

theorem exec_traced {ops : List Op} (h : (Runs.exec Traced.step (.new []) ops).isSome = true) :
    Runs.exec Traced.step (.new []) ops = some (traced ops) := by
  obtain ⟨t, ht⟩ := Option.isSome_iff_exists.mp h
  rw [traced, ht, Option.getD_some]

/-- Two instances are started, and started again after one of them has ended. -/
def recovered : List Op := started ++ crash ++ List.replicate 5 (go 0)

theorem recovered_kept :
    (traced recovered).state.Recorded ∧ (traced recovered).counters.Pairwise (· ≤ ·) ∧
      (traced recovered).state.file.map (·.instancePids) = some [4, 5] ∧ (traced recovered).counters = [0, 0, 1] := by
  have h := records_kept [] recovered _ (exec_traced (by decide))
  exact ⟨h.2.1 (by decide) (by decide) (by decide), h.2.2 (by decide),
    by decide, by decide⟩

/-- `stop_process` has read the record before the restart, and saves it after the restart. -/
def staleStop : List Op :=
  started ++ [.stop, run 1] ++ crash ++ List.replicate 5 (go 0) ++ [run 1, run 1, .supervisor 0 .sigterm 0] ++
    List.replicate 5 (go 0) ++ [run 1, run 1]

/-- `start_managed` saves its record after the supervisor has saved the instances. -/
def lateRecord : List Op :=
  [.start (Op.app 1) "/srv".toList, run 0, go 0, go 0, go 0, go 0, run 0]

/-- `restart_process` after a restart of the supervisor's own. -/
def restarted : List Op :=
  recovered ++ [.restart, run 1, run 1, run 1, run 1, .supervisor 0 .sigterm 0] ++ List.replicate 5 (go 0) ++
    List.replicate 5 (run 1)

theorem updates_lost :
    (traced staleStop).state.file ≠ (traced staleStop).ideal ∧ ¬ (traced staleStop).counters.Pairwise (· ≤ ·) ∧
      ((traced lateRecord).state.Idle ∧ ¬ (traced lateRecord).state.NoneRunning ∧ ¬ (traced lateRecord).state.Recorded) ∧
      ((traced stoppedAsleep).state.Idle ∧ ¬ (traced stoppedAsleep).state.Recorded) ∧
      (traced restarted).counters = [0, 0, 1, 1, 1, 0, 2] ∧
        ∀ ops ∈ [staleStop, lateRecord, stoppedAsleep, restarted],
          (Runs.exec Traced.step (.new []) ops).isSome = true := by
  decide

/-! ## Manifests -/

/-- An allow entry adds only what it names wherever it stands exactly if its variables are set and not empty. A deny entry
is enforced on its text, and stays so without any one variable, exactly if without it the text covers what it covered. -/
theorem manifest_fails_closed (env : PathEnv) (place : Place) (k : Kind) (raw : Str) :
    (AllowsNamed env place k raw ↔ Settled place.vars raw) ∧ (DeniesAlways env place k raw ↔ CoversAlways env place k raw) :=
  ⟨⟨settled_of_allowsNamed, allowsNamed_of_settled⟩, coversAlways_of_deniesAlways, deniesAlways_of_coversAlways⟩

def noFiles : PathEnv := ⟨.ofNodes [] FileSystem.no_nodes, some [], PathEnv.empty_cwd⟩

/-- `HOST` is set to the empty text and `BLOCKED` to a host. -/
def launched : Place where
  vars := fun name =>
    if name = "HOST".toList then some []
    else if name = "BLOCKED".toList then some "evil.example".toList
    else none
  startDir := "/app".toList

def hostEntry : Str := "$\x7bHOST\x7d".toList

def blockedEntry : Str := "$\x7bBLOCKED\x7d".toList

def allowingHost : Section := { Section.empty with allow := fun k => if k = .net then [hostEntry] else [] }

/-- The empty variable opens every host, and a deny entry is lost with its variable. -/
theorem manifest_fails_open :
    .network ['*'] ∈ (runPermissions noFiles .none launched [(rootScope, allowingHost)]).granted ∧
      (checkInner noFiles .notTerminal ⟨[], none, [], false⟩
        (runPermissions noFiles .all launched [(rootScope, .denying .net blockedEntry)])
        (.network "evil.example".toList)).1 = false ∧
      (checkInner noFiles .notTerminal ⟨[], none, [], false⟩
        (runPermissions noFiles .all (launched.remove "BLOCKED".toList) [(rootScope, .denying .net blockedEntry)])
        (.network "evil.example".toList)).1 = true ∧
      ¬ AllowsNamed noFiles launched .net hostEntry ∧ ¬ DeniesAlways noFiles launched .net blockedEntry := by
  have hlost : (checkInner noFiles .notTerminal ⟨[], none, [], false⟩
      (runPermissions noFiles .all (launched.remove "BLOCKED".toList) [(rootScope, .denying .net blockedEntry)])
      (.network "evil.example".toList)).1 = true := by decide
  refine ⟨by decide, by decide, hlost, fun h => ?_, fun h => ?_⟩
  · obtain ⟨value, hvalue, hne⟩ := settled_of_allowsNamed h "HOST".toList (by decide)
    exact hne (Option.some.inj (hvalue.symm.trans (by decide)))
  · have hdenied := (h .all [(rootScope, .denying .net blockedEntry)] rootScope (.denying .net blockedEntry) (by simp)
      (by decide)).2 "BLOCKED".toList (.network "evil.example".toList) .notTerminal ⟨[], none, [], false⟩ (.inl rfl)
      (by decide)
    rw [hlost] at hdenied
    cases hdenied

end ThreeVa.Cli
