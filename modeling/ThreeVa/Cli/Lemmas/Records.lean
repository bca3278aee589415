import ThreeVa.Cli.Lemmas.Proc
import ThreeVa.Cli.Records

/-!
What a step does to one supervisor, to one command and to the file, and what follows for the records that are saved.
-/

namespace ThreeVa.Cli
open Text

variable {s s' : State} {q q' r : Supervisor} {c c' d : Command} {e : Effect} {i j : Nat} {now : Nat} {ok : Bool}
  {event : Event} {op : Op} {w : Save}

/-! ## One supervisor -/

/-- What a step can make of the supervisor in place `j`. -/
inductive Supervisor.Moves (s : State) : Op → Nat → Supervisor → Supervisor → Prop
  | stay {op : Op} {j : Nat} {q : Supervisor} : Moves s op j q q
  | terminate {op : Op} {j : Nat} {q : Supervisor} : Moves s op j q q.terminate
  | kill {op : Op} {j : Nat} {q : Supervisor} : Moves s op j q q.kill
  | next {j : Nat} {q q' : Supervisor} {event : Event} {now : Nat} {e : Effect} : q.Next s now event q' e →
      Moves s (.supervisor j event now) j q q'
  | exit {j : Nat} {q : Supervisor} {pid : Pid} :
      Moves s (.exit j pid) j q { q with alive := q.alive.filter (· ≠ pid) }

/-- A supervisor that the step has started. -/
structure Supervisor.Started (s : State) (op : Op) (q : Supervisor) : Prop where
  phase : q.phase = .boot
  restarts : ∃ cfg ∈ s.launched op, q.restarts = cfg.startRestarts

theorem signal_getElem? {f : Supervisor → Supervisor} {pid : Pid} (h : (s.signal f pid).supervisors[j]? = some r) :
    ∃ q, s.supervisors[j]? = some q ∧ (r = q ∨ r = f q) := by
  rw [State.signal, List.getElem?_map, Option.map_eq_some_iff] at h
  obtain ⟨q, hq, rfl⟩ := h
  refine ⟨q, hq, ?_⟩
  split
  · exact .inr rfl
  · exact .inl rfl

theorem launch_getElem? {cfg : SupervisorConfig} {cwd : Str} (h : (s.launch cfg cwd).supervisors[j]? = some r) :
    s.supervisors[j]? = some r ∨ j = s.supervisors.length ∧ r.phase = .boot ∧ r.restarts = cfg.startRestarts := by
  obtain hlt | hge := Nat.lt_or_ge j s.supervisors.length
  · rw [State.launch, List.getElem?_append_left hlt] at h
    exact .inl h
  · rw [State.launch, List.getElem?_append_right hge, List.getElem?_singleton] at h
    split at h
    next hj =>
      obtain rfl := Option.some.inj h
      exact .inr ⟨Nat.le_antisymm (Nat.sub_eq_zero_iff_le.mp hj) hge, rfl, rfl⟩
    · cases h

theorem State.launched_eq {cfg : SupervisorConfig} {cwd : Str} (hc : s.commands[i]? = some c)
    (hnext : Command.Next s now c ok c' (.launch cfg cwd)) : s.launched (.command i ok now) = some cfg := by
  cases hnext with
  | launch => simp [State.launched, hc]

theorem Supervisor.Next.effect (h : q.Next s now event q' e) : e = .none ∨ e = .spawn ∨ ∃ w, e = .save w := by
  cases h with
  | spawn => exact .inr (.inl rfl)
  | save | write => exact .inr (.inr ⟨_, rfl⟩)
  | _ => exact .inl rfl

theorem State.Step.supervisor_spec (h : s.Step op s') (hr : s'.supervisors[j]? = some r) :
    (∃ q, s.supervisors[j]? = some q ∧ Supervisor.Moves s op j q r) ∨
      j = s.supervisors.length ∧ r.Started s op := by
  cases h with
  | begin => exact .inl ⟨r, hr, .stay⟩
  | attach =>
      obtain hr | ⟨hj, hphase, hrestarts⟩ := launch_getElem? hr
      · exact .inl ⟨r, hr, .stay⟩
      · exact .inr ⟨hj, hphase, _, rfl, hrestarts⟩
  | command hc hturn =>
      rename_i e
      cases e with
      | none | save w | stopped w pid | spawn => exact .inl ⟨r, hr, .stay⟩
      | sigterm pid =>
          obtain ⟨q, hq, rfl | rfl⟩ := signal_getElem? hr
          · exact .inl ⟨r, hq, .stay⟩
          · exact .inl ⟨q, hq, .terminate⟩
      | sigkill pid =>
          obtain ⟨q, hq, rfl | rfl⟩ := signal_getElem? hr
          · exact .inl ⟨r, hq, .stay⟩
          · exact .inl ⟨q, hq, .kill⟩
      | launch cfg cwd =>
          obtain hr | ⟨hj, hphase, hrestarts⟩ := launch_getElem? hr
          · exact .inl ⟨r, hr, .stay⟩
          · exact .inr ⟨hj, hphase, cfg, State.launched_eq hc (Command.turn_spec hturn), hrestarts⟩
  | supervisor hq hnext =>
      rename_i i event now q q' e
      have hnext := Supervisor.next_spec hnext
      have hset : (s.supervisors.set i q')[j]? = some r := by
        obtain rfl | rfl | ⟨w, rfl⟩ := hnext.effect <;> exact hr
      by_cases hij : i = j
      · subst hij
        rw [List.getElem?_set_self', hq] at hset
        obtain rfl := Option.some.inj hset
        exact .inl ⟨q, hq, .next hnext⟩
      · rw [List.getElem?_set_ne hij] at hset
        exact .inl ⟨r, hset, .stay⟩
  | exit hq hpid =>
      rename_i i pid q
      by_cases hij : i = j
      · subst hij
        rw [State.setSupervisor, List.getElem?_set_self', hq] at hr
        obtain rfl := Option.some.inj hr
        exact .inl ⟨q, hq, .exit⟩
      · rw [State.setSupervisor, List.getElem?_set_ne hij] at hr
        exact .inl ⟨r, hr, .stay⟩

/-! ## One command -/

theorem State.apply_commands (s : State) (e : Effect) : (s.apply e).commands = s.commands := by
  cases e <;> rfl

theorem State.Step.command_spec (h : s.Step op s') (hd : s'.commands[j]? = some d) :
    s.commands[j]? = some d ∨ op.begins = some d ∨
      ∃ c ok now e, op = .command j ok now ∧ s.commands[j]? = some c ∧ Command.Next s now c ok d e := by
  cases h with
  | begin hbegins =>
      obtain hlt | hge := Nat.lt_or_ge j s.commands.length
      · rw [State.addCommand, List.getElem?_append_left hlt] at hd
        exact .inl hd
      · rw [State.addCommand, List.getElem?_append_right hge, List.getElem?_singleton] at hd
        split at hd
        · obtain rfl := Option.some.inj hd
          exact .inr (.inl hbegins)
        · cases hd
  | attach | exit => exact .inl hd
  | supervisor =>
      rw [State.apply_commands] at hd
      exact .inl hd
  | command hc hturn =>
      rename_i i ok now c c' e
      rw [State.apply_setCommand, State.setCommand, State.apply_commands] at hd
      by_cases hij : i = j
      · subst hij
        rw [List.getElem?_set_self', hc] at hd
        obtain rfl := Option.some.inj hd
        exact .inr (.inr ⟨c, ok, now, e, rfl, hc, Command.turn_spec hturn⟩)
      · rw [List.getElem?_set_ne hij] at hd
        exact .inl hd

/-! ## The file -/

/-- Who saves what. -/
inductive State.Saves (s : State) : Op → Save → Prop
  | cohort {i now : Nat} {q : Supervisor} {info : Option ProcessInfo} : s.supervisors[i]? = some q →
      q.phase = .saving info → Saves s (.supervisor i (.go true) now) (q.cohortSave s now info)
  | close {i now : Nat} {q : Supervisor} {info : ProcessInfo} {status : Status} : s.supervisors[i]? = some q →
      q.phase = .writing info status → Saves s (.supervisor i (.go true) now) ⟨info, .status status⟩
  | stop {i now : Nat} {info : ProcessInfo} {restart : Option ProcessInfo} :
      s.commands[i]? = some (.stopping (.save info) restart) → Saves s (.command i true now) ⟨info, .status .stopped⟩
  | record {i now : Nat} {info : ProcessInfo} {restarts : Option Nat} :
      s.commands[i]? = some (.recording info restarts) → Saves s (.command i true now) ⟨info, .all info⟩
  | count {i now : Nat} {info : ProcessInfo} {restarts : Nat} :
      s.commands[i]? = some (.counting info restarts) → Saves s (.command i true now) ⟨info, .counter restarts⟩

theorem State.saved_spec (h : s.saved op = some w) : s.Saves op w := by
  cases op with
  | start | attach | stop | restart | exit => cases h
  | command i ok now =>
      simp only [State.saved, Option.bind_eq_bind, Option.bind_eq_some_iff] at h
      obtain ⟨c, hc, ⟨c', e⟩, hturn, he⟩ := h
      cases Command.turn_spec hturn with
      | save =>
          obtain rfl := Option.some.inj he
          exact .stop hc
      | record | recordAgain =>
          obtain rfl := Option.some.inj he
          exact .record hc
      | count =>
          obtain rfl := Option.some.inj he
          exact .count hc
      | _ => cases he
  | supervisor i event now =>
      simp only [State.saved, Option.bind_eq_bind, Option.bind_eq_some_iff] at h
      obtain ⟨q, hq, ⟨q', e⟩, hnext, he⟩ := h
      cases Supervisor.next_spec hnext with
      | save hp =>
          obtain rfl := Option.some.inj he
          exact .cohort hq hp
      | write hp =>
          obtain rfl := Option.some.inj he
          exact .close hq hp
      | _ => cases he

theorem State.apply_file (s : State) (e : Effect) : (s.apply e).file = e.saved.elim s.file fun w => some w.info := by
  cases e <;> rfl

theorem State.step_file (h : s.step op = some s') : s'.file = (s.saved op).elim s.file fun w => some w.info := by
  cases State.step_spec h with
  | begin hbegins => cases op <;> cases hbegins <;> rfl
  | attach | exit => rfl
  | command hc hturn =>
      rw [State.apply_file]
      simp only [State.saved, hc, hturn, Option.bind_eq_bind, Option.bind_some]
      rfl
  | supervisor hq hnext =>
      rw [State.apply_file]
      simp only [State.saved, hq, hnext, Option.bind_eq_bind, Option.bind_some]
      rfl

/-- The file is as it was, or what was saved. -/
theorem State.step_file_cases (h : s.step op = some s') :
    s.saved op = none ∧ s'.file = s.file ∨ ∃ w, s.Saves op w ∧ s.saved op = some w ∧ s'.file = some w.info := by
  have hfile := State.step_file h
  cases hw : s.saved op with
  | none =>
      rw [hw] at hfile
      exact .inl ⟨rfl, hfile⟩
  | some w =>
      rw [hw] at hfile
      exact .inr ⟨w, State.saved_spec hw, rfl, hfile⟩

/-! ## Fields as they were last set -/

theorem Traced.step_spec {t t' : Traced} (h : t.step op = some t') :
    t.state.step op = some t'.state ∧
      (t.state.saved op = none ∧ t'.ideal = t.ideal ∧ t'.counters = t.counters ∨
        ∃ w, t.state.saved op = some w ∧ t'.ideal = some (t.ideal.elim w.info w.write.apply) ∧
          t'.counters = t.counters ++ [w.info.restarts]) := by
  obtain ⟨s', hs', rfl⟩ := Option.map_eq_some_iff.mp h
  refine ⟨hs', ?_⟩
  cases hw : t.state.saved op with
  | none => exact .inl ⟨rfl, rfl, rfl⟩
  | some w => exact .inr ⟨w, rfl, rfl, rfl⟩

theorem State.upToDate_iff (hw : s.saved op = some w) :
    s.UpToDate op ↔ ∀ info ∈ s.file, w.info = w.write.apply info := by
  rw [State.UpToDate, hw]
  exact ⟨fun h => h w rfl, fun h w' hw' => Option.some.inj hw' ▸ h⟩

/-- A save that is up to date keeps the fields that it does not set, and no other does. -/
theorem Traced.file_step {t t' : Traced} (h : t.state.file = t.ideal) (hstep : t.step op = some t') :
    t'.state.file = t'.ideal ↔ t.state.UpToDate op := by
  obtain ⟨hs, hsave⟩ := Traced.step_spec hstep
  have hfile := State.step_file hs
  obtain ⟨hnone, hideal, -⟩ | ⟨w, hw, hideal, -⟩ := hsave
  · rw [hnone] at hfile
    refine ⟨fun _ w hw => ?_, fun _ => hfile.trans (h.trans hideal.symm)⟩
    rw [hnone] at hw
    cases hw
  · rw [hw] at hfile
    rw [hfile, hideal, State.upToDate_iff hw, ← h, Option.elim_some, Option.some.injEq]
    cases t.state.file with
    | none => simp
    | some info => simp

/-! ## One running supervisor -/

/-- Only the last supervisor can run. -/
def State.Last (s : State) : Prop :=
  ∀ j q, s.supervisors[j]? = some q → q.phase ≠ .exited → j + 1 = s.supervisors.length

theorem Supervisor.Moves.live (h : Supervisor.Moves s op j q r) (hr : r.phase ≠ .exited) : q.phase ≠ .exited := by
  intro hq
  cases h with
  | stay => exact hr hq
  | terminate =>
      obtain heq | ⟨-, hexited⟩ := q.terminate_phase
      · exact hr (heq.trans hq)
      · exact hr hexited
  | kill => exact hr rfl
  | next hnext => exact hnext.not_exited hq
  | exit => exact hr hq

theorem State.Step.length_spec (h : s.Step op s') :
    s'.supervisors.length = s.supervisors.length ∨
      s'.supervisors.length = s.supervisors.length + 1 ∧ s.launched op ≠ none := by
  cases h with
  | begin => exact .inl rfl
  | exit => exact .inl List.length_set
  | attach => exact .inr ⟨List.length_append, by simp [State.launched]⟩
  | command hc hturn =>
      rename_i e
      cases e with
      | none | save w | stopped w pid | spawn => exact .inl rfl
      | sigterm pid | sigkill pid => exact .inl (List.length_map _)
      | launch cfg cwd =>
          exact .inr ⟨List.length_append, by simp [State.launched_eq hc (Command.turn_spec hturn)]⟩
  | supervisor hq hnext =>
      obtain rfl | rfl | ⟨w, rfl⟩ := (Supervisor.next_spec hnext).effect <;> exact .inl List.length_set

theorem State.Last.step (h : s.Last) (halone : s.launched op ≠ none → s.NoneRunning) (hstep : s.Step op s') :
    s'.Last := by
  intro j r hr hlive
  obtain ⟨q, hq, hmoves⟩ | ⟨hj, -⟩ := hstep.supervisor_spec hr
  · have hqlive := hmoves.live hlive
    obtain hlen | ⟨-, hlaunched⟩ := hstep.length_spec
    · rw [hlen]
      exact h j q hq hqlive
    · exact absurd (halone hlaunched q (List.mem_of_getElem? hq)) hqlive
  · have hlt : j < s'.supervisors.length := (List.getElem?_eq_some_iff.mp hr).1
    obtain hlen | ⟨hlen, -⟩ := hstep.length_spec <;> omega

/-! ## Recorded instances -/

/-- A supervisor that waits has its instances in the file. -/
def State.Waiting (s : State) : Prop :=
  ∀ q ∈ s.supervisors, q.phase = .waiting → ∃ info ∈ s.file, info.instancePids = q.children

theorem Supervisor.terminate_children (q : Supervisor) : q.terminate.children = q.children := by
  unfold Supervisor.terminate
  split <;> rfl

theorem Supervisor.Moves.waiting (h : Supervisor.Moves s op j q r) (hr : r.phase = .waiting) :
    r.children = q.children ∧
      (q.phase = .waiting ∨ ∃ ok now info, op = .supervisor j (.go ok) now ∧ q.phase = .saving info) := by
  cases h with
  | stay | exit => exact ⟨rfl, .inl hr⟩
  | kill => cases hr
  | terminate =>
      refine ⟨q.terminate_children, .inl ?_⟩
      obtain heq | ⟨-, hexited⟩ := q.terminate_phase
      · exact heq.symm.trans hr
      · rw [hexited] at hr
        cases hr
  | next hnext =>
      cases hnext with
      | save hp => exact ⟨rfl, .inr ⟨true, _, _, rfl, hp⟩⟩
      | saveFailed hp => exact ⟨rfl, .inr ⟨false, _, _, rfl, hp⟩⟩
      | spawn hp =>
          rw [show _ = q.phase from rfl, hp] at hr
          cases hr
      | check =>
          obtain heq | ⟨phase, restarts, hphase, -, heq⟩ := q.afterExit_spec (s.loadProcess _)
          · rw [heq] at hr
            cases hr
          · rw [heq] at hr
            obtain rfl | ⟨status, rfl⟩ := hphase <;> cases hr
      | _ => cases hr

theorem Supervisor.cohortSave_pids (q : Supervisor) (s : State) (now : Nat) (info : Option ProcessInfo) :
    (q.cohortSave s now info).info.instancePids = q.children := by
  cases info <;> rfl

theorem State.saved_cohort {info : Option ProcessInfo} (hq : s.supervisors[j]? = some q) (hp : q.phase = .saving info) :
    s.saved (.supervisor j (.go true) now) = some (q.cohortSave s now info) := by
  simp [State.saved, hq, Supervisor.next, Supervisor.turn, hp, Effect.saved]

/-- Of the saves that are up to date only those of a whole cohort and of a new record set the instances. -/
theorem State.Saves.instancePids (h : s.Saves op w) (hw : s.saved op = some w) (hup : s.UpToDate op)
    {info : ProcessInfo} (hinfo : info ∈ s.file) :
    w.info.instancePids = info.instancePids ∨ s.recorded op ≠ none ∨
      ∃ i now q base, op = .supervisor i (.go true) now ∧ s.supervisors[i]? = some q ∧ q.phase = .saving base ∧
        w = q.cohortSave s now base := by
  have hsame := (State.upToDate_iff hw).mp hup info hinfo
  cases h with
  | cohort hq hp => exact .inr (.inr ⟨_, _, _, _, rfl, hq, hp, rfl⟩)
  | close | stop | count => exact .inl (by rw [hsame]; rfl)
  | record hc => exact .inr (.inl (by simp [State.recorded, hc]))

theorem State.Waiting.step (h : s.Waiting) (hlast : s.Last) (hup : s.UpToDate op) (halone : s.Alone op)
    (hstep : s.step op = some s') : s'.Waiting := by
  intro r hr hwaiting
  obtain ⟨j, hj⟩ := List.getElem?_of_mem hr
  obtain ⟨q, hq, hmoves⟩ | ⟨-, hstarted⟩ := (State.step_spec hstep).supervisor_spec hj
  · obtain ⟨hchildren, hq' | ⟨ok, now, info, rfl, hsaving⟩⟩ := hmoves.waiting hwaiting
    · obtain ⟨info, hinfo, hpids⟩ := h q (List.mem_of_getElem? hq) hq'
      obtain ⟨-, hfile⟩ | ⟨w, hsaves, hw, hfile⟩ := State.step_file_cases hstep
      · exact ⟨info, hfile ▸ hinfo, hpids.trans hchildren.symm⟩
      · obtain hsame | hrecorded | ⟨i, now, p, base, rfl, hp, hsaving, rfl⟩ := hsaves.instancePids hw hup hinfo
        · exact ⟨w.info, hfile, hsame.trans (hpids.trans hchildren.symm)⟩
        · exact absurd hq' (halone.2.1 hrecorded q (List.mem_of_getElem? hq))
        · have hi := hlast i p hp (by simp [hsaving])
          have hj := hlast j q hq (by simp [hq'])
          obtain rfl : i = j := by omega
          obtain rfl := Option.some.inj (hp.symm.trans hq)
          rw [hsaving] at hq'
          cases hq'
    · cases ok with
      | false =>
          have hnot : q.phase.isSaving = false := halone.2.2 q hq
          rw [hsaving] at hnot
          cases hnot
      | true =>
          have hfile := State.step_file hstep
          rw [State.saved_cohort hq hsaving] at hfile
          exact ⟨_, hfile, (q.cohortSave_pids s now info).trans hchildren.symm⟩
  · rw [hstarted.phase] at hwaiting
    cases hwaiting

/-- In an idle state with a running supervisor, all other supervisors are gone and have no children. -/
theorem State.Inv.recorded (h : s.Inv) (hlast : s.Last) (hwaiting : s.Waiting) (hidle : s.Idle) (hrun : ¬ s.NoneRunning) :
    s.Recorded := by
  simp only [State.NoneRunning, not_forall] at hrun
  obtain ⟨q, hq, hlive⟩ := hrun
  obtain ⟨hphase, halive, -⟩ := (hidle.2 q hq).resolve_left hlive
  obtain ⟨info, hinfo, hpids⟩ := hwaiting q hq hphase
  obtain ⟨j, hj⟩ := List.getElem?_of_mem hq
  have hend := hlast j q hj hlive
  obtain ⟨hlt, hget⟩ := List.getElem?_eq_some_iff.mp hj
  have hsplit : s.supervisors = s.supervisors.take j ++ [q] := by
    rw [← hget, ← List.take_succ_eq_append_getElem hlt, hend, List.take_length]
  have hrest : (s.supervisors.take j).flatMap (·.alive) = [] := by
    rw [List.flatMap_eq_nil_iff]
    intro p hp
    obtain ⟨k, hk⟩ := List.getElem?_of_mem hp
    obtain ⟨hkj, hk⟩ : k < j ∧ s.supervisors[k]? = some p := by
      rw [List.getElem?_take] at hk
      split at hk
      next hkj => exact ⟨hkj, hk⟩
      · cases hk
    have hexited : p.phase = .exited := by
      by_contra hne
      have := hlast k p hk hne
      omega
    have hsound := (h.supervisors p (List.mem_of_getElem? hk)).sound
    rw [Supervisor.Sound, hexited] at hsound
    exact hsound
  rw [State.Recorded, Option.map_eq_some_iff]
  refine ⟨info, hinfo, ?_⟩
  rw [hsplit, List.flatMap_append, hrest, hpids, ← halive]
  simp

/-! ## What the parties hold -/

/-- `filed` says that there is a record. -/
def Supervisor.Consistent (filed : Prop) (q : Supervisor) : Prop :=
  match q.phase with
  | .saving _ => q.children ≠ []
  | .writing _ _ => filed
  | _ => True

def Command.Consistent (filed : Prop) : Command → Prop
  | .stopping .load _ | .restarting | .ended => True
  | .stopping _ _ => filed
  | .starting cfg _ restarts => ∀ n ∈ restarts, cfg.startRestarts = n
  | .recording info _ => info.instancePids = [] ∧ info.restarts = 0
  | .counting info _ => info.instancePids = []

structure State.Consistent (s : State) : Prop where
  supervisors : ∀ q ∈ s.supervisors, q.Consistent (s.file ≠ none)
  commands : ∀ c ∈ s.commands, c.Consistent (s.file ≠ none)

theorem Supervisor.Consistent.mono {P Q : Prop} (hPQ : P → Q) (h : q.Consistent P) : q.Consistent Q := by
  unfold Supervisor.Consistent at h ⊢
  split <;> simp_all

theorem Command.Consistent.mono {P Q : Prop} (hPQ : P → Q) (h : c.Consistent P) : c.Consistent Q := by
  cases c with
  | stopping stop restart =>
      cases stop with
      | load => trivial
      | _ => exact hPQ h
  | restarting | ended => trivial
  | starting | recording | counting => exact h

theorem State.filed_step (h : s.step op = some s') (hfiled : s.file ≠ none) : s'.file ≠ none := by
  obtain ⟨-, hfile⟩ | ⟨w, -, -, hfile⟩ := State.step_file_cases h
  · rwa [hfile]
  · simp [hfile]

theorem State.filed_of_loadProcess {info : ProcessInfo} (h : s.loadProcess ok = some info) : s.file ≠ none := by
  have hinfo : s.file = some info := State.mem_loadProcess h
  simp [hinfo]

theorem Supervisor.Next.consistent (h : q.Next s now event q' e) : q'.Consistent (s.file ≠ none) := by
  cases h with
  | load hp hlt =>
      have hpos : 1 ≤ q.cohortSize := Nat.le_max_right _ _
      intro hnone
      rw [show q.children = [] from hnone, List.length_nil] at hlt
      omega
  | close hp hload => exact State.filed_of_loadProcess hload
  | spawn hp => simp [Supervisor.Consistent, hp]
  | check hp =>
      obtain heq | ⟨phase, restarts, hphase, -, heq⟩ := q.afterExit_spec (s.loadProcess _)
      · rw [heq]
        trivial
      · rw [heq]
        obtain rfl | ⟨status, rfl⟩ := hphase <;> trivial
  | _ => trivial

theorem Supervisor.Moves.consistent (h : Supervisor.Moves s op j q r) (hq : q.Consistent (s.file ≠ none)) :
    r.Consistent (s.file ≠ none) := by
  cases h with
  | stay | exit => exact hq
  | kill => trivial
  | terminate =>
      unfold Supervisor.terminate
      split
      · trivial
      · exact hq
      · exact hq
  | next hnext => exact hnext.consistent

theorem Command.Next.consistent (h : Command.Next s now c ok c' e) (hc : c.Consistent (s.file ≠ none)) :
    c'.Consistent (s.file ≠ none) := by
  have hafter : ∀ restart, (afterStop restart).Consistent (s.file ≠ none) := by
    intro restart
    cases restart with
    | none => trivial
    | some info => exact fun n hn => Option.some.inj hn
  cases h with
  | load hload _ => exact State.filed_of_loadProcess hload
  | loadFailed | save | saveFailed => exact hafter _
  | gone hstop _ => obtain rfl | rfl := hstop <;> exact hc
  | found | terminate | poll | late | kill => exact hc
  | launch => exact ⟨rfl, rfl⟩
  | recordAgain => exact hc.1
  | _ => trivial

theorem State.Consistent.step (h : s.Consistent) (hstep : s.step op = some s') : s'.Consistent := by
  have hspec := State.step_spec hstep
  refine ⟨fun r hr => ?_, fun d hd => ?_⟩
  · obtain ⟨j, hj⟩ := List.getElem?_of_mem hr
    obtain ⟨q, hq, hmoves⟩ | ⟨-, hstarted⟩ := hspec.supervisor_spec hj
    · exact (hmoves.consistent (h.supervisors q (List.mem_of_getElem? hq))).mono (State.filed_step hstep)
    · simp [Supervisor.Consistent, hstarted.phase]
  · obtain ⟨j, hj⟩ := List.getElem?_of_mem hd
    obtain hc | hbegins | ⟨c, ok, now, e, -, hc, hnext⟩ := hspec.command_spec hj
    · exact (h.commands d (List.mem_of_getElem? hc)).mono (State.filed_step hstep)
    · cases op <;> cases hbegins
      · exact fun n hn => by cases hn
      · trivial
      · trivial
    · exact (hnext.consistent (h.commands c (List.mem_of_getElem? hc))).mono (State.filed_step hstep)

/-! ## The restart counter -/

/-- The counter that `restart_process` is going to save. -/
def Command.counter : Command → Option Nat
  | .recording _ restarts => restarts
  | .counting _ restarts => some restarts
  | .stopping _ _ | .restarting | .starting _ _ _ | .ended => none

structure Traced.Counted (t : Traced) : Prop where
  consistent : t.state.Consistent
  last : t.state.Last
  sorted : t.counters.Pairwise (· ≤ ·)
  below : ∀ n ∈ t.counters, ∃ info ∈ t.state.file, n ≤ info.restarts
  live : ∀ q ∈ t.state.supervisors, q.phase ≠ .exited → ∀ info ∈ t.state.file, info.restarts ≤ q.restarts
  alone : ∀ (i j : Nat) (c d : Command), t.state.commands[i]? = some c → t.state.commands[j]? = some d →
    c.starts = true → d.starts = true → i = j
  bound : ∀ c ∈ t.state.commands, ∀ n ∈ c.counter, ∀ q ∈ t.state.supervisors, q.phase ≠ .exited → n ≤ q.restarts
  /-- Once the supervisor has saved its instances, the save of the counter is out of date. -/
  fresh : ∀ info n, Command.counting info n ∈ t.state.commands →
    ∀ f ∈ t.state.file, f.restarts ≤ n ∨ f.instancePids ≠ []

theorem Supervisor.cohortSave_restarts (q : Supervisor) (s : State) (now : Nat) (info : Option ProcessInfo) :
    (q.cohortSave s now info).info.restarts = q.restarts := by
  cases info <;> rfl

variable {t t' : Traced}

/-- A status is saved over a record that has the same counter and instances. -/
theorem State.UpToDate.status {base : ProcessInfo} {status : Status} (hup : s.UpToDate op)
    (hw : s.saved op = some ⟨base, .status status⟩) (hfiled : s.file ≠ none) :
    ∃ f ∈ s.file, (Save.info ⟨base, .status status⟩).restarts = f.restarts ∧
      (Save.info ⟨base, .status status⟩).instancePids = f.instancePids := by
  obtain ⟨f, hf⟩ := Option.ne_none_iff_exists'.mp hfiled
  have hsame := (State.upToDate_iff hw).mp hup f hf
  exact ⟨f, hf, by rw [hsame]; exact ⟨rfl, rfl⟩⟩

theorem State.Saves.status_or (h : s.Saves op w) (hs : s.Consistent) (hup : s.UpToDate op) (hw : s.saved op = some w) :
    (∃ f ∈ s.file, w.info.restarts = f.restarts ∧ w.info.instancePids = f.instancePids) ∨
      (∃ (i : Nat) (q : Supervisor), s.supervisors[i]? = some q ∧ q.phase ≠ .exited ∧ q.children ≠ [] ∧
        w.info.restarts = q.restarts ∧ w.info.instancePids = q.children) ∨
      (∃ (i : Nat) (info : ProcessInfo) (restarts : Option Nat), s.commands[i]? = some (.recording info restarts) ∧
        s.recorded op ≠ none ∧ w.info = info) ∨
        ∃ (i : Nat) (info : ProcessInfo) (n : Nat), s.commands[i]? = some (.counting info n) ∧ w = ⟨info, .counter n⟩ := by
  cases h with
  | cohort hq hp =>
      rename_i q info
      have hq' := hs.supervisors q (List.mem_of_getElem? hq)
      rw [Supervisor.Consistent, hp] at hq'
      exact .inr (.inl ⟨_, q, hq, by simp [hp], hq', q.cohortSave_restarts s _ info, q.cohortSave_pids s _ info⟩)
  | close hq hp =>
      have hq' := hs.supervisors _ (List.mem_of_getElem? hq)
      rw [Supervisor.Consistent, hp] at hq'
      exact .inl (hup.status hw hq')
  | stop hc => exact .inl (hup.status hw (hs.commands _ (List.mem_of_getElem? hc)))
  | record hc => exact .inr (.inr (.inl ⟨_, _, _, hc, by simp [State.recorded, hc], rfl⟩))
  | count hc => exact .inr (.inr (.inr ⟨_, _, _, hc, rfl⟩))

/-- No save has a counter above that of a running supervisor. -/
theorem Traced.Counted.saved_le (h : t.Counted) (hup : t.state.UpToDate op) (hsaves : t.state.Saves op w)
    (hw : t.state.saved op = some w) (hq : t.state.supervisors[j]? = some q) (hlive : q.phase ≠ .exited) :
    w.info.restarts ≤ q.restarts := by
  have hmem := List.mem_of_getElem? hq
  obtain ⟨f, hf, hsame, -⟩ | ⟨i, p, hp, hplive, -, hsame, -⟩ | ⟨i, info, restarts, hc, -, hsame⟩ |
    ⟨i, info, n, hc, rfl⟩ := hsaves.status_or h.consistent hup hw
  · exact hsame ▸ h.live q hmem hlive f hf
  · have hi := h.last i p hp hplive
    have hj := h.last j q hq hlive
    obtain rfl : i = j := by omega
    obtain rfl := Option.some.inj (hp.symm.trans hq)
    exact hsame.le
  · have hzero : info.restarts = 0 := (h.consistent.commands _ (List.mem_of_getElem? hc)).2
    rw [hsame, hzero]
    exact Nat.zero_le _
  · exact h.bound _ (List.mem_of_getElem? hc) n rfl q hmem hlive

/-- No save has a counter below the recorded one. -/
theorem Traced.Counted.le_saved (h : t.Counted) (hup : t.state.UpToDate op) (hcounts : t.state.Counts op)
    (hsaves : t.state.Saves op w) (hw : t.state.saved op = some w) {f : ProcessInfo} (hf : f ∈ t.state.file) :
    f.restarts ≤ w.info.restarts := by
  obtain ⟨f', hf', hsame, -⟩ | ⟨i, p, hp, hplive, -, hsame, -⟩ | ⟨i, info, restarts, hc, hrecorded, -⟩ |
    ⟨i, info, n, hc, rfl⟩ := hsaves.status_or h.consistent hup hw
  · obtain rfl := Option.some.inj (hf.symm.trans hf')
    exact hsame.ge
  · exact hsame ▸ h.live p (List.mem_of_getElem? hp) hplive f hf
  · rw [hcounts.2.1 hrecorded f hf]
    exact Nat.zero_le _
  · have hmem := List.mem_of_getElem? hc
    have hpids : f.instancePids = [] := by
      have hsame := congrArg ProcessInfo.instancePids ((State.upToDate_iff hw).mp hup f hf)
      exact hsame.symm.trans (h.consistent.commands _ hmem)
    exact (h.fresh info n hmem f hf).resolve_right (fun hne => hne hpids)

theorem bump_eq {n : Nat} (h : n < 4294967295) : bump n = n + 1 := Nat.mod_eq_of_lt (by omega)

/-- The counter of a supervisor grows. -/
theorem Supervisor.Moves.restarts_le (h : Supervisor.Moves s op j q r) (hq : s.supervisors[j]? = some q)
    (hcounts : s.Counts op) : q.restarts ≤ r.restarts := by
  cases h with
  | stay | exit | kill => exact le_rfl
  | terminate =>
      unfold Supervisor.terminate
      split <;> exact le_rfl
  | next hnext =>
      cases hnext with
      | check hp =>
          have hlt := hcounts.2.2 q hq hp
          obtain heq | ⟨phase, restarts, -, hrestarts, heq⟩ := q.afterExit_spec (s.loadProcess _)
          · rw [heq]
          · rw [heq]
            obtain rfl | rfl := hrestarts
            · exact le_rfl
            · exact (bump_eq hlt).symm ▸ Nat.le_succ _
      | _ => exact le_rfl

theorem State.saved_of_launched (h : s.launched op ≠ none) : s.saved op = none := by
  cases op with
  | start | stop | restart | exit | attach => rfl
  | supervisor => exact absurd rfl h
  | command i ok now =>
      cases ok with
      | false => exact absurd rfl h
      | true =>
          cases hc : s.commands[i]? with
          | none => simp [State.saved, hc]
          | some c =>
              cases c with
              | starting cfg cwd restarts => simp [State.saved, hc, Command.turn, Effect.saved]
              | _ => simp [State.launched, hc] at h

/-- A command that starts a supervisor has started it before, or does so in this step. -/
theorem Command.Next.starts (h : Command.Next s now c ok c' e) (hc' : c'.starts = true) (hc : s.commands[i]? = some c) :
    c.starts = true ∧ c'.counter = c.counter ∨
      ∃ cfg cwd restarts, c = .starting cfg cwd restarts ∧ c'.counter = restarts ∧
        s.launched (.command i ok now) = some cfg := by
  have hafter : ∀ restart, (afterStop restart).starts = false := by
    intro restart
    cases restart <;> rfl
  cases h with
  | launch => exact .inr ⟨_, _, _, rfl, rfl, by simp [State.launched, hc]⟩
  | recordAgain => exact .inl ⟨rfl, rfl⟩
  | loadFailed | save | saveFailed =>
      rw [hafter] at hc'
      cases hc'
  | _ => cases hc'

theorem Command.Next.counting {info : ProcessInfo} {n : Nat} (h : Command.Next s now c ok (.counting info n) e) :
    c = .recording info (some n) ∧ ok = true := by
  generalize hd : Command.counting info n = d at h
  cases h with
  | recordAgain =>
      obtain ⟨rfl, rfl⟩ := Command.counting.inj hd
      exact ⟨rfl, rfl⟩
  | loadFailed | save | saveFailed =>
      rename_i restart
      cases restart <;> cases hd
  | _ => cases hd

theorem Op.begins_starts (h : op.begins = some c) : c.starts = false := by
  cases op <;> cases h <;> rfl

theorem Command.starts_of_counter {n : Nat} (h : c.counter = some n) : c.starts = true := by
  cases c <;> first | rfl | cases h

/-- Where a command that starts a supervisor comes from. -/
theorem State.Step.starts_spec (h : s.Step op s') (hd : s'.commands[j]? = some d) (hstarts : d.starts = true) :
    (∃ c, s.commands[j]? = some c ∧ c.starts = true ∧ d.counter = c.counter) ∨
      ∃ (ok : Bool) (now : Nat) (cfg : SupervisorConfig) (cwd : Str) (restarts : Option Nat),
        op = .command j ok now ∧ s.commands[j]? = some (.starting cfg cwd restarts) ∧ d.counter = restarts ∧
          s.launched op = some cfg := by
  obtain hc | hbegins | ⟨c, ok, now, e, rfl, hc, hnext⟩ := h.command_spec hd
  · exact .inl ⟨d, hc, hstarts, rfl⟩
  · rw [Op.begins_starts hbegins] at hstarts
    cases hstarts
  · obtain ⟨hcstarts, hcounter⟩ | ⟨cfg, cwd, restarts, rfl, hcounter, hlaunched⟩ := hnext.starts hstarts hc
    · exact .inl ⟨c, hc, hcstarts, hcounter⟩
    · exact .inr ⟨ok, now, cfg, cwd, restarts, rfl, hc, hcounter, hlaunched⟩

section

variable (h : t.Counted) (hup : t.state.UpToDate op) (hcounts : t.state.Counts op) (hstep : t.state.step op = some s')
include h hcounts hstep

theorem Traced.Counted.alone_step (i j : Nat) (c d : Command) (hc : s'.commands[i]? = some c)
    (hd : s'.commands[j]? = some d) (hcs : c.starts = true) (hds : d.starts = true) : i = j := by
  have hspec := State.step_spec hstep
  obtain ⟨c₀, hc₀, hc₀s, -⟩ | ⟨ok, now, cfg, cwd, restarts, rfl, -, -, hlaunched⟩ := hspec.starts_spec hc hcs
  · obtain ⟨d₀, hd₀, hd₀s, -⟩ | ⟨ok, now, cfg, cwd, restarts, rfl, -, -, hlaunched⟩ := hspec.starts_spec hd hds
    · exact h.alone i j c₀ d₀ hc₀ hd₀ hc₀s hd₀s
    · rw [(hcounts.1 cfg hlaunched).2.1 c₀ (List.mem_of_getElem? hc₀)] at hc₀s
      cases hc₀s
  · obtain ⟨d₀, hd₀, hd₀s, -⟩ | ⟨ok', now', cfg', cwd', restarts', hop, -⟩ := hspec.starts_spec hd hds
    · rw [(hcounts.1 cfg hlaunched).2.1 d₀ (List.mem_of_getElem? hd₀)] at hd₀s
      cases hd₀s
    · exact (Op.command.inj hop).1

theorem Traced.Counted.bound_step (c : Command) (hc : c ∈ s'.commands) (n : Nat) (hn : n ∈ c.counter) (r : Supervisor)
    (hr : r ∈ s'.supervisors) (hlive : r.phase ≠ .exited) : n ≤ r.restarts := by
  have hspec := State.step_spec hstep
  obtain ⟨i, hi⟩ := List.getElem?_of_mem hc
  obtain ⟨j, hj⟩ := List.getElem?_of_mem hr
  obtain ⟨c₀, hc₀, hc₀s, hcounter⟩ | ⟨ok, now, cfg, cwd, restarts, -, hc₀, hcounter, hlaunched⟩ :=
    hspec.starts_spec hi (Command.starts_of_counter hn)
  · have hmem := List.mem_of_getElem? hc₀
    obtain ⟨q, hq, hmoves⟩ | ⟨-, -, cfg, hlaunched, -⟩ := hspec.supervisor_spec hj
    · have hle := h.bound c₀ hmem n (hcounter ▸ hn) q (List.mem_of_getElem? hq) (hmoves.live hlive)
      exact hle.trans (hmoves.restarts_le hq hcounts)
    · rw [(hcounts.1 cfg hlaunched).2.1 c₀ hmem] at hc₀s
      cases hc₀s
  · obtain ⟨q, hq, hmoves⟩ | ⟨-, -, cfg', hlaunched', hrestarts⟩ := hspec.supervisor_spec hj
    · exact absurd ((hcounts.1 cfg hlaunched).1 q (List.mem_of_getElem? hq)) (hmoves.live hlive)
    · obtain rfl := Option.some.inj (hlaunched.symm.trans hlaunched')
      have hstart := h.consistent.commands _ (List.mem_of_getElem? hc₀) n (hcounter ▸ hn)
      rw [hrestarts, hstart]

include hup

theorem Traced.Counted.live_step (r : Supervisor) (hr : r ∈ s'.supervisors) (hlive : r.phase ≠ .exited)
    (f : ProcessInfo) (hf : f ∈ s'.file) : f.restarts ≤ r.restarts := by
  obtain ⟨j, hj⟩ := List.getElem?_of_mem hr
  obtain ⟨q, hq, hmoves⟩ | ⟨-, -, cfg, hlaunched, hrestarts⟩ := (State.step_spec hstep).supervisor_spec hj
  · have hqlive := hmoves.live hlive
    refine le_trans ?_ (hmoves.restarts_le hq hcounts)
    obtain ⟨-, hfile⟩ | ⟨w, hsaves, hw, hfile⟩ := State.step_file_cases hstep
    · exact h.live q (List.mem_of_getElem? hq) hqlive f (hfile ▸ hf)
    · obtain rfl := Option.some.inj (hfile.symm.trans hf)
      exact h.saved_le hup hsaves hw hq hqlive
  · have hsaved : t.state.saved op = none :=
      State.saved_of_launched (fun hnone => by rw [hnone] at hlaunched; cases hlaunched)
    have hfile := State.step_file hstep
    rw [hsaved, Option.elim_none] at hfile
    rw [hrestarts]
    exact (hcounts.1 cfg hlaunched).2.2 f (hfile ▸ hf)

theorem Traced.Counted.fresh_step (info : ProcessInfo) (n : Nat) (hc : Command.counting info n ∈ s'.commands)
    (f : ProcessInfo) (hf : f ∈ s'.file) : f.restarts ≤ n ∨ f.instancePids ≠ [] := by
  obtain ⟨j, hj⟩ := List.getElem?_of_mem hc
  obtain hc | hbegins | ⟨c, ok, now, e, rfl, hc, hnext⟩ := (State.step_spec hstep).command_spec hj
  · have hmem := List.mem_of_getElem? hc
    obtain ⟨-, hfile⟩ | ⟨w, hsaves, hw, hfile⟩ := State.step_file_cases hstep
    · exact h.fresh info n hmem f (hfile ▸ hf)
    · obtain rfl := Option.some.inj (hfile.symm.trans hf)
      obtain ⟨f₀, hf₀, hrestarts, hpids⟩ | ⟨i, q, -, -, hne, -, hpids⟩ | ⟨i, info', restarts, hc', -, -⟩ |
        ⟨i, info', n', hc', rfl⟩ := hsaves.status_or h.consistent hup hw
      · rw [hrestarts, hpids]
        exact h.fresh info n hmem f₀ hf₀
      · exact .inr (hpids ▸ hne)
      · obtain rfl := h.alone i j _ _ hc' hc rfl rfl
        rw [hc'] at hc
        cases hc
      · obtain rfl := h.alone i j _ _ hc' hc rfl rfl
        rw [hc'] at hc
        cases hc
        exact .inl le_rfl
  · cases op <;> cases hbegins
  · obtain ⟨rfl, rfl⟩ := hnext.counting
    have hfile := State.step_file hstep
    simp only [State.saved, hc, Command.turn, Effect.saved, Option.bind_eq_bind, Option.bind_some, if_true,
      Option.elim_some] at hfile
    obtain rfl := Option.some.inj (hfile.symm.trans hf)
    have hzero : info.restarts = 0 := (h.consistent.commands _ (List.mem_of_getElem? hc)).2
    exact .inl (hzero.le.trans (Nat.zero_le n))

end

theorem Traced.Counted.step (h : t.Counted) (hup : t.state.UpToDate op) (hcounts : t.state.Counts op)
    (hstep : t.step op = some t') : t'.Counted := by
  obtain ⟨hs, hsave⟩ := Traced.step_spec hstep
  refine ⟨h.consistent.step hs, h.last.step (fun hlaunched => ?_) (State.step_spec hs), ?_, ?_,
    h.live_step hup hcounts hs, h.alone_step hcounts hs, h.bound_step hcounts hs, h.fresh_step hup hcounts hs⟩
  · obtain ⟨cfg, hcfg⟩ := Option.ne_none_iff_exists'.mp hlaunched
    exact (hcounts.1 cfg hcfg).1
  · obtain ⟨-, -, hsame⟩ | ⟨w, hw, -, hnew⟩ := hsave
    · exact hsame ▸ h.sorted
    · rw [hnew, List.pairwise_append]
      refine ⟨h.sorted, List.pairwise_singleton _ _, fun n hn m hm => ?_⟩
      obtain rfl := List.mem_singleton.mp hm
      obtain ⟨f, hf, hle⟩ := h.below n hn
      exact hle.trans (h.le_saved hup hcounts (State.saved_spec hw) hw hf)
  · have hfile := State.step_file hs
    obtain ⟨hnone, -, hsame⟩ | ⟨w, hw, -, hnew⟩ := hsave
    · rw [hnone, Option.elim_none] at hfile
      rw [hsame, hfile]
      exact h.below
    · rw [hw, Option.elim_some] at hfile
      rw [hnew, hfile]
      intro n hn
      refine ⟨w.info, rfl, ?_⟩
      obtain hn | hn := List.mem_append.mp hn
      · obtain ⟨f, hf, hle⟩ := h.below n hn
        exact hle.trans (h.le_saved hup hcounts (State.saved_spec hw) hw hf)
      · exact (List.mem_singleton.mp hn).le

theorem Traced.counted_new (logPath : Str) : (Traced.new logPath).Counted where
  consistent := ⟨fun _ h => (by cases h), fun _ h => (by cases h)⟩
  last _ _ h := by cases h
  sorted := .nil
  below _ h := by cases h
  live _ h := by cases h
  alone _ _ _ _ h := by cases h
  bound _ h := by cases h
  fresh _ _ h := by cases h

/-- What the instances in the file need. -/
structure State.Instances (s : State) : Prop where
  inv : s.Inv
  last : s.Last
  waiting : s.Waiting

theorem State.instances_new (logPath : Str) : (State.new logPath).Instances where
  inv := State.inv_new logPath
  last _ _ h := by cases h
  waiting _ h := by cases h

theorem State.Instances.step (h : s.Instances) (hup : s.UpToDate op) (halone : s.Alone op) (hclean : s.Clean op)
    (hstep : s.step op = some s') : s'.Instances where
  inv := h.inv.step hclean hstep
  last := h.last.step halone.1 (State.step_spec hstep)
  waiting := h.waiting.step h.last hup halone hstep

end ThreeVa.Cli
