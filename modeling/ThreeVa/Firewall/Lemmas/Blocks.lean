import ThreeVa.Lib.Runs
import ThreeVa.Firewall.Tasks

/-! The invariant of the blocklist under tasks that run at once. -/

namespace ThreeVa.Firewall
open Runs

/-! ## The log -/

/-- An entry for `ip` with expiry `e` was inserted, and neither `unblock_ip` nor a `block_ip` from outside came
after it. -/
def Standing (ip : IpAddr) (e : Instant) (log : List Record) : Prop :=
  ∃ later now outside replaced earlier, log = later ++ .inserted ip now e outside replaced :: earlier ∧
    ∀ r ∈ later, r.lifts ip = false

theorem standing_cons {ip : IpAddr} {e : Instant} {r : Record} {log : List Record} (h : Standing ip e (r :: log)) :
    (∃ now outside replaced, r = .inserted ip now e outside replaced) ∨ r.lifts ip = false ∧ Standing ip e log := by
  obtain ⟨later, now, outside, replaced, earlier, hlog, hlater⟩ := h
  cases later with
  | nil =>
      left
      exact ⟨now, outside, replaced, (List.cons.inj hlog).1⟩
  | cons r' later =>
      obtain ⟨rfl, hrest⟩ := List.cons.inj hlog
      right
      exact ⟨hlater r (by simp), later, now, outside, replaced, earlier, hrest, fun r' hr' => hlater r' (by simp [hr'])⟩

theorem untouched_cons {ip : IpAddr} {since : Nat} {r : Record} {log : List Record} (hsince : since ≤ log.length)
    (h : untouched ip since (r :: log) = true) : r.inserts ip = false ∧ untouched ip since log = true := by
  rw [untouched, List.length_cons, Nat.succ_sub hsince, List.take_succ_cons, List.all_cons, Bool.and_eq_true,
    Bool.not_eq_eq_eq_not, Bool.not_true] at h
  exact h

/-- Every check of `ip` while an entry stands was answered Blocked. -/
def Sticks (log : List Record) : Prop :=
  ∀ later ip now answer earlier e, log = later ++ .checked ip now answer :: earlier → Standing ip e earlier →
    now < e → ∃ reason remainingMs, answer = some (.blocked reason remainingMs)

theorem Sticks.cons {r : Record} {log : List Record} (h : Sticks log)
    (hr : ∀ ip now answer e, r = .checked ip now answer → Standing ip e log → now < e →
      ∃ reason remainingMs, answer = some (.blocked reason remainingMs)) : Sticks (r :: log) := by
  intro later ip now answer earlier e hlog hstands hnow
  cases later with
  | nil =>
      obtain ⟨rfl, rfl⟩ := List.cons.inj hlog
      exact hr ip now answer e rfl hstands hnow
  | cons r' later => exact h later ip now answer earlier e (List.cons.inj hlog).2 hstands hnow

/-- No auto-block replaced an unexpired entry by one that expires earlier. -/
def KeepsLonger (log : List Record) : Prop :=
  ∀ ip now e entry, .inserted ip now e false (some entry) ∈ log → now < entry.expires → entry.expires ≤ e

/-! ## The invariant -/

/-- A call that looked `ip` up found no unexpired entry, and there is none until one is inserted. -/
def Unblocked (s : Shared) (ip : IpAddr) (since : Nat) : Prop :=
  since ≤ s.log.length ∧
    (untouched ip since s.log = true → ∀ entry, s.fw.blocklist ip = some entry → entry.expires ≤ s.clock)

def TaskOk (s : Shared) : Task → Prop
  | .looked ip since | .refused ip since _ => Unblocked s ip since
  | .struck ip since _ => Unblocked s ip since ∧ s.fw.isTrustedProxy ip = false
  | .cleaning now => now ≤ s.clock
  | .cleaningBuckets | .cleaningStrikes | .done => True

structure Inv (config : FirewallConfig) (s : Shared) : Prop where
  sameConfig : s.fw.config = config
  proxies : ∀ ip, s.fw.isTrustedProxy ip = true → s.fw.blocklist ip ≠ none →
    ∃ now e replaced, .inserted ip now e true replaced ∈ s.log
  stands : ∀ ip e, Standing ip e s.log → s.clock < e →
    ∃ entry, s.fw.blocklist ip = some entry ∧ e ≤ entry.expires
  tasks : ∀ task ∈ s.tasks, TaskOk s task
  sticks : Sticks s.log
  longer : KeepsLonger s.log

theorem inv_new (config : FirewallConfig) : Inv config (Shared.new config) := by
  refine ⟨rfl, fun _ _ h => absurd rfl h, fun ip e h => ?_, by simp [Shared.new], fun later _ _ _ _ _ h => ?_,
    fun _ _ _ _ h => ?_⟩
  · obtain ⟨later, _, _, _, _, hlog, _⟩ := h
    simp [Shared.new] at hlog
  · simp [Shared.new] at h
  · simp [Shared.new] at h

theorem isTrustedProxy_of_config {fw fw' : Firewall} (h : fw'.config = fw.config) :
    fw'.isTrustedProxy = fw.isTrustedProxy := by
  funext ip
  simp only [isTrustedProxy, trustedRules, h]

section Preservation

variable {config : FirewallConfig} {s s' : Shared}

/-- What a task relies on survives if the log grows by records that do not concern it and the blocklist loses
entries. -/
theorem TaskOk.mono {task : Task} (h : TaskOk s task) (hconfig : s'.fw.config = s.fw.config)
    (hclock : s.clock ≤ s'.clock)
    (hunblocked : ∀ ip since, Unblocked s ip since → Unblocked s' ip since) : TaskOk s' task := by
  cases task with
  | looked ip since => exact hunblocked ip since h
  | refused ip since violations => exact hunblocked ip since h
  | struck ip since duration => exact ⟨hunblocked ip since h.1, isTrustedProxy_of_config hconfig ▸ h.2⟩
  | cleaning now => exact Nat.le_trans h hclock
  | cleaningBuckets => trivial
  | cleaningStrikes => trivial
  | done => trivial

/-- A step that leaves the log as it is: time passes, entries that have expired may go. -/
theorem Inv.quiet (h : Inv config s) (hconfig : s'.fw.config = s.fw.config) (hlog : s'.log = s.log)
    (hclock : s.clock ≤ s'.clock)
    (hfewer : ∀ ip entry, s'.fw.blocklist ip = some entry → s.fw.blocklist ip = some entry)
    (hkept : ∀ ip entry, s.fw.blocklist ip = some entry → s.clock < entry.expires →
      s'.fw.blocklist ip = some entry)
    (htasks : ∀ task ∈ s'.tasks, task ∈ s.tasks ∨ TaskOk s' task) : Inv config s' := by
  have hproxy := isTrustedProxy_of_config hconfig
  refine ⟨hconfig.trans h.sameConfig, fun ip hip hentry => ?_, fun ip e hstands he => ?_, fun task htask => ?_,
    hlog ▸ h.sticks, hlog ▸ h.longer⟩
  · rw [hlog]
    apply h.proxies ip (hproxy ▸ hip)
    obtain ⟨entry, hentry⟩ := Option.ne_none_iff_exists'.mp hentry
    simp [hfewer ip entry hentry]
  · obtain ⟨entry, hentry, hle⟩ := h.stands ip e (hlog ▸ hstands) (Nat.lt_of_le_of_lt hclock he)
    refine ⟨entry, hkept ip entry hentry ?_, hle⟩
    exact Nat.lt_of_le_of_lt hclock (Nat.lt_of_lt_of_le he hle)
  · rcases htasks task htask with hold | hnew
    · apply (h.tasks task hold).mono hconfig hclock fun ip since hun => ⟨hlog ▸ hun.1, fun hfree entry hentry => ?_⟩
      exact (hun.2 (hlog ▸ hfree) entry (hfewer ip entry hentry)).trans hclock
    · exact hnew

/-- The lookup of a check. -/
theorem Inv.record_checked (h : Inv config s) (ip : IpAddr) (answer : Option FirewallDecision)
    (hanswer : ∀ entry, s.fw.blocklist ip = some entry → s.clock < entry.expires →
      ∃ reason remainingMs, answer = some (.blocked reason remainingMs)) :
    Inv config (s.record (.checked ip s.clock answer)) := by
  refine ⟨h.sameConfig, fun other hother hentry => ?_, fun other e hstands he => ?_, fun task htask => ?_, ?_,
    fun other now e entry hmem => ?_⟩
  · obtain ⟨now, e, replaced, hmem⟩ := h.proxies other hother hentry
    exact ⟨now, e, replaced, List.mem_cons_of_mem _ hmem⟩
  · rcases standing_cons hstands with ⟨_, _, _, heq⟩ | ⟨-, hold⟩
    · cases heq
    · exact h.stands other e hold he
  · refine (h.tasks task htask).mono rfl (Nat.le_refl _) fun other since hun => ⟨?_, fun hfree => ?_⟩
    · exact Nat.le_succ_of_le hun.1
    · exact hun.2 (untouched_cons hun.1 hfree).2
  · apply h.sticks.cons
    intro other now answer' e heq hstands hnow
    cases heq
    obtain ⟨entry, hentry, hle⟩ := h.stands ip e hstands hnow
    exact hanswer entry hentry (Nat.lt_of_lt_of_le hnow hle)
  · rcases List.mem_cons.mp hmem with heq | hmem
    · cases heq
    · exact h.longer other now e entry hmem

/-- An insertion. An auto-block comes only for an address that is no trusted proxy and not blocked. -/
theorem Inv.insert (h : Inv config s) (ip : IpAddr) (duration : Nat) (reason : BlockReason) (outside : Bool)
    (hauto : outside = false → s.fw.isTrustedProxy ip = false ∧
      ∀ entry, s.fw.blocklist ip = some entry → entry.expires ≤ s.clock) :
    Inv config (s.insert ip duration reason outside) := by
  have hother : ∀ other, other ≠ ip →
      (s.insert ip duration reason outside).fw.blocklist other = s.fw.blocklist other :=
    fun other hne => Function.update_of_ne hne _ _
  have hself : (s.insert ip duration reason outside).fw.blocklist ip = some ⟨s.clock + duration, reason⟩ :=
    Function.update_self ip _ _
  refine ⟨h.sameConfig, fun a ha hentry => ?_, fun a e hstands he => ?_, fun task htask => ?_, ?_,
    fun a now e entry hmem hunexpired => ?_⟩
  · by_cases haip : a = ip
    · subst haip
      cases outside with
      | true => exact ⟨_, _, _, List.mem_cons_self⟩
      | false => exact absurd (show s.fw.isTrustedProxy a = true from ha) (by simp [(hauto rfl).1])
    · obtain ⟨now, e, replaced, hmem⟩ := h.proxies a ha (hother a haip ▸ hentry)
      exact ⟨now, e, replaced, List.mem_cons_of_mem _ hmem⟩
  · rcases standing_cons hstands with ⟨_, _, _, heq⟩ | ⟨hlifts, hold⟩
    · cases heq
      exact ⟨_, hself, Nat.le_refl _⟩
    · obtain ⟨entry, hentry, hle⟩ := h.stands a e hold he
      by_cases haip : a = ip
      · -- An earlier entry that still stood would be unexpired.
        subst haip
        have hauto' := (hauto (by simpa [Record.lifts] using hlifts)).2 entry hentry
        exact absurd (Nat.lt_of_lt_of_le he (hle.trans hauto')) (Nat.lt_irrefl _)
      · exact ⟨entry, (hother a haip).trans hentry, hle⟩
  · refine (h.tasks task htask).mono rfl (Nat.le_refl _) fun a since hun => ⟨?_, fun hfree entry hentry => ?_⟩
    · exact Nat.le_succ_of_le hun.1
    · obtain ⟨hinserts, hfree⟩ := untouched_cons hun.1 hfree
      have haip : a ≠ ip := fun heq => by simp [Record.inserts, heq] at hinserts
      exact hun.2 hfree entry (hother a haip ▸ hentry)
  · apply h.sticks.cons
    intro _ _ _ _ heq
    cases heq
  · rcases List.mem_cons.mp hmem with heq | hmem
    · injection heq with hip hnow he houtside hreplaced
      have := (hauto houtside.symm).2 entry (by rw [← hreplaced])
      exact absurd hunexpired (by rw [hnow]; exact Nat.not_lt.mpr this)
    · exact h.longer a now e entry hmem hunexpired

theorem Inv.unblockIp (h : Inv config s) (ip : IpAddr) :
    Inv config { s.record (.unblocked ip) with fw := s.fw.unblockIp ip } := by
  have hsub : ∀ a entry, (s.fw.unblockIp ip).blocklist a = some entry →
      a ≠ ip ∧ s.fw.blocklist a = some entry := by
    intro a entry hentry
    by_cases haip : a = ip
    · simp [Firewall.unblockIp, haip] at hentry
    · exact ⟨haip, by simpa [Firewall.unblockIp, Function.update_of_ne haip] using hentry⟩
  refine ⟨h.sameConfig, fun a ha hentry => ?_, fun a e hstands he => ?_, fun task htask => ?_, ?_,
    fun a now e entry hmem => ?_⟩
  · obtain ⟨entry, hentry⟩ := Option.ne_none_iff_exists'.mp hentry
    obtain ⟨now, e, replaced, hmem⟩ := h.proxies a ha (by simp [(hsub a entry hentry).2])
    exact ⟨now, e, replaced, List.mem_cons_of_mem _ hmem⟩
  · rcases standing_cons hstands with ⟨_, _, _, heq⟩ | ⟨hlifts, hold⟩
    · cases heq
    · obtain ⟨entry, hentry, hle⟩ := h.stands a e hold he
      have haip : a ≠ ip := fun heq => by simp [Record.lifts, heq] at hlifts
      exact ⟨entry, (Function.update_of_ne haip _ _).trans hentry, hle⟩
  · refine (h.tasks task htask).mono rfl (Nat.le_refl _) fun a since hun => ⟨?_, fun hfree entry hentry => ?_⟩
    · exact Nat.le_succ_of_le hun.1
    · exact hun.2 (untouched_cons hun.1 hfree).2 entry (hsub a entry hentry).2
  · apply h.sticks.cons
    intro _ _ _ _ heq
    cases heq
  · rcases List.mem_cons.mp hmem with heq | hmem
    · cases heq
    · exact h.longer a now e entry hmem

/-! ## Each step -/

theorem checkBlocklist_some {fw : Firewall} {ip : IpAddr} {now : Instant} {entry : BlockEntry}
    (hentry : fw.blocklist ip = some entry) (hnow : now < entry.expires) :
    ∃ reason remainingMs, fw.checkBlocklist ip now = some (.blocked reason remainingMs) := by
  simp [checkBlocklist, hentry, hnow]

theorem checkBlocklist_none {fw : Firewall} {ip : IpAddr} {now : Instant} (h : fw.checkBlocklist ip now = none)
    {entry : BlockEntry} (hentry : fw.blocklist ip = some entry) : entry.expires ≤ now := by
  by_contra hnow
  obtain ⟨reason, remainingMs, hblocked⟩ := checkBlocklist_some hentry (Nat.not_le.mp hnow)
  simp [hblocked] at h

theorem inv_checkRequest (h : Inv config s) (henabled : config.enabled = true) (ip : IpAddr)
    (hstep : step s (.checkRequest ip) = some s') : Inv config s' := by
  simp only [step, h.sameConfig, henabled, Bool.not_true, Bool.false_eq_true, ↓reduceIte] at hstep
  cases hblocked : s.fw.checkBlocklist ip s.clock with
  | some decision =>
      simp only [hblocked, Option.some.injEq] at hstep
      subst hstep
      apply h.record_checked
      intro entry hentry hnow
      obtain ⟨reason, remainingMs, heq⟩ := checkBlocklist_some hentry hnow
      exact ⟨reason, remainingMs, hblocked.symm.trans heq⟩
  | none =>
      simp only [hblocked, Option.some.injEq] at hstep
      subst hstep
      have hchecked := h.record_checked ip none fun entry hentry hnow =>
        absurd (checkBlocklist_none hblocked hentry) (Nat.not_le.mpr hnow)
      refine hchecked.quiet rfl rfl (Nat.le_refl _) (fun _ _ hentry => hentry) (fun _ _ hentry _ => hentry)
        fun task htask => ?_
      rcases List.mem_append.mp htask with hold | hnew
      · exact .inl hold
      · rw [List.mem_singleton.mp hnew]
        exact .inr ⟨Nat.le_refl _, fun _ entry hentry => checkBlocklist_none hblocked hentry⟩

/-- A step of a task that leaves the blocklist and the log alone. -/
theorem Inv.move (h : Inv config s) (i : Nat) (task : Task) (fw : Firewall) (htask : TaskOk s task)
    (hconfig : fw.config = s.fw.config) (hblocklist : fw.blocklist = s.fw.blocklist) :
    Inv config ⟨fw, s.clock, s.tasks.set i task, s.log⟩ := by
  have hsame : ∀ ip entry, fw.blocklist ip = some entry ↔ s.fw.blocklist ip = some entry :=
    fun ip entry => by rw [hblocklist]
  refine h.quiet hconfig rfl (Nat.le_refl _) (fun ip entry => (hsame ip entry).mp)
    (fun ip entry hentry _ => (hsame ip entry).mpr hentry) fun other hother => ?_
  rcases List.mem_or_eq_of_mem_set hother with hold | rfl
  · exact .inl hold
  · refine .inr (htask.mono hconfig (Nat.le_refl _) fun ip since hun => ⟨hun.1, fun hfree entry hentry => ?_⟩)
    exact hun.2 hfree entry ((hsame ip entry).mp hentry)

theorem inv_taskStep (h : Inv config s) {i : Nat} {task : Task} (hi : s.tasks[i]? = some task) {e : Event}
    (hovertaken : notOvertaken s e = true) (he : e.task = some i) (hstep : taskStep s i task e = some s') :
    Inv config s' := by
  have hok := h.tasks task (List.mem_of_getElem? hi)
  cases e with
  | takeToken j =>
      cases task with
      | looked ip since =>
          simp only [taskStep, Option.some.injEq] at hstep
          subst hstep
          apply h.move i _ (s.fw.takeToken ip s.clock).2.2 ?_ rfl rfl
          split
          · trivial
          · exact hok
      | _ => simp [taskStep] at hstep
  | settle j =>
      cases task with
      | refused ip since violations =>
          simp only [taskStep] at hstep
          split at hstep
          · cases hstep
            exact h.move i .done s.fw trivial rfl rfl
          · rename_i hproxy
            split at hstep
            · cases hstep
              exact h.move i (.struck ip since (s.fw.strike ip s.clock).1) (s.fw.strike ip s.clock).2
                ⟨hok, by simpa using hproxy⟩ rfl rfl
            · cases hstep
              exact h.move i .done s.fw trivial rfl rfl
      | _ => simp [taskStep] at hstep
  | autoBlock j =>
      cases he
      cases task with
      | struck ip since durationSecs =>
          simp only [taskStep, Option.some.injEq] at hstep
          subst hstep
          have hmoved : Inv config (s.setTask i .done) := h.move i .done s.fw trivial rfl rfl
          apply hmoved.insert
          intro _
          simp only [notOvertaken, hi] at hovertaken
          exact ⟨hok.2, hok.1.2 hovertaken⟩
      | _ => simp [taskStep] at hstep
  | clean j =>
      cases task with
      | cleaning now =>
          simp only [taskStep, Option.some.injEq] at hstep
          subst hstep
          refine h.quiet rfl rfl (Nat.le_refl _) ?_ ?_ ?_
          · intro ip entry hentry
            exact (Option.filter_eq_some_iff.mp hentry).1
          · intro ip entry hentry hunexpired
            apply Option.filter_eq_some_iff.mpr
            exact ⟨hentry, by simpa using Nat.lt_of_le_of_lt hok hunexpired⟩
          · intro other hother
            rcases List.mem_or_eq_of_mem_set hother with hold | rfl
            · exact .inl hold
            · exact .inr trivial
      | cleaningBuckets =>
          simp only [taskStep, Option.some.injEq] at hstep
          subst hstep
          exact h.move i .cleaningStrikes (s.fw.cleanBuckets s.clock) trivial rfl rfl
      | cleaningStrikes =>
          simp only [taskStep, Option.some.injEq] at hstep
          subst hstep
          exact h.move i .done (s.fw.cleanStrikes s.clock) trivial rfl rfl
      | _ => simp [taskStep] at hstep
  | _ => simp [Event.task] at he

/-- The event of a task is a step of that task. -/
theorem step_task {e : Event} {i : Nat} (he : e.task = some i) (hstep : step s e = some s') :
    ∃ task, s.tasks[i]? = some task ∧ taskStep s i task e = some s' := by
  unfold step at hstep
  split at hstep
  case h_8 =>
    simp only [he] at hstep
    split at hstep
    · exact ⟨_, ‹_›, hstep⟩
    · cases hstep
  all_goals cases he

end Preservation

theorem step_inv {config : FirewallConfig} (henabled : config.enabled = true) (s : Shared) (e : Event) (s' : Shared)
    (h : Inv config s) (hovertaken : notOvertaken s e = true) (hstep : step s e = some s') : Inv config s' := by
  have hen : s.fw.config.enabled = true := h.sameConfig ▸ henabled
  have hquiet : ∀ t : Shared, t.fw = s.fw → t.log = s.log → s.clock ≤ t.clock →
      (∀ task ∈ t.tasks, task ∈ s.tasks ∨ TaskOk t task) → Inv config t := by
    intro t hfw hlog hclock htasks
    exact h.quiet (congrArg Firewall.config hfw) hlog hclock (fun ip entry hentry => hfw ▸ hentry)
      (fun ip entry hentry _ => hfw ▸ hentry) htasks
  cases e with
  | tick elapsed =>
      cases hstep
      exact hquiet _ rfl rfl (Nat.le_add_right _ _) fun _ htask => .inl htask
  | checkConnection ip =>
      cases hstep
      apply h.record_checked
      intro entry hentry hnow
      obtain ⟨reason, remainingMs, heq⟩ := checkBlocklist_some hentry hnow
      exact ⟨reason, remainingMs, by simp [checkConnection, hen, heq]⟩
  | checkConnectionBehindProxy ip =>
      cases hstep
      apply h.record_checked
      intro entry hentry hnow
      obtain ⟨reason, remainingMs, heq⟩ := checkBlocklist_some hentry hnow
      exact ⟨reason, remainingMs, by simp [checkConnectionBehindProxy, hen, heq]⟩
  | checkRequest ip => exact inv_checkRequest h henabled ip hstep
  | blockIp ip duration reason =>
      cases hstep
      exact h.insert ip duration reason true (by simp)
  | unblockIp ip =>
      cases hstep
      exact h.unblockIp ip
  | cleanup =>
      cases hstep
      refine hquiet _ rfl rfl (Nat.le_refl _) fun task htask => ?_
      rcases List.mem_append.mp htask with hold | hnew
      · exact .inl hold
      · rw [List.mem_singleton.mp hnew]
        exact .inr (Nat.le_refl _)
  | takeToken i =>
      obtain ⟨task, hi, hstep⟩ := step_task rfl hstep
      exact inv_taskStep h hi hovertaken rfl hstep
  | settle i =>
      obtain ⟨task, hi, hstep⟩ := step_task rfl hstep
      exact inv_taskStep h hi hovertaken rfl hstep
  | autoBlock i =>
      obtain ⟨task, hi, hstep⟩ := step_task rfl hstep
      exact inv_taskStep h hi hovertaken rfl hstep
  | clean i =>
      obtain ⟨task, hi, hstep⟩ := step_task rfl hstep
      exact inv_taskStep h hi hovertaken rfl hstep

/-! ## A call on its own -/

/-- Without other tasks in between, the steps of `check_request` do to the firewall what the call does at once. -/
theorem checkRequest_uninterrupted (s : Shared) (ip : IpAddr) :
    ∃ es, (∀ e ∈ es, e.task = some s.tasks.length) ∧
      (exec step s (.checkRequest ip :: es)).map (·.fw) = some (s.fw.checkRequest ip s.clock).2 := by
  cases henabled : s.fw.config.enabled with
  | false => exact ⟨[], by simp, by simp [exec, step, henabled, checkRequest, Shared.record]⟩
  | true =>
      cases hblocked : s.fw.checkBlocklist ip s.clock with
      | some decision =>
          exact ⟨[], by simp, by simp [exec, step, henabled, hblocked, checkRequest, Shared.record]⟩
      | none =>
          generalize htoken : s.fw.takeToken ip s.clock = token
          obtain ⟨ok, violations, fw⟩ := token
          have hconfig : fw.config = s.fw.config := (congrArg (·.2.2.config) htoken).symm
          have hproxies := isTrustedProxy_of_config hconfig
          cases ok with
          | true =>
              refine ⟨[.takeToken s.tasks.length], by simp [Event.task], ?_⟩
              simp [exec, step, henabled, hblocked, Event.task, taskStep, Shared.record, htoken, checkRequest]
          | false =>
              by_cases hblocks : s.fw.isTrustedProxy ip = false ∧ s.fw.config.autoBlockThreshold ≤ violations
              · refine ⟨[.takeToken s.tasks.length, .settle s.tasks.length, .autoBlock s.tasks.length],
                  by simp [Event.task], ?_⟩
                simp [exec, step, henabled, hblocked, Event.task, taskStep, Shared.record, Shared.setTask, htoken,
                  checkRequest, hproxies, hconfig, hblocks.1, hblocks.2, recordAutoBlock_eq, Shared.insert]
              · refine ⟨[.takeToken s.tasks.length, .settle s.tasks.length], by simp [Event.task], ?_⟩
                cases hproxy : s.fw.isTrustedProxy ip with
                | true =>
                    simp [exec, step, henabled, hblocked, Event.task, taskStep, Shared.record, Shared.setTask, htoken,
                      checkRequest, hproxies, hproxy]
                | false =>
                    have hbelow : ¬ s.fw.config.autoBlockThreshold ≤ violations := fun h => hblocks ⟨hproxy, h⟩
                    simp [exec, step, henabled, hblocked, Event.task, taskStep, Shared.record, Shared.setTask, htoken,
                      checkRequest, hproxies, hproxy, hconfig, hbelow]

end ThreeVa.Firewall
