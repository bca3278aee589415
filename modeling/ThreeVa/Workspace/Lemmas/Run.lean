import ThreeVa.Workspace.Graph
import ThreeVa.Workspace.Run

/-! Runs of a script: what every task keeps, that every iteration gets on, and which packages run in the end. -/

namespace ThreeVa.Workspace
open Text

namespace RunState

/-- It was reported to have failed. -/
def Failed (s : RunState) (name : Str) : Prop := ∃ message, (name, .failed message) ∈ s.results

@[simp] theorem results_report (s : RunState) (name : Str) (status : RunStatus) :
    (s.report name status).results = s.results ++ [(name, status)] := by
  simp [results, report]

theorem failed_report {s : RunState} {name n : Str} {status : RunStatus} :
    (s.report name status).Failed n ↔ s.Failed n ∨ n = name ∧ ∃ message, status = .failed message := by
  simp only [Failed, results_report, List.mem_append, List.mem_singleton, Prod.mk.injEq, exists_or, exists_and_left]
  simp only [eq_comm]

theorem failed_report_skipped {s : RunState} {name n : Str} : (s.report name .skipped).Failed n ↔ s.Failed n := by
  simp [failed_report]

theorem mem_remaining_report {s : RunState} {name n : Str} {status : RunStatus} :
    n ∈ (s.report name status).remaining ↔ n ∈ s.remaining ∧ n ≠ name := by
  simp [report]

end RunState

open RunState

namespace WorkspaceGraph

variable {g : WorkspaceGraph} {input : RunInput} {order : List Str} {s : RunState} {tasks : List Str}

/-- The packages whose results a log has. -/
def reported (log : List RunEvent) : List Str :=
  log.filterMap fun
    | .started _ => none
    | .result name _ => some name

/-- What a script ends with. -/
def endStatus (input : RunInput) (name : Str) : RunStatus := (input.outcome name).elim .success .failed

/-! ## Invariant -/

/-- A package starts after the results of those it depends on. -/
def StartsAfter (g : WorkspaceGraph) (log : List RunEvent) : Prop :=
  ∀ l₁ p l₂, log = l₁ ++ .started p :: l₂ → ∀ d ∈ g.deps p, d ∈ reported l₁

theorem StartsAfter.append {log : List RunEvent} (h : StartsAfter g log) {e : RunEvent}
    (he : ∀ p, e = .started p → ∀ d ∈ g.deps p, d ∈ reported log) : StartsAfter g (log ++ [e]) := by
  intro l₁ p l₂ heq d hd
  rcases List.eq_nil_or_concat l₂ with rfl | ⟨l₂, e', rfl⟩
  · obtain ⟨rfl, hp⟩ := List.append_inj' heq rfl
    obtain rfl : e = .started p := by simpa using hp
    exact he p rfl d hd
  · rw [List.concat_eq_append, ← List.cons_append, ← List.append_assoc] at heq
    obtain ⟨rfl, -⟩ := List.append_inj' heq rfl
    exact h l₁ p l₂ rfl d hd

variable (g input order) in
/-- During a run over `order`, while `tasks` are running. -/
structure RunInv (s : RunState) (tasks : List Str) : Prop where
  nodup : order.Nodup
  completed : s.completed = s.results.map Prod.fst
  perm : (s.completed ++ s.remaining).Perm order
  tasks_nodup : tasks.Nodup
  running : ∀ t ∈ tasks, t ∈ s.remaining ∧ .started t ∈ s.log
  started : ∀ p, .started p ∈ s.log → g.Selected input p ∧ (∀ d ∈ g.deps p, d ∈ s.completed ∧ ¬ s.Failed d) ∧
    (p ∈ tasks ∨ (p ∈ s.completed ∧ (p, .skipped) ∉ s.results))
  skipped : ∀ p, (p, .skipped) ∈ s.results → ¬ g.Selected input p ∨ ∃ d ∈ g.deps p, s.Failed d
  ran : ∀ p status, (p, status) ∈ s.results → status ≠ .skipped → .started p ∈ s.log ∧ status = endStatus input p
  after : StartsAfter g s.log

/-- What depends on a failed package is done. -/
def SkipsClosed (g : WorkspaceGraph) (s : RunState) : Prop := ∀ p ∈ s.remaining, ∀ d ∈ g.deps p, ¬ s.Failed d

theorem reported_log (s : RunState) : reported s.log = s.results.map Prod.fst := by
  unfold reported results
  rw [List.map_filterMap]
  congr 1
  funext e
  cases e <;> rfl

theorem runInv_start {order : List Str} (h : order.Nodup) :
    g.RunInv input order { remaining := order, completed := [], log := [] } [] := by
  constructor <;> simp [results, StartsAfter, h]

theorem RunInv.distinct (h : g.RunInv input order s tasks) : (s.completed ++ s.remaining).Nodup :=
  h.perm.nodup_iff.mpr h.nodup

theorem RunInv.not_completed (h : g.RunInv input order s tasks) {n : Str} (hn : n ∈ s.remaining) : n ∉ s.completed :=
  fun hmem => List.disjoint_of_nodup_append h.distinct hmem hn

theorem RunInv.not_reported (h : g.RunInv input order s tasks) {n : Str} (hn : n ∈ s.remaining) (status : RunStatus) :
    (n, status) ∉ s.results := by
  intro hmem
  apply h.not_completed hn
  rw [h.completed]
  exact List.mem_map_of_mem hmem

theorem RunInv.member (h : g.RunInv input order s tasks) {n : Str} (hn : n ∈ s.remaining) : n ∈ order :=
  h.perm.mem_iff.mp (List.mem_append_right _ hn)

/-! ## Results -/

theorem perm_report {n : Str} {status : RunStatus} (hdistinct : s.remaining.Nodup) (hn : n ∈ s.remaining) :
    ((s.report n status).completed ++ (s.report n status).remaining).Perm (s.completed ++ s.remaining) := by
  have herase : s.remaining.filter (· ≠ n) = s.remaining.erase n := by
    rw [hdistinct.erase_eq_filter]
    congr 1
    funext m
    by_cases hm : m = n <;> simp [hm]
  unfold RunState.report
  rw [herase, List.append_assoc]
  exact (List.perm_cons_erase hn).symm.append_left _

/-- A package is reported that was skipped, or was running. -/
theorem RunInv.report (h : g.RunInv input order s tasks) {n : Str} (hn : n ∈ s.remaining) {status : RunStatus}
    {tasks' : List Str} (hnodup : tasks'.Nodup) (htasks : ∀ t, t ∈ tasks' ↔ t ∈ tasks ∧ t ≠ n)
    (hskip : status = .skipped → n ∉ tasks ∧ (¬ g.Selected input n ∨ ∃ d ∈ g.deps n, s.Failed d))
    (hran : status ≠ .skipped → n ∈ tasks ∧ status = endStatus input n) :
    g.RunInv input order (s.report n status) tasks' := by
  have hstarted : ∀ p, .started p ∈ (s.report n status).log ↔ .started p ∈ s.log := by simp [RunState.report]
  refine ⟨h.nodup, ?_, ?_, hnodup, ?_, ?_, ?_, ?_, ?_⟩
  · rw [results_report, List.map_append, ← h.completed]
    rfl
  · exact (perm_report (List.nodup_append.mp h.distinct).2.1 hn).trans h.perm
  · intro t ht
    obtain ⟨ht, hne⟩ := (htasks t).mp ht
    rw [mem_remaining_report, hstarted]
    exact ⟨⟨(h.running t ht).1, hne⟩, (h.running t ht).2⟩
  · intro p hp
    rw [hstarted] at hp
    obtain ⟨hselected, hdeps, hend⟩ := h.started p hp
    refine ⟨hselected, fun d hd => ?_, ?_⟩
    · refine ⟨List.mem_append_left _ (hdeps d hd).1, ?_⟩
      rw [failed_report]
      rintro (hfailed | ⟨rfl, -⟩)
      · exact (hdeps d hd).2 hfailed
      · exact h.not_completed hn (hdeps d hd).1
    · by_cases hp' : p = n
      · subst hp'
        have hrun : p ∈ tasks := hend.resolve_right fun hdone => h.not_completed hn hdone.1
        refine .inr ⟨by simp [RunState.report], ?_⟩
        rw [results_report, List.mem_append, List.mem_singleton]
        rintro (hmem | heq)
        · exact h.not_reported hn _ hmem
        · exact (hskip (Prod.mk.inj heq).2.symm).1 hrun
      · rcases hend with hmem | ⟨hdone, hnot⟩
        · exact .inl ((htasks p).mpr ⟨hmem, hp'⟩)
        · refine .inr ⟨List.mem_append_left _ hdone, ?_⟩
          rw [results_report]
          simp [hnot, hp']
  · intro p hp
    rw [results_report, List.mem_append, List.mem_singleton, Prod.mk.injEq] at hp
    have hcause : ¬ g.Selected input p ∨ ∃ d ∈ g.deps p, s.Failed d := by
      rcases hp with hp | ⟨rfl, hstatus⟩
      · exact h.skipped p hp
      · exact (hskip hstatus.symm).2
    exact hcause.imp_right fun ⟨d, hd, hfailed⟩ => ⟨d, hd, failed_report.mpr (.inl hfailed)⟩
  · intro p st hp hne
    rw [hstarted]
    rw [results_report, List.mem_append, List.mem_singleton, Prod.mk.injEq] at hp
    rcases hp with hp | ⟨rfl, rfl⟩
    · exact h.ran p st hp hne
    · exact ⟨(h.running p (hran hne).1).2, (hran hne).2⟩
  · exact h.after.append (by simp)

theorem RunInv.report_skipped (h : g.RunInv input order s tasks) {n : Str} (hn : n ∈ s.remaining) (hnot : n ∉ tasks)
    (hcause : ¬ g.Selected input n ∨ ∃ d ∈ g.deps n, s.Failed d) :
    g.RunInv input order (s.report n .skipped) tasks := by
  apply h.report hn h.tasks_nodup ?_ (fun _ => ⟨hnot, hcause⟩) (by simp)
  intro t
  refine ⟨fun ht => ⟨ht, fun heq => hnot (heq ▸ ht)⟩, And.left⟩

theorem RunInv.report_ended {t : Str} (h : g.RunInv input order s (t :: tasks)) :
    g.RunInv input order (s.report t (endStatus input t)) tasks := by
  have hnodup := List.nodup_cons.mp h.tasks_nodup
  refine h.report (h.running t List.mem_cons_self).1 hnodup.2 ?_ ?_ fun _ => ⟨List.mem_cons_self, rfl⟩
  · intro x
    rw [List.mem_cons]
    constructor
    · exact fun hx => ⟨.inr hx, fun heq => hnodup.1 (heq ▸ hx)⟩
    · rintro ⟨rfl | hx, hne⟩
      · exact absurd rfl hne
      · exact hx
  · unfold endStatus
    cases input.outcome t <;> simp

/-! ## Tasks -/

/-- A package whose dependencies have results starts. -/
theorem RunInv.start (h : g.RunInv input order s tasks) (hclosed : SkipsClosed g s) {n : Str} (hn : n ∈ s.remaining)
    (hnot : n ∉ tasks) (hselected : g.Selected input n) (hdeps : ∀ d ∈ g.deps n, d ∈ s.completed) :
    g.RunInv input order { s with log := s.log ++ [.started n] } (tasks ++ [n]) := by
  have hresults : RunState.results { s with log := s.log ++ [.started n] } = s.results := by simp [results]
  refine ⟨h.nodup, ?_, h.perm, ?_, ?_, ?_, ?_, ?_, ?_⟩
  · rw [hresults]
    exact h.completed
  · rw [List.nodup_append]
    refine ⟨h.tasks_nodup, List.nodup_singleton n, fun a ha b hb => ?_⟩
    rw [List.mem_singleton] at hb
    exact fun heq => hnot (hb ▸ heq ▸ ha)
  · intro t ht
    rcases List.mem_append.mp ht with ht | ht
    · exact ⟨(h.running t ht).1, List.mem_append_left _ (h.running t ht).2⟩
    · rw [List.mem_singleton] at ht
      exact ⟨ht ▸ hn, by simp [ht]⟩
  · intro p hp
    simp only [RunState.Failed, hresults]
    rw [List.mem_append, List.mem_singleton, RunEvent.started.injEq] at hp
    rcases hp with hp | rfl
    · obtain ⟨hsel, hd, hend⟩ := h.started p hp
      exact ⟨hsel, hd, hend.imp_left (List.mem_append_left _)⟩
    · exact ⟨hselected, fun d hd => ⟨hdeps d hd, hclosed p hn d hd⟩, .inl (by simp)⟩
  · simp only [RunState.Failed, hresults]
    exact h.skipped
  · intro p status hp hne
    rw [hresults] at hp
    exact ⟨List.mem_append_left _ (h.ran p status hp hne).1, (h.ran p status hp hne).2⟩
  · apply h.after.append
    rintro p hp d hd
    obtain rfl := RunEvent.started.inj hp
    rw [reported_log, ← h.completed]
    exact hdeps d hd

theorem launch_cases (g : WorkspaceGraph) (input : RunInput) (s : RunState) (tasks : List Str) (n : Str) :
    (¬ g.Selected input n ∧ g.launch input (s, tasks) n = (s.report n .skipped, tasks)) ∨
      (g.Selected input n ∧ g.launch input (s, tasks) n = ({ s with log := s.log ++ [.started n] }, tasks ++ [n])) := by
  unfold WorkspaceGraph.launch WorkspaceGraph.Selected
  by_cases haffected : isAffected input n
  · by_cases hscript : g.hasScript input n
    · exact .inr ⟨⟨haffected, hscript⟩, by simp [haffected, hscript]⟩
    · exact .inl ⟨fun hsel => hscript hsel.2, by simp [haffected, hscript]⟩
  · exact .inl ⟨fun hsel => haffected hsel.1, by simp [haffected]⟩

/-- Results and starts stay. -/
def Later (s s' : RunState) : Prop := s.completed ⊆ s'.completed ∧ s.log ⊆ s'.log

theorem Later.refl (s : RunState) : Later s s := ⟨List.Subset.refl _, List.Subset.refl _⟩

theorem Later.trans {s s' s'' : RunState} (h : Later s s') (h' : Later s' s'') : Later s s'' :=
  ⟨List.Subset.trans h.1 h'.1, List.Subset.trans h.2 h'.2⟩

theorem later_report (s : RunState) (n : Str) (status : RunStatus) : Later s (s.report n status) :=
  ⟨List.subset_append_left _ _, List.subset_append_left _ _⟩

/-- It has a result or is running. -/
def Touched (s : RunState) (n : Str) : Prop := n ∈ s.completed ∨ .started n ∈ s.log

theorem Touched.later {s s' : RunState} {n : Str} (h : Touched s n) (hlater : Later s s') : Touched s' n :=
  h.imp (@hlater.1 n) (@hlater.2 _)

theorem SkipsClosed.report {n : Str} {status : RunStatus} (h : SkipsClosed g s)
    (hfailed : ∀ m, status = .failed m → ∀ p ∈ s.remaining, p ≠ n → n ∉ g.deps p) :
    SkipsClosed g (s.report n status) := by
  intro p hp d hd
  rw [mem_remaining_report] at hp
  rw [failed_report]
  rintro (hold | ⟨rfl, m, hm⟩)
  · exact h p hp.1 d hd hold
  · exact hfailed m hm p hp.1 hp.2 hd

/-- Launching a batch. -/
theorem RunInv.launchAll {l : List Str} (hl : l.Nodup) (h : g.RunInv input order s tasks) (hclosed : SkipsClosed g s)
    (hready : ∀ n ∈ l, n ∈ s.remaining ∧ n ∉ tasks ∧ ∀ d ∈ g.deps n, d ∈ s.completed) :
    g.RunInv input order (l.foldl (g.launch input) (s, tasks)).1 (l.foldl (g.launch input) (s, tasks)).2 ∧
      SkipsClosed g (l.foldl (g.launch input) (s, tasks)).1 ∧ Later s (l.foldl (g.launch input) (s, tasks)).1 ∧
      ∀ n ∈ l, Touched (l.foldl (g.launch input) (s, tasks)).1 n := by
  induction l generalizing s tasks with
  | nil => exact ⟨h, hclosed, Later.refl s, by simp⟩
  | cons n l ih =>
      rw [List.nodup_cons] at hl
      obtain ⟨hn, hnot, hdeps⟩ := hready n List.mem_cons_self
      have hne : ∀ m ∈ l, m ≠ n := fun m hm heq => hl.1 (heq ▸ hm)
      rw [List.foldl_cons]
      rcases launch_cases g input s tasks n with ⟨hsel, heq⟩ | ⟨hsel, heq⟩
      · rw [heq]
        obtain ⟨hinv, hclosed', hlater, htouched⟩ := ih hl.2 (h.report_skipped hn hnot (.inl hsel))
          (hclosed.report (by simp)) (by
            intro m hm
            obtain ⟨hm₁, hm₂, hm₃⟩ := hready m (List.mem_cons_of_mem _ hm)
            exact ⟨mem_remaining_report.mpr ⟨hm₁, hne m hm⟩, hm₂, fun d hd => List.mem_append_left _ (hm₃ d hd)⟩)
        refine ⟨hinv, hclosed', (later_report s n _).trans hlater, ?_⟩
        intro m hm
        rcases List.mem_cons.mp hm with rfl | hm
        · have hdone : Touched (s.report m .skipped) m := .inl (by simp [RunState.report])
          exact hdone.later hlater
        · exact htouched m hm
      · rw [heq]
        have hlater₁ : Later s { s with log := s.log ++ [.started n] } :=
          ⟨List.Subset.refl _, List.subset_append_left _ _⟩
        have hclosed₁ : SkipsClosed g { s with log := s.log ++ [.started n] } := by
          simpa [SkipsClosed, RunState.Failed, results] using hclosed
        obtain ⟨hinv, hclosed', hlater, htouched⟩ := ih hl.2 (h.start hclosed hn hnot hsel hdeps) hclosed₁ (by
          intro m hm
          obtain ⟨hm₁, hm₂, hm₃⟩ := hready m (List.mem_cons_of_mem _ hm)
          exact ⟨hm₁, by simp [hm₂, hne m hm], hm₃⟩)
        refine ⟨hinv, hclosed', hlater₁.trans hlater, ?_⟩
        intro m hm
        rcases List.mem_cons.mp hm with rfl | hm
        · have hstarted : Touched { s with log := s.log ++ [.started m] } m := .inr (by simp)
          exact hstarted.later hlater
        · exact htouched m hm

/-- The packages below a failure are skipped. -/
theorem RunInv.skipAll {l : List Str} (hl : l.Nodup) (h : g.RunInv input order s tasks)
    (hdoomed : ∀ n ∈ l, n ∈ s.remaining ∧ n ∉ tasks ∧ ∃ d ∈ g.deps n, s.Failed d) :
    g.RunInv input order (l.foldl (fun s n => s.report n .skipped) s) tasks ∧
      Later s (l.foldl (fun s n => s.report n .skipped) s) ∧
      (∀ d, (l.foldl (fun s n => s.report n .skipped) s).Failed d ↔ s.Failed d) ∧
      ∀ n, n ∈ (l.foldl (fun s n => s.report n .skipped) s).remaining ↔ n ∈ s.remaining ∧ n ∉ l := by
  induction l generalizing s with
  | nil => exact ⟨h, Later.refl s, by simp, by simp⟩
  | cons n l ih =>
      rw [List.nodup_cons] at hl
      obtain ⟨hn, hnot, hcause⟩ := hdoomed n List.mem_cons_self
      rw [List.foldl_cons]
      obtain ⟨hinv, hlater, hfailed, hremaining⟩ := ih hl.2 (h.report_skipped hn hnot (.inr hcause)) (by
        intro m hm
        obtain ⟨hm₁, hm₂, d, hd, hfailed⟩ := hdoomed m (List.mem_cons_of_mem _ hm)
        have hne : m ≠ n := fun heq => hl.1 (heq ▸ hm)
        exact ⟨mem_remaining_report.mpr ⟨hm₁, hne⟩, hm₂, d, hd, failed_report_skipped.mpr hfailed⟩)
      refine ⟨hinv, (later_report s n _).trans hlater, fun d => (hfailed d).trans failed_report_skipped, fun m => ?_⟩
      rw [hremaining, mem_remaining_report, List.mem_cons, not_or, and_assoc]

/-- The end of a task, with what its failure skips. -/
theorem RunInv.await {t : Str} (h : g.RunInv input order s (t :: tasks)) (hclosed : SkipsClosed g s) :
    g.RunInv input order (g.await input s t) tasks ∧ SkipsClosed g (g.await input s t) ∧
      Later s (g.await input s t) := by
  have hended := h.report_ended
  have ht := (h.running t List.mem_cons_self).1
  unfold endStatus at hended
  unfold WorkspaceGraph.await
  cases houtcome : input.outcome t with
  | none =>
      rw [houtcome] at hended
      exact ⟨hended, hclosed.report (by simp), later_report s t _⟩
  | some message =>
      rw [houtcome] at hended
      simp only [Option.elim_some] at hended
      have hdistinct : (g.toSkip (s.report t (.failed message)) t).Nodup := by
        apply List.Nodup.filter
        exact (List.nodup_append.mp hended.distinct).2.1
      have hmem : ∀ n, n ∈ g.toSkip (s.report t (.failed message)) t ↔
          (n ∈ s.remaining ∧ n ≠ t) ∧ t ∈ g.deps n := by
        intro n
        rw [toSkip, List.mem_filter, mem_remaining_report, decide_eq_true_eq]
      obtain ⟨hinv, hlater, hfailed, hremaining⟩ := hended.skipAll hdistinct (by
        intro n hn
        obtain ⟨hn₁, hn₂⟩ := (hmem n).mp hn
        refine ⟨mem_remaining_report.mpr hn₁, fun htask => ?_, t, hn₂, failed_report.mpr (.inr ⟨rfl, message, rfl⟩)⟩
        -- a running package has the results of all it depends on
        have hrun := (h.running n (List.mem_cons_of_mem _ htask)).2
        exact h.not_completed ht ((h.started n hrun).2.1 t hn₂).1)
      refine ⟨hinv, ?_, (later_report s t _).trans hlater⟩
      intro p hp d hd
      rw [hremaining, mem_remaining_report] at hp
      rw [hfailed, failed_report]
      rintro (hold | ⟨rfl, -⟩)
      · exact hclosed p hp.1.1 d hd hold
      · exact hp.2 ((hmem p).mpr ⟨hp.1, hd⟩)

theorem RunInv.awaitAll (h : g.RunInv input order s tasks) (hclosed : SkipsClosed g s) :
    g.RunInv input order (tasks.foldl (g.await input) s) [] ∧ SkipsClosed g (tasks.foldl (g.await input) s) ∧
      Later s (tasks.foldl (g.await input) s) := by
  induction tasks generalizing s with
  | nil => exact ⟨h, hclosed, Later.refl s⟩
  | cons t tasks ih =>
      obtain ⟨hinv, hclosed', hlater⟩ := h.await hclosed
      obtain ⟨hinv', hclosed'', hlater'⟩ := ih hinv hclosed'
      exact ⟨hinv', hclosed'', hlater.trans hlater'⟩

/-! ## Iterations -/

/-- As long as packages are left, one of them is ready. -/
theorem RunInv.exists_ready (hacyclic : Dag.Acyclic g.Edge) (horder : order.Perm g.names)
    (h : g.RunInv input order s tasks) (hleft : s.remaining ≠ []) :
    ∃ n, n ∈ g.batch input s := by
  obtain ⟨n, hn, hfree⟩ := hacyclic.exists_free hleft
  have hready : n ∈ s.remaining.filter fun n => (g.deps n).all (· ∈ s.completed) := by
    rw [List.mem_filter, List.all_eq_true]
    refine ⟨hn, fun d hd => ?_⟩
    have hmember : d ∈ s.completed ++ s.remaining := h.perm.mem_iff.mpr (horder.mem_iff.mpr (Edge.member hd).2)
    have hdone : d ∈ s.completed := (List.mem_append.mp hmember).resolve_right fun hd' => hfree d hd' hd
    simpa using hdone
  unfold batch
  generalize s.remaining.filter (fun n => (g.deps n).all (· ∈ s.completed)) = ready at hready
  cases ready with
  | nil => cases hready
  | cons m ready =>
      obtain ⟨k, hk⟩ : ∃ k, max input.parallelism 1 = k + 1 := ⟨max input.parallelism 1 - 1, by omega⟩
      exact ⟨m, by simp [hk]⟩

theorem RunInv.runStep (h : g.RunInv input order s []) (hclosed : SkipsClosed g s) :
    g.RunInv input order (g.runStep input s) [] ∧ SkipsClosed g (g.runStep input s) ∧
      Later s (g.runStep input s) ∧ ∀ n ∈ g.batch input s, n ∈ (g.runStep input s).completed := by
  have hbatch : ∀ n ∈ g.batch input s, n ∈ s.remaining ∧ n ∉ ([] : List Str) ∧ ∀ d ∈ g.deps n, d ∈ s.completed := by
    intro n hn
    have hready := List.mem_filter.mp (List.mem_of_mem_take hn)
    exact ⟨hready.1, List.not_mem_nil, by simpa using hready.2⟩
  have hdistinct : (g.batch input s).Nodup :=
    ((List.nodup_append.mp h.distinct).2.1.filter _).sublist (List.take_sublist _ _)
  obtain ⟨hinv, hclosed₁, hlater, htouched⟩ := h.launchAll hdistinct hclosed hbatch
  obtain ⟨hinv', hclosed', hlater'⟩ := hinv.awaitAll hclosed₁
  refine ⟨hinv', hclosed', hlater.trans hlater', fun n hn => ?_⟩
  rcases (htouched n hn).later hlater' with hdone | hstarted
  · exact hdone
  · exact ((hinv'.started n hstarted).2.2.resolve_left List.not_mem_nil).1

theorem RunInv.progress (hacyclic : Dag.Acyclic g.Edge) (horder : order.Perm g.names) (h : g.RunInv input order s [])
    (hclosed : SkipsClosed g s) : (g.runStep input s).remaining.length ≤ s.remaining.length - 1 := by
  obtain ⟨hinv, -, hlater, hbatch⟩ := h.runStep hclosed
  have htotal : s.completed.length + s.remaining.length = order.length := by
    rw [← List.length_append, h.perm.length_eq]
  have htotal' : (g.runStep input s).completed.length + (g.runStep input s).remaining.length = order.length := by
    rw [← List.length_append, hinv.perm.length_eq]
  have hnodup := (List.nodup_append.mp h.distinct).1
  by_cases hleft : s.remaining = []
  · have hle := (List.subperm_of_subset hnodup hlater.1).length_le
    have hnone : s.remaining.length = 0 := by rw [hleft, List.length_nil]
    omega
  · obtain ⟨n, hn⟩ := h.exists_ready hacyclic horder hleft
    have hnot : n ∉ s.completed := h.not_completed (List.mem_filter.mp (List.mem_of_mem_take hn)).1
    have hsub : n :: s.completed ⊆ (g.runStep input s).completed := List.cons_subset.mpr ⟨hbatch n hn, hlater.1⟩
    have hle := (List.subperm_of_subset (List.nodup_cons.mpr ⟨hnot, hnodup⟩) hsub).length_le
    rw [List.length_cons] at hle
    omega

/-- After as many iterations as there are packages none is left. -/
theorem runOrder_done (input : RunInput) (hacyclic : Dag.Acyclic g.Edge) (horder : order.Perm g.names) (hnodup : order.Nodup) :
    g.RunInv input order (g.runOrder input order) [] ∧ SkipsClosed g (g.runOrder input order) ∧
      (g.runOrder input order).remaining = [] := by
  have hrun : ∀ k, g.RunInv input order ((g.runStep input)^[k] { remaining := order, completed := [], log := [] }) [] ∧
      SkipsClosed g ((g.runStep input)^[k] { remaining := order, completed := [], log := [] }) ∧
      ((g.runStep input)^[k] { remaining := order, completed := [], log := [] }).remaining.length ≤ order.length - k := by
    intro k
    induction k with
    | zero => exact ⟨runInv_start hnodup, by simp [SkipsClosed, RunState.Failed, results], Nat.le_refl _⟩
    | succ k ih =>
        rw [Function.iterate_succ_apply']
        obtain ⟨hinv, hclosed, hlength⟩ := ih
        have hless := hinv.progress hacyclic horder hclosed
        exact ⟨(hinv.runStep hclosed).1, (hinv.runStep hclosed).2.1, by omega⟩
  obtain ⟨hinv, hclosed, hlength⟩ := hrun order.length
  exact ⟨hinv, hclosed, List.length_eq_zero_iff.mp (by unfold runOrder; omega)⟩

/-! ## Failures -/

theorem Broken.member {name : Str} (h : g.Broken input name) : name ∈ g.names := by
  have hscript := h.1.2
  unfold hasScript at hscript
  cases hfind : g.packages.list.find? fun p => p.1 = name with
  | none => simp [hfind] at hscript
  | some p =>
      have hp : p.1 = name := by simpa using List.find?_some hfind
      exact hp ▸ List.mem_map_of_mem (List.mem_of_find?_eq_some hfind)

/-- A package fails if its script does and none of those it depends on directly has failed. Then failures reach whoever
depends on them exactly if they break directly. -/
theorem reaches_iff_breaksDirectly (hacyclic : Dag.Acyclic g.Edge) {failed : Str → Prop}
    (hfailed : ∀ n, failed n ↔ g.Broken input n ∧ ∀ d, g.Edge n d → ¬ failed d) :
    (∀ p q, Relation.TransGen g.Edge p q → failed q → g.Selected input p → ∃ d, g.Edge p d ∧ failed d) ↔
      g.BreaksDirectly input := by
  have hfirst : ∀ n, g.FirstBroken input n → failed n := fun n hn =>
    (hfailed n).mpr ⟨hn.1, fun d hd hd' => hn.2 d (.single hd) ((hfailed d).mp hd').1⟩
  have hbelow : ∀ {p q}, Relation.TransGen g.Edge p q → g.Broken input q →
      ∃ c, Relation.TransGen g.Edge p c ∧ g.FirstBroken input c := by
    intro p q hpq hq
    obtain ⟨c, hpc, hc, hnone⟩ := hacyclic.exists_first (fun _ => Broken.member) hpq hq
    exact ⟨c, hpc, hc, hnone⟩
  constructor
  · intro hreach p q hp hpq hq
    obtain ⟨c, hpc, hc⟩ := hbelow hpq hq
    obtain ⟨d, hpd, hd⟩ := hreach p c hpc (hfirst c hc) hp
    refine ⟨d, hpd, ((hfailed d).mp hd).1, fun e hde he => ?_⟩
    -- a broken package below `d` would have kept it from running
    obtain ⟨c', hdc', hc'⟩ := hbelow hde he
    obtain ⟨d', hdd', hd'⟩ := hreach d c' hdc' (hfirst c' hc') ((hfailed d).mp hd).1.1
    exact ((hfailed d).mp hd).2 d' hdd' hd'
  · intro hdirect p q hpq hq hp
    obtain ⟨d, hpd, hd⟩ := hdirect p q hp hpq ((hfailed q).mp hq).1
    exact ⟨d, hpd, hfirst d hd⟩

theorem RunInv.exists_result (h : g.RunInv input order s []) (hleft : s.remaining = []) {n : Str} (hn : n ∈ order) :
    ∃ status, (n, status) ∈ s.results := by
  have hdone : n ∈ s.results.map Prod.fst := by
    rw [← h.completed]
    simpa [hleft] using h.perm.mem_iff.mpr hn
  obtain ⟨⟨n, status⟩, hmem, rfl⟩ := List.mem_map.mp hdone
  exact ⟨status, hmem⟩

/-- In the end a package is skipped if it is not selected or if one it depends on directly has failed. -/
theorem RunInv.skipped_iff (h : g.RunInv input order s []) (hleft : s.remaining = []) {n : Str} (hn : n ∈ order) :
    ((n, .skipped) ∈ s.results ∧ .started n ∉ s.log) ↔ (g.Selected input n → ∃ d, g.Edge n d ∧ s.Failed d) := by
  constructor
  · rintro ⟨hmem, -⟩ hselected
    exact (h.skipped n hmem).resolve_left (not_not_intro hselected)
  · intro hcause
    have hnot : .started n ∉ s.log := by
      intro hstarted
      obtain ⟨hselected, hdeps, -⟩ := h.started n hstarted
      obtain ⟨d, hd, hfailed⟩ := hcause hselected
      exact (hdeps d hd).2 hfailed
    obtain ⟨status, hmem⟩ := h.exists_result hleft hn
    by_cases hstatus : status = .skipped
    · exact ⟨hstatus ▸ hmem, hnot⟩
    · exact absurd (h.ran n status hmem hstatus).1 hnot

theorem RunInv.failed_iff (h : g.RunInv input order s []) (hleft : s.remaining = []) (horder : order.Perm g.names)
    (n : Str) : s.Failed n ↔ g.Broken input n ∧ ∀ d, g.Edge n d → ¬ s.Failed d := by
  constructor
  · rintro ⟨message, hmem⟩
    obtain ⟨hstarted, hstatus⟩ := h.ran n _ hmem (by simp)
    obtain ⟨hselected, hdeps, -⟩ := h.started n hstarted
    refine ⟨⟨hselected, ?_⟩, fun d hd => (hdeps d hd).2⟩
    unfold endStatus at hstatus
    cases houtcome : input.outcome n with
    | none => simp [houtcome] at hstatus
    | some m => rfl
  · rintro ⟨hbroken, hdeps⟩
    obtain ⟨status, hmem⟩ := h.exists_result hleft (horder.mem_iff.mpr hbroken.member)
    obtain ⟨message, hmessage⟩ := Option.isSome_iff_exists.mp hbroken.2
    by_cases hstatus : status = .skipped
    · subst hstatus
      rcases h.skipped n hmem with hnot | ⟨d, hd, hfailed⟩
      · exact absurd hbroken.1 hnot
      · exact absurd hfailed (hdeps d hd)
    · obtain ⟨-, hend⟩ := h.ran n status hmem hstatus
      refine ⟨message, ?_⟩
      simpa [hend, endStatus, hmessage] using hmem

theorem RunInv.result_before (h : g.RunInv input order s tasks) {l₁ l₂ : List RunEvent} {p d : Str}
    (hlog : s.log = l₁ ++ .started p :: l₂) (hd : g.Edge p d) : ∃ status, .result d status ∈ l₁ := by
  have hmem : d ∈ reported l₁ := h.after l₁ p l₂ hlog d hd
  unfold reported at hmem
  obtain ⟨e, he, heq⟩ := List.mem_filterMap.mp hmem
  cases e with
  | started n => simp at heq
  | result n status =>
      obtain rfl : n = d := by simpa using heq
      exact ⟨status, he⟩

end WorkspaceGraph

end ThreeVa.Workspace
