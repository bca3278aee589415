import ThreeVa.Pm.Lemmas.Waves

/-! Two installs that differ in the order of completions: what keeps their waves the same. -/

namespace ThreeVa.Pm.Install
open Text

/-- All that a wave takes from a node: its name and, if it is to be fetched, the result of the lookup. -/
def Env.profile (env : Env) (n : WaveNode) : Str × Option WaveResult :=
  (n.name, if env.needsFetch n then some (env.result n) else none)

namespace State

section
variable (env : Env) (s : State)

/-- The dependencies that the lookups of a wave put into the map of the next one. -/
def listings : List WaveNode := (s.needsFetch env).flatMap fun n => (env.result n).listings

/-- Nodes of one name, in the wave or listed for the next one, have the same result. -/
def Agreed : Prop :=
  (∀ n ∈ s.wave env, ∀ m ∈ s.wave env, n.name = m.name → env.profile n = env.profile m) ∧
    ∀ n ∈ s.listings env, ∀ m ∈ s.listings env, n.name = m.name → n.name ∉ (s.enter env).visited →
      env.profile (env.overridden n) = env.profile (env.overridden m)
deriving Decidable

end

variable {env : Env} {s s' t t' : State} {o o' : Order}

/-- The same state, up to the order of the wave and to nodes with the same result. -/
structure Same (env : Env) (s s' : State) : Prop where
  fresh : ∀ n ∈ s.currentWave, n.name ∉ s.visited
  fresh' : ∀ n ∈ s'.currentWave, n.name ∉ s'.visited
  profiles : ((s.wave env).map env.profile).Perm ((s'.wave env).map env.profile)
  resolved : s.resolved = s'.resolved
  visited : s.visited = s'.visited
  skipped : s.skipped.Perm s'.skipped
  failures : s.failures.Perm s'.failures

theorem same_start (roots : List (Str × Option Str)) : Same env (start roots) (start roots) :=
  ⟨by simp [start], by simp [start], .refl _, rfl, rfl, .refl _, .refl _⟩

theorem map_profile_fst (l : List WaveNode) : (l.map env.profile).map Prod.fst = l.map WaveNode.name := by
  rw [List.map_map]
  rfl

theorem Same.names (h : Same env s s') : ((s.wave env).map WaveNode.name).Perm ((s'.wave env).map WaveNode.name) := by
  rw [← map_profile_fst, ← map_profile_fst]
  exact h.profiles.map Prod.fst

theorem Same.enter_visited (h : Same env s s') : (s.enter env).visited = (s'.enter env).visited := by
  rw [enter, enter, h.visited, List.toFinset_eq_of_perm _ _ h.names]

/-- The results of the lookups of a wave, under the names looked up. -/
def results (env : Env) (nodes : List WaveNode) : List (Str × WaveResult) := nodes.map fun n => (n.name, env.result n)

theorem needsFetch_results (s : State) :
    results env (s.needsFetch env) = ((s.wave env).map env.profile).filterMap fun p => p.2.map (p.1, ·) := by
  unfold results needsFetch
  induction s.wave env with
  | nil => rfl
  | cons n l ih =>
      cases h : env.needsFetch n <;> simp [Env.profile, h, ih]

theorem Same.results_perm (h : Same env s s') :
    (results env (s.needsFetch env)).Perm (results env (s'.needsFetch env)) := by
  rw [needsFetch_results, needsFetch_results]
  exact h.profiles.filterMap _

/-! ## Results in any order -/

theorem foldl_join_skipped (done : List WaveNode) :
    (done.foldl (join env) s).skipped = s.skipped ++ (results env done).flatMap fun p => p.2.skipped := by
  rw [(foldl_join_frame done).2.2.2.1, State.results, List.flatMap_map]

theorem foldl_join_failures (done : List WaveNode) :
    (done.foldl (join env) s).failures = s.failures ++ ((results env done).filter fun p => p.2.failed).map Prod.fst := by
  rw [(foldl_join_frame done).2.2.2.2, State.results, List.filter_map, List.map_map]
  rfl

theorem filterMap_entryFor (done : List WaveNode) (name : Str) :
    done.filterMap (env.entryFor name) =
      (results env done).filterMap fun p => if p.1 = name then p.2.resolved else none := by
  rw [State.results, List.filterMap_map]
  rfl

theorem flatMap_listings (done : List WaveNode) :
    (done.flatMap fun n => (env.result n).listings) = (results env done).flatMap fun p => p.2.listings := by
  rw [State.results, List.flatMap_map]

/-- Equal elements have one order. -/
theorem eq_of_perm_of_all_eq {α : Type} {l l' : List α} (h : l.Perm l') (heq : ∀ a ∈ l, ∀ b ∈ l, a = b) : l = l' := by
  have hany : ∀ l : List α, l.Pairwise fun _ _ => True := fun l => List.pairwise_of_forall fun _ _ => trivial
  apply List.Perm.eq_of_pairwise (fun a b ha hb _ _ => ?_) (hany l) (hany l') h
  exact heq a ha b (h.mem_iff.mpr hb)

/-- Lookups of the nodes of one name that agree leave the same entry, whichever is last. -/
theorem foldl_join_resolved_eq {done done' : List WaveNode} (hperm : (results env done).Perm (results env done'))
    (hagreed : ∀ n ∈ done, ∀ m ∈ done, n.name = m.name → env.result n = env.result m) (hs : s.resolved = s'.resolved) :
    (done.foldl (join env) s).resolved = (done'.foldl (join env) s').resolved := by
  funext name
  rw [foldl_join_resolved, foldl_join_resolved, hs]
  have hentries : (done.filterMap (env.entryFor name)).Perm (done'.filterMap (env.entryFor name)) := by
    rw [filterMap_entryFor, filterMap_entryFor]
    exact hperm.filterMap _
  rw [eq_of_perm_of_all_eq hentries]
  intro a ha b hb
  obtain ⟨n, hn, hna⟩ := List.mem_filterMap.mp ha
  obtain ⟨m, hm, hmb⟩ := List.mem_filterMap.mp hb
  unfold Env.entryFor at hna hmb
  split at hna
  · split at hmb
    · rename_i hname hname'
      rw [hagreed n hn m hm (hname.trans hname'.symm), hmb] at hna
      exact (Option.some.inj hna).symm
    · cases hmb
  · cases hna

/-- Maps filled from lists with the same nodes hold nodes with the same profiles, if those listed under one name agree. -/
theorem profiles_subset {l l' : List WaveNode} (hmem : ∀ n, n ∈ l ↔ n ∈ l')
    (hagreed : ∀ n ∈ l, ∀ m ∈ l, n.name = m.name →
      env.profile (env.overridden n) = env.profile (env.overridden m)) {p : Str × Option WaveResult}
    (hp : p ∈ (l.foldl orInsert []).map fun n => env.profile (env.overridden n)) :
    p ∈ (l'.foldl orInsert []).map fun n => env.profile (env.overridden n) := by
  obtain ⟨n, hn, rfl⟩ := List.mem_map.mp hp
  have hfound := (mem_foldl_orInsert.mp hn).resolve_left List.not_mem_nil
  have hnl : n ∈ l := List.mem_of_find?_eq_some hfound.2
  obtain ⟨m, hm⟩ : ∃ m, l'.find? (fun k => k.name = n.name) = some m := by
    rw [← Option.isSome_iff_exists, List.find?_isSome]
    exact ⟨n, (hmem n).mp hnl, by simp⟩
  have hname : m.name = n.name := by simpa using List.find?_some hm
  apply List.mem_map.mpr ⟨m, mem_foldl_orInsert.mpr (.inr ⟨by simp, hname ▸ hm⟩), ?_⟩
  exact hagreed m ((hmem m).mpr (List.mem_of_find?_eq_some hm)) n hnl hname

theorem profiles_perm {l l' : List WaveNode} (hmem : ∀ n, n ∈ l ↔ n ∈ l')
    (hagreed : ∀ n ∈ l, ∀ m ∈ l, n.name = m.name →
      env.profile (env.overridden n) = env.profile (env.overridden m)) :
    ((l.foldl orInsert []).map fun n => env.profile (env.overridden n)).Perm
      ((l'.foldl orInsert []).map fun n => env.profile (env.overridden n)) := by
  have hnodup : ∀ l : List WaveNode, ((l.foldl orInsert []).map fun n => env.profile (env.overridden n)).Nodup := by
    intro l
    apply List.Nodup.of_map Prod.fst ?_
    rw [List.map_map]
    exact foldl_orInsert_names List.nodup_nil
  rw [List.perm_ext_iff_of_nodup (hnodup l) (hnodup l')]
  intro p
  refine ⟨profiles_subset hmem hagreed, profiles_subset (fun n => (hmem n).symm) ?_⟩
  intro n hn m hm
  exact hagreed n ((hmem n).mpr hn) m ((hmem m).mpr hm)

/-! ## Steps -/

theorem Same.needsFetch_eq_nil (h : Same env s s') : s.needsFetch env = [] ↔ s'.needsFetch env = [] := by
  have hnil : ∀ s : State, s.needsFetch env = [] ↔ results env (s.needsFetch env) = [] := by simp [results]
  rw [hnil s, hnil s']
  exact ⟨fun hs => (hs ▸ h.results_perm).symm.eq_nil, fun hs => (hs ▸ h.results_perm).eq_nil⟩

theorem Same.wave_eq_nil (h : Same env s s') : s.wave env = [] ↔ s'.wave env = [] := by
  rw [← List.length_eq_zero_iff, ← List.length_eq_zero_iff]
  have hlength := h.profiles.length_eq
  rw [List.length_map, List.length_map] at hlength
  rw [hlength]

theorem wave_profiles (h : ∀ n ∈ s.currentWave, n.name ∉ s.visited) :
    (s.wave env).map env.profile = s.currentWave.map fun n => env.profile (env.overridden n) := by
  rw [wave_eq h, List.map_map]
  rfl

theorem Same.unvisited (h : Same env s s') : (s.enter env).unvisited = (s'.enter env).unvisited := by
  funext n
  rw [State.unvisited, State.unvisited, h.enter_visited]

theorem Same.installed_currentWave (h : Same env s s') :
    ((s.wave env).foldl (walk env) (s.enter env)).currentWave.Perm
      ((s'.wave env).foldl (walk env) (s'.enter env)).currentWave := by
  have hlistings : ((s.wave env).flatMap fun n => env.diskListings n.name).Perm
      ((s'.wave env).flatMap fun n => env.diskListings n.name) := by
    rw [← List.flatMap_map WaveNode.name, ← List.flatMap_map WaveNode.name]
    exact h.names.flatMap_right _
  rw [foldl_walk_currentWave, foldl_walk_currentWave, h.unvisited]
  exact hlistings.filter _

theorem Same.installed_resolved (h : Same env s s') :
    ((s.wave env).foldl (walk env) (s.enter env)).resolved =
      ((s'.wave env).foldl (walk env) (s'.enter env)).resolved := by
  funext name
  rw [foldl_walk_resolved, foldl_walk_resolved, enter, enter, h.resolved]
  simp only [h.names.mem_iff]

theorem Agreed.result_eq (hagreed : Agreed env s) {n m : WaveNode} (hn : n ∈ s.needsFetch env)
    (hm : m ∈ s.needsFetch env) (hname : n.name = m.name) : env.result n = env.result m := by
  obtain ⟨hn, hfetch⟩ := List.mem_filter.mp hn
  obtain ⟨hm, hfetch'⟩ := List.mem_filter.mp hm
  have hprofile := hagreed.1 n hn m hm hname
  simp only [Env.profile, hfetch, hfetch', if_true, Prod.mk.injEq, Option.some.injEq] at hprofile
  exact hprofile.2

theorem Same.fetched_profiles (h : Same env s s') (hagreed : Agreed env s) (hdone : o.done.Perm (s.needsFetch env))
    (hperm : (results env o.done).Perm (results env o'.done)) :
    ((o.done.foldl (join env) (s.enter env)).currentWave.map fun n => env.profile (env.overridden n)).Perm
      ((o'.done.foldl (join env) (s'.enter env)).currentWave.map fun n => env.profile (env.overridden n)) := by
  rw [foldl_join_currentWave, foldl_join_currentWave, h.unvisited]
  apply profiles_perm (fun n => ?_) fun n hn m hm hname => ?_
  · rw [flatMap_listings, flatMap_listings, List.mem_filter, List.mem_filter, (hperm.flatMap_right _).mem_iff]
  · rw [List.mem_filter, (hdone.flatMap_right _).mem_iff, ← h.unvisited] at hn hm
    exact hagreed.2 n hn.1 m hm.1 hname (by simpa [State.unvisited] using hn.2)

theorem Same.step (h : Same env s s') (hagreed : Agreed env s) (ht : step env s o = some t)
    (ht' : step env s' o' = some t') : Same env t t' := by
  obtain ⟨-, htaken⟩ := step_cases ht
  obtain ⟨-, htaken'⟩ := step_cases ht'
  have hvisited : t.visited = t'.visited := by rw [htaken.visited, htaken'.visited, h.enter_visited]
  have hfresh := htaken.unvisited
  have hfresh' := htaken'.unvisited
  cases htaken with
  | installed hnone =>
      cases htaken' with
      | installed _ =>
          refine ⟨hfresh, hfresh', ?_, h.installed_resolved, hvisited, ?_, ?_⟩
          · rw [wave_profiles hfresh, wave_profiles hfresh']
            exact h.installed_currentWave.map _
          · rw [(foldl_walk_frame _).2.2.2.1, (foldl_walk_frame _).2.2.2.1]
            exact h.skipped
          · rw [(foldl_walk_frame _).2.2.2.2, (foldl_walk_frame _).2.2.2.2]
            exact h.failures
      | fetched hsome' _ _ => exact absurd (h.needsFetch_eq_nil.mp hnone) hsome'
  | fetched hsome hdone hnext =>
      cases htaken' with
      | installed hnone' => exact absurd (h.needsFetch_eq_nil.mpr hnone') hsome
      | fetched _ hdone' hnext' =>
          have hperm : (results env o.done).Perm (results env o'.done) :=
            (hdone.map _).trans (h.results_perm.trans (hdone'.map _).symm)
          refine ⟨hfresh, hfresh', ?_, ?_, hvisited, ?_, ?_⟩
          · rw [wave_profiles hfresh, wave_profiles hfresh']
            exact (hnext.map _).trans ((h.fetched_profiles hagreed hdone hperm).trans (hnext'.map _).symm)
          · refine foldl_join_resolved_eq hperm (fun n hn m hm => ?_) h.resolved
            exact hagreed.result_eq (hdone.mem_iff.mp hn) (hdone.mem_iff.mp hm)
          · change (o.done.foldl (join env) (s.enter env)).skipped.Perm
              (o'.done.foldl (join env) (s'.enter env)).skipped
            rw [foldl_join_skipped, foldl_join_skipped]
            exact h.skipped.append (hperm.flatMap_right _)
          · change (o.done.foldl (join env) (s.enter env)).failures.Perm
              (o'.done.foldl (join env) (s'.enter env)).failures
            rw [foldl_join_failures, foldl_join_failures]
            exact h.failures.append ((hperm.filter _).map _)

theorem step_of_wave_nil (h : s.wave env = []) : step env s o = none := by
  simp [step, h]

/-! ## Runs -/

/-- Two runs to the end from the same roots, of which one has agreed waves only, end in the same state. -/
theorem same_of_runs {C : State → Order → Prop} (hC : ∀ s o, C s o → Agreed env s) {roots : List (Str × Option Str)}
    {orders orders' : List Order} (hrun : Runs.exec (step env) (start roots) orders = some s) (hend : s.wave env = [])
    (hrun' : Runs.exec (step env) (start roots) orders' = some s') (hend' : s'.wave env = [])
    (halong : Runs.Along (step env) C (start roots) orders) : Same env s s' :=
  Runs.exec_confluent (Same env) (fun s => s.wave env = [])
    (fun _ _ _ _ _ _ h hc ht ht' => h.step (hC _ _ hc) ht ht') (fun _ _ h => h.wave_eq_nil)
    (fun _ _ h => step_of_wave_nil h) (same_start roots) halong hrun hend hrun' hend'

end State

end ThreeVa.Pm.Install
