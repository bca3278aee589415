import ThreeVa.Pm.Lemmas.Lookups
import ThreeVa.Pm.Lemmas.Waves

/-! Which packages an install resolves: every needed dependency of every package of its waves. -/

namespace ThreeVa.Pm.Install
open Text

/-! ## Dependencies -/

/-- The dependencies of a package at the version its node gets: the one in place if it will do, else the one chosen. -/
def Env.dependencies (env : Env) (node : WaveNode) : List WaveNode :=
  (if env.needsFetch node then env.chosenListings node else env.diskListings node.name).map env.overridden

/-- An optional dependency that is to be fetched and is not published or does not apply here. -/
def Env.skips (env : Env) (node : WaveNode) : Bool :=
  env.needsFetch node &&
    match env.fetch node with
    | .skipped _ => true
    | _ => false

/-- The roots, and what the packages of the waves need: their required dependencies and the optional ones that apply. -/
inductive Wanted (env : Env) (roots : List (Str × Option Str)) (seen : List WaveNode) : Str → Prop
  | root {name : Str} {requested : Option Str} (h : (name, requested) ∈ roots) : Wanted env roots seen name
  | dependency {node dep : WaveNode} (hnode : Wanted env roots seen node.name) (hseen : node ∈ seen)
      (hdep : dep ∈ env.dependencies node) (happlies : env.skips dep = false) : Wanted env roots seen dep.name

namespace State

/-- Resolved, or reported as a failure. -/
def Settled (s : State) (name : Str) : Prop := (s.resolved name).isSome = true ∨ name ∈ s.failures
deriving Decidable

/-- The dependency of the given name that the next wave gets: the one listed by the first lookup to complete. -/
def firstListing (env : Env) (done : List WaveNode) (name : Str) : Option WaveNode :=
  (done.flatMap fun n => (env.result n).listings).find? fun n => n.name = name

section
variable (env : Env) (need : WaveNode → Bool) (s : State) (o : Order)

/-- The wave is on disk as a whole or fetched as a whole. -/
def Unmixed : Prop := s.needsFetch env ≠ [] → ∀ n ∈ s.wave env, env.needsFetch n = true
deriving Decidable

/-- The version chosen by a lookup that succeeds has its metadata. -/
def Documented : Prop :=
  ∀ n ∈ s.needsFetch env, need n = true → (env.result n).resolved.isSome = true ∨ (env.result n).failed = true
deriving Decidable

/-- Under `strict_lock`, the lookups return every needed dependency of the version chosen. -/
def Followed : Prop :=
  env.strictLock = true → ∀ n ∈ s.needsFetch env, ∀ dep ∈ env.dependencies n, need dep = true →
    dep ∈ (env.result n).children.map env.overridden
deriving Decidable

/-- A needed dependency with a name visited before or in this wave is settled, or one of the wave needs it too. -/
def Unshadowed : Prop :=
  ∀ n ∈ s.wave env, ∀ dep ∈ env.dependencies n, need dep = true → dep.name ∈ (s.enter env).visited →
    s.Settled dep.name ∨ ∃ m ∈ s.wave env, m.name = dep.name ∧ need m = true
deriving Decidable

/-- Of the packages that list a needed name, the first to complete lists it as needed. -/
def NeededFirst : Prop :=
  ∀ n ∈ s.needsFetch env, ∀ dep ∈ env.dependencies n, need dep = true → dep.name ∉ (s.enter env).visited →
    ∀ first ∈ firstListing env o.done dep.name, need (env.overridden first) = true
deriving Decidable

/-- A wave loses none of the nodes for which `need` holds. -/
def Covered : Prop :=
  Unmixed env s ∧ Documented env need s ∧ Followed env need s ∧ Unshadowed env need s ∧ NeededFirst env need s o
deriving Decidable

end

variable {env : Env} {need : WaveNode → Bool} {s t : State} {o : Order}

/-- Every needed root and dependency is settled or in the wave to come. -/
structure Due (env : Env) (need : WaveNode → Bool) (roots : List (Str × Option Str)) (s : State) : Prop where
  fresh : ∀ n ∈ s.currentWave, n.name ∉ s.visited
  roots : ∀ root ∈ roots, need (env.overridden (.required root.1 root.2)) = true →
    s.Settled root.1 ∨ ∃ n ∈ s.currentWave, n.name = root.1 ∧ need (env.overridden n) = true
  seen : ∀ n ∈ s.seen, ∀ dep ∈ env.dependencies n, need dep = true →
    s.Settled dep.name ∨ ∃ m ∈ s.currentWave, m.name = dep.name ∧ need (env.overridden m) = true

theorem due_start (roots : List (Str × Option Str)) : Due env need roots (start roots) where
  fresh := by simp [start]
  roots := fun root hroot hneed => .inr ⟨_, List.mem_map_of_mem hroot, rfl, hneed⟩
  seen := by simp [start]

/-! ## One wave -/

theorem diskEntry_isSome {n : WaveNode} (h : env.needsFetch n = false) : (env.diskEntry n.name).isSome = true := by
  unfold Env.needsFetch at h
  rw [Bool.or_eq_false_iff] at h
  unfold Env.diskEntry
  cases hm : env.nodeModules n.name with
  | none => simp [hm] at h
  | some manifest =>
      cases hv : manifest.version with
      | none => simp [hm, hv] at h
      | some version => simp [hv]

theorem Taken.settled_mono (h : Taken env s o t) {name : Str} (hs : s.Settled name) : t.Settled name := by
  rcases hs with hs | hs
  · left
    cases h with
    | installed _ =>
        rw [foldl_walk_resolved]
        simp [enter, hs]
    | fetched _ _ _ =>
        change ((o.done.foldl (join env) (s.enter env)).resolved name).isSome = true
        rw [foldl_join_resolved]
        simp [enter, hs]
  · right
    cases h with
    | installed _ => rwa [(foldl_walk_frame _).2.2.2.2]
    | fetched _ _ _ =>
        change name ∈ (o.done.foldl (join env) (s.enter env)).failures
        rw [(foldl_join_frame _).2.2.2.2]
        exact List.mem_append_left _ hs

/-- A wave settles the nodes it needs. -/
theorem Taken.settled (h : Taken env s o t) (hunmixed : Unmixed env s) (hdocumented : Documented env need s)
    {n : WaveNode} (hn : n ∈ s.wave env) (hneed : need n = true) : t.Settled n.name := by
  cases h with
  | installed hnone =>
      left
      have hdisk := needsFetch_eq_false hnone hn
      rw [foldl_walk_resolved, if_pos (List.mem_map_of_mem hn), Option.isSome_or, diskEntry_isSome hdisk, Bool.or_true]
  | fetched hsome hdone _ =>
      have hmem : n ∈ s.needsFetch env := List.mem_filter.mpr ⟨hn, hunmixed hsome n hn⟩
      rcases hdocumented n hmem hneed with hresolved | hfailed
      · left
        change ((o.done.foldl (join env) (s.enter env)).resolved n.name).isSome = true
        obtain ⟨entry, hentry⟩ := Option.isSome_iff_exists.mp hresolved
        have hfound : entry ∈ o.done.filterMap (env.entryFor n.name) :=
          List.mem_filterMap.mpr ⟨n, hdone.mem_iff.mpr hmem, by simp [Env.entryFor, hentry]⟩
        rw [foldl_join_resolved, Option.isSome_or, Bool.or_eq_true]
        exact .inl (List.getLast?_isSome.mpr (List.ne_nil_of_mem hfound))
      · right
        change n.name ∈ (o.done.foldl (join env) (s.enter env)).failures
        rw [(foldl_join_frame _).2.2.2.2]
        exact List.mem_append_right _
          (List.mem_map_of_mem (List.mem_filter.mpr ⟨hdone.mem_iff.mpr hmem, hfailed⟩))

theorem Followed.mem_children (h : Followed env need s) {n dep : WaveNode} (hn : n ∈ s.needsFetch env)
    (hdep : dep ∈ env.dependencies n) (hneed : need dep = true) : dep ∈ (env.result n).children.map env.overridden := by
  cases hstrict : env.strictLock with
  | true => exact h hstrict n hn dep hdep hneed
  | false =>
      rw [Env.dependencies, if_pos (List.mem_filter.mp hn).2] at hdep
      rwa [Env.children_eq hstrict]

/-- What a package of the wave lists and was not visited is in the next wave, as the first to complete lists it. -/
theorem Taken.listed (h : Taken env s o t) (hunmixed : Unmixed env s) (hfollowed : Followed env need s)
    {n dep : WaveNode} (hn : n ∈ s.wave env) (hdep : dep ∈ env.dependencies n) (hneed : need dep = true)
    (hnew : dep.name ∉ (s.enter env).visited) :
    ∃ m ∈ t.currentWave, m.name = dep.name ∧
      (env.overridden m = dep ∨ n ∈ s.needsFetch env ∧ m ∈ firstListing env o.done dep.name) := by
  cases h with
  | installed hnone =>
      have hdisk : env.needsFetch n = false := needsFetch_eq_false hnone hn
      obtain ⟨raw, hraw, rfl⟩ := List.mem_map.mp hdep
      rw [Env.overridden_name] at hnew
      rw [if_neg (by simp [hdisk])] at hraw
      refine ⟨raw, ?_, rfl, .inl rfl⟩
      rw [foldl_walk_currentWave]
      apply List.mem_append_right _ (List.mem_filter.mpr ⟨List.mem_flatMap.mpr ⟨n, hn, hraw⟩, ?_⟩)
      simpa [State.unvisited] using hnew
  | fetched hsome hdone hnext =>
      have hfetch : env.needsFetch n = true := hunmixed hsome n hn
      have hmem : n ∈ s.needsFetch env := List.mem_filter.mpr ⟨hn, hfetch⟩
      obtain ⟨raw, hraw, rfl⟩ := List.mem_map.mp (hfollowed.mem_children hmem hdep hneed)
      rw [Env.overridden_name] at hnew ⊢
      have hlisting : raw ∈ o.done.flatMap fun n => (env.result n).listings :=
        List.mem_flatMap.mpr ⟨n, hdone.mem_iff.mpr hmem, List.mem_append_left _ hraw⟩
      obtain ⟨first, hfirst⟩ : ∃ first, firstListing env o.done raw.name = some first := by
        rw [← Option.isSome_iff_exists, firstListing, List.find?_isSome]
        exact ⟨raw, hlisting, by simp⟩
      have hname : first.name = raw.name := by simpa using List.find?_some hfirst
      refine ⟨first, hnext.mem_iff.mpr ?_, hname, .inr ⟨hmem, hfirst⟩⟩
      rw [foldl_join_currentWave, mem_foldl_orInsert]
      refine .inr ⟨by simp [enter], ?_⟩
      rw [hname, find?_filter_unvisited hnew]
      exact hfirst

theorem Due.step {roots : List (Str × Option Str)} (h : Due env need roots s) (hcovered : Covered env need s o)
    (hstep : step env s o = some t) : Due env need roots t := by
  obtain ⟨-, htaken⟩ := step_cases hstep
  obtain ⟨hunmixed, hdocumented, hfollowed, hunshadowed, hfirst⟩ := hcovered
  -- what was in the wave is settled now
  have hadvance : ∀ name, (s.Settled name ∨ ∃ n ∈ s.currentWave, n.name = name ∧ need (env.overridden n) = true) →
      t.Settled name := by
    rintro name (hs | ⟨n, hn, rfl, hneed⟩)
    · exact htaken.settled_mono hs
    · have hwave : env.overridden n ∈ s.wave env := by
        rw [wave_eq h.fresh]
        exact List.mem_map_of_mem hn
      have hsettled : t.Settled (env.overridden n).name := htaken.settled hunmixed hdocumented hwave hneed
      exact hsettled
  refine ⟨htaken.unvisited, fun root hroot hneed => .inl (hadvance _ (h.roots root hroot hneed)), ?_⟩
  intro n hn dep hdep hneed
  rw [htaken.seen, List.mem_append] at hn
  rcases hn with hn | hn
  · exact .inl (hadvance _ (h.seen n hn dep hdep hneed))
  · by_cases hvisited : dep.name ∈ (s.enter env).visited
    · left
      rcases hunshadowed n hn dep hdep hneed hvisited with hs | ⟨m, hm, hname, hm'⟩
      · exact htaken.settled_mono hs
      · exact hname ▸ htaken.settled hunmixed hdocumented hm hm'
    · right
      obtain ⟨m, hm, hname, hnode⟩ := htaken.listed hunmixed hfollowed hn hdep hneed hvisited
      refine ⟨m, hm, hname, ?_⟩
      rcases hnode with heq | ⟨hmem, hlisting⟩
      · rwa [heq]
      · exact hfirst n hmem dep hdep hneed hvisited m hlisting

/-! ## Runs -/

/-- At the end of a run whose waves are covered, every needed root and dependency is settled. -/
theorem settled_of_run {roots : List (Str × Option Str)} {orders : List Order}
    (hrun : Runs.exec (step env) (start roots) orders = some s)
    (hcovered : Runs.Along (step env) (Covered env need) (start roots) orders) (hend : s.wave env = []) :
    (∀ root ∈ roots, need (env.overridden (.required root.1 root.2)) = true → s.Settled root.1) ∧
      ∀ n ∈ s.seen, ∀ dep ∈ env.dependencies n, need dep = true → s.Settled dep.name := by
  have hdue : Due env need roots s :=
    Runs.exec_invariant (fun _ _ _ h hc hstep => Due.step h hc hstep) (due_start roots) hcovered hrun
  have hend : s.currentWave = [] := by
    rw [wave_eq hdue.fresh] at hend
    exact List.map_eq_nil_iff.mp hend
  constructor
  · intro root hroot hneed
    exact (hdue.roots root hroot hneed).resolve_right (by simp [hend])
  · intro n hn dep hdep hneed
    exact (hdue.seen n hn dep hdep hneed).resolve_right (by simp [hend])

theorem not_skips_required {node : WaveNode} (h : node.optional = false) : env.skips node = false := by
  unfold Env.skips
  cases hf : env.fetch node with
  | skipped record => exact absurd hf (Env.fetch_ne_skipped h record)
  | failed _ => simp
  | found _ _ => simp

end State

end ThreeVa.Pm.Install
