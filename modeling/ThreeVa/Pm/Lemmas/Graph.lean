import ThreeVa.Pm.Lemmas.Resolver

/-! The graph of a call: its nodes, the constraints they were chosen for, and what it takes of a map's order. -/

namespace ThreeVa.Pm
open Text Entries

/-! ## Constraints -/

section
variable (registry : Registry) (cache : Cache)

/-- A published version of the name satisfies the constraint. -/
def Satisfiable (item : Str × Str) : Prop :=
  ∃ nodes, published registry cache item.1 = some nodes ∧ ∃ node ∈ nodes, Satisfies item.2 node

/-- The first constraint popped for the name that a published version satisfies. -/
def FirstSatisfiable (popped : List (Str × Str)) (name constraint : Str) : Prop :=
  ∃ before after, popped = before ++ (name, constraint) :: after ∧ Satisfiable registry cache (name, constraint) ∧
    ∀ earlier, (name, earlier) ∈ before → ¬ Satisfiable registry cache (name, earlier)

end

variable {registry : Registry} {cache : Cache} {deps : DepMap}

theorem FirstSatisfiable.concat {popped : List (Str × Str)} {name constraint : Str}
    (h : FirstSatisfiable registry cache popped name constraint) (item : Str × Str) :
    FirstSatisfiable registry cache (popped ++ [item]) name constraint := by
  obtain ⟨before, after, rfl, hsat, hearlier⟩ := h
  exact ⟨before, after ++ [item], by simp, hsat, hearlier⟩

/-! ## Nodes -/

/-- A node of the graph has the name. -/
def DependencyGraph.Holds (g : DependencyGraph) (name : Str) : Prop := ∃ k node, g.nodes k = some node ∧ node.name = name

/-- Another resolved name has the same key, as `a` at `1.0.0-x@2.0.0` and `a@1.0.0-x` at `2.0.0` do. -/
def DependencyGraph.Shadowed (g : DependencyGraph) (name : Str) : Prop :=
  ∃ other v w, other ≠ name ∧ g.resolvedVersions name = some v ∧ g.resolvedVersions other = some w ∧
    DependencyGraph.key name v = DependencyGraph.key other w

namespace Resolution

variable {s : Resolution}

/-- The nodes and constraints of a call under way. -/
structure GraphOk (registry : Registry) (cache : Cache) (deps : DepMap) (s : Resolution) : Prop where
  keyed : ∀ k node, s.graph.nodes k = some node →
    k = DependencyGraph.key node.name node.version ∧ s.graph.resolvedVersions node.name = some node.version
  noded : ∀ name v, s.graph.resolvedVersions name = some v → (s.graph.nodes (DependencyGraph.key name v)).isSome
  highest : ∀ k node, s.graph.nodes k = some node → ∃ constraint all,
    FirstSatisfiable registry cache s.popped node.name constraint ∧ published registry cache node.name = some all ∧
      Highest all constraint node
  /-- A name that is popped and still not resolved has no version for the constraint. -/
  unsatisfied : ∀ item ∈ s.popped, s.graph.resolvedVersions item.1 = none → ¬ Satisfiable registry cache item
  worklist : ∀ k node, s.graph.nodes k = some node → ∀ item ∈ node.dependencies.list, item ∈ s.stack ∨ item ∈ s.popped
  roots : ∀ item ∈ deps.list, item ∈ s.stack ∨ item ∈ s.popped

theorem graphOk_start : GraphOk registry cache deps (start cache deps) where
  keyed := by simp [start, DependencyGraph.new]
  noded := by simp [start, DependencyGraph.new]
  highest := by simp [start, DependencyGraph.new]
  unsatisfied := by simp [start]
  worklist := by simp [start, DependencyGraph.new]
  roots := fun _ hitem => .inl (mem_pushAll_descending.mpr (.inl hitem))

/-- An entry on the stack has been popped or stays. -/
theorem moved {item i : Str × Str} {rest stack popped : List (Str × Str)} (hrest : ∀ i ∈ rest, i ∈ stack)
    (h : i ∈ item :: rest ∨ i ∈ popped) : i ∈ stack ∨ i ∈ popped ++ [item] := by
  rcases h with h | h
  · rcases List.mem_cons.mp h with rfl | h
    · exact .inr (by simp)
    · exact .inl (hrest i h)
  · exact .inr (by simp [h])

theorem GraphOk.skip (h : GraphOk registry cache deps s) {item : Str × Str} {rest : List (Str × Str)}
    (hstack : s.stack = item :: rest)
    (hitem : s.graph.resolvedVersions item.1 = none → ¬ Satisfiable registry cache item) :
    GraphOk registry cache deps (s.skip item rest) where
  keyed := h.keyed
  noded := h.noded
  highest := by
    intro k node hnode
    obtain ⟨constraint, all, hfirst, hall, hhigh⟩ := h.highest k node hnode
    exact ⟨constraint, all, hfirst.concat item, hall, hhigh⟩
  unsatisfied := by
    intro i hi hnone
    rcases List.mem_append.mp hi with hi | hi
    · exact h.unsatisfied i hi hnone
    · rw [List.mem_singleton] at hi
      subst hi
      exact hitem hnone
  worklist := fun k node hnode i hi => moved (fun _ h => h) (hstack ▸ h.worklist k node hnode i hi)
  roots := fun i hi => moved (fun _ h => h) (hstack ▸ h.roots i hi)

/-- A fetch changes neither the graph nor the constraints. -/
theorem GraphOk.frame (h : GraphOk registry cache deps s) {s' : Resolution} (hgraph : s'.graph = s.graph)
    (hstack : s'.stack = s.stack) (hpopped : s'.popped = s.popped) : GraphOk registry cache deps s' where
  keyed := hgraph ▸ h.keyed
  noded := hgraph ▸ h.noded
  highest := by rw [hgraph, hpopped]; exact h.highest
  unsatisfied := by rw [hgraph, hpopped]; exact h.unsatisfied
  worklist := by rw [hgraph, hstack, hpopped]; exact h.worklist
  roots := by rw [hstack, hpopped]; exact h.roots

theorem accept_nodes {item : Str × Str} {rest : List (Str × Str)} {best node : DependencyNode} {k : Str}
    (h : (s.accept item rest best).graph.nodes k = some node) :
    (k = DependencyGraph.key best.name best.version ∧ node = best) ∨ s.graph.nodes k = some node := by
  change Function.update s.graph.nodes _ (some best) k = some node at h
  rw [Function.update_apply] at h
  split at h
  · exact .inl ⟨‹_›, (Option.some.inj h).symm⟩
  · exact .inr h

theorem GraphOk.accept (hc : Consistent registry cache s) (h : GraphOk registry cache deps s) {item : Str × Str}
    {rest : List (Str × Str)} (hstack : s.stack = item :: rest) {nodes : List DependencyNode} {best : DependencyNode}
    (hnone : s.graph.resolvedVersions item.1 = none) (hcached : s.cache.get item.1 = some nodes)
    (hbest : findBestMatch nodes item.2 = some best) : GraphOk registry cache deps (s.accept item rest best) := by
  obtain ⟨all, hall, hiff⟩ := hc.faithful _ _ hcached
  have hhigh : Highest all item.2 best := (findBestMatch_eq_some hbest).congr hiff
  have hname : best.name = item.1 := s.cache.named _ _ hcached _ (findBestMatch_eq_some hbest).mem
  -- nodes of other names keep their versions: `item.1` had none
  have hother : ∀ name v, s.graph.resolvedVersions name = some v →
      (s.accept item rest best).graph.resolvedVersions name = some v := by
    intro name v hv
    rw [accept_resolvedVersions, Function.update_of_ne, hv]
    rintro rfl
    simp [hnone] at hv
  exact {
    keyed := by
      intro k node hnode
      rcases accept_nodes hnode with ⟨rfl, rfl⟩ | hold
      · exact ⟨rfl, by rw [hname, accept_resolvedVersions, Function.update_self]⟩
      · exact ⟨(h.keyed k node hold).1, hother _ _ (h.keyed k node hold).2⟩
    noded := by
      intro name v hv
      change (Function.update s.graph.nodes _ (some best) _).isSome
      rw [Function.update_apply]
      split
      · rfl
      · rename_i hne
        rw [accept_resolvedVersions, Function.update_apply] at hv
        split at hv
        · rename_i heq
          exact absurd (by rw [heq, ← hname, ← Option.some.inj hv]) hne
        · exact h.noded name v hv
    highest := by
      intro k node hnode
      rcases accept_nodes hnode with ⟨rfl, rfl⟩ | hold
      · refine ⟨item.2, all, ⟨s.popped, [], by rw [hname]; rfl, ?_, fun earlier hearlier => ?_⟩, hname ▸ hall, hhigh⟩
        · exact ⟨all, hname ▸ hall, node, hhigh.mem, hhigh.satisfies⟩
        · exact h.unsatisfied _ hearlier (by rw [hname, hnone])
      · obtain ⟨constraint, all, hfirst, hall, hhigh⟩ := h.highest k node hold
        exact ⟨constraint, all, hfirst.concat item, hall, hhigh⟩
    unsatisfied := by
      intro i hi hinone
      rw [accept_resolvedVersions, Function.update_apply] at hinone
      split at hinone
      · cases hinone
      · rename_i hne
        rcases List.mem_append.mp hi with hi | hi
        · exact h.unsatisfied i hi hinone
        · exact absurd (by rw [List.mem_singleton.mp hi]) hne
    worklist := by
      intro k node hnode i hi
      rcases accept_nodes hnode with ⟨-, rfl⟩ | hold
      · exact .inl (mem_pushAll_descending.mpr (.inl hi))
      · exact moved (fun _ hr => mem_pushAll_descending.mpr (.inr hr)) (hstack ▸ h.worklist k node hold i hi)
    roots := fun i hi => moved (fun _ hr => mem_pushAll_descending.mpr (.inr hr)) (hstack ▸ h.roots i hi) }

theorem GraphOk.step (hc : Consistent registry cache s) (h : GraphOk registry cache deps s) :
    GraphOk registry cache deps (s.step registry) := by
  apply step_rule h fun item rest hstack s' hs' => ?_
  cases hs' with
  | resolved hsome => exact h.skip hstack fun hnone => by simp [hnone] at hsome
  | accepted hnone hcached hbest => exact h.accept hc hstack hnone hcached hbest
  | unsatisfied _ hcached hbest =>
      apply h.skip hstack fun _ ⟨all, hall, node, hnode, hsat⟩ => ?_
      obtain ⟨all', hall', hiff⟩ := hc.faithful _ _ hcached
      obtain rfl := Option.some.inj (hall.symm.trans hall')
      exact findBestMatch_eq_none hbest node ((hiff node).mpr hnode) hsat
  | failed _ hcached hfetched =>
      apply h.skip hstack fun _ ⟨all, hall, _⟩ => ?_
      rw [hc.failed _ hfetched hcached] at hall
      cases hall
  | fetched _ => exact h.frame rfl (fetchBatch_stack.trans hstack.symm) rfl

theorem graphOk_run (n : Nat) : GraphOk registry cache deps (run registry cache deps n) :=
  (run_rule (P := fun s => Consistent registry cache s ∧ GraphOk registry cache deps s) ⟨consistent_start, graphOk_start⟩
    (fun _ h => ⟨h.1.step, h.2.step h.1⟩) n).2

theorem GraphOk.holds (h : GraphOk registry cache deps s) {name v : Str} (hv : s.graph.resolvedVersions name = some v)
    (hclear : ¬ s.graph.Shadowed name) :
    ∃ node, s.graph.nodes (DependencyGraph.key name v) = some node ∧ node.name = name := by
  obtain ⟨node, hnode⟩ := Option.isSome_iff_exists.mp (h.noded name v hv)
  obtain ⟨hkey, hver⟩ := h.keyed _ node hnode
  refine ⟨node, hnode, ?_⟩
  by_contra hne
  exact hclear ⟨node.name, v, node.version, hne, hv, hver, hkey⟩

end Resolution

/-! ## Iteration orders -/

/-- The same node, its maps in another order. -/
structure DependencyNode.Reordered (a b : DependencyNode) : Prop where
  name : a.name = b.name
  version : a.version = b.version
  resolved : a.resolved = b.resolved
  integrity : a.integrity = b.integrity
  dependencies : a.dependencies.list.Perm b.dependencies.list
  devDependencies : a.devDependencies.list.Perm b.devDependencies.list
  peerDependencies : a.peerDependencies.list.Perm b.peerDependencies.list

/-- The registry answers with the same nodes, their maps in another order. -/
def Registry.Reordered (registry registry' : Registry) : Prop :=
  ∀ name, Option.Rel (List.Forall₂ DependencyNode.Reordered) (fetch registry name) (fetch registry' name)

def Cache.Reordered (c c' : Cache) : Prop :=
  ∀ name, Option.Rel (List.Forall₂ DependencyNode.Reordered) (c.get name) (c'.get name)

structure DependencyGraph.Reordered (g g' : DependencyGraph) : Prop where
  nodes : ∀ k, Option.Rel DependencyNode.Reordered (g.nodes k) (g'.nodes k)
  resolvedVersions : g.resolvedVersions = g'.resolvedVersions

theorem descending_eq_of_perm {d d' : DepMap} (h : d.list.Perm d'.list) : descending d = descending d' := by
  have hflip : Std.TransCmp fun a b : Str => compare b a := inferInstance
  have : Std.TransCmp fun a b : Str × Str => compare b.1 a.1 := transCmp_on Prod.fst hflip
  apply sortBy_eq_of_perm h fun a ha b hb heq => ?_
  exact d.eq_of_key_eq ha hb (Std.LawfulEqOrd.eq_of_compare heq).symm

theorem SemverRange.admits_congr {a b : DependencyNode} (h : a.Reordered b) (range : SemverRange) :
    range.admits a = range.admits b := by
  rw [admits, admits, h.version]

theorem findBestMatch_rel {nodes nodes' : List DependencyNode} (h : List.Forall₂ DependencyNode.Reordered nodes nodes')
    (constraint : Str) :
    Option.Rel DependencyNode.Reordered (findBestMatch nodes constraint) (findBestMatch nodes' constraint) := by
  unfold findBestMatch
  cases SemverRange.parse constraint with
  | none => exact .none
  | some range =>
      apply maxBy_rel (fun a b a' b' ha hb => by rw [ha.version, hb.version]) ?_
      induction h with
      | nil => exact .nil
      | cons hab _ ih =>
          rw [List.filter_cons, List.filter_cons, range.admits_congr hab]
          split
          · exact .cons hab ih
          · exact ih

theorem Cache.Reordered.await {registry' : Registry} {c c' : Cache} (hreg : registry.Reordered registry')
    (h : c.Reordered c') (name : Str) : (c.await registry name).Reordered (c'.await registry' name) := by
  intro m
  by_cases hm : m = name
  · subst hm
    have hfetch := hreg m
    cases hf : fetch registry m with
    | none =>
        cases hf' : fetch registry' m with
        | none =>
            rw [await_of_failed hf, await_of_failed hf']
            exact h m
        | some nodes' => simp [hf, hf'] at hfetch
    | some nodes =>
        cases hf' : fetch registry' m with
        | none => simp [hf, hf'] at hfetch
        | some nodes' =>
            rw [await_get_self hf, await_get_self hf']
            refine .some (List.rel_append ?_ (by simpa [hf, hf'] using hfetch))
            have hold := h m
            cases hc : c.get m <;> cases hc' : c'.get m <;> simp_all
  · rw [await_get_of_ne hm, await_get_of_ne hm]
    exact h m

theorem Cache.Reordered.foldl_await {registry' : Registry} {c c' : Cache} (hreg : registry.Reordered registry')
    (h : c.Reordered c') (names : List Str) :
    (names.foldl (Cache.await registry) c).Reordered (names.foldl (Cache.await registry') c') := by
  induction names generalizing c c' with
  | nil => exact h
  | cons n names ih => exact ih (h.await hreg n)

/-- The same state of a call, up to the order of maps. -/
structure Resolution.Reordered (s s' : Resolution) : Prop where
  stack : s.stack = s'.stack
  cache : s.cache.Reordered s'.cache
  fetched : s.fetched = s'.fetched
  graph : s.graph.Reordered s'.graph

namespace Resolution

variable {registry' : Registry} {s s' : Resolution}

theorem Reordered.unknown (h : s.Reordered s') : s.unknown = s'.unknown := by
  funext item
  have hcache := h.cache item.1
  unfold Resolution.unknown
  rw [h.graph.resolvedVersions, h.fetched]
  cases hc : s.cache.get item.1 <;> cases hc' : s'.cache.get item.1 <;> simp_all

theorem Reordered.skip (h : s.Reordered s') (item : Str × Str) (rest : List (Str × Str)) :
    (s.skip item rest).Reordered (s'.skip item rest) := ⟨rfl, h.cache, h.fetched, h.graph⟩

theorem Reordered.accept (h : s.Reordered s') (item : Str × Str) (rest : List (Str × Str)) {best best' : DependencyNode}
    (hbest : best.Reordered best') : (s.accept item rest best).Reordered (s'.accept item rest best') where
  stack := by
    change pushAll (descending best.dependencies) rest = pushAll (descending best'.dependencies) rest
    rw [descending_eq_of_perm hbest.dependencies]
  cache := h.cache
  fetched := h.fetched
  graph := by
    refine ⟨fun k => ?_, ?_⟩
    · change Option.Rel _ (Function.update s.graph.nodes _ _ k) (Function.update s'.graph.nodes _ _ k)
      rw [hbest.name, hbest.version, Function.update_apply, Function.update_apply]
      split
      · exact .some hbest
      · exact h.graph.nodes k
    · rw [accept_resolvedVersions, accept_resolvedVersions, h.graph.resolvedVersions, hbest.version]

theorem Reordered.fetchBatch (hreg : registry.Reordered registry') (h : s.Reordered s') (item : Str × Str)
    (rest : List (Str × Str)) : (s.fetchBatch registry item rest).Reordered (s'.fetchBatch registry' item rest) where
  stack := by rw [fetchBatch_stack, fetchBatch_stack]
  cache := by
    unfold Resolution.fetchBatch
    rw [h.unknown]
    exact h.cache.foldl_await hreg _
  fetched := by
    unfold Resolution.fetchBatch
    rw [h.unknown, h.fetched]
  graph := h.graph

theorem Reordered.step (hreg : registry.Reordered registry') (h : s.Reordered s') :
    (s.step registry).Reordered (s'.step registry') := by
  cases hstack : s.stack with
  | nil => rwa [step_of_stack_nil hstack, step_of_stack_nil (h.stack ▸ hstack)]
  | cons item rest =>
      simp only [Resolution.step, ← h.stack, hstack, ← h.graph.resolvedVersions, ← h.fetched]
      have hcache := h.cache item.1
      split
      · exact h.skip item rest
      · cases hc : s.cache.get item.1 with
        | none =>
            cases hc' : s'.cache.get item.1 with
            | none =>
                simp only [Option.bind_none, Option.isSome_none, Bool.or_false]
                split
                · exact h.skip item rest
                · exact h.fetchBatch hreg item rest
            | some nodes' => simp [hc, hc'] at hcache
        | some nodes =>
            cases hc' : s'.cache.get item.1 with
            | none => simp [hc, hc'] at hcache
            | some nodes' =>
                have hnodes : List.Forall₂ DependencyNode.Reordered nodes nodes' := by simpa [hc, hc'] using hcache
                have hbest := findBestMatch_rel hnodes item.2
                simp only [Option.bind_some, Option.isSome_some, Bool.or_true, if_true]
                cases hb : findBestMatch nodes item.2 with
                | none =>
                    cases hb' : findBestMatch nodes' item.2 with
                    | none => exact h.skip item rest
                    | some best' => simp [hb, hb'] at hbest
                | some best =>
                    cases hb' : findBestMatch nodes' item.2 with
                    | none => simp [hb, hb'] at hbest
                    | some best' => exact h.accept item rest (by simpa [hb, hb'] using hbest)

theorem reordered_run {cache' : Cache} {deps' : DepMap} (hreg : registry.Reordered registry')
    (hcache : cache.Reordered cache') (hdeps : deps.list.Perm deps'.list) (n : Nat) :
    (run registry cache deps n).Reordered (run registry' cache' deps' n) := by
  induction n with
  | zero =>
      refine ⟨?_, hcache, rfl, fun _ => .none, rfl⟩
      change pushAll (descending deps) [] = pushAll (descending deps') []
      rw [descending_eq_of_perm hdeps]
  | succ n ih =>
      rw [run_succ, run_succ]
      exact ih.step hreg

/-- Two calls that differ in the order of maps return graphs that do. -/
theorem Reordered.returned {cache' : Cache} {deps' : DepMap} (hreg : registry.Reordered registry')
    (hcache : cache.Reordered cache') (hdeps : deps.list.Perm deps'.list) (hs : Returns registry cache deps s)
    (hs' : Returns registry' cache' deps' s') : s.Reordered s' := by
  obtain ⟨n, rfl, hend⟩ := hs
  obtain ⟨n', rfl, hend'⟩ := hs'
  have h := reordered_run hreg hcache hdeps (n + n')
  rwa [run_add_of_stack_nil hend, Nat.add_comm, run_add_of_stack_nil hend'] at h

end Resolution

end ThreeVa.Pm
