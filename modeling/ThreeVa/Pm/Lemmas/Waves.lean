import Mathlib.Data.List.Perm.Basic
import ThreeVa.Pm.Install

/-! One wave of an install: what the results of its lookups add up to, in whatever order they come. -/

namespace ThreeVa.Pm.Install
open Text

/-! ## The map of the next wave -/

theorem mem_orInsert {nodes : List WaveNode} {node n : WaveNode} :
    n ∈ orInsert nodes node ↔ n ∈ nodes ∨ n = node ∧ ∀ m ∈ nodes, m.name ≠ node.name := by
  unfold orInsert
  split
  · rename_i h
    simp only [List.any_eq_true, decide_eq_true_eq] at h
    obtain ⟨m, hm, heq⟩ := h
    exact ⟨.inl, fun h => h.resolve_right fun hn => hn.2 m hm heq⟩
  · rename_i h
    simp only [Bool.not_eq_true, List.any_eq_false, decide_eq_true_eq] at h
    simp only [List.mem_append, List.mem_singleton, and_iff_left_iff_imp.mpr fun _ => h]

theorem exists_mem_orInsert (nodes : List WaveNode) (node : WaveNode) :
    ∃ m ∈ orInsert nodes node, m.name = node.name := by
  by_cases h : ∃ m ∈ nodes, m.name = node.name
  · obtain ⟨m, hm, heq⟩ := h
    exact ⟨m, mem_orInsert.mpr (.inl hm), heq⟩
  · exact ⟨node, mem_orInsert.mpr (.inr ⟨rfl, fun m hm heq => h ⟨m, hm, heq⟩⟩), rfl⟩

theorem orInsert_names {nodes : List WaveNode} {node : WaveNode} (h : (nodes.map WaveNode.name).Nodup) :
    ((orInsert nodes node).map WaveNode.name).Nodup := by
  unfold orInsert
  split
  · exact h
  · rename_i hnew
    simp only [Bool.not_eq_true, List.any_eq_false, decide_eq_true_eq] at hnew
    rw [List.map_append, List.nodup_append]
    refine ⟨h, List.nodup_singleton _, fun a ha b hb heq => ?_⟩
    obtain ⟨m, hm, rfl⟩ := List.mem_map.mp ha
    simp only [List.map_cons, List.map_nil, List.mem_singleton] at hb
    exact hnew m hm (heq.trans hb)

theorem foldl_orInsert_names {l nodes : List WaveNode} (h : (nodes.map WaveNode.name).Nodup) :
    ((l.foldl orInsert nodes).map WaveNode.name).Nodup := by
  induction l generalizing nodes with
  | nil => exact h
  | cons node l ih => exact ih (orInsert_names h)

/-- The map keeps the first node of each name. -/
theorem mem_foldl_orInsert {l nodes : List WaveNode} {n : WaveNode} :
    n ∈ l.foldl orInsert nodes ↔
      n ∈ nodes ∨ (∀ m ∈ nodes, m.name ≠ n.name) ∧ l.find? (fun m => m.name = n.name) = some n := by
  induction l generalizing nodes with
  | nil => simp
  | cons node l ih =>
      rw [List.foldl_cons, ih, mem_orInsert, List.find?_cons]
      by_cases hname : node.name = n.name
      · obtain ⟨m, hm, heq⟩ := exists_mem_orInsert nodes node
        simp only [hname, decide_true, Option.some.injEq]
        constructor
        · rintro ((hn | ⟨rfl, hnew⟩) | ⟨hnone, -⟩)
          · exact .inl hn
          · exact .inr ⟨hnew, rfl⟩
          · exact absurd (heq.trans hname) (hnone m hm)
        · rintro (hn | ⟨hnew, rfl⟩)
          · exact .inl (.inl hn)
          · exact .inl (.inr ⟨rfl, hnew⟩)
      · have hother : (∀ m ∈ orInsert nodes node, m.name ≠ n.name) ↔ ∀ m ∈ nodes, m.name ≠ n.name := by
          refine ⟨fun h m hm => h m (mem_orInsert.mpr (.inl hm)), fun h m hm => ?_⟩
          rcases mem_orInsert.mp hm with hm | ⟨rfl, -⟩
          · exact h m hm
          · exact hname
        have hne : n ≠ node := fun h => hname (h ▸ rfl)
        simp only [hname, decide_false, hother, hne, false_and, or_false]

/-! ## Results -/

@[simp] theorem Env.overridden_name (env : Env) (n : WaveNode) : (env.overridden n).name = n.name := rfl

/-- The entry that the lookup of a node makes under a name. -/
def Env.entryFor (env : Env) (name : Str) (node : WaveNode) : Option Resolved :=
  if node.name = name then (env.result node).resolved else none

/-- The entry of a package that is in place. -/
def Env.diskEntry (env : Env) (name : Str) : Option Resolved :=
  ((env.nodeModules name).bind Manifest.version).map fun version =>
    { version, tarball := Env.tarballAt env.baseUrl name version, integrity := none }

/-- The dependencies of a package that is in place. -/
def Env.diskListings (env : Env) (name : Str) : List WaveNode := ((env.nodeModules name).map env.listed).getD []

namespace State

variable {env : Env} {s t : State} {o : Order}

theorem join_resolved (node : WaveNode) (name : Str) :
    (join env s node).resolved name = (env.entryFor name node).or (s.resolved name) := by
  unfold join Env.entryFor
  cases hr : (env.result node).resolved with
  | none => simp [hr]
  | some entry =>
      by_cases hname : node.name = name
      · simp [hr, hname]
      · simp [hr, hname, Function.update_of_ne (Ne.symm hname)]

theorem foldl_join_resolved (done : List WaveNode) (name : Str) :
    (done.foldl (join env) s).resolved name = ((done.filterMap (env.entryFor name)).getLast?).or (s.resolved name) := by
  induction done generalizing s with
  | nil => simp
  | cons node done ih =>
      rw [List.foldl_cons, ih, join_resolved, List.filterMap_cons]
      cases env.entryFor name node with
      | none => simp
      | some entry =>
          cases hl : (done.filterMap (env.entryFor name)).getLast? with
          | none => simp [List.getLast?_cons, List.getLast?_eq_none_iff.mp hl]
          | some e => simp [List.getLast?_cons, hl]

theorem foldl_join_currentWave (done : List WaveNode) :
    (done.foldl (join env) s).currentWave =
      ((done.flatMap fun n => (env.result n).listings).filter s.unvisited).foldl orInsert s.currentWave := by
  induction done generalizing s with
  | nil => rfl
  | cons node done ih =>
      rw [List.foldl_cons, ih, List.flatMap_cons, List.filter_append, List.foldl_append]
      rfl

/-- What the results of a wave leave alone or append to. -/
theorem foldl_join_frame (done : List WaveNode) :
    (done.foldl (join env) s).visited = s.visited ∧ (done.foldl (join env) s).seen = s.seen ∧
      (done.foldl (join env) s).guardErrors = s.guardErrors ++ done.flatMap (fun n => (env.result n).guardErrors) ∧
      (done.foldl (join env) s).skipped = s.skipped ++ done.flatMap (fun n => (env.result n).skipped) ∧
      (done.foldl (join env) s).failures =
        s.failures ++ (done.filter fun n => (env.result n).failed).map WaveNode.name := by
  induction done generalizing s with
  | nil => simp
  | cons node done ih =>
      obtain ⟨hvisited, hseen, hguard, hskipped, hfailures⟩ := ih (s := join env s node)
      simp only [List.foldl_cons, hvisited, hseen, hguard, hskipped, hfailures]
      refine ⟨rfl, rfl, by simp [join], by simp [join], ?_⟩
      cases hf : (env.result node).failed <;> simp [join, hf]

theorem walk_resolved (node : WaveNode) (name : Str) :
    (walk env s node).resolved name = (s.resolved name).or (if node.name = name then env.diskEntry name else none) := by
  unfold walk Env.diskEntry
  by_cases hname : node.name = name
  · subst hname
    cases hm : env.nodeModules node.name with
    | none => simp
    | some manifest => cases hv : manifest.version <;> simp [hv]
  · cases hm : env.nodeModules node.name with
    | none => simp [hname]
    | some manifest => cases hv : manifest.version <;> simp [hname, hv, Function.update_of_ne (Ne.symm hname)]

theorem foldl_walk_resolved (nodes : List WaveNode) (name : Str) :
    (nodes.foldl (walk env) s).resolved name =
      (s.resolved name).or (if name ∈ nodes.map WaveNode.name then env.diskEntry name else none) := by
  induction nodes generalizing s with
  | nil => simp
  | cons node nodes ih =>
      rw [List.foldl_cons, ih, walk_resolved]
      simp only [List.map_cons, List.mem_cons]
      by_cases hname : node.name = name
      · subst hname
        cases s.resolved node.name <;> cases env.diskEntry node.name <;> simp
      · simp [hname, Ne.symm hname]

theorem walk_currentWave (node : WaveNode) :
    (walk env s node).currentWave = s.currentWave ++ (env.diskListings node.name).filter s.unvisited := by
  unfold walk Env.diskListings
  cases env.nodeModules node.name <;> simp

/-- What a wave of installed packages leaves alone. -/
theorem walk_frame (node : WaveNode) :
    (walk env s node).visited = s.visited ∧ (walk env s node).seen = s.seen ∧
      (walk env s node).guardErrors = s.guardErrors ∧ (walk env s node).skipped = s.skipped ∧
      (walk env s node).failures = s.failures := by
  unfold walk
  cases env.nodeModules node.name <;> simp

theorem foldl_walk_frame (nodes : List WaveNode) :
    (nodes.foldl (walk env) s).visited = s.visited ∧ (nodes.foldl (walk env) s).seen = s.seen ∧
      (nodes.foldl (walk env) s).guardErrors = s.guardErrors ∧ (nodes.foldl (walk env) s).skipped = s.skipped ∧
      (nodes.foldl (walk env) s).failures = s.failures := by
  induction nodes generalizing s with
  | nil => simp
  | cons node nodes ih =>
      obtain ⟨hvisited, hseen, hguard, hskipped, hfailures⟩ := ih (s := walk env s node)
      rw [List.foldl_cons, hvisited, hseen, hguard, hskipped, hfailures]
      exact walk_frame node

theorem foldl_walk_currentWave (nodes : List WaveNode) :
    (nodes.foldl (walk env) s).currentWave =
      s.currentWave ++ (nodes.flatMap fun n => env.diskListings n.name).filter s.unvisited := by
  induction nodes generalizing s with
  | nil => simp
  | cons node nodes ih =>
      have hunvisited : (walk env s node).unvisited = s.unvisited := by
        funext n
        rw [unvisited, unvisited, (walk_frame node).1]
      rw [List.foldl_cons, ih, walk_currentWave, hunvisited, List.flatMap_cons, List.filter_append, List.append_assoc]

theorem find?_filter_unvisited {l : List WaveNode} {name : Str} (h : name ∉ s.visited) :
    (l.filter s.unvisited).find? (fun m => m.name = name) = l.find? fun m => m.name = name := by
  rw [List.find?_filter]
  congr 1
  funext m
  by_cases hm : m.name = name
  · simpa [unvisited, hm] using h
  · simp [hm]

/-! ## Steps -/

theorem needsFetch_eq_false (h : s.needsFetch env = []) {n : WaveNode} (hn : n ∈ s.wave env) :
    env.needsFetch n = false := by
  simpa using List.filter_eq_nil_iff.mp h n hn

/-- The two ways to take a wave. -/
inductive Taken (env : Env) (s : State) (o : Order) : State → Prop
  | installed (h : s.needsFetch env = []) : Taken env s o ((s.wave env).foldl (walk env) (s.enter env))
  | fetched (h : s.needsFetch env ≠ []) (hdone : o.done.Perm (s.needsFetch env))
      (hnext : o.next.Perm (o.done.foldl (join env) (s.enter env)).currentWave) :
      Taken env s o { o.done.foldl (join env) (s.enter env) with currentWave := o.next }

theorem step_cases (h : step env s o = some t) : s.wave env ≠ [] ∧ Taken env s o t := by
  unfold step at h
  split at h
  · cases h
  · rename_i hwave
    refine ⟨fun heq => hwave (by simp [heq]), ?_⟩
    split at h
    · rename_i hneeds
      rw [← Option.some.inj h]
      exact .installed (List.isEmpty_iff.mp hneeds)
    · rename_i hneeds
      simp only at h
      split at h
      · rename_i hperm
        rw [Bool.and_eq_true, List.isPerm_iff, List.isPerm_iff] at hperm
        rw [← Option.some.inj h]
        exact .fetched (fun heq => hneeds (by simp [heq])) hperm.1 hperm.2
      · cases h

theorem Taken.visited (h : Taken env s o t) : t.visited = (s.enter env).visited := by
  cases h with
  | installed _ => exact (foldl_walk_frame _).1
  | fetched _ _ _ => exact (foldl_join_frame _).1

theorem Taken.seen (h : Taken env s o t) : t.seen = s.seen ++ s.wave env := by
  cases h with
  | installed _ => exact (foldl_walk_frame _).2.1
  | fetched _ _ _ => exact (foldl_join_frame _).2.1

/-- The next wave holds nothing that was visited. -/
theorem Taken.unvisited (h : Taken env s o t) : ∀ n ∈ t.currentWave, n.name ∉ t.visited := by
  intro n hn
  rw [h.visited]
  cases h with
  | installed _ =>
      rw [foldl_walk_currentWave, enter, List.nil_append, List.mem_filter] at hn
      simpa [State.unvisited, enter] using hn.2
  | fetched _ _ hnext =>
      have hmem := hnext.mem_iff.mp hn
      rw [foldl_join_currentWave, mem_foldl_orInsert] at hmem
      have hfound := List.mem_of_find?_eq_some (hmem.resolve_left (by simp [enter])).2
      simpa [State.unvisited] using (List.mem_filter.mp hfound).2

/-- So the waves drop nothing: every node is looked at with its override. -/
theorem wave_eq (h : ∀ n ∈ s.currentWave, n.name ∉ s.visited) : s.wave env = s.currentWave.map env.overridden := by
  apply congrArg (List.map env.overridden) (List.filter_eq_self.mpr fun n hn => ?_)
  simp [h n hn]

end State

end ThreeVa.Pm.Install
