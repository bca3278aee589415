import Mathlib.Data.List.Dedup
import Mathlib.Logic.Function.Iterate
import ThreeVa.Lib.Entries
import ThreeVa.Lib.Text
import ThreeVa.Lib.Dag

/-!
# The graph of a workspace

`WorkspaceGraph` of `pm/src/workspace_v2.rs`: how it is built from the manifests of the members, and the order in which
Kahn's algorithm lists them. Hash maps and sets are lists in the order their iterators give.
-/

namespace ThreeVa.Workspace
open Text Entries

/-- A set of names, in the order its iterator gives. -/
structure Names where
  list : List Str
  distinct : list.Nodup

/-- A member with the path of its directory and what its `package.json` says; a range that is no string is `none`. -/
structure WorkspacePackage where
  name : Str
  path : Str
  dependencies : Entries Str (Option Str)
  devDependencies : Entries Str (Option Str)
  peerDependencies : Entries Str (Option Str)
  /-- The scripts it defines. -/
  scripts : List Str

/-- Members and edges: there is a set of edges for each member, and they lead to members. -/
structure WorkspaceGraph where
  packages : Entries Str WorkspacePackage
  edges : Entries Str Names
  keyed : ∀ name, name ∈ edges.list.map Prod.fst ↔ name ∈ packages.list.map Prod.fst
  members : ∀ e ∈ edges.list, ∀ dep ∈ e.2.list, dep ∈ packages.list.map Prod.fst

namespace WorkspaceGraph

variable (g : WorkspaceGraph)

def names : List Str := g.packages.list.map Prod.fst

/-- `graph.edges.get(name)`, nothing if there is no entry. -/
def deps (name : Str) : List Str := ((g.edges.list.find? fun e => e.1 = name).map fun e => e.2.list).getD []

/-- `name` depends on `dep`. -/
def Edge (name dep : Str) : Prop := dep ∈ g.deps name

/-! ## Building -/

/-- The ranges that link to a member: `workspace:…` and `*`. -/
def isLocalRange (range : Option Str) : Bool :=
  let ver := range.getD []
  "workspace:".toList.isPrefixOf ver || ver = ['*']

def localDeps (nameSet : List Str) (pkg : WorkspacePackage) : Names where
  list := (((pkg.dependencies.list ++ pkg.devDependencies.list ++ pkg.peerDependencies.list).filter
    fun d => isLocalRange d.2 && d.1 ∈ nameSet).map Prod.fst).dedup
  distinct := List.nodup_dedup _

theorem mem_localDeps {nameSet : List Str} {pkg : WorkspacePackage} {dep : Str} (h : dep ∈ (localDeps nameSet pkg).list) :
    dep ∈ nameSet := by
  obtain ⟨d, hd, rfl⟩ := List.mem_map.mp (List.mem_dedup.mp h)
  have hfilter := (List.mem_filter.mp hd).2
  rw [Bool.and_eq_true, decide_eq_true_eq] at hfilter
  exact hfilter.2

/-- The last of several packages of one name counts. -/
def build (packages : List WorkspacePackage) : WorkspaceGraph where
  packages := collect WorkspacePackage.name id packages .empty
  edges := collect WorkspacePackage.name (localDeps (packages.map WorkspacePackage.name)) packages .empty
  keyed := fun name => by rw [mem_keys_collect, mem_keys_collect]; rfl
  members := by
    intro e he dep hdep
    rw [mem_keys_collect]
    rcases mem_collect he with h | ⟨pkg, -, rfl⟩
    · simp [Entries.empty] at h
    · exact .inr (mem_localDeps hdep)

/-! ## Topological order -/

/-- `in_degree` and `rev`. -/
structure Counts where
  inDegree : Str → Nat
  rev : Str → List Str

/-- One edge, from `pkg` to `dep`. -/
def Counts.addEdge (c : Counts) (pkg dep : Str) : Counts where
  inDegree := Function.update c.inDegree pkg (c.inDegree pkg + 1)
  rev := Function.update c.rev dep (c.rev dep ++ [pkg])

def counts : Counts :=
  g.edges.list.foldl (fun c e => e.2.list.foldl (fun c dep => c.addEdge e.1 dep) c) ⟨fun _ => 0, fun _ => []⟩

def sortNames (l : List Str) : List Str := sortBy compare l

/-- The loop of Kahn's algorithm. -/
structure Kahn where
  inDegree : Str → Nat
  queue : List Str
  order : List Str

namespace Kahn

/-- A dependent of the package taken from the queue. -/
def release (k : Kahn) (dep : Str) : Kahn :=
  let d := k.inDegree dep - 1
  { k with
    inDegree := Function.update k.inDegree dep d
    queue := if d = 0 then k.queue ++ [dep] else k.queue }

/-- One round; nothing changes once the queue is empty. -/
def step (rev : Str → List Str) (k : Kahn) : Kahn :=
  match k.queue with
  | [] => k
  | pkg :: queue => (sortNames (rev pkg)).foldl release { k with queue, order := k.order ++ [pkg] }

end Kahn

def kahnStart : Kahn where
  inDegree := g.counts.inDegree
  queue := sortNames (g.names.filter fun n => g.counts.inDegree n = 0)
  order := []

/-- The loop, after at most as many rounds as there are packages. -/
def kahn : Kahn := (Kahn.step g.counts.rev)^[g.names.length] g.kahnStart

def topologicalOrder : Except Str (List Str) :=
  if g.kahn.order.length ≠ g.names.length then .error "Workspace has cyclic dependencies".toList else .ok g.kahn.order

end WorkspaceGraph

end ThreeVa.Workspace

/-! Kahn's algorithm on the graph of a workspace: what every round keeps, and what is left when the queue is empty. -/

namespace ThreeVa.Workspace
open Text Entries

namespace WorkspaceGraph

variable (g : WorkspaceGraph)

/-! ## Edges -/

theorem find?_edge {es : List (Str × Names)} (hes : (es.map Prod.fst).Nodup) {e : Str × Names} (he : e ∈ es) :
    es.find? (fun x => x.1 = e.1) = some e := by
  induction es with
  | nil => cases he
  | cons x es ih =>
      rw [List.map_cons, List.nodup_cons] at hes
      rcases List.mem_cons.mp he with rfl | he
      · simp
      · have hne : x.1 ≠ e.1 := fun h => hes.1 (h ▸ List.mem_map_of_mem he)
        rw [List.find?_cons_of_neg (by simpa using hne)]
        exact ih hes.2 he

theorem deps_eq {e : Str × Names} (he : e ∈ g.edges.list) : g.deps e.1 = e.2.list := by
  unfold deps
  rw [find?_edge g.edges.distinct he]
  rfl

theorem mem_deps {name dep : Str} : dep ∈ g.deps name ↔ ∃ e ∈ g.edges.list, e.1 = name ∧ dep ∈ e.2.list := by
  constructor
  · intro h
    unfold deps at h
    cases hfind : g.edges.list.find? (fun e => e.1 = name) with
    | none => simp [hfind] at h
    | some e =>
        rw [hfind] at h
        exact ⟨e, List.mem_of_find?_eq_some hfind, by simpa using List.find?_some hfind, h⟩
  · rintro ⟨e, he, rfl, hdep⟩
    rwa [g.deps_eq he]

theorem deps_nodup (name : Str) : (g.deps name).Nodup := by
  unfold deps
  cases g.edges.list.find? fun e => e.1 = name with
  | none => exact List.nodup_nil
  | some e => exact e.2.distinct

theorem Edge.member {g : WorkspaceGraph} {name dep : Str} (h : g.Edge name dep) : name ∈ g.names ∧ dep ∈ g.names := by
  obtain ⟨e, he, rfl, hdep⟩ := g.mem_deps.mp h
  exact ⟨(g.keyed e.1).mp (List.mem_map_of_mem he), g.members e he dep hdep⟩

theorem names_nodup : g.names.Nodup := g.packages.distinct

/-! ## Degrees -/

theorem foldl_addEdge (pkg : Str) {l : List Str} (hl : l.Nodup) (c : Counts) :
    (∀ n, (l.foldl (fun c dep => c.addEdge pkg dep) c).inDegree n = c.inDegree n + if n = pkg then l.length else 0) ∧
      ∀ d, (l.foldl (fun c dep => c.addEdge pkg dep) c).rev d = c.rev d ++ if d ∈ l then [pkg] else [] := by
  induction l generalizing c with
  | nil => simp
  | cons dep l ih =>
      rw [List.nodup_cons] at hl
      obtain ⟨hdegree, hrev⟩ := ih hl.2 (c.addEdge pkg dep)
      refine ⟨fun n => ?_, fun d => ?_⟩
      · rw [List.foldl_cons, hdegree]
        by_cases hn : n = pkg
        · subst hn
          simp [Counts.addEdge]
          omega
        · simp [Counts.addEdge, hn]
      · rw [List.foldl_cons, hrev]
        by_cases hd : d = dep
        · subst hd
          simp [Counts.addEdge, hl.1]
        · simp [Counts.addEdge, hd]

theorem foldl_addEdges {es : List (Str × Names)} (hes : (es.map Prod.fst).Nodup) (c : Counts) :
    (∀ n, (es.foldl (fun c e => e.2.list.foldl (fun c dep => c.addEdge e.1 dep) c) c).inDegree n =
        c.inDegree n + (((es.find? fun e => e.1 = n).map fun e => e.2.list).getD []).length) ∧
      ∀ d, (es.foldl (fun c e => e.2.list.foldl (fun c dep => c.addEdge e.1 dep) c) c).rev d =
        c.rev d ++ (es.filter fun e => d ∈ e.2.list).map Prod.fst := by
  induction es generalizing c with
  | nil => simp
  | cons e es ih =>
      rw [List.map_cons, List.nodup_cons] at hes
      obtain ⟨hdegree, hrev⟩ := ih hes.2 (e.2.list.foldl (fun c dep => c.addEdge e.1 dep) c)
      obtain ⟨hdegree₁, hrev₁⟩ := foldl_addEdge e.1 e.2.distinct c
      refine ⟨fun n => ?_, fun d => ?_⟩
      · rw [List.foldl_cons, hdegree, hdegree₁]
        by_cases hn : e.1 = n
        · subst hn
          have hnone : es.find? (fun x => x.1 = e.1) = none := by
            rw [List.find?_eq_none]
            intro x hx
            have hne : x.1 ≠ e.1 := fun h => hes.1 (h ▸ List.mem_map_of_mem hx)
            simpa using hne
          simp [hnone]
        · simp [hn, Ne.symm hn]
      · rw [List.foldl_cons, hrev, hrev₁]
        by_cases hd : d ∈ e.2.list
        · simp [hd]
        · simp [hd]

theorem inDegree_counts (n : Str) : g.counts.inDegree n = (g.deps n).length := by
  simp [counts, (foldl_addEdges g.edges.distinct _).1, deps]

theorem rev_counts (d : Str) : g.counts.rev d = (g.edges.list.filter fun e => d ∈ e.2.list).map Prod.fst := by
  simp [counts, (foldl_addEdges g.edges.distinct _).2]

theorem mem_rev {n d : Str} : n ∈ g.counts.rev d ↔ d ∈ g.deps n := by
  simp only [rev_counts, List.mem_map, List.mem_filter, decide_eq_true_eq, mem_deps]
  constructor
  · rintro ⟨e, ⟨he, hd⟩, rfl⟩
    exact ⟨e, he, rfl, hd⟩
  · rintro ⟨e, he, rfl, hd⟩
    exact ⟨e, ⟨he, hd⟩, rfl⟩

theorem rev_nodup (d : Str) : (g.counts.rev d).Nodup := by
  rw [rev_counts]
  exact g.edges.distinct.sublist (List.filter_sublist.map _)

/-! ## Rounds -/

theorem mem_sortNames {l : List Str} {n : Str} : n ∈ sortNames l ↔ n ∈ l := mem_sortBy

theorem sortNames_perm (l : List Str) : (sortNames l).Perm l := List.perm_insertionSort _ l

theorem sortNames_nodup {l : List Str} (h : l.Nodup) : (sortNames l).Nodup := (sortNames_perm l).nodup_iff.mpr h

theorem foldl_release {l : List Str} (hl : l.Nodup) (k : Kahn) :
    (∀ n, (l.foldl Kahn.release k).inDegree n = if n ∈ l then k.inDegree n - 1 else k.inDegree n) ∧
      (l.foldl Kahn.release k).queue = k.queue ++ l.filter (fun n => k.inDegree n - 1 = 0) ∧
      (l.foldl Kahn.release k).order = k.order := by
  induction l generalizing k with
  | nil => simp
  | cons dep l ih =>
      rw [List.nodup_cons] at hl
      obtain ⟨hdegree, hqueue, horder⟩ := ih hl.2 (k.release dep)
      refine ⟨fun n => ?_, ?_, horder⟩
      · rw [List.foldl_cons, hdegree]
        by_cases hn : n = dep
        · subst hn
          simp [Kahn.release, hl.1]
        · simp [Kahn.release, hn]
      · rw [List.foldl_cons, hqueue]
        have hrest : (l.filter fun n => (k.release dep).inDegree n - 1 = 0) = l.filter fun n => k.inDegree n - 1 = 0 := by
          apply List.filter_congr
          intro n hn
          have hne : n ≠ dep := fun h => hl.1 (h ▸ hn)
          simp [Kahn.release, hne]
        rw [hrest, List.filter_cons]
        by_cases hd : k.inDegree dep - 1 = 0
        · simp [Kahn.release, hd]
        · simp [Kahn.release, hd]

/-- Between rounds: a degree counts the dependencies that are not listed yet, and the queue holds the packages that have
none. -/
structure KahnInv (k : Kahn) : Prop where
  nodup : (k.order ++ k.queue).Nodup
  degree : ∀ n, k.inDegree n = (g.deps n).countP (· ∉ k.order)
  settled : ∀ n, n ∈ k.order ++ k.queue ↔ n ∈ g.names ∧ ∀ d ∈ g.deps n, d ∈ k.order
  ordered : Dag.Ordered g.Edge k.order

theorem kahnInv_start : g.KahnInv g.kahnStart where
  nodup := sortNames_nodup (g.names_nodup.filter _)
  degree := by
    intro n
    simp [kahnStart, inDegree_counts]
  settled := by
    intro n
    simp [kahnStart, mem_sortNames, inDegree_counts, List.eq_nil_iff_forall_not_mem]
  ordered := Dag.ordered_nil

theorem countP_concat {l order : List Str} (hl : l.Nodup) {pkg : Str} (hpkg : pkg ∉ order) :
    l.countP (· ∉ order ++ [pkg]) = if pkg ∈ l then l.countP (· ∉ order) - 1 else l.countP (· ∉ order) := by
  induction l with
  | nil => simp
  | cons d l ih =>
      rw [List.nodup_cons] at hl
      rw [List.countP_cons, List.countP_cons, ih hl.2]
      by_cases hd : d = pkg
      · subst hd
        simp [hl.1, hpkg]
      · by_cases hmem : pkg ∈ l
        · have hpos : 0 < l.countP (· ∉ order) := List.countP_pos_iff.mpr ⟨pkg, hmem, by simpa using hpkg⟩
          by_cases hin : d ∈ order
          · simp [hmem, hin]
          · have hnew : d ∉ order ++ [pkg] := by simp [hin, hd]
            simp only [hmem, List.mem_cons, or_true, ↓reduceIte, hin, hnew, not_false_eq_true, decide_true]
            omega
        · simp [hmem, hd, Ne.symm hd]

variable {g}

theorem KahnInv.step {k : Kahn} (h : g.KahnInv k) : g.KahnInv (k.step g.counts.rev) := by
  unfold Kahn.step
  cases hqueue : k.queue with
  | nil => simpa [hqueue] using h
  | cons pkg queue =>
      have hnodup := h.nodup
      rw [hqueue] at hnodup
      have hpkg : pkg ∉ k.order := fun hmem => List.disjoint_of_nodup_append hnodup hmem List.mem_cons_self
      have hdone := (h.settled pkg).mp (by simp [hqueue])
      obtain ⟨hdegree, hqueue', horder⟩ :=
        foldl_release (sortNames_nodup (g.rev_nodup pkg)) { k with queue, order := k.order ++ [pkg] }
      have hcount : ∀ n, (g.deps n).countP (· ∉ k.order ++ [pkg]) =
          if n ∈ sortNames (g.counts.rev pkg) then k.inDegree n - 1 else k.inDegree n := by
        intro n
        rw [countP_concat (g.deps_nodup n) hpkg, h.degree]
        simp only [mem_sortNames, mem_rev]
      -- a dependent that is released now was not settled before
      have hnew : ∀ n, pkg ∈ g.deps n → n ∉ k.order ++ pkg :: queue := by
        intro n hn hmem
        rw [← hqueue] at hmem
        exact hpkg (((h.settled n).mp hmem).2 pkg hn)
      have hzero : ∀ n, (g.deps n).countP (· ∉ k.order ++ [pkg]) = 0 ↔ ∀ d ∈ g.deps n, d ∈ k.order ++ [pkg] := by
        intro n
        simp only [List.countP_eq_zero, decide_eq_true_eq, not_not]
      refine ⟨?_, fun n => ?_, fun n => ?_, ?_⟩
      · rw [hqueue', horder]
        have hbefore : (k.order ++ [pkg] ++ queue).Nodup := by simpa using hnodup
        rw [← List.append_assoc, List.nodup_append]
        refine ⟨hbefore, (sortNames_nodup (g.rev_nodup pkg)).filter _, ?_⟩
        intro a ha b hb heq
        have hdep := g.mem_rev.mp (mem_sortNames.mp (List.mem_filter.mp hb).1)
        exact hnew b hdep (by simpa [heq] using ha)
      · rw [hdegree, horder, hcount]
      · rw [hqueue', horder, ← List.append_assoc, List.mem_append, List.mem_filter, decide_eq_true_eq, mem_sortNames,
          mem_rev]
        have hbefore : n ∈ k.order ++ [pkg] ++ queue ↔ n ∈ g.names ∧ ∀ d ∈ g.deps n, d ∈ k.order := by
          rw [← h.settled, hqueue]
          simp
        rw [hbefore]
        by_cases hn : pkg ∈ g.deps n
        · have hnot : ¬ ∀ d ∈ g.deps n, d ∈ k.order := fun hall => hpkg (hall pkg hn)
          have hz := hzero n
          rw [hcount, if_pos (mem_sortNames.mpr (g.mem_rev.mpr hn))] at hz
          have hmember : n ∈ g.names := (Edge.member hn).1
          simp only [hnot, and_false, hn, true_and, false_or, hz, hmember]
        · have hall : (∀ d ∈ g.deps n, d ∈ k.order ++ [pkg]) ↔ ∀ d ∈ g.deps n, d ∈ k.order := by
            refine forall₂_congr fun d hd => ?_
            have hne : d ≠ pkg := fun heq => hn (heq ▸ hd)
            simp [hne]
          simp only [hn, false_and, or_false, hall]
      · rw [horder]
        exact h.ordered.concat hdone.2

/-- The loop has ended, or has listed a package in every round. -/
theorem kahn_progress (m : Nat) :
    g.KahnInv ((Kahn.step g.counts.rev)^[m] g.kahnStart) ∧
      (((Kahn.step g.counts.rev)^[m] g.kahnStart).queue = [] ∨
        ((Kahn.step g.counts.rev)^[m] g.kahnStart).order.length = m) := by
  induction m with
  | zero => exact ⟨g.kahnInv_start, .inr rfl⟩
  | succ m ih =>
      rw [Function.iterate_succ_apply']
      obtain ⟨hinv, hprogress⟩ := ih
      generalize (Kahn.step g.counts.rev)^[m] g.kahnStart = k at hinv hprogress
      refine ⟨hinv.step, ?_⟩
      unfold Kahn.step
      cases hqueue : k.queue with
      | nil => exact .inl (by simpa using hqueue)
      | cons pkg queue =>
          right
          have hlength := hprogress.resolve_left (by simp [hqueue])
          rw [(foldl_release (sortNames_nodup (g.rev_nodup pkg)) _).2.2]
          simp [hlength]

theorem KahnInv.subset {k : Kahn} (h : g.KahnInv k) {n : Str} (hn : n ∈ k.order) : n ∈ g.names :=
  ((h.settled n).mp (List.mem_append_left _ hn)).1

theorem kahn_done : g.KahnInv g.kahn ∧ g.kahn.queue = [] := by
  obtain ⟨hinv, hprogress⟩ := kahn_progress (g := g) g.names.length
  refine ⟨hinv, hprogress.elim id fun hlength => ?_⟩
  have hsub : g.kahn.order ++ g.kahn.queue ⊆ g.names := fun n hn => ((hinv.settled n).mp hn).1
  have hlisted : g.kahn.order.length = g.names.length := hlength
  have hle : g.kahn.order.length + g.kahn.queue.length ≤ g.names.length := by
    rw [← List.length_append]
    exact (List.subperm_of_subset hinv.nodup hsub).length_le
  exact List.length_eq_zero_iff.mp (by omega)

theorem mem_order_iff (n : Str) : n ∈ g.kahn.order ↔ n ∈ g.names ∧ ∀ d ∈ g.deps n, d ∈ g.kahn.order := by
  obtain ⟨hinv, hqueue⟩ := kahn_done (g := g)
  simpa [hqueue] using hinv.settled n

theorem order_nodup : g.kahn.order.Nodup := by
  obtain ⟨hinv, hqueue⟩ := kahn_done (g := g)
  simpa [hqueue] using hinv.nodup

theorem length_order_iff : g.kahn.order.length = g.names.length ↔ g.kahn.order.Perm g.names := by
  refine ⟨fun h => ?_, List.Perm.length_eq⟩
  have hsub : g.kahn.order ⊆ g.names := fun n hn => ((mem_order_iff n).mp hn).1
  exact (List.subperm_of_subset order_nodup hsub).perm_of_length_le h.ge

/-- Packages that are left over need each other. -/
theorem order_perm_of_acyclic (h : Dag.Acyclic g.Edge) : g.kahn.order.Perm g.names := by
  have hall : ∀ n ∈ g.names, n ∈ g.kahn.order := by
    by_contra hleft
    obtain ⟨n₀, hn₀, hn₀'⟩ : ∃ n ∈ g.names, n ∉ g.kahn.order := by simpa using hleft
    have hne : g.names.filter (· ∉ g.kahn.order) ≠ [] :=
      List.ne_nil_of_mem (List.mem_filter.mpr ⟨hn₀, by simpa using hn₀'⟩)
    obtain ⟨n, hn, hfree⟩ := h.exists_free hne
    rw [List.mem_filter, decide_eq_true_eq] at hn
    apply hn.2 ((mem_order_iff n).mpr ⟨hn.1, fun d hd => ?_⟩)
    by_contra hd'
    exact hfree d (List.mem_filter.mpr ⟨(Edge.member hd).2, by simpa using hd'⟩) hd
  exact (List.perm_ext_iff_of_nodup order_nodup g.names_nodup).mpr
    fun n => ⟨fun hn => ((mem_order_iff n).mp hn).1, hall n⟩

theorem acyclic_of_order_perm (h : g.kahn.order.Perm g.names) : Dag.Acyclic g.Edge :=
  kahn_done.1.ordered.acyclic fun _ _ hab => h.mem_iff.mpr (Edge.member hab).1

theorem topologicalOrder_eq_ok {order : List Str} :
    g.topologicalOrder = .ok order ↔ g.kahn.order.Perm g.names ∧ g.kahn.order = order := by
  rw [← length_order_iff]
  unfold topologicalOrder
  by_cases hlength : g.kahn.order.length = g.names.length
  · simp [hlength]
  · simp [hlength]

/-! ## Iteration orders -/

/-- The same members and edges, whatever the order of the iterators. -/
structure SameMaps (g g' : WorkspaceGraph) : Prop where
  names : ∀ n, n ∈ g.names ↔ n ∈ g'.names
  edges : ∀ n d, g.Edge n d ↔ g'.Edge n d

theorem sortNames_eq_of_perm {l l' : List Str} (h : l.Perm l') : sortNames l = sortNames l' := by
  apply sortBy_eq_of_perm h
  intro a _ b _ heq
  exact Std.LawfulEqCmp.eq_of_compare heq

variable {g' : WorkspaceGraph}

theorem SameMaps.deps_perm (h : SameMaps g g') (n : Str) : (g.deps n).Perm (g'.deps n) :=
  (List.perm_ext_iff_of_nodup (g.deps_nodup n) (g'.deps_nodup n)).mpr (h.edges n)

theorem SameMaps.names_perm (h : SameMaps g g') : g.names.Perm g'.names :=
  (List.perm_ext_iff_of_nodup g.names_nodup g'.names_nodup).mpr h.names

theorem SameMaps.inDegree (h : SameMaps g g') : g.counts.inDegree = g'.counts.inDegree := by
  funext n
  rw [inDegree_counts, inDegree_counts, (h.deps_perm n).length_eq]

theorem SameMaps.rev (h : SameMaps g g') (d : Str) : sortNames (g.counts.rev d) = sortNames (g'.counts.rev d) := by
  apply sortNames_eq_of_perm
  rw [List.perm_ext_iff_of_nodup (g.rev_nodup d) (g'.rev_nodup d)]
  intro n
  rw [mem_rev, mem_rev]
  exact h.edges n d

theorem SameMaps.kahn (h : SameMaps g g') : g.kahn = g'.kahn := by
  have hstart : g.kahnStart = g'.kahnStart := by
    unfold kahnStart
    rw [h.inDegree, sortNames_eq_of_perm (h.names_perm.filter _)]
  have hstep : Kahn.step g.counts.rev = Kahn.step g'.counts.rev := by
    funext k
    unfold Kahn.step
    cases k.queue with
    | nil => rfl
    | cons pkg queue => simp only [h.rev pkg]
  unfold WorkspaceGraph.kahn
  rw [hstart, hstep, h.names_perm.length_eq]

end WorkspaceGraph

end ThreeVa.Workspace
