import Mathlib.Data.Finset.Card
import Mathlib.Data.Prod.Lex
import Mathlib.Data.Set.Finite.Basic
import ThreeVa.Lib.Runs
import ThreeVa.Pm.Lemmas.Order

/-! The worklist of the resolver: what one iteration does, what its cache holds, why it ends and what it requests. -/

namespace ThreeVa.Pm
open Text Entries

/-! ## The cache -/

/-- The versions of a name that a call can see: those in the cache before it, else those the registry answers. -/
def published (registry : Registry) (cache : Cache) (name : Str) : Option (List DependencyNode) :=
  (cache.get name).or (fetch registry name)

theorem published_of_uncached {registry : Registry} {cache : Cache} {name : Str} (h : cache.get name = none) :
    published registry cache name = fetch registry name := by
  rw [published, h, Option.none_or]

namespace Cache

/-- What the cache holds of a name is what is published of it, repetitions and order aside. -/
def Faithful (registry : Registry) (cache c : Cache) : Prop :=
  ∀ name nodes, c.get name = some nodes →
    ∃ all, published registry cache name = some all ∧ ∀ node, node ∈ nodes ↔ node ∈ all

variable {registry : Registry} {cache c : Cache}

theorem await_of_failed {name : Str} (h : fetch registry name = none) : c.await registry name = c := by
  unfold await
  split
  · rfl
  · simp_all

theorem await_get_self {name : Str} {nodes : List DependencyNode} (h : fetch registry name = some nodes) :
    (c.await registry name).get name = some ((c.get name).getD [] ++ nodes) := by
  unfold await
  split
  · simp_all
  · rename_i heq
    obtain rfl := Option.some.inj (h.symm.trans heq)
    simp [extend]

theorem await_get_of_ne {name m : Str} (h : m ≠ name) : (c.await registry name).get m = c.get m := by
  unfold await
  split
  · rfl
  · simp [extend, h]

theorem Faithful.await (hc : Faithful registry cache c) {name : Str} (hname : cache.get name = none) :
    Faithful registry cache (c.await registry name) := by
  intro m nodes hm
  by_cases heq : m = name
  · subst heq
    cases hf : fetch registry m with
    | none => exact hc m nodes (await_of_failed (c := c) hf ▸ hm)
    | some all =>
        refine ⟨all, by rw [published_of_uncached hname, hf], fun node => ?_⟩
        rw [await_get_self hf, Option.some.injEq] at hm
        rw [← hm, List.mem_append]
        refine ⟨fun h => h.elim (fun hold => ?_) id, .inr⟩
        cases hget : c.get m with
        | none => simp [hget] at hold
        | some old =>
            obtain ⟨all', hall', hiff⟩ := hc m old hget
            rw [published_of_uncached hname, hf, Option.some.injEq] at hall'
            exact hall' ▸ (hiff node).mp (by simpa [hget] using hold)
  · exact hc m nodes (await_get_of_ne (c := c) heq ▸ hm)

theorem Faithful.foldl_await {names : List Str} (hc : Faithful registry cache c)
    (hnames : ∀ n ∈ names, cache.get n = none) : Faithful registry cache (names.foldl (Cache.await registry) c) := by
  induction names generalizing c with
  | nil => exact hc
  | cons n names ih => exact ih (hc.await (hnames n (by simp))) fun m hm => hnames m (by simp [hm])

theorem foldl_await_get_of_not_mem {names : List Str} {m : Str} (h : m ∉ names) :
    (names.foldl (Cache.await registry) c).get m = c.get m := by
  induction names generalizing c with
  | nil => rfl
  | cons n names ih =>
      rw [List.mem_cons, not_or] at h
      rw [List.foldl_cons, ih h.2, await_get_of_ne h.1]

theorem get_isSome_of_await {m n : Str} (h : (c.get m).isSome) : ((c.await registry n).get m).isSome := by
  by_cases heq : m = n
  · subst heq
    cases hf : fetch registry m with
    | none => rwa [await_of_failed hf]
    | some nodes => simp [await_get_self hf]
  · rwa [await_get_of_ne heq]

theorem get_isSome_of_foldl_await {names : List Str} {m : Str} (h : (c.get m).isSome) :
    ((names.foldl (Cache.await registry) c).get m).isSome := by
  induction names generalizing c with
  | nil => exact h
  | cons n names ih => exact ih (get_isSome_of_await h)

/-- Of a name that was requested the cache holds nothing only if the request failed. -/
theorem fetch_eq_none_of_foldl_await {names : List Str} {m : Str} (hm : m ∈ names)
    (h : (names.foldl (Cache.await registry) c).get m = none) : fetch registry m = none := by
  induction names generalizing c with
  | nil => cases hm
  | cons n names ih =>
      rcases List.mem_cons.mp hm with rfl | hm
      · by_contra hne
        obtain ⟨nodes, hnodes⟩ := Option.ne_none_iff_exists'.mp hne
        have hsome : ((c.await registry m).get m).isSome := by simp [await_get_self hnodes]
        have hkept : ((names.foldl (Cache.await registry) (c.await registry m)).get m).isSome :=
          get_isSome_of_foldl_await hsome
        rw [List.foldl_cons] at h
        simp [h] at hkept
      · exact ih hm h

end Cache

/-! ## One iteration -/

theorem mem_pushAll_descending {deps : DepMap} {item : Str × Str} {rest : List (Str × Str)} :
    item ∈ pushAll (descending deps) rest ↔ item ∈ deps.list ∨ item ∈ rest := by
  simp [pushAll, descending]

namespace Resolution

variable {registry : Registry} {s : Resolution} {item : Str × Str} {rest : List (Str × Str)}

theorem unknown_iff : s.unknown item = true ↔
    s.graph.resolvedVersions item.1 = none ∧ s.cache.get item.1 = none ∧ item.1 ∉ s.fetched := by
  simp [unknown, and_assoc]

theorem fetchBatch_stack : (s.fetchBatch registry item rest).stack = item :: rest := by
  simp [fetchBatch, pushAll]

/-- The entries that a fetch starting now takes along. -/
def batch (s : Resolution) : List (Str × Str) := s.stack.takeWhile s.unknown

theorem batch_eq (hstack : s.stack = item :: rest) (h : s.unknown item = true) :
    s.batch = item :: rest.takeWhile s.unknown := by
  rw [batch, hstack, List.takeWhile_cons_of_pos h]

theorem unknown_of_mem_batch (h : item ∈ s.batch) : s.unknown item = true := List.mem_takeWhile_imp h

/-- What an iteration does with the entry it pops. -/
inductive Popped (registry : Registry) (s : Resolution) (item : Str × Str) (rest : List (Str × Str)) : Resolution → Prop
  | resolved (h : (s.graph.resolvedVersions item.1).isSome) : Popped registry s item rest (s.skip item rest)
  | accepted {nodes : List DependencyNode} {best : DependencyNode} (h : s.graph.resolvedVersions item.1 = none)
      (hcached : s.cache.get item.1 = some nodes) (hbest : findBestMatch nodes item.2 = some best) :
      Popped registry s item rest (s.accept item rest best)
  | unsatisfied {nodes : List DependencyNode} (h : s.graph.resolvedVersions item.1 = none)
      (hcached : s.cache.get item.1 = some nodes) (hbest : findBestMatch nodes item.2 = none) :
      Popped registry s item rest (s.skip item rest)
  | failed (h : s.graph.resolvedVersions item.1 = none) (hcached : s.cache.get item.1 = none)
      (hfetched : item.1 ∈ s.fetched) : Popped registry s item rest (s.skip item rest)
  | fetched (h : s.unknown item = true) : Popped registry s item rest (s.fetchBatch registry item rest)

theorem step_cases (hstack : s.stack = item :: rest) : Popped registry s item rest (s.step registry) := by
  obtain ⟨name, version⟩ := item
  simp only [step, hstack]
  cases hr : s.graph.resolvedVersions name with
  | some v =>
      have hsome : (s.graph.resolvedVersions name).isSome := by simp [hr]
      simpa [hr] using Popped.resolved hsome
  | none =>
      cases hc : s.cache.get name with
      | none =>
          by_cases hf : name ∈ s.fetched
          · simpa [hf] using Popped.failed hr hc hf
          · simpa [hf] using Popped.fetched (unknown_iff.mpr ⟨hr, hc, hf⟩)
      | some nodes =>
          cases hb : findBestMatch nodes version with
          | none => simpa [hb] using Popped.unsatisfied hr hc hb
          | some best => simpa [hb] using Popped.accepted hr hc hb

theorem step_of_stack_nil (h : s.stack = []) : s.step registry = s := by
  rw [step, h]

/-- What holds before an iteration holds after it if every way to treat the popped entry keeps it. -/
theorem step_rule {P : Resolution → Prop} (h : P s)
    (hpop : ∀ item rest, s.stack = item :: rest → ∀ s', Popped registry s item rest s' → P s') :
    P (s.step registry) := by
  cases hstack : s.stack with
  | nil => rwa [step_of_stack_nil hstack]
  | cons item rest => exact hpop item rest hstack _ (step_cases hstack)

theorem run_rule {P : Resolution → Prop} {cache : Cache} {deps : DepMap} (hstart : P (start cache deps))
    (hstep : ∀ s, P s → P (s.step registry)) (n : Nat) : P (run registry cache deps n) :=
  Function.Iterate.rec P hstart hstep n

/-! ## Consistency -/

/-- The cache and the requests of a call that started with `cache`. -/
structure Consistent (registry : Registry) (cache : Cache) (s : Resolution) : Prop where
  faithful : Cache.Faithful registry cache s.cache
  /-- A requested name without a cache entry is one whose request failed. -/
  failed : ∀ n ∈ s.fetched, s.cache.get n = none → published registry cache n = none
  unfetched : ∀ n, n ∉ s.fetched → s.cache.get n = cache.get n
  requested : ∀ n, n ∈ s.requests ↔ n ∈ s.fetched

variable {cache : Cache} {deps : DepMap}

theorem consistent_start : Consistent registry cache (start cache deps) where
  faithful := by
    intro name nodes h
    change cache.get name = some nodes at h
    exact ⟨nodes, by simp [published, h], fun _ => .rfl⟩
  failed := by simp [start]
  unfetched := fun _ _ => rfl
  requested := by simp [start]

/-- The other steps leave the cache and the requests alone. -/
theorem Consistent.frame {s' : Resolution} (h : Consistent registry cache s) (hcache : s'.cache = s.cache)
    (hfetched : s'.fetched = s.fetched) (hrequests : s'.requests = s.requests) : Consistent registry cache s' where
  faithful := hcache ▸ h.faithful
  failed := by rw [hfetched, hcache]; exact h.failed
  unfetched := by rw [hfetched, hcache]; exact h.unfetched
  requested := by rw [hfetched, hrequests]; exact h.requested

theorem Consistent.uncached (h : Consistent registry cache s) (hunknown : s.unknown item = true) :
    cache.get item.1 = none := by
  obtain ⟨-, hc, hf⟩ := unknown_iff.mp hunknown
  rw [← h.unfetched item.1 hf, hc]

theorem mem_batch_names (hunknown : s.unknown item = true) {n : Str}
    (hn : n ∈ (item :: rest.takeWhile s.unknown).map Prod.fst) : ∃ i : Str × Str, s.unknown i = true ∧ i.1 = n := by
  obtain ⟨i, hi, rfl⟩ := List.mem_map.mp hn
  rcases List.mem_cons.mp hi with rfl | hi
  · exact ⟨i, hunknown, rfl⟩
  · exact ⟨i, List.mem_takeWhile_imp hi, rfl⟩

theorem Consistent.fetchBatch (h : Consistent registry cache s) (hunknown : s.unknown item = true) :
    Consistent registry cache (s.fetchBatch registry item rest) where
  faithful := by
    apply h.faithful.foldl_await fun n hn => ?_
    obtain ⟨i, hi, rfl⟩ := mem_batch_names hunknown hn
    exact h.uncached hi
  failed := by
    intro n hn hnone
    simp only [Resolution.fetchBatch, Finset.mem_union, List.mem_toFinset] at hn hnone
    by_cases hb : n ∈ (item :: rest.takeWhile s.unknown).map Prod.fst
    · obtain ⟨i, hi, rfl⟩ := mem_batch_names hunknown hb
      rw [published_of_uncached (h.uncached hi)]
      exact Cache.fetch_eq_none_of_foldl_await hb hnone
    · rw [Cache.foldl_await_get_of_not_mem hb] at hnone
      exact h.failed n (hn.resolve_right hb) hnone
  unfetched := by
    intro n hn
    simp only [Resolution.fetchBatch, Finset.mem_union, List.mem_toFinset, not_or] at hn ⊢
    rw [Cache.foldl_await_get_of_not_mem hn.2, h.unfetched n hn.1]
  requested := by
    intro n
    simp only [Resolution.fetchBatch, List.mem_append, Finset.mem_union, List.mem_toFinset, h.requested n]

theorem Consistent.step (h : Consistent registry cache s) : Consistent registry cache (s.step registry) := by
  apply step_rule h fun item rest _ s' hs' => ?_
  cases hs' with
  | resolved _ => exact h.frame rfl rfl rfl
  | accepted _ _ _ => exact h.frame rfl rfl rfl
  | unsatisfied _ _ _ => exact h.frame rfl rfl rfl
  | failed _ _ _ => exact h.frame rfl rfl rfl
  | fetched hunknown => exact h.fetchBatch hunknown

theorem consistent_run (n : Nat) : Consistent registry cache (run registry cache deps n) :=
  run_rule consistent_start (fun _ => Consistent.step) n

end Resolution

/-! ## Termination -/

/-- The names a call can come across. -/
inductive Reaches (registry : Registry) (cache : Cache) (deps : DepMap) : Str → Prop
  | root {name constraint : Str} (h : (name, constraint) ∈ deps.list) : Reaches registry cache deps name
  | dependency {name dep constraint : Str} {nodes : List DependencyNode} {node : DependencyNode}
      (hname : Reaches registry cache deps name) (hnodes : published registry cache name = some nodes)
      (hnode : node ∈ nodes) (hdep : (dep, constraint) ∈ node.dependencies.list) : Reaches registry cache deps dep

/-- A list of names that holds the roots and every dependency of what is published of its names holds them all. -/
theorem reaches_finite {registry : Registry} {cache : Cache} {deps : DepMap} (names : List Str)
    (hroots : deps.list.all fun d => d.1 ∈ names)
    (hclosed : names.all fun n => ((published registry cache n).getD []).all fun node =>
      node.dependencies.list.all fun d => d.1 ∈ names) : {name | Reaches registry cache deps name}.Finite := by
  apply names.toFinset.finite_toSet.subset fun name hname => ?_
  rw [Finset.mem_coe, List.mem_toFinset]
  simp only [List.all_eq_true, decide_eq_true_eq] at hroots hclosed
  induction hname with
  | root h => exact hroots _ h
  | dependency _ hnodes hnode hdep ih => exact hclosed _ ih _ (by simpa [hnodes] using hnode) _ hdep

namespace Resolution

variable {registry : Registry} {cache : Cache} {deps : DepMap} {s : Resolution}

/-- Every name on the stack is one of those. -/
def Within (registry : Registry) (cache : Cache) (deps : DepMap) (s : Resolution) : Prop :=
  ∀ item ∈ s.stack, Reaches registry cache deps item.1

theorem within_start : Within registry cache deps (start cache deps) := by
  intro item hitem
  exact .root ((mem_pushAll_descending.mp hitem).resolve_right List.not_mem_nil)

theorem Within.step (hc : Consistent registry cache s) (h : Within registry cache deps s) :
    Within registry cache deps (s.step registry) := by
  apply step_rule h fun item rest hstack s' hs' => ?_
  have hitem : Reaches registry cache deps item.1 := h item (by simp [hstack])
  have hrest : ∀ i ∈ rest, Reaches registry cache deps i.1 := fun i hi => h i (by simp [hstack, hi])
  cases hs' with
  | resolved _ => exact hrest
  | accepted _ hcached hbest =>
      intro i hi
      obtain ⟨all, hall, hiff⟩ := hc.faithful _ _ hcached
      rcases mem_pushAll_descending.mp hi with hdep | hi
      · exact .dependency hitem hall ((hiff _).mp (findBestMatch_eq_some hbest).mem) hdep
      · exact hrest i hi
  | unsatisfied _ _ _ => exact hrest
  | failed _ _ _ => exact hrest
  | fetched _ =>
      intro i hi
      rw [fetchBatch_stack, ← hstack] at hi
      exact h i hi

/-- Names not resolved, then names not fetched, then entries on the stack. -/
def measure (names : Finset Str) (s : Resolution) : ℕ ×ₗ ℕ ×ₗ ℕ :=
  toLex ((names.filter fun n => s.graph.resolvedVersions n = none).card,
    toLex ((names \ s.fetched).card, s.stack.length))

theorem accept_resolvedVersions {item : Str × Str} {rest : List (Str × Str)} {best : DependencyNode} :
    (s.accept item rest best).graph.resolvedVersions =
      Function.update s.graph.resolvedVersions item.1 (some best.version) := rfl

theorem measure_step {names : Finset Str} (h : ∀ item ∈ s.stack, item.1 ∈ names) (hstack : s.stack ≠ []) :
    measure names (s.step registry) < measure names s := by
  obtain ⟨item, rest, hstack⟩ := List.exists_cons_of_ne_nil hstack
  have hitem : item.1 ∈ names := h item (by simp [hstack])
  have hskip : measure names (s.skip item rest) < measure names s := by
    refine Prod.Lex.toLex_lt_toLex.mpr (.inr ⟨rfl, Prod.Lex.toLex_lt_toLex.mpr (.inr ⟨rfl, ?_⟩)⟩)
    simp [skip, hstack]
  have hpop : Popped registry s item rest (s.step registry) := step_cases hstack
  generalize s.step registry = s' at hpop ⊢
  cases hpop with
  | resolved _ => exact hskip
  | accepted hnone _ _ =>
      refine Prod.Lex.toLex_lt_toLex.mpr (.inl (Finset.card_lt_card ?_))
      refine (Finset.ssubset_iff_of_subset fun n hn => ?_).mpr ⟨item.1, by simp [hitem, hnone], fun hn => ?_⟩
      · rw [accept_resolvedVersions, Finset.mem_filter] at hn
        apply Finset.mem_filter.mpr ⟨hn.1, ?_⟩
        by_cases heq : n = item.1
        · rw [heq, hnone]
        · rw [← hn.2, Function.update_of_ne heq]
      · rw [accept_resolvedVersions, Finset.mem_filter, Function.update_self] at hn
        cases hn.2
  | unsatisfied _ _ _ => exact hskip
  | failed _ _ _ => exact hskip
  | fetched hunknown =>
      refine Prod.Lex.toLex_lt_toLex.mpr (.inr ⟨rfl, Prod.Lex.toLex_lt_toLex.mpr (.inl (Finset.card_lt_card ?_))⟩)
      obtain ⟨-, -, hfresh⟩ := unknown_iff.mp hunknown
      apply (Finset.ssubset_iff_of_subset ?_).mpr ⟨item.1, by simp [hitem, hfresh], by simp [fetchBatch]⟩
      exact Finset.sdiff_subset_sdiff le_rfl Finset.subset_union_left

/-- A call ends, if the names it can come across are finitely many. -/
theorem run_terminates (hfinite : {name | Reaches registry cache deps name}.Finite) :
    ∃ n, (run registry cache deps n).stack = [] := by
  apply Runs.exists_iterate wellFounded_lt (fun s => Consistent registry cache s ∧ Within registry cache deps s)
    (fun s => s.stack = []) (measure hfinite.toFinset) (fun s hs hdone => ⟨⟨hs.1.step, hs.2.step hs.1⟩, ?_⟩)
    ⟨consistent_start, within_start⟩
  exact measure_step (fun item hitem => hfinite.mem_toFinset.mpr (hs.2 item hitem)) hdone

/-! ## Requests -/

theorem batch_eq_nil {item : Str × Str} {rest : List (Str × Str)} (hstack : s.stack = item :: rest)
    (h : ¬ s.unknown item = true) : s.batch = [] := by
  rw [batch, hstack, List.takeWhile_cons_of_neg h]

theorem requests_step : (s.step registry).requests = s.requests ++ s.batch.map Prod.fst := by
  cases hstack : s.stack with
  | nil => simp [step_of_stack_nil hstack, batch, hstack]
  | cons item rest =>
      have hpop : Popped registry s item rest (s.step registry) := step_cases hstack
      generalize s.step registry = s' at hpop ⊢
      cases hpop with
      | resolved h =>
          have hbatch := batch_eq_nil hstack fun hu => by simp [(unknown_iff.mp hu).1] at h
          simp [hbatch, skip]
      | accepted _ hcached _ =>
          have hbatch := batch_eq_nil hstack fun hu => by simp [(unknown_iff.mp hu).2.1] at hcached
          simp [hbatch, accept, skip]
      | unsatisfied _ hcached _ =>
          have hbatch := batch_eq_nil hstack fun hu => by simp [(unknown_iff.mp hu).2.1] at hcached
          simp [hbatch, skip]
      | failed _ _ hfetched =>
          have hbatch := batch_eq_nil hstack fun hu => (unknown_iff.mp hu).2.2 hfetched
          simp [hbatch, skip]
      | fetched hunknown =>
          rw [batch_eq hstack hunknown]
          rfl

/-- No two of the entries that a fetch starting now takes along have the same name. -/
def BatchDistinct (s : Resolution) : Prop := (s.batch.map Prod.fst).Nodup

/-- A request is repeated only within one batch. -/
theorem requests_nodup_step (hc : Consistent registry cache s) :
    (s.step registry).requests.Nodup ↔ s.requests.Nodup ∧ s.BatchDistinct := by
  rw [requests_step, List.nodup_append, BatchDistinct]
  refine and_congr_right fun _ => and_iff_left_of_imp fun _ n hn m hm heq => ?_
  obtain ⟨item, hitem, rfl⟩ := List.mem_map.mp hm
  obtain ⟨-, -, hfresh⟩ := unknown_iff.mp (unknown_of_mem_batch hitem)
  exact hfresh ((hc.requested _).mp (heq ▸ hn))

theorem run_succ (n : Nat) : run registry cache deps (n + 1) = (run registry cache deps n).step registry :=
  Function.iterate_succ_apply' _ _ _

theorem run_add_of_stack_nil {k : Nat} (hend : (run registry cache deps k).stack = []) (d : Nat) :
    run registry cache deps (k + d) = run registry cache deps k := by
  induction d with
  | zero => rfl
  | succ d ih => rw [← Nat.add_assoc, run_succ, ih, step_of_stack_nil hend]

/-- What holds until the stack is empty holds in every state of a call. -/
theorem forall_run {P : Resolution → Prop} {k : Nat} (hend : (run registry cache deps k).stack = [])
    (h : ∀ n < k + 1, P (run registry cache deps n)) (n : Nat) : P (run registry cache deps n) := by
  by_cases hn : n < k + 1
  · exact h n hn
  · obtain ⟨d, rfl⟩ := Nat.exists_eq_add_of_le (show k ≤ n by omega)
    rw [run_add_of_stack_nil hend]
    exact h k (Nat.lt_succ_self k)

theorem requests_nodup_iff :
    (∀ n, (run registry cache deps n).requests.Nodup) ↔ ∀ n, (run registry cache deps n).BatchDistinct := by
  constructor
  · intro h n
    have hnext := h (n + 1)
    rw [run_succ, requests_nodup_step (consistent_run n)] at hnext
    exact hnext.2
  · intro h n
    induction n with
    | zero => exact List.nodup_nil
    | succ n ih =>
        rw [run_succ, requests_nodup_step (consistent_run n)]
        exact ⟨ih, h n⟩

end Resolution

end ThreeVa.Pm
