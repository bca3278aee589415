import ThreeVa.Pm.Lemmas.Auditor
import ThreeVa.Pm.Lemmas.Canonical
import ThreeVa.Pm.Lemmas.Confluence
import ThreeVa.Pm.Lemmas.Coverage
import ThreeVa.Pm.Lemmas.Graph
import ThreeVa.Pm.Lemmas.Hyphen
import ThreeVa.Pm.Lemmas.Lifecycle
import ThreeVa.Pm.Lemmas.Partial
import ThreeVa.Pm.Lemmas.Prerelease
import ThreeVa.Pm.Remove
import ThreeVa.Pm.Typosquat
import ThreeVa.Pm.Lemmas.VersionText
import ThreeVa.Pm.Lemmas.Walked

/-! What holds of the package manager over all ranges, registries and runs. -/

namespace ThreeVa.Pm
open Text SemverRange

/-! ## Compound ranges -/

/-- A list of comparators parses exactly if one of its components does, and its range matches the releases that
the ranges of all components that parse match. -/
theorem compound_matches_parsed_components (text : Str) (h : ComparatorList text) :
    (parse text = none ↔ ∀ c ∈ components text, parse c = none) ∧
      ∀ r, parse text = some r → ∀ v : Semver, v.prerelease = [] →
        (r.matches v = true ↔ ∀ c ∈ components text, ∀ rc, parse c = some rc → rc.matches v = true) := by
  rw [parse_comparatorList h]
  refine ⟨?_, fun r hr v hv => ?_⟩
  · rw [andLoop_eq_none]
    simp
  · simp only [matches_release hv]
    rw [andLoop_matches hr v]
    simp only [Option.mem_def, reduceCtorEq, false_implies, implies_true, true_and, List.mem_map]
    exact ⟨fun h c hc rc hrc => h rc ⟨c, hc, hrc⟩, fun h rc ⟨c, hc, hrc⟩ => h c hc rc hrc⟩

/-- A list of comparators with glued operators. -/
def threeComponents : {text : Str // ComparatorList text ∧ (parse text).isSome = true ∧
    components text = [">=1.2.3".toList, "<2".toList, "^1".toList]} :=
  ⟨">= 1.2.3 <2 ^1".toList, ⟨by decide +kernel, by decide +kernel, by decide +kernel, by decide +kernel,
    by decide +kernel⟩, by decide +kernel, by decide +kernel⟩

/-- Glued operators, and an upper bound that does not parse on its own. -/
theorem compound_matches_three_components :
    components ">= 1.2.3 <2 ^1".toList = [">=1.2.3".toList, "<2".toList, "^1".toList] ∧
      ∃ r, parse ">= 1.2.3 <2 ^1".toList = some r ∧
        (r.matches (.release 1 9 0) = true ↔
          ∀ c ∈ components ">= 1.2.3 <2 ^1".toList, ∀ rc, parse c = some rc → rc.matches (.release 1 9 0) = true) := by
  obtain ⟨hlist, hsome, hcomponents⟩ := threeComponents.property
  obtain ⟨r, hr⟩ := Option.isSome_iff_exists.mp hsome
  exact ⟨hcomponents, r, hr, (compound_matches_parsed_components _ hlist).2 r hr _ rfl⟩

/-- A list of comparators of which one does not parse. -/
def openComponents : {text : Str // ComparatorList text ∧ (parse text).map (fun r => r.matches (.release 3 0 0)) = some true ∧
    "<2".toList ∈ components text ∧ parse "<2".toList = none} :=
  ⟨">=1.2.3 <2".toList, ⟨by decide +kernel, by decide +kernel, by decide +kernel, by decide +kernel, by decide +kernel⟩,
    by decide +kernel, by decide +kernel, by decide +kernel⟩

/-- The bound `<2` does not parse and is dropped: the range matches 3.0.0. -/
theorem unparsed_bound_is_dropped :
    (parse ">=1.2.3 <2".toList).map (fun r => r.matches (.release 3 0 0)) = some true ∧
    ¬ ∀ text : Str, ComparatorList text →
      ((∃ c ∈ components text, parse c = none) → parse text = none) ∧
      ∀ r, parse text = some r → ∀ v : Semver, v.prerelease = [] →
        (r.matches v = true ↔ ∀ c ∈ components text, ∃ rc, parse c = some rc ∧ rc.matches v = true) := by
  obtain ⟨hlist, hmatches, hbound⟩ := openComponents.property
  refine ⟨hmatches, fun hall => ?_⟩
  have hnone := (hall _ hlist).1 ⟨"<2".toList, hbound⟩
  rw [hnone] at hmatches
  cases hmatches

/-! ## Intervals -/

/-- The range read from an operator and a partial version denotes its interval exactly if the zeros filled in for
missing components keep the meaning: never for a tilde range of one number, and not where all numbers written are
zero and fewer than three. -/
theorem partial_range_denotes_interval_iff (op : Operator) (w : PartialVersion)
    (hfits : ∀ n ∈ w.numbers, n ≤ u32Max) (hpart : op = .xRange → w.written.length < 3) :
    (∃ r, parse (op.text ++ w.text) = some r ∧ Denotes r (padded w.written) (op.next w.written)) ↔
      keepsMeaning op w = true := by
  rw [parse_rangeOf op w hfits hpart, ← rangeOf_denotes_iff op w hpart]
  simp

theorem caret_of_two_numbers_denotes_interval :
    Operator.caret.text ++ (PartialVersion.minorX 0 2 .star).text = "^0.2.*".toList ∧
      ∃ r, parse "^0.2.*".toList = some r ∧ Denotes r (.release 0 2 0) (.release 0 3 0) := by
  have htext : Operator.caret.text ++ (PartialVersion.minorX 0 2 .star).text = "^0.2.*".toList := by decide
  refine ⟨htext, ?_⟩
  rw [← htext]
  exact (partial_range_denotes_interval_iff .caret (.minorX 0 2 .star) (by decide) (by simp)).mpr rfl

/-- What a range says of a version. -/
def Verdict (text : Str) (v : Semver) : Type := {b : Bool // (parse text).map (fun r => r.matches v) = some b}

def caretZero : Verdict "^0".toList (.release 0 1 0) := ⟨false, by decide +kernel⟩

def tildeOne : Verdict "~1".toList (.release 1 1 0) := ⟨false, by decide +kernel⟩

def zeroX : Verdict "0.x".toList (.release 0 1 0) := ⟨false, by decide +kernel⟩

/-- `^0`, `~1` and `0.x` miss versions of their intervals. -/
theorem zeros_filled_in_lose_versions :
    (parse "^0".toList).map (fun r => r.matches (.release 0 1 0)) = some false ∧
      (parse "~1".toList).map (fun r => r.matches (.release 1 1 0)) = some false ∧
      (parse "0.x".toList).map (fun r => r.matches (.release 0 1 0)) = some false ∧
      ¬ ∀ (op : Operator) (w : PartialVersion), (∀ n ∈ w.numbers, n ≤ u32Max) →
        (op = .xRange → w.written.length < 3) →
          ∃ r, parse (op.text ++ w.text) = some r ∧ Denotes r (padded w.written) (op.next w.written) := by
  refine ⟨caretZero.property, tildeOne.property, zeroX.property, fun hall => ?_⟩
  obtain ⟨r, hr, hdenotes⟩ := hall .caret (.major 0) (by decide) (by simp)
  have htext : Operator.caret.text ++ (PartialVersion.major 0).text = "^0".toList := by decide
  have hmatches : (parse (Operator.caret.text ++ (PartialVersion.major 0).text)).map
      (fun r => r.matches (.release 0 1 0)) = some false := htext ▸ caretZero.property
  rw [hr, Option.map_some, Option.some.injEq] at hmatches
  have hbetween : Between (padded [0]) (padded (bumpCaret [0])) (.release 0 1 0) := ⟨by decide, by decide⟩
  rw [(hdenotes _ rfl).mpr hbetween] at hmatches
  cases hmatches

/-! ## Hyphen ranges -/

/-- A hyphen range is exact, and read without overflow, if its upper bound is read as it is meant; or if no release is
between the two readings, because the lower bound is above them. -/
theorem hyphenExact_iff (lo hi : Bound) : HyphenExact lo hi ↔ HyphenFits lo hi := by
  cases hi with
  | full v build => exact hyphenExact_full lo v build
  | part w trailing fits => exact hyphenExact_part lo w trailing fits

def toUpperX : Verdict "1 - 2.X".toList (.release 2 5 0) := ⟨false, by decide +kernel⟩

def toBuild : Verdict "1 - 2.0.0+a-b".toList (.release 2 0 0) := ⟨false, by decide +kernel⟩

/-- A number that leaves no room for the next one. -/
def fullBound : {text : Str // hyphenOverflows text = true} := ⟨"4294967295".toList, by decide +kernel⟩

/-- `2.X` ends below `2.1.0`, the largest `u32` overflows, and a hyphen in the build makes a prerelease. -/
theorem upper_bound_misread :
    (parse "1 - 2.X".toList).map (fun r => r.matches (.release 2 5 0)) = some false ∧
      hyphenOverflows "4294967295".toList = true ∧
      (parse "1 - 2.0.0+a-b".toList).map (fun r => r.matches (.release 2 0 0)) = some false ∧
      ¬ ∀ lo hi : Bound, HyphenExact lo hi := by
  refine ⟨toUpperX.property, fullBound.property, toBuild.property, fun hall => ?_⟩
  have hfits := (hyphenExact_part (.part (.major 1) rfl (by decide)) (.majorX 2 .upperX) rfl (by decide)).mp (hall _ _)
  have hbelow : ((Semver.release 2 u32Max u32Max).cmp (.release 1 0 0)).isLT = true := hfits
  exact absurd hbelow (by decide)

/-! ## Prereleases -/

/-- Some alternative names a prerelease with the numbers of `v`, and `v` lies within all its comparators. -/
def Admitted (r : SemverRange) (v : Semver) : Prop :=
  ∃ alt ∈ r.alternatives, Names v alt ∧ ∀ c ∈ alt.comparators, Within v c

/-- Every alternative that names a prerelease with the numbers of `v` and that `v` is outside of only by lying
below `^0.0.p` comparators stands beside one that admits `v`. -/
def NotBelowOnly (r : SemverRange) (v : Semver) : Prop :=
  ∀ alt ∈ r.alternatives, Names v alt → (∀ c ∈ alt.comparators, Within v c ∨ Below v c) →
    (∃ c ∈ alt.comparators, Below v c) → Admitted r v

/-- A parsed range matches only admitted prereleases, exactly if the prerelease is not one that only the missing
lower bound of a `^0.0.p` comparator lets in. -/
theorem prerelease_admitted_iff (text : Str) (r : SemverRange) (hparse : parse text = some r) (v : Semver)
    (hv : v.prerelease ≠ []) : (r.matches v = true → Admitted r v) ↔ NotBelowOnly r v := by
  have hfree := parse_alternatives_orFree hparse
  have hmatches : r.matches v = true ↔
      ∃ alt ∈ r.alternatives, Names v alt ∧ ∀ c ∈ alt.comparators, Within v c ∨ Below v c := by
    rw [matches_iff_alternative]
    exact exists_congr fun alt => and_congr_right fun halt => matches_alternative_iff hv (hfree alt halt)
  rw [hmatches]
  refine ⟨fun h alt halt hnames hall _ => h ⟨alt, halt, hnames, hall⟩, fun h ⟨alt, halt, hnames, hall⟩ => ?_⟩
  by_cases hbelow : ∃ c ∈ alt.comparators, Below v c
  · exact h alt halt hnames hall hbelow
  · refine ⟨alt, halt, hnames, fun c hc => (hall c hc).resolve_right fun hb => hbelow ⟨c, hc, hb⟩⟩

/-- A range and the text it is read from. -/
def Reading (text : Str) : Type := {r : SemverRange // parse text = some r}

def caretBeta : Reading "^1.2.3-beta.1".toList := ⟨.caret ⟨1, 2, 3, "beta.1".toList, []⟩, by decide +kernel⟩

/-- `^1.2.3-beta.1` and the prerelease 1.2.3-beta.2. -/
theorem prerelease_of_caret_admitted :
    ∃ r, parse "^1.2.3-beta.1".toList = some r ∧ r.matches ⟨1, 2, 3, "beta.2".toList, []⟩ = true ∧
      Admitted r ⟨1, 2, 3, "beta.2".toList, []⟩ := by
  have hparse : parse "^1.2.3-beta.1".toList = some (.caret ⟨1, 2, 3, "beta.1".toList, []⟩) := caretBeta.property
  have hmatches : (SemverRange.caret ⟨1, 2, 3, "beta.1".toList, []⟩).matches ⟨1, 2, 3, "beta.2".toList, []⟩ = true := by
    decide
  refine ⟨_, hparse, hmatches, ?_⟩
  apply (prerelease_admitted_iff _ _ hparse _ (by decide)).mpr ?_ hmatches
  intro alt halt _ _ ⟨c, hc, hbelow⟩
  rw [List.mem_singleton.mp halt] at hc
  rw [List.mem_singleton.mp hc] at hbelow
  exact absurd hbelow.1 (by decide)

def caretPatch : Reading "^0.0.3-b".toList := ⟨.caret ⟨0, 0, 3, "b".toList, []⟩, by decide +kernel⟩

/-- `^0.0.3-b` matches 0.0.3-a, which is below it. -/
theorem zero_caret_accepts_lower_prerelease :
    (⟨0, 0, 3, "a".toList, []⟩ : Semver).cmp ⟨0, 0, 3, "b".toList, []⟩ = .lt ∧
      ¬ ∀ (text : Str) (r : SemverRange), parse text = some r → ∀ v : Semver, v.prerelease ≠ [] →
        r.matches v = true → Admitted r v := by
  have hlt : (⟨0, 0, 3, "a".toList, []⟩ : Semver).cmp ⟨0, 0, 3, "b".toList, []⟩ = .lt := by decide
  refine ⟨hlt, fun hall => ?_⟩
  have hparse : parse "^0.0.3-b".toList = some (.caret ⟨0, 0, 3, "b".toList, []⟩) := caretPatch.property
  obtain ⟨alt, halt, -, hwithin⟩ := hall _ _ hparse ⟨0, 0, 3, "a".toList, []⟩ (by decide) (by decide)
  rw [List.mem_singleton.mp halt] at hwithin
  have hge := (hwithin _ (List.mem_singleton.mpr rfl)).1
  rw [hlt] at hge
  cases hge

/-! ## Resolution -/

/-- A call ends, and it requests no name twice exactly if every fetch starts with distinct names: those of the entries
at the top of the stack that are neither resolved nor cached nor fetched. -/
theorem resolve_requests_once_iff (registry : Registry) (cache : Cache) (deps : DepMap)
    (hfinite : {name | Reaches registry cache deps name}.Finite) :
    (∃ s, Returns registry cache deps s) ∧
      ((∀ n, (Resolution.run registry cache deps n).requests.Nodup) ↔
        ∀ n, (Resolution.run registry cache deps n).BatchDistinct) := by
  obtain ⟨n, hn⟩ := Resolution.run_terminates hfinite
  exact ⟨⟨_, n, rfl, hn⟩, Resolution.requests_nodup_iff⟩

/-- The metadata of a package with the one version 1.0.0. -/
def oneVersion (dependencies : DepMap) : Response :=
  .metadata ⟨[("1.0.0".toList, ⟨none, none, dependencies, .empty, .empty⟩)], by simp⟩

/-- `only-v1` has one version, any other name is refused. -/
def onlyV1Registry : Registry := fun name => if name = "only-v1".toList then oneVersion .empty else .refused

def onlyV1Deps : DepMap := ⟨[("only-v1".toList, "^2.0.0".toList), ("broken".toList, "^1.0.0".toList)], by decide⟩

/-- Names that lead to no others. -/
def ClosedNames (registry : Registry) (deps : DepMap) : Type :=
  {names : List Str // (deps.list.all fun d => d.1 ∈ names) = true ∧
    (names.all fun n => ((published registry .empty n).getD []).all fun node =>
      node.dependencies.list.all fun d => d.1 ∈ names) = true}

def onlyV1Names : ClosedNames onlyV1Registry onlyV1Deps :=
  ⟨["only-v1".toList, "broken".toList], by decide +kernel, by decide +kernel⟩

/-- When the stack is empty. -/
def onlyV1End : {k : Nat // (Resolution.run onlyV1Registry .empty onlyV1Deps k).stack = [] ∧
    ∀ n < k + 1, (Resolution.run onlyV1Registry .empty onlyV1Deps n).BatchDistinct} :=
  ⟨3, by decide +kernel, by
    unfold Resolution.BatchDistinct
    decide +kernel⟩

theorem unsatisfiable_range_requested_once :
    (∃ s, Returns onlyV1Registry .empty onlyV1Deps s) ∧
      ∀ n, (Resolution.run onlyV1Registry .empty onlyV1Deps n).requests.Nodup := by
  have hfinite : {name | Reaches onlyV1Registry .empty onlyV1Deps name}.Finite :=
    reaches_finite _ onlyV1Names.property.1 onlyV1Names.property.2
  obtain ⟨hreturns, honce⟩ := resolve_requests_once_iff onlyV1Registry .empty onlyV1Deps hfinite
  exact ⟨hreturns, honce.mpr (Resolution.forall_run onlyV1End.property.1 onlyV1End.property.2)⟩

/-- `a` and `c` are installed, both depend on `x`, and `a` on `c`. -/
def sharedRegistry : Registry := fun name =>
  if name = ['a'] then oneVersion ⟨[(['c'], "^1.0.0".toList), (['x'], "^1.0.0".toList)], by decide⟩
  else if name = ['c'] then oneVersion ⟨[(['x'], "^1.0.0".toList)], by decide⟩
  else if name = ['x'] then oneVersion .empty
  else .refused

def sharedDeps : DepMap := ⟨[(['a'], "^1.0.0".toList), (['c'], "^1.0.0".toList)], by decide⟩

def sharedNames : ClosedNames sharedRegistry sharedDeps :=
  ⟨[['a'], ['c'], ['x']], by decide +kernel, by decide +kernel⟩

def sharedRequests : {names : List Str // (Resolution.run sharedRegistry .empty sharedDeps 4).requests = names} :=
  ⟨[['a'], ['c'], ['x'], ['x']], by decide +kernel⟩

/-- One batch asks for `x` twice. -/
theorem shared_dependency_requested_twice :
    (Resolution.run sharedRegistry .empty sharedDeps 4).requests = [['a'], ['c'], ['x'], ['x']] ∧
      ¬ ∀ (registry : Registry) (cache : Cache) (deps : DepMap), {name | Reaches registry cache deps name}.Finite →
        (∃ s, Returns registry cache deps s) ∧ ∀ n, (Resolution.run registry cache deps n).requests.Nodup := by
  have hrequests : (Resolution.run sharedRegistry .empty sharedDeps 4).requests = [['a'], ['c'], ['x'], ['x']] :=
    sharedRequests.property
  refine ⟨hrequests, fun hall => ?_⟩
  have hfinite : {name | Reaches sharedRegistry .empty sharedDeps name}.Finite :=
    reaches_finite _ sharedNames.property.1 sharedNames.property.2
  have honce := (hall sharedRegistry .empty sharedDeps hfinite).2 4
  rw [hrequests] at honce
  simp at honce

/-- The graph at the end of a call. -/
structure GraphSpec (registry : Registry) (cache : Cache) (deps : DepMap) (s : Resolution) : Prop where
  oneNode : ∀ name, (s.graph.resolvedVersions name).isSome → ¬ s.graph.Shadowed name →
    ∃! k, ∃ node, s.graph.nodes k = some node ∧ node.name = name
  resolved : ∀ k node, s.graph.nodes k = some node → s.graph.resolvedVersions node.name = some node.version
  highest : ∀ k node, s.graph.nodes k = some node → ∃ constraint all,
    FirstSatisfiable registry cache s.popped node.name constraint ∧ published registry cache node.name = some all ∧
      Highest all constraint node
  closed : ∀ k node, s.graph.nodes k = some node → ∀ dep ∈ node.dependencies.list,
    s.graph.Holds dep.1 ∨ s.graph.Shadowed dep.1 ∨ ¬ Satisfiable registry cache dep
  roots : ∀ dep ∈ deps.list, s.graph.Holds dep.1 ∨ s.graph.Shadowed dep.1 ∨ ¬ Satisfiable registry cache dep

theorem graphSpec_of_returns {registry : Registry} {cache : Cache} {deps : DepMap} {s : Resolution}
    (hs : Returns registry cache deps s) : GraphSpec registry cache deps s := by
  obtain ⟨n, rfl, hend⟩ := hs
  have h : Resolution.GraphOk registry cache deps (Resolution.run registry cache deps n) := Resolution.graphOk_run n
  generalize Resolution.run registry cache deps n = s at h hend
  have hsettled : ∀ dep : Str × Str, dep ∈ s.stack ∨ dep ∈ s.popped →
      s.graph.Holds dep.1 ∨ s.graph.Shadowed dep.1 ∨ ¬ Satisfiable registry cache dep := by
    intro dep hdep
    have hpopped : dep ∈ s.popped := hdep.resolve_left (by simp [hend])
    cases hv : s.graph.resolvedVersions dep.1 with
    | none => exact .inr (.inr (h.unsatisfied dep hpopped hv))
    | some v =>
        by_cases hshadow : s.graph.Shadowed dep.1
        · exact .inr (.inl hshadow)
        · exact .inl ⟨_, h.holds hv hshadow⟩
  exact {
    oneNode := by
      intro name hsome hshadow
      obtain ⟨v, hv⟩ := Option.isSome_iff_exists.mp hsome
      refine ⟨DependencyGraph.key name v, h.holds hv hshadow, ?_⟩
      rintro k ⟨node, hnode, rfl⟩
      obtain ⟨hk, hver⟩ := h.keyed k node hnode
      rw [hk, Option.some.inj (hver.symm.trans hv)]
    resolved := fun k node hnode => (h.keyed k node hnode).2
    highest := h.highest
    closed := fun k node hnode dep hdep => hsettled dep (h.worklist k node hnode dep hdep)
    roots := fun dep hdep => hsettled dep (h.roots dep hdep) }

/-- A call that can come across finitely many names returns a graph. A returned graph has one node for each resolved
name, the highest version for the first constraint popped for it that a published version satisfies, is closed under
satisfiable dependencies, and does not depend on the order of any map. -/
theorem resolve_graph_spec (registry : Registry) (cache : Cache) (deps : DepMap) :
    ({name | Reaches registry cache deps name}.Finite → ∃ s, Returns registry cache deps s) ∧
      (∀ s, Returns registry cache deps s → GraphSpec registry cache deps s) ∧
      ∀ registry' cache' deps', registry.Reordered registry' → cache.Reordered cache' →
        deps.list.Perm deps'.list → ∀ s s', Returns registry cache deps s → Returns registry' cache' deps' s' →
          s.graph.Reordered s'.graph := by
  refine ⟨fun hfinite => ?_, fun s hs => graphSpec_of_returns hs, ?_⟩
  · obtain ⟨n, hn⟩ := Resolution.run_terminates hfinite
    exact ⟨_, n, rfl, hn⟩
  · intro registry' cache' deps' hreg hcache hdeps s s' hs hs'
    exact (Resolution.Reordered.returned hreg hcache hdeps hs hs').graph

/-- `a` wants a version of `x` that there is not, `b` one that there is. -/
def laterRegistry : Registry := fun name =>
  if name = ['a'] then oneVersion ⟨[(['x'], "^2.0.0".toList)], by decide⟩
  else if name = ['b'] then oneVersion ⟨[(['x'], "^1.0.0".toList)], by decide⟩
  else if name = ['x'] then oneVersion .empty
  else .refused

def laterDeps : DepMap := ⟨[(['a'], "^1.0.0".toList), (['b'], "^1.0.0".toList)], by decide⟩

/-- What the end of the call shows: the first constraint for `x`, and the version it is resolved to. -/
def laterEnd : {k : Nat // (Resolution.run laterRegistry .empty laterDeps k).stack = [] ∧
    (Resolution.run laterRegistry .empty laterDeps k).popped.map Prod.fst = [['a'], ['x'], ['b'], ['x']] ∧
    (Resolution.run laterRegistry .empty laterDeps k).popped.find? (fun item => item.1 = ['x']) =
      some (['x'], "^2.0.0".toList) ∧
    ((Resolution.run laterRegistry .empty laterDeps k).graph.nodes "x@1.0.0".toList).map
      (fun node => (node.name, node.version)) = some (['x'], "1.0.0".toList)} :=
  ⟨6, by decide +kernel, by decide +kernel, by decide +kernel, by decide +kernel⟩

def caretTwo : Verdict "^2.0.0".toList (.release 1 0 0) := ⟨false, by decide +kernel⟩

def firstRelease : {v : Semver // Semver.parse "1.0.0".toList = some v} := ⟨.release 1 0 0, by decide +kernel⟩

/-- `x` is resolved although no version of it satisfies the first constraint popped for it. -/
theorem first_constraint_passed_over :
    (Resolution.run laterRegistry .empty laterDeps 6).popped.map Prod.fst = [['a'], ['x'], ['b'], ['x']] ∧
      ¬ ∀ (registry : Registry) (cache : Cache) (deps : DepMap) (s : Resolution), Returns registry cache deps s →
        ∀ k node constraint, s.graph.nodes k = some node →
          s.popped.find? (fun item => item.1 = node.name) = some (node.name, constraint) →
            ∃ all, published registry cache node.name = some all ∧ Highest all constraint node := by
  refine ⟨laterEnd.property.2.1, fun hall => ?_⟩
  obtain ⟨k, hend, -, hfirst, hnode⟩ := laterEnd
  obtain ⟨node, hnode, hpair⟩ := Option.map_eq_some_iff.mp hnode
  obtain ⟨hname, hversion⟩ := Prod.mk.inj hpair
  rw [← hname] at hfirst
  obtain ⟨_, _, hhigh⟩ := hall _ _ _ _ ⟨k, rfl, hend⟩ _ node _ hnode hfirst
  obtain ⟨range, v, hrange, hv, hmatches⟩ := hhigh.satisfies
  have hrefused : (SemverRange.parse "^2.0.0".toList).map (fun r => r.matches (.release 1 0 0)) = some false :=
    caretTwo.property
  have hone : Semver.parse "1.0.0".toList = some (.release 1 0 0) := firstRelease.property
  rw [hversion, hone, Option.some.injEq] at hv
  rw [hrange, hv, Option.map_some, hmatches] at hrefused
  cases hrefused

/-! ## Precedence -/

/-- The order of all versions is a total preorder. It is the precedence on the versions that are read right, and a
version that is not is out of order with one that is. -/
theorem precedence_realised_iff (v : VersionText) :
    TotalPreorder Semver.cmp ∧ (v.ReadsRight ↔ ∀ w : VersionText, w.ReadsRight → v.Realises w) := by
  refine ⟨⟨fun _ => Std.ReflCmp.compare_self, fun _ _ => Std.OrientedCmp.eq_swap, fun _ _ _ => Std.TransCmp.isLE_trans⟩,
    fun hv w hw => hv.realises hw, fun h => ⟨fun hpre => ?_, ?_⟩⟩
  · by_contra hafter
    obtain ⟨w, hw, hnot⟩ := v.not_realises_of_afterHyphen hpre hafter
    exact hnot (h w hw)
  · by_contra hfits
    obtain ⟨w, hw, hnot⟩ := v.not_realises_of_not_fits hfits
    exact hnot (h w hw)

def oneNumber : Number := ⟨['1'], by simp, by simp, by decide⟩

/-- `1.1.1`, with a build or without. -/
def builtVersion (build : Option Str) : VersionText := ⟨oneNumber, oneNumber, oneNumber, [], build⟩

theorem build_is_compared :
    (builtVersion (some "a-b".toList)).precedence (builtVersion none) = .eq ∧
      (Semver.parse (builtVersion (some "a-b".toList)).text).map Semver.prerelease = some ['b'] ∧
      ¬ (builtVersion (some "a-b".toList)).Realises (builtVersion none) := by
  have heq : (builtVersion (some "a-b".toList)).precedence (builtVersion none) = .eq := by decide
  refine ⟨heq, by decide, ?_⟩
  rintro ⟨a, b, ha, hb, hcmp⟩
  have hlt : ∀ a ∈ Semver.parse (builtVersion (some "a-b".toList)).text,
      ∀ b ∈ Semver.parse (builtVersion none).text, a.cmp b = .lt := by decide
  rw [hlt a ha b hb, heq] at hcmp
  cases hcmp

/-! ## Removing a package -/

/-- A package is removed, and nothing else, exactly if no other locked package has a name that begins with its name,
or the call does not get to the lockfile. -/
theorem removesExactly_iff (p : Project) (n : SpecName) (version : Option Str) :
    RemovesExactly p n version ↔ (p.Removable n → p.NoLongerName n) :=
  ⟨fun h => h.noLongerName, fun h => removesExactly_of_noLongerName h version⟩

def reactName : SpecName := ⟨none, "react".toList, by simp, by decide, by decide⟩

/-- `react` and `react-dom` are locked, and `react` is installed. -/
def reactProject : Project where
  installed := fun n => n = "react".toList
  manifest := .missing
  lockfile := .json (.object [("dependencies", .object [("react", .null), ("react-dom", .null)])])

theorem longer_name_removed :
    (reactProject.locked "react-dom".toList).isSome ∧
      (removePackage reactProject (reactName.spec none)).1.locked "react-dom".toList = none ∧
      ¬ RemovesExactly reactProject reactName none := by
  have hlocked : (reactProject.locked "react-dom".toList).isSome := by decide
  have hgone : (removePackage reactProject (reactName.spec none)).1.locked "react-dom".toList = none := by rfl
  refine ⟨hlocked, hgone, fun h => ?_⟩
  rw [← h.locked "react-dom".toList (by decide), hgone] at hlocked
  cases hlocked

/-! ## Installs -/

namespace Install

/-- A wave loses no package that is needed: none that is required and no optional one that applies. -/
def Complete (env : Env) (s : State) (o : Order) : Prop := State.Covered env (fun n => !env.skips n) s o
deriving Decidable

/-- Every root and everything its packages need is resolved at the end of a run without failed lookups, if all waves of
the run are complete. -/
theorem install_resolves_wanted (env : Env) (roots : List (Str × Option Str)) (orders : List Order) (s : State)
    (hrun : Runs.exec (State.step env) (State.start roots) orders = some s) (hend : s.wave env = [])
    (hcomplete : Runs.Along (State.step env) (Complete env) (State.start roots) orders) (hfailures : s.failures = []) :
    ∀ name, Wanted env roots s.seen name → (s.resolved name).isSome = true := by
  obtain ⟨hroots, hseen⟩ := State.settled_of_run hrun hcomplete hend
  have hresolved : ∀ name, s.Settled name → (s.resolved name).isSome = true := by
    intro name hsettled
    exact hsettled.resolve_right (by simp [hfailures])
  intro name hwanted
  cases hwanted with
  | root hroot =>
      apply hresolved _ (hroots _ hroot ?_)
      rw [Bool.not_eq_true', State.not_skips_required]
      rfl
  | dependency _ hnode hdep happlies => exact hresolved _ (hseen _ hnode _ hdep (by simp [happlies]))

/-- A manifest at 1.0.0 with the given dependencies, required and optional. -/
def manifestOf (deps optionalDeps : Entries Str (Option Str)) (constraints : Constraints) : Manifest where
  version := some "1.0.0".toList
  dependencies := deps
  peerDependencies := .empty
  optionalPeers := []
  optionalDependencies := optionalDeps
  constraints := constraints

/-- One dependency, of one package. -/
def dependsOn (package dep range : Str) (name : Str) : Entries Str (Option Str) :=
  if name = package then ⟨[(dep, some range)], List.nodup_singleton _⟩ else .empty

/-- An empty project on Linux, its registry has every package at 1.0.0, the `foreign` ones for another system. -/
def emptyProject (deps optionalDeps : Str → Entries Str (Option Str)) (foreign : Str → Bool) : Env :=
  let published (name : Str) : VersionDoc :=
    { manifest := manifestOf (deps name) (optionalDeps name)
        ⟨if foreign name then some ["darwin".toList] else none, none, none⟩
      tarball := none
      integrity := none }
  { force := false
    strictLock := false
    platform := ⟨"linux".toList, "x64".toList, "glibc".toList⟩
    baseUrl := "https://registry.npmjs.org".toList
    pinned := fun _ => none
    isUppercase := Char.isUpper
    overrides := fun _ => none
    lock := fun _ => none
    nodeModules := fun _ => none
    store := fun _ _ => none
    getVersion := fun name version =>
      .ok (if version = "1.0.0".toList || version = "latest".toList then some (published name) else none)
    getPackument := fun name =>
      .ok ⟨some "1.0.0".toList, ⟨[("1.0.0".toList, published name)], List.nodup_singleton _⟩⟩ }

/-- `a` depends on `x` and has a build for another platform. -/
def platformProject : Env :=
  emptyProject (dependsOn ['a'] ['x'] "^1.0.0".toList) (dependsOn ['a'] ['d'] "1.0.0".toList) fun name => name = ['d']

/-- The two waves of its install. -/
def platformOrders : List Order :=
  [⟨[.required ['a'] none], [.required ['x'] (some "^1.0.0".toList), .ofOptional ['d'] "1.0.0".toList]⟩,
    ⟨[.ofOptional ['d'] "1.0.0".toList, .required ['x'] (some "^1.0.0".toList)], []⟩]

/-- What a run shows at its end. -/
def Ending {α : Type} (env : Env) (roots : List (Str × Option Str)) (orders : List Order) (view : State → α) : Type :=
  {a : α // (Runs.exec (State.step env) (State.start roots) orders).map view = some a}

def platformEnd : Ending platformProject [(['a'], none)] platformOrders
    fun s => (s.wave platformProject, s.failures, s.seen.head?) :=
  ⟨([], [], some (.required ['a'] none)), by decide +kernel⟩

/-- What `a` requires. -/
def platformDependency :
    {dep : WaveNode // dep ∈ platformProject.dependencies (.required ['a'] none) ∧ platformProject.skips dep = false} :=
  ⟨.required ['x'] (some "^1.0.0".toList), by decide +kernel, by decide +kernel⟩

/-- In the run every wave is complete and its nodes of one name agree. -/
def platformWaves : {orders : List Order // Runs.Along (State.step platformProject)
    (fun s o => State.Agreed platformProject s ∧ Complete platformProject s o) (State.start [(['a'], none)]) orders} :=
  ⟨platformOrders, by decide +kernel⟩

theorem platform_install_resolves_dependency :
    ∃ s, Runs.exec (State.step platformProject) (State.start [(['a'], none)]) platformOrders = some s ∧
      Wanted platformProject [(['a'], none)] s.seen ['x'] ∧ (s.resolved ['x']).isSome = true := by
  have hfacts : (Runs.exec (State.step platformProject) (State.start [(['a'], none)]) platformOrders).map
      (fun s => (s.wave platformProject, s.failures, s.seen.head?)) =
        some ([], [], some (.required ['a'] none)) := platformEnd.property
  obtain ⟨s, hrun, hs⟩ := Option.map_eq_some_iff.mp hfacts
  obtain ⟨hend, hfailures, hhead⟩ : s.wave platformProject = [] ∧ s.failures = [] ∧
      s.seen.head? = some (.required ['a'] none) := by simpa using hs
  have ha : Wanted platformProject [(['a'], none)] s.seen (WaveNode.required ['a'] none).name :=
    .root (List.mem_singleton.mpr rfl)
  have hx : Wanted platformProject [(['a'], none)] s.seen (WaveNode.required ['x'] (some "^1.0.0".toList)).name :=
    .dependency ha (List.mem_of_head? hhead) platformDependency.property.1 platformDependency.property.2
  have hcomplete := platformWaves.property.mono fun _ _ h => h.2
  exact ⟨s, hrun, hx, install_resolves_wanted _ _ _ s hrun hend hcomplete hfailures _ hx⟩

/-- A project with `a` in place and nothing else. -/
def halfInstalled : Env :=
  { emptyProject (fun _ => .empty) (fun _ => .empty) (fun _ => false) with
    nodeModules := fun name => if name = ['a'] then some (manifestOf .empty .empty .none) else none }

def halfEnd : Ending halfInstalled [(['a'], none), (['b'], none)] [⟨[.required ['b'] none], []⟩]
    fun s => (s.wave halfInstalled, s.guardErrors, s.failures, s.resolved ['a']) :=
  ⟨([], [], [], none), by decide +kernel⟩

/-- The root `a` is in place, `b` is to be fetched: `a` is not resolved. -/
theorem installed_root_of_mixed_wave_lost :
    (Runs.exec (State.step halfInstalled) (State.start [(['a'], none), (['b'], none)])
        [⟨[.required ['b'] none], []⟩]).map (fun s => (s.wave halfInstalled, s.resolved ['a'])) = some ([], none) ∧
      ¬ ∀ (env : Env) (roots : List (Str × Option Str)) (orders : List Order) (s : State),
        Runs.exec (State.step env) (State.start roots) orders = some s → s.wave env = [] → s.guardErrors = [] →
          s.failures = [] → ∀ name, Wanted env roots s.seen name → (s.resolved name).isSome = true := by
  obtain ⟨s, hrun, hs⟩ := Option.map_eq_some_iff.mp halfEnd.property
  obtain ⟨hend, hguard, hfailures, hnone⟩ : s.wave halfInstalled = [] ∧ s.guardErrors = [] ∧ s.failures = [] ∧
      s.resolved ['a'] = none := by simpa [halfEnd] using hs
  refine ⟨by rw [hrun, Option.map_some, hend, hnone], fun hall => ?_⟩
  have hsome := hall _ _ _ s hrun hend hguard hfailures ['a'] (.root List.mem_cons_self)
  rw [hnone] at hsome
  cases hsome

/-- Runs to the end from the same roots resolve and skip the same packages, and what a package requires is resolved or
reported, if in one of them every wave is complete and its nodes of one name agree. -/
theorem install_confluent (env : Env) (roots : List (Str × Option Str)) (orders orders' : List Order) (s s' : State)
    (hrun : Runs.exec (State.step env) (State.start roots) orders = some s) (hend : s.wave env = [])
    (hrun' : Runs.exec (State.step env) (State.start roots) orders' = some s') (hend' : s'.wave env = [])
    (hwaves : Runs.Along (State.step env) (fun s o => State.Agreed env s ∧ Complete env s o) (State.start roots) orders) :
    s.resolved = s'.resolved ∧ (∀ skipped, skipped ∈ s.skipped ↔ skipped ∈ s'.skipped) ∧
      ∀ n ∈ s.seen, ∀ dep ∈ env.dependencies n, dep.optional = false → s.Settled dep.name := by
  have hsame : State.Same env s s' := State.same_of_runs (fun _ _ h => h.1) hrun hend hrun' hend' hwaves
  have hcomplete : Runs.Along (State.step env) (Complete env) (State.start roots) orders :=
    hwaves.mono fun _ _ h => h.2
  refine ⟨hsame.resolved, fun _ => hsame.skipped.mem_iff, fun n hn dep hdep hrequired => ?_⟩
  apply (State.settled_of_run hrun hcomplete hend).2 n hn dep hdep ?_
  rw [Bool.not_eq_true', State.not_skips_required hrequired]

/-- The same install with its lookups completing the other way round. -/
def platformOrders' : List Order :=
  [⟨[.required ['a'] none], [.ofOptional ['d'] "1.0.0".toList, .required ['x'] (some "^1.0.0".toList)]⟩,
    ⟨[.required ['x'] (some "^1.0.0".toList), .ofOptional ['d'] "1.0.0".toList], []⟩]

def platformEnd' : Ending platformProject [(['a'], none)] platformOrders' (State.wave platformProject) :=
  ⟨[], by decide +kernel⟩

theorem platform_install_confluent :
    ∃ s s', Runs.exec (State.step platformProject) (State.start [(['a'], none)]) platformOrders = some s ∧
      Runs.exec (State.step platformProject) (State.start [(['a'], none)]) platformOrders' = some s' ∧
        s.resolved = s'.resolved := by
  obtain ⟨s, hrun, hend⟩ := Option.map_eq_some_iff.mp platformEnd.property
  obtain ⟨s', hrun', hend'⟩ := Option.map_eq_some_iff.mp platformEnd'.property
  exact ⟨s, s', hrun, hrun',
    (install_confluent platformProject _ _ _ s s' hrun (Prod.mk.inj hend).1 hrun' hend' platformWaves.property).1⟩

/-- `p` has `x` as a build for another platform, `q` requires it. -/
def disputedProject : Env :=
  emptyProject (dependsOn ['q'] ['x'] "^1.0.0".toList) (dependsOn ['p'] ['x'] "^1.0.0".toList) fun name => name = ['x']

/-- The lookup of `p` completes first, or that of `q`. -/
def disputedOrders (pFirst : Bool) : List Order :=
  let p := WaveNode.required ['p'] none
  let q := WaveNode.required ['q'] none
  let x := if pFirst then WaveNode.ofOptional ['x'] "^1.0.0".toList else .required ['x'] (some "^1.0.0".toList)
  [⟨if pFirst then [p, q] else [q, p], [x]⟩, ⟨[x], []⟩]

/-- What is left to do, the failures, how many packages are skipped, and whether `x` is resolved. -/
def disputedView (s : State) : List WaveNode × List Str × Nat × Bool :=
  (s.wave disputedProject, s.failures, s.skipped.length, (s.resolved ['x']).isSome)

def skippedEnd : Ending disputedProject [(['p'], none), (['q'], none)] (disputedOrders true) disputedView :=
  ⟨([], [], 1, false), by decide +kernel⟩

def resolvedEnd : Ending disputedProject [(['p'], none), (['q'], none)] (disputedOrders false) disputedView :=
  ⟨([], [], 0, true), by decide +kernel⟩

/-- `x` is resolved or skipped, as the lookups complete; if skipped, `q` misses it and nothing is reported. -/
theorem optional_listing_first_drops_required :
    (Runs.exec (State.step disputedProject) (State.start [(['p'], none), (['q'], none)]) (disputedOrders true)).map
        (fun s => (s.wave disputedProject, s.failures, s.skipped.length, (s.resolved ['x']).isSome)) =
        some ([], [], 1, false) ∧
      (Runs.exec (State.step disputedProject) (State.start [(['p'], none), (['q'], none)]) (disputedOrders false)).map
        (fun s => (s.wave disputedProject, s.failures, s.skipped.length, (s.resolved ['x']).isSome)) =
        some ([], [], 0, true) ∧
      ¬ ∀ (env : Env) (roots : List (Str × Option Str)) (orders orders' : List Order) (s s' : State),
        Runs.exec (State.step env) (State.start roots) orders = some s → s.wave env = [] →
          Runs.exec (State.step env) (State.start roots) orders' = some s' → s'.wave env = [] →
            s.resolved = s'.resolved ∧ (∀ skipped, skipped ∈ s.skipped ↔ skipped ∈ s'.skipped) ∧
              ∀ n ∈ s.seen, ∀ dep ∈ env.dependencies n, dep.optional = false → s.Settled dep.name := by
  have hfirst : (Runs.exec (State.step disputedProject) (State.start [(['p'], none), (['q'], none)])
      (disputedOrders true)).map (fun s => (s.wave disputedProject, s.failures, s.skipped.length,
        (s.resolved ['x']).isSome)) = some ([], [], 1, false) := skippedEnd.property
  have hsecond : (Runs.exec (State.step disputedProject) (State.start [(['p'], none), (['q'], none)])
      (disputedOrders false)).map (fun s => (s.wave disputedProject, s.failures, s.skipped.length,
        (s.resolved ['x']).isSome)) = some ([], [], 0, true) := resolvedEnd.property
  refine ⟨hfirst, hsecond, fun hall => ?_⟩
  obtain ⟨s, hrun, hs⟩ := Option.map_eq_some_iff.mp hfirst
  obtain ⟨s', hrun', hs'⟩ := Option.map_eq_some_iff.mp hsecond
  simp only [Prod.mk.injEq] at hs hs'
  have hsame := (hall _ _ _ _ s s' hrun hs.1 hrun' hs'.1).1
  rw [hsame, hs'.2.2.2] at hs
  exact absurd hs.2.2.2 (by decide)

/-! ### The version taken -/

/-- The version a lookup resolves a package to is in range and the one whose dependencies are followed, and a range
that nothing satisfies is reported, exactly if the manifests involved agree and the range has a version. -/
theorem walks_installed_iff (env : Env) (node : WaveNode) :
    (∀ info deps, env.fetch node = .found info deps → WalksInstalled env node info) ↔
      ∀ info deps, env.fetch node = .found info deps → OneVersion env node info := by
  refine forall_congr' fun info => forall_congr' fun deps => imp_congr_right fun hfetch => ?_
  constructor
  · intro h
    refine ⟨fun range hrange => ?_, fun pin hpin range hrange => ?_, fun taken htaken => ?_⟩
    · by_contra hnone
      have hfailed := (h.unresolvable range hrange fun v hv hs => hnone ⟨v, hv, hs⟩).2
      simp [Env.result, hfetch] at hfailed
    · have hchosen : env.chosenVersion node info = pin.version := by rw [Env.chosenVersion_eq, hpin]; rfl
      obtain ⟨m, hm⟩ : ∃ m, info.versionMeta pin.version = some m := by
        have hkept := (Option.filter_eq_some_iff.mp hpin).2
        simp only [Bool.and_eq_true] at hkept
        exact Option.isSome_iff_exists.mp hkept.2
      obtain ⟨entry, hr, hversion⟩ := Env.exists_resolved hfetch (hchosen ▸ hm)
      exact hchosen ▸ hversion ▸ h.inRange entry hr range hrange
    · rw [← Env.chosenVersion_eq] at htaken
      obtain ⟨entry, hr, hversion⟩ := Env.exists_resolved hfetch htaken
      obtain ⟨m, hm, hfollows⟩ := h.specs entry hr
      rw [hversion, htaken] at hm
      cases hm
      exact (follows_taken_iff hfetch htaken).mp hfollows
  · intro h
    refine ⟨fun entry hr => ?_, fun entry hr range hrange => ?_, fun range hrange hnone => ?_⟩
    · obtain ⟨hversion, hmeta⟩ := Env.result_resolved hfetch hr
      obtain ⟨m, hm⟩ := Option.isSome_iff_exists.mp hmeta
      rw [hversion] at hm ⊢
      exact ⟨m, hm, (follows_taken_iff hfetch hm).mpr (h.specs m (Env.chosenVersion_eq env node info ▸ hm))⟩
    · rw [(Env.result_resolved hfetch hr).1, Env.chosenVersion_eq]
      cases hpin : env.strictPin node info with
      | some pin => exact h.pinInRange pin hpin range hrange
      | none => exact satisfies_selectBestVersion hrange (h.satisfiable range hrange)
    · obtain ⟨v, hv, hs⟩ := h.satisfiable range hrange
      exact absurd hs (hnone v hv)

/-- `a` is published at 1.0.0 with the dependency `x`, and at 1.1.0 with `y`. -/
def twoVersions : Entries Str VersionDoc :=
  let doc (version dep : Str) : VersionDoc :=
    { manifest := { manifestOf (dependsOn ['a'] dep "^1.0.0".toList ['a']) .empty .none with version := some version }
      tarball := none
      integrity := none }
  ⟨[("1.0.0".toList, doc "1.0.0".toList ['x']), ("1.1.0".toList, doc "1.1.0".toList ['y'])], by decide⟩

/-- The lockfile records 1.0.0 of everything, and is strict or not. -/
def lockedProject (strictLock : Bool) : Env :=
  { emptyProject (fun _ => .empty) (fun _ => .empty) (fun _ => false) with
    strictLock := strictLock
    lock := fun _ => some ⟨"1.0.0".toList, none, none, none, .none⟩
    getVersion := fun _ _ => .ok none
    getPackument := fun _ => .ok ⟨some "1.1.0".toList, twoVersions⟩ }

def caretOne : WaveNode := .required ['a'] (some "^1.0.0".toList)

/-- What a strict lock lists, and the version that a lock that is not strict gives a range without a version. -/
def lockedListings : {listings : List WaveNode // ((lockedProject true).result caretOne).listings = listings} :=
  ⟨[.required ['y'] (some "^1.0.0".toList)], by decide +kernel⟩

def unlockedVersion : {version : Str //
    ((lockedProject false).result (.required ['a'] (some "^9.0.0".toList))).resolved.map Resolved.version = some version} :=
  ⟨"1.1.0".toList, by decide +kernel⟩

/-- A strict lock installs 1.0.0 and follows the dependency of 1.1.0, and for a range without a version 1.1.0 is
installed. -/
theorem pinned_version_not_walked :
    ((lockedProject true).result caretOne).resolved.map Resolved.version = some "1.0.0".toList ∧
      ((lockedProject true).result caretOne).listings = [.required ['y'] (some "^1.0.0".toList)] ∧
      ((lockedProject false).result (.required ['a'] (some "^9.0.0".toList))).resolved.map Resolved.version =
        some "1.1.0".toList ∧
      ¬ ∀ env node info deps, env.fetch node = .found info deps → WalksInstalled env node info := by
  have hresolved : ((lockedProject true).result caretOne).resolved.map Resolved.version = some "1.0.0".toList := by
    decide
  have hlistings : ((lockedProject true).result caretOne).listings = [.required ['y'] (some "^1.0.0".toList)] :=
    lockedListings.property
  refine ⟨hresolved, hlistings, unlockedVersion.property, fun hall => ?_⟩
  obtain ⟨entry, hr, hversion⟩ := Option.map_eq_some_iff.mp hresolved
  have hfound : ∃ info deps, (lockedProject true).fetch caretOne = .found info deps ∧
      (info.versionMeta "1.0.0".toList).map (fun m => (lockedProject true).listed m.manifest) =
        some [.required ['x'] (some "^1.0.0".toList)] := ⟨_, _, rfl, by decide⟩
  obtain ⟨info, deps, hfetch, hlisted⟩ := hfound
  obtain ⟨m, hm, hfollows⟩ := (hall _ _ info deps hfetch).specs entry hr
  rw [hversion] at hm
  rw [hm] at hlisted
  rw [show (lockedProject true).listed m.manifest = _ from Option.some.inj hlisted, follows_iff] at hfollows
  have hy := hfollows ['y']
  rw [hlistings] at hy
  exact absurd hy (by decide)

end Install

/-! ## The hash of the dependency fields -/

/-- One text is written for two values exactly if they are equal up to the order of keys at every depth, so the hash
differs exactly if a dependency field does. -/
theorem dependency_hash_canonical (tables : CharTables) (sha256Hex : Bytes → Str) {v w : Json} (hv : WellFormed v)
    (hw : WellFormed w) (hsha : Set.InjOn sha256Hex {encodeUtf8 (sortedJsonString tables (manifestDepFields v)),
      encodeUtf8 (sortedJsonString tables (manifestDepFields w))}) :
    (sortedJsonString tables v = sortedJsonString tables w ↔ SameValue v w) ∧
      (manifestDepHash tables sha256Hex v ≠ manifestDepHash tables sha256Hex w ↔
        ∃ key ∈ manifestDepKeys, ¬SameField v w key) := by
  have hfields : manifestDepHash tables sha256Hex v = manifestDepHash tables sha256Hex w ↔
      ∀ key ∈ manifestDepKeys, SameField v w key := by
    rw [← same_manifestDepFields, ← text_eq_iff (manifestDepFields_wellFormed hv) (manifestDepFields_wellFormed hw)]
    refine ⟨fun h => encodeUtf8_inj (hsha (by simp) (by simp) h), fun h => ?_⟩
    rw [manifestDepHash, manifestDepHash, h]
  refine ⟨text_eq_iff hv hw, ?_⟩
  rw [ne_eq, hfields]
  push Not
  rfl

/-- A manifest that needs `tar` at a version, and its other fields. -/
def needsTar (version : String) (others : List (String × Json)) : Json :=
  Json.object (others ++
    [("dependencies", Json.object [("tar", Json.text version), ("left-pad", Json.text "^1.3.0")])])

def asciiTables : CharTables := ⟨fun _ => false, fun c => 0x20 ≤ c.toNat && c.toNat < 0x7f⟩

theorem dependency_hash_of_bump :
    let sha256Hex (b : Bytes) : Str :=
      if b = encodeUtf8 "\x7b\"dependencies\":\x7b\"left-pad\":\"^1.3.0\",\"tar\":\"6\"\x7d\x7d".toList then
        "fe06330513bfbe05b17563d4545dba6a75825e43b46c75752df1ac6ad0353194".toList
      else "44e4a9ce59684619b48f4fe8ef65d9fdce95c68c9e95672f3d783766bf674646".toList
    let old := needsTar "6" [("name", Json.text "app")]
    let new := needsTar "7" []
    (sortedJsonString asciiTables old = sortedJsonString asciiTables new ↔ SameValue old new) ∧
      (manifestDepHash asciiTables sha256Hex old ≠ manifestDepHash asciiTables sha256Hex new ↔
        ∃ key ∈ manifestDepKeys, ¬SameField old new key) := by
  intro sha256Hex old new
  have hdeps : ∀ version, WellFormed (Json.object [("tar", Json.text version), ("left-pad", Json.text "^1.3.0")]) :=
    fun version => .obj (show (["tar".toList, "left-pad".toList] : List Str).Nodup by decide)
      (List.forall_mem_cons.mpr ⟨.str _, List.forall_mem_singleton.mpr (.str _)⟩)
  have hold : WellFormed old := .obj (show (["name".toList, "dependencies".toList] : List Str).Nodup by decide)
    (List.forall_mem_cons.mpr ⟨.str _, List.forall_mem_singleton.mpr (hdeps "6")⟩)
  have hnew : WellFormed new := .obj (List.nodup_singleton _) (List.forall_mem_singleton.mpr (hdeps "7"))
  have holdText : sortedJsonString asciiTables (manifestDepFields old) =
      "\x7b\"dependencies\":\x7b\"left-pad\":\"^1.3.0\",\"tar\":\"6\"\x7d\x7d".toList := by decide
  have hnewText : sortedJsonString asciiTables (manifestDepFields new) =
      "\x7b\"dependencies\":\x7b\"left-pad\":\"^1.3.0\",\"tar\":\"7\"\x7d\x7d".toList := by decide
  refine dependency_hash_canonical asciiTables sha256Hex hold hnew ?_
  rw [holdText, hnewText]
  exact Set.injOn_pair.mpr fun h => absurd h (by decide)

/-! ## Names close to a popular one -/

namespace Typosquat

/-- The loops compute the least number of edits, the recursive definition of it, which is a metric. For a name that is
not on the list the check reports a nearest name of the list exactly if one is near enough. -/
theorem levenshtein_editDistance :
    (∀ a b, IsLeast {n | EditDistance.Edits n a b} (levenshtein a b) ∧
      levenshtein a b = EditDistance.distance a b) ∧
    (∀ a b, levenshtein a b = 0 ↔ a = b) ∧
    (∀ a b, levenshtein a b = levenshtein b a) ∧
    (∀ a b c, levenshtein a c ≤ levenshtein a b + levenshtein b c) ∧
    ∀ raw name, name ∉ popularPackages raw →
      (∀ finding, checkPackageName raw name = some finding →
        finding.requested = name ∧ finding.likelyTarget ∈ popularPackages raw ∧
          finding.distance = levenshtein name finding.likelyTarget ∧ finding.distance ≤ typosquatMaxDistance ∧
          ∀ target ∈ popularPackages raw, finding.distance ≤ levenshtein name target) ∧
      ((∃ target ∈ popularPackages raw, levenshtein name target ≤ typosquatMaxDistance) →
        (checkPackageName raw name).isSome) := by
  refine ⟨fun a b => ?_, fun a b => ?_, fun a b => ?_, fun a b c => ?_, fun raw name hname => ?_⟩
  · rw [levenshtein_eq]
    exact ⟨EditDistance.distance_isLeast a b, rfl⟩
  · rw [levenshtein_eq]
    exact EditDistance.distance_eq_zero_iff
  · rw [levenshtein_eq, levenshtein_eq]
    exact EditDistance.distance_comm a b
  · rw [levenshtein_eq, levenshtein_eq, levenshtein_eq]
    exact EditDistance.distance_triangle a b c
  · have hbest : Best name (popularPackages raw) (closest name (popularPackages raw) none) := by
      simpa using closest_best _ (Best.none name) hname
    refine ⟨fun finding hfinding => ?_, fun ⟨target, hmem, hnear⟩ => ?_⟩
    · obtain ⟨⟨d, target⟩, hclosest, rfl⟩ := Option.map_eq_some_iff.mp hfinding
      obtain ⟨hmem, hd, hnear, hleast⟩ := hbest.found d target hclosest
      exact ⟨rfl, hmem, hd, hd ▸ hnear, hleast⟩
    · rw [checkPackageName, Option.isSome_map, Option.isSome_iff_ne_none]
      exact fun hnone => hbest.missing hnone target hmem hnear

/-- A transposition is two edits, which is near enough. -/
theorem transposition_reported : (checkPackageName "# popular\nrequest\n".toList "reqeust".toList).isSome :=
  (levenshtein_editDistance.2.2.2.2 _ _ (by decide)).2 ⟨"request".toList, by decide, by decide⟩

end Typosquat

/-! ## Audits -/

namespace Auditor
open State

variable {ρ : Type}

/-- Packages whose names have an at sign only in front share a file exactly if they have one version and their names
agree without the at sign, two underscores read as a slash. -/
theorem cacheFilename_eq_iff {p q : Pair} (hp : '@' ∉ p.1.dropWhile (· = '@')) (hq : '@' ∉ q.1.dropWhile (· = '@')) :
    cacheFilename p = cacheFilename q ↔ safeName p.1 = safeName q.1 ∧ p.2 = q.2 := by
  constructor
  · intro h
    have hsplit := congrArg (splitOnce '@') h
    rw [cacheFilename, cacheFilename, splitOnce_append (at_notMem_safeName hp), splitOnce_append (at_notMem_safeName hq),
      Option.some.injEq, Prod.mk.injEq] at hsplit
    exact ⟨hsplit.1, List.append_cancel_right hsplit.2⟩
  · rintro ⟨hname, hversion⟩
    rw [cacheFilename, cacheFilename, hname, hversion]

/-- After any audits under the conditions, one more ends with a report that tells of each package what OSV answered for
it, or that its lookup has failed. -/
theorem audits_attributed (parseSeverity : ρ → VulnSeverity) (audits : List (Audit ρ)) (s : State ρ)
    (hrun : Runs.exec (step parseSeverity) start audits = some s)
    (hgood : Runs.Along (step parseSeverity) Good start audits) (a : Audit ρ) (ha : Good s a) :
    ∃ cache report, runAuditIn parseSeverity s.cache a = some (cache, report) ∧ Attributed parseSeverity s a report := by
  have hstep : ∀ s a s', Sound s.audited s.log s.cache → Good s a → step parseSeverity s a = some s' →
      Sound s'.audited s'.log s'.cache := fun _ _ _ => sound_step
  have hsound : Sound s.audited s.log s.cache := Runs.exec_invariant hstep sound_start hgood hrun
  obtain ⟨cache, report, hreport, hattributed, -⟩ := @runAuditIn_spec _ s a parseSeverity hsound ha
  exact ⟨cache, report, hreport, hattributed⟩

def noted : RawVuln Unit := ⟨"GHSA-1".toList, none, [], [], ()⟩

/-- An audit of one package, and what OSV answers. -/
def auditOf (name : String) (results : List (List (RawVuln Unit))) : Audit Unit :=
  let response : Except Str (Response Unit) := .ok ⟨200, "200 OK".toList, .ok results⟩
  ⟨false, [(name.toList, "1.0.0".toList)], fun _ => 0, fun _ => ⟨response, response, fun _ => 0, fun _ => .stored⟩⟩

theorem scoped_package_reported : ∃ cache report,
    runAuditIn (fun _ => .high) (fun _ => none) (auditOf "@a/b" [[noted]]) = some (cache, report) ∧
      Attributed (fun _ => .high) start (auditOf "@a/b" [[noted]]) report := by
  have hqueries : (auditOf "@a/b" [[noted]]).queries (start : State Unit).cache =
      [[("@a/b".toList, "1.0.0".toList)]] := rfl
  have hone : ∀ i chunk results, ((auditOf "@a/b" [[noted]]).queries (start : State Unit).cache)[i]? = some chunk →
      queryOsvBatch ((auditOf "@a/b" [[noted]]).batches i) = .ok results → results.length = chunk.length := by
    intro i chunk results hchunk hresults
    obtain rfl := Except.ok.inj hresults
    rw [hqueries] at hchunk
    cases i with
    | zero =>
        obtain rfl := Option.some.inj hchunk
        rfl
    | succ i => cases hchunk
  exact audits_attributed (fun _ => .high) [] start rfl trivial (auditOf "@a/b" [[noted]])
    { distinct := by decide
      fits := fun i chunk results hchunk hresults => (hone i chunk results hchunk hresults).le
      complete := fun i chunk results hchunk hresults h => absurd h (hone i chunk results hchunk hresults).not_lt }

/-- A report that tells of no failure is of what OSV has answered for the package itself. -/
theorem not_attributed {s : State Unit} {name : String} {report : AuditReport} (hreport : report.networkErrors = [])
    (hanswers : (auditOf name []).answers s.cache = [])
    (hlog : ∀ answer ∈ s.log, answer.pair ≠ (name.toList, "1.0.0".toList)) :
    ¬ Attributed (fun _ => .high) s (auditOf name []) report := by
  rintro ⟨raw, -, hjustified⟩
  have hmem : (name.toList, "1.0.0".toList) ∈ (auditOf name []).packages :=
    List.mem_filter.mpr ⟨List.mem_singleton.mpr rfl, rfl⟩
  cases hjustified _ hmem with
  | answered time h =>
      rw [hanswers] at h
      cases h
  | cached i time hforce hp h => exact hlog _ h rfl
  | stale i chunk msg hchunk hp hfails herrors => exact herrors hreport
  | missing hnone herrors => exact herrors hreport

/-- A cached answer of another package, a clean report without an answer, and an answer without a query. -/
theorem shared_file_misattributed :
    (∃ s report, Runs.exec (step fun _ => .high) start [auditOf "@a/b" [[noted]]] = some s ∧
      (runAuditIn (fun _ => .high) s.cache (auditOf "a__b" [])).map Prod.snd = some report ∧
      report.findings.map VulnFinding.pkgName = ["a__b".toList] ∧
      ¬ Attributed (fun _ => .high) s (auditOf "a__b" []) report) ∧
    (∃ report, (runAuditIn (fun _ => .high) (fun _ => none) (auditOf "b" [])).map Prod.snd = some report ∧
      report.findings.length = 0 ∧ report.networkErrors = [] ∧
      ¬ Attributed (fun _ => .high) start (auditOf "b" []) report) ∧
    runAuditIn (fun _ => .high) (fun _ => none) (auditOf "b" [[], []]) = none ∧
    ¬ ∀ (audits : List (Audit Unit)) s a, Runs.exec (step fun _ => .high) start audits = some s →
      ∃ cache report, runAuditIn (fun _ => .high) s.cache a = some (cache, report) ∧
        Attributed (fun _ => .high) s a report := by
  have hpanic : runAuditIn (fun _ => .high) (fun _ => none) (auditOf "b" [[], []]) = none := rfl
  refine ⟨⟨_, _, rfl, rfl, rfl, ?_⟩, ⟨_, rfl, rfl, rfl, ?_⟩, hpanic, fun hall => ?_⟩
  · refine not_attributed rfl rfl fun answer hanswer => ?_
    rw [List.mem_singleton.mp (hanswer : answer ∈ [_])]
    decide
  · exact not_attributed rfl rfl fun answer hanswer => nomatch hanswer
  · obtain ⟨cache, report, hrun, -⟩ := hall [] start (auditOf "b" [[], []]) rfl
    cases hpanic.symm.trans hrun

end Auditor

/-! ## Lifecycle scripts -/

namespace Lifecycle
open Lexical Bins

/-- A script is run as it was approved exactly if its command is plain, its file does not lead out of the package, and no
arguments follow a command of the package. The splitter agrees with a shell on exactly the plain commands. -/
theorem runs_approved_iff (disk : Disk) (exe dir : Path) (s : Script) (hallow : s.allowlisted = true)
    (hargv : ['-', '-'] ∉ s.sandboxArgv) :
    (∀ entry, (disk.classify dir s.command).jsEntry = some entry → ∃ launch, prepare disk (some exe) dir s = .ok launch ∧
      ["run".toList, display entry] <+: launch.args ∧
      (Approved disk dir s.command entry launch.scriptArgs ↔ Faithful disk dir s.command)) ∧
    (isSimpleCommand (trim s.command) = true → ∀ args, splitArgs (trim s.command) = some args →
      (Shell.fields s.command = some args ↔ Shell.Plain s.command)) := by
  refine ⟨fun entry hentry => ?_, fun hsimple args hargs => fields_iff hsimple hargs⟩
  obtain ⟨launch, hlaunch, hargs, hnone⟩ := prepare_eq_ok exe hallow hargv hentry
  refine ⟨launch, hlaunch, hargs, ?_⟩
  rw [hnone]
  exact approved_iff hentry

/-- A package with files everywhere, and one command. -/
def pkg : Disk where
  isFile := fun _ _ => true
  head := fun _ _ => none
  package := fun _ => some ⟨none, ⟨.single "cli.js".toList, none, none⟩⟩

def dir : Path := [.into "p".toList, .into "tool".toList]

def script (command : String) : Script :=
  ⟨"tool".toList, "1.0.0".toList, "install".toList, command.toList, true, ["--no-prompt".toList]⟩

theorem node_script_approved :
    (pkg.classify dir "node 'my install.js'".toList).jsEntry = some (dir ++ [.into "my install.js".toList]) ∧
    ∃ launch, prepare pkg (some []) dir (script "node 'my install.js'") = .ok launch ∧
      Approved pkg dir "node 'my install.js'".toList (dir ++ [.into "my install.js".toList]) launch.scriptArgs := by
  have hentry : (pkg.classify dir "node 'my install.js'".toList).jsEntry =
      some (dir ++ [.into "my install.js".toList]) := by decide
  refine ⟨hentry, ?_⟩
  have hargs : splitArgs (trim "node 'my install.js'".toList) = some ["node".toList, "my install.js".toList] := by decide
  obtain ⟨hlaunched, hagree⟩ := runs_approved_iff pkg [] dir (script "node 'my install.js'") rfl (by decide)
  obtain ⟨launch, hlaunch, -, happroved⟩ := hlaunched _ hentry
  refine ⟨launch, hlaunch, happroved.mpr ⟨(hagree (by decide) _ hargs).mp (by decide +kernel), fun args hsplit rel hrel => ?_,
    fun args hsplit hnode => ?_⟩⟩
  · obtain rfl := Option.some.inj (hargs.symm.trans hsplit)
    obtain rfl := Option.some.inj ((show _ = some "my install.js".toList by decide).symm.trans (Option.mem_def.mp hrel))
    exact staysIn_iff.mp (by decide)
  · obtain rfl := Option.some.inj (hargs.symm.trans hsplit)
    exact absurd hnode (by decide)

/-- A file outside of the package, arguments that are dropped, and an escape that is none. -/
theorem outside_entry_classified :
    (pkg.classify dir "node ../evil.js".toList).jsEntry = some (dir ++ [.up, .into "evil.js".toList]) ∧
    Lexical.normalize (dir ++ [.up, .into "evil.js".toList]) = ["p".toList, "evil.js".toList] ∧
    (pkg.classify dir "tool --force".toList).jsEntry = some (dir ++ [.into "cli.js".toList]) ∧
    shellArgs pkg dir "tool --force".toList = some ["--force".toList] ∧
    (isSimpleCommand "tool a\\ b".toList = true ∧
      splitArgs "tool a\\ b".toList = some ["tool".toList, "a\\".toList, "b".toList] ∧
      Shell.fields "tool a\\ b".toList = some ["tool".toList, "a b".toList]) ∧
    ¬ ∀ disk dir command entry, (Disk.classify disk dir command).jsEntry = some entry →
      Lexical.normalize dir <+: Lexical.normalize entry := by
  have hentry : (pkg.classify dir "node ../evil.js".toList).jsEntry = some (dir ++ [.up, .into "evil.js".toList]) := by
    decide
  refine ⟨hentry, by decide, by decide, by decide +kernel, ⟨by decide, by decide, by decide +kernel⟩, fun hall => ?_⟩
  exact absurd (hall _ _ _ _ hentry) (by decide)

end Lifecycle

end ThreeVa.Pm
