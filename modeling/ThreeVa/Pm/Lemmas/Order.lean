import ThreeVa.Pm.Resolver

/-! The order of versions is total, and `findBestMatch` picks a highest version under it. -/

namespace ThreeVa.Pm
open Text Entries Std

namespace Semver

/-! ## A chain of comparisons -/

theorem cmpIdentifier_eq : cmpIdentifier =
    compareLex (compareOn fun x => (parseUnsigned 10 u64Max x).isNone)
      (compareLex (compareOn fun x => parseUnsigned 10 u64Max x)
        (compareOn fun x => if (parseUnsigned 10 u64Max x).isNone then x else [])) := by
  funext x y
  unfold cmpIdentifier
  cases hx : parseUnsigned 10 u64Max x with
  | none =>
      cases hy : parseUnsigned 10 u64Max y with
      | none => simp [compareLex, compareOn, hx, hy]
      | some m => simp [compareLex, compareOn, hx, hy]; rfl
  | some n =>
      cases hy : parseUnsigned 10 u64Max y with
      | none => simp [compareLex, compareOn, hx, hy]; rfl
      | some m => simp [compareLex, compareOn, hx, hy]; rfl

instance : TransCmp cmpIdentifier := by
  rw [cmpIdentifier_eq]
  infer_instance

theorem cmpPrereleaseLoop_eq : cmpPrereleaseLoop = List.compareLex cmpIdentifier := by
  funext xs ys
  fun_induction cmpPrereleaseLoop xs ys with
  | case1 => rfl
  | case2 => rfl
  | case3 => rfl
  | case4 x xs y ys heq ih => simp [List.compareLex_cons_cons, heq, ih]
  | case5 x xs y ys hne =>
      rw [List.compareLex_cons_cons]
      cases hc : cmpIdentifier x y with
      | lt => rfl
      | eq => exact absurd hc hne
      | gt => rfl

theorem cmpPrerelease_eq : cmpPrerelease =
    fun a b => List.compareLex cmpIdentifier (a.splitOn '.') (b.splitOn '.') := by
  funext a b
  rw [cmpPrerelease, cmpPrereleaseLoop_eq]

instance : TransCmp cmpPrerelease := by
  rw [cmpPrerelease_eq]
  exact transCmp_on (fun s : Str => s.splitOn '.') inferInstance

theorem cmp_eq : cmp =
    compareLex (compareOn major) (compareLex (compareOn minor) (compareLex (compareOn patch)
      (compareLex (compareOn fun v => v.prerelease.isEmpty) fun a b => cmpPrerelease a.prerelease b.prerelease))) := by
  funext a b
  unfold cmp compareLex compareOn
  cases compare a.major b.major <;> try rfl
  cases compare a.minor b.minor <;> try rfl
  cases compare a.patch b.patch <;> try rfl
  change _ = (compare a.prerelease.isEmpty b.prerelease.isEmpty).then (cmpPrerelease a.prerelease b.prerelease)
  cases a.prerelease with
  | nil => cases b.prerelease <;> rfl
  | cons c p => cases b.prerelease <;> rfl

instance : TransCmp fun a b : Semver => cmpPrerelease a.prerelease b.prerelease := transCmp_on _ inferInstance

instance : TransCmp cmp := by
  rw [cmp_eq]
  infer_instance

instance : TransOrd Semver := inferInstanceAs (TransCmp cmp)

end Semver

/-! ## The best match -/

instance : TransCmp fun a b : DependencyNode => compare (Semver.parse a.version) (Semver.parse b.version) :=
  transCmp_on (fun node : DependencyNode => Semver.parse node.version) inferInstance

/-- The text is a range that matches the version of the node. -/
def Satisfies (constraint : Str) (node : DependencyNode) : Prop :=
  ∃ range v, SemverRange.parse constraint = some range ∧ Semver.parse node.version = some v ∧ range.matches v = true

/-- A node of the list that satisfies the constraint, and no version in the list that does is higher. -/
structure Highest (nodes : List DependencyNode) (constraint : Str) (best : DependencyNode) : Prop where
  mem : best ∈ nodes
  satisfies : Satisfies constraint best
  top : ∀ node ∈ nodes, Satisfies constraint node →
    (compare (Semver.parse node.version) (Semver.parse best.version)).isLE

theorem Highest.congr {nodes all : List DependencyNode} {constraint : Str} {best : DependencyNode}
    (h : Highest nodes constraint best) (hiff : ∀ node, node ∈ nodes ↔ node ∈ all) : Highest all constraint best where
  mem := (hiff best).mp h.mem
  satisfies := h.satisfies
  top := fun node hnode => h.top node ((hiff node).mpr hnode)

theorem satisfies_iff {constraint : Str} {range : SemverRange} (h : SemverRange.parse constraint = some range)
    (node : DependencyNode) : Satisfies constraint node ↔ range.admits node = true := by
  unfold Satisfies SemverRange.admits
  cases hv : Semver.parse node.version <;> simp [h]

theorem findBestMatch_eq_some {nodes : List DependencyNode} {constraint : Str} {best : DependencyNode}
    (h : findBestMatch nodes constraint = some best) : Highest nodes constraint best := by
  obtain ⟨range, hrange, hbest⟩ := Option.bind_eq_some_iff.mp h
  obtain ⟨hmem, htop⟩ := maxBy_eq_some hbest
  rw [List.mem_filter] at hmem
  refine ⟨hmem.1, (satisfies_iff hrange best).mpr hmem.2, fun node hnode hsat => ?_⟩
  exact htop node (List.mem_filter.mpr ⟨hnode, (satisfies_iff hrange node).mp hsat⟩)

theorem findBestMatch_eq_none {nodes : List DependencyNode} {constraint : Str}
    (h : findBestMatch nodes constraint = none) : ∀ node ∈ nodes, ¬ Satisfies constraint node := by
  intro node hnode hsat
  have hsat' := hsat
  obtain ⟨range, v, hrange, -⟩ := hsat'
  rw [findBestMatch, hrange, Option.bind_some, maxBy_eq_none, List.filter_eq_nil_iff] at h
  exact h node hnode ((satisfies_iff hrange node).mp hsat)

end ThreeVa.Pm
