import ThreeVa.Pm.Install

/-! What the lookup of a node answers: the dependencies it returns are those of the best match. -/

namespace ThreeVa.Pm.Install
open Text

theorem selectBestVersion_singleton (version range : Str) : selectBestVersion [version] range none = version := by
  unfold selectBestVersion
  cases hv : Semver.parse version with
  | none => simp [hv, Entries.maxBy]
  | some v => by_cases hm : (((SemverRange.parse range).getD .any).matches v) = true <;> simp [hv, hm, Entries.maxBy]

/-- The dependencies returned are those of the best match, and the optional ones kept are those of each version. -/
structure Env.Answers (env : Env) (range : Str) (info : RegistryInfo) (deps : List (Str × Str)) : Prop where
  deps : deps = ((info.versionMeta (selectBestVersion info.versions range info.latest)).map
    fun m => collectDepSpecs env.isUppercase m.manifest).getD []
  optional : ∀ v m, info.versionMeta v = some m → m.optionalDeps = collectOptionalDepSpecs env.isUppercase m.manifest

namespace Env

variable {env : Env} {name range : Str} {node : WaveNode} {info : RegistryInfo} {deps : List (Str × Str)}

theorem answers_packument (data : Packument) :
    env.Answers range (env.registryInfoFromPackument name data)
      (env.depsOf data (selectBestVersion (env.registryInfoFromPackument name data).versions range
        (env.registryInfoFromPackument name data).latest)) where
  deps := by
    unfold depsOf
    generalize selectBestVersion _ _ _ = best
    cases hdoc : data.get best <;> simp [registryInfoFromPackument, hdoc, versionMeta]
  optional := by
    intro v m hm
    obtain ⟨doc, -, rfl⟩ := Option.map_eq_some_iff.mp hm
    rfl

/-- The answer about a single version. -/
theorem answers_singleton (version : Str) {m : VersionMeta}
    (hm : m.optionalDeps = collectOptionalDepSpecs env.isUppercase m.manifest)
    (hinfo : info = ⟨[version], none, fun v => if v = version then some m else none⟩) :
    env.Answers range info (collectDepSpecs env.isUppercase m.manifest) := by
  subst hinfo
  refine ⟨?_, fun v m' hv => ?_⟩
  · simp only [selectBestVersion_singleton, if_true, Option.map_some, Option.getD_some]
  · simp only at hv
    split at hv
    · rw [← Option.some.inj hv]
      exact hm
    · cases hv

theorem answers_lookupNpmVersion (h : env.lookupNpmVersion name range = .ok (info, deps)) :
    env.Answers range info deps := by
  unfold lookupNpmVersion at h
  split at h
  · cases h
  · unfold lookupNpmCompatWithDeps at h
    split at h
    · cases h
    · rename_i data _
      obtain ⟨rfl, rfl⟩ := Prod.mk.inj (Except.ok.inj h)
      exact answers_packument data
  · rename_i doc _
    obtain ⟨rfl, rfl⟩ := Prod.mk.inj (Except.ok.inj h)
    exact answers_singleton _ rfl rfl

theorem answers_resolveOptionalDep (h : env.resolveOptionalDep name range = .found info deps) :
    env.Answers range info deps := by
  unfold resolveOptionalDep at h
  split at h
  · cases h
  · rename_i data _
    simp only at h
    split at h
    · cases h
    · split at h
      · obtain ⟨rfl, rfl⟩ := Fetched.found.inj h
        exact answers_packument data
      · cases h

theorem answers_offlineResolution (h : env.offlineResolution node = some (info, deps)) :
    env.Answers node.versionToFetch info deps := by
  unfold offlineResolution at h
  simp only [Option.bind_eq_bind, Option.bind_eq_some_iff] at h
  obtain ⟨pin, -, integrity, -, h⟩ := h
  split at h
  · cases h
  · split at h
    · cases h
    · obtain ⟨manifest, -, h⟩ := Option.bind_eq_some_iff.mp h
      split at h
      · cases h
      · obtain ⟨rfl, rfl⟩ := Prod.mk.inj (Option.some.inj h)
        exact answers_singleton (m := ⟨_, _, _, manifest⟩) pin.version rfl rfl

theorem answers_fetchOnline (h : env.fetchOnline node = .found info deps) :
    env.Answers node.versionToFetch info deps := by
  unfold fetchOnline at h
  split at h
  · exact answers_resolveOptionalDep h
  · split at h
    · rename_i hlookup
      obtain ⟨rfl, rfl⟩ := Fetched.found.inj h
      exact answers_lookupNpmVersion hlookup
    · split at h <;> cases h

theorem answers_fetch (h : env.fetch node = .found info deps) : env.Answers node.versionToFetch info deps := by
  unfold fetch at h
  split at h
  · exact answers_fetchOnline h
  · split at h
    · cases h
    · split at h
      · rename_i hoffline
        obtain ⟨rfl, rfl⟩ := Fetched.found.inj h
        exact answers_offlineResolution hoffline
      · exact answers_fetchOnline h

/-! ## The version chosen -/

/-- The dependencies of the version that a lookup chooses. -/
def chosenListings (env : Env) (node : WaveNode) : List WaveNode :=
  match env.fetch node with
  | .found info _ => ((info.versionMeta (env.chosenVersion node info)).map fun m => env.listed m.manifest).getD []
  | _ => []

/-- Where the lockfile does not decide, the lookup returns the dependencies of the version chosen. -/
theorem children_eq (h : env.strictLock = false) (node : WaveNode) :
    (env.result node).children = env.chosenListings node := by
  unfold result chosenListings
  cases hf : env.fetch node with
  | failed _ => rfl
  | skipped _ => rfl
  | found info deps =>
      obtain ⟨hdeps, hoptional⟩ := answers_fetch hf
      have hbest : env.chosenVersion node info = selectBestVersion info.versions node.versionToFetch info.latest := by
        unfold chosenVersion
        rw [h]
        cases env.lock node.name <;> rfl
      simp only [hdeps, hbest]
      cases hm : info.versionMeta (selectBestVersion info.versions node.versionToFetch info.latest) with
      | none => rfl
      | some m => simp only [Option.map_some, Option.getD_some, hoptional _ m hm, listed]

/-! ## Required nodes -/

theorem fetchOnline_ne_skipped (h : node.optional = false) (record : Option SkippedOptional) :
    env.fetchOnline node ≠ .skipped record := by
  unfold fetchOnline
  rw [h]
  cases env.lookupNpmVersion node.name node.versionToFetch with
  | ok found => simp
  | error message => cases env.pinned node.name <;> simp

/-- A required package is found or its lookup fails. -/
theorem fetch_ne_skipped (h : node.optional = false) (record : Option SkippedOptional) :
    env.fetch node ≠ .skipped record := by
  unfold fetch
  rw [h]
  cases env.pinned node.name with
  | some _ => exact fetchOnline_ne_skipped h record
  | none =>
      cases env.offlineResolution node with
      | some found => simp
      | none => exact fetchOnline_ne_skipped h record

end Env

end ThreeVa.Pm.Install
