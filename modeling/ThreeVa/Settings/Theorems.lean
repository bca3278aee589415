import ThreeVa.Settings.Npmrc
import ThreeVa.Settings.Platform
import ThreeVa.Settings.Trust

/-!
# Theorems about the settings of a project

`.npmrc` files on top of each other, the platforms of a package, and the hashes of trusted packages.
-/

namespace ThreeVa.Settings
open Text Pm.Install

/-! ## `.npmrc` -/

/-- Files on top of each other are read like one file exactly if the upper one does not change `save-prefix` and
`save-exact`. -/
theorem layeredLikeConcat_iff (a b : Str) : LayeredLikeConcat a b ↔ SaveSettingsKept a b := by
  unfold LayeredLikeConcat
  rw [parseNpmrc_concat]
  obtain ⟨hsave, hexact⟩ := parseNpmrc_saveSettings a
  constructor
  · intro h
    have hp : lastValue a savePrefixKey = (lastValue b savePrefixKey).or (lastValue a savePrefixKey) :=
      hsave.symm.trans (congrArg NpmrcConfig.savePrefix h)
    have he : (lastValue a saveExactKey).any isTrue =
        ((lastValue b saveExactKey).map isTrue).getD ((lastValue a saveExactKey).any isTrue) :=
      hexact.symm.trans (congrArg NpmrcConfig.saveExact h)
    refine ⟨fun value hb => ?_, fun value hb => ?_⟩
    · rw [hp, hb]
      rfl
    · rw [he, hb]
      rfl
  · intro h
    have hp : (mergeConfigs (parseNpmrc a) (parseNpmrc b)).savePrefix =
        (lastValue b savePrefixKey).or (lastValue a savePrefixKey) := by
      refine hsave.trans ?_
      cases hb : lastValue b savePrefixKey with
      | none => rfl
      | some value => exact h.savePrefix value hb
    have he : (mergeConfigs (parseNpmrc a) (parseNpmrc b)).saveExact =
        ((lastValue b saveExactKey).map isTrue).getD ((lastValue a saveExactKey).any isTrue) := by
      refine hexact.trans ?_
      cases hb : lastValue b saveExactKey with
      | none => rfl
      | some value => exact (h.saveExact value hb).symm
    rw [← hp, ← he]

/-- A project that saves exact versions, below nothing. -/
theorem save_settings_dropped :
    (parseNpmrc "save-exact=true\nsave-prefix=~".toList).saveExact = true ∧
      (mergeConfigs (parseNpmrc []) (parseNpmrc "save-exact=true\nsave-prefix=~".toList)).saveExact = false ∧
      ¬ LayeredLikeConcat [] "save-exact=true\nsave-prefix=~".toList := by
  have hset : (parseNpmrc "save-exact=true\nsave-prefix=~".toList).saveExact = true := by
    rw [(parseNpmrc_saveSettings _).2]
    decide
  have hboth : (parseNpmrc ([] ++ '\n' :: "save-exact=true\nsave-prefix=~".toList)).saveExact = true := by
    rw [(parseNpmrc_saveSettings _).2]
    decide
  refine ⟨hset, rfl, fun h => ?_⟩
  have heq := congrArg NpmrcConfig.saveExact h
  rw [hboth] at heq
  cases heq

/-! ## Platforms -/

/-- The `os` and `cpu` lists of a package are decided like npm decides them exactly if taking their entries for
alternatives is as good. -/
theorem decidedLikeNpm_iff (entries : List Str) (platform : Platform) :
    (DecidedLikeNpm .os entries platform ↔ UnionSuffices entries platform.os) ∧
      (DecidedLikeNpm .cpu entries platform ↔ UnionSuffices entries platform.cpu) :=
  ⟨decidedLikeNpm_iff_of_ne (by decide), decidedLikeNpm_iff_of_ne (by decide)⟩

def windows : Platform := ⟨"win32".toList, "x64".toList, "win32".toList⟩

/-- Two systems are excluded, and a package is installed on one of them. -/
theorem excluded_platform_accepted :
    fieldAccepts .os ["!win32".toList, "!darwin".toList] windows = true ∧
      ¬ DecidedLikeNpm .os ["!win32".toList, "!darwin".toList] windows := by
  have haccepted : fieldAccepts .os ["!win32".toList, "!darwin".toList] windows = true := by decide
  exact ⟨haccepted, fun h => (h.mp haccepted).1 "!win32".toList (by decide) (by decide)⟩

/-! ## Trusted packages -/

/-- What a manifest trusts has the hashes that it records exactly if these are also recorded under the spelling of the first
entry that matches. -/
theorem pinsHold_iff (manifest : Json) (name version : Str) :
    (∀ policy, TrustPolicy.fromManifest manifest = .ok policy → policy.PinsHold name version) ↔
      ∀ policy, TrustPolicy.fromManifest manifest = .ok policy → policy.OwnSpellingPins name version :=
  forall₂_congr fun _ _ => ⟨TrustPolicy.PinsHold.own, TrustPolicy.OwnSpellingPins.pins⟩

def vite : Str := "vite".toList

def viteHash : Str := "sha512-AAAA".toList

/-- Every version of `vite` is trusted, and the hash of one is recorded. -/
def viteManifest : Json :=
  .object [("3va", .object [("trusted", .arr [.str vite]),
    ("trustedIntegrity", .object [("vite@8.3.0", .str viteHash)])])]

def vitePolicy : TrustPolicy where
  entries := [⟨vite, none⟩]
  integrity := Finmap.insert "vite@8.3.0".toList viteHash ∅
  buildAllowed := []
  packagePermissions := ∅

theorem recorded_hash_not_checked :
    TrustPolicy.fromManifest viteManifest = .ok vitePolicy ∧
      vitePolicy.isTrusted vite "8.3.0".toList (some "sha512-BBBB".toList) = true ∧
      ¬ vitePolicy.PinsHold vite "8.3.0".toList := by
  have htrusted : vitePolicy.isTrusted vite "8.3.0".toList (some "sha512-BBBB".toList) = true := by
    refine TrustPolicy.isTrusted_iff.mpr ⟨⟨vite, none⟩, by decide, fun own hown => ?_⟩
    have hnone : vitePolicy.integrity.lookup (entryKey ⟨vite, none⟩) = none :=
      (Finmap.lookup_insert_of_ne _ (by decide)).trans (Finmap.lookup_empty _)
    rw [hnone] at hown
    cases hown
  refine ⟨rfl, htrusted, fun h => ?_⟩
  have hrecords : vitePolicy.Records vite "8.3.0".toList viteHash :=
    ⟨"8.3.0".toList, by decide, Finmap.lookup_insert _⟩
  exact absurd (h viteHash _ hrecords htrusted) (by decide)

end ThreeVa.Settings
