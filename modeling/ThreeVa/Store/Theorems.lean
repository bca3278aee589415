import ThreeVa.Store.Content
import ThreeVa.Store.Lemmas.Derived
import ThreeVa.Store.Lemmas.Patch
import ThreeVa.Store.Lemmas.Paths
import ThreeVa.Store.Prune
import ThreeVa.Store.Scopes
import ThreeVa.Store.TreeDigest

/-! What holds of the places and the bytes of packages, over all names, registries and runs. -/

namespace ThreeVa.Store
open Text Permissions Pm.Install

/-! ## Pruning -/

/-- Pruning leaves the entries that the lockfile needs exactly if every dependency without a registry, or with a
version that is rewritten, is covered by the others. -/
theorem prunesExactly_iff (store : List RegistryDir) (dependencies : Entries Str Locks.LockfileDep) :
    PrunesExactly store dependencies ↔ OthersCover store dependencies := by
  rw [prunesExactly_iff_keys]
  constructor
  · intro h x hx _ e he
    exact ⟨fun hpath => (h e he).mpr ⟨x, hx, hpath⟩, fun hkey => (h e he).mp ⟨x, hx, hkey⟩⟩
  · exact fun h e he => keys_iff_needs_of_othersCover h he

/-- `foo` at a version, as a lockfile converted from `yarn.lock` has it: without a registry. -/
def convertedDep (version : Str) : Locks.LockfileDep :=
  ⟨version, none, none, none, none, none, none, none, none, none⟩

def convertedDeps : Entries Str Locks.LockfileDep := ⟨[("foo".toList, convertedDep "1.0.0".toList)], by simp⟩

def npmDir : DirName := ⟨Registry.npm.displayName, by decide, by decide⟩

def fooDir : DirName := ⟨"foo@1.0.0".toList, by decide, by decide⟩

theorem unrecorded_registry_pruned :
    (npmDir, fooDir) ∈ storeEntries [⟨npmDir, [⟨fooDir, 7⟩]⟩] ∧ Needs convertedDeps (npmDir, fooDir) ∧
      prune [⟨npmDir, [⟨fooDir, 7⟩]⟩] (keysFromLockfile convertedDeps) = ([⟨npmDir, []⟩], ⟨1, 7⟩) ∧
      ¬ PrunesExactly [⟨npmDir, [⟨fooDir, 7⟩]⟩] convertedDeps := by
  have hmem : (npmDir, fooDir) ∈ storeEntries [⟨npmDir, [⟨fooDir, 7⟩]⟩] := List.mem_singleton.mpr rfl
  have hneeds : Needs convertedDeps (npmDir, fooDir) :=
    ⟨_, List.mem_singleton.mpr rfl, pathAt_iff.mpr ⟨by decide +kernel, by decide +kernel⟩⟩
  have hpruned : prune [⟨npmDir, [⟨fooDir, 7⟩]⟩] (keysFromLockfile convertedDeps) = ([⟨npmDir, []⟩], ⟨1, 7⟩) := rfl
  refine ⟨hmem, hneeds, hpruned, fun h => ?_⟩
  have hleft := (h (npmDir, fooDir)).mpr ⟨hmem, hneeds⟩
  rw [hpruned] at hleft
  cases hleft

/-! ## Lockfile integrity -/

/-- For a pinned version, the guard passes the recorded integrity and, outside `ci`, one of another algorithm. What is
then verified against the integrity served has the recorded digest, save for that escape. -/
theorem lock_passes_recorded_or_other_algorithm (d : Digests) (lock : Str → Option Pin) (strict : Bool)
    (name version h : Str) (served : Option Str) (pin : Pin) (hpin : lock name = some pin)
    (hversion : pin.version = version) (hintegrity : pin.integrity = some h) :
    (lockViolation lock strict name version served = none ↔
        served = some h ∨ strict = false ∧ ∃ s, served = some s ∧ algo h ≠ algo s) ∧
      (lockViolation lock strict name version served = none → ∀ data, d.verifyFromRegistry data served = .verified →
        d.verifyFromRegistry data (some h) = .verified ∨ strict = false ∧ ∃ s, served = some s ∧ algo h ≠ algo s) := by
  have hiff : lockViolation lock strict name version served = none ↔
      served = some h ∨ strict = false ∧ ∃ s, served = some s ∧ algo h ≠ algo s := by
    unfold lockViolation
    rw [hpin]
    simp only [hversion, ne_eq, not_true_eq_false, ↓reduceIte, hintegrity]
    cases served with
    | none => simp
    | some s =>
        by_cases heq : h = s
        · simp [heq]
        · by_cases halgo : algo h = algo s
          · simp [heq, halgo, Ne.symm heq]
          · cases strict <;> simp [heq, halgo, Ne.symm heq]
  refine ⟨hiff, fun hnone data hverified => ?_⟩
  rcases hiff.mp hnone with rfl | hescape
  · exact .inl hverified
  · exact .inr hescape

/-- A lock that pins `a` with a SHA-512 digest. -/
def sha512Lock : Str → Option Pin := fun name =>
  if name = ['a'] then some ⟨"1.0.0".toList, none, some "sha512-AAA".toList, none, .none⟩ else none

theorem sha512Lock_passes_recorded :
    lockViolation sha512Lock true ['a'] "1.0.0".toList (some "sha512-AAA".toList) = none ∧
      lockViolation sha512Lock true ['a'] "1.0.0".toList (some "sha256-BBB".toList) ≠ none := by
  have hpasses := fun served => (lock_passes_recorded_or_other_algorithm ⟨fun _ => [], fun _ => []⟩ sha512Lock true ['a']
    "1.0.0".toList "sha512-AAA".toList served _ rfl rfl rfl).1
  refine ⟨(hpasses _).mpr (.inl rfl), fun hnone => ?_⟩
  rcases (hpasses _).mp hnone with h | ⟨h, -⟩
  · exact absurd h (by decide)
  · cases h

/-- Outside `ci`, a registry that serves another algorithm is not held to the recorded digest. -/
theorem other_algorithm_not_pinned :
    ¬ ∀ (lock : Str → Option Pin) (strict : Bool) (name version h : Str) (served : Option Str) (pin : Pin),
      lock name = some pin → pin.version = version → pin.integrity = some h →
        lockViolation lock strict name version served = none → served = some h := by
  intro hall
  have heq := hall sha512Lock false ['a'] "1.0.0".toList "sha512-AAA".toList (some "sha256-BBB".toList) _ rfl rfl rfl
    (by decide)
  exact absurd heq (by decide)

/-! ## `node_modules` -/

/-- Errors, or a proper descendant of `node_modules` whose components are the parts of the name. -/
def Confined (nm : NodeModules) (name : Str) : Prop :=
  ∀ dest, nm.safeNodeModulesPath name = .ok dest → dest.absolute = true ∧ dest.segs ≠ nm.path.segs ∧
    dest.segs = nm.path.segs ++ (name.splitOn '/').map .normal

/-- All parts of the name are names, or its `..` lead out of `node_modules`. -/
def NamedOrEscaping (nm : NodeModules) (name : Str) : Prop :=
  (∀ part ∈ name.splitOn '/', isName part = true) ∨
    startsWith (lexicallyNormalize (joinStr nm.path nm.path_absolute name)) nm.path = false

theorem safeNodeModulesPath_eq_ok {nm : NodeModules} {name : Str} {dest : PathBuf} :
    nm.safeNodeModulesPath name = .ok dest ↔
      startsWith (lexicallyNormalize (joinStr nm.path nm.path_absolute name)) nm.path = true ∧
        lexicallyNormalize (joinStr nm.path nm.path_absolute name) = dest := by
  unfold NodeModules.safeNodeModulesPath
  simp only
  split
  · rename_i h
    simp [h]
  · rename_i h
    simp [h]

theorem confined_of_namedOrEscaping {nm : NodeModules} {name : Str} (h : NamedOrEscaping nm name) : Confined nm name := by
  intro dest hdest
  obtain ⟨hstarts, rfl⟩ := safeNodeModulesPath_eq_ok.mp hdest
  have hnamed := h.resolve_right (by simp [hstarts])
  refine ⟨by unfold lexicallyNormalize joinStr; split <;> rfl, ?_, nm.normalize_join_of_named hnamed⟩
  rw [nm.normalize_join_of_named hnamed]
  simp [List.splitOn_ne_nil]

/-- A name stays in its own place below `node_modules` exactly if each of its parts is a name or it is refused, and then
no two names share a place. -/
theorem confined_iff_namedOrEscaping (nm : NodeModules) :
    (∀ name, Confined nm name ↔ NamedOrEscaping nm name) ∧
      ∀ name name' dest, NamedOrEscaping nm name → NamedOrEscaping nm name' →
        nm.safeNodeModulesPath name = .ok dest → nm.safeNodeModulesPath name' = .ok dest → name = name' := by
  refine ⟨fun name => ⟨fun h => ?_, confined_of_namedOrEscaping⟩, fun name name' dest h h' hdest hdest' => ?_⟩
  · by_cases hstarts : startsWith (lexicallyNormalize (joinStr nm.path nm.path_absolute name)) nm.path = true
    · left
      intro part hpart
      have hsegs := (h _ (safeNodeModulesPath_eq_ok.mpr ⟨hstarts, rfl⟩)).2.2
      have hmem : Seg.normal part ∈ (lexicallyNormalize (joinStr nm.path nm.path_absolute name)).segs := by
        rw [hsegs]
        exact List.mem_append_right _ (List.mem_map_of_mem hpart)
      exact nm.normalize_join_isComponent name _ hmem
    · exact .inr (by simpa using hstarts)
  · have hsegs := (confined_of_namedOrEscaping h dest hdest).2.2
    have hsegs' := (confined_of_namedOrEscaping h' dest hdest').2.2
    have hparts : name.splitOn '/' = name'.splitOn '/' := by
      have hmap := List.append_cancel_left (hsegs.symm.trans hsegs')
      exact List.map_injective_iff.mpr (fun _ _ => Seg.normal.inj) hmap
    calc name = ['/'].intercalate (name.splitOn '/') := (List.intercalate_splitOn '/').symm
      _ = ['/'].intercalate (name'.splitOn '/') := by rw [hparts]
      _ = name' := List.intercalate_splitOn '/'

/-- The dependencies of a project. -/
def projectModules : NodeModules := ⟨["p".toList, "node_modules".toList], by decide⟩

/-- `@a/..` is accepted and is `node_modules` itself; `a//b` and `a/b` are accepted and share a place. -/
theorem dotted_name_is_node_modules :
    isValidPackageName Char.isUpper "@a/..".toList = true ∧
      (projectModules.safeNodeModulesPath "@a/..".toList).toOption = some projectModules.path ∧
      isValidPackageName Char.isUpper "a//b".toList = true ∧ isValidPackageName Char.isUpper "a/b".toList = true ∧
      (projectModules.safeNodeModulesPath "a//b".toList).toOption =
        (projectModules.safeNodeModulesPath "a/b".toList).toOption ∧
      ¬ ∀ (nm : NodeModules) (isUppercase : Char → Bool) (name : Str), isValidPackageName isUppercase name = true →
        Confined nm name := by
  have hself : projectModules.safeNodeModulesPath "@a/..".toList = .ok projectModules.path := by decide
  refine ⟨by decide, by decide, by decide, by decide, by decide, fun hall => ?_⟩
  exact (hall projectModules Char.isUpper "@a/..".toList (by decide) _ hself).2.1 rfl

/-! ## Paths derived from versions -/

/-- Every derived path is below its base exactly where the host of the registry is not `..` and where the version, which
two of the paths take as it is, does not lead out of `.3va-cache` and of `.3va/dlx`. -/
theorem derived_descend_iff (registry name version : Str) :
    (∀ project store, ∀ q ∈ derived project store registry name version, Descends q.1 q.2) ↔
      safeRegistry registry ≠ ['.', '.'] ∧ StaysIn cacheDir (segments (cachedPathEntry name version)) ∧
        StaysIn dlxDir (segments (dlxEntry name version)) := by
  have hstore := staysIn_iff fun store => puts_storePackagePath store registry name version
  have hcached := staysIn_iff fun project => puts_join project cacheDir (cachedPathEntry_head name version)
  have hdlx := staysIn_iff fun project => puts_join project dlxDir (dlxEntry_head name version)
  rw [← staysIn_packagePath_iff registry name version, ← hstore, ← hcached, ← hdlx]
  constructor
  · intro h
    refine ⟨fun store => ?_, fun project => ?_, fun project => ?_⟩
    · exact h store store _ (.head _)
    · exact h project project _ (.tail _ (.tail _ (.tail _ (.tail _ (.head _)))))
    · exact h project project _ (.tail _ (.tail _ (.tail _ (.tail _ (.tail _ (.head _))))))
  · rintro ⟨hpackage, hpath, hrun⟩ project store q hq
    have hzero := slash_not_mem_zeroInstallEntry name version
    have hsha : '/' ∉ zeroInstallEntry name version ++ ".sha512".toList := by simp [hzero]
    have htarball := slash_not_mem_cachedTarballEntry name version
    simp only [derived, zeroInstallCachePaths, List.mem_cons, List.not_mem_nil, or_false] at hq
    rcases hq with rfl | rfl | rfl | rfl | rfl | rfl | rfl
    · exact hpackage store
    · exact descends_single hzero (segments_single hzero (by simp [zeroInstallEntry]; omega)) _ project
    · exact descends_single hsha (segments_single hsha (by simp [zeroInstallEntry]; omega)) _ project
    · exact descends_single htarball (segments_single htarball (by simp [cachedTarballEntry]; omega)) _ project
    · exact hpath project
    · exact hrun project
    · rw [configDepEntry_eq]
      exact descends_single (slash_not_mem_entryName name version) (segments_entryName name version) _ project

def projectRoot : Root := ⟨["p".toList], by decide⟩

def climbingVersion : Str := "1.0.0/../../x".toList

/-- The tarball and the copy for `dlx` land outside their directories. -/
theorem climbing_version_escapes :
    isValidPackageName Char.isUpper "a".toList = true ∧
      ¬ Descends (projectRoot.dir cacheDir) (projectRoot.join cacheDir (cachedPathEntry "a".toList climbingVersion)) ∧
      ¬ Descends (projectRoot.dir dlxDir) (projectRoot.join dlxDir (dlxEntry "a".toList climbingVersion)) ∧
      ¬ ∀ (isUppercase : Char → Bool) (registry name version : Str), isValidPackageName isUppercase name = true →
        ∀ project store, ∀ q ∈ derived project store registry name version, Descends q.1 q.2 := by
  have hcached : ¬ Descends (projectRoot.dir cacheDir)
      (projectRoot.join cacheDir (cachedPathEntry "a".toList climbingVersion)) := by
    unfold Descends
    decide +kernel
  have hdlx : ¬ Descends (projectRoot.dir dlxDir) (projectRoot.join dlxDir (dlxEntry "a".toList climbingVersion)) := by
    unfold Descends
    decide +kernel
  have hvalid : isValidPackageName Char.isUpper "a".toList = true := by decide +kernel
  refine ⟨hvalid, hcached, hdlx, fun hall => hcached ?_⟩
  exact hall Char.isUpper "h".toList "a".toList climbingVersion hvalid projectRoot projectRoot _
    (.tail _ (.tail _ (.tail _ (.tail _ (.head _)))))

/-! ## The content store -/

/-- The base URL of a recorded registry: a URL, or a host. -/
def registryBase (registry : Str) : Str :=
  if registry = "jsr.io".toList then "https://jsr.io/api".toList
  else if "https://".toList <+: registry || "http://".toList <+: registry then registry.rdropWhile (· = '/')
  else "https://".toList ++ registry

/-- Two packages whose keys coincide: the same directory of registries, and names and versions that differ only in what
the encoders merge or in which `@` ends the name. -/
inductive KeysCoincide (registry name version registry' name' version' : Str) : Prop
  | merged (hdir : segments (safeRegistry registry) = segments (safeRegistry registry'))
      (hname : safeName name = safeName name') (hversion : safeVersion version = safeVersion version')
      (hne : name ≠ name' ∨ version ≠ version' ∨ registryBase registry ≠ registryBase registry')
  | shifted (hdir : segments (safeRegistry registry) = segments (safeRegistry registry'))
      (h : Shifted name version name' version' ∨ Shifted name' version' name version)

theorem package_path_identifies_iff (registry name version registry' name' version' : Str) :
    (packagePath registry name version = packagePath registry' name' version' →
        name = name' ∧ version = version' ∧ registryBase registry = registryBase registry') ↔
      ¬ KeysCoincide registry name version registry' name' version' := by
  rw [packagePath_eq_iff, entryName_eq_iff]
  constructor
  · intro h hcoincide
    cases hcoincide with
    | merged hdir hname hversion hne =>
        obtain ⟨rfl, rfl, hbase⟩ := h ⟨hdir, .inl ⟨hname, hversion⟩⟩
        simp [hbase] at hne
    | shifted hdir hshifted =>
        have heq := (h ⟨hdir, .inr hshifted⟩).1
        rcases hshifted with hs | hs
        · exact hs.name_ne heq
        · exact hs.name_ne heq.symm
  · rintro h ⟨hdir, ⟨hname, hversion⟩ | hshifted⟩
    · by_contra hne
      apply h (.merged hdir hname hversion ?_)
      by_contra hall
      simp only [not_or, not_not] at hall
      exact hne hall
    · exact absurd (.shifted hdir hshifted) h

/-- `a/b` and `a+b`, versions `1/0` and `1_0`, `a@1` at `2` and `a` at `1@2`, two paths of one host: each pair shares a
directory. -/
theorem store_keys_alias :
    packagePath "h".toList "a/b".toList "1".toList = packagePath "h".toList "a+b".toList "1".toList ∧
      packagePath "h".toList "a".toList "1/0".toList = packagePath "h".toList "a".toList "1_0".toList ∧
      packagePath "h".toList "a@1".toList "2".toList = packagePath "h".toList "a".toList "1@2".toList ∧
      packagePath "https://h/x".toList "a".toList "1".toList = packagePath "https://h/y".toList "a".toList "1".toList ∧
      ¬ ∀ (isUppercase : Char → Bool) (registry name version registry' name' version' : Str),
        isValidPackageName isUppercase name = true → isValidPackageName isUppercase name' = true →
          packagePath registry name version = packagePath registry' name' version' →
            name = name' ∧ version = version' ∧ registryBase registry = registryBase registry' := by
  have hslash : packagePath "h".toList "a/b".toList "1".toList = packagePath "h".toList "a+b".toList "1".toList := by
    decide +kernel
  refine ⟨hslash, by decide +kernel, by decide +kernel, by decide +kernel, fun hall => ?_⟩
  have heq := (hall Char.isUpper _ _ _ _ _ _ (by decide +kernel) (by decide +kernel) hslash).1
  exact absurd heq (by decide)

/-! ## Rejected packages -/

/-- A package that a run rejects stays rejected, and recovers from a mismatch, exactly if the bytes match the integrity and
the provenance is kept. -/
theorem stays_rejected_iff {Att : Type} (o : Outside Att) (p : Policy) (a : Answer Att) (h : Held) :
    StaysRejected o p a h ↔ BytesMatch o p a h ∧ ProvenanceKept o p a h := by
  rw [← recovers_iff_bytesMatch, ← second_rejected_iff_provenanceKept]
  constructor
  · intro hstays
    refine ⟨fun hrun => (hstays .integrity hrun).2 rfl, fun r hrun => ?_⟩
    exact (later_rejected_iff hrun).mp (hstays r hrun).1
  · rintro ⟨hrecovers, hsecond⟩ r hrun
    refine ⟨(later_rejected_iff hrun).mpr (hsecond r hrun), ?_⟩
    rintro rfl
    exact hrecovers hrun

/-- A tarball that holds a `package.json`. -/
def tarballA : Bytes :=
  [31, 139, 8, 0, 0, 0, 0, 0, 2, 3, 43, 72, 76, 206, 78, 76, 79, 213, 47, 128, 208, 122, 89, 197, 249, 121, 12, 84, 6, 6,
    64, 96, 102, 98, 2, 166, 129, 0, 157, 54, 48, 48, 54, 67, 176, 65, 226, 134, 134, 102, 70, 166, 12, 10, 6, 12, 116, 0,
    165, 197, 37, 137, 69, 64, 235, 25, 70, 38, 168, 86, 202, 75, 204, 77, 85, 178, 82, 74, 84, 210, 81, 42, 75, 45, 42,
    206, 204, 207, 3, 242, 12, 245, 12, 244, 12, 148, 106, 25, 70, 193, 40, 24, 5, 163, 96, 20, 12, 83, 0, 0, 242, 252, 19,
    23, 0, 8, 0, 0]

def sha512OfTarballA : Str :=
  "QkRMvZmZmg3hWpqR6Eq+qRtVGZGBpXL2b4P/ptdA72r+EuymoVdh+rJCjfce5BxLo33NCHAeFld3jV6C3/PuUw==".toList

/-- The hashes of the tarball and of its first byte; the one response lists no attestations. -/
def noAttestations : Outside Unit where
  digests :=
    { sha512 := fun bytes =>
        if bytes = tarballA then sha512OfTarballA
        else
          "T/OryQAAZt12ilPdHj1pv4XMy9oTIIfwhn6RD0AwVQD2orOXOfgB1RlbCn3nnaceCGJ36+lUDFsjS1lLHe7e3g==".toList
      sha256 := fun _ => [] }
  sha512Hex := fun _ => []
  extract := fun bytes => if bytes = tarballA then .ok ["package.json".toList] else .error "unexpected end of file".toList
  declaredRepository := fun _ => none
  verifyAttestations := fun _ _ => .error "provenance response contains zero attestations".toList

def defaultPolicy : Policy := ⟨false, false, fun _ => none, fun _ => .notTrusted⟩

/-- An invalid provenance is forgotten in the second run, and a download that was cut off is remembered. -/
theorem rejections_forgotten_and_remembered :
    ¬ StaysRejected noAttestations defaultPolicy
        ⟨.ok tarballA, some ("sha512-".toList ++ sha512OfTarballA), .ok (some ())⟩ Held.empty ∧
      ¬ StaysRejected noAttestations defaultPolicy
        ⟨.ok (tarballA.take 1), some ("sha512-".toList ++ sha512OfTarballA), .ok none⟩ Held.empty := by
  constructor
  · intro hstays
    obtain ⟨r, hr⟩ := (hstays (.provenance "invalid provenance: provenance response contains zero attestations".toList)
      (by decide)).1 0
    have haccepted : (download noAttestations defaultPolicy
        ⟨.ok tarballA, some ("sha512-".toList ++ sha512OfTarballA), .ok (some ())⟩
        (again noAttestations defaultPolicy
          ⟨.ok tarballA, some ("sha512-".toList ++ sha512OfTarballA), .ok (some ())⟩ 1 Held.empty)).1 =
          .accepted tarballA := by decide
    rw [haccepted] at hr
    cases hr
  · intro hstays
    have haccepted := (hstays .integrity (by decide)).2 rfl 0
      ⟨.ok tarballA, some ("sha512-".toList ++ sha512OfTarballA), .ok none⟩ tarballA rfl
      ⟨rfl, by decide, by decide⟩
    exact absurd haccepted (by decide)

/-! ## Pinned scopes -/

/-- In a run that does not ask JSR, every lookup is that of the waves and depends on the registry of the package alone, so
the whole resolution does; and what is installed of a version that the store does not have yet is determined by what that
registry answers, up to bytes with one digest. An entry in the store is installed whatever is answered. -/
theorem pinned_scope_determined {Att : Type} (o : Outside Att) (i : Install) (w w' : World Att) (hnpm : i.registry ≠ .jsr)
    (hsame : i.Same w w') (roots : List (Str × Option Str)) (orders : List Order) :
    (∀ node, i.lookup w node = (i.env w).fetch node ∧ i.lookup w node = i.lookup w' node) ∧
      Runs.exec (State.step (i.env w)) (State.start roots) orders =
        Runs.exec (State.step (i.env w')) (State.start roots) orders ∧
      (∀ name r, i.answer w name r = i.answer w' name r → (w.held name r.version).stored = none →
        (w'.held name r.version).stored = none → ∀ e e',
          installedEntry o i.policy (i.answer w name r) (w.held name r.version) = some e →
            installedEntry o i.policy (i.answer w' name r) (w'.held name r.version) = some e' →
              e = e' ∨ Collision o r.integrity) ∧
      ∀ held : Held, isCached held.stored = true → i.policy.zeroInstall = false →
        ∀ a : Answer Att, installedEntry o i.policy a held = held.stored := by
  refine ⟨fun node => ⟨?_, hsame.lookup_eq hnpm node⟩, by rw [hsame.step_eq], ?_, fun held hcached hzero a =>
    installedEntry_stored hcached hzero a⟩
  · unfold Install.lookup
    split
    · rfl
    · rfl
    · rfl
    · contradiction
  · intro name r hanswer hstored hstored' e e' he he'
    rw [← hanswer] at he'
    exact installedEntry_unique hstored hstored' he he'

/-- Another tarball of the same name and version. -/
def tarballB : Bytes :=
  [31, 139, 8, 0, 0, 0, 0, 0, 2, 255, 43, 72, 76, 206, 78, 76, 79, 213, 47, 128, 208, 122, 89, 197, 249, 121, 12, 84, 6, 6,
    64, 96, 102, 98, 2, 166, 129, 0, 157, 54, 48, 48, 53, 65, 176, 65, 226, 134, 134, 102, 70, 166, 12, 10, 6, 12, 116, 0,
    165, 197, 37, 137, 69, 64, 235, 25, 70, 38, 168, 86, 202, 75, 204, 77, 85, 178, 82, 74, 84, 210, 81, 42, 75, 45, 42,
    206, 204, 207, 3, 242, 12, 245, 12, 244, 12, 128, 34, 185, 137, 153, 32, 110, 18, 48, 93, 40, 213, 50, 140, 130, 81, 48,
    10, 70, 193, 40, 24, 54, 0, 0, 29, 27, 12, 236, 0, 8, 0, 0]

def corpName : Str := "@corp/a".toList

def corpUrl : Str := "https://npm.corp.example".toList

/-- The scope `@corp` is pinned to a private registry. -/
def corpInstall (allowedHost : Str) : Install where
  allowedHost := allowedHost
  scopedRegistries := fun scope => if scope = "@corp".toList then some corpUrl else none
  force := false
  strictLock := false
  platform := ⟨"linux".toList, "x64".toList, "glibc".toList⟩
  isUppercase := Char.isUpper
  overrides := fun _ => none
  lock := fun _ => none
  nodeModules := fun _ => none
  policy := defaultPolicy

def versionA (version integrity : Str) : VersionDoc where
  manifest := ⟨some version, .empty, .empty, [], .empty, .none⟩
  tarball := none
  integrity := some ("sha512-".toList ++ integrity)

/-- The private registry has 1.0.0 of every package; others have `elsewhere` for the name. -/
def corpWorld (elsewhere : Option VersionDoc) (held : Held) : World Unit where
  getVersion := fun base name _ =>
    .ok (if base = corpUrl then some (versionA "1.0.0".toList sha512OfTarballA)
      else if name = corpName ∨ base = Install.jsrUrl then elsewhere else none)
  getPackument := fun _ _ => .error "Registry returned HTTP 500".toList
  tarball := fun _ => .ok tarballA
  attestations := fun _ _ _ => .ok none
  store := fun _ _ => none
  held := fun _ _ => held

theorem corpWorld_same {allowedHost : Str} (hbase : (corpInstall allowedHost).registry.baseUrl ≠ Install.jsrUrl)
    (elsewhere elsewhere' : Option VersionDoc) (held held' : Held) :
    (corpInstall allowedHost).Same (corpWorld elsewhere held) (corpWorld elsewhere' held') where
  version name version := by
    by_cases hname : name = corpName
    · subst hname
      have hcorp : (corpInstall allowedHost).base corpName = corpUrl := rfl
      simp [corpWorld, hcorp]
    · have hother : (corpInstall allowedHost).base name = corpUrl ∨ (corpInstall allowedHost).base name ≠ Install.jsrUrl := by
        unfold Install.base
        cases hpin : (corpInstall allowedHost).pinned name with
        | none => exact .inr hbase
        | some url =>
            simp only [Install.pinned, pinnedScopeRegistry, corpInstall, Option.ite_none_right_eq_some,
              Option.bind_eq_some_iff] at hpin
            obtain ⟨-, scope, -, -, hurl⟩ := hpin
            exact .inl (Option.some.inj hurl).symm
      obtain hother | hother := hother
      · simp [corpWorld, hother]
      · simp [corpWorld, hname, hother]
  packument _ := rfl
  store _ _ := rfl

/-- What another project has stored of the name and version, from another registry. -/
def storedB : Held := ⟨none, some ⟨tarballB, ["package.json".toList]⟩, none, none⟩

def corpResolved : Resolved where
  version := "1.0.0".toList
  tarball := "https://npm.corp.example/@corp/a/-/@corp/a-1.0.0.tgz".toList
  integrity := some ("sha512-".toList ++ sha512OfTarballA)

/-- The public registry has a later version, and the tarball is in the cache of the project; or neither. -/
theorem corp_determined :
    (Runs.exec (State.step ((corpInstall []).env (corpWorld (some (versionA "9.9.9".toList [])) Held.empty)))
        (State.start [(corpName, none)]) [⟨[.required corpName none], []⟩]).map (fun s => s.resolved corpName) =
          some (some corpResolved) ∧
      (Runs.exec (State.step ((corpInstall []).env (corpWorld none Held.empty))) (State.start [(corpName, none)])
        [⟨[.required corpName none], []⟩]).map (fun s => s.resolved corpName) = some (some corpResolved) ∧
      (installedEntry noAttestations defaultPolicy
        ((corpInstall []).answer (corpWorld none Held.empty) corpName corpResolved) Held.empty).map Entry.source =
          some tarballA := by
  have h := pinned_scope_determined noAttestations (corpInstall []) (corpWorld (some (versionA "9.9.9".toList [])) Held.empty)
    (corpWorld none Held.empty) (by decide) (corpWorld_same (by decide) _ _ _ _) [(corpName, none)]
    [⟨[.required corpName none], []⟩]
  have hrun : (Runs.exec (State.step ((corpInstall []).env (corpWorld none Held.empty))) (State.start [(corpName, none)])
      [⟨[.required corpName none], []⟩]).map (fun s => s.resolved corpName) = some (some corpResolved) := by
    decide +kernel
  refine ⟨?_, hrun, by decide +kernel⟩
  rw [h.2.1]
  exact hrun

/-- The versions that a lookup has found. -/
def foundVersions : Fetched → List Str
  | .found info _ => info.versions
  | .failed _ | .skipped _ => []

/-- With `--allow-net=jsr.io` JSR is asked for the pinned name; and what another project has stored under the name is
installed instead of what the private registry has. -/
theorem pins_not_kept :
    ((corpInstall "jsr.io".toList).Same (corpWorld (some (versionA "9.9.9".toList [])) Held.empty)
        (corpWorld none Held.empty) ∧
      (corpInstall "jsr.io".toList).pinned corpName = some corpUrl ∧
      foundVersions ((corpInstall "jsr.io".toList).lookup (corpWorld (some (versionA "9.9.9".toList [])) Held.empty)
        (.required corpName none)) = ["9.9.9".toList] ∧
      foundVersions ((corpInstall "jsr.io".toList).lookup (corpWorld none Held.empty) (.required corpName none)) = []) ∧
    ((installedEntry noAttestations defaultPolicy
        ((corpInstall []).answer (corpWorld none storedB) corpName corpResolved) storedB).map Entry.source =
          some tarballB ∧
      (installedEntry noAttestations defaultPolicy
        ((corpInstall []).answer (corpWorld none Held.empty) corpName corpResolved) Held.empty).map Entry.source =
          some tarballA) :=
  ⟨⟨corpWorld_same (by decide) _ _ _ _, by decide, by decide +kernel, by decide +kernel⟩, by decide +kernel,
    by decide +kernel⟩

/-! ## The content store -/

/-- Over every run, all that the store gains is verified exactly if the steps are checked; its entries were there before or
are gains. -/
theorem gains_verified_iff_checked {Att : Type} (o : Outside Att) (before : List Seg → Option Entry)
    (steps : List (Step Att)) :
    (Runs.Along (step o) (Checked o) ⟨before, []⟩ steps ↔
      ∀ pre, pre <+: steps → ∀ store, Runs.exec (step o) ⟨before, []⟩ pre = some store →
        ∀ gain ∈ store.gains, gain.Verified o) ∧
      ∀ store, Runs.exec (step o) ⟨before, []⟩ steps = some store → EntriesGained before store := by
  refine ⟨?_, fun store hrun => exec_entriesGained hrun⟩
  have hkeep : ∀ store s store', (∀ gain ∈ store.gains, gain.Verified o) → True → Checked o store s →
      step o store s = some store' → ∀ gain ∈ store'.gains, gain.Verified o :=
    fun store s store' hstore _ hchecked hstep => step_verified hstore hchecked hstep
  have hbreak : ∀ store s store', (∀ gain ∈ store.gains, gain.Verified o) → True → ¬ Checked o store s →
      step o store s = some store' → ¬ ∀ gain ∈ store'.gains, gain.Verified o :=
    fun store s store' _ _ hunchecked hstep => step_unchecked hunchecked hstep
  obtain ⟨store', hrun⟩ := exec_step (o := o) steps ⟨before, []⟩
  exact Runs.along_iff_reached (fun _ h => h) hkeep hbreak (by simp) (Runs.along_true _ _) hrun

/-- A registry that serves no integrity. -/
def unhashedA : Answer Unit := ⟨.ok tarballA, none, .ok none⟩

def packageA : Package := ⟨"npm".toList, ['a'], "1.0.0".toList⟩

theorem dlx_stores_without_integrity :
    ¬ ∀ store, Runs.exec (step noAttestations) ⟨fun _ => none, []⟩ [.dlxFetch packageA unhashedA] = some store →
      ∀ gain ∈ store.gains, gain.Verified noAttestations := by
  intro hall
  have hunchecked : ¬ FetchChecked noAttestations ⟨fun _ => none, []⟩ packageA unhashedA := by
    intro hchecked
    obtain ⟨hash, hnone, -⟩ := hchecked tarballA rfl (by decide)
    cases hnone
  obtain ⟨gain, hgain, hnot⟩ := fetch_unchecked hunchecked
  exact hnot (hall _ rfl gain hgain)

/-! ## Patches -/

namespace Patch
open Files

/-- A committed patch restores the files of the edited tree, in whatever order directories are read, exactly if the trees
are restorable. It restores the directories as well exactly if none of them is gone. -/
theorem roundTrip_restores_iff (name : Str) (p e : PackageTree) :
    ((∀ order applyOrder q, (roundTrip order applyOrder name p.files e.files).file q = lookup e.files q) ↔
        Restorable p.files e.files) ∧
      ((∀ order applyOrder, (∀ q, (roundTrip order applyOrder name p.files e.files).file q = lookup e.files q) ∧
          ∀ r, r ≠ [] → (roundTrip order applyOrder name p.files e.files).dir r = isDir e.files r) ↔
        Restorable p.files e.files ∧ ∀ r, r ≠ [] → isDir p.files r → isDir e.files r) := by
  refine ⟨⟨restorable_of_restored, fun h _ _ => roundTrip_file h⟩, ?_, ?_⟩
  · intro hall
    have h : Restorable p.files e.files := restorable_of_restored fun order applyOrder => (hall order applyOrder).1
    refine ⟨h, fun r hr hdir => ?_⟩
    rw [← (hall (firstOrder []) (firstOrder [])).2 r hr, roundTrip_dir h hr]
    exact .inl hdir
  · rintro ⟨h, hdirs⟩ order applyOrder
    refine ⟨roundTrip_file h, fun r hr => ?_⟩
    rw [Bool.eq_iff_iff, roundTrip_dir h hr]
    exact ⟨fun hdir => hdir.elim (hdirs r hr) id, .inr⟩

/-- The order in which names are found. -/
def foundOrder : Order := ⟨fun _ names => names, fun _ _ => .refl _⟩

/-- A package with one file. -/
def pristineTree : PackageTree where
  files := [([['a']], [1])]
  distinct := by decide
  rooted := by decide
  apart := by decide
  valid := by decide

/-- An empty file is added. -/
def withEmptyFile : PackageTree where
  files := [([['a']], [1]), ([['b']], [])]
  distinct := by decide
  rooted := by decide
  apart := by decide
  valid := by decide

/-- A file named `.removed` is added, which is taken for the list of removed files. -/
def withReservedFile : PackageTree where
  files := [([['a']], [1]), ([removedName], [97])]
  distinct := by decide
  rooted := by decide
  apart := by decide
  valid := by decide

theorem added_files_lost :
    ¬ (∀ q, (roundTrip foundOrder foundOrder ['a'] pristineTree.files withEmptyFile.files).file q =
        lookup withEmptyFile.files q) ∧
      (roundTrip foundOrder foundOrder ['a'] pristineTree.files withReservedFile.files).file [['a']] = none ∧
      lookup withReservedFile.files [['a']] = some [1] := by
  refine ⟨fun hall => ?_, by decide +kernel, by decide +kernel⟩
  have hlost : (roundTrip foundOrder foundOrder ['a'] pristineTree.files withEmptyFile.files).file [['b']] = none := by
    decide +kernel
  rw [hall] at hlost
  exact absurd hlost (by decide)

end Patch

section Digest

open TreeDigest

/-- The bytes hashed for two trees are equal exactly if the trees have the same paths, kinds and contents, in whatever
order their directories are read; save for a link of the one that is taken for a file of the other. The file then has
the name of the link with `@link`. -/
theorem digest_exact_iff (t t' : TreeDigest.Tree) :
    ((treeBytes t = treeBytes t' ↔ SameTree t t') ↔
        ¬ Confused (sorted t) (sorted t') ∧ ¬ Confused (sorted t') (sorted t)) ∧
      (Confused (sorted t) (sorted t') → ∃ link file data, (link, .link) ∈ t.items ∧ (file, .file data) ∈ t'.items ∧
        relText file = relText link ++ linkSuffix) := by
  rw [← sorted_eq_iff]
  refine ⟨?_, Confused.items⟩
  constructor
  · intro h
    exact ⟨fun hc => hc.updates_eq.2 (h.mp hc.updates_eq.1), fun hc => hc.updates_eq.2 (h.mp hc.updates_eq.1.symm).symm⟩
  · rintro ⟨hleft, hright⟩
    refine ⟨fun h => ?_, congrArg updates⟩
    exact (eq_or_confused sorted_named sorted_named h).resolve_right (not_or.mpr ⟨hleft, hright⟩)

def named (c : Char) (h : c ≠ '\x00' ∧ c ≠ '/' ∧ c ≠ '\\') : FileName := ⟨[c], by simp, by simpa using h⟩

/-- `a` is a link; `b` is empty, and `c` holds zeros. -/
def withLink : TreeDigest.Tree where
  entries := .link (named 'a' (by decide)) (.file (named 'b' (by decide)) ⟨[], by decide⟩
    (.file (named 'c' (by decide)) ⟨List.replicate 86 0, by simp⟩ .nil))
  distinct := by simp [Listing.Distinct, Listing.names, named]

/-- The only file is `a@link`. -/
def withoutLink : TreeDigest.Tree where
  entries := .file ⟨'a' :: linkSuffix, by simp, by simp [linkSuffix]⟩
    ⟨[0, 0, 99, 0] ++ leBytes 8 86 ++ List.replicate 86 0, by decide⟩ .nil
  distinct := by simp [Listing.Distinct, Listing.names]

theorem link_hashed_as_file : treeBytes withLink = treeBytes withoutLink ∧ ¬ SameTree withLink withoutLink := by
  refine ⟨by decide, fun h => ?_⟩
  have hmem : ([['a']], Item.link) ∈ withoutLink.items := (h _).mp List.mem_cons_self
  simp [Tree.items, Listing.items, withoutLink] at hmem

end Digest

end ThreeVa.Store
