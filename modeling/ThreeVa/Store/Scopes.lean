import ThreeVa.Store.Download
import ThreeVa.Store.Lemmas.Download

/-!
# Scopes pinned to a registry

What `install_with_transitive_opts` of `pm/src/lib.rs` asks which registry, by the host of `--allow-net` and the scopes
that `.npmrc` pins, and what it then puts into `node_modules`. The answers of all registries, the store and the caches are
a world of their own. The hosts that a run may ask at all are left out: a registry that is not among them ends the run.
-/

namespace ThreeVa.Store
open Text Pm.Install

/-! ## Registries -/

inductive Registry
  | npm
  | jsr
  | yarn
  | custom (url : Str)
deriving DecidableEq

namespace Registry

def fromAllowedHost (host : Str) : Registry :=
  let h := trimStartMatches "http://".toList (trimStartMatches "https://".toList (trim host))
  let h := ((h.splitOn '/').headD h)
  let h := ((h.splitOn ':').headD h)
  if h.isEmpty then npm
  else if h = "jsr.io".toList ∨ ".jsr.io".toList <:+ h ∨ h = "npm.jsr.io".toList then jsr
  else if h = "registry.yarnpkg.com".toList ∨ ".yarnpkg.com".toList <:+ h then yarn
  else if h = "registry.npmjs.org".toList ∨ h = "registry.npmjs.com".toList ∨ ".npmjs.org".toList <:+ h ∨
      ".npmjs.com".toList <:+ h then npm
  else custom ("https://".toList ++ h)

def baseUrl : Registry → Str
  | npm => "https://registry.npmjs.org".toList
  | jsr => "https://jsr.io/api".toList
  | yarn => "https://registry.yarnpkg.com".toList
  | custom url => url

end Registry

/-- `scoped_registries` of `.npmrc`, by scope. -/
def pinnedScopeRegistry (scopedRegistries : Str → Option Str) (packageName : Str) : Option Str :=
  if packageName.head? = some '@' then (packageName.splitOn '/').head?.bind scopedRegistries else none

/-! ## Runs -/

variable {Att : Type}

/-- What lies outside of a run: the answers of the registries by their base URL, what is served at a URL, the
attestations of a version, the `package.json` of a version in the store of the run's registry, and what the store and the
caches hold for a version. -/
structure World (Att : Type) where
  getVersion : Str → Str → Str → Except Str (Option VersionDoc)
  getPackument : Str → Str → Except Str Packument
  tarball : Str → Except Str Bytes
  attestations : Str → Str → Str → Except Str (Option Att)
  store : Str → Str → Option Manifest
  held : Str → Str → Held

/-- The settings of a run and the files of its project. -/
structure Install where
  allowedHost : Str
  scopedRegistries : Str → Option Str
  force : Bool
  strictLock : Bool
  platform : Platform
  isUppercase : Char → Bool
  overrides : Str → Option Str
  lock : Str → Option Pin
  nodeModules : Str → Option Manifest
  policy : Policy

namespace Install

variable (i : Install) (w : World Att)

def registry : Registry := .fromAllowedHost i.allowedHost

def pinned (name : Str) : Option Str := pinnedScopeRegistry i.scopedRegistries name

/-- `base`, and `pkg_base` in the download phase. -/
def base (name : Str) : Str := (i.pinned name).getD i.registry.baseUrl

def env : Env where
  force := i.force
  strictLock := i.strictLock
  platform := i.platform
  baseUrl := i.registry.baseUrl
  pinned := i.pinned
  isUppercase := i.isUppercase
  overrides := i.overrides
  lock := i.lock
  nodeModules := i.nodeModules
  store := w.store
  getVersion := fun name version => w.getVersion (i.base name) name version
  getPackument := fun name => w.getPackument (i.base name) name

def jsrUrl : Str := "https://npm.jsr.io".toList

/-- The name under which JSR serves a package to npm clients. -/
def jsrName (name : Str) : Option Str :=
  if name.head? = some '@' then
    (splitOnce '/' (name.dropWhile (· = '@'))).map fun (scope, rest) =>
      "@jsr/".toList ++ scope ++ "__".toList ++ rest
  else none

/-- The lookups at JSR: no pin is looked at. -/
def jsrEnv : Env :=
  { i.env w with
    baseUrl := jsrUrl
    pinned := fun _ => none
    getVersion := w.getVersion jsrUrl
    getPackument := w.getPackument jsrUrl }

def lookupJsrWithDeps (name version : Str) : Except Str (RegistryInfo × List (Str × Str)) :=
  match jsrName name with
  | none =>
      .error ("JSR only supports scoped packages (e.g. @scope/name). '".toList ++ name ++
        "' is not a valid JSR package name".toList)
  | some npmName =>
      ((i.jsrEnv w).lookupNpmVersion npmName version).mapError fun e =>
        "Package '".toList ++ name ++ "' not found on jsr.io: ".toList ++ e

/-- The task that looks a node up. -/
def lookup (node : WaveNode) : Fetched :=
  match i.registry with
  | .npm | .yarn | .custom _ => (i.env w).fetch node
  | .jsr =>
      match if node.optional && (i.pinned node.name).isNone then (i.env w).lockSaysNotForThisPlatform node else none with
      | some record => .skipped (some record)
      | none =>
          match i.lookupJsrWithDeps w node.name node.versionToFetch with
          | .ok (info, deps) => .found info deps
          | .error message => .failed message

/-- What the registry of a package answers about the version that was resolved. -/
def answer (name : Str) (r : Resolved) : Answer Att where
  tarball := w.tarball r.tarball
  integrity := r.integrity
  attestations := w.attestations (i.base name) name r.version

end Install

/-! ## Links -/

/-- `link_to_virtual_store` into a `node_modules` without the package: the directory in the store is linked if there is
one, and else the bytes are extracted. -/
def linkedEntry (o : Outside Att) (bytes : Bytes) (stored : Option Entry) : Option Entry :=
  stored.or ((o.extract bytes).toOption.map fun files => ⟨bytes, files⟩)

/-- What is in `node_modules` after the download phase. -/
def installedEntry (o : Outside Att) (p : Policy) (a : Answer Att) (h : Held) : Option Entry :=
  match download o p a h with
  | (.linked, h') => h'.stored
  | (.accepted bytes, h') => linkedEntry o bytes h'.stored
  | (.rejected _, _) | (.downloadFailed _, _) => none

/-! ## The guard -/

/-- Two worlds in which the registry of every package answers the same, and the store has the same packages of the scopes
that are not pinned. -/
structure Install.Same (i : Install) (w w' : World Att) : Prop where
  version : ∀ name version, w.getVersion (i.base name) name version = w'.getVersion (i.base name) name version
  packument : ∀ name, w.getPackument (i.base name) name = w'.getPackument (i.base name) name
  store : ∀ name, i.pinned name = none → w.store name = w'.store name

/-- Two texts of bytes that pass the same check. -/
def Collision (o : Outside Att) (integrity : Option Str) : Prop :=
  ∃ bytes bytes', bytes ≠ bytes' ∧ checkIntegrity o bytes integrity = .ok () ∧ checkIntegrity o bytes' integrity = .ok ()

end ThreeVa.Store

/-!
A run asks the registry of a package and no other, and what it puts into `node_modules` without an entry in the store has
passed the integrity that this registry answered.
-/

namespace ThreeVa.Store
open Text Pm.Install

variable {Att : Type} {i : Install} {w w' : World Att}

/-! ## Lookups -/

section

variable (h : i.Same w w')
include h

theorem Install.Same.lookupNpmVersion_eq (name version : Str) :
    (i.env w).lookupNpmVersion name version = (i.env w').lookupNpmVersion name version := by
  have hversion : (i.env w).getVersion name version = (i.env w').getVersion name version := h.version name version
  have hpackument : (i.env w).getPackument name = (i.env w').getPackument name := h.packument name
  simp only [Env.lookupNpmVersion, Env.lookupNpmCompatWithDeps, hversion, hpackument]
  rfl

theorem Install.Same.resolveOptionalDep_eq (name range : Str) :
    (i.env w).resolveOptionalDep name range = (i.env w').resolveOptionalDep name range := by
  have hversion : ∀ version, (i.env w).getVersion name version = (i.env w').getVersion name version := h.version name
  have hpackument : (i.env w).getPackument name = (i.env w').getPackument name := h.packument name
  simp only [Env.resolveOptionalDep, Env.constraintsOf, hversion, hpackument]
  rfl

theorem Install.Same.fetchOnline_eq (node : WaveNode) : (i.env w).fetchOnline node = (i.env w').fetchOnline node := by
  simp only [Env.fetchOnline, h.lookupNpmVersion_eq, h.resolveOptionalDep_eq]
  rfl

theorem Install.Same.fetch_eq (node : WaveNode) : (i.env w).fetch node = (i.env w').fetch node := by
  have honline := h.fetchOnline_eq node
  cases hpin : i.pinned node.name with
  | some pin =>
      have hw : (i.env w).pinned node.name = some pin := hpin
      have hw' : (i.env w').pinned node.name = some pin := hpin
      simp only [Env.fetch, hw, hw', honline]
  | none =>
      have hstore : (i.env w).store node.name = (i.env w').store node.name := h.store node.name hpin
      have hw : (i.env w).pinned node.name = none := hpin
      have hw' : (i.env w').pinned node.name = none := hpin
      have hoffline : (i.env w).offlineResolution node = (i.env w').offlineResolution node := by
        simp only [Env.offlineResolution, hstore]
        rfl
      simp only [Env.fetch, hw, hw', honline, hoffline]
      rfl

theorem Install.Same.lookup_eq (hnpm : i.registry ≠ .jsr) (node : WaveNode) : i.lookup w node = i.lookup w' node := by
  unfold Install.lookup
  split
  · exact h.fetch_eq node
  · exact h.fetch_eq node
  · exact h.fetch_eq node
  · contradiction

theorem Install.Same.result_eq (node : WaveNode) : (i.env w).result node = (i.env w').result node := by
  simp only [Env.result, h.fetch_eq]
  rfl

theorem Install.Same.step_eq : State.step (i.env w) = State.step (i.env w') := by
  have hjoin : State.join (i.env w) = State.join (i.env w') := by
    funext s node
    simp only [State.join, h.result_eq]
  funext s order
  simp only [State.step, hjoin]
  rfl

end

/-! ## Links -/

variable {o : Outside Att} {p : Policy} {a : Answer Att} {held held' : Held} {e e' : Entry}

theorem download_linked (h : download o p a held = (.linked, held')) : held'.stored = held.stored := by
  unfold download at h
  have hfetch := fetch_stored o p a held
  split at h
  · cases h
  next heq =>
    obtain ⟨-, rfl⟩ := Prod.mk.inj h
    rwa [heq] at hfetch
  · split at h <;> cases h

theorem download_accepted {bytes : Bytes} (h : download o p a held = (.accepted bytes, held')) :
    checkIntegrity o bytes a.integrity = .ok () ∧ held'.stored = storeTarball o bytes held.stored := by
  unfold download at h
  have hfetch := fetch_stored o p a held
  split at h
  · cases h
  · cases h
  next heq =>
    rw [heq] at hfetch
    split at h
    · cases h
    next hverify =>
      simp only [Prod.mk.injEq, Outcome.accepted.injEq] at h
      obtain ⟨rfl, rfl⟩ := h
      obtain ⟨r, hrejected⟩ | ⟨hintegrity, -⟩ := verify_cases (o := o) (p := p) _ a.integrity
      · rw [hrejected] at hverify
        cases hverify
      · exact ⟨hintegrity, by rw [← hfetch]⟩

/-- Without an entry in the store, bytes that have passed the integrity are extracted. -/
theorem installedEntry_absent (hstored : held.stored = none) (h : installedEntry o p a held = some e) :
    checkIntegrity o e.source a.integrity = .ok () ∧ o.extract e.source = .ok e.files := by
  unfold installedEntry at h
  split at h
  next heq =>
    rw [download_linked heq, hstored] at h
    cases h
  next bytes held' heq =>
    obtain ⟨hintegrity, hnew⟩ := download_accepted heq
    rw [hnew, hstored] at h
    cases hextract : o.extract bytes with
    | error message =>
        simp [linkedEntry, storeTarball, storable, isCached, hextract, Except.toOption] at h
    | ok files =>
        simp only [linkedEntry, storeTarball, storable, isCached, hextract, Option.elim_none, Bool.false_eq_true,
          if_false, if_true, Option.map_some, Option.some_or, Option.some.injEq] at h
        subst h
        exact ⟨hintegrity, hextract⟩
  · cases h
  · cases h

/-- Two installs without an entry in the store agree, up to bytes with one digest. -/
theorem installedEntry_unique (hstored : held.stored = none) (hstored' : held'.stored = none)
    (h : installedEntry o p a held = some e) (h' : installedEntry o p a held' = some e') :
    e = e' ∨ Collision o a.integrity := by
  obtain ⟨hintegrity, hextract⟩ := installedEntry_absent hstored h
  obtain ⟨hintegrity', hextract'⟩ := installedEntry_absent hstored' h'
  by_cases hsource : e.source = e'.source
  · left
    rw [hsource, hextract'] at hextract
    cases e
    cases e'
    simp_all
  · exact .inr ⟨e.source, e'.source, hsource, hintegrity, hintegrity'⟩

/-- A complete entry in the store is what is installed, whatever the registry answers. -/
theorem installedEntry_stored (hcached : isCached held.stored = true) (hzero : p.zeroInstall = false) (a : Answer Att) :
    installedEntry o p a held = held.stored := by
  have hlocal : localBytes o p held = some [] := by simp [localBytes, hzero, hcached]
  have hdownload : download o p a held = (.linked, held) := by simp [download, fetch, hlocal]
  simp [installedEntry, hdownload]

end ThreeVa.Store
