import Mathlib.Logic.Function.Basic
import ThreeVa.Lib.Runs
import ThreeVa.Store.Download
import ThreeVa.Store.Lemmas.Download

/-!
# Ways into the content store

What puts entries into the store that all projects share: the download phase of an install, `install_package_impl`, which
`update` uses, `dlx_fetch`, and the loop of `install_config_deps`.
-/

namespace ThreeVa.Store
open Text Permissions

structure Package where
  registry : Str
  name : Str
  version : Str

def Package.path (pkg : Package) : List Seg := packagePath pkg.registry pkg.name pkg.version

/-- An entry that was put into the store, with the integrity its registry served. -/
structure Gain where
  path : List Seg
  bytes : Bytes
  integrity : Option Str

structure ContentStore where
  entries : List Seg → Option Entry
  /-- All gains so far. -/
  gains : List Gain

variable {Att : Type} (o : Outside Att)

namespace ContentStore

variable (store : ContentStore)

def isCached (pkg : Package) : Bool := Store.isCached (store.entries pkg.path)

def storeTarball (pkg : Package) (bytes : Bytes) (integrity : Option Str) : ContentStore :=
  match storable o bytes (store.entries pkg.path) with
  | some files =>
      { entries := Function.update store.entries pkg.path (some ⟨bytes, files⟩)
        gains := store.gains ++ [⟨pkg.path, bytes, integrity⟩] }
  | none => store

/-- The download phase for a version, in a project that holds `held` of it. -/
def install (pkg : Package) (p : Policy) (a : Answer Att) (held : Held) : ContentStore :=
  match (download o p a { held with stored := store.entries pkg.path }).1 with
  | .accepted bytes => store.storeTarball o pkg bytes a.integrity
  | _ => store

/-- `install_package_impl` for a version that is not linked yet; `cached` is the file in `.3va-cache`. -/
def installPackage (pkg : Package) (p : Policy) (force scan : Bool) (a : Answer Att) (cached : Option Bytes) :
    ContentStore :=
  if store.isCached pkg && !force then store
  else
    match if force then a.tarball else cached.elim a.tarball .ok with
    | .error _ => store
    | .ok bytes =>
        if o.digests.verifyFromRegistry bytes a.integrity = .verified ∧ (scan → p.scan bytes = none) then
          store.storeTarball o pkg bytes a.integrity
        else store

/-- The check of `dlx_fetch` and `install_config_deps`. -/
def refused (bytes : Bytes) (integrity : Option Str) : Bool :=
  integrity.isSome &&
    match o.digests.verifyFromRegistry bytes integrity with
    | .mismatch => true
    | .failed _ => true
    | _ => false

def fetchUnlessRefused (pkg : Package) (a : Answer Att) : ContentStore :=
  if store.isCached pkg then store
  else
    match a.tarball with
    | .error _ => store
    | .ok bytes => if refused o bytes a.integrity then store else store.storeTarball o pkg bytes a.integrity

def dlxFetch (pkg : Package) (a : Answer Att) : ContentStore := store.fetchUnlessRefused o pkg a

/-- One round of the loop of `install_config_deps`. -/
def installConfigDep (pkg : Package) (a : Answer Att) : ContentStore := store.fetchUnlessRefused o pkg a

end ContentStore

/-! ## Runs -/

/-- What is done to the store; a command that fails half-way is a shorter list of steps. -/
inductive Step (Att : Type)
  | install (pkg : Package) (p : Policy) (a : Answer Att) (held : Held)
  | installPackage (pkg : Package) (p : Policy) (force scan : Bool) (a : Answer Att) (cached : Option Bytes)
  | dlxFetch (pkg : Package) (a : Answer Att)
  | installConfigDep (pkg : Package) (a : Answer Att)

def step (store : ContentStore) : Step Att → Option ContentStore
  | .install pkg p a held => some (store.install o pkg p a held)
  | .installPackage pkg p force scan a cached => some (store.installPackage o pkg p force scan a cached)
  | .dlxFetch pkg a => some (store.dlxFetch o pkg a)
  | .installConfigDep pkg a => some (store.installConfigDep o pkg a)

/-! ## Integrity -/

/-- The algorithms that can be verified. -/
def SupportedAlgorithm (hash : Str) : Prop := "sha512-".toList <+: hash ∨ "sha256-".toList <+: hash

/-- The bytes were verified against the integrity that was served. -/
def Gain.Verified (gain : Gain) : Prop :=
  ∃ hash, gain.integrity = some hash ∧ SupportedAlgorithm hash ∧
    o.digests.verifyFromRegistry gain.bytes (some hash) = .verified

/-- If the package is not in the store yet and what the registry serves can be put there, there is an integrity of a
supported algorithm. -/
def FetchChecked (store : ContentStore) (pkg : Package) (a : Answer Att) : Prop :=
  ∀ bytes, a.tarball = .ok bytes → (storable o bytes (store.entries pkg.path)).isSome →
    ∃ hash, a.integrity = some hash ∧ SupportedAlgorithm hash

/-- Only `dlx_fetch` and `install_config_deps` have to be given an integrity. -/
def Checked (store : ContentStore) : Step Att → Prop
  | .install .. => True
  | .installPackage .. => True
  | .dlxFetch pkg a => FetchChecked o store pkg a
  | .installConfigDep pkg a => FetchChecked o store pkg a

end ThreeVa.Store

/-! What each way into the content store puts there, and against which integrity it was verified. -/

namespace ThreeVa.Store
open Text Permissions

variable {Att : Type} {o : Outside Att} {store : ContentStore}

/-! ## Integrity -/

theorem compareTo_cases (computed expected : Str) :
    Digests.compareTo computed expected = .verified ∨ Digests.compareTo computed expected = .mismatch := by
  unfold Digests.compareTo
  by_cases heq : computed = expected <;> simp [heq]

theorem stripPrefix_eq_none {pat s : Str} : stripPrefix pat s = none ↔ ¬ pat <+: s := by
  rw [Option.eq_none_iff_forall_ne_some]
  constructor
  · rintro hnone ⟨rest, heq⟩
    exact hnone rest (stripPrefix_eq_some.mpr heq.symm)
  · intro hnot rest heq
    exact hnot ⟨rest, (stripPrefix_eq_some.mp heq).symm⟩

/-- An integrity of a supported algorithm matches or not; any other counts as missing. -/
theorem verifyFromRegistry_cases (d : Digests) (bytes : Bytes) (hash : Str) :
    (SupportedAlgorithm hash ∧
        (d.verifyFromRegistry bytes (some hash) = .verified ∨ d.verifyFromRegistry bytes (some hash) = .mismatch)) ∨
      (¬ SupportedAlgorithm hash ∧ d.verifyFromRegistry bytes (some hash) = .missing) := by
  unfold Digests.verifyFromRegistry Digests.verifyTarball
  cases h512 : stripPrefix "sha512-".toList hash with
  | some expected =>
      refine .inl ⟨.inl ⟨expected, (stripPrefix_eq_some.mp h512).symm⟩, ?_⟩
      simp only [h512]
      exact compareTo_cases _ _
  | none =>
      cases h256 : stripPrefix "sha256-".toList hash with
      | some expected =>
          refine .inl ⟨.inr ⟨expected, (stripPrefix_eq_some.mp h256).symm⟩, ?_⟩
          simp only [h512, h256]
          exact compareTo_cases _ _
      | none =>
          refine .inr ⟨not_or.mpr ⟨stripPrefix_eq_none.mp h512, stripPrefix_eq_none.mp h256⟩, ?_⟩
          simp only [h512, h256]

theorem supportedAlgorithm_of_verified {d : Digests} {bytes : Bytes} {hash : Str}
    (h : d.verifyFromRegistry bytes (some hash) = .verified) : SupportedAlgorithm hash := by
  rcases verifyFromRegistry_cases d bytes hash with ⟨hsupported, -⟩ | ⟨-, hmissing⟩
  · exact hsupported
  · rw [h] at hmissing
    cases hmissing

theorem verified_of_supported {bytes : Bytes} {hash : Str} (h : SupportedAlgorithm hash)
    (hrefused : ContentStore.refused o bytes (some hash) = false) :
    o.digests.verifyFromRegistry bytes (some hash) = .verified := by
  rcases verifyFromRegistry_cases o.digests bytes hash with ⟨-, hverified | hmismatch⟩ | ⟨hnot, -⟩
  · exact hverified
  · simp [ContentStore.refused, hmismatch] at hrefused
  · exact absurd h hnot

theorem not_refused_of_unsupported {bytes : Bytes} {integrity : Option Str}
    (h : ¬ ∃ hash, integrity = some hash ∧ SupportedAlgorithm hash) :
    ContentStore.refused o bytes integrity = false := by
  cases integrity with
  | none => rfl
  | some hash =>
      rcases verifyFromRegistry_cases o.digests bytes hash with ⟨hsupported, -⟩ | ⟨-, hmissing⟩
      · exact absurd ⟨hash, rfl, hsupported⟩ h
      · simp [ContentStore.refused, hmissing]

/-! ## Gains -/

variable {pkg : Package} {a : Answer Att}

theorem gains_storeTarball {bytes : Bytes} {integrity : Option Str} :
    (store.storeTarball o pkg bytes integrity).gains = store.gains ++
      if (storable o bytes (store.entries pkg.path)).isSome then [⟨pkg.path, bytes, integrity⟩] else [] := by
  unfold ContentStore.storeTarball
  cases storable o bytes (store.entries pkg.path) <;> simp

/-- What is verified against a served integrity may be put into the store. -/
theorem verified_storeTarball {bytes : Bytes} {integrity : Option Str} (hstore : ∀ gain ∈ store.gains, gain.Verified o)
    (hbytes : o.digests.verifyFromRegistry bytes integrity = .verified) :
    ∀ gain ∈ (store.storeTarball o pkg bytes integrity).gains, gain.Verified o := by
  intro gain hgain
  rw [gains_storeTarball, List.mem_append] at hgain
  rcases hgain with hgain | hgain
  · exact hstore gain hgain
  · split at hgain
    · rw [List.mem_singleton] at hgain
      subst hgain
      cases integrity with
      | none => simp [Digests.verifyFromRegistry] at hbytes
      | some hash => exact ⟨hash, rfl, supportedAlgorithm_of_verified hbytes, hbytes⟩
    · cases hgain

/-- The download phase accepts only what is verified. -/
theorem verified_of_accepted {p : Policy} {h : Held} {bytes : Bytes} (hrun : (download o p a h).1 = .accepted bytes) :
    o.digests.verifyFromRegistry bytes a.integrity = .verified := by
  unfold download at hrun
  split at hrun
  · cases hrun
  · cases hrun
  · rename_i b bs attestations h' _
    rcases verify_cases (o := o) (p := p) (b :: bs) a.integrity with ⟨r, hearly⟩ | ⟨hintegrity, -⟩
    · simp [hearly] at hrun
    · have hbytes : b :: bs = bytes := by
        split at hrun
        · cases hrun
        · simpa using hrun
      rw [← hbytes]
      unfold checkIntegrity at hintegrity
      cases hhash : a.integrity with
      | none => simp [hhash] at hintegrity
      | some hash =>
          by_contra hnot
          simp [hhash, hnot] at hintegrity

theorem install_verified {p : Policy} {held : Held} (hstore : ∀ gain ∈ store.gains, gain.Verified o) :
    ∀ gain ∈ (store.install o pkg p a held).gains, gain.Verified o := by
  unfold ContentStore.install
  cases hrun : (download o p a { held with stored := store.entries pkg.path }).1 with
  | accepted bytes => exact verified_storeTarball hstore (verified_of_accepted hrun)
  | linked => exact hstore
  | rejected r => exact hstore
  | downloadFailed e => exact hstore

theorem installPackage_verified {p : Policy} {force scan : Bool} {cached : Option Bytes}
    (hstore : ∀ gain ∈ store.gains, gain.Verified o) :
    ∀ gain ∈ (store.installPackage o pkg p force scan a cached).gains, gain.Verified o := by
  unfold ContentStore.installPackage
  split
  · exact hstore
  · split
    · exact hstore
    · split
      · rename_i hchecks
        exact verified_storeTarball hstore hchecks.1
      · exact hstore

theorem fetch_verified (hstore : ∀ gain ∈ store.gains, gain.Verified o) (hchecked : FetchChecked o store pkg a) :
    ∀ gain ∈ (store.fetchUnlessRefused o pkg a).gains, gain.Verified o := by
  unfold ContentStore.fetchUnlessRefused
  split
  · exact hstore
  · cases hbytes : a.tarball with
    | error e => exact hstore
    | ok bytes =>
        simp only
        split
        · exact hstore
        · rename_i hrefused
          intro gain hgain
          rw [gains_storeTarball, List.mem_append] at hgain
          rcases hgain with hgain | hgain
          · exact hstore gain hgain
          · split at hgain
            · rename_i hsome
              obtain ⟨hash, hhash, hsupported⟩ := hchecked bytes hbytes hsome
              rw [List.mem_singleton] at hgain
              subst hgain
              rw [hhash, Bool.not_eq_true] at hrefused
              exact ⟨hash, hhash, hsupported, verified_of_supported hsupported hrefused⟩
            · cases hgain

/-- Without an integrity that can be verified, what is fetched is stored all the same. -/
theorem fetch_unchecked (hunchecked : ¬ FetchChecked o store pkg a) :
    ∃ gain ∈ (store.fetchUnlessRefused o pkg a).gains, ¬ gain.Verified o := by
  obtain ⟨bytes, hbytes, hsome, hnot⟩ : ∃ bytes, a.tarball = .ok bytes ∧
      (storable o bytes (store.entries pkg.path)).isSome ∧
      ¬ ∃ hash, a.integrity = some hash ∧ SupportedAlgorithm hash := by
    simpa only [FetchChecked, not_forall, exists_prop] using hunchecked
  have hcached : store.isCached pkg = false := by
    by_contra hcached
    rw [Bool.not_eq_false] at hcached
    simp [storable, show isCached (store.entries pkg.path) = true from hcached] at hsome
  have hrefused : ContentStore.refused o bytes a.integrity = false :=
    not_refused_of_unsupported hnot
  refine ⟨⟨pkg.path, bytes, a.integrity⟩, ?_, fun ⟨hash, hhash, hsupported, _⟩ => hnot ⟨hash, hhash, hsupported⟩⟩
  unfold ContentStore.fetchUnlessRefused
  simp only [hcached, Bool.false_eq_true, ↓reduceIte, hbytes, hrefused]
  rw [gains_storeTarball, if_pos hsome]
  simp

/-! ## Runs -/

theorem step_verified {s : Step Att} {store' : ContentStore} (hstore : ∀ gain ∈ store.gains, gain.Verified o)
    (hchecked : Checked o store s) (hstep : step o store s = some store') :
    ∀ gain ∈ store'.gains, gain.Verified o := by
  cases s with
  | install pkg p a held =>
      obtain rfl := Option.some.inj hstep
      exact install_verified hstore
  | installPackage pkg p force scan a cached =>
      obtain rfl := Option.some.inj hstep
      exact installPackage_verified hstore
  | dlxFetch pkg a =>
      obtain rfl := Option.some.inj hstep
      exact fetch_verified hstore hchecked
  | installConfigDep pkg a =>
      obtain rfl := Option.some.inj hstep
      exact fetch_verified hstore hchecked

theorem step_unchecked {s : Step Att} {store' : ContentStore} (hunchecked : ¬ Checked o store s)
    (hstep : step o store s = some store') : ¬ ∀ gain ∈ store'.gains, gain.Verified o := by
  cases s with
  | install pkg p a held => exact absurd trivial hunchecked
  | installPackage pkg p force scan a cached => exact absurd trivial hunchecked
  | dlxFetch pkg a =>
      obtain rfl := Option.some.inj hstep
      obtain ⟨gain, hgain, hnot⟩ := fetch_unchecked hunchecked
      exact fun hall => hnot (hall gain hgain)
  | installConfigDep pkg a =>
      obtain rfl := Option.some.inj hstep
      obtain ⟨gain, hgain, hnot⟩ := fetch_unchecked hunchecked
      exact fun hall => hnot (hall gain hgain)

theorem exec_step (steps : List (Step Att)) (store : ContentStore) :
    ∃ store', Runs.exec (step o) store steps = some store' := by
  induction steps generalizing store with
  | nil => exact ⟨store, rfl⟩
  | cons s steps ih =>
      obtain ⟨store₁, hstep⟩ : ∃ store₁, step o store s = some store₁ := by cases s <;> exact ⟨_, rfl⟩
      obtain ⟨store', hrun⟩ := ih store₁
      exact ⟨store', Runs.exec_cons.mpr ⟨store₁, hstep, hrun⟩⟩

/-! ## Entries -/

theorem entries_storeTarball {bytes : Bytes} {integrity : Option Str} :
    (store.storeTarball o pkg bytes integrity).entries pkg.path = storeTarball o bytes (store.entries pkg.path) := by
  unfold ContentStore.storeTarball storeTarball
  cases storable o bytes (store.entries pkg.path) with
  | none => simp
  | some files => simp

/-- The phase and the store agree on the entry. -/
theorem install_entries {p : Policy} {held : Held} :
    (store.install o pkg p a held).entries pkg.path =
      (download o p a { held with stored := store.entries pkg.path }).2.stored := by
  have hfetch := fetch_stored o p a { held with stored := store.entries pkg.path }
  unfold ContentStore.install download
  rcases hfetched : fetch o p a { held with stored := store.entries pkg.path } with ⟨bytes, attestations, h⟩
  rw [hfetched] at hfetch
  cases bytes with
  | error e => exact hfetch.symm
  | ok bytes =>
      cases bytes with
      | nil => exact hfetch.symm
      | cons b bs =>
          simp only
          rcases hverify : verify o p (b :: bs) a.integrity attestations h.recorded with ⟨result, recorded⟩
          cases result with
          | error r => exact hfetch.symm
          | ok _ =>
              simp only at hfetch ⊢
              rw [entries_storeTarball, hfetch]

/-- A step leaves the store as it is, or puts one tarball there. -/
theorem step_cases {s : Step Att} {store' : ContentStore} (hstep : step o store s = some store') :
    store' = store ∨ ∃ pkg bytes integrity, store' = store.storeTarball o pkg bytes integrity := by
  have hfetch : ∀ pkg (a : Answer Att), store.fetchUnlessRefused o pkg a = store ∨
      ∃ pkg' bytes integrity, store.fetchUnlessRefused o pkg a = store.storeTarball o pkg' bytes integrity := by
    intro pkg a
    unfold ContentStore.fetchUnlessRefused
    split
    · exact .inl rfl
    · split
      · exact .inl rfl
      · split
        · exact .inl rfl
        · exact .inr ⟨_, _, _, rfl⟩
  cases s with
  | install pkg p a held =>
      obtain rfl := Option.some.inj hstep
      unfold ContentStore.install
      split
      · exact .inr ⟨_, _, _, rfl⟩
      · exact .inl rfl
  | installPackage pkg p force scan a cached =>
      obtain rfl := Option.some.inj hstep
      unfold ContentStore.installPackage
      split
      · exact .inl rfl
      · split
        · exact .inl rfl
        · split
          · exact .inr ⟨_, _, _, rfl⟩
          · exact .inl rfl
  | dlxFetch pkg a =>
      obtain rfl := Option.some.inj hstep
      exact hfetch pkg a
  | installConfigDep pkg a =>
      obtain rfl := Option.some.inj hstep
      exact hfetch pkg a

/-- Every entry was there before or is one of the gains. -/
def EntriesGained (before : List Seg → Option Entry) (store : ContentStore) : Prop :=
  ∀ path e, store.entries path = some e → before path = some e ∨
    ∃ gain ∈ store.gains, gain.path = path ∧ gain.bytes = e.source

theorem EntriesGained.storeTarball {before : List Seg → Option Entry} {bytes : Bytes} {integrity : Option Str}
    (h : EntriesGained before store) : EntriesGained before (store.storeTarball o pkg bytes integrity) := by
  unfold ContentStore.storeTarball
  cases storable o bytes (store.entries pkg.path) with
  | none => exact h
  | some files =>
      intro path e he
      simp only at he
      by_cases hpath : path = pkg.path
      · subst hpath
        rw [Function.update_self, Option.some.injEq] at he
        subst he
        exact .inr ⟨⟨pkg.path, bytes, integrity⟩, by simp, rfl, rfl⟩
      · rw [Function.update_of_ne hpath] at he
        rcases h path e he with hbefore | ⟨gain, hgain, hgain'⟩
        · exact .inl hbefore
        · exact .inr ⟨gain, List.mem_append_left _ hgain, hgain'⟩

theorem exec_entriesGained {steps : List (Step Att)} {before : List Seg → Option Entry} {store' : ContentStore}
    (hrun : Runs.exec (step o) ⟨before, []⟩ steps = some store') : EntriesGained before store' := by
  apply Runs.exec_preserves ?_ (fun path e he => .inl he) hrun
  intro store s store' hgained hstep
  rcases step_cases hstep with rfl | ⟨pkg, bytes, integrity, rfl⟩
  · exact hgained
  · exact hgained.storeTarball

end ThreeVa.Store
