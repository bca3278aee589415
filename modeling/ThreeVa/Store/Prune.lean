import ThreeVa.Lib.Entries
import ThreeVa.Locks.Lockfile
import ThreeVa.Store.Paths
import ThreeVa.Store.Scopes
import ThreeVa.Store.Lemmas.Paths

/-!
# Pruning the store

`prune` and `keys_from_lockfile` of `pm/src/store.rs`. The store is a directory for each registry with a directory for
each package in it; what else lies there is passed over. A directory that is to be removed can be.
-/

namespace ThreeVa.Store
open Text Permissions Locks

/-! ## The store as it lies on disk -/

/-- The name of a directory. -/
structure DirName where
  text : Str
  named : isName text = true
  slash : '/' ∉ text

structure PackageDir where
  name : DirName
  size : Nat

structure RegistryDir where
  name : DirName
  packages : List PackageDir

/-- The entries, by registry and package. -/
def storeEntries (store : List RegistryDir) : List (DirName × DirName) :=
  store.flatMap fun reg => reg.packages.map fun pkg => (reg.name, pkg.name)

/-! ## Pruning -/

structure PruneResult where
  removed : Nat
  freedBytes : Nat
deriving DecidableEq

def pruneRegistry (keep : List Str) (reg : DirName) : List PackageDir → PruneResult → List PackageDir × PruneResult
  | [], res => ([], res)
  | pkg :: rest, res =>
      if reg.text ++ '/' :: pkg.name.text ∈ keep then
        let (kept, res) := pruneRegistry keep reg rest res
        (pkg :: kept, res)
      else pruneRegistry keep reg rest ⟨res.removed + 1, res.freedBytes + pkg.size⟩

def pruneFrom (keep : List Str) : List RegistryDir → PruneResult → List RegistryDir × PruneResult
  | [], res => ([], res)
  | reg :: rest, res =>
      let (packages, res) := pruneRegistry keep reg.name reg.packages res
      let (regs, res) := pruneFrom keep rest res
      ({ reg with packages } :: regs, res)

def prune (store : List RegistryDir) (keep : List Str) : List RegistryDir × PruneResult := pruneFrom keep store ⟨0, 0⟩

/-- The key of a dependency with a recorded registry. -/
def lockfileKey (pkgName : Str) (dep : LockfileDep) : Option Str :=
  dep.registry.map fun reg => safeRegistry reg ++ '/' :: (safeName pkgName ++ '@' :: dep.version)

def keysFromLockfile (dependencies : Entries Str LockfileDep) : List Str :=
  dependencies.list.filterMap fun x => lockfileKey x.1 x.2

/-! ## What a lockfile needs -/

def Registry.displayName : Registry → Str
  | npm => "registry.npmjs.org".toList
  | jsr => "jsr.io".toList
  | yarn => "registry.yarnpkg.com".toList
  | custom url => url

def resolveInstalledRegistry (dependencies : Entries Str LockfileDep) (name : Str) : Str :=
  match (dependencies.get? name).bind LockfileDep.registry with
  | some reg => reg
  | none => Registry.npm.displayName

/-- The path of a dependency is this entry. -/
def PathAt (dependencies : Entries Str LockfileDep) (name version : Str) (e : DirName × DirName) : Prop :=
  packagePath (resolveInstalledRegistry dependencies name) name version = [.normal e.1.text, .normal e.2.text]

/-- Some dependency is stored in this entry. -/
def Needs (dependencies : Entries Str LockfileDep) (e : DirName × DirName) : Prop :=
  ∃ x ∈ dependencies.list, PathAt dependencies x.1 x.2.version e

/-- Some dependency has the key of this entry. -/
def Keys (dependencies : Entries Str LockfileDep) (e : DirName × DirName) : Prop :=
  ∃ x ∈ dependencies.list, lockfileKey x.1 x.2 = some (e.1.text ++ '/' :: e.2.text)

/-- The entries that are left are those that were there and are needed. -/
def PrunesExactly (store : List RegistryDir) (dependencies : Entries Str LockfileDep) : Prop :=
  ∀ e, e ∈ storeEntries (prune store (keysFromLockfile dependencies)).1 ↔ e ∈ storeEntries store ∧ Needs dependencies e

/-- The registry is recorded and nothing in the version is replaced. -/
def Keyed (dep : LockfileDep) : Prop := dep.registry.isSome ∧ '/' ∉ dep.version ∧ '\\' ∉ dep.version

/-- Where a dependency is not keyed, the entry it is stored in is kept for another one, and the entry that has its key
is needed by another one, if they are in the store. -/
def OthersCover (store : List RegistryDir) (dependencies : Entries Str LockfileDep) : Prop :=
  ∀ x ∈ dependencies.list, ¬ Keyed x.2 → ∀ e ∈ storeEntries store,
    (PathAt dependencies x.1 x.2.version e → Keys dependencies e) ∧
      (lockfileKey x.1 x.2 = some (e.1.text ++ '/' :: e.2.text) → Needs dependencies e)

/-! What pruning leaves, and where the key of a dependency and its path are the same entry. -/

/-! ## Pruning -/

theorem mem_pruneRegistry {keep : List Str} {reg : DirName} {packages : List PackageDir} (res : PruneResult)
    {pkg : PackageDir} : pkg ∈ (pruneRegistry keep reg packages res).1 ↔
      pkg ∈ packages ∧ reg.text ++ '/' :: pkg.name.text ∈ keep := by
  induction packages generalizing res with
  | nil => simp [pruneRegistry]
  | cons p packages ih =>
      rw [pruneRegistry]
      split
      · rename_i hkeep
        rw [List.mem_cons, ih, List.mem_cons]
        constructor
        · rintro (rfl | h)
          · exact ⟨.inl rfl, hkeep⟩
          · exact ⟨.inr h.1, h.2⟩
        · rintro ⟨rfl | h, hpkg⟩
          · exact .inl rfl
          · exact .inr ⟨h, hpkg⟩
      · rename_i hdrop
        rw [ih, List.mem_cons]
        constructor
        · exact fun h => ⟨.inr h.1, h.2⟩
        · rintro ⟨rfl | h, hpkg⟩
          · exact absurd hpkg hdrop
          · exact ⟨h, hpkg⟩

theorem mem_storeEntries_pruneFrom {keep : List Str} {store : List RegistryDir} (res : PruneResult)
    {e : DirName × DirName} : e ∈ storeEntries (pruneFrom keep store res).1 ↔
      e ∈ storeEntries store ∧ e.1.text ++ '/' :: e.2.text ∈ keep := by
  induction store generalizing res with
  | nil => simp [pruneFrom, storeEntries]
  | cons reg store ih =>
      have hrest := ih (pruneRegistry keep reg.name reg.packages res).2
      unfold storeEntries at hrest ⊢
      rw [pruneFrom, List.flatMap_cons, List.mem_append, hrest, List.flatMap_cons, List.mem_append, or_and_right]
      apply or_congr_left
      simp only [List.mem_map, mem_pruneRegistry]
      constructor
      · rintro ⟨pkg, ⟨hpkg, hkeep⟩, rfl⟩
        exact ⟨⟨pkg, hpkg, rfl⟩, hkeep⟩
      · rintro ⟨⟨pkg, hpkg, rfl⟩, hkeep⟩
        exact ⟨pkg, ⟨hpkg, hkeep⟩, rfl⟩

/-- What is left is what was there and has the key of a dependency. -/
theorem mem_storeEntries_prune {store : List RegistryDir} {dependencies : Entries Str LockfileDep}
    {e : DirName × DirName} : e ∈ storeEntries (prune store (keysFromLockfile dependencies)).1 ↔
      e ∈ storeEntries store ∧ Keys dependencies e := by
  rw [prune, mem_storeEntries_pruneFrom]
  simp only [keysFromLockfile, List.mem_filterMap, Keys]

/-! ## Keys and paths -/

/-- A text without a slash is at most one component. -/
theorem segments_of_slash_not_mem {s reg : Str} (hs : '/' ∉ s) (hreg : isName reg = true) :
    segments s = [.normal reg] ↔ s = reg := by
  constructor
  · intro h
    rw [segments, List.splitOn_eq_singleton hs] at h
    by_cases hdot : s = [] ∨ s = ['.']
    · simp [hdot] at h
    · by_cases hdots : s = ['.', '.']
      · simp [hdots] at h
      · simpa [hdot, hdots] using h
  · rintro rfl
    rw [segments_eq_map, List.splitOn_eq_singleton hs, List.map_singleton]
    rw [List.splitOn_eq_singleton hs]
    simpa using hreg

/-- A dependency lies where its registry and its name and version say. -/
theorem pathAt_iff {dependencies : Entries Str LockfileDep} {name version : Str} {e : DirName × DirName} :
    PathAt dependencies name version e ↔
      safeRegistry (resolveInstalledRegistry dependencies name) = e.1.text ∧ entryName name version = e.2.text := by
  rw [← segments_of_slash_not_mem (slash_not_mem_safeRegistry _) e.1.named, PathAt, packagePath_eq]
  constructor
  · intro h
    have hparts : _ = [Seg.normal e.1.text] ++ [Seg.normal e.2.text] := h
    obtain ⟨hdir, hentry⟩ := List.append_inj' hparts rfl
    exact ⟨hdir, by simpa using hentry⟩
  · rintro ⟨hdir, hentry⟩
    rw [hdir, hentry]
    rfl

theorem lockfileKey_eq_some {name : Str} {dep : LockfileDep} {e : DirName × DirName} :
    lockfileKey name dep = some (e.1.text ++ '/' :: e.2.text) ↔
      ∃ reg, dep.registry = some reg ∧ safeRegistry reg = e.1.text ∧
        safeName name ++ '@' :: dep.version = e.2.text := by
  unfold lockfileKey
  rw [Option.map_eq_some_iff]
  refine exists_congr fun reg => and_congr_right fun _ => ⟨fun h => ?_, fun ⟨hreg, hpkg⟩ => by rw [hreg, hpkg]⟩
  have hsplit := congrArg (splitOnce '/') h
  rw [splitOnce_append (slash_not_mem_safeRegistry reg), splitOnce_append e.1.slash, Option.some.injEq,
    Prod.mk.injEq] at hsplit
  exact hsplit

theorem safeVersion_of_not_mem {version : Str} (hslash : '/' ∉ version) (hback : '\\' ∉ version) :
    safeVersion version = version := by
  unfold safeVersion
  conv_rhs => rw [← List.map_id version]
  apply List.map_congr_left
  intro c hc
  have hne : c ≠ '/' ∧ c ≠ '\\' := ⟨fun h => hslash (h ▸ hc), fun h => hback (h ▸ hc)⟩
  simp [hne]

theorem resolveInstalledRegistry_of_mem {dependencies : Entries Str LockfileDep} {x : Str × LockfileDep}
    (hx : x ∈ dependencies.list) :
    resolveInstalledRegistry dependencies x.1 = x.2.registry.getD Registry.npm.displayName := by
  have hget : dependencies.get? x.1 = some x.2 := Entries.get?_eq_some.mpr hx
  rw [resolveInstalledRegistry, hget, Option.bind_some]
  cases x.2.registry <;> rfl

/-- The key of a keyed dependency is the entry it is stored in. -/
theorem Keyed.key_iff_path {dependencies : Entries Str LockfileDep} {x : Str × LockfileDep}
    (hx : x ∈ dependencies.list) (h : Keyed x.2) (e : DirName × DirName) :
    lockfileKey x.1 x.2 = some (e.1.text ++ '/' :: e.2.text) ↔ PathAt dependencies x.1 x.2.version e := by
  obtain ⟨hsome, hslash, hback⟩ := h
  obtain ⟨reg, hreg⟩ := Option.isSome_iff_exists.mp hsome
  rw [lockfileKey_eq_some, pathAt_iff, resolveInstalledRegistry_of_mem hx, hreg, entryName,
    safeVersion_of_not_mem hslash hback]
  simp

/-! ## What is kept and what is needed -/

theorem prunesExactly_iff_keys {store : List RegistryDir} {dependencies : Entries Str LockfileDep} :
    PrunesExactly store dependencies ↔ ∀ e ∈ storeEntries store, Keys dependencies e ↔ Needs dependencies e := by
  unfold PrunesExactly
  simp only [mem_storeEntries_prune, and_congr_right_iff]

theorem keys_iff_needs_of_othersCover {store : List RegistryDir} {dependencies : Entries Str LockfileDep}
    (h : OthersCover store dependencies) {e : DirName × DirName} (he : e ∈ storeEntries store) :
    Keys dependencies e ↔ Needs dependencies e := by
  constructor
  · rintro ⟨x, hx, hkey⟩
    by_cases hkeyed : Keyed x.2
    · exact ⟨x, hx, (hkeyed.key_iff_path hx e).mp hkey⟩
    · exact (h x hx hkeyed e he).2 hkey
  · rintro ⟨x, hx, hpath⟩
    by_cases hkeyed : Keyed x.2
    · exact ⟨x, hx, (hkeyed.key_iff_path hx e).mpr hpath⟩
    · exact (h x hx hkeyed e he).1 hpath

end ThreeVa.Store
