import ThreeVa.Lib.Entries
import ThreeVa.Locks.Lockfile

/-!
# A lockfile from `package-lock.json`

`parse_v2v3` of `pm/src/package_lock.rs`: the two tables of an npm lockfile of version 2 or 3, in the order their hash maps
give them, fill the two tables of a lockfile. The file itself is read by `serde_json`.
-/

namespace ThreeVa.Locks.Npm
open Text

abbrev StrMap := Finmap fun _ : Str => Str

structure NpmPackageV2 where
  version : Option Str
  resolved : Option Str
  integrity : Option Str
  dev : Option Bool
  dependencies : Option StrMap

structure NpmDepV2 where
  version : Str
  resolved : Option Str
  integrity : Option Str
  dev : Option Bool
  dependencies : Option StrMap
  requires : Option StrMap

structure NpmLockV2 where
  name : Str
  version : Option Str
  lockfileVersion : Nat
  packages : Entries Str NpmPackageV2
  dependencies : Entries Str NpmDepV2

/-- The package, with what stands for a version it does not have. -/
def NpmPackageV2.lockfilePackage (pkg : NpmPackageV2) (unversioned : Str) : LockfilePackage where
  version := pkg.version.getD unversioned
  resolved := pkg.resolved
  integrity := pkg.integrity
  dev := pkg.dev
  registry := none

def NpmPackageV2.lockfileDep (pkg : NpmPackageV2) (ver : Str) : LockfileDep where
  version := ver
  resolved := pkg.resolved
  integrity := pkg.integrity
  dependencies := pkg.dependencies
  dev := pkg.dev
  registry := none
  optional := none
  os := none
  cpu := none
  libc := none

def NpmDepV2.lockfileDep (dep : NpmDepV2) : LockfileDep where
  version := dep.version
  resolved := dep.resolved
  integrity := dep.integrity
  dependencies := dep.requires.or dep.dependencies
  dev := dep.dev
  registry := none
  optional := none
  os := none
  cpu := none
  libc := none

/-- The two tables while they are filled. -/
structure Tables where
  packages : Finmap fun _ : Str => LockfilePackage
  dependencies : Finmap fun _ : Str => LockfileDep

def pkgName (key : Str) : Str := (stripPrefix nodeModulesDir key).getD key

def isTopLevel (name : Str) : Bool := !name.contains '/' || name.head? = some '@'

/-- One turn of the loop over `packages`: the first entry of a name stays in `dependencies`. -/
def Tables.addPackage (t : Tables) (x : Str × NpmPackageV2) : Tables :=
  if x.1.isEmpty then { t with packages := t.packages.insert x.1 (x.2.lockfilePackage "0.0.0".toList) }
  else
    { packages := t.packages.insert x.1 (x.2.lockfilePackage "unknown".toList)
      dependencies :=
        if isTopLevel (pkgName x.1) then
          match x.2.version with
          | some ver => t.dependencies.orInsert (pkgName x.1) (x.2.lockfileDep ver)
          | none => t.dependencies
        else t.dependencies }

/-- One turn of the loop over `dependencies`: it replaces what is there. -/
def Tables.addDependency (t : Tables) (x : Str × NpmDepV2) : Tables :=
  { t with dependencies := t.dependencies.insert x.1 x.2.lockfileDep }

def parseV2v3 (npm : NpmLockV2) : Lockfile :=
  let t := npm.dependencies.list.foldl Tables.addDependency (npm.packages.list.foldl Tables.addPackage ⟨∅, ∅⟩)
  { lockfileVersion := npm.lockfileVersion
    name := npm.name
    version := npm.version.getD "0.0.0".toList
    packages := t.packages
    dependencies := t.dependencies }

/-! ## What is installed at the top -/

/-- What a package is locked to, if it has a version. -/
def NpmPackageV2.locked (pkg : NpmPackageV2) : Option LockfileDep := pkg.version.map pkg.lockfileDep

/-- A plain name, or a name in one scope. -/
inductive IsName : Str → Prop
  | plain {name : Str} : name ≠ [] → '/' ∉ name → name.head? ≠ some '@' → IsName name
  | inScope {scope base : Str} : scope ≠ [] → base ≠ [] → '/' ∉ scope → '/' ∉ base →
      IsName ('@' :: scope ++ '/' :: base)

/-- An order of the packages. -/
def NpmLockV2.Lists (npm : NpmLockV2) (order : Entries Str NpmPackageV2) : Prop :=
  ∀ x, x ∈ order.list ↔ x ∈ npm.packages.list

/-- The same lockfile without `dependencies`, its packages in some order. -/
def NpmLockV2.reordered (npm : NpmLockV2) (order : Entries Str NpmPackageV2) : NpmLockV2 :=
  { npm with packages := order, dependencies := .empty }

/-- The packages section locks what is installed at the top of `node_modules`, in whatever order it is read. -/
structure TopLevelExact (npm : NpmLockV2) : Prop where
  keys : ∀ order, npm.Lists order → ∀ name,
    name ∈ (parseV2v3 (npm.reordered order)).dependencies ↔
      IsName name ∧ ∃ pkg, (topKey name, pkg) ∈ npm.packages.list ∧ pkg.version.isSome
  entries : ∀ order, npm.Lists order → ∀ name dep,
    (parseV2v3 (npm.reordered order)).dependencies.lookup name = some dep →
      ∃ pkg, (topKey name, pkg) ∈ npm.packages.list ∧ pkg.locked = some dep

/-- An entry with a version whose key, after `node_modules/`, has no `/` or starts with `@` is that of the package of this
name at the top, or says the same as that one. -/
def TopLevelNamed (npm : NpmLockV2) : Prop :=
  ∀ key pkg, (key, pkg) ∈ npm.packages.list → key ≠ [] → pkg.version.isSome → isTopLevel (pkgName key) = true →
    IsName (pkgName key) ∧ ∃ top, (topKey (pkgName key), top) ∈ npm.packages.list ∧ top.locked = pkg.locked

end ThreeVa.Locks.Npm

/-! ## Lemmas about `package-lock.json` -/

namespace ThreeVa.Locks.Npm
open Text

/-! ## Names -/

theorem pkgName_topKey (name : Str) : pkgName (topKey name) = name := by
  unfold pkgName
  rw [stripPrefix_eq_some.mpr (show topKey name = nodeModulesDir ++ name from rfl)]
  rfl

theorem IsName.isTopLevel {name : Str} (h : IsName name) : isTopLevel name = true := by
  unfold Npm.isTopLevel
  cases h with
  | plain hne hslash hat => simp [hslash]
  | inScope hscope hbase hscopeSlash hbaseSlash => simp

theorem IsName.count_slash {name : Str} (h : IsName name) : name.count '/' ≤ 1 := by
  cases h with
  | plain hne hslash hat => rw [List.count_eq_zero_of_not_mem hslash]; exact Nat.zero_le 1
  | inScope hscope hbase hscopeSlash hbaseSlash =>
      rw [List.cons_append, List.count_cons_of_ne (by decide), List.count_append, List.count_cons_self,
        List.count_eq_zero_of_not_mem hscopeSlash, List.count_eq_zero_of_not_mem hbaseSlash]

/-! ## The loop over the packages -/

/-- What an entry adds to `dependencies`, under which name. -/
def entryDep (x : Str × NpmPackageV2) : Option (Str × LockfileDep) :=
  if x.1 ≠ [] ∧ isTopLevel (pkgName x.1) = true then x.2.locked.map fun dep => (pkgName x.1, dep) else none

theorem entryDep_eq_some {x : Str × NpmPackageV2} {name : Str} {dep : LockfileDep} :
    entryDep x = some (name, dep) ↔
      x.1 ≠ [] ∧ isTopLevel (pkgName x.1) = true ∧ x.2.locked = some dep ∧ pkgName x.1 = name := by
  unfold entryDep
  split
  · rename_i h
    simp [h, and_comm]
  · rename_i h
    simp only [reduceCtorEq, false_iff]
    exact fun hall => h ⟨hall.1, hall.2.1⟩

theorem addPackage_dependencies (t : Tables) (x : Str × NpmPackageV2) :
    (t.addPackage x).dependencies = t.dependencies.orInsertAll (entryDep x).toList := by
  obtain ⟨key, pkg⟩ := x
  unfold Tables.addPackage entryDep NpmPackageV2.locked
  by_cases hkey : key = []
  · simp [hkey, Finmap.orInsertAll]
  · by_cases htop : isTopLevel (pkgName key) = true
    · cases pkg.version <;> simp [hkey, htop, Finmap.orInsertAll]
    · simp [hkey, htop, Finmap.orInsertAll]

theorem foldl_addPackage_dependencies (t : Tables) (l : List (Str × NpmPackageV2)) :
    (l.foldl Tables.addPackage t).dependencies = t.dependencies.orInsertAll (l.filterMap entryDep) := by
  induction l generalizing t with
  | nil => rfl
  | cons x l ih =>
      rw [List.foldl_cons, ih, addPackage_dependencies, ← Finmap.orInsertAll_append]
      congr 1
      cases h : entryDep x with
      | none => rw [List.filterMap_cons_none h]; rfl
      | some y => rw [List.filterMap_cons_some h]; rfl

variable {npm : NpmLockV2} {order : Entries Str NpmPackageV2} {name : Str} {dep : LockfileDep}

/-- The first entry of a name stays. -/
theorem lookup_parseV2v3 (npm : NpmLockV2) (order : Entries Str NpmPackageV2) (name : Str) :
    (parseV2v3 (npm.reordered order)).dependencies.lookup name = (order.list.filterMap entryDep).lookup name := by
  change ((order.list.foldl Tables.addPackage ⟨∅, ∅⟩).dependencies).lookup name = _
  rw [foldl_addPackage_dependencies, Finmap.lookup_orInsertAll, Finmap.lookup_empty, Option.none_or]

theorem entry_of_lookup (h : (parseV2v3 (npm.reordered order)).dependencies.lookup name = some dep) :
    ∃ x ∈ order.list, entryDep x = some (name, dep) := by
  rw [lookup_parseV2v3] at h
  obtain ⟨l₁, l₂, hsplit, -⟩ := List.lookup_eq_some_iff.mp h
  exact List.mem_filterMap.mp (hsplit ▸ List.mem_append_right l₁ List.mem_cons_self)

theorem mem_of_entry {x : Str × NpmPackageV2} (hx : x ∈ order.list) (h : entryDep x = some (name, dep)) :
    name ∈ (parseV2v3 (npm.reordered order)).dependencies := by
  rw [← Finmap.lookup_isSome, lookup_parseV2v3]
  cases hlookup : (order.list.filterMap entryDep).lookup name with
  | some d => rfl
  | none =>
      have hnone := List.lookup_eq_none_iff.mp hlookup _ (List.mem_filterMap.mpr ⟨x, hx, h⟩)
      simp at hnone

/-- An entry that comes first is what its name is locked to. -/
theorem lookup_front {x : Str × NpmPackageV2} (h : entryDep x = some (name, dep)) :
    (parseV2v3 (npm.reordered (npm.packages.front x))).dependencies.lookup name = some dep := by
  rw [lookup_parseV2v3]
  unfold Entries.front
  rw [List.filterMap_cons_some h, List.lookup_cons_self]

theorem lists_front {x : Str × NpmPackageV2} (hx : x ∈ npm.packages.list) : npm.Lists (npm.packages.front x) :=
  fun _ => Entries.mem_front hx

/-! ## What is installed at the top -/

/-- Whatever is locked under a name is what the package of this name at the top is locked to. -/
theorem TopLevelNamed.entry (h : TopLevelNamed npm) {x : Str × NpmPackageV2} (hx : x ∈ npm.packages.list)
    (hentry : entryDep x = some (name, dep)) :
    IsName name ∧ ∃ pkg, (topKey name, pkg) ∈ npm.packages.list ∧ pkg.locked = some dep := by
  obtain ⟨hkey, htop, hlocked, rfl⟩ := entryDep_eq_some.mp hentry
  have hversion : x.2.version.isSome := by
    unfold NpmPackageV2.locked at hlocked
    rw [← Option.isSome_map, hlocked]
    rfl
  obtain ⟨hname, pkg, hpkg, hsame⟩ := h x.1 x.2 hx hkey hversion htop
  exact ⟨hname, pkg, hpkg, hsame.trans hlocked⟩

theorem isSome_locked {pkg : NpmPackageV2} : pkg.locked.isSome = pkg.version.isSome := Option.isSome_map

theorem topLevelExact_of_named (h : TopLevelNamed npm) : TopLevelExact npm where
  keys := by
    intro order hlists name
    constructor
    · intro hmem
      obtain ⟨dep, hdep⟩ := Finmap.mem_iff.mp hmem
      obtain ⟨x, hx, hentry⟩ := entry_of_lookup hdep
      obtain ⟨hname, pkg, hpkg, hlocked⟩ := h.entry ((hlists x).mp hx) hentry
      exact ⟨hname, pkg, hpkg, by rw [← isSome_locked, hlocked]; rfl⟩
    · rintro ⟨hname, pkg, hpkg, hversion⟩
      obtain ⟨dep, hdep⟩ := Option.isSome_iff_exists.mp (isSome_locked.trans hversion)
      refine mem_of_entry ((hlists _).mpr hpkg) (entryDep_eq_some.mpr ⟨topKey_ne_nil name, ?_, hdep, pkgName_topKey name⟩)
      rw [pkgName_topKey]
      exact hname.isTopLevel
  entries := by
    intro order hlists name dep hdep
    obtain ⟨x, hx, hentry⟩ := entry_of_lookup hdep
    exact (h.entry ((hlists x).mp hx) hentry).2

/-- The order in which the entry comes first shows it. -/
theorem TopLevelExact.named (h : TopLevelExact npm) : TopLevelNamed npm := by
  intro key pkg hpkg hkey hversion htop
  obtain ⟨dep, hdep⟩ := Option.isSome_iff_exists.mp (isSome_locked.trans hversion)
  have hentry : entryDep (key, pkg) = some (pkgName key, dep) := entryDep_eq_some.mpr ⟨hkey, htop, hdep, rfl⟩
  have hlookup : (parseV2v3 (npm.reordered (npm.packages.front (key, pkg)))).dependencies.lookup (pkgName key) = some dep :=
    lookup_front hentry
  have hmem := Finmap.mem_of_lookup_eq_some hlookup
  obtain ⟨top, htopEntry, hlocked⟩ := h.entries _ (lists_front hpkg) _ _ hlookup
  exact ⟨((h.keys _ (lists_front hpkg) _).mp hmem).1, top, htopEntry, hlocked.trans hdep.symm⟩

end ThreeVa.Locks.Npm
