import ThreeVa.Lib.Entries
import ThreeVa.Locks.Lockfile
import ThreeVa.Locks.Yarn

/-!
# A lockfile from `yarn.lock`

`load_from_yarn_lock` of `pm/src/yarn_lock.rs`: the parsed entries, in the order the hash map gives them, fill the two
tables of a lockfile.
-/

namespace ThreeVa.Locks.Yarn
open Text

inductive YarnGeneration
  | classic
  | berry
deriving DecidableEq

def classify (content : Str) : YarnGeneration :=
  if "__metadata:".toList <:+: content then .berry
  else if ((lines content).take 5).any fun line =>
      "# This file is generated by running \"yarn install\"".toList.isPrefixOf (trim line) then .berry
  else .classic

def YarnEntry.lockfilePackage (entry : YarnEntry) : LockfilePackage where
  version := entry.version
  resolved := entry.resolved
  integrity := entry.integrity
  dev := none
  registry := none

def YarnEntry.lockfileDep (entry : YarnEntry) : LockfileDep where
  version := entry.version
  resolved := entry.resolved
  integrity := entry.integrity
  dependencies := if entry.dependencies = ∅ then none else some entry.dependencies
  dev := none
  registry := none
  optional := none
  os := none
  cpu := none
  libc := none

def rootPackage : LockfilePackage := ⟨"0.0.0".toList, none, none, none, none⟩

/-- The lockfile before the entries are put in; `projectName` is read from the manifest beside the file. -/
def emptyLockfile (projectName : Option Str) : Lockfile where
  lockfileVersion := 0
  name := projectName.getD "yarn-project".toList
  version := "0.0.0".toList
  packages := Finmap.insert [] rootPackage ∅
  dependencies := ∅

/-- One turn of the loop: the last entry of a name stays in `packages`, the first one in `dependencies`. -/
def addEntry (lock : Lockfile) (x : Str × YarnEntry) : Lockfile :=
  let pkgName := extractNameFromKey x.1
  { lock with
    packages := lock.packages.insert (topKey pkgName) x.2.lockfilePackage
    dependencies := lock.dependencies.orInsert pkgName x.2.lockfileDep }

/-- `content` is `none` where there is no file. -/
def loadFromYarnLock (content : Option Str) (projectName : Option Str) (order : Entries Str YarnEntry) :
    Option Lockfile :=
  content.bind fun content =>
    if classify content = .berry then none
    else if order.list = [] then none
    else some (order.list.foldl addEntry (emptyLockfile projectName))

/-! ## What the order must not matter for -/

/-- An order of the parsed entries. -/
def Lists (order : Entries Str YarnEntry) (content : Str) : Prop :=
  ∀ key, order.get? key = (parseYarnEntries content).lookup key

/-- Whatever the order, the lockfile is the same, and consistent. -/
structure LoadsSame (content : Str) (projectName : Option Str) : Prop where
  consistent : ∀ order, Lists order content → ∀ lock ∈ loadFromYarnLock (some content) projectName order,
    lock.Consistent
  orderless : ∀ order order', Lists order content → Lists order' content →
    loadFromYarnLock (some content) projectName order = loadFromYarnLock (some content) projectName order'

/-- Entries whose keys have one name are equal. -/
def OneEntryPerName (content : Str) : Prop :=
  ∀ key entry key' entry', (parseYarnEntries content).lookup key = some entry →
    (parseYarnEntries content).lookup key' = some entry' → extractNameFromKey key = extractNameFromKey key' →
    entry = entry'

/-! The tables of a lockfile as the first and the last entry of each name. -/

/-! ## Orders -/

theorem lists_mem {order : Entries Str YarnEntry} {content : Str} (h : Lists order content) {key : Str}
    {entry : YarnEntry} : (key, entry) ∈ order.list ↔ (parseYarnEntries content).lookup key = some entry := by
  rw [← h key, Entries.get?_eq_some]

theorem exists_lists (content : Str) : ∃ order, Lists order content := (parseYarnEntries content).exists_entries

theorem Lists.front {order : Entries Str YarnEntry} {content : Str} (h : Lists order content) {x : Str × YarnEntry}
    (hx : x ∈ order.list) : Lists (order.front x) content := fun key => by
  rw [← h key]
  exact Entries.get?_congr (fun _ => Entries.mem_front hx) key

theorem orderless_of_nil {order order' : Entries Str YarnEntry} {content : Str} (h : Lists order content)
    (h' : Lists order' content) : order.list = [] ↔ order'.list = [] := by
  have hmem : ∀ x, x ∈ order.list ↔ x ∈ order'.list := fun x => by rw [lists_mem h, lists_mem h']
  simp only [List.eq_nil_iff_forall_not_mem, hmem]

/-! ## The loop -/

theorem foldl_addEntry (l : List (Str × YarnEntry)) (lock : Lockfile) : l.foldl addEntry lock =
    { lock with
      packages := lock.packages.putAll (l.map fun x => (topKey (extractNameFromKey x.1), x.2.lockfilePackage))
      dependencies := lock.dependencies.orInsertAll (l.map fun x => (extractNameFromKey x.1, x.2.lockfileDep)) } := by
  induction l generalizing lock with
  | nil => rfl
  | cons x l ih =>
      rw [List.foldl_cons, ih]
      rfl

theorem lookup_packages {lock : Lockfile} {projectName : Option Str} {l : List (Str × YarnEntry)}
    (h : l.foldl addEntry (emptyLockfile projectName) = lock) (name : Str) : lock.packages.lookup (topKey name) =
      (l.map fun x => (topKey (extractNameFromKey x.1), x.2.lockfilePackage)).reverse.lookup (topKey name) := by
  rw [← h, foldl_addEntry, Finmap.lookup_putAll, emptyLockfile, Finmap.lookup_insert_of_ne _ (topKey_ne_nil name),
    Finmap.lookup_empty, Option.or_none]

theorem lookup_dependencies {lock : Lockfile} {projectName : Option Str} {l : List (Str × YarnEntry)}
    (h : l.foldl addEntry (emptyLockfile projectName) = lock) (name : Str) : lock.dependencies.lookup name =
      (l.map fun x => (extractNameFromKey x.1, x.2.lockfileDep)).lookup name := by
  rw [← h, foldl_addEntry, Finmap.lookup_orInsertAll, emptyLockfile, Finmap.lookup_empty, Option.none_or]

/-! ## One entry for each name -/

/-- Where all values under a key are one, a lookup finds it. -/
theorem lookup_eq_some_of_forall {κ ν : Type} [BEq κ] [LawfulBEq κ] {l : List (κ × ν)} {k : κ} {v : ν}
    (hall : ∀ w, (k, w) ∈ l → w = v) (hmem : (k, v) ∈ l) : l.lookup k = some v := by
  induction l with
  | nil => cases hmem
  | cons x l ih =>
      obtain ⟨k', w⟩ := x
      rw [List.lookup_cons]
      by_cases hkey : k = k'
      · subst hkey
        simp [hall w List.mem_cons_self]
      · rw [beq_false_of_ne hkey]
        have hrest : (k, v) ∈ l := (List.mem_cons.mp hmem).resolve_left fun h => hkey (congrArg Prod.fst h)
        exact ih (fun w hw => hall w (List.mem_cons_of_mem _ hw)) hrest

theorem YarnEntry.lockfileDep_injective : Function.Injective YarnEntry.lockfileDep := by
  intro e e' h
  simp only [YarnEntry.lockfileDep, LockfileDep.mk.injEq, and_true] at h
  obtain ⟨hversion, hresolved, hintegrity, hdeps⟩ := h
  have hmap : e.dependencies = e'.dependencies := by
    split at hdeps <;> split at hdeps <;> simp_all
  cases e
  cases e'
  simp_all

/-- What the tables hold of a name, if it has one entry only. -/
theorem lookup_of_oneEntryPerName {content : Str} (hone : OneEntryPerName content) {order : Entries Str YarnEntry}
    (h : Lists order content) {projectName : Option Str} {lock : Lockfile}
    (hlock : order.list.foldl addEntry (emptyLockfile projectName) = lock) {key : Str} {entry : YarnEntry}
    (hkey : (parseYarnEntries content).lookup key = some entry) :
    lock.packages.lookup (topKey (extractNameFromKey key)) = some entry.lockfilePackage ∧
      lock.dependencies.lookup (extractNameFromKey key) = some entry.lockfileDep := by
  have hentry := (lists_mem h).mpr hkey
  have hsame : ∀ x ∈ order.list, extractNameFromKey x.1 = extractNameFromKey key → x.2 = entry :=
    fun x hx hname => hone x.1 x.2 key entry ((lists_mem h).mp hx) hkey hname
  constructor
  · rw [lookup_packages hlock]
    apply lookup_eq_some_of_forall
    · intro w hw
      obtain ⟨x, hx, heq⟩ := List.mem_map.mp (List.mem_reverse.mp hw)
      rw [Prod.mk.injEq] at heq
      rw [← heq.2, hsame x hx (topKey_injective heq.1)]
    · exact List.mem_reverse.mpr (List.mem_map.mpr ⟨_, hentry, rfl⟩)
  · rw [lookup_dependencies hlock]
    apply lookup_eq_some_of_forall
    · intro w hw
      obtain ⟨x, hx, heq⟩ := List.mem_map.mp hw
      rw [Prod.mk.injEq] at heq
      rw [← heq.2, hsame x hx heq.1]
    · exact List.mem_map.mpr ⟨_, hentry, rfl⟩

/-- A name that no key has is in neither table. -/
theorem lookup_of_no_key {content : Str} {order : Entries Str YarnEntry} (h : Lists order content)
    {projectName : Option Str} {lock : Lockfile}
    (hlock : order.list.foldl addEntry (emptyLockfile projectName) = lock) {name : Str}
    (hname : ∀ key entry, (parseYarnEntries content).lookup key = some entry → extractNameFromKey key ≠ name) :
    lock.packages.lookup (topKey name) = none ∧ lock.dependencies.lookup name = none := by
  have hne : ∀ x ∈ order.list, name ≠ extractNameFromKey x.1 := fun x hx =>
    (hname x.1 x.2 ((lists_mem h).mp hx)).symm
  rw [lookup_packages hlock, lookup_dependencies hlock]
  simp only [List.lookup_eq_none_iff, List.mem_reverse, List.mem_map, forall_exists_index, and_imp,
    forall_apply_eq_imp_iff₂, bne_iff_ne, ne_eq]
  exact ⟨fun x hx heq => hne x hx (topKey_injective heq), hne⟩

theorem consistent_of_oneEntryPerName {content : Str} (hone : OneEntryPerName content)
    {order : Entries Str YarnEntry} (h : Lists order content) {projectName : Option Str} {lock : Lockfile}
    (hlock : order.list.foldl addEntry (emptyLockfile projectName) = lock) : lock.Consistent := by
  intro name
  by_cases hname : ∃ key entry, (parseYarnEntries content).lookup key = some entry ∧ extractNameFromKey key = name
  · obtain ⟨key, entry, hkey, rfl⟩ := hname
    obtain ⟨hpackage, hdep⟩ := lookup_of_oneEntryPerName hone h hlock hkey
    rw [hpackage, hdep]
    rfl
  · push Not at hname
    obtain ⟨hpackage, hdep⟩ := lookup_of_no_key h hlock hname
    rw [hpackage, hdep]
    rfl

/-- A key that is not that of a name is as it was. -/
theorem lookup_packages_other (l : List (Str × YarnEntry)) (projectName : Option Str) {k : Str}
    (h : ∀ name, topKey name ≠ k) : (l.foldl addEntry (emptyLockfile projectName)).packages.lookup k =
      (emptyLockfile projectName).packages.lookup k := by
  have hnone : (l.map fun x => (topKey (extractNameFromKey x.1), x.2.lockfilePackage)).reverse.lookup k = none := by
    simp only [List.lookup_eq_none_iff, List.mem_reverse, List.mem_map, forall_exists_index, and_imp,
      forall_apply_eq_imp_iff₂, bne_iff_ne, ne_eq]
    exact fun x _ => (h _).symm
  rw [foldl_addEntry]
  dsimp only
  rw [Finmap.lookup_putAll, hnone, Option.none_or]

/-- What the tables hold of a name does not depend on the order. -/
theorem lookup_orderless {content : Str} (hone : OneEntryPerName content) {order order' : Entries Str YarnEntry}
    (h : Lists order content) (h' : Lists order' content) {projectName : Option Str} {lock lock' : Lockfile}
    (hlock : order.list.foldl addEntry (emptyLockfile projectName) = lock)
    (hlock' : order'.list.foldl addEntry (emptyLockfile projectName) = lock') (name : Str) :
    lock.packages.lookup (topKey name) = lock'.packages.lookup (topKey name) ∧
      lock.dependencies.lookup name = lock'.dependencies.lookup name := by
  by_cases hname : ∃ key entry, (parseYarnEntries content).lookup key = some entry ∧ extractNameFromKey key = name
  · obtain ⟨key, entry, hkey, rfl⟩ := hname
    obtain ⟨hpackage, hdep⟩ := lookup_of_oneEntryPerName hone h hlock hkey
    obtain ⟨hpackage', hdep'⟩ := lookup_of_oneEntryPerName hone h' hlock' hkey
    exact ⟨hpackage.trans hpackage'.symm, hdep.trans hdep'.symm⟩
  · push Not at hname
    obtain ⟨hpackage, hdep⟩ := lookup_of_no_key h hlock hname
    obtain ⟨hpackage', hdep'⟩ := lookup_of_no_key h' hlock' hname
    exact ⟨hpackage.trans hpackage'.symm, hdep.trans hdep'.symm⟩

theorem foldl_addEntry_orderless {content : Str} (hone : OneEntryPerName content) {order order' : Entries Str YarnEntry}
    (h : Lists order content) (h' : Lists order' content) (projectName : Option Str) :
    order.list.foldl addEntry (emptyLockfile projectName) = order'.list.foldl addEntry (emptyLockfile projectName) := by
  have hname : ∀ name, _ := lookup_orderless hone h h' (rfl : order.list.foldl addEntry (emptyLockfile projectName) = _) rfl
  have hdeps := Finmap.ext_lookup fun name => (hname name).2
  have hpackages : (order.list.foldl addEntry (emptyLockfile projectName)).packages =
      (order'.list.foldl addEntry (emptyLockfile projectName)).packages := by
    apply Finmap.ext_lookup
    intro k
    by_cases hk : ∃ name, topKey name = k
    · obtain ⟨name, rfl⟩ := hk
      exact (hname name).1
    · push Not at hk
      rw [lookup_packages_other _ _ hk, lookup_packages_other _ _ hk]
  rw [foldl_addEntry] at hdeps hpackages ⊢
  rw [foldl_addEntry] at hdeps hpackages ⊢
  dsimp only at hdeps hpackages
  rw [hdeps, hpackages]

/-- The first entry of a name is the one its dependency is made from. -/
theorem lookup_dependencies_front {order : Entries Str YarnEntry} {x : Str × YarnEntry} {projectName : Option Str}
    {lock : Lockfile} (hlock : (order.front x).list.foldl addEntry (emptyLockfile projectName) = lock) :
    lock.dependencies.lookup (extractNameFromKey x.1) = some x.2.lockfileDep := by
  rw [lookup_dependencies hlock]
  simp [Entries.front]

/-! ## The lockfile -/

theorem loadFromYarnLock_of_classic {content : Str} (h : classify content ≠ .berry) (projectName : Option Str)
    (order : Entries Str YarnEntry) : loadFromYarnLock (some content) projectName order =
      if order.list = [] then none else some (order.list.foldl addEntry (emptyLockfile projectName)) := by
  rw [loadFromYarnLock, Option.bind_some, if_neg h]

theorem loadsSame_of_berry {content : Str} (h : classify content = .berry) (projectName : Option Str) :
    LoadsSame content projectName := by
  have hnone : ∀ order, loadFromYarnLock (some content) projectName order = none := fun order => by
    rw [loadFromYarnLock, Option.bind_some, if_pos h]
  constructor
  · intro order _ lock hlock
    rw [hnone] at hlock
    cases hlock
  · intro order order' _ _
    rw [hnone, hnone]

theorem loadsSame_of_oneEntryPerName {content : Str} (hone : OneEntryPerName content) (projectName : Option Str) :
    LoadsSame content projectName := by
  by_cases hberry : classify content = .berry
  · exact loadsSame_of_berry hberry projectName
  constructor
  · intro order horder lock hlock
    rw [loadFromYarnLock_of_classic hberry] at hlock
    split at hlock
    · cases hlock
    · exact consistent_of_oneEntryPerName hone horder (Option.some.inj hlock)
  · intro order order' horder horder'
    rw [loadFromYarnLock_of_classic hberry, loadFromYarnLock_of_classic hberry,
      foldl_addEntry_orderless hone horder horder']
    simp only [orderless_of_nil horder horder']

/-- Either of two entries of a name may come first. -/
theorem LoadsSame.oneEntryPerName {content : Str} {projectName : Option Str} (h : LoadsSame content projectName)
    (hclassic : classify content ≠ .berry) : OneEntryPerName content := by
  intro key entry key' entry' hkey hkey' hname
  obtain ⟨order, horder⟩ := exists_lists content
  have hx := (lists_mem horder).mpr hkey
  have hy := (lists_mem horder).mpr hkey'
  have hsame := h.orderless _ _ (horder.front hx) (horder.front hy)
  rw [loadFromYarnLock_of_classic hclassic, loadFromYarnLock_of_classic hclassic, if_neg (by simp [Entries.front]),
    if_neg (by simp [Entries.front]), Option.some.injEq] at hsame
  have hfirst : _ = some entry.lockfileDep := lookup_dependencies_front hsame
  have hfirst' : _ = some entry'.lockfileDep :=
    lookup_dependencies_front (rfl : (order.front (key', entry')).list.foldl addEntry (emptyLockfile projectName) = _)
  rw [hname] at hfirst
  exact YarnEntry.lockfileDep_injective (Option.some.inj (hfirst.symm.trans hfirst'))

end ThreeVa.Locks.Yarn
