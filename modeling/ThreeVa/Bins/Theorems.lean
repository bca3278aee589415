import Mathlib.Data.List.Dedup
import ThreeVa.Bins.Lemmas.Owner

/-!
# Theorems about command shims
-/

namespace ThreeVa.Bins
open Text Entries Lexical

variable {disk : Disk}

/-! ## Who gets a command -/

/-- A command goes to the package without a scope that is named after it exactly if no scope sorted before it has a
package of that name with the command too, and to whom it goes does not depend on the order of directories. -/
theorem command_owner_iff {project : List Str} {name rel : Str}
    (hdir : disk.isDir (ofNames (project ++ [nodeModulesName])) = true)
    (hown : DeclaresOwn disk (ofNames (project ++ [nodeModulesName])) name rel) :
    let root := ofNames (project ++ [nodeModulesName])
    let link := disk.linkOf root (root ++ [.into name]) name (name, rel)
    ((disk.linkBins root).shimAt (bin root) name = some ⟨bin root, link.target, link⟩ ↔ ¬ ScopedRival disk root name) ∧
      ∀ disk', SameTree disk disk' → disk'.linkBins root = disk.linkBins root := by
  intro root link
  refine ⟨?_, fun disk' h => h.linkBins root⟩
  have henough : Enough disk (disk.pathMax + 1) root := by unfold Enough; omega
  have hroot : ∀ scope, root.getLast? = some (.into scope) → scope.head? ≠ some '@' := by
    intro scope hlast
    have hlast' : root.getLast? = some (.into nodeModulesName) := by simp [root, ofNames]
    rw [hlast, Option.some.injEq, Step.into.injEq] at hlast'
    rw [hlast']
    decide
  have hok : (disk.collectFromLevel root (disk.pathMax + 1) root ⟨Entries.empty, [], [], []⟩).Ok disk
      (project ++ [nodeModulesName]) := by simpa using Walk.Ok.start.collectFromLevel (disk.pathMax + 1) []
  have hshim := shimAt_top hok (disk.linkBins root) (by simp [Disk.linkBins, hdir, root]) name
  have hwanted : (disk.collectFromLevel root (disk.pathMax + 1) root ⟨Entries.empty, [], [], []⟩).wanted.get? name =
      (disk.levelClaims root (disk.pathMax + 1) root).find? (isOwn name) := by
    rw [Disk.collectFromLevel_wanted, get?_foldl_takeClaim]
    obtain ⟨own, hmem, hname, howns⟩ :=
      (exists_owning_levelClaims root henough hown.plain).mpr ⟨root, rel, .here, hown⟩
    have hempty : (Entries.empty : Entries Str BinLink).get? name = none := rfl
    have hown' : (fun link : BinLink => decide (decide (link.name = name) = true ∧ owns link.owner name = true)) =
        isOwn name := by
      funext link
      simp [isOwn]
    rw [hempty, Option.toList_none, List.nil_append, preferred, List.find?_filter, hown']
    cases hfind : (disk.levelClaims root (disk.pathMax + 1) root).find? (isOwn name) with
    | none => exact absurd (isOwn_iff.mpr ⟨hname, howns⟩) (List.find?_eq_none.mp hfind own hmem)
    | some first => rw [Option.some_or]
  rw [hshim, hwanted, ← find?_levelClaims_eq henough hroot hown]
  constructor
  · intro h
    obtain ⟨first, hfirst, heq⟩ := Option.map_eq_some_iff.mp h
    rw [hfirst]
    exact congrArg some (congrArg Shim.link heq)
  · intro h
    rw [h, Option.map_some]

/-- A disk with the given files, manifests by directory, and no symbolic links. -/
def treeOf (files : List (List Str)) (manifests : List (List Str × Manifest))
    (h : ∀ f ∈ files, ∀ n ∈ f, '/' ∉ n) : Disk where
  readDir p :=
    if p.length ≤ 16 ∧ files.any (fun f => (normalize p).isPrefixOf f) then
      some (files.filterMap fun f =>
        if normalize p <+: f then (f.drop (normalize p).length).head? else none).dedup
    else none
  isDir p := files.any fun f => (normalize p).isPrefixOf f && f ≠ normalize p
  isFile p := normalize p ∈ files
  canonicalize p := if files.any (fun f => (normalize p).isPrefixOf f) then some (ofNames (normalize p)) else none
  manifest p := manifests.lookup (normalize p)
  pathMax := 16
  readDir_le := by
    intro p hp
    by_contra hlong
    exact hp (if_neg fun h => hlong h.1)
  readDir_names := by
    intro p names hnames n hn
    split at hnames
    · rw [← Option.some.inj hnames, List.mem_dedup, List.mem_filterMap] at hn
      obtain ⟨f, hf, hn⟩ := hn
      split at hn
      · exact h f hf n (List.mem_of_mem_drop (List.mem_of_head? hn))
      · cases hn
    · cases hnames

def cliName : Str := "cli.js".toList

/-- The string form of `bin`. -/
def cliManifest : Manifest := ⟨.single cliName, none, none⟩

/-- The project `/p` with the package `n`, and with `@x/n` if asked for. -/
def ownerTree (rival : Bool) : Disk :=
  let inModules (pkg : List Str) : List Str := [['p'], nodeModulesName] ++ pkg
  let pkgs : List (List Str) := if rival then [[['@', 'x'], ['n']], [['n']]] else [[['n']]]
  treeOf (pkgs.map fun pkg => inModules (pkg ++ [cliName])) (pkgs.map fun pkg => (inModules pkg, cliManifest))
    (by cases rival <;> decide)

theorem ownerTree_declares (rival : Bool) :
    DeclaresOwn (ownerTree rival) (ofNames ([['p']] ++ [nodeModulesName])) ['n'] cliName where
  listed := by
    cases rival
    · exact ⟨_, rfl, by decide⟩
    · exact ⟨_, rfl, by decide⟩
  plain := by decide
  isDir := by cases rival <;> decide
  declared := ⟨cliManifest, ['n'], by cases rival <;> rfl, by decide, by decide, by cases rival <;> decide⟩

/-- Without a scope in the tree the package has its command. -/
theorem command_owner_alone :
    let root := ofNames ([['p']] ++ [nodeModulesName])
    let link := (ownerTree false).linkOf root (root ++ [.into ['n']]) ['n'] (['n'], cliName)
    ((ownerTree false).linkBins root).shimAt (bin root) ['n'] = some ⟨bin root, link.target, link⟩ := by
  refine (command_owner_iff (by decide) (ownerTree_declares false)).1.mpr ?_
  rintro ⟨names, scope, dir, rel, hnames, hscope, hat, -⟩
  obtain rfl : [['n']] = names := Option.some.inj (Eq.trans (by decide) hnames)
  obtain rfl := List.mem_singleton.mp hscope
  exact absurd hat (by decide)

/-- A package of the same name in a scope takes the command over. -/
theorem scoped_package_takes_command :
    let root := ofNames ([['p']] ++ [nodeModulesName])
    DeclaresOwn (ownerTree true) root ['n'] cliName ∧
      (((ownerTree true).linkBins root).shimAt (bin root) ['n']).map (fun s => (s.link.owner, s.target)) =
        some ("@x/n".toList, .up :: ofNames [['@', 'x'], ['n'], cliName]) ∧
      ¬ ((ownerTree true).linkBins root).shimAt (bin root) ['n'] =
        some ⟨bin root, ((ownerTree true).linkOf root (root ++ [.into ['n']]) ['n'] (['n'], cliName)).target,
          (ownerTree true).linkOf root (root ++ [.into ['n']]) ['n'] (['n'], cliName)⟩ :=
  ⟨ownerTree_declares true, by decide, by decide⟩

/-! ## Where links lead -/

/-- A relative path leads back to its target. A link leads to the entry it was made for exactly if it is one of the top
level, or its path happens to lead there from the nested directory as well. -/
theorem shims_work_iff (disk : Disk) (root : List Str) :
    (∀ base target : List Str, normalize (ofNames base ++ relFrom (ofNames base) (ofNames target)) = target) ∧
      ∀ s ∈ (disk.linkBins (ofNames root)).shims,
        s.Works ↔ s.dir = bin (ofNames root) ∨ RightFromNested disk (ofNames root) s.dir.dropLast s.link.entry := by
  refine ⟨fun base target => by rw [normalize_relFrom, normalize_ofNames], fun s hs => ?_⟩
  have hok : (disk.collectFromLevel (ofNames root) (disk.pathMax + 1) (ofNames root) ⟨Entries.empty, [], [], []⟩).Ok
      disk root := by simpa using Walk.Ok.start.collectFromLevel (disk.pathMax + 1) []
  unfold Disk.linkBins at hs
  split at hs
  · cases hs
  · rcases List.mem_append.mp hs with hs | hs
    · obtain ⟨below, hbelow⟩ := hok.nested s hs
      have hdir : s.dir = bin (ofNames (root ++ below)) := congrArg Shim.dir hbelow.made
      have hne : s.dir ≠ bin (ofNames root) := by
        rw [hdir]
        intro heq
        have hlength := congrArg List.length heq
        have hdeep := hbelow.deep
        simp only [bin, ofNames, List.length_append, List.length_map, List.length_singleton] at hlength
        omega
      rw [hbelow.works_iff, hdir, bin, List.dropLast_concat]
      rw [hdir] at hne
      exact ⟨.inr, fun h => h.resolve_left hne⟩
    · obtain ⟨link, hlink, rfl⟩ := List.mem_map.mp hs
      obtain ⟨name, hname⟩ := Walk.Ok.mem_inOrder.mp hlink
      exact ⟨fun _ => .inl rfl, fun _ => works_top rfl (hok.filed _ hname).2⟩

/-- The package `b` below the package `a` of the project `/p`. -/
def nestedTree : Disk :=
  treeOf [[['p'], nodeModulesName, ['a'], nodeModulesName, ['b'], cliName]]
    [([['p'], nodeModulesName, ['a'], nodeModulesName, ['b']], cliManifest)] (by decide)

/-- The command of a nested package leads to a file that does not exist. -/
theorem nested_link_broken :
    ((nestedTree.linkBins (ofNames [['p'], nodeModulesName])).shims.map fun s => (s.dir, Lexical.normalize (s.dir ++ s.target))) =
        [(ofNames [['p'], nodeModulesName, ['a'], nodeModulesName, binName],
          [['p'], nodeModulesName, ['a'], ['a'], nodeModulesName, ['b'], cliName])] ∧
      ¬ ∀ s ∈ (nestedTree.linkBins (ofNames [['p'], nodeModulesName])).shims, s.Works := by
  have hlinks : ((nestedTree.linkBins (ofNames [['p'], nodeModulesName])).shims.map fun s =>
      (s.dir, Lexical.normalize (s.dir ++ s.target))) =
        [(ofNames [['p'], nodeModulesName, ['a'], nodeModulesName, binName],
          [['p'], nodeModulesName, ['a'], ['a'], nodeModulesName, ['b'], cliName])] := by decide
  refine ⟨hlinks, fun hall => ?_⟩
  have hentries : ∀ s ∈ (nestedTree.linkBins (ofNames [['p'], nodeModulesName])).shims,
      Lexical.normalize (s.dir ++ s.target) ≠ normalize s.link.entry := by decide
  cases hshims : (nestedTree.linkBins (ofNames [['p'], nodeModulesName])).shims with
  | nil => simp [hshims] at hlinks
  | cons s _ =>
      have hs : s ∈ (nestedTree.linkBins (ofNames [['p'], nodeModulesName])).shims := by rw [hshims]; simp
      exact hentries s hs (hall s hs)

end ThreeVa.Bins
