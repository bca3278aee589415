import ThreeVa.Bins.Lemmas.Claims

/-!
# The package a command is named after

Which claims of a command are those of a package that bears its name, and which of them comes first.
-/

namespace ThreeVa.Bins
open Text Entries Lexical

/-! ## Packages -/

/-- The directories whose packages claim commands at the level of a directory: itself, and scopes. -/
inductive SameLevel (disk : Disk) : Path → Path → Prop
  | here {dir : Path} : SameLevel disk dir dir
  | scope {dir dir' : Path} {names : List Str} {scope : Str} : disk.readDir dir = some names → scope ∈ names →
      scope.head? = some '@' → disk.isDir (dir ++ [.into scope]) = true →
      SameLevel disk (dir ++ [.into scope]) dir' → SameLevel disk dir dir'

/-- The directory has a package `name` that declares a valid command of that name. -/
structure DeclaresOwn (disk : Disk) (dir : Path) (name rel : Str) : Prop where
  listed : ∃ names, disk.readDir dir = some names ∧ name ∈ names
  plain : name.head? ≠ some '.' ∧ name.head? ≠ some '@'
  isDir : disk.isDir (dir ++ [.into name]) = true
  declared : ∃ m pkgName, disk.manifest (dir ++ [.into name]) = some m ∧
    Disk.packageName (dir ++ [.into name]) = some pkgName ∧ (name, rel) ∈ binEntries m pkgName ∧
      disk.refusal (dir ++ [.into name]) pkgName (name, rel) = none

/-- A scope that sorts before the name has a package of that name with a valid command of that name. -/
def ScopedRival (disk : Disk) (root : Path) (name : Str) : Prop :=
  ∃ names scope dir rel, disk.readDir root = some names ∧ scope ∈ names ∧ scope.head? = some '@' ∧
    disk.isDir (root ++ [.into scope]) = true ∧ scope < name ∧ SameLevel disk (root ++ [.into scope]) dir ∧
      DeclaresOwn disk dir name rel

variable {disk : Disk} {root dir path : Path} {name pkgName : Str}

theorem packageName_concat (dir : Path) (f : Str) :
    Disk.packageName (dir ++ [.into f]) = some f ∨ ∃ scope, scope.head? = some '@' ∧ dir.getLast? = some (.into scope) ∧
      Disk.packageName (dir ++ [.into f]) = some (scope ++ '/' :: f) := by
  unfold Disk.packageName
  simp only [List.getLast?_concat, List.dropLast_concat]
  split
  · rename_i scope hscope
    split
    · exact .inr ⟨scope, ‹_›, hscope, rfl⟩
    · exact .inl rfl
  · exact .inl rfl

theorem owns_iff {owner : Str} : owns owner name = true ↔ unscoped owner = name := by
  unfold owns
  exact decide_eq_true_iff

theorem unscoped_eq {f : Str} (hf : '/' ∉ f) : unscoped f = f := by
  unfold unscoped
  cases h : rsplitOnce '/' f with
  | none => rfl
  | some p =>
      obtain ⟨rfl, -⟩ := rsplitOnce_eq_some.mp h
      simp at hf

theorem unscoped_packageName {f : Str} (hf : '/' ∉ f) (h : Disk.packageName (dir ++ [.into f]) = some pkgName) :
    unscoped pkgName = f := by
  rcases packageName_concat dir f with h' | ⟨scope, -, -, h'⟩
  · rw [h'] at h
    cases h
    exact unscoped_eq hf
  · rw [h'] at h
    cases h
    simp [unscoped, rsplitOnce_append hf]

theorem mem_packageClaims {link : BinLink} : link ∈ disk.packageClaims root path pkgName ↔
    ∃ m e, disk.manifest path = some m ∧ e ∈ binEntries m pkgName ∧ disk.refusal path pkgName e = none ∧
      link = disk.linkOf root path pkgName e := by
  unfold Disk.packageClaims
  cases hm : disk.manifest path with
  | none => simp
  | some m =>
      have hkept : ∀ e, (if (disk.refusal path pkgName e).isNone then some (disk.linkOf root path pkgName e) else none) =
          some link ↔ disk.refusal path pkgName e = none ∧ link = disk.linkOf root path pkgName e := fun e => by
        cases disk.refusal path pkgName e <;> simp [eq_comm]
      simp only [Option.map_some, Option.getD_some, List.mem_filterMap, Option.some.injEq, hkept, exists_and_left,
        exists_eq_left']

/-- Only a package that bears the name claims the command in its own name. -/
theorem exists_owning_packageClaims (root : Path) {f : Str} (hf : '/' ∉ f)
    (hp : Disk.packageName (dir ++ [.into f]) = some pkgName) :
    (∃ link ∈ disk.packageClaims root (dir ++ [.into f]) pkgName, link.name = name ∧ owns link.owner name = true) ↔
      f = name ∧ ∃ m rel, disk.manifest (dir ++ [.into f]) = some m ∧ (name, rel) ∈ binEntries m pkgName ∧
        disk.refusal (dir ++ [.into f]) pkgName (name, rel) = none := by
  constructor
  · rintro ⟨link, hlink, rfl, howns⟩
    obtain ⟨m, ⟨n, rel⟩, hm, he, hr, rfl⟩ := mem_packageClaims.mp hlink
    refine ⟨?_, m, rel, hm, he, hr⟩
    rw [← unscoped_packageName hf hp]
    exact owns_iff.mp howns
  · rintro ⟨rfl, m, rel, hm, he, hr⟩
    exact ⟨_, mem_packageClaims.mpr ⟨m, (f, rel), hm, he, hr, rfl⟩, rfl,
      owns_iff.mpr (unscoped_packageName hf hp)⟩

/-! ## Levels -/

/-- The fuel of a level that reads a directory: none is left out for its depth. -/
def Enough (disk : Disk) (fuel : Nat) (dir : Path) : Prop := disk.pathMax + 1 ≤ fuel + dir.length

theorem Enough.readDir_zero (h : Enough disk 0 dir) : disk.readDir dir = none := by
  by_contra hne
  have := disk.readDir_le dir hne
  unfold Enough at h
  omega

theorem Enough.below {fuel : Nat} {s : Str} (h : Enough disk (fuel + 1) dir) : Enough disk fuel (dir ++ [.into s]) := by
  unfold Enough at h ⊢
  simp only [List.length_append, List.length_singleton]
  omega

theorem not_own_of_unread {rel : Str} {dir' : Path} (hnone : disk.readDir dir = none)
    (hlevel : SameLevel disk dir dir') : ¬ DeclaresOwn disk dir' name rel := by
  intro hown
  cases hlevel with
  | here =>
      obtain ⟨names, hnames, -⟩ := hown.listed
      rw [hnone] at hnames
      cases hnames
  | scope hnames _ _ _ _ =>
      rw [hnone] at hnames
      cases hnames

/-- An entry of a directory is a scope, with the claims of its level, or a package. -/
theorem mem_entryClaims {claims : Path → List BinLink} {f : Str} {link : BinLink}
    (h : link ∈ disk.entryClaims root claims dir f) :
    f.head? = some '@' ∧ disk.isDir (dir ++ [.into f]) = true ∧ link ∈ claims (dir ++ [.into f]) ∨
      disk.isDir (dir ++ [.into f]) = true ∧ ∃ pkgName, Disk.packageName (dir ++ [.into f]) = some pkgName ∧
        link ∈ disk.packageClaims root (dir ++ [.into f]) pkgName := by
  unfold Disk.entryClaims at h
  simp only at h
  split at h
  · cases h
  split at h
  · rename_i hscope
    simp only [Bool.and_eq_true, decide_eq_true_eq] at hscope
    exact .inl ⟨hscope.1, hscope.2, h⟩
  split at h
  · cases h
  · rename_i hisDir
    cases hp : Disk.packageName (dir ++ [.into f]) with
    | none => simp [hp] at h
    | some pkgName => exact .inr ⟨by simpa using hisDir, pkgName, rfl, by simpa [hp] using h⟩

/-- A level has a claim of a package in its own name exactly if one of its directories has such a package. -/
theorem exists_owning_levelClaims (root : Path) {fuel : Nat} (hfuel : Enough disk fuel dir)
    (hplain : name.head? ≠ some '.' ∧ name.head? ≠ some '@') :
    (∃ link ∈ disk.levelClaims root fuel dir, link.name = name ∧ owns link.owner name = true) ↔
      ∃ dir' rel, SameLevel disk dir dir' ∧ DeclaresOwn disk dir' name rel := by
  induction fuel generalizing dir with
  | zero =>
      simp only [Disk.levelClaims, List.not_mem_nil, false_and, exists_false, false_iff, not_exists, not_and]
      exact fun _ _ => not_own_of_unread hfuel.readDir_zero
  | succ fuel ih =>
      rw [Disk.levelClaims]
      cases hnames : disk.readDir dir with
      | none =>
          simp only [List.not_mem_nil, false_and, exists_false, false_iff, not_exists, not_and]
          exact fun _ _ => not_own_of_unread hnames
      | some names =>
          simp only [List.mem_flatMap, List.mem_insertionSort]
          constructor
          · rintro ⟨link, ⟨f, hf, hlink⟩, hname, howns⟩
            have hslash := disk.readDir_names dir names hnames f hf
            rcases mem_entryClaims hlink with ⟨hat, hisDir, hlink⟩ | ⟨hisDir, pkgName, hp, hlink⟩
            · obtain ⟨dir', rel, hlevel, hown⟩ := (ih hfuel.below).mp ⟨link, hlink, hname, howns⟩
              exact ⟨dir', rel, .scope hnames hf hat hisDir hlevel, hown⟩
            · obtain ⟨rfl, m, rel, hm, he, hr⟩ :=
                (exists_owning_packageClaims root hslash hp).mp ⟨link, hlink, hname, howns⟩
              exact ⟨dir, rel, .here, ⟨names, hnames, hf⟩, hplain, hisDir, m, pkgName, hm, hp, he, hr⟩
          · rintro ⟨dir', rel, hlevel, hown⟩
            cases hlevel with
            | here =>
                obtain ⟨names', hnames', hmem⟩ := hown.listed
                rw [hnames, Option.some.injEq] at hnames'
                subst hnames'
                obtain ⟨m, pkgName, hm, hp, he, hr⟩ := hown.declared
                have hslash := disk.readDir_names dir names hnames name hmem
                obtain ⟨link, hlink, hown'⟩ :=
                  (exists_owning_packageClaims root hslash hp).mpr ⟨rfl, m, rel, hm, he, hr⟩
                refine ⟨link, ⟨name, hmem, ?_⟩, hown'⟩
                simpa [Disk.entryClaims, hown.plain, hown.isDir, hp] using hlink
            | scope hnames' hmem hat hisDir hlevel =>
                rename_i scope
                rw [hnames, Option.some.injEq] at hnames'
                subst hnames'
                obtain ⟨link, hlink, hown'⟩ := (ih hfuel.below).mpr ⟨dir', rel, hlevel, hown⟩
                refine ⟨link, ⟨scope, hmem, ?_⟩, hown'⟩
                simpa [Disk.entryClaims, hat, hisDir] using hlink

/-- Packages of a scope have it in their names. -/
theorem slash_mem_owner {fuel : Nat} {scope : Str} {link : BinLink} (hlast : dir.getLast? = some (.into scope))
    (hat : scope.head? = some '@') (hlink : link ∈ disk.levelClaims root fuel dir) : '/' ∈ link.owner := by
  induction fuel generalizing dir scope with
  | zero => cases hlink
  | succ fuel ih =>
      rw [Disk.levelClaims] at hlink
      split at hlink
      · cases hlink
      · obtain ⟨f, -, hlink⟩ := List.mem_flatMap.mp hlink
        rcases mem_entryClaims hlink with ⟨hat', -, hlink⟩ | ⟨-, pkgName, hp, hlink⟩
        · exact ih List.getLast?_concat hat' hlink
        · have hscoped : Disk.packageName (dir ++ [.into f]) = some (scope ++ '/' :: f) := by
            simp [Disk.packageName, hlast, hat]
          rw [hscoped] at hp
          cases hp
          obtain ⟨_, _, -, -, -, rfl⟩ := mem_packageClaims.mp hlink
          simp [Disk.linkOf]

/-! ## The first of a sorted directory -/

/-- In a sorted list, the value of an element is the first one found exactly if no smaller element has one. -/
theorem findSome?_sorted {α β : Type} [LinearOrder α] {g : α → Option β} {n : α} {v : β} {l : List α}
    (hl : l.Pairwise (· ≤ ·)) (hn : n ∈ l) (hg : g n = some v) (hne : ∀ f, f ≠ n → g f ≠ some v) :
    l.findSome? g = some v ↔ ∀ f ∈ l, f < n → g f = none := by
  induction l with
  | nil => cases hn
  | cons x l ih =>
      obtain ⟨hx, hl⟩ := List.pairwise_cons.mp hl
      rw [List.findSome?_cons]
      by_cases hxn : x = n
      · subst hxn
        rw [hg]
        refine iff_of_true rfl fun f hf hlt => ?_
        rcases List.mem_cons.mp hf with rfl | hf
        · exact absurd hlt (lt_irrefl _)
        · exact absurd hlt (not_lt.mpr (hx f hf))
      · have hmem : n ∈ l := (List.mem_cons.mp hn).resolve_left (Ne.symm hxn)
        have hlt : x < n := lt_of_le_of_ne (hx n hmem) hxn
        cases hgx : g x with
        | none =>
            simp only [ih hl hmem, List.forall_mem_cons, hgx, implies_true, true_and]
        | some w =>
            refine iff_of_false (fun h => hne x hxn (hgx.trans h)) fun hall => ?_
            have := hall x List.mem_cons_self hlt
            rw [hgx] at this
            cases this

/-- Entries of a manifest have one path each. -/
theorem binEntries_unique {m : Manifest} {rel rel' : Str} (h : (name, rel) ∈ binEntries m pkgName)
    (h' : (name, rel') ∈ binEntries m pkgName) : rel = rel' := by
  cases hb : m.bin with
  | none => simp [binEntries, hb] at h
  | single p =>
      cases hp : p.isEmpty with
      | true => simp [binEntries, hb, hp] at h
      | false =>
          simp only [binEntries, hb, hp, Bool.false_eq_true, ↓reduceIte, List.mem_singleton, Prod.mk.injEq] at h h'
          exact h.2.trans h'.2.symm
  | table paths =>
      simp only [binEntries, hb, List.mem_filterMap, Option.map_eq_some_iff, Option.filter_eq_some_iff] at h h'
      obtain ⟨x, hx, p, ⟨hp, -⟩, heq⟩ := h
      obtain ⟨x', hx', p', ⟨hp', -⟩, heq'⟩ := h'
      simp only [Prod.mk.injEq] at heq heq'
      have hsame : x = x' := paths.eq_of_key_eq hx hx' (heq.1.trans heq'.1.symm)
      subst hsame
      rw [hp] at hp'
      cases hp'
      exact heq.2.symm.trans heq'.2

/-- A claim of the command by a package of that name. -/
def isOwn (name : Str) (link : BinLink) : Bool := link.name = name && owns link.owner name

theorem isOwn_iff {link : BinLink} : isOwn name link = true ↔ link.name = name ∧ owns link.owner name = true := by
  simp [isOwn]

/-- The claim of the package without a scope is the first in its own name exactly if no scope before it has one. -/
theorem find?_levelClaims_eq {fuel : Nat} {rel : Str} (hfuel : Enough disk (fuel + 1) root)
    (hroot : ∀ scope, root.getLast? = some (.into scope) → scope.head? ≠ some '@')
    (hown : DeclaresOwn disk root name rel) :
    (disk.levelClaims root (fuel + 1) root).find? (isOwn name) =
        some (disk.linkOf root (root ++ [.into name]) name (name, rel)) ↔
      ¬ ScopedRival disk root name := by
  obtain ⟨names, hnames, hmem⟩ := hown.listed
  have hslash := disk.readDir_names root names hnames
  have hplainName : ∀ f pkgName, Disk.packageName (root ++ [.into f]) = some pkgName → pkgName = f := by
    intro f pkgName hp
    rcases packageName_concat root f with h | ⟨scope, hat, hlast, -⟩
    · rw [h] at hp
      exact (Option.some.inj hp).symm
    · exact absurd hat (hroot scope hlast)
  obtain ⟨m, pkgName, hm, hp, he, hr⟩ := hown.declared
  obtain rfl := hplainName name pkgName hp
  rw [Disk.levelClaims, hnames]
  simp only [List.find?_flatMap]
  generalize hg : (fun f => (disk.entryClaims root (disk.levelClaims root fuel) root f).find? (isOwn pkgName)) = g
  have hgf : ∀ f, g f = (disk.entryClaims root (disk.levelClaims root fuel) root f).find? (isOwn pkgName) := fun f => by
    rw [← hg]
  have hentry : disk.entryClaims root (disk.levelClaims root fuel) root pkgName =
      disk.packageClaims root (root ++ [.into pkgName]) pkgName := by
    simp [Disk.entryClaims, hown.plain, hown.isDir, hp]
  have hself : g pkgName = some (disk.linkOf root (root ++ [.into pkgName]) pkgName (pkgName, rel)) := by
    rw [hgf, hentry]
    cases hfind : (disk.packageClaims root (root ++ [.into pkgName]) pkgName).find? (isOwn pkgName) with
    | none =>
        have hclaim : disk.linkOf root (root ++ [.into pkgName]) pkgName (pkgName, rel) ∈
            disk.packageClaims root (root ++ [.into pkgName]) pkgName :=
          mem_packageClaims.mpr ⟨m, (pkgName, rel), hm, he, hr, rfl⟩
        exact absurd (isOwn_iff.mpr ⟨rfl, owns_iff.mpr (unscoped_packageName (hslash _ hmem) hp)⟩)
          (List.find?_eq_none.mp hfind _ hclaim)
    | some link =>
        obtain ⟨m', ⟨n, rel'⟩, hm', he', -, rfl⟩ := mem_packageClaims.mp (List.mem_of_find?_eq_some hfind)
        obtain rfl : n = pkgName := (isOwn_iff.mp (List.find?_some hfind)).1
        rw [hm] at hm'
        cases hm'
        rw [binEntries_unique he he']
  have hother : ∀ f, f ≠ pkgName → g f ≠ some (disk.linkOf root (root ++ [.into pkgName]) pkgName (pkgName, rel)) := by
    intro f hf hlink
    rw [hgf] at hlink
    rcases mem_entryClaims (List.mem_of_find?_eq_some hlink) with ⟨hat, -, hlink⟩ | ⟨-, pkgName', hp', hlink⟩
    · exact hslash _ hmem (slash_mem_owner List.getLast?_concat hat hlink)
    · obtain ⟨_, _, -, -, -, hlink⟩ := mem_packageClaims.mp hlink
      exact hf ((hplainName f pkgName' hp').symm.trans (congrArg BinLink.owner hlink).symm)
  rw [findSome?_sorted (names.pairwise_insertionSort (· ≤ ·)) ((List.mem_insertionSort _).mpr hmem) hself hother]
  constructor
  · rintro hall ⟨names', scope, dir', rel', hnames', hmem', hat, hisDir, hlt, hlevel, hown'⟩
    rw [hnames, Option.some.injEq] at hnames'
    subst hnames'
    obtain ⟨link, hlink, hname, howns⟩ :=
      (exists_owning_levelClaims root hfuel.below hown.plain).mpr ⟨dir', rel', hlevel, hown'⟩
    have hnone := hall scope ((List.mem_insertionSort _).mpr hmem') hlt
    rw [hgf] at hnone
    have hentry' : link ∈ disk.entryClaims root (disk.levelClaims root fuel) root scope := by
      simpa [Disk.entryClaims, hat, hisDir] using hlink
    exact List.find?_eq_none.mp hnone link hentry' (isOwn_iff.mpr ⟨hname, howns⟩)
  · intro hrival f hf hlt
    cases hgf' : g f with
    | none => rfl
    | some link =>
        rw [hgf] at hgf'
        obtain ⟨hname, howns⟩ := isOwn_iff.mp (List.find?_some hgf')
        have hf' := (List.mem_insertionSort _).mp hf
        rcases mem_entryClaims (List.mem_of_find?_eq_some hgf') with ⟨hat, hisDir, hlink⟩ | ⟨-, pkgName', hp', hlink⟩
        · obtain ⟨dir', rel', hlevel, hown'⟩ :=
            (exists_owning_levelClaims root hfuel.below hown.plain).mp ⟨link, hlink, hname, howns⟩
          exact absurd ⟨names, f, dir', rel', hnames, hf', hat, hisDir, hlt, hlevel, hown'⟩ hrival
        · obtain ⟨rfl, -⟩ := (exists_owning_packageClaims root (hslash f hf') hp').mp ⟨link, hlink, hname, howns⟩
          exact absurd hlt (lt_irrefl _)

/-! ## The top level -/

variable {st : Walk}

/-- What is filed under a name is what `.bin` of the top level has under it. -/
theorem shimAt_top {root : List Str} (h : st.Ok disk root) (s : Summary) (hs : s.shims = st.summary.shims ++
    (Disk.inOrder st.wanted).map fun link => ⟨bin (ofNames root), link.target, link⟩) (name : Str) :
    s.shimAt (bin (ofNames root)) name =
      (st.wanted.get? name).map fun link => ⟨bin (ofNames root), link.target, link⟩ := by
  have hnested : ∀ x ∈ st.summary.shims, x.dir ≠ bin (ofNames root) := by
    intro x hx heq
    obtain ⟨below, hbelow⟩ := h.nested x hx
    have hdir : bin (ofNames root) = bin (ofNames (root ++ below)) := heq.symm.trans (congrArg Shim.dir hbelow.made)
    have hlength := congrArg List.length hdir
    have hdeep := hbelow.deep
    simp only [bin, ofNames, List.length_append, List.length_map, List.length_singleton] at hlength
    omega
  unfold Summary.shimAt
  rw [hs]
  cases hget : st.wanted.get? name with
  | none =>
      simp only [Option.map_none, List.find?_eq_none, List.mem_reverse, List.mem_append, List.mem_map]
      rintro x (hx | ⟨link, hlink, rfl⟩)
      · simp [hnested x hx]
      · obtain ⟨n, hn⟩ := Walk.Ok.mem_inOrder.mp hlink
        have hne : link.name ≠ name := by
          rintro rfl
          rw [← (h.filed _ hn).1, get?_eq_some.mpr hn] at hget
          cases hget
        simp [hne]
  | some link =>
      have hmem := get?_eq_some.mp hget
      have hname : name = link.name := (h.filed _ hmem).1
      cases hfind : (st.summary.shims ++ (Disk.inOrder st.wanted).map fun link =>
          (⟨bin (ofNames root), link.target, link⟩ : Shim)).reverse.find? fun x =>
            x.dir = bin (ofNames root) && x.link.name = name with
      | none =>
          have hno := List.find?_eq_none.mp hfind ⟨bin (ofNames root), link.target, link⟩ (by
            simp only [List.mem_reverse, List.mem_append, List.mem_map]
            exact .inr ⟨link, Walk.Ok.mem_inOrder.mpr ⟨name, hmem⟩, rfl⟩)
          simp [hname] at hno
      | some x =>
          have hx := List.find?_some hfind
          simp only [Bool.and_eq_true, decide_eq_true_eq] at hx
          have hxmem := List.mem_of_find?_eq_some hfind
          simp only [List.mem_reverse, List.mem_append, List.mem_map] at hxmem
          rcases hxmem with hxmem | ⟨link', hlink', rfl⟩
          · exact absurd hx.1 (hnested x hxmem)
          · obtain ⟨n, hn⟩ := Walk.Ok.mem_inOrder.mp hlink'
            have hkey : n = name := (h.filed _ hn).1.trans hx.2
            have heq := st.wanted.eq_of_key_eq hn hmem hkey
            simp only [Prod.mk.injEq] at heq
            rw [heq.2, Option.map_some]

/-! ## The order of a directory -/

/-- The same tree, whose directories may be returned in another order. -/
structure SameTree (disk disk' : Disk) : Prop where
  isDir : disk'.isDir = disk.isDir
  isFile : disk'.isFile = disk.isFile
  canonicalize : disk'.canonicalize = disk.canonicalize
  manifest : disk'.manifest = disk.manifest
  pathMax : disk'.pathMax = disk.pathMax
  readDir : ∀ p, Option.Rel List.Perm (disk'.readDir p) (disk.readDir p)

theorem insertionSort_congr {l l' : List Str} (h : l.Perm l') :
    l.insertionSort (· ≤ ·) = l'.insertionSort (· ≤ ·) :=
  ((List.perm_insertionSort _ l).trans (h.trans (List.perm_insertionSort _ l').symm)).eq_of_pairwise
    (fun _ _ _ _ => le_antisymm) (l.pairwise_insertionSort _) (l'.pairwise_insertionSort _)

theorem SameTree.visitEntry {disk' : Disk} (h : SameTree disk disk') : disk'.visitEntry = disk.visitEntry := by
  obtain ⟨readDir, isDir, isFile, canonicalize, manifest, pathMax, _, _⟩ := disk
  obtain ⟨readDir', isDir', isFile', canonicalize', manifest', pathMax', _, _⟩ := disk'
  obtain ⟨rfl, rfl, rfl, rfl, rfl, -⟩ := h
  rfl

theorem SameTree.collectFromLevel {disk' : Disk} (h : SameTree disk disk') (fuel : Nat) (dir : Path) (st : Walk) :
    disk'.collectFromLevel root fuel dir st = disk.collectFromLevel root fuel dir st := by
  induction fuel generalizing dir st with
  | zero => rfl
  | succ fuel ih =>
      have hrec : disk'.collectFromLevel root fuel = disk.collectFromLevel root fuel := funext fun d => funext (ih d)
      rw [Disk.collectFromLevel, Disk.collectFromLevel, h.visitEntry, hrec]
      have hread := h.readDir dir
      revert hread
      cases disk'.readDir dir <;> cases disk.readDir dir <;> intro hread
      · rfl
      · cases hread
      · cases hread
      · cases hread with
        | some hperm => simp only [insertionSort_congr hperm]

theorem SameTree.linkBins {disk' : Disk} (h : SameTree disk disk') (root : Path) :
    disk'.linkBins root = disk.linkBins root := by
  unfold Disk.linkBins
  rw [h.isDir, h.pathMax]
  simp only [h.collectFromLevel]

end ThreeVa.Bins
