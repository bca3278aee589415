import ThreeVa.Locks.Lemmas.BunLock
import ThreeVa.Locks.PackageLock
import ThreeVa.Locks.Lemmas.Pnpm
import ThreeVa.Locks.Lemmas.Yarn
import ThreeVa.Locks.YarnLockfile

/-!
# Conversion of foreign lockfiles
-/

namespace ThreeVa.Locks

/-! ## Yarn -/

namespace Yarn
open Text

/-- A lockfile is read back exactly if no range has an `@` in it and no dependency bears the word of a field as its
unquoted name. -/
theorem faithful_iff (q : Quoting) (lock : Lock) : Faithful q lock ↔ ∀ e ∈ lock.entries,
    (∀ k ∈ e.keys, '@' ∉ k.range.text) ∧ ∀ d ∈ e.allDependencies, ¬ q.Misread d := by
  constructor
  · intro h e he
    refine ⟨fun k hk => (extractNameFromKey_text k).mp (h e he k hk).2, fun d hd hmisread => ?_⟩
    -- the dependency is recorded, but no dependency is stored under the word of a field
    obtain ⟨k, hk⟩ := List.exists_mem_of_ne_nil _ e.ne
    obtain ⟨⟨y, hy, hrecovers⟩, -⟩ := h e he k hk
    rw [lookup_parseYarnEntries he hk, Option.some.injEq] at hy
    have hrecorded := hrecovers.dependencies d.name.text
    rw [← hy, YarnEntryBuilder.build, lookup_entryBuilder hmisread.2 hmisread.1, eq_comm, Entry.recorded,
      List.lookup_eq_none_iff] at hrecorded
    simpa [Dependency.pair] using hrecorded _ (List.mem_map_of_mem hd)
  · intro h e he k hk
    obtain ⟨hranges, hdeps⟩ := h e he
    exact ⟨⟨_, lookup_parseYarnEntries he hk, recovers_entryBuilder hdeps⟩, (extractNameFromKey_text k).mpr (hranges k hk)⟩

/-- Quotes wherever they are needed. -/
def shouldWrapKey (s : Str) : Bool :=
  !(s.head?.any Char.isAlpha && s.all fun c => !isWhitespace c && !([':', '"', '\\', ',', '[', ']'].contains c))

theorem plain_of_not_shouldWrapKey (s : Str) (h : shouldWrapKey s = false) : Plain s := by
  simp only [shouldWrapKey, Bool.not_eq_false', Bool.and_eq_true, Option.any_eq_true, List.all_eq_true, Bool.not_eq_true',
    List.contains_eq_mem, decide_eq_false_iff_not] at h
  exact ⟨h.1, h.2⟩

def yarnQuoting : Quoting := ⟨shouldWrapKey, plain_of_not_shouldWrapKey⟩

def foo : PackageName := ⟨none, "foo".toList, by decide, List.all_eq_true.mp (by decide)⟩

def caretOne : YarnText := ⟨"^1.0.0".toList, List.all_eq_true.mp (by decide)⟩

/-- A package that depends on one with the name `version`. -/
def versionLock : Lock where
  entries := [{
    keys := [⟨foo, caretOne⟩]
    version := ⟨"1.0.0".toList, List.all_eq_true.mp (by decide)⟩
    resolved := none
    integrity := none
    dependencies := [⟨⟨none, versionWord, by decide, List.all_eq_true.mp (by decide)⟩, caretOne⟩]
    optionalDependencies := []
    ne := by simp
    distinct := by simp
    distinctOptional := by simp }]
  distinct := by simp

/-- A package under another name. -/
def aliasLock : Lock where
  entries := [{
    keys := [⟨foo, ⟨"npm:bar@^1.0.0".toList, List.all_eq_true.mp (by decide)⟩⟩]
    version := ⟨"1.0.0".toList, List.all_eq_true.mp (by decide)⟩
    resolved := none
    integrity := none
    dependencies := []
    optionalDependencies := []
    ne := by simp
    distinct := by simp
    distinctOptional := by simp }]
  distinct := by simp

/-- The range of a dependency takes the place of the version, and the alias that of the name. -/
theorem version_and_name_lost : ¬ Faithful yarnQuoting versionLock ∧ ¬ Faithful yarnQuoting aliasLock := by
  constructor
  · intro h
    obtain ⟨⟨y, hy, hrecovers⟩, -⟩ := h _ List.mem_cons_self _ List.mem_cons_self
    have hversion : ((parseYarnEntries (yarnQuoting.render versionLock)).lookup "foo@^1.0.0".toList).map YarnEntry.version
        = some "^1.0.0".toList := by decide +kernel
    have hread := congrArg (Option.map YarnEntry.version) hy
    rw [Option.map_some, hrecovers.version] at hread
    exact absurd (hversion.symm.trans hread) (by decide)
  · intro h
    have hname := (h _ List.mem_cons_self _ List.mem_cons_self).2
    exact absurd hname (by decide +kernel)

/-- The lockfile is consistent and the same in every order of the entries exactly if a `yarn.lock` that is loaded at
all has one entry for each name. -/
theorem loadsSame_iff (content : Str) (projectName : Option Str) :
    LoadsSame content projectName ↔ (classify content = .berry ∨ OneEntryPerName content) := by
  constructor
  · intro h
    by_cases hberry : classify content = .berry
    · exact .inl hberry
    · exact .inr (h.oneEntryPerName hberry)
  · rintro (hberry | hone)
    · exact loadsSame_of_berry hberry projectName
    · exact loadsSame_of_oneEntryPerName hone projectName

/-- Two versions of one package. -/
def twoVersions : Str :=
  "foo@^1.0.0:\n  version \"1.0.0\"\n\nfoo@^2.0.0:\n  version \"2.0.0\"\n".toList

/-- Both entries are read, and the order of the two decides what the lockfile says. -/
theorem two_versions_differ :
    ((parseYarnEntries twoVersions).lookup "foo@^1.0.0".toList).map YarnEntry.version = some "1.0.0".toList ∧
      ((parseYarnEntries twoVersions).lookup "foo@^2.0.0".toList).map YarnEntry.version = some "2.0.0".toList ∧
      ¬ LoadsSame twoVersions none := by
  have hfirst : ((parseYarnEntries twoVersions).lookup "foo@^1.0.0".toList).map YarnEntry.version =
      some "1.0.0".toList := by decide +kernel
  have hsecond : ((parseYarnEntries twoVersions).lookup "foo@^2.0.0".toList).map YarnEntry.version =
      some "2.0.0".toList := by decide +kernel
  refine ⟨hfirst, hsecond, fun h => ?_⟩
  obtain ⟨entry, hentry, hversion⟩ := Option.map_eq_some_iff.mp hfirst
  obtain ⟨entry', hentry', hversion'⟩ := Option.map_eq_some_iff.mp hsecond
  have hsame := h.oneEntryPerName (by decide +kernel) _ _ _ _ hentry hentry' (by decide +kernel)
  rw [← hsame, hversion] at hversion'
  exact absurd hversion' (by decide)

end Yarn

/-! ## pnpm -/

namespace Pnpm
open Text

/-- If no peer bears a key word as its name, a lockfile is read back exactly if no dependency does so either and no list of
transitive peers follows dependencies. -/
theorem faithful_iff_depsSafe (st : Style) (layout : Layout) (lock : Lock) (hpeers : ∀ p ∈ lock.packages, p.PeersSafe st) :
    Faithful st layout lock ↔ ∀ p ∈ lock.packages, p.DepsSafe st := by
  constructor
  · intro h
    have hnames : ∀ p ∈ lock.packages, ∀ d ∈ p.allDependencies, st.quote d.1.text = false → d.1.text ∉ keyWords := by
      intro p hp d hd hquote hkey
      obtain ⟨y, hy, hrecords⟩ := h p hp
      have hnone := lookup_of_parsePnpmPackages hkey hquote hy
      rw [hrecords.dependencies] at hnone
      exact recorded_eq_none.mp hnone d hd rfl
    intro p hp
    refine ⟨hnames p hp, readDeps_eq_recorded.mp fun name => ?_⟩
    obtain ⟨y, hy, hrecords⟩ := h p hp
    obtain ⟨y', hy', -, -, hread⟩ := lookup_parsePnpmPackages layout hpeers hnames hp
    rw [hy, Option.some.injEq] at hy'
    rw [← hread, ← hy', hrecords.dependencies]
  · intro h p hp
    obtain ⟨y, hy, hversion, hintegrity, hread⟩ :=
      lookup_parsePnpmPackages layout hpeers (fun q hq => (h q hq).names) hp
    refine ⟨y, hy, hversion, hintegrity, fun name => ?_⟩
    rw [hread, readDeps_eq_recorded.mpr (h p hp).transitive]

/-- Quotes wherever they are needed. -/
def needsQuotes (s : Str) : Bool := !(s.head?.any fun c => !isWhitespace c && !indicators.contains c)

theorem plain_of_not_needsQuotes (s : Str) (h : needsQuotes s = false) : Plain s := by
  simp only [needsQuotes, Bool.not_eq_false', Option.any_eq_true, Bool.and_eq_true, Bool.not_eq_true', List.contains_eq_mem,
    decide_eq_false_iff_not] at h
  obtain ⟨c, hc, hplain⟩ := h
  refine ⟨fun hnil => by simp [hnil] at hc, fun d hd => ?_⟩
  rw [Option.mem_unique hd hc]
  exact hplain

def pnpmStyle : Style := ⟨needsQuotes, plain_of_not_needsQuotes, true, true, true⟩

/-- `debug`, which depends on `ms`. -/
def debugPackage (transitive : List PackageName) : Package where
  name := ⟨none, "debug".toList, by decide, List.all_eq_true.mp (by decide)⟩
  version := ⟨"4.3.4".toList, by decide, List.all_eq_true.mp (by decide)⟩
  suffix := ⟨[], .inl rfl, by simp⟩
  integrity := some ⟨"sha512-PRWFHuSU3eDtQJPvnNY7Jcket1j0t5OuOsFzPPzsekD52Zl1qUfFIPEiswXqIvHWGVHOgX==".toList, by decide,
    List.all_eq_true.mp (by decide)⟩
  tarball := none
  engines := []
  cpu := []
  os := []
  hasBin := false
  peerDependencies := []
  dependencies := [(⟨none, "ms".toList, by decide, List.all_eq_true.mp (by decide)⟩,
    ⟨"2.1.2".toList, by decide, List.all_eq_true.mp (by decide)⟩)]
  optionalDependencies := []
  transitivePeerDependencies := transitive
  dev := none
  distinct := by simp
  distinctOptional := by simp
  distinctPeers := by simp

def versionLine : Str := "lockfileVersion: '9.0'".toList

theorem untitled_versionLine : ∀ line ∈ [versionLine],
    line ≠ packagesWord ++ [':'] ∧ line ≠ snapshotsWord ++ [':'] ∧ '\n' ∉ line ∧ '\r' ∉ line := by
  intro line hline
  rw [List.mem_singleton.mp hline]
  decide +kernel

def debugLock (transitive : List PackageName) : Lock where
  preamble := [versionLine]
  packages := [debugPackage transitive]
  distinct := by simp
  untitled := untitled_versionLine

theorem debug_faithful : (∀ p ∈ (debugLock []).packages, p.PeersSafe pnpmStyle) ∧ Faithful pnpmStyle .v9 (debugLock []) := by
  have hpeers : ∀ p ∈ (debugLock []).packages, p.PeersSafe pnpmStyle := by
    intro p hp
    rw [List.mem_singleton.mp hp]
    exact ⟨by simp [debugPackage], by simp [debugPackage]⟩
  refine ⟨hpeers, (faithful_iff_depsSafe pnpmStyle .v9 (debugLock []) hpeers).mpr ?_⟩
  intro p hp
  rw [List.mem_singleton.mp hp]
  refine ⟨?_, .inl rfl⟩
  intro d hd
  rw [List.mem_singleton.mp hd]
  decide

def supportsColor : PackageName := ⟨none, "supports-color".toList, by decide, List.all_eq_true.mp (by decide)⟩

/-- The list of the transitive peers becomes a dependency. -/
theorem transitive_peers_read_as_dependency :
    ¬ Faithful pnpmStyle .v9 (debugLock [supportsColor]) ∧ ¬ Faithful pnpmStyle .v6 (debugLock [supportsColor]) := by
  have hnot (layout : Layout) : ¬ Faithful pnpmStyle layout (debugLock [supportsColor]) := by
    intro h
    obtain ⟨y, hy, hrecords⟩ := h _ List.mem_cons_self
    have hread : ((parsePnpmPackages (pnpmStyle.render layout (debugLock [supportsColor]))).lookup "debug".toList).map
        (fun y => y.dependencies.lookup Style.transitiveWord) = some (some []) := by
      cases layout <;> decide +kernel
    have hrecorded : (debugPackage [supportsColor]).recorded Style.transitiveWord = none := by decide
    rw [show "debug".toList = (debugPackage [supportsColor]).name.text from rfl, hy, Option.map_some, hrecords.dependencies,
      hrecorded] at hread
    cases hread
  exact ⟨hnot .v9, hnot .v6⟩

end Pnpm

/-! ## npm -/

namespace Npm
open Text

/-- The packages section locks what is installed at the top exactly if every entry that is taken for one of these has the
name of a package, and is its entry or says the same. -/
theorem topLevelExact_iff (npm : NpmLockV2) : TopLevelExact npm ↔ TopLevelNamed npm :=
  ⟨TopLevelExact.named, topLevelExact_of_named⟩

/-- A package installed below `@babel/core`. -/
def nestedKey : Str := "node_modules/@babel/core/node_modules/semver".toList

def nestedLock : NpmLockV2 where
  name := "app".toList
  version := none
  lockfileVersion := 3
  packages := ⟨[(nestedKey, ⟨some "6.3.1".toList, none, none, none, none⟩)], List.nodup_singleton _⟩
  dependencies := .empty

theorem nested_install_locked :
    "@babel/core/node_modules/semver".toList ∈ (parseV2v3 nestedLock).dependencies ∧ ¬ TopLevelExact nestedLock := by
  have hmem : "@babel/core/node_modules/semver".toList ∈
      (parseV2v3 (nestedLock.reordered nestedLock.packages)).dependencies :=
    mem_of_entry (x := (nestedKey, ⟨some "6.3.1".toList, none, none, none, none⟩)) List.mem_cons_self
      (entryDep_eq_some.mpr ⟨by decide, by decide, rfl, by decide⟩)
  refine ⟨hmem, fun h => ?_⟩
  have hname := ((h.keys _ (fun _ => Iff.rfl) _).mp hmem).1
  exact absurd hname.count_slash (by decide)

end Npm

/-! ## Bun -/

section Bun
open Text JsonText

/-- What is left of a decorated document has the value of the document exactly if its strings and keys are written in
ASCII. -/
theorem stripJsonc_sameValue_iff (d : Decorated) :
    SameValue (stripJsonc d.text) d.document.text ↔ AsciiStrings d.document.tree := by
  rw [sameValue_iff, Tree.value, Tree.value, Tree.map_map, Tree.map_eq_map_iff]
  exact forall₂_congr fun s _ => codeUnits_latinLiteral s

/-- An object with a key beyond ASCII. -/
def accentDocument : Document where
  tree := .obj [([.plain 'é' (by decide)], .word ⟨"null".toList, .inl rfl⟩)]
  lexemes := [.token openBrace, .token (.str [.plain 'é' (by decide)]), .token colon,
    .token (.word ⟨"null".toList, .inl rfl⟩), .token closeBrace]
  tokens_eq := rfl

def accentLock : Decorated where
  document := accentDocument
  pieces := accentDocument.tree.tokens.map .token
  tokens := .same _ (.same _ (.same _ (.same _ (.same _ .nil))))
  lastLine := none
  lastLine_ne := nofun

theorem accents_garbled : accentLock.text = "\x7b\"é\":null\x7d".toList ∧
    stripJsonc accentLock.text = "\x7b\"Ã©\":null\x7d".toList ∧
      ¬ SameValue (stripJsonc accentLock.text) accentLock.document.text := by
  refine ⟨by decide, by decide, fun h => ?_⟩
  rw [sameValue_iff, Tree.value, Tree.value, Tree.map_map, Tree.map_eq_map_iff] at h
  have hkey := (codeUnits_latinLiteral _).mp (h [.plain 'é' (by decide)] List.mem_cons_self) 'é' List.mem_cons_self
  exact absurd hkey (by decide)

end Bun

end ThreeVa.Locks
