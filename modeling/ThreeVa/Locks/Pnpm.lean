import ThreeVa.Lib.Maps
import ThreeVa.Locks.Names

/-!
# `pnpm-lock.yaml`

`parse_section`, `split_key` and `parse_pnpm_packages` of `pm/src/pnpm_lock.rs`, and the two layouts that they read. The
keys of an entry stand in the order in which pnpm writes them.
-/

namespace ThreeVa.Locks.Pnpm
open Text

abbrev StrMap := Finmap fun _ : Str => Str

def versionWord : Str := "version".toList

def nameWord : Str := "name".toList

def devWord : Str := "dev".toList

def resolutionWord : Str := "resolution".toList

def integrityWord : Str := "integrity".toList

def dependenciesWord : Str := "dependencies".toList

def optionalDependenciesWord : Str := "optionalDependencies".toList

def packagesWord : Str := "packages".toList

def snapshotsWord : Str := "snapshots".toList

/-! ## Parsing -/

structure RawEntry where
  key : Str
  version : Option Str
  name : Option Str
  integrity : Option Str
  dev : Option Bool
  deps : StrMap

def yamlScalar (s : Str) : Str :=
  trim (trimMatches '"' (trimMatches '\'' (trim (trimEndMatches ',' (trim s)))))

/-- The text between the first `{` and the last `}` has to be a flow mapping. -/
def inlineMappingValue (line key : Str) : Option Str :=
  (splitOnce '{' line).bind fun (_, after) =>
    (rsplitOnce '}' after).bind fun (inner, _) =>
      (inner.splitOn ',').findSome? fun part =>
        (splitOnce ':' part).bind fun (k, v) => if yamlScalar k = key then some (yamlScalar v) else none

/-- `trim_start_matches` of a text, which it takes away as often as it finds it. -/
def trimStartText (p : Str) : Nat → Str → Str
  | 0, s => s
  | n + 1, s =>
      match stripPrefix p s with
      | some rest => trimStartText p n rest
      | none => s

/-- The current entry, and what its lines are taken for. -/
structure Reading where
  entry : RawEntry
  inDeps : Bool
  inResolution : Bool
  inOptional : Bool

namespace Reading

def new (key : Str) : Reading := ⟨⟨key, none, none, none, none, ∅⟩, false, false, false⟩

/-- A line that no key word begins is read as the last block demands. -/
def blockLine (r : Reading) (trimmed : Str) : Reading :=
  if r.inResolution then
    if let some v := stripPrefix (integrityWord ++ [':', ' ']) trimmed then
      { r with entry := { r.entry with integrity := some (yamlScalar v) }, inResolution := false }
    else r
  else if r.inDeps || r.inOptional then
    if let some (before, after) := splitOnce ':' trimmed then
      let dep := yamlScalar before
      let ver := yamlScalar after
      if dep = [] then r else { r with entry := { r.entry with deps := r.entry.deps.orInsert dep ver } }
    else r
  else r

/-- A line of the entry, without its indentation. -/
def field (r : Reading) (trimmed : Str) : Reading :=
  if let some rest := stripPrefix (versionWord ++ [':', ' ']) trimmed then
    ⟨{ r.entry with version := some (yamlScalar rest) }, false, false, false⟩
  else if let some rest := stripPrefix (nameWord ++ [':', ' ']) trimmed then
    { r with entry := { r.entry with name := some (yamlScalar rest) } }
  else if devWord ++ [':'] <+: trimmed then
    let value := yamlScalar (trimStartText (devWord ++ [':']) trimmed.length trimmed)
    { r with entry := { r.entry with dev := some (value = "true".toList) } }
  else if resolutionWord ++ [':'] <+: trimmed then
    if let some v := inlineMappingValue trimmed integrityWord then
      ⟨{ r.entry with integrity := some v }, false, false, false⟩
    else ⟨r.entry, false, true, false⟩
  else if optionalDependenciesWord ++ [':'] <+: trimmed then ⟨r.entry, false, false, true⟩
  else if dependenciesWord ++ [':'] <+: trimmed then ⟨r.entry, true, false, false⟩
  else r.blockLine trimmed

end Reading

/-- The entries so far and the current one. -/
structure Walk where
  out : List RawEntry
  current : Option Reading

namespace Walk

def new : Walk := ⟨[], none⟩

/-- The bytes before the first character that is no white space. -/
def indent (line : Str) : Nat := (line.takeWhile isWhitespace).foldl (fun n c => n + c.utf8Size) 0

def finish (s : Walk) : List RawEntry := s.out ++ (s.current.map Reading.entry).toList

def step (s : Walk) (line : Str) : Walk :=
  if (trim line).isEmpty then s
  else
    let trimmed := trimStart line
    if indent line ≤ 2 ∧ trimmed.head? ≠ some '-' ∧ ':' ∈ trimmed then
      ⟨s.finish, some (.new (yamlScalar (trimEndMatches ':' trimmed)))⟩
    else { s with current := s.current.map fun r => r.field trimmed }

end Walk

/-- No key of the top level begins here. -/
def inSection (line : Str) : Bool :=
  (trim line).isEmpty || line.head? = some ' ' || line.head? = some '\t' || line.head? = some '-'

def parseSection (content title : Str) : List RawEntry :=
  match (lines content).dropWhile (· ≠ title ++ [':']) with
  | [] => []
  | first :: rest =>
      if trim first ≠ title ++ [':'] then [] else ((rest.takeWhile inSection).foldl Walk.step .new).finish

/-- In a scoped name the first `+` stands for the separator. -/
def scopedName (joined : Str) : Str :=
  match splitOnce '+' joined with
  | some (scope, base) => if joined.head? = some '@' then scope ++ '/' :: base else joined
  | none => joined

/-- The name and the version of a path. -/
def splitPath (path : Str) : Option (Str × Str) :=
  let parts := (trimStartMatches '/' path).splitOn '/'
  if 2 ≤ parts.length then
    let version := parts.getLast?.getD []
    let name := scopedName (['/'].intercalate parts.dropLast)
    if name ≠ [] ∧ version ≠ [] then some (name, version) else none
  else none

/-- The name and the version before and after the last `@`, unless it is the first character. -/
def splitAt (base : Str) : Option (Str × Str) :=
  (rsplitOnce '@' base).bind fun (name, version) =>
    if name ≠ [] ∧ trim version ≠ [] then some (name, trim version) else none

def splitKey (key : Str) : Option (Str × Str) :=
  let base := trim (key.takeWhile (· ≠ '('))
  if base.head? = some '/' then splitPath base
  else (splitAt base).or (splitPath key)

structure PnpmEntry where
  name : Str
  version : Str
  integrity : Option Str
  dev : Option Bool
  dependencies : StrMap

def snapshotDeps (content : Str) : Finmap fun _ : Str => StrMap :=
  (parseSection content snapshotsWord).foldl
    (fun m e =>
      match splitKey e.key with
      | some (name, _) => m.insert name e.deps
      | none => m)
    ∅

/-- The dependencies, and those of the snapshot that they do not name. -/
def merged (snapshots : Finmap fun _ : Str => StrMap) (name : Str) (deps : StrMap) : StrMap :=
  match snapshots.lookup name with
  | some extra => deps ∪ extra
  | none => deps

/-- One entry of `packages`, merged with the graph of its snapshot. -/
def addPackage (snapshots : Finmap fun _ : Str => StrMap) (out : Finmap fun _ : Str => PnpmEntry) (raw : RawEntry) :
    Finmap fun _ : Str => PnpmEntry :=
  match splitKey raw.key with
  | none => out
  | some (keyName, keyVersion) =>
      let name := raw.name.getD keyName
      let version := raw.version.getD keyVersion
      if name = [] ∨ version = [] then out
      else out.insert name ⟨name, version, raw.integrity, raw.dev, merged snapshots name raw.deps⟩

def parsePnpmPackages (content : Str) : Finmap fun _ : Str => PnpmEntry :=
  (parseSection content packagesWord).foldl (addPackage (snapshotDeps content)) ∅

/-! ## The layouts -/

def isScalarChar (c : Char) : Bool :=
  !isWhitespace c && 33 ≤ c.toNat && !(['\'', '"', ',', '{', '}', '[', ']'].contains c)

/-- A version, a hash or a URL. -/
structure Scalar where
  text : Str
  ne : text ≠ []
  chars : ∀ c ∈ text, isScalarChar c

/-- A range; it needs no escapes between quotes. -/
structure Range where
  text : Str
  chars : ∀ c ∈ text, c ≠ '\'' ∧ c ≠ '"' ∧ 32 ≤ c.toNat

def isVersionChar (c : Char) : Bool := c.isAlphanum || c ∈ ['.', '-', '+']

structure Version where
  text : Str
  ne : text ≠ []
  chars : ∀ c ∈ text, isVersionChar c

/-- What follows the version in the key of a snapshot: nothing, or the peers in parentheses. -/
structure PeerSuffix where
  text : Str
  parenthesised : text = [] ∨ text.head? = some '(' ∧ text.getLast? = some ')'
  chars : ∀ c ∈ text, isScalarChar c

structure Package where
  name : PackageName
  version : Version
  suffix : PeerSuffix
  integrity : Option Scalar
  tarball : Option Scalar
  engines : List (NamePart × Range)
  cpu : List Scalar
  os : List Scalar
  hasBin : Bool
  peerDependencies : List (PackageName × Range)
  dependencies : List (PackageName × Scalar)
  optionalDependencies : List (PackageName × Scalar)
  transitivePeerDependencies : List PackageName
  dev : Option Bool
  distinct : (dependencies.map fun d => d.1.text).Nodup
  distinctOptional : (optionalDependencies.map fun d => d.1.text).Nodup
  distinctPeers : (peerDependencies.map fun d => d.1.text).Nodup

namespace Package

/-- The dependencies, and after them the optional ones. -/
def allDependencies (p : Package) : List (PackageName × Scalar) := p.dependencies ++ p.optionalDependencies

def pairs (ds : List (PackageName × Scalar)) : List (Str × Str) := ds.map fun d => (d.1.text, d.2.text)

/-- What is recorded under a name. -/
def recorded (p : Package) (name : Str) : Option Str := (pairs p.allDependencies).lookup name

end Package

/-- A lockfile with one version for each name. The lines before the packages are of no matter. -/
structure Lock where
  preamble : List Str
  packages : List Package
  distinct : (packages.map fun p => p.name.text).Nodup
  untitled : ∀ line ∈ preamble, line ≠ packagesWord ++ [':'] ∧ line ≠ snapshotsWord ++ [':'] ∧ '\n' ∉ line ∧ '\r' ∉ line

inductive Layout
  | v6
  | v9
deriving DecidableEq

def indicators : Str := "-?:,[]\x7b\x7d#&*!|>'\"%@`".toList

/-- What may stand without quotes. -/
structure Plain (s : Str) : Prop where
  ne : s ≠ []
  first : ∀ c ∈ s.head?, isWhitespace c = false ∧ c ∉ indicators

/-- Which texts are quoted, how a scope is separated in a path, whether blank lines stand before the entries and whether
snapshots without dependencies are written. -/
structure Style where
  quote : Str → Bool
  plain : ∀ s, quote s = false → Plain s
  scopePlus : Bool
  spaced : Bool
  emptySnapshots : Bool

namespace Style

variable (st : Style)

def write (s : Str) : Str := if st.quote s then '\'' :: s ++ ['\''] else s

def pair (key value : Str) : Str := st.write key ++ ':' :: ' ' :: st.write value

/-- `{key: value, key: value}` -/
def flowMap (pairs : List (Str × Str)) : Str :=
  '{' :: [',', ' '].intercalate (pairs.map fun x => x.1 ++ ':' :: ' ' :: st.write x.2) ++ ['}']

/-- `[item, item]` -/
def flowList (items : List Str) : Str := '[' :: [',', ' '].intercalate (items.map st.write) ++ [']']

/-- A line `word: value`, unless there is nothing to write. -/
def fieldLine (word : Str) (present : Bool) (value : Str) : List Str :=
  if present then [indented 4 (word ++ ':' :: ' ' :: value)] else []

/-- A line `word:` and the lines below it, unless there are none. -/
def block (word : Str) (contents : List Str) : List Str :=
  if contents = [] then [] else indented 4 (word ++ [':']) :: contents.map (indented 6)

def resolution (p : Package) : List (Str × Str) :=
  (p.integrity.toList.map fun x => (integrityWord, x.text)) ++ (p.tarball.toList.map fun x => ("tarball".toList, x.text))

/-- What is known of a package. -/
def metaLines (p : Package) : List Str :=
  fieldLine resolutionWord (resolution p ≠ []) (st.flowMap (resolution p))
    ++ fieldLine "engines".toList (p.engines ≠ []) (st.flowMap (p.engines.map fun x => (x.1.text, x.2.text)))
    ++ fieldLine "cpu".toList (p.cpu ≠ []) (st.flowList (p.cpu.map Scalar.text))
    ++ fieldLine "os".toList (p.os ≠ []) (st.flowList (p.os.map Scalar.text))
    ++ fieldLine "hasBin".toList p.hasBin "true".toList
    ++ block "peerDependencies".toList (p.peerDependencies.map fun d => st.pair d.1.text d.2.text)

def transitiveWord : Str := "transitivePeerDependencies".toList

/-- What a package depends on. -/
def graphLines (p : Package) : List Str :=
  block dependenciesWord (p.dependencies.map fun d => st.pair d.1.text d.2.text)
    ++ block optionalDependenciesWord (p.optionalDependencies.map fun d => st.pair d.1.text d.2.text)
    ++ block transitiveWord (p.transitivePeerDependencies.map fun n => '-' :: ' ' :: st.write n.text)

def devLines (p : Package) : List Str :=
  fieldLine devWord p.dev.isSome (if p.dev = some true then "true".toList else "false".toList)

/-- `/name/version` -/
def path (p : Package) : Str :=
  let name :=
    match p.name.scope with
    | some scope => '@' :: scope.text ++ (if st.scopePlus then '+' else '/') :: p.name.base.text
    | none => p.name.base.text
  '/' :: name ++ '/' :: p.version.text

/-- `name@version` -/
def nameVersion (p : Package) : Str := p.name.text ++ '@' :: p.version.text

def keyLine (key : Str) : Str := indented 2 (st.write key ++ [':'])

def blank : List Str := if st.spaced then [[]] else []

def packageLines : Layout → Package → List Str
  | .v6, p => st.blank ++ st.keyLine (st.path p) :: st.metaLines p ++ st.graphLines p ++ devLines p
  | .v9, p => st.blank ++ st.keyLine (nameVersion p) :: st.metaLines p

def snapshotLines (p : Package) : List Str :=
  let key := nameVersion p ++ p.suffix.text
  if st.graphLines p = [] then
    if st.emptySnapshots then st.blank ++ [indented 2 (st.write key ++ ": \x7b\x7d".toList)] else []
  else st.blank ++ st.keyLine key :: st.graphLines p

def snapshots (lock : Lock) : Layout → List Str
  | .v6 => []
  | .v9 => [] :: (snapshotsWord ++ [':']) :: lock.packages.flatMap st.snapshotLines

def render (layout : Layout) (lock : Lock) : Str :=
  writeLines (lock.preamble ++ (packagesWord ++ [':']) :: lock.packages.flatMap (st.packageLines layout)
    ++ st.snapshots lock layout)

end Style

/-! ## Fidelity -/

/-- The words whose lines are taken for fields of the entry wherever they stand in it. -/
def keyWords : List Str :=
  [versionWord, nameWord, devWord, resolutionWord, optionalDependenciesWord, dependenciesWord]

/-- The parsed entry is the one in the lockfile. -/
structure PnpmEntry.Records (y : PnpmEntry) (p : Package) : Prop where
  version : y.version = p.version.text
  integrity : y.integrity = p.integrity.map Scalar.text
  dependencies : ∀ name, y.dependencies.lookup name = p.recorded name

/-- Every name leads to what is recorded of the package. -/
def Faithful (st : Style) (layout : Layout) (lock : Lock) : Prop :=
  ∀ p ∈ lock.packages, ∃ y, (parsePnpmPackages (st.render layout lock)).lookup p.name.text = some y ∧ y.Records p

/-- No dependency bears a key word as its unquoted name, and the list of the transitive peers does not follow
dependencies, unless one of them is called like it. -/
structure Package.DepsSafe (st : Style) (p : Package) : Prop where
  names : ∀ d ∈ p.allDependencies, st.quote d.1.text = false → d.1.text ∉ keyWords
  transitive : p.transitivePeerDependencies = [] ∨ p.allDependencies = [] ∨
    ∃ d ∈ p.allDependencies, d.1.text = Style.transitiveWord

/-- No peer bears a key word as its unquoted name; `dev` does no harm, and `integrity` only if the resolution has none. -/
structure Package.PeersSafe (st : Style) (p : Package) : Prop where
  names : ∀ d ∈ p.peerDependencies, st.quote d.1.text = false → d.1.text = devWord ∨ d.1.text ∉ keyWords
  integrity : ∀ d ∈ p.peerDependencies, st.quote d.1.text = false → d.1.text = integrityWord →
    p.integrity.isSome ∨ p.tarball = none

end ThreeVa.Locks.Pnpm
