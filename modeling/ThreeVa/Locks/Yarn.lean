import ThreeVa.Lib.Maps
import ThreeVa.Locks.Names

/-!
# `yarn.lock` of Yarn v1

`parse_yarn_entries`, `split_yarn_keys` and `extract_name_from_key` of `pm/src/yarn_lock.rs`, and the layout that they
read. Positions in a line are kept as the parts before and after them.
-/

namespace ThreeVa.Locks.Yarn
open Text

abbrev StrMap := Finmap fun _ : Str => Str

def versionWord : Str := "version".toList

def resolvedWord : Str := "resolved".toList

def integrityWord : Str := "integrity".toList

def dependenciesLine : Str := "dependencies:".toList

def optionalDependenciesLine : Str := "optionalDependencies:".toList

/-! ## Parsing -/

structure YarnEntry where
  version : Str
  resolved : Option Str
  integrity : Option Str
  dependencies : StrMap

structure YarnEntryBuilder where
  version : Option Str
  resolved : Option Str
  integrity : Option Str
  dependencies : StrMap
  inDeps : Bool
  inOptDeps : Bool

namespace YarnEntryBuilder

def new : YarnEntryBuilder := ⟨none, none, none, ∅, false, false⟩

def build (entry : YarnEntryBuilder) : YarnEntry where
  version := entry.version.getD "0.0.0".toList
  resolved := entry.resolved
  integrity := entry.integrity
  dependencies := entry.dependencies

/-- A trimmed line below the keys of an entry. -/
def continuation (entry : YarnEntryBuilder) (content : Str) : YarnEntryBuilder :=
  if let some rest := stripPrefix (versionWord ++ [' ']) content then
    { entry with version := some (trimMatches '"' rest) }
  else if let some rest := stripPrefix (resolvedWord ++ [' ']) content then
    { entry with resolved := some (trimMatches '"' rest) }
  else if let some rest := stripPrefix (integrityWord ++ [' ']) content then
    { entry with integrity := some (trimMatches '"' rest) }
  else if content = dependenciesLine then { entry with inDeps := true }
  else if content = optionalDependenciesLine then { entry with inOptDeps := true }
  else if entry.inDeps || entry.inOptDeps then
    if let some (before, after) := splitOnce ' ' content then
      let depName := trimMatches '"' (trim before)
      let depVer := trimMatches '"' (trim (' ' :: after))
      { entry with dependencies := entry.dependencies.orInsert depName depVer }
    else entry
  else entry

end YarnEntryBuilder

def flushYarnEntry (entries : Finmap fun _ : Str => YarnEntry) (keys : List Str) (entry : YarnEntryBuilder) :
    Finmap fun _ : Str => YarnEntry := entries.insertAll keys entry.build

/-- `line[start..i].trim().trim_matches('"')`, pushed unless it is empty. -/
def pushKey (piece : Str) : List Str :=
  let key := trimMatches '"' (trim piece)
  if key = [] then [] else [key]

/-- The keys of the rest of a line, `piece` being what follows the last comma. -/
def splitKeysFrom (depth : Nat) (piece : Str) : Str → List Str
  | [] => pushKey piece
  | ch :: rest =>
      if ch = '"' then splitKeysFrom (depth ^^^ 1) (piece ++ [ch]) rest
      else if ch = ',' ∧ depth = 0 then pushKey piece ++ splitKeysFrom depth [] rest
      else splitKeysFrom depth (piece ++ [ch]) rest

def splitYarnKeys (line : Str) : List Str := splitKeysFrom 0 [] line

structure State where
  entries : Finmap fun _ : Str => YarnEntry
  currentKeys : Option (List Str)
  currentEntry : Option YarnEntryBuilder

namespace State

def new : State := ⟨∅, none, none⟩

/-- The current entry is stored; both of its parts are taken in any case. -/
def flush (s : State) : State :=
  match s.currentKeys, s.currentEntry with
  | some keys, some entry => ⟨flushYarnEntry s.entries keys entry, none, none⟩
  | _, _ => ⟨s.entries, none, none⟩

def step (s : State) (line : Str) : State :=
  let trimmed := trim line
  if trimmed.isEmpty || trimmed.head? = some '#' then s.flush
  else if line.head? = some ' ' ∨ line.head? = some '\t' then
    if [' ', ' '] <+: line ∨ line.head? = some '\t' then
      { s with currentEntry := s.currentEntry.map fun entry => entry.continuation trimmed }
    else s
  else { s.flush with
    currentKeys := some (splitYarnKeys (trimEndMatches ':' trimmed))
    currentEntry := some YarnEntryBuilder.new }

end State

def parseYarnEntries (content : Str) : Finmap fun _ : Str => YarnEntry :=
  ((lines content).foldl State.step State.new).flush.entries

/-- The name before the last `@`, the one at the beginning of a scoped name apart. -/
def extractNameFromKey (key : Str) : Str :=
  match (stripPrefix ['@'] key).bind (splitOnce '/') with
  | some (scope, afterScope) =>
      match rsplitOnce '@' afterScope with
      | some (base, _) => '@' :: scope ++ '/' :: base
      | none => key
  | none =>
      match rsplitOnce '@' key with
      | some (name, _) => name
      | none => key

/-! ## The layout -/

def isTextChar (c : Char) : Bool := c ≠ '"' && c ≠ '\\' && 32 ≤ c.toNat

/-- A text that needs no escapes between quotes. -/
structure YarnText where
  text : Str
  chars : ∀ c ∈ text, isTextChar c

structure Key where
  name : PackageName
  range : YarnText

def Key.text (key : Key) : Str := key.name.text ++ '@' :: key.range.text

structure Dependency where
  name : PackageName
  range : YarnText

def Dependency.pair (d : Dependency) : Str × Str := (d.name.text, d.range.text)

structure Entry where
  keys : List Key
  version : YarnText
  resolved : Option YarnText
  integrity : Option YarnText
  dependencies : List Dependency
  optionalDependencies : List Dependency
  ne : keys ≠ []
  distinct : (dependencies.map fun d => d.name.text).Nodup
  distinctOptional : (optionalDependencies.map fun d => d.name.text).Nodup

namespace Entry

/-- The dependencies, and after them the optional ones. -/
def allDependencies (e : Entry) : List Dependency := e.dependencies ++ e.optionalDependencies

/-- What is recorded under a name. -/
def recorded (e : Entry) (name : Str) : Option Str := (e.allDependencies.map Dependency.pair).lookup name

end Entry

/-- A lockfile with one entry for each key. -/
structure Lock where
  entries : List Entry
  distinct : (entries.flatMap fun e => e.keys.map Key.text).Nodup

/-- What may stand without quotes. -/
structure Plain (s : Str) : Prop where
  first : ∃ c ∈ s.head?, c.isAlpha
  chars : ∀ c ∈ s, isWhitespace c = false ∧ c ∉ [':', '"', '\\', ',', '[', ']']

/-- Which texts are written between quotes. -/
structure Quoting where
  wrap : Str → Bool
  plain : ∀ s, wrap s = false → Plain s

namespace Quoting

variable (q : Quoting)

def write (s : Str) : Str := if q.wrap s then '"' :: s ++ ['"'] else s

def keyLine (keys : List Key) : Str := [',', ' '].intercalate (keys.map fun k => q.write k.text) ++ [':']

def fieldLine (word : Str) (value : YarnText) : Str := word ++ ' ' :: q.write value.text

def dependencyLine (d : Dependency) : Str := q.write d.name.text ++ ' ' :: q.write d.range.text

def block (head : Str) (ds : List Dependency) : List Str :=
  if ds = [] then [] else indented 2 head :: ds.map fun d => indented 4 (q.dependencyLine d)

def fieldLines (e : Entry) : List Str :=
  indented 2 (q.fieldLine versionWord e.version)
    :: (e.resolved.toList.map fun value => indented 2 (q.fieldLine resolvedWord value))
    ++ (e.integrity.toList.map fun value => indented 2 (q.fieldLine integrityWord value))
    ++ q.block dependenciesLine e.dependencies
    ++ q.block optionalDependenciesLine e.optionalDependencies

def header : List Str :=
  ["# THIS IS AN AUTOGENERATED FILE. DO NOT EDIT THIS FILE DIRECTLY.".toList, "# yarn lockfile v1".toList]

def render (lock : Lock) : Str :=
  writeLines (header ++ lock.entries.flatMap fun e => [] :: q.keyLine e.keys :: q.fieldLines e)

end Quoting

/-! ## Fidelity -/

/-- The words that begin the lines of an entry's own fields. -/
def fieldWords : List Str := [versionWord, resolvedWord, integrityWord]

/-- The name of a dependency is taken for the word of a field. -/
def Quoting.Misread (q : Quoting) (d : Dependency) : Prop := q.wrap d.name.text = false ∧ d.name.text ∈ fieldWords

/-- The parsed entry is the one in the lockfile. -/
structure YarnEntry.Recovers (y : YarnEntry) (e : Entry) : Prop where
  version : y.version = e.version.text
  resolved : y.resolved = e.resolved.map YarnText.text
  integrity : y.integrity = e.integrity.map YarnText.text
  dependencies : ∀ name, y.dependencies.lookup name = e.recorded name

/-- Every key leads to its entry, and its name to the package. -/
def Faithful (q : Quoting) (lock : Lock) : Prop :=
  ∀ e ∈ lock.entries, ∀ k ∈ e.keys,
    (∃ y, (parseYarnEntries (q.render lock)).lookup k.text = some y ∧ y.Recovers e) ∧
      extractNameFromKey k.text = k.name.text

end ThreeVa.Locks.Yarn
