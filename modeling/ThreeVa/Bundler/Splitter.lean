import ThreeVa.Bundler.Generator
import ThreeVa.Lib.Dag

/-!
# Code splitting

`CodeSplitter` of `bundler/src/generator.rs` and `bundle_with_splitting` of `bundler/src/lib.rs`, with what it means for
chunks to partition a graph of modules.
-/

namespace ThreeVa.Bundler
open Text DepthFirst

abbrev Deps := Entries Str (List Str)

def getDeps (deps : Deps) (name : Str) : Option (List Str) := (deps.list.find? (·.1 = name)).map Prod.snd

structure Chunk where
  name : Str
  modules : List Str
  deps : List Str
deriving DecidableEq

def Chunk.new (name : Str) : Chunk := ⟨name, [], []⟩

def Chunk.addModule (chunk : Chunk) (module : Str) : Chunk := { chunk with modules := chunk.modules ++ [module] }

/-! ## Splitting -/

/-- The chunks of a splitter and the set that its walks share. -/
structure Splitting where
  chunks : List Chunk
  visited : List Str

def splitEntry (deps : Deps) : Nat → Str → Splitting → Option Splitting
  | 0, _, _ => none
  | fuel + 1, entry, s =>
      if entry ∈ s.visited then some s
      else do
        let start := ((Chunk.new entry).addModule entry, { s with visited := entry :: s.visited })
        let (chunk, s) ← ((getDeps deps entry).getD []).foldlM (fun (chunk, s) dep => do
          let chunk := { chunk.addModule dep with deps := chunk.deps ++ [dep] }
          let s ← ((getDeps deps dep).getD []).foldlM
            (fun s sub => if sub ∈ s.visited then some s else splitEntry deps fuel sub s) s
          return (chunk, s)) start
        return { s with chunks := s.chunks ++ [chunk] }

/-- A splitter keeps the chunks of its earlier calls. -/
def split (chunks : List Chunk) (entryPoints : List Str) (deps : Deps) : Option (List Chunk) :=
  (entryPoints.foldlM (fun s entry =>
    if entry ∈ s.visited then some s else splitEntry deps (deps.list.length + 1) entry s) ⟨chunks, []⟩).map
      Splitting.chunks

/-! ## Bundles -/

/-- A bundler whose modules were all analyzed and given to the generator, as `bundle` has them when it splits. -/
structure Bundler where
  modules : List Str
  moduleDeps : Deps
  codeGen : Modules
  distinct : modules.Nodup
  deps_keys : ∀ m, m ∈ modules ↔ m ∈ moduleDeps.list.map Prod.fst
  code_keys : ∀ m, m ∈ modules ↔ m ∈ codeGen.list.map Prod.fst

def getModule (codeGen : Modules) (name : Str) : Option Str := (codeGen.list.find? (·.1 = name)).map Prod.snd

def chunkCode (codeGen : Modules) (chunk : Chunk) : Str :=
  chunk.modules.flatMap fun m => ((getModule codeGen m).map (· ++ "\n".toList)).getD []

def chunkText (format : OutputFormat) (codeGen : Modules) (chunk : Chunk) : Str :=
  if format = .esm then
    let filename := chunk.name ++ ".js".toList
    "// Chunk: ".toList ++ chunk.name ++ " (".toList ++ filename ++ ")\nimport './".toList ++ filename ++
      "';\n\n".toList
  else
    "// ===== Chunk: ".toList ++ chunk.name ++ " =====\n(function() \x7b\n".toList ++ chunkCode codeGen chunk ++
      "\x7d)();\n\n".toList

def bundleWithSplitting (format : OutputFormat) (b : Bundler) : Option Str := do
  let chunks ← split [] b.modules b.moduleDeps
  return chunks.flatMap (chunkText format b.codeGen)

/-- The parts of a chunk's text, each with the module whose code it is. -/
def chunkParts (format : OutputFormat) (codeGen : Modules) (chunk : Chunk) : List (Option Str × Str) :=
  if format = .esm then [(none, chunkText format codeGen chunk)]
  else
    (none, "// ===== Chunk: ".toList ++ chunk.name ++ " =====\n(function() \x7b\n".toList) ::
      chunk.modules.filterMap (fun m => (getModule codeGen m).map fun code => (some m, code ++ "\n".toList)) ++
      [(none, "\x7d)();\n\n".toList)]

/-- The modules that a chunk's text holds. -/
def writtenModules (format : OutputFormat) (codeGen : Modules) (chunk : Chunk) : List Str :=
  (chunkParts format codeGen chunk).filterMap Prod.fst

/-- The modules that each chunk of a bundle holds. -/
def emitted (format : OutputFormat) (b : Bundler) : Option (List (List Str)) :=
  (split [] b.modules b.moduleDeps).map fun chunks => chunks.map (writtenModules format b.codeGen)

/-! ## Partitions -/

def imports (deps : Deps) (m : Str) : List Str := (getDeps deps m).getD []

/-- The imports between modules of the bundler. -/
def knownImports (b : Bundler) (m : Str) : List Str := (imports b.moduleDeps m).filter (· ∈ b.modules)

section Graph

variable {α : Type}

/-- Chunks hold what the roots lead to, each module once, and load what their modules import no later than these. -/
structure Partitions (imports : α → List α) (roots : List α) (chunks : List (List α)) : Prop where
  once : chunks.flatten.Nodup
  covers : ∀ m, m ∈ chunks.flatten ↔ ∃ a ∈ roots, Reach imports a m
  loaded : ∀ before chunk after, chunks = before ++ chunk :: after → ∀ m ∈ chunk, ∀ d ∈ imports m,
    d ∈ before.flatten ∨ d ∈ chunk

/-- The modules that imports of imports lead to. -/
def twice (imports : α → List α) (m : α) : List α := (imports m).flatMap imports

/-- A walk of an even number of imports leads from a root to a module. -/
def EvenFrom (imports : α → List α) (roots : List α) (m : α) : Prop := ∃ a ∈ roots, Reach (twice imports) a m

/--
No module is an even number of imports from the roots and an odd number too, those an even number away share no import and
have none twice, and no two of them lie on a cycle.
-/
structure Splittable (imports : α → List α) (roots : List α) : Prop where
  parity : ∀ a b, EvenFrom imports roots a → EvenFrom imports roots b → b ∉ imports a
  nodup : ∀ a, EvenFrom imports roots a → (imports a).Nodup
  disjoint : ∀ a b, EvenFrom imports roots a → EvenFrom imports roots b → a ≠ b → (imports a).Disjoint (imports b)
  acyclic : ∀ a b, EvenFrom imports roots a → Reach (twice imports) a b → Reach (twice imports) b a → a = b

end Graph

end ThreeVa.Bundler
