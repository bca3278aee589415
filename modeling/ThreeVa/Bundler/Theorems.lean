import ThreeVa.Bundler.DeadCode
import ThreeVa.Bundler.Lemmas.Generator
import ThreeVa.Bundler.Lemmas.Linker
import ThreeVa.Bundler.Lemmas.Splitter
import ThreeVa.Bundler.TreeShaker

/-! # Theorems about the bundler -/

namespace ThreeVa.Bundler
open Text SourceMap

/-! ## Source maps -/

/--
A bundle's source map sends every line that carries a line of a module to that line, and the other lines nowhere, exactly
where there is no module, or one in an immediately invoked bundle. A number is read back from its VLQ exactly where
doubling it does not overflow.
-/
theorem sourceMap_right_iff (format : OutputFormat) (modules : Modules) (v : Int64) :
    (MapRight format modules ↔ modules.list = [] ∨ format = .iife ∧ modules.list.length = 1) ∧
      ((∃ s, vlqEncodeValue v = some s ∧ decodeVlq s = some (v.toInt, [])) ↔
        -2 ^ 62 < v.toInt ∧ v.toInt < 2 ^ 62) := by
  refine ⟨?_, vlqEncodeValue_decodes_iff v⟩
  constructor
  · intro hright
    by_contra hnot
    obtain ⟨hne, hsingle⟩ := not_or.mp hnot
    obtain ⟨m, rest, hmodules⟩ := List.exists_cons_of_ne_nil hne
    by_cases hformat : format = .iife
    · subst hformat
      cases rest with
      | nil => exact hsingle ⟨rfl, by rw [hmodules]; rfl⟩
      | cons m' rest => exact not_mapRight_iife hmodules hright
    · exact not_mapRight_of_header hformat hne hright
  · rintro (hnil | ⟨rfl, hone⟩)
    · exact mapRight_nil format hnil
    · obtain ⟨m, hmodules⟩ := List.length_eq_one_iff.mp hone
      exact mapRight_single hmodules

def oneModule : Modules := ⟨[("a".toList, "x".toList)], by decide⟩

/-- The comment over a module is mapped to its first line, and the least number is not read back. -/
theorem comment_line_mapped :
    (¬ MapRight .cjs oneModule) ∧ mappings .cjs oneModule = some "AAAA".toList ∧
      generate .cjs oneModule = "// Module: a\nx\n\n".toList ∧
      vlqEncodeValue Int64.minValue = some "B".toList ∧ decodeVlq "B".toList = some (0, []) := by
  refine ⟨not_mapRight_of_header (by decide) (by decide), ?_⟩
  decide

/-! ## Code splitting -/

/--
The chunks of a splitter partition what the entry points lead to exactly where the graph is splittable, and those that a
bundle holds partition its modules exactly where none imports another and the format writes their code.
-/
theorem split_partitions_iff (entryPoints : List Str) (deps : Deps) (format : OutputFormat) (b : Bundler) :
    ((∃ chunks, split [] entryPoints deps = some chunks ∧
        Partitions (imports deps) entryPoints (chunks.map Chunk.modules)) ↔ Splittable (imports deps) entryPoints) ∧
      ((∃ chunks, emitted format b = some chunks ∧ Partitions (knownImports b) b.modules chunks) ↔
        b.modules = [] ∨ format ≠ .esm ∧ ∀ m ∈ b.modules, ∀ d ∈ imports b.moduleDeps m, d ∉ b.modules) := by
  refine ⟨?_, emitted_partitions_iff format b⟩
  obtain ⟨order, hsplit, hnodup, hmem, horder⟩ := split_spec deps entryPoints
  have hchunks : (order.map (chunkOf deps)).map Chunk.modules = chunksOf (imports deps) order := by
    simp [chunksOf, chunkOf]
  constructor
  · rintro ⟨chunks, hchunk, hpart⟩
    rw [hsplit, Option.some.injEq] at hchunk
    rw [← hchunk, hchunks] at hpart
    exact (partitions_chunksOf_iff hnodup hmem horder).mp hpart
  · intro hsplittable
    exact ⟨_, hsplit, by rw [hchunks]; exact (partitions_chunksOf_iff hnodup hmem horder).mpr hsplittable⟩

/-- Two entry points that import one module, and each other in a bundle. -/
def sharedDeps : Deps := ⟨[("a".toList, ["c".toList]), ("b".toList, ["c".toList])], by decide⟩

def cyclicBundler : Bundler where
  modules := ["a".toList, "b".toList]
  moduleDeps := ⟨[("a".toList, ["b".toList]), ("b".toList, ["a".toList])], by decide⟩
  codeGen := ⟨[("a".toList, "1".toList), ("b".toList, "2".toList)], by decide⟩
  distinct := by decide
  deps_keys := by simp
  code_keys := by simp

/-- A module that two entry points import is in both chunks, and so are two modules of a bundle that import each other. -/
theorem shared_module_twice :
    (split [] ["a".toList, "b".toList] sharedDeps).map (List.map Chunk.modules) =
        some [["a".toList, "c".toList], ["b".toList, "c".toList]] ∧
      (¬ ∃ chunks, split [] ["a".toList, "b".toList] sharedDeps = some chunks ∧
        Partitions (imports sharedDeps) ["a".toList, "b".toList] (chunks.map Chunk.modules)) ∧
      emitted .iife cyclicBundler = some [["a".toList, "b".toList], ["b".toList, "a".toList]] ∧
      bundleWithSplitting .esm cyclicBundler =
        some "// Chunk: a (a.js)\nimport './a.js';\n\n// Chunk: b (b.js)\nimport './b.js';\n\n".toList := by
  refine ⟨by decide, ?_, by decide, by decide⟩
  rintro ⟨chunks, hchunks, hpart⟩
  have hmodules : (split [] ["a".toList, "b".toList] sharedDeps).map (List.map Chunk.modules) =
      some [["a".toList, "c".toList], ["b".toList, "c".toList]] := by decide
  rw [hchunks, Option.map_some, Option.some.injEq] at hmodules
  rw [hmodules] at hpart
  exact absurd hpart.once (by decide)

/-! ## Tree shaking -/

/--
Shaking a module of a graph is conservative exactly where it is an entry point, nothing is imported by name from it, or
everything that misses an imported name among its identifiers is removable.
-/
theorem shaken_conservative_iff (modules : List (Str × Program)) (entryPoints : List Str) (loads : Str → Bool) (name : Str)
    (program : Program) :
    Conservative modules loads name program (shaken modules entryPoints name program) ↔
      name ∈ entryPoints ∨ (∀ n, ¬ ImportedByName modules name n) ∨
        ∀ s ∈ program, Unused modules name s → Removable modules loads name program s := by
  by_cases hkept : name ∈ entryPoints ∨ ∀ n, ¬ ImportedByName modules name n
  · have hall : ∀ s, s ∈ shaken modules entryPoints name program ↔ s ∈ program := by
      intro s
      rw [mem_shaken, ← or_assoc]
      simp only [hkept, true_or, and_true]
    rw [← or_assoc]
    exact iff_of_true (conservative_of_kept hall) (Or.inl hkept)
  · have hunused : ∀ s, s ∈ shaken modules entryPoints name program ↔ s ∈ program ∧ ¬ Unused modules name s := by
      intro s
      rw [mem_shaken, ← or_assoc]
      simp only [hkept, false_or]
    rw [← or_assoc, conservative_iff_removable hunused]
    simp only [hkept, false_or]

def namespaceImport : List (Str × Program) :=
  [("main".toList, [.importDeclaration "lib".toList (some [.importNamespaceSpecifier "ns".toList])]),
    ("lib".toList, [.exportNamedDeclaration ⟨some (.functionDeclaration (some "f".toList) []), [], none⟩])]

/-- A namespace import marks no name of a module as used, so that all its exports go. -/
theorem namespace_import_loses_exports :
    shaken namespaceImport ["main".toList] "lib".toList
        [.exportNamedDeclaration ⟨some (.functionDeclaration (some "f".toList) []), [], none⟩] = [] ∧
      ¬ Conservative namespaceImport (fun _ => false) "lib".toList
        [.exportNamedDeclaration ⟨some (.functionDeclaration (some "f".toList) []), [], none⟩]
        (shaken namespaceImport ["main".toList] "lib".toList
          [.exportNamedDeclaration ⟨some (.functionDeclaration (some "f".toList) []), [], none⟩]) := by
  have hshaken : shaken namespaceImport ["main".toList] "lib".toList
      [.exportNamedDeclaration ⟨some (.functionDeclaration (some "f".toList) []), [], none⟩] = [] := by decide
  refine ⟨hshaken, fun hcons => ?_⟩
  have himported : Imported namespaceImport "lib".toList "f".toList :=
    .all List.mem_cons_self (by decide) List.mem_cons_self List.mem_cons_self _
  obtain ⟨s, hs, -⟩ := hcons.exports "f".toList himported ⟨_, List.mem_cons_self, List.mem_cons_self⟩
  rw [hshaken] at hs
  cases hs

/-! ## Linking -/

/-- Two modules in a directory of the project, the first of which calls `require('./b')`. -/
def worldIn (dir : Bytes) : World where
  cwd := some [[0x70]]
  isFile _ := true
  readToString path := some (if path = [[0x70], dir, [0x61]] then "require('./b')".toList else [])
  moduleBody _ _ source _ := source
  isNodeBuiltin _ := false
  resolveEsm _ _ := [[0x70], dir, [0x62]]

def lexemesIn (dir : Bytes) (path : FilePath) : List Lexeme :=
  if path = [[0x70], dir, [0x61]] then
    [.word "require".toList, .punctuator "(".toList, .string '\'' "./b".toList, .punctuator ")".toList]
  else []

def srcDir : Bytes := [0x73, 0x72, 0x63]

def apostropheDir : Bytes := [0x69, 0x74, 0x27, 0x73]

namespace DeadCode

/-- `var x` and an assignment to `x`. -/
inductive Simple
  | declareX
  | assignX
deriving DecidableEq

def simpleLeaves : Leaves where
  Expr := Empty
  ForHead := Empty
  FunctionHead := Unit
  Other := Simple
  headNames e := e.elim
  otherNames o := if o = .declareX then [['x']] else []

/-- `if (false) { var x; } x = 1;` -/
def guardedVar : List (Statement simpleLeaves) :=
  [.ifStatement (.booleanLiteral false) (.blockStatement [.other Simple.declareX]) none, .other Simple.assignX]

end DeadCode

end ThreeVa.Bundler
