import ThreeVa.Bundler.Generator

/-!
# Tree shaking

`bundler/src/tree_shaker.rs` and the passes of `bundle` in `bundler/src/lib.rs` that collect the imports and shake. A
program is the list of its statements as the parser gives them; of the code inside them only the names that it refers to
and whether it has side effects are kept.
-/

namespace ThreeVa.Bundler
open Text

/-! ## Programs -/

structure Code where
  refs : List Str
  effects : Bool
deriving DecidableEq

/-- A pattern that is not an identifier has code in its defaults and keys. -/
inductive BindingPattern
  | bindingIdentifier (name : Str)
  | destructuring (names : List Str) (code : Code)
deriving DecidableEq

structure VariableDeclarator where
  id : BindingPattern
  init : Option Code
deriving DecidableEq

inductive Declaration
  | functionDeclaration (id : Option Str) (refs : List Str)
  | variableDeclaration (declarations : List VariableDeclarator)
  | classDeclaration (id : Option Str) (body : Code)
  | other (names : List Str) (code : Code)
deriving DecidableEq

inductive ImportDeclarationSpecifier
  | importSpecifier (imported localName : Str)
  | importDefaultSpecifier (localName : Str)
  | importNamespaceSpecifier (localName : Str)
deriving DecidableEq

structure ExportSpecifier where
  localName : Str
  exported : Str
deriving DecidableEq

structure ExportNamedDeclaration where
  declaration : Option Declaration
  specifiers : List ExportSpecifier
  source : Option Str
deriving DecidableEq

inductive Statement
  | importDeclaration (source : Str) (specifiers : Option (List ImportDeclarationSpecifier))
  | exportNamedDeclaration (e : ExportNamedDeclaration)
  | exportDefaultDeclaration (name : Option Str) (code : Code)
  | exportAllDeclaration (exported : Option Str) (source : Str)
  | other (names : List Str) (code : Code)
deriving DecidableEq

abbrev Program := List Statement

/-! ## Imports -/

/-- A map to sets of names, each set as a list. -/
abbrev UsedExports := Str → Option (List Str)

/-- `entry(path).or_default().extend(names)` -/
def UsedExports.extend (used : UsedExports) (path : Str) (names : List Str) : UsedExports := fun p =>
  if p = path then some ((used p).getD [] ++ names) else used p

def ImportDeclarationSpecifier.usedName : ImportDeclarationSpecifier → Str
  | importSpecifier imported _ => imported
  | importDefaultSpecifier _ => "default".toList
  | importNamespaceSpecifier _ => "*".toList

def analyzeStatement (result : UsedExports) : Statement → UsedExports
  | .importDeclaration source specifiers =>
      result.extend source ((specifiers.getD []).map ImportDeclarationSpecifier.usedName)
  | _ => result

def analyzeNamedImports (program : Program) : UsedExports := program.foldl analyzeStatement fun _ => none

def UsedExports.merge (used named : UsedExports) : UsedExports := fun path =>
  match named path with
  | some names => some ((used path).getD [] ++ names)
  | none => used path

/-- The second pass over the modules. -/
def collectUsed (modules : List (Str × Program)) : UsedExports :=
  modules.foldl (fun used m => used.merge (analyzeNamedImports m.2)) fun _ => none

/-! ## Shaking -/

/-- The names of a declaration that are compared with the used ones. -/
def Declaration.comparedNames : Declaration → List Str
  | functionDeclaration id _ => id.toList
  | variableDeclaration declarations =>
      declarations.filterMap fun d =>
        match d.id with
        | .bindingIdentifier name => some name
        | .destructuring _ _ => none
  | classDeclaration id _ => id.toList
  | other _ _ => []

def ExportNamedDeclaration.comparedNames (e : ExportNamedDeclaration) : List Str :=
  (e.declaration.map Declaration.comparedNames).getD [] ++ e.specifiers.map ExportSpecifier.exported

def retained (used : List Str) : Statement → Bool
  | .exportNamedDeclaration e => used.isEmpty || e.comparedNames.any (used.contains ·)
  | _ => true

def shake (entryPoints : List Str) (name : Str) (program : Program) (used : List Str) : Program :=
  if name ∈ entryPoints then program else program.filter (retained used)

/-- The third pass, for one module. -/
def shaken (modules : List (Str × Program)) (entryPoints : List Str) (name : Str) (program : Program) : Program :=
  match collectUsed modules name with
  | some used => shake entryPoints name program used
  | none => program

/-! ## What statements mean -/

def BindingPattern.names : BindingPattern → List Str
  | bindingIdentifier name => [name]
  | destructuring names _ => names

def VariableDeclarator.code (d : VariableDeclarator) : List Code :=
  d.init.toList ++
    match d.id with
    | .bindingIdentifier _ => []
    | .destructuring _ code => [code]

def Declaration.names : Declaration → List Str
  | functionDeclaration id _ => id.toList
  | variableDeclaration declarations => declarations.flatMap fun d => d.id.names
  | classDeclaration id _ => id.toList
  | other names _ => names

/-- Declaring a function runs nothing. -/
def Declaration.code : Declaration → List Code
  | functionDeclaration _ refs => [⟨refs, false⟩]
  | variableDeclaration declarations => declarations.flatMap VariableDeclarator.code
  | classDeclaration _ body => [body]
  | other _ code => [code]

namespace Statement

def exportedNames : Statement → List Str
  | exportNamedDeclaration e => (e.declaration.map Declaration.names).getD [] ++ e.specifiers.map ExportSpecifier.exported
  | exportDefaultDeclaration _ _ => ["default".toList]
  | exportAllDeclaration exported _ => exported.toList
  | _ => []

def declaredNames : Statement → List Str
  | importDeclaration _ specifiers =>
      (specifiers.getD []).map fun
        | .importSpecifier _ localName => localName
        | .importDefaultSpecifier localName => localName
        | .importNamespaceSpecifier localName => localName
  | exportNamedDeclaration e => (e.declaration.map Declaration.names).getD []
  | exportDefaultDeclaration name _ => name.toList
  | exportAllDeclaration _ _ => []
  | other names _ => names

def code : Statement → List Code
  | exportNamedDeclaration e => (e.declaration.map Declaration.code).getD []
  | exportDefaultDeclaration _ code => [code]
  | other _ code => [code]
  | _ => []

/-- The names that a list of exports without a source takes are bindings of its own module. -/
def refs (s : Statement) : List Str :=
  s.code.flatMap Code.refs ++
    match s with
    | exportNamedDeclaration e => if e.source.isNone then e.specifiers.map ExportSpecifier.localName else []
    | _ => []

def source : Statement → Option Str
  | importDeclaration source _ => some source
  | exportNamedDeclaration e => e.source
  | exportAllDeclaration _ source => some source
  | _ => none

/-- Running a statement loads its source and runs its code. -/
def effects (loads : Str → Bool) (s : Statement) : Bool := s.source.any loads || s.code.any Code.effects

end Statement

/-! ## Conservative shaking -/

/-- A module is imported by name under a path. -/
def ImportedByName (modules : List (Str × Program)) (path name : Str) : Prop :=
  ∃ m ∈ modules, ∃ specifiers, .importDeclaration path (some specifiers) ∈ m.2 ∧
    ∃ s ∈ specifiers, ImportDeclarationSpecifier.usedName s = name

/-- Another module takes a name from a module, alone or with all the others, or passes it on to one that does. -/
inductive Imported (modules : List (Str × Program)) : Str → Str → Prop
  | named {m : Str × Program} {path name localName : Str} {specifiers : List ImportDeclarationSpecifier} (hm : m ∈ modules)
      (hne : m.1 ≠ path) (hstmt : .importDeclaration path (some specifiers) ∈ m.2)
      (hspec : .importSpecifier name localName ∈ specifiers) : Imported modules path name
  | default {m : Str × Program} {path localName : Str} {specifiers : List ImportDeclarationSpecifier} (hm : m ∈ modules)
      (hne : m.1 ≠ path) (hstmt : .importDeclaration path (some specifiers) ∈ m.2)
      (hspec : .importDefaultSpecifier localName ∈ specifiers) : Imported modules path "default".toList
  | all {m : Str × Program} {path localName : Str} {specifiers : List ImportDeclarationSpecifier} (hm : m ∈ modules)
      (hne : m.1 ≠ path) (hstmt : .importDeclaration path (some specifiers) ∈ m.2)
      (hspec : .importNamespaceSpecifier localName ∈ specifiers) (name : Str) : Imported modules path name
  | reexportAll {m : Str × Program} {path : Str} {exported : Option Str} (hm : m ∈ modules) (hne : m.1 ≠ path)
      (hstmt : .exportAllDeclaration exported path ∈ m.2) (name : Str) : Imported modules path name
  | reexport {m : Str × Program} {path : Str} {e : ExportNamedDeclaration} {s : ExportSpecifier} (hm : m ∈ modules)
      (hne : m.1 ≠ path) (hstmt : .exportNamedDeclaration e ∈ m.2) (hsource : e.source = some path)
      (hspec : s ∈ e.specifiers) (hnext : Imported modules m.1 s.exported) : Imported modules path s.localName

/-- A program left of another exports what is imported, declares what it refers to and keeps the side effects. -/
structure Conservative (modules : List (Str × Program)) (loads : Str → Bool) (name : Str) (before after : Program) :
    Prop where
  exports : ∀ n, Imported modules name n → (∃ s ∈ before, n ∈ s.exportedNames) → ∃ s ∈ after, n ∈ s.exportedNames
  declares : ∀ s ∈ after, ∀ r ∈ s.refs, (∃ t ∈ before, r ∈ t.declaredNames) → ∃ t ∈ after, r ∈ t.declaredNames
  effects : ∀ s ∈ before, s.effects loads = true → s ∈ after

/-- A named export none of whose identifiers and exported names is imported by name. -/
def Unused (modules : List (Str × Program)) (name : Str) (s : Statement) : Prop :=
  ∃ e, s = .exportNamedDeclaration e ∧ ∀ n ∈ e.comparedNames, ¬ ImportedByName modules name n

/-- Nothing that is not unused misses a statement. -/
structure Removable (modules : List (Str × Program)) (loads : Str → Bool) (name : Str) (program : Program)
    (s : Statement) : Prop where
  exports : ∀ n ∈ s.exportedNames, Imported modules name n →
    ∃ t ∈ program, ¬ Unused modules name t ∧ n ∈ t.exportedNames
  declares : ∀ r ∈ s.declaredNames, ∀ t ∈ program, ¬ Unused modules name t → r ∈ t.refs →
    ∃ u ∈ program, ¬ Unused modules name u ∧ r ∈ u.declaredNames
  effects : s.effects loads = false

end ThreeVa.Bundler

/-! The names that the modules of a graph import, and the statements that shaking keeps. -/

namespace ThreeVa.Bundler
open Text

/-! ## Imports -/

theorem mem_extend {used : UsedExports} {path p n : Str} {names : List Str} :
    n ∈ (used.extend path names p).getD [] ↔ n ∈ (used p).getD [] ∨ p = path ∧ n ∈ names := by
  unfold UsedExports.extend
  by_cases h : p = path <;> simp [h]

theorem mem_foldl_analyzeStatement (program : Program) (used : UsedExports) (path n : Str) :
    n ∈ (program.foldl analyzeStatement used path).getD [] ↔
      n ∈ (used path).getD [] ∨ ∃ specifiers, Statement.importDeclaration path (some specifiers) ∈ program ∧
        ∃ s ∈ specifiers, ImportDeclarationSpecifier.usedName s = n := by
  induction program generalizing used with
  | nil => simp
  | cons stmt program ih =>
      rw [List.foldl_cons, ih]
      cases stmt with
      | importDeclaration source specifiers =>
          cases specifiers with
          | none => simp [analyzeStatement, mem_extend]
          | some specifiers =>
              simp only [analyzeStatement, mem_extend, Option.getD_some, List.mem_map, List.mem_cons,
                Statement.importDeclaration.injEq, Option.some.injEq, or_and_right, exists_or, or_assoc]
              refine or_congr_right (or_congr_left ?_)
              constructor
              · rintro ⟨rfl, hn⟩
                exact ⟨specifiers, ⟨rfl, rfl⟩, hn⟩
              · rintro ⟨specifiers', ⟨hsource, hspecifiers⟩, hn⟩
                exact ⟨hsource, hspecifiers ▸ hn⟩
      | exportNamedDeclaration e => simp [analyzeStatement]
      | exportDefaultDeclaration name code => simp [analyzeStatement]
      | exportAllDeclaration exported source => simp [analyzeStatement]
      | other names code => simp [analyzeStatement]

theorem mem_analyzeNamedImports {program : Program} {path n : Str} :
    n ∈ (analyzeNamedImports program path).getD [] ↔
      ∃ specifiers, Statement.importDeclaration path (some specifiers) ∈ program ∧
        ∃ s ∈ specifiers, ImportDeclarationSpecifier.usedName s = n := by
  simpa [analyzeNamedImports] using mem_foldl_analyzeStatement program (fun _ => none) path n

theorem mem_merge {used named : UsedExports} {path n : Str} :
    n ∈ (used.merge named path).getD [] ↔ n ∈ (used path).getD [] ∨ n ∈ (named path).getD [] := by
  unfold UsedExports.merge
  cases named path with
  | none => simp
  | some names => simp

theorem mem_foldl_merge (modules : List (Str × Program)) (used : UsedExports) (path n : Str) :
    n ∈ (modules.foldl (fun used m => used.merge (analyzeNamedImports m.2)) used path).getD [] ↔
      n ∈ (used path).getD [] ∨ ImportedByName modules path n := by
  induction modules generalizing used with
  | nil => simp [ImportedByName]
  | cons m modules ih =>
      rw [List.foldl_cons, ih, mem_merge, mem_analyzeNamedImports, or_assoc]
      simp [ImportedByName]

/-- The names collected under a path are those that are imported by name from it. -/
theorem mem_collectUsed {modules : List (Str × Program)} {path n : Str} :
    n ∈ (collectUsed modules path).getD [] ↔ ImportedByName modules path n := by
  simpa [collectUsed] using mem_foldl_merge modules (fun _ => none) path n

/-! ## Shaking -/

section Shaking

variable {modules : List (Str × Program)} {loads : Str → Bool} {entryPoints : List Str} {name : Str} {program : Program}

theorem retained_iff {used : List Str} (hused : ∀ n, n ∈ used ↔ ImportedByName modules name n) (s : Statement) :
    retained used s = true ↔ (∀ n, ¬ ImportedByName modules name n) ∨ ¬ Unused modules name s := by
  cases s with
  | exportNamedDeclaration e =>
      simp only [retained, Bool.or_eq_true, List.isEmpty_iff, List.any_eq_true, List.contains_iff_mem]
      refine or_congr ?_ ?_
      · rw [List.eq_nil_iff_forall_not_mem]
        simp only [hused]
      · simp [Unused, hused]
  | importDeclaration source specifiers => simp [retained, Unused]
  | exportDefaultDeclaration name code => simp [retained, Unused]
  | exportAllDeclaration exported source => simp [retained, Unused]
  | other names code => simp [retained, Unused]

/-- The statements of a shaken module. -/
theorem mem_shaken {s : Statement} :
    s ∈ shaken modules entryPoints name program ↔
      s ∈ program ∧ (name ∈ entryPoints ∨ (∀ n, ¬ ImportedByName modules name n) ∨ ¬ Unused modules name s) := by
  have hmem : ∀ n, n ∈ (collectUsed modules name).getD [] ↔ ImportedByName modules name n := fun n => mem_collectUsed
  unfold shaken
  cases hused : collectUsed modules name with
  | none =>
      simp only [hused, Option.getD_none, List.not_mem_nil, false_iff] at hmem
      simp [hmem]
  | some used =>
      simp only [hused, Option.getD_some] at hmem
      simp only [shake]
      by_cases hentry : name ∈ entryPoints
      · simp [hentry]
      · rw [if_neg hentry, List.mem_filter, retained_iff hmem]
        simp [hentry]

theorem conservative_of_kept (h : ∀ s, s ∈ shaken modules entryPoints name program ↔ s ∈ program) :
    Conservative modules loads name program (shaken modules entryPoints name program) := by
  refine ⟨fun n _ hs => ?_, fun s _ r _ ht => ?_, fun s hs _ => (h s).mpr hs⟩
  · obtain ⟨s, hs, hn⟩ := hs
    exact ⟨s, (h s).mpr hs, hn⟩
  · obtain ⟨t, ht, hr⟩ := ht
    exact ⟨t, (h t).mpr ht, hr⟩

/-- Where only the unused statements are removed, that is conservative exactly where each is removable. -/
theorem conservative_iff_removable
    (h : ∀ s, s ∈ shaken modules entryPoints name program ↔ s ∈ program ∧ ¬ Unused modules name s) :
    Conservative modules loads name program (shaken modules entryPoints name program) ↔
      ∀ s ∈ program, Unused modules name s → Removable modules loads name program s := by
  constructor
  · intro hcons s hs hunused
    refine ⟨fun n hn himported => ?_, fun r hr t ht hused href => ?_, ?_⟩
    · obtain ⟨t, ht, hnt⟩ := hcons.exports n himported ⟨s, hs, hn⟩
      exact ⟨t, ((h t).mp ht).1, ((h t).mp ht).2, hnt⟩
    · obtain ⟨u, hu, hru⟩ := hcons.declares t ((h t).mpr ⟨ht, hused⟩) r href ⟨s, hs, hr⟩
      exact ⟨u, ((h u).mp hu).1, ((h u).mp hu).2, hru⟩
    · by_contra heffects
      have hkept := hcons.effects s hs (by simpa using heffects)
      exact ((h s).mp hkept).2 hunused
  · intro hremovable
    refine ⟨fun n himported hs => ?_, fun s hs r hr ht => ?_, fun s hs heffects => ?_⟩
    · obtain ⟨s, hs, hn⟩ := hs
      by_cases hunused : Unused modules name s
      · obtain ⟨t, ht, hused, hnt⟩ := (hremovable s hs hunused).exports n hn himported
        exact ⟨t, (h t).mpr ⟨ht, hused⟩, hnt⟩
      · exact ⟨s, (h s).mpr ⟨hs, hunused⟩, hn⟩
    · obtain ⟨t, ht, hrt⟩ := ht
      obtain ⟨hsp, hused⟩ := (h s).mp hs
      by_cases hunused : Unused modules name t
      · obtain ⟨u, hu, huused, hru⟩ := (hremovable t ht hunused).declares r hrt s hsp hused hr
        exact ⟨u, (h u).mpr ⟨hu, huused⟩, hru⟩
      · exact ⟨t, (h t).mpr ⟨ht, hunused⟩, hrt⟩
    · refine (h s).mpr ⟨hs, fun hunused => ?_⟩
      rw [(hremovable s hs hunused).effects] at heffects
      cases heffects

end Shaking

end ThreeVa.Bundler
