import ThreeVa.Pm.Install
import ThreeVa.Pm.Lemmas.Lookups
import ThreeVa.Pm.Lemmas.Waves

/-!
# The tree that is walked and the tree that is installed

What a lookup of the wave loop in `pm/src/lib.rs` puts into `resolved`, and the dependencies it makes the next wave
follow.
-/

namespace ThreeVa.Pm.Install
open Text Entries

/-- The text is a version that the range admits. -/
def Satisfies (range : SemverRange) (version : Str) : Prop :=
  ∃ v, Semver.parse version = some v ∧ range.matches v = true

/-- Joining the result of a node adds these specs to the map of the next wave, and no others. -/
def Follows (env : Env) (node : WaveNode) (specs : List WaveNode) : Prop :=
  ∀ (s : State) (dep : WaveNode),
    dep ∈ (s.join env node).currentWave ↔ dep ∈ (specs.filter s.unvisited).foldl orInsert s.currentWave

/-- A package is resolved to one version, which is also the one whose dependencies are followed. -/
structure WalksInstalled (env : Env) (node : WaveNode) (info : RegistryInfo) : Prop where
  specs : ∀ entry, (env.result node).resolved = some entry →
    ∃ m, info.versionMeta entry.version = some m ∧ Follows env node (env.listed m.manifest)
  inRange : ∀ entry, (env.result node).resolved = some entry →
    ∀ range, SemverRange.parse node.versionToFetch = some range → Satisfies range entry.version
  unresolvable : ∀ range, SemverRange.parse node.versionToFetch = some range →
    (∀ v ∈ info.versions, ¬ Satisfies range v) →
      (env.result node).resolved = none ∧ (env.result node).failed = true

/-! ## When it does -/

/-- The first spec of a name. -/
def specOf (name : Str) (specs : List WaveNode) : Option WaveNode := specs.find? fun n => n.name = name

namespace Env

variable (env : Env)

def required (m : Manifest) : List WaveNode :=
  (collectDepSpecs env.isUppercase m).map fun d => .required d.1 (some d.2)

def optionals (m : Manifest) : List WaveNode :=
  (collectOptionalDepSpecs env.isUppercase m).map fun d => .ofOptional d.1 d.2

/-- The pin that decides in place of the best match: the lock is strict and the version published. -/
def strictPin (node : WaveNode) (info : RegistryInfo) : Option Pin :=
  (env.lock node.name).filter fun pin => env.strictLock && (info.versionMeta pin.version).isSome

end Env

def RegistryInfo.bestMatch (info : RegistryInfo) (node : WaveNode) : Str :=
  selectBestVersion info.versions node.versionToFetch info.latest

/-- What is read of a name is the same whether it is looked for in the manifest of the version taken or, in this
order, in the required ones of the best match, the optional ones of the version taken and the required ones on
disk. -/
def SameSpec (name : Str) (best required optionals disk : List WaveNode) : Prop :=
  specOf name best = specOf name required ∧
      (specOf name required = none → specOf name optionals = none → specOf name disk = none) ∨
    specOf name best = none ∧ specOf name optionals = none ∧ specOf name disk = specOf name required

/-- A published version satisfies the range, and so does a pin that decides; the best match and the manifest on disk
require nothing that the version taken does not. -/
structure OneVersion (env : Env) (node : WaveNode) (info : RegistryInfo) : Prop where
  satisfiable : ∀ range, SemverRange.parse node.versionToFetch = some range → ∃ v ∈ info.versions, Satisfies range v
  pinInRange : ∀ pin, env.strictPin node info = some pin →
    ∀ range, SemverRange.parse node.versionToFetch = some range → Satisfies range pin.version
  specs : ∀ taken, info.versionMeta (((env.strictPin node info).map Pin.version).getD (info.bestMatch node)) =
      some taken → ∀ name,
    SameSpec name (((info.versionMeta (info.bestMatch node)).map fun m => env.required m.manifest).getD [])
      (env.required taken.manifest) (env.optionals taken.manifest)
      (((env.nodeModules node.name).map env.required).getD [])

end ThreeVa.Pm.Install

/-! When the dependencies that a lookup makes the next wave follow are those of the version it resolves. -/

namespace ThreeVa.Pm.Install
open Text

variable {env : Env} {node : WaveNode} {info : RegistryInfo} {deps : List (Str × Str)}

/-! ## Specs -/

theorem specOf_filter_unvisited (s : State) (name : Str) (l : List WaveNode) :
    specOf name (l.filter s.unvisited) = if name ∈ s.visited then none else specOf name l := by
  split
  · rename_i h
    refine List.find?_eq_none.mpr fun n hn => ?_
    have hnew := (List.mem_filter.mp hn).2
    simp only [State.unvisited, decide_eq_true_eq] at hnew
    simp only [decide_eq_true_eq]
    rintro rfl
    exact hnew h
  · rename_i h
    exact State.find?_filter_unvisited h

/-- Of each name the map of the next wave keeps the first spec, so two lists add the same if they agree on it. -/
theorem follows_iff {specs : List WaveNode} :
    Follows env node specs ↔ ∀ name, specOf name (env.result node).listings = specOf name specs := by
  constructor
  · intro h name
    have hempty : ∀ l : List WaveNode, ∀ dep : WaveNode, dep ∈ (l.filter (State.start []).unvisited).foldl orInsert [] ↔
        specOf dep.name l = some dep := by
      intro l dep
      have hall : l.filter (State.start []).unvisited = l :=
        List.filter_eq_self.mpr fun n _ => by simp [State.unvisited, State.start]
      rw [hall, mem_foldl_orInsert]
      simp [specOf]
    have hsame : ∀ dep, specOf dep.name (env.result node).listings = some dep ↔ specOf dep.name specs = some dep := by
      intro dep
      rw [← hempty, ← hempty]
      exact h (State.start []) dep
    have hnamed : ∀ {l : List WaveNode} {dep}, specOf name l = some dep → dep.name = name := fun hd => by
      simpa using List.find?_some hd
    apply Option.ext
    intro dep
    constructor
    · intro hd
      obtain rfl := hnamed hd
      exact (hsame dep).mp hd
    · intro hd
      obtain rfl := hnamed hd
      exact (hsame dep).mpr hd
  · intro h s dep
    have hjoin : (s.join env node).currentWave =
        ((env.result node).listings.filter s.unvisited).foldl orInsert s.currentWave := rfl
    rw [hjoin, mem_foldl_orInsert, mem_foldl_orInsert]
    have heq : specOf dep.name ((env.result node).listings.filter s.unvisited) =
        specOf dep.name (specs.filter s.unvisited) := by
      rw [specOf_filter_unvisited, specOf_filter_unvisited, h]
    simp only [specOf] at heq
    rw [heq]

theorem specOf_append (name : Str) (l l' : List WaveNode) :
    specOf name (l ++ l') = (specOf name l).or (specOf name l') := by
  simp [specOf, List.find?_append]

theorem specOf_optional {name : Str} {l : List WaveNode} {b : Bool} (hl : ∀ n ∈ l, n.optional = b) {n : WaveNode}
    (h : specOf name l = some n) : n.optional = b := hl n (List.mem_of_find?_eq_some h)

theorem sameSpec_iff {name : Str} {best required optionals disk : List WaveNode}
    (hb : ∀ n ∈ best, n.optional = false) (hr : ∀ n ∈ required, n.optional = false)
    (ho : ∀ n ∈ optionals, n.optional = true) (hd : ∀ n ∈ disk, n.optional = false) :
    SameSpec name best required optionals disk ↔
      specOf name (best ++ optionals ++ disk) = specOf name (required ++ optionals) := by
  have hb' := @specOf_optional name best false hb
  have hr' := @specOf_optional name required false hr
  have ho' := @specOf_optional name optionals true ho
  have hd' := @specOf_optional name disk false hd
  simp only [SameSpec, specOf_append]
  revert hb' hr' ho' hd'
  generalize specOf name best = b
  generalize specOf name required = r
  generalize specOf name optionals = o
  generalize specOf name disk = d
  intro hb' hr' ho' hd'
  -- a required spec is never an optional one
  cases b <;> cases r <;> cases o <;> cases d <;> grind

/-! ## Versions -/

/-- The best match satisfies the range if some published version does. -/
theorem satisfies_selectBestVersion {versions : List Str} {rangeStr : Str} {latest : Option Str} {range : SemverRange}
    (hrange : SemverRange.parse rangeStr = some range) (h : ∃ v ∈ versions, Satisfies range v) :
    Satisfies range (selectBestVersion versions rangeStr latest) := by
  obtain ⟨text, htext, v, hv, hm⟩ := h
  unfold selectBestVersion
  simp only [hrange, Option.getD_some]
  generalize hc : (versions.filterMap fun v => (Semver.parse v).map (·, v)).filter (fun c => range.matches c.1) =
    candidates
  have hmem : (v, text) ∈ candidates := by
    rw [← hc, List.mem_filter, List.mem_filterMap]
    exact ⟨⟨text, htext, by simp [hv]⟩, hm⟩
  cases hmax : Entries.maxBy (fun a b : Semver × Str => Semver.cmp a.1 b.1) candidates with
  | none =>
      rw [Entries.maxBy_eq_none.mp hmax] at hmem
      cases hmem
  | some best =>
      have hbest : best ∈ candidates := Entries.mem_of_maxBy hmax
      rw [← hc, List.mem_filter, List.mem_filterMap] at hbest
      obtain ⟨⟨t, -, ht⟩, hmatch⟩ := hbest
      obtain ⟨w, hw, rfl⟩ := Option.map_eq_some_iff.mp ht
      exact ⟨w, hw, hmatch⟩

theorem Env.chosenVersion_eq (env : Env) (node : WaveNode) (info : RegistryInfo) :
    env.chosenVersion node info = ((env.strictPin node info).map Pin.version).getD (info.bestMatch node) := by
  unfold chosenVersion strictPin RegistryInfo.bestMatch
  cases env.lock node.name with
  | none => rfl
  | some pin =>
      simp only [Option.filter_some]
      split <;> rfl

/-! ## Lookups -/

theorem Env.result_resolved (h : env.fetch node = .found info deps) {entry : Resolved}
    (hr : (env.result node).resolved = some entry) :
    entry.version = env.chosenVersion node info ∧ (info.versionMeta entry.version).isSome = true := by
  simp only [result, h, Option.map_eq_some_iff] at hr
  obtain ⟨m, hm, rfl⟩ := hr
  exact ⟨rfl, by simp [hm]⟩

theorem Env.exists_resolved (h : env.fetch node = .found info deps) {m : VersionMeta}
    (hm : info.versionMeta (env.chosenVersion node info) = some m) :
    ∃ entry, (env.result node).resolved = some entry ∧ entry.version = env.chosenVersion node info := by
  simp [result, h, hm]

theorem Env.result_listings (h : env.fetch node = .found info deps) {m : VersionMeta}
    (hm : info.versionMeta (env.chosenVersion node info) = some m) :
    (env.result node).listings =
      ((info.versionMeta (info.bestMatch node)).map fun m => env.required m.manifest).getD [] ++
        env.optionals m.manifest ++ ((env.nodeModules node.name).map env.required).getD [] := by
  obtain ⟨hdeps, hoptional⟩ := answers_fetch h
  simp only [WaveResult.listings, result, h, hm, hdeps, Option.map_some, Option.getD_some, hoptional _ m hm, optionals,
    RegistryInfo.bestMatch]
  congr 1
  · congr 1
    cases info.versionMeta (selectBestVersion info.versions node.versionToFetch info.latest) <;> rfl
  · cases env.nodeModules node.name <;> rfl

theorem required_not_optional {m : Manifest} : ∀ n ∈ env.required m, n.optional = false := by
  intro n hn
  obtain ⟨d, -, rfl⟩ := List.mem_map.mp hn
  rfl

theorem optionals_optional {m : Manifest} : ∀ n ∈ env.optionals m, n.optional = true := by
  intro n hn
  obtain ⟨d, -, rfl⟩ := List.mem_map.mp hn
  rfl

theorem getD_required_not_optional (env : Env) (m : Option Manifest) :
    ∀ n ∈ (m.map env.required).getD [], n.optional = false := by
  cases m with
  | none => simp
  | some m => exact required_not_optional

/-- The specs followed are those of the version taken. -/
theorem follows_taken_iff (h : env.fetch node = .found info deps) {taken : VersionMeta}
    (hm : info.versionMeta (env.chosenVersion node info) = some taken) :
    Follows env node (env.listed taken.manifest) ↔ ∀ name,
      SameSpec name (((info.versionMeta (info.bestMatch node)).map fun m => env.required m.manifest).getD [])
        (env.required taken.manifest) (env.optionals taken.manifest)
        (((env.nodeModules node.name).map env.required).getD []) := by
  rw [follows_iff, Env.result_listings h hm]
  have hbest : ∀ n ∈ ((info.versionMeta (info.bestMatch node)).map fun m => env.required m.manifest).getD [],
      n.optional = false := by
    have := getD_required_not_optional env ((info.versionMeta (info.bestMatch node)).map (·.manifest))
    rwa [Option.map_map] at this
  refine forall_congr' fun name => ?_
  rw [sameSpec_iff hbest required_not_optional optionals_optional (getD_required_not_optional env _)]
  rfl

end ThreeVa.Pm.Install
