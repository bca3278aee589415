import ThreeVa.Lib.CommandLine
import ThreeVa.Lib.Lines
import ThreeVa.Lib.Maps
import ThreeVa.Store.Paths
import ThreeVa.Lib.Trim

/-!
# `.npmrc`

`pm/src/npmrc.rs`: the settings of one file, and those of several files of rising precedence.
-/

namespace ThreeVa.Settings
open Text CommandLine

abbrev Table (ν : Type) := Finmap fun _ : Str => ν

structure NpmrcConfig where
  registry : Option Str
  /-- By scope. -/
  scopedRegistries : Table Str
  /-- This table and the next two are by host. -/
  authTokens : Table Str
  authCredentials : Table Str
  alwaysAuth : Table Bool
  raw : Table Str
  savePrefix : Option Str
  saveExact : Bool

def NpmrcConfig.default : NpmrcConfig where
  registry := none
  scopedRegistries := ∅
  authTokens := ∅
  authCredentials := ∅
  alwaysAuth := ∅
  raw := ∅
  savePrefix := none
  saveExact := false

def normalizeRegistryUrl (url : Str) : Str :=
  let url := trimEndMatches '/' (trim url)
  if "://".toList <:+: url then url else "https://".toList ++ url

def normalizeRegistryHost (host : Str) : Str :=
  trimEndMatches ':' (trimEndMatches '/' (Store.trimStartMatches "//".toList (trim host)))

/-! ## One file -/

/-- The key and the value of a line; a comment, a blank line and a line without `=` have none. -/
def setting? (line : Str) : Option (Str × Str) :=
  let trimmed := trim line
  if trimmed.isEmpty || trimmed.head? = some ';' || trimmed.head? = some '#' then none
  else (splitOnce '=' trimmed).map fun (key, value) => (trim key, trimMatches '"' (trim value))

def registryKey : Str := "registry".toList

def savePrefixKey : Str := "save-prefix".toList

def saveExactKey : Str := "save-exact".toList

def isTrue (value : Str) : Bool := value = "true".toList

/-- One setting; the first form that the key has decides. -/
def NpmrcConfig.set (config : NpmrcConfig) (key value : Str) : NpmrcConfig :=
  if key = registryKey then { config with registry := some (normalizeRegistryUrl value) }
  else if let some scope := stripSuffix ":registry".toList key then
    { config with scopedRegistries := config.scopedRegistries.insert scope (normalizeRegistryUrl value) }
  else if let some host := stripSuffix ":_authToken".toList key then
    { config with authTokens := config.authTokens.insert (normalizeRegistryHost host) value }
  else if let some host := stripSuffix ":_auth".toList key then
    { config with authCredentials := config.authCredentials.insert (normalizeRegistryHost host) value }
  else if let some host := stripSuffix ":always-auth".toList key then
    { config with alwaysAuth := config.alwaysAuth.insert (normalizeRegistryHost host) (isTrue value) }
  else if key = savePrefixKey then { config with savePrefix := some value }
  else if key = saveExactKey then { config with saveExact := isTrue value }
  else { config with raw := config.raw.insert key value }

def NpmrcConfig.setAll (config : NpmrcConfig) (settings : List (Str × Str)) : NpmrcConfig :=
  settings.foldl (fun config (key, value) => config.set key value) config

/-- The settings of a file, in the order of its lines. -/
def settingsOf (content : Str) : List (Str × Str) := (lines content).filterMap setting?

def parseNpmrc (content : Str) : NpmrcConfig := NpmrcConfig.default.setAll (settingsOf content)

/-! ## Several files -/

/-- Inserting the entries of a table one by one, in whatever order, is a union. -/
def mergeConfigs (base overrides : NpmrcConfig) : NpmrcConfig where
  registry := overrides.registry.or base.registry
  scopedRegistries := overrides.scopedRegistries ∪ base.scopedRegistries
  authTokens := overrides.authTokens ∪ base.authTokens
  authCredentials := overrides.authCredentials ∪ base.authCredentials
  alwaysAuth := overrides.alwaysAuth ∪ base.alwaysAuth
  raw := overrides.raw ∪ base.raw
  savePrefix := base.savePrefix
  saveExact := base.saveExact

/-- The files that can be read, those of higher precedence later: `$PREFIX/etc/npmrc`, `~/.npmrc` and that of the
project. -/
def discoverNpmrc (contents : List Str) : NpmrcConfig :=
  contents.foldl (fun config content => mergeConfigs config (parseNpmrc content)) .default

/-- Two files on top of each other say what one file with the lines of both says. -/
def LayeredLikeConcat (a b : Str) : Prop := mergeConfigs (parseNpmrc a) (parseNpmrc b) = parseNpmrc (a ++ '\n' :: b)

/-- What the last line of a file that sets a key sets it to. -/
def lastValue (content key : Str) : Option Str := (settingsOf content).reverse.lookup key

/-- The file on top sets `save-prefix` and `save-exact`, if at all, to what they are below it. -/
structure SaveSettingsKept (a b : Str) : Prop where
  savePrefix : ∀ value, lastValue b savePrefixKey = some value → lastValue a savePrefixKey = some value
  saveExact : ∀ value, lastValue b saveExactKey = some value → isTrue value = (lastValue a saveExactKey).any isTrue

/-! ## Lemmas about `.npmrc` files -/

/-! ## Lines -/

theorem setting?_stripCr (line : Str) : setting? (stripCr line) = setting? line := by
  unfold stripCr
  split
  · rename_i hlast
    obtain ⟨front, rfl⟩ := List.getLast?_eq_some_iff.mp hlast
    rw [List.dropLast_concat]
    unfold setting?
    rw [trim_concat front (by decide)]
  · rfl

theorem settingsOf_eq (content : Str) : settingsOf content = (content.splitOn '\n').filterMap setting? := by
  unfold settingsOf lines
  obtain ⟨front, last, hparts⟩ := (List.eq_nil_or_concat' (content.splitOn '\n')).resolve_left (by simp)
  have hlast : ([last].filter fun line => !line.isEmpty).filterMap setting? = [last].filterMap setting? := by
    cases last with
    | nil => rfl
    | cons c last => rfl
  simp only [hparts, List.dropLast_concat, List.getLast?_concat, List.filterMap_append, List.filterMap_map]
  congr 1
  · exact List.filterMap_congr fun line _ => setting?_stripCr line
  · rw [← hlast]
    cases last <;> rfl

/-- A line feed between two files keeps their lines apart. -/
theorem settingsOf_concat (a b : Str) : settingsOf (a ++ '\n' :: b) = settingsOf a ++ settingsOf b := by
  rw [settingsOf_eq, settingsOf_eq, settingsOf_eq, List.splitOn_append_cons_self, List.filterMap_append]

/-! ## Settings on top of others -/

namespace NpmrcConfig

/-- A configuration on top of another one, when it is known whether it sets `save-exact`. -/
def onTopOf (upper base : NpmrcConfig) (exact : Option Bool) : NpmrcConfig :=
  { mergeConfigs base upper with
    savePrefix := upper.savePrefix.or base.savePrefix
    saveExact := exact.getD base.saveExact }

theorem set_saveExact (config : NpmrcConfig) (value : Str) :
    config.set saveExactKey value = { config with saveExact := isTrue value } := by
  have hsuffixes : stripSuffix ":registry".toList saveExactKey = none ∧
      stripSuffix ":_authToken".toList saveExactKey = none ∧ stripSuffix ":_auth".toList saveExactKey = none ∧
      stripSuffix ":always-auth".toList saveExactKey = none := by decide
  have hkeys : saveExactKey ≠ registryKey ∧ saveExactKey ≠ savePrefixKey := by decide
  simp only [set, hsuffixes, hkeys, if_false, if_true]

theorem set_savePrefix (config : NpmrcConfig) (value : Str) :
    config.set savePrefixKey value = { config with savePrefix := some value } := by
  have hsuffixes : stripSuffix ":registry".toList savePrefixKey = none ∧
      stripSuffix ":_authToken".toList savePrefixKey = none ∧ stripSuffix ":_auth".toList savePrefixKey = none ∧
      stripSuffix ":always-auth".toList savePrefixKey = none := by decide
  have hkey : savePrefixKey ≠ registryKey := by decide
  simp only [set, hsuffixes, hkey, if_false, if_true]

/-- The other keys leave both of these settings alone and set the same thing wherever they stand. -/
theorem set_of_ne {key : Str} (hsave : key ≠ savePrefixKey) (hexact : key ≠ saveExactKey) (value : Str) :
    (∀ config : NpmrcConfig, (config.set key value).savePrefix = config.savePrefix ∧
      (config.set key value).saveExact = config.saveExact) ∧
    ∀ upper base exact, (onTopOf upper base exact).set key value = onTopOf (upper.set key value) base exact := by
  unfold set
  refine ⟨fun config => ?_, fun upper base exact => ?_⟩
  · split_ifs
    · exact ⟨rfl, rfl⟩
    · repeat' split
      all_goals exact ⟨rfl, rfl⟩
  · split_ifs
    · rfl
    · repeat' split
      all_goals simp only [onTopOf, mergeConfigs, Finmap.insert_union]

theorem onTopOf_set (upper base : NpmrcConfig) (exact : Option Bool) (key value : Str) :
    (onTopOf upper base exact).set key value =
      onTopOf (upper.set key value) base (if key = saveExactKey then some (isTrue value) else exact) := by
  by_cases hexact : key = saveExactKey
  · rw [hexact, set_saveExact, set_saveExact, if_pos rfl]
    rfl
  · rw [if_neg hexact]
    by_cases hsave : key = savePrefixKey
    · rw [hsave, set_savePrefix, set_savePrefix]
      rfl
    · exact (set_of_ne hsave hexact value).2 upper base exact

theorem setAll_concat (config : NpmrcConfig) (settings : List (Str × Str)) (x : Str × Str) :
    config.setAll (settings ++ [x]) = (config.setAll settings).set x.1 x.2 := List.foldl_concat ..

/-- Going on from a configuration is putting what is set from the start on top of it. -/
theorem setAll_eq_onTopOf (base : NpmrcConfig) (settings : List (Str × Str)) :
    base.setAll settings =
      onTopOf (NpmrcConfig.default.setAll settings) base ((settings.reverse.lookup saveExactKey).map isTrue) := by
  induction settings using List.reverseRecOn with
  | nil =>
      cases base
      simp [setAll, onTopOf, mergeConfigs, default, Finmap.empty_union]
  | append_singleton settings x ih =>
      obtain ⟨key, value⟩ := x
      rw [setAll_concat, setAll_concat, ih, onTopOf_set, List.reverse_concat, List.lookup_cons]
      congr 1
      by_cases hexact : key = saveExactKey
      · simp [hexact]
      · simp [hexact, beq_false_of_ne (Ne.symm hexact)]

theorem setAll_saveSettings (settings : List (Str × Str)) :
    (NpmrcConfig.default.setAll settings).savePrefix = settings.reverse.lookup savePrefixKey ∧
      (NpmrcConfig.default.setAll settings).saveExact = (settings.reverse.lookup saveExactKey).any isTrue := by
  induction settings using List.reverseRecOn with
  | nil => exact ⟨rfl, rfl⟩
  | append_singleton settings x ih =>
      obtain ⟨key, value⟩ := x
      have hkeys : savePrefixKey ≠ saveExactKey := by decide
      rw [setAll_concat, List.reverse_concat, List.lookup_cons, List.lookup_cons]
      by_cases hexact : key = saveExactKey
      · subst hexact
        rw [set_saveExact]
        simp [beq_false_of_ne hkeys, ih.1]
      · by_cases hsave : key = savePrefixKey
        · subst hsave
          rw [set_savePrefix]
          simp [beq_false_of_ne hkeys.symm, ih.2]
        · obtain ⟨hp, he⟩ := (set_of_ne hsave hexact value).1 (NpmrcConfig.default.setAll settings)
          simp [hp, he, ih, beq_false_of_ne (Ne.symm hexact), beq_false_of_ne (Ne.symm hsave)]

end NpmrcConfig

/-! ## Files on top of others -/

theorem parseNpmrc_saveSettings (content : Str) :
    (parseNpmrc content).savePrefix = lastValue content savePrefixKey ∧
      (parseNpmrc content).saveExact = (lastValue content saveExactKey).any isTrue :=
  NpmrcConfig.setAll_saveSettings _

/-- The file with the lines of both: every field is merged but for the two save settings. -/
theorem parseNpmrc_concat (a b : Str) :
    parseNpmrc (a ++ '\n' :: b) =
      { mergeConfigs (parseNpmrc a) (parseNpmrc b) with
        savePrefix := (lastValue b savePrefixKey).or (lastValue a savePrefixKey)
        saveExact := ((lastValue b saveExactKey).map isTrue).getD ((lastValue a saveExactKey).any isTrue) } := by
  have hsplit : parseNpmrc (a ++ '\n' :: b) = (parseNpmrc a).setAll (settingsOf b) := by
    unfold parseNpmrc
    rw [settingsOf_concat]
    exact List.foldl_append
  rw [hsplit, NpmrcConfig.setAll_eq_onTopOf]
  unfold NpmrcConfig.onTopOf
  rw [← (parseNpmrc_saveSettings a).1, ← (parseNpmrc_saveSettings a).2, ← (parseNpmrc_saveSettings b).1]
  rfl

end ThreeVa.Settings
