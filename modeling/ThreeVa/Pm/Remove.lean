import ThreeVa.Lib.Checked
import ThreeVa.Lib.Json
import ThreeVa.Lib.Trim

/-!
# Removing a package

`remove_package` of `pm/src/lib.rs` on the files of a project. A file that is there can be read and written; where it
is read back, the order of the keys of an object does not matter.
-/

namespace ThreeVa.Pm
open Text

/-! ## The name in a spec -/

/-- `split('@').next()` -/
def beforeAt (s : Str) : Str := s.takeWhile fun c => c ≠ '@'

def pkgNameFull (name : Str) : Str :=
  let pkgName := trimStartMatches '@' (beforeAt name)
  if name.head? = some '@' then
    match splitOnce '/' (trimStartMatches '@' name) with
    | some (scope, rest) => '@' :: beforeAt (scope ++ '/' :: rest)
    | none => pkgName
  else pkgName

/-- The name of a package, plain or in a scope. -/
structure SpecName where
  scope : Option Str
  base : Str
  scope_chars : ∀ s ∈ scope, '@' ∉ s ∧ '/' ∉ s
  base_chars : '@' ∉ base ∧ '/' ∉ base
  ne : base ≠ []

def SpecName.text (n : SpecName) : Str :=
  match n.scope with
  | some scope => '@' :: scope ++ '/' :: n.base
  | none => n.base

/-- `name` or `name@version`. -/
def SpecName.spec (n : SpecName) : Option Str → Str
  | some version => n.text ++ '@' :: version
  | none => n.text

/-! ## JSON files -/

inductive JsonFile
  | missing
  /-- The text is not JSON. -/
  | malformed
  | json (v : Json)

/-- `json[field]` on a value to be changed: `null` becomes an object, a missing key becomes `null`, and any other value
is a panic. -/
def indexMut (v : Json) (field : Str) : Checked (List (Str × Json)) :=
  match v with
  | .null => .ok [(field, .null)]
  | .obj fields => .ok (if (Json.get? fields field).isSome then fields else fields ++ [(field, .null)])
  | _ => .error .panic

def setField (fields : List (Str × Json)) (field : Str) (v : Json) : List (Str × Json) :=
  fields.map fun x => if x.1 = field then (field, v) else x

/-- `json[field].as_object_mut()`, and what is done to the object. -/
def editObject (v : Json) (field : Str) (edit : List (Str × Json) → List (Str × Json)) : Checked Json := do
  let fields ← indexMut v field
  match Json.get? fields field with
  | some (.obj deps) => .ok (.obj (setField fields field (.obj (edit deps))))
  | _ => .ok (.obj fields)

/-- The value of a key in an object of a file. -/
def JsonFile.entry (file : JsonFile) (field key : Str) : Option Json :=
  match file with
  | .json (.obj fields) => (Json.get? fields field).bind fun v => v.asObject.bind fun deps => Json.get? deps key
  | _ => none

/-! ## Removal -/

def dependenciesField : Str := "dependencies".toList

def manifestFields : List Str :=
  [dependenciesField, "devDependencies".toList, "peerDependencies".toList, "optionalDependencies".toList]

def removeKey (name : Str) (deps : List (Str × Json)) : List (Str × Json) := deps.filter fun x => x.1 ≠ name

/-- The turns of the loop over the fields of the manifest: the manifest, and whether it was modified. -/
def removeFromFields (name : Str) : List Str → Json → Checked (Json × Bool)
  | [], v => .ok (v, false)
  | field :: rest, v => do
      let modified := ((JsonFile.json v).entry field name).isSome
      let v ← editObject v field (removeKey name)
      let (v, more) ← removeFromFields name rest v
      return (v, modified || more)

def removeFromManifest (name : Str) (file : JsonFile) : Checked JsonFile :=
  match file with
  | .json v => do
      let (v', modified) ← removeFromFields name manifestFields v
      return if modified then .json v' else file
  | _ => .ok file

def removeFromLockfile (name : Str) (file : JsonFile) : Checked JsonFile :=
  match file with
  | .json v => do
      let v ← editObject v dependenciesField fun deps => deps.filter fun x => !name.isPrefixOf x.1
      return .json v
  | _ => .ok file

structure Project where
  /-- The directories below `node_modules`. -/
  installed : Str → Bool
  manifest : JsonFile
  lockfile : JsonFile

/-- The project it leaves, also when it fails. -/
def removePackage (p : Project) (name : Str) : Project × Checked Unit :=
  let pkgName := pkgNameFull name
  if !p.installed pkgName then
    (p, fail ("Package '".toList ++ pkgName ++ "' is not installed in node_modules.".toList))
  else
    let p := { p with installed := fun n => n ≠ pkgName && p.installed n }
    match removeFromManifest pkgName p.manifest with
    | .error e => (p, .error e)
    | .ok manifest =>
        let p := { p with manifest }
        match removeFromLockfile pkgName p.lockfile with
        | .error e => (p, .error e)
        | .ok lockfile => ({ p with lockfile }, .ok ())

/-! ## Exact removal -/

def Project.locked (p : Project) (key : Str) : Option Json := p.lockfile.entry dependenciesField key

/-- The entry of the package is gone unless the call fails, and all others are as they were. -/
structure RemovesExactly (p : Project) (n : SpecName) (version : Option Str) : Prop where
  removed : (removePackage p (n.spec version)).2 = .ok () →
    (removePackage p (n.spec version)).1.locked n.text = none
  locked : ∀ key, key ≠ n.text → (removePackage p (n.spec version)).1.locked key = p.locked key
  manifest : ∀ field ∈ manifestFields, ∀ key, key ≠ n.text →
    (removePackage p (n.spec version)).1.manifest.entry field key = p.manifest.entry field key

/-- The package is installed and the manifest can be edited: an array, a text or a number cannot. -/
def Project.Removable (p : Project) (n : SpecName) : Prop :=
  p.installed n.text = true ∧ ∀ v, p.manifest = .json v → v = .null ∨ ∃ fields, v = .obj fields

/-- No other entry of the lockfile has a name that begins with the name of the package. -/
def Project.NoLongerName (p : Project) (n : SpecName) : Prop :=
  ∀ key, (p.locked key).isSome → n.text <+: key → key = n.text

/-! Which name a spec gives, and what an edit leaves of a JSON object. -/

/-! ## The name in a spec -/

theorem beforeAt_append {s : Str} (h : '@' ∉ s) (version : Option Str) :
    beforeAt (s ++ version.elim [] ('@' :: ·)) = s := by
  unfold beforeAt
  rw [List.takeWhile_append_of_pos fun c hc => by simpa using fun heq : c = '@' => h (heq ▸ hc)]
  cases version with
  | none => simp
  | some v => simp

theorem trimStartMatches_of_not_mem {c : Char} {s : Str} (h : c ∉ s) : trimStartMatches c s = s := by
  unfold trimStartMatches
  cases s with
  | nil => rfl
  | cons x s =>
      have hx : x ≠ c := fun heq => h (heq ▸ List.mem_cons_self)
      simp [hx]

theorem SpecName.spec_eq (n : SpecName) (version : Option Str) :
    n.spec version = n.text ++ version.elim [] ('@' :: ·) := by
  cases version with
  | none => simp [spec]
  | some v => rfl

/-- Whatever the version, the name of the spec is the name of the package. -/
theorem pkgNameFull_spec (n : SpecName) (version : Option Str) : pkgNameFull (n.spec version) = n.text := by
  rw [n.spec_eq]
  cases hscope : n.scope with
  | none =>
      have htext : n.text = n.base := by rw [SpecName.text, hscope]
      have hhead : (n.base ++ version.elim [] ('@' :: ·)).head? ≠ some '@' := by
        rw [List.head?_append_of_ne_nil _ n.ne]
        exact fun h => n.base_chars.1 (List.mem_of_mem_head? h)
      rw [pkgNameFull, htext, if_neg hhead, beforeAt_append n.base_chars.1,
        trimStartMatches_of_not_mem n.base_chars.1]
  | some scope =>
      obtain ⟨hat, hslash⟩ := n.scope_chars scope hscope
      have htext : n.text = '@' :: scope ++ '/' :: n.base := by rw [SpecName.text, hscope]
      have hname : '@' ∉ scope ++ '/' :: n.base := by simp [hat, n.base_chars.1]
      have htrim : trimStartMatches '@' ('@' :: (scope ++ '/' :: (n.base ++ version.elim [] ('@' :: ·)))) =
          scope ++ '/' :: (n.base ++ version.elim [] ('@' :: ·)) := by
        cases scope with
        | nil => simp [trimStartMatches]
        | cons c scope =>
            have hc : c ≠ '@' := fun heq => hat (heq ▸ List.mem_cons_self)
            simp [trimStartMatches, hc]
      have hsplit : splitOnce '/' (scope ++ '/' :: (n.base ++ version.elim [] ('@' :: ·))) =
          some (scope, n.base ++ version.elim [] ('@' :: ·)) := splitOnce_eq_some.mpr ⟨rfl, hslash⟩
      rw [pkgNameFull, htext]
      simp only [List.cons_append, List.append_assoc, List.head?_cons, ↓reduceIte, htrim, hsplit]
      rw [← List.cons_append, ← List.append_assoc, beforeAt_append hname]

/-! ## Objects -/

theorem get?_filter (keep : Str → Bool) (fields : List (Str × Json)) (key : Str) :
    Json.get? (fields.filter fun x => keep x.1) key = if keep key then Json.get? fields key else none := by
  unfold Json.get?
  rw [List.find?_filter]
  split
  · rename_i hkeep
    congr 2
    funext x
    by_cases hx : x.1 = key
    · simp [hx, hkeep]
    · simp [hx]
  · rename_i hkeep
    rw [Option.map_eq_none_iff, List.find?_eq_none]
    rintro x - h
    simp only [decide_eq_true_eq] at h
    exact hkeep (h.2 ▸ h.1)

theorem get?_setField {fields : List (Str × Json)} {field : Str} (v : Json) (key : Str) :
    Json.get? (setField fields field v) key =
      if key = field then (Json.get? fields field).map fun _ => v else Json.get? fields key := by
  unfold Json.get? setField
  induction fields with
  | nil => simp
  | cons x fields ih =>
      rw [List.map_cons, List.find?_cons, List.find?_cons]
      by_cases hx : x.1 = field
      · by_cases hkey : key = field
        · simp [hx, hkey]
        · have hxkey : x.1 ≠ key := fun h => hkey (h.symm.trans hx)
          rw [if_pos hx, if_neg hkey] at *
          simpa [Ne.symm hkey, hxkey] using ih
      · simp only [hx, ↓reduceIte, decide_false, List.find?_cons]
        by_cases hxkey : x.1 = key
        · have hkey : key ≠ field := hxkey ▸ hx
          simp [hxkey, hkey]
        · simpa [hxkey] using ih

theorem get?_append_null (fields : List (Str × Json)) (field key : Str) (h : Json.get? fields field = none) :
    Json.get? (fields ++ [(field, .null)]) key = if key = field then some .null else Json.get? fields key := by
  unfold Json.get? at h ⊢
  rw [List.find?_append]
  by_cases hkey : key = field
  · rw [Option.map_eq_none_iff] at h
    simp [hkey, h]
  · have hnone : [(field, Json.null)].find? (fun x => decide (x.1 = key)) = none := by simp [Ne.symm hkey]
    rw [hnone, Option.or_none, if_neg hkey]

/-- Indexing an object or `null` adds no entry to any object in it. -/
theorem entry_of_indexMut {v : Json} {field : Str} {fields : List (Str × Json)} (h : indexMut v field = .ok fields)
    (f key : Str) : (JsonFile.json (.obj fields)).entry f key = (JsonFile.json v).entry f key := by
  unfold indexMut at h
  split at h
  · cases h
    by_cases hf : field = f
    · simp [JsonFile.entry, Json.get?, hf, Json.asObject]
    · simp [JsonFile.entry, Json.get?, hf]
  · rename_i fields'
    cases h
    split
    · rfl
    · rename_i hnone
      rw [Option.not_isSome_iff_eq_none] at hnone
      simp only [JsonFile.entry, get?_append_null fields' field f hnone]
      split
      · rename_i hf
        rw [hf, hnone]
        rfl
      · rfl
  · cases h

theorem editObject_ok {v : Json} {field : Str} {edit : List (Str × Json) → List (Str × Json)} :
    (∃ v', editObject v field edit = .ok v') ↔ v = .null ∨ ∃ fields, v = .obj fields := by
  unfold editObject
  cases v with
  | null =>
      simp only [indexMut, ok_bind, true_or, iff_true]
      split <;> exact ⟨_, rfl⟩
  | obj fields =>
      simp only [indexMut, ok_bind, reduceCtorEq, Json.obj.injEq, exists_eq', or_true, iff_true]
      split <;> exact ⟨_, rfl⟩
  | _ => simp [indexMut, Bind.bind, Except.bind]

theorem editObject_obj {v v' : Json} {field : Str} {edit : List (Str × Json) → List (Str × Json)}
    (h : editObject v field edit = .ok v') : ∃ fields, v' = .obj fields := by
  obtain ⟨fields, -, h⟩ := bind_eq_ok.mp h
  split at h
  · cases h
    exact ⟨_, rfl⟩
  · cases h
    exact ⟨_, rfl⟩

/-- An edit that drops keys drops them from the one object. -/
theorem entry_editObject (keep : Str → Bool) {v v' : Json} {field : Str}
    (h : editObject v field (fun deps => deps.filter fun x => keep x.1) = .ok v') (f key : Str) :
    (JsonFile.json v').entry f key = if f = field ∧ keep key = false then none else (JsonFile.json v).entry f key := by
  obtain ⟨fields, hfields, h⟩ := bind_eq_ok.mp h
  rw [← entry_of_indexMut hfields f key]
  split at h
  · rename_i deps hdeps
    cases h
    simp only [JsonFile.entry, get?_setField]
    by_cases hf : f = field
    · subst hf
      simp only [↓reduceIte, hdeps, Option.map_some, Option.bind_some, Json.asObject, get?_filter, true_and]
      cases keep key <;> simp
    · simp [hf]
  · rename_i hdeps
    cases h
    by_cases hf : f = field
    · subst hf
      have hnone : (JsonFile.json (.obj fields)).entry f key = none := by
        simp only [JsonFile.entry, Option.bind_eq_none_iff]
        intro v hv deps hobj
        cases v with
        | obj deps' => exact absurd hv (hdeps deps')
        | _ => cases hobj
      simp [hnone]
    · simp [hf]

/-! ## The manifest -/

theorem removeFromFields_ok (name : Str) (fields : List Str) {v : Json} (h : v = .null ∨ ∃ fs, v = .obj fs) :
    ∃ r, removeFromFields name fields v = .ok r := by
  induction fields generalizing v with
  | nil => exact ⟨_, rfl⟩
  | cons field fields ih =>
      obtain ⟨v', hedit⟩ := editObject_ok.mpr h
      obtain ⟨r, hrest⟩ := ih (.inr (editObject_obj hedit))
      rw [removeFromFields, hedit]
      simp only [ok_bind, hrest]
      exact ⟨_, rfl⟩

theorem entry_removeFromFields {name : Str} {fields : List Str} {v v' : Json} {modified : Bool}
    (h : removeFromFields name fields v = .ok (v', modified)) (f : Str) {key : Str} (hkey : key ≠ name) :
    (JsonFile.json v').entry f key = (JsonFile.json v).entry f key := by
  induction fields generalizing v v' modified with
  | nil =>
      cases h
      rfl
  | cons field fields ih =>
      obtain ⟨v1, hedit, h⟩ := bind_eq_ok.mp h
      obtain ⟨⟨v2, more⟩, hrest, h⟩ := bind_eq_ok.mp h
      cases h
      have hkeep : ∀ k, decide (k ≠ name) = false ↔ k = name := fun k => by simp
      rw [ih hrest, entry_editObject (fun k => k ≠ name) hedit f key, if_neg fun h => hkey ((hkeep key).mp h.2)]

theorem removeFromManifest_ok_iff {name : Str} {file : JsonFile} :
    (∃ file', removeFromManifest name file = .ok file') ↔ ∀ v, file = .json v → v = .null ∨ ∃ fs, v = .obj fs := by
  constructor
  · rintro ⟨file', h⟩ v rfl
    obtain ⟨⟨v', modified⟩, hv, -⟩ := bind_eq_ok.mp h
    obtain ⟨v1, hedit, -⟩ := bind_eq_ok.mp hv
    exact editObject_ok.mp ⟨v1, hedit⟩
  · intro h
    cases file with
    | json v =>
        obtain ⟨r, hr⟩ := removeFromFields_ok name manifestFields (h v rfl)
        rw [removeFromManifest, hr]
        exact ⟨_, rfl⟩
    | _ => exact ⟨_, rfl⟩

theorem entry_removeFromManifest {name : Str} {file file' : JsonFile} (h : removeFromManifest name file = .ok file')
    (f : Str) {key : Str} (hkey : key ≠ name) : file'.entry f key = file.entry f key := by
  cases file with
  | json v =>
      obtain ⟨⟨v', modified⟩, hv, h⟩ := bind_eq_ok.mp h
      cases h
      split
      · exact entry_removeFromFields hv f hkey
      · rfl
  | _ =>
      cases h
      rfl

/-! ## The lockfile -/

theorem removeFromLockfile_ok (name : Str) {key : Str} {file : JsonFile} (h : (file.entry dependenciesField key).isSome) :
    ∃ file', removeFromLockfile name file = .ok file' := by
  cases file with
  | json v =>
      cases v with
      | obj fields =>
          obtain ⟨v', hv⟩ := editObject_ok.mpr (.inr ⟨fields, rfl⟩)
          rw [removeFromLockfile, hv]
          exact ⟨_, rfl⟩
      | _ => cases h
  | _ => cases h

/-- The lockfile loses all keys that begin with the name. -/
theorem entry_removeFromLockfile {name : Str} {file file' : JsonFile} (h : removeFromLockfile name file = .ok file')
    (key : Str) : file'.entry dependenciesField key =
      if name <+: key then none else file.entry dependenciesField key := by
  cases file with
  | json v =>
      obtain ⟨v', hv, h⟩ := bind_eq_ok.mp h
      cases h
      rw [entry_editObject (fun k => !name.isPrefixOf k) hv]
      simp only [true_and, Bool.not_eq_false', List.isPrefixOf_iff_prefix]
  | _ =>
      cases h
      simp [JsonFile.entry]

/-! ## A call -/

/-- What a call does to the files: it stops before the lockfile, or all three parts go through. -/
theorem removePackage_cases (p : Project) (name : Str) :
    (∃ e, (removePackage p name).2 = .error e ∧ (removePackage p name).1.lockfile = p.lockfile ∧
      ∀ f key, key ≠ pkgNameFull name → (removePackage p name).1.manifest.entry f key = p.manifest.entry f key) ∨
    (p.installed (pkgNameFull name) = true ∧
      removeFromManifest (pkgNameFull name) p.manifest = .ok (removePackage p name).1.manifest ∧
      removeFromLockfile (pkgNameFull name) p.lockfile = .ok (removePackage p name).1.lockfile ∧
      (removePackage p name).2 = .ok ()) := by
  unfold removePackage
  dsimp only
  split
  · exact .inl ⟨_, rfl, rfl, fun _ _ _ => rfl⟩
  · rename_i hinstalled
    cases hmanifest : removeFromManifest (pkgNameFull name) p.manifest with
    | error e => exact .inl ⟨e, rfl, rfl, fun _ _ _ => rfl⟩
    | ok manifest =>
        cases hlock : removeFromLockfile (pkgNameFull name) p.lockfile with
        | error e => exact .inl ⟨e, rfl, rfl, fun f key hkey => entry_removeFromManifest hmanifest f hkey⟩
        | ok lockfile => exact .inr ⟨by simpa using hinstalled, rfl, rfl, rfl⟩

theorem removePackage_ok {p : Project} {name : Str} {file : JsonFile} (hinstalled : p.installed (pkgNameFull name) = true)
    (hmanifest : ∃ file, removeFromManifest (pkgNameFull name) p.manifest = .ok file)
    (hlock : removeFromLockfile (pkgNameFull name) p.lockfile = .ok file) :
    (removePackage p name).1.lockfile = file := by
  obtain ⟨manifest, hmanifest⟩ := hmanifest
  simp [removePackage, hinstalled, hmanifest, hlock]

/-- If a call gets as far as the lockfile, no longer name is in it. -/
theorem removesExactly_of_noLongerName {p : Project} {n : SpecName} (h : p.Removable n → p.NoLongerName n)
    (version : Option Str) : RemovesExactly p n version := by
  have hname := pkgNameFull_spec n version
  rcases removePackage_cases p (n.spec version) with ⟨e, herr, hlock, hmanifest⟩ | ⟨hinstalled, hmanifest, hlock, -⟩
  · rw [hname] at hmanifest
    refine ⟨fun hok => ?_, fun key _ => by rw [Project.locked, hlock, Project.locked], fun f _ => hmanifest f⟩
    rw [herr] at hok
    cases hok
  · rw [hname] at hinstalled hmanifest hlock
    have hremovable : p.Removable n := ⟨hinstalled, removeFromManifest_ok_iff.mp ⟨_, hmanifest⟩⟩
    refine ⟨fun _ => ?_, fun key hkey => ?_, fun f _ key hkey => entry_removeFromManifest hmanifest f hkey⟩
    · rw [Project.locked, entry_removeFromLockfile hlock, if_pos List.prefix_rfl]
    · rw [Project.locked, entry_removeFromLockfile hlock]
      split
      · rename_i hprefix
        rw [eq_comm, ← Option.not_isSome_iff_eq_none]
        exact fun hsome => hkey (h hremovable key hsome hprefix)
      · rfl

theorem RemovesExactly.noLongerName {p : Project} {n : SpecName} {version : Option Str} (h : RemovesExactly p n version)
    (hremovable : p.Removable n) : p.NoLongerName n := by
  intro key hsome hprefix
  by_contra hne
  have hname := pkgNameFull_spec n version
  obtain ⟨file, hfile⟩ := removeFromLockfile_ok n.text hsome
  have hlock : (removePackage p (n.spec version)).1.lockfile = file := by
    apply removePackage_ok
    · rw [hname]
      exact hremovable.1
    · rw [hname]
      exact removeFromManifest_ok_iff.mpr hremovable.2
    · rw [hname]
      exact hfile
  have hkept := h.locked key hne
  rw [Project.locked, hlock, entry_removeFromLockfile hfile, if_pos hprefix] at hkept
  rw [← hkept] at hsome
  cases hsome

end ThreeVa.Pm
