import ThreeVa.Lib.Entries
import ThreeVa.Lib.Json
import ThreeVa.Lib.Maps
import ThreeVa.Lib.Trim
import ThreeVa.Lib.Words

/-!
# Trusted packages

`pm/src/trust.rs`: the `3va` block of a manifest, and whether it trusts a package of some version and integrity.
-/

namespace ThreeVa.Settings
open Text

structure TrustEntry where
  name : Str
  /-- `none` stands for every version. -/
  version : Option Str
deriving DecidableEq

def clean (s : Str) : Str := trimStartMatches 'v' (trimStartMatches '=' (trim s))

def semverEqual (pin version : Str) : Bool := clean pin = clean version

def TrustEntry.matches (entry : TrustEntry) (name version : Str) : Bool :=
  entry.name = name && entry.version.all fun v => semverEqual v version

def entryKey (entry : TrustEntry) : Str :=
  match entry.version with
  | some v => entry.name ++ '@' :: v
  | none => entry.name

def firstWord (s : Str) : Option Str := (splitWhitespace s).head?

def integrityEq (a b : Str) : Bool :=
  match firstWord a, firstWord b with
  | some x, some y => x = y && !x.isEmpty
  | _, _ => false

/-! ## The block of a manifest -/

structure TrustPolicy where
  entries : List TrustEntry
  integrity : Finmap fun _ : Str => Str
  /-- The packages whose lifecycle scripts may run. -/
  buildAllowed : List Str
  packagePermissions : Finmap fun _ : Str => Json

def TrustPolicy.empty : TrustPolicy := ⟨[], ∅, [], ∅⟩

/-- The text is split at its last `@`, unless it starts with that. -/
def trustEntry (s : Str) : TrustEntry :=
  match (rsplitOnce '@' s).filter fun x => !x.1.isEmpty with
  | some (name, version) => ⟨name, if version.isEmpty then none else some version⟩
  | none => ⟨s, none⟩

def parseTrustList (value : Json) : Except Str (List TrustEntry) := do
  let some items := value.asArray | throw "package.json: \"3va.trusted\" must be an array".toList
  let texts ← items.mapM fun item =>
    item.asStr.elim (throw "package.json: \"3va.trusted\" entries must be strings".toList) fun s => .ok (trim s)
  return (texts.filter fun s => !s.isEmpty).map trustEntry

def parseNameList (value : Json) (key : Str) : Except Str (List Str) := do
  let some items := value.asArray | return []
  let texts ← items.mapM fun item =>
    item.asStr.elim (throw ("package.json: \"".toList ++ key ++ "\" entries must be strings".toList)) fun s =>
      .ok (trim s)
  return texts.filter fun s => !s.isEmpty

/-- The names listed under the keys of an object, one key after the other. -/
def nameLists (fields : List (Str × Json)) (keys : List Str) : Except Str (List Str) := do
  let lists ← keys.mapM fun key => (Json.get? fields key).elim (.ok []) fun list => parseNameList list key
  return lists.flatten

def trustedList (fields : List (Str × Json)) : Except Str (List TrustEntry) :=
  (Json.get? fields "trusted".toList).elim (.ok []) parseTrustList

/-- Hashes that are no strings are left out. -/
def trustedIntegrity (fields : List (Str × Json)) : Except Str (Finmap fun _ : Str => Str) :=
  match Json.get? fields "trustedIntegrity".toList with
  | none => .ok ∅
  | some map =>
      map.asObject.elim (throw "package.json: \"3va.trustedIntegrity\" must be an object".toList) fun entries =>
        .ok (Finmap.putAll ∅ (entries.filterMap fun (k, v) => v.asStr.map fun s => (k, s)))

def permissionsOf (fields : List (Str × Json)) : Finmap fun _ : Str => Json :=
  Finmap.putAll ∅ ((((Json.get? fields "permissions".toList).bind Json.asObject).getD []).filter fun x =>
    x.2.asObject.isSome)

def onlyBuilt : Str := "onlyBuiltDependencies".toList

def trustedDependencies : Str := "trustedDependencies".toList

namespace TrustPolicy

/-- A manifest that is no object has no block. -/
def fromManifest (manifest : Json) : Except Str TrustPolicy := do
  let fields := manifest.asObject.getD []
  let some block := Json.get? fields "3va".toList | return .empty
  let .obj obj := block |
    match block with
    | .null => return .empty
    | _ => throw "package.json: \"3va\" must be an object".toList
  let entries ← trustedList obj
  let integrity ← trustedIntegrity obj
  let inBlock ← nameLists obj [onlyBuilt, trustedDependencies]
  let atTop ← nameLists fields [trustedDependencies, onlyBuilt]
  return {
    entries
    integrity
    buildAllowed := (Entries.sortBy compare (inBlock ++ atTop)).dedup
    packagePermissions := permissionsOf obj }

end TrustPolicy

/-! ## Decisions -/

inductive TrustStatus
  | notTrusted
  | trusted
  | unversioned
  | integrityMismatch
  | integrityUnknown
deriving DecidableEq

namespace TrustPolicy

variable (p : TrustPolicy) (name version : Str)

/-- The first entry that matches. -/
def entryFor : Option TrustEntry := p.entries.find? fun e => e.matches name version

def status (integrity : Option Str) : TrustStatus :=
  match p.entryFor name version with
  | none => .notTrusted
  | some entry =>
      let granted := if entry.version.isSome then TrustStatus.trusted else .unversioned
      match p.integrity.lookup (entryKey entry), integrity with
      | some _, none => .integrityUnknown
      | some expected, some actual => if integrityEq expected actual then granted else .integrityMismatch
      | none, _ => granted

def isTrusted (integrity : Option Str) : Bool :=
  p.status name version integrity = .trusted || p.status name version integrity = .unversioned

/-- A hash is recorded for this version of the package, in some spelling of the version. -/
def Records (hash : Str) : Prop :=
  ∃ pin, semverEqual pin version = true ∧ p.integrity.lookup (name ++ '@' :: pin) = some hash

/-- What is trusted has the hash that is recorded for it. -/
def PinsHold : Prop :=
  ∀ hash served, p.Records name version hash → p.isTrusted name version served = true →
    served.any (integrityEq hash) = true

/-- A hash that is recorded for a package that an entry matches is also recorded under the spelling of the first such
entry, unless the one there is blank. -/
def OwnSpellingPins : Prop :=
  ∀ entry, p.entryFor name version = some entry → ∀ hash, p.Records name version hash →
    ∃ own, p.integrity.lookup (entryKey entry) = some own ∧ (firstWord own = none ∨ integrityEq hash own = true)

end TrustPolicy

end ThreeVa.Settings

/-! ## Lemmas about trusted packages -/

namespace ThreeVa.Settings
open Text

/-! ## Integrity -/

theorem integrityEq_iff {a b : Str} :
    integrityEq a b = true ↔ ∃ word, firstWord a = some word ∧ firstWord b = some word := by
  unfold integrityEq
  cases ha : firstWord a with
  | none => simp
  | some x =>
      have hne : x ≠ [] := (mem_splitWhitespace (List.mem_of_head? ha)).2.1
      cases hb : firstWord b with
      | none => simp
      | some y =>
          simp only [Bool.and_eq_true, decide_eq_true_eq, Bool.not_eq_true', List.isEmpty_eq_false_iff, Option.some.injEq]
          constructor
          · rintro ⟨rfl, -⟩
            exact ⟨x, rfl, rfl⟩
          · rintro ⟨word, rfl, rfl⟩
            exact ⟨rfl, hne⟩

theorem integrityEq_self {a word : Str} (h : firstWord a = some word) : integrityEq a a = true :=
  integrityEq_iff.mpr ⟨word, h, h⟩

theorem integrityEq_trans {a b c : Str} (hab : integrityEq a b = true) (hbc : integrityEq b c = true) :
    integrityEq a c = true := by
  obtain ⟨word, ha, hb⟩ := integrityEq_iff.mp hab
  obtain ⟨word', hb', hc⟩ := integrityEq_iff.mp hbc
  obtain rfl : word = word' := Option.some.inj (hb.symm.trans hb')
  exact integrityEq_iff.mpr ⟨word, ha, hc⟩

namespace TrustPolicy

variable {p : TrustPolicy} {name version : Str}

/-! ## Trust -/

/-- The first entry that matches decides, and the hash recorded under its own spelling. -/
theorem isTrusted_iff {served : Option Str} :
    p.isTrusted name version served = true ↔ ∃ entry, p.entryFor name version = some entry ∧
      ∀ own, p.integrity.lookup (entryKey entry) = some own → served.any (integrityEq own) = true := by
  unfold isTrusted status
  cases hentry : p.entryFor name version with
  | none => simp
  | some entry =>
      cases hown : p.integrity.lookup (entryKey entry) with
      | none => cases entry.version <;> simp [hown]
      | some own =>
          cases served with
          | none => simp [hown]
          | some actual =>
              cases heq : integrityEq own actual with
              | true => cases entry.version <;> simp [hown, heq]
              | false => simp [hown, heq]

theorem PinsHold.own (h : p.PinsHold name version) : p.OwnSpellingPins name version := by
  intro entry hentry hash hrecords
  cases hown : p.integrity.lookup (entryKey entry) with
  | none =>
      -- without a hash under its own spelling the entry trusts what has none
      have htrusted : p.isTrusted name version none = true :=
        isTrusted_iff.mpr ⟨entry, hentry, fun own hsome => by rw [hown] at hsome; cases hsome⟩
      cases h hash none hrecords htrusted
  | some own =>
      refine ⟨own, rfl, ?_⟩
      cases hword : firstWord own with
      | none => exact .inl rfl
      | some word =>
          have htrusted : p.isTrusted name version (some own) = true := by
            refine isTrusted_iff.mpr ⟨entry, hentry, fun own' hsome => ?_⟩
            obtain rfl : own = own' := Option.some.inj (hown.symm.trans hsome)
            exact integrityEq_self hword
          exact .inr (h hash (some own) hrecords htrusted)

theorem OwnSpellingPins.pins (h : p.OwnSpellingPins name version) : p.PinsHold name version := by
  intro hash served hrecords htrusted
  obtain ⟨entry, hentry, hchecked⟩ := isTrusted_iff.mp htrusted
  obtain ⟨own, hown, hsame⟩ := h entry hentry hash hrecords
  have hserved := hchecked own hown
  cases served with
  | none => cases hserved
  | some actual =>
      rcases hsame with hblank | hsame
      · obtain ⟨word, hword, -⟩ := integrityEq_iff.mp hserved
        rw [hblank] at hword
        cases hword
      · exact integrityEq_trans hsame hserved

end TrustPolicy

end ThreeVa.Settings
