import ThreeVa.Permissions.Capability
import ThreeVa.Permissions.Host
import ThreeVa.Permissions.Lemmas.Check

/-!
# Deny rules and the spellings of a name

What name lookup takes for one name, and where `check_inner` of `permissions/src/capability.rs` finds a deny rule
for it.
-/

namespace ThreeVa.Permissions
open Text

/-! ## Names -/

/-- The spelling in which nothing is left to normalise. -/
def IsCanonicalName (name : Str) : Prop :=
  IsDnsName name ∧ toAsciiLowercase name = name ∧ name.getLast? ≠ some '.'

/-- Name lookup finds the same name: neither letter case nor one dot at the end counts. -/
def SpellsName (spelling name : Str) : Prop :=
  eqIgnoreAsciiCase spelling name = true ∨ eqIgnoreAsciiCase spelling (name ++ ['.']) = true

/-- What follows the host of a destination: nothing, or a colon and the port's text. -/
def IsPortEnd (portEnd : Str) : Prop := portEnd = [] ∨ ∃ port, portEnd = ':' :: port ∧ ':' ∉ port

instance : DecidablePred IsCanonicalName := fun name =>
  inferInstanceAs (Decidable (IsDnsName name ∧ toAsciiLowercase name = name ∧ name.getLast? ≠ some '.'))

instance (spelling name : Str) : Decidable (SpellsName spelling name) :=
  inferInstanceAs (Decidable (_ ∨ _))

/-! ## Rules -/

/-- The host part of a deny rule by name. -/
inductive RuleHost
  | exact (name : Str)
  | under (name : Str)

namespace RuleHost

def name : RuleHost → Str
  | exact n | under n => n

def text : RuleHost → Str
  | exact n => n
  | under n => ['*', '.'] ++ n

/-- The rule is about a name, which has no wildcard in it. -/
def IsByName (host : RuleHost) : Prop := IsDnsName host.name ∧ '*' ∉ host.name

/-- The spelling is the rule's name letter for letter, or ends with it after a dot. -/
def Writes : RuleHost → Str → Prop
  | exact n, spelling => spelling = n
  | under n, spelling => ∃ front, spelling = front ++ '.' :: n

end RuleHost

/-- Where a deny rule is kept: for the whole process or for one package. -/
inductive RulePlace
  | everywhere
  | package (scope : Str)

/-- The rule is one of those `checkInner` reads. -/
def InForce (rule : Capability) (sc : ScopeState) (st : PermissionState) : RulePlace → Prop
  | .everywhere => rule ∈ st.denied
  | .package scope => scope ∈ sc.denyScopes ∧ ∃ set, st.scopedDenied.lookup scope = some set ∧ rule ∈ set

/-- Whenever the rule is in force and denies the first destination, the second one is denied. -/
def DeniesAlike (place : RulePlace) (rule canonical spelling : Str) : Prop :=
  ∀ env stdin sc st, InForce (.network rule) sc st place → hostMatches rule canonical = true →
    (checkInner env stdin sc st (.network spelling)).1 = false

/-! ## The smallest states with one rule -/

/-- Everything is granted and one rule denies. -/
def onlyRuleState (rule : Str) : RulePlace → PermissionState
  | .everywhere => (PermissionState.new.grant (.network ['*'])).deny (.network rule)
  | .package scope =>
      { PermissionState.new.grant (.network ['*']) with
        scopedDenied := ScopedRules.add ∅ scope (.network rule) }

/-- The package of the rule is the one on the stack. -/
def onlyRuleScope : RulePlace → ScopeState
  | .everywhere => ⟨[], none, [], false⟩
  | .package scope => ⟨[], some [scope], [], true⟩

/-!
## Which spellings of a name a deny rule reaches
-/

/-! ## Spellings -/

theorem upper_isAlpha {c : Char} (h : c.val ≥ 'A'.val ∧ c.val ≤ 'Z'.val) :
    c.isAlpha = true ∧ c.toLower.isAlpha = true := by
  have hall : ∀ n < 91, 65 ≤ n → (Char.ofNat n).isAlpha = true ∧ (Char.ofNat n).toLower.isAlpha = true := by decide
  have hc := hall c.toNat (Nat.lt_succ_of_le (UInt32.le_iff_toNat_le.mp h.2)) (UInt32.le_iff_toNat_le.mp h.1)
  rwa [Char.ofNat_toNat] at hc

/-- The characters around hosts and ports are no letters, so case folding neither makes nor hides one. -/
theorem toLower_eq_iff {c d : Char} (hd : d.isAlpha = false) : c.toLower = d ↔ c = d := by
  by_cases hu : c.val ≥ 'A'.val ∧ c.val ≤ 'Z'.val
  · obtain ⟨hc, hlower⟩ := upper_isAlpha hu
    constructor
    · rintro rfl
      rw [hlower] at hd
      cases hd
    · rintro rfl
      rw [hc] at hd
      cases hd
  · have hlower : c.toLower = c := dif_neg hu
    rw [hlower]

theorem mem_of_fold {s t : Str} {d : Char} (hd : d.isAlpha = false) (h : eqIgnoreAsciiCase s t = true) :
    d ∈ s ↔ d ∈ t := by
  have key : ∀ u : Str, d ∈ u ↔ d ∈ toAsciiLowercase u := fun u => by
    simp [toAsciiLowercase, toLower_eq_iff hd]
  rw [key s, key t, of_decide_eq_true h]

theorem SpellsName.isDnsName {s h : Str} (hs : SpellsName s h) (hh : IsDnsName h) : IsDnsName s := by
  obtain ⟨hne, h1, h2, h3⟩ := hh
  have hlen : s ≠ [] := by
    rintro rfl
    rcases hs with hs | hs
    · have := of_decide_eq_true hs
      simp [toAsciiLowercase] at this
      exact hne this
    · have := of_decide_eq_true hs
      simp [toAsciiLowercase] at this
  have hmem : ∀ d : Char, d.isAlpha = false → d ≠ '.' → d ∉ h → d ∉ s := by
    intro d hd hdot hn
    rcases hs with hs | hs
    · rwa [mem_of_fold hd hs]
    · rw [mem_of_fold hd hs]; simp [hn, hdot]
  exact ⟨hlen, hmem _ (by decide) (by decide) h1, hmem _ (by decide) (by decide) h2,
    hmem _ (by decide) (by decide) h3⟩

/-! ## Destinations -/

def portOf : Str → Option Nat
  | ':' :: port => parseUnsigned 10 u16Max port
  | _ => none

theorem splitHostPort_dest {h e : Str} (hh : IsDnsName h) (he : IsPortEnd e) : splitHostPort (h ++ e) = (h, portOf e) := by
  obtain ⟨hne, hc, ho, -⟩ := hh
  rcases he with rfl | ⟨port, rfl, hp⟩
  · have h1 : stripPrefix ['['] h = none := by
      cases h with
      | nil => exact absurd rfl hne
      | cons c cs =>
          simp only [List.mem_cons, not_or] at ho
          simp [Ne.symm ho.1]
    have h2 : h.count ':' = 0 := List.count_eq_zero.mpr hc
    have h3 : rsplitOnce ':' h = none := by
      cases hr : rsplitOnce ':' h with
      | none => rfl
      | some p =>
          obtain ⟨rfl, -⟩ := rsplitOnce_eq_some.mp hr
          simp at hc
    simp [splitHostPort, splitPlainHostPort, h1, h2, h3, portOf]
  · rw [splitHostPort_plain hne hc ho hp, portOf]

/-- Of a destination's host only the text counts, whatever the port. -/
theorem hostMatches_dest {d h e : Str} (hd : d ≠ ['*']) (hh : IsDnsName h) (he : IsPortEnd e) :
    hostMatches d (h ++ e) = true ↔
      ((writtenPort d).any fun w => (parseUnsigned 10 u16Max w).isNone) = false ∧
      ((splitHostPort d).2.any fun wanted => decide (portOf e ≠ some wanted)) = false ∧
      HostCovers (splitHostPort d).1 h := by
  rw [← hostPartMatches_iff]
  simp only [hostMatches, hd, ↓reduceIte, splitHostPort_dest hh he]
  split
  · simp_all
  · split <;> simp_all

/-! ## The host part of a rule -/

namespace RuleHost

variable {host : RuleHost}

/-- A wildcard rule covers its own text too, which ends with its name. -/
theorem covers_iff_writes (hr : host.IsByName) {s : Str} : HostCovers host.text s ↔ host.Writes s := by
  cases host with
  | exact n =>
      constructor
      · rintro (h | ⟨front, suffix, h, -⟩)
        · exact h.symm
        · exact absurd (show '*' ∈ n by simp only [text] at h; simp [h]) hr.2
      · exact fun h => .inl h.symm
  | under n =>
      constructor
      · rintro (h | ⟨front, suffix, h, hs⟩)
        · exact ⟨['*'], h.symm⟩
        · obtain rfl : n = suffix := List.append_cancel_left h
          exact ⟨front, hs⟩
      · rintro ⟨front, hs⟩
        exact .inr ⟨front, n, rfl, hs⟩

end RuleHost

/-! ## Rules in force -/

variable {env : PathEnv} {stdin : Stdin} {sc : ScopeState} {st : PermissionState}

theorem denied_of_inForce {rule dest : Str} {place : RulePlace} (hf : InForce (.network rule) sc st place)
    (hm : hostMatches rule dest = true) : (checkInner env stdin sc st (.network dest)).1 = false := by
  apply checkInner_denied
  cases place with
  | everywhere => exact .inr (.inl ⟨_, hf, hm⟩)
  | package scope =>
      obtain ⟨hs, set, hl, hd⟩ := hf
      exact .inr (.inr ⟨scope, hs, set, hl, _, hd, hm⟩)

theorem inForce_onlyRule (rule : Str) (place : RulePlace) :
    InForce (.network rule) (onlyRuleScope place) (onlyRuleState rule place) place := by
  cases place with
  | everywhere => simp [InForce, onlyRuleState, PermissionState.deny]
  | package scope =>
      refine ⟨?_, {.network rule}, ?_, by simp⟩
      · simp [ScopeState.denyScopes, ScopeState.packageScopes, ScopeState.runningScopes, ScopeState.stackScopes,
          ScopeState.currentScope, onlyRuleScope]
      · simp [onlyRuleState, ScopedRules.lookup_add]

/-- The one rule of the state is all that can deny. -/
theorem allowed_onlyRule {rule dest : Str} {place : RulePlace} (hm : hostMatches rule dest = false) :
    (checkInner env stdin (onlyRuleScope place) (onlyRuleState rule place) (.network dest)).1 = true := by
  rw [checkInner_iff (by cases place <;> rfl)]
  cases place with
  | everywhere =>
      refine ⟨rfl, ?_, ?_, .inl ⟨.network ['*'], ?_, ?_⟩⟩
      · simp [onlyRuleState, PermissionState.deny, PermissionState.grant, PermissionState.new, capsMatch, hm]
      · simp [onlyRuleState, PermissionState.deny, PermissionState.grant, PermissionState.new]
      · simp [onlyRuleState, PermissionState.deny, PermissionState.grant, PermissionState.new]
      · simp [capsMatch, hostMatches]
  | package scope =>
      refine ⟨rfl, ?_, ?_, .inl ⟨.network ['*'], ?_, ?_⟩⟩
      · simp [onlyRuleState, PermissionState.grant, PermissionState.new]
      · intro s _ set hl d hd
        simp only [onlyRuleState, ScopedRules.lookup_add] at hl
        split at hl
        · simp only [Finmap.lookup_empty, Option.getD_none, Option.some.injEq] at hl
          subst hl
          simp only [insert_empty_eq, Finset.mem_singleton] at hd
          subst hd
          simpa [capsMatch] using hm
        · simp at hl
      · simp [onlyRuleState, PermissionState.grant, PermissionState.new]
      · simp [capsMatch, hostMatches]

end ThreeVa.Permissions
