import ThreeVa.Pm.Install

/-!
# The platforms of a package

`pm/src/platform.rs`: the `os` and `cpu` lists of a manifest, compared with what npm takes such a list to mean.
-/

namespace ThreeVa.Settings
open Text Pm.Install

/-- The value that an entry with `!` before it names. -/
def negated (entry : Str) : Option Str := (stripPrefix ['!'] (trim entry)).map trim

def Plain (entry : Str) : Prop := negated entry = none

/-- A plain entry names this value; a blank one names none. -/
def Names (entry value : Str) : Prop := Plain entry ∧ trim entry ≠ [] ∧ trim entry = value

/-- No negated entry names the value, and some plain one does if there is any. -/
def NpmAccepts (entries : List Str) (value : Str) : Prop :=
  (∀ e ∈ entries, negated e ≠ some value) ∧ ((∃ e ∈ entries, Plain e) → ∃ e ∈ entries, Names e value)

/-- A field is decided the way npm decides it. -/
def DecidedLikeNpm (field : Field) (entries : List Str) (platform : Platform) : Prop :=
  fieldAccepts field entries platform = true ↔ NpmAccepts entries (platform.valueFor field)

/-- An entry that excludes the value stands with none that would select it, and one that excludes another value stands
with plain entries only if one of these names the value. -/
structure UnionSuffices (entries : List Str) (value : Str) : Prop where
  excluded : (∃ e ∈ entries, negated e = some value) →
    ∀ e ∈ entries, ¬ Names e value ∧ ∀ other, negated e = some other → other = value
  mixed : (∃ e ∈ entries, ∃ other, negated e = some other ∧ other ≠ value) → (∃ e ∈ entries, Plain e) →
    ∃ e ∈ entries, Names e value

/-! ## Lemmas about the platforms of a package -/

variable {field : Field} {entries : List Str} {platform : Platform} {value : Str}

/-- Away from `libc`, an entry matches that names the value or excludes another one. -/
theorem valueMatches_iff (hfield : field ≠ .libc) (entry : Str) :
    valueMatches entry field platform = true ↔
      Names entry (platform.valueFor field) ∨ ∃ other, negated entry = some other ∧ other ≠ platform.valueFor field := by
  unfold valueMatches Names Plain negated
  cases htrim : trim entry with
  | nil => simp
  | cons c rest =>
      by_cases hc : c = '!'
      · simp [hc, hfield, ne_comm]
      · simp [hc, eq_comm]

theorem fieldAccepts_iff (hfield : field ≠ .libc) :
    fieldAccepts field entries platform = true ↔ entries = [] ∨ (∃ e ∈ entries, Names e (platform.valueFor field)) ∨
      ∃ e ∈ entries, ∃ other, negated e = some other ∧ other ≠ platform.valueFor field := by
  unfold fieldAccepts
  cases entries with
  | nil => simp
  | cons e es =>
      simp only [List.isEmpty_cons, Bool.false_eq_true, if_false, hfield, decide_false, Bool.false_and,
        List.any_eq_true, valueMatches_iff hfield, reduceCtorEq, false_or]
      constructor
      · rintro ⟨x, hx, hmatch⟩
        exact hmatch.imp (fun h => ⟨x, hx, h⟩) fun h => ⟨x, hx, h⟩
      · rintro (⟨x, hx, h⟩ | ⟨x, hx, h⟩)
        · exact ⟨x, hx, .inl h⟩
        · exact ⟨x, hx, .inr h⟩

theorem plain_or_negated (entry : Str) : Plain entry ∨ ∃ other, negated entry = some other := by
  unfold Plain
  cases negated entry with
  | none => exact .inl rfl
  | some other => exact .inr ⟨other, rfl⟩

theorem decidedLikeNpm_iff_of_ne (hfield : field ≠ .libc) :
    DecidedLikeNpm field entries platform ↔ UnionSuffices entries (platform.valueFor field) := by
  unfold DecidedLikeNpm NpmAccepts
  rw [fieldAccepts_iff hfield]
  generalize platform.valueFor field = value
  constructor
  · intro h
    refine ⟨?_, ?_⟩
    · rintro ⟨x, hx, hexcluded⟩ e he
      have hrejected := mt h.mp fun hspec => hspec.1 x hx hexcluded
      push Not at hrejected
      exact ⟨hrejected.2.1 e he, fun other hother => hrejected.2.2 e he other hother⟩
    · rintro hother hplain
      exact (h.mp (.inr (.inr hother))).2 hplain
  · rintro ⟨hexcluded, hmixed⟩
    constructor
    · rintro (rfl | ⟨e, he, hnames⟩ | ⟨e, he, other, hother, hne⟩)
      · exact ⟨by simp, by simp⟩
      · exact ⟨fun x hx hv => (hexcluded ⟨x, hx, hv⟩ e he).1 hnames, fun _ => ⟨e, he, hnames⟩⟩
      · exact ⟨fun x hx hv => hne ((hexcluded ⟨x, hx, hv⟩ e he).2 other hother), hmixed ⟨e, he, other, hother, hne⟩⟩
    · rintro ⟨hfree, hplain⟩
      cases entries with
      | nil => exact .inl rfl
      | cons e es =>
          right
          rcases plain_or_negated e with hp | ⟨other, hother⟩
          · exact .inl (hplain ⟨e, List.mem_cons_self, hp⟩)
          · exact .inr ⟨e, List.mem_cons_self, other, hother, fun heq => hfree e List.mem_cons_self (heq ▸ hother)⟩

end ThreeVa.Settings
