import ThreeVa.Permissions.Capability

/-!
# Deciding a check from the rules, and adding rules
-/

namespace ThreeVa.Permissions
open Text

variable {env : PathEnv} {stdin : Stdin} {sc : ScopeState} {st : PermissionState} {required : Capability}

/-! ## Matching -/

theorem matchesAny_eq_true {set : Finset Capability} :
    matchesAny env set required = true ↔ ∃ c ∈ set, capsMatch env c required = true := by
  simp [matchesAny]

theorem matchesAny_eq_false {set : Finset Capability} :
    matchesAny env set required = false ↔ ∀ c ∈ set, capsMatch env c required = false := by
  simp [matchesAny]

theorem scopeMatches_eq_true {rules : ScopedRules} {scope : Str} :
    scopeMatches env rules required scope = true ↔
      ∃ set, rules.lookup scope = some set ∧ ∃ c ∈ set, capsMatch env c required = true := by
  simp [scopeMatches, matchesAny_eq_true, Option.any_eq_true]

theorem ScopedRules.lookup_add (m : ScopedRules) (scope : Str) (cap : Capability) (s : Str) :
    (m.add scope cap).lookup s =
      if s = scope then some (insert cap ((m.lookup scope).getD ∅)) else m.lookup s := by
  unfold ScopedRules.add
  by_cases h : s = scope
  · subst h; simp
  · simp [h]

theorem scopeMatches_add {rules : ScopedRules} {scope s : Str} {cap : Capability}
    (h : scopeMatches env rules required s = true) : scopeMatches env (rules.add scope cap) required s = true := by
  obtain ⟨set, hl, c, hc, hm⟩ := scopeMatches_eq_true.mp h
  rw [scopeMatches_eq_true, ScopedRules.lookup_add]
  by_cases hs : s = scope
  · subst hs; exact ⟨_, if_pos rfl, c, by simp [hl, hc], hm⟩
  · exact ⟨set, by simp [hs, hl], c, hc, hm⟩

theorem scopeMatches_empty {s : Str} : scopeMatches env ∅ required s = false := by
  simp [scopeMatches]

/-! ## `check_inner` without a prompt -/

theorem allowed_iff : Allowed env sc st required ↔
    st.denyAllCovers required = false ∧ matchesAny env st.denied required = false ∧
      (∀ s ∈ sc.denyScopes, scopeMatches env st.scopedDenied required s = false) ∧
      (matchesAny env st.granted required = true ∨
        sc.packageScopes ≠ [] ∧ ∀ s ∈ sc.packageScopes, scopeMatches env st.scopedGranted required s = true) := by
  have h : ∀ s, scopeMatches env st.scopedDenied required s = false ↔
      ∀ set, st.scopedDenied.lookup s = some set → ∀ d ∈ set, capsMatch env d required = false := by
    intro s
    rw [← Bool.not_eq_true, scopeMatches_eq_true]
    simp
  simp only [Allowed, matchesAny_eq_false, matchesAny_eq_true, scopeMatches_eq_true, h]

/-- Without a prompt, `check_inner` answers yes exactly for what the rules allow. -/
theorem checkInner_iff (hi : st.interactive = false) :
    (checkInner env stdin sc st required).1 = true ↔ Allowed env sc st required := by
  have hempty : st.scopedDenied = ∅ → ∀ s, scopeMatches env st.scopedDenied required s = false := by
    intro h s; rw [h]; exact scopeMatches_empty
  rw [allowed_iff]
  unfold checkInner checkRules
  by_cases h1 : st.denyAllCovers required = true
  · simp [h1]
  by_cases h2 : matchesAny env st.denied required = true
  · simp [h1, h2]
  by_cases h3 : st.scopedDenied ≠ ∅ ∧ sc.denyScopes.any (scopeMatches env st.scopedDenied required) = true
  · obtain ⟨s, hs, hm⟩ := List.any_eq_true.mp h3.2
    simp only [h1, h2, h3, Bool.false_eq_true, ↓reduceIte, false_iff, not_and, ne_eq, not_false_eq_true, and_self]
    intro _ _ hall
    simp [hall s hs] at hm
  have h3' : ∀ s ∈ sc.denyScopes, scopeMatches env st.scopedDenied required s = false := by
    intro s hs
    by_cases he : st.scopedDenied = ∅
    · exact hempty he s
    · by_contra hm
      exact h3 ⟨he, List.any_eq_true.mpr ⟨s, hs, by simpa using hm⟩⟩
  by_cases h4 : matchesAny env st.granted required = true
  · simp only [h1, h2, h3, h4, ↓reduceIte, Bool.false_eq_true]; simpa [h1, h2] using h3'
  by_cases h5 : sc.packageScopes ≠ [] ∧ sc.packageScopes.all (scopeMatches env st.scopedGranted required) = true
  · simp only [h1, h2, h3, h4, h5, ↓reduceIte, Bool.false_eq_true, ne_eq, not_false_eq_true, and_self]
    simpa [h1, h2, h5.1] using ⟨h3', List.all_eq_true.mp h5.2⟩
  · simp only [h1, h2, h3, h4, h5, ↓reduceIte, hi, Bool.false_eq_true, false_or, false_iff, not_and]
    intro _ _ _ hne hall
    exact h5 ⟨hne, List.all_eq_true.mpr hall⟩

theorem checkInner_denied {host : Str} (h : BindDenied env sc st host) :
    (checkInner env stdin sc st (.network host)).1 = false := by
  unfold checkInner checkRules
  by_cases h1 : st.denyAllCovers (.network host) = true
  · simp [h1]
  by_cases h2 : matchesAny env st.denied (.network host) = true
  · simp [h1, h2]
  rcases h with h | h | ⟨s, hs, hset⟩
  · exact absurd h h1
  · exact absurd (matchesAny_eq_true.mpr h) h2
  · have hm : scopeMatches env st.scopedDenied (.network host) s = true := scopeMatches_eq_true.mpr hset
    have hne : st.scopedDenied ≠ ∅ := by rintro he; rw [he, scopeMatches_empty] at hm; cases hm
    have hany : sc.denyScopes.any (scopeMatches env st.scopedDenied (.network host)) = true :=
      List.any_eq_true.mpr ⟨s, hs, hm⟩
    simp [h1, h2, hne, hany]

/-! ## Adding rules -/

namespace Process

theorem ext' {p q : Process} (hp : p.perms = q.perms) (hs : p.scope = q.scope) : p = q := by
  cases p; cases q; simp_all

@[simp] theorem apply_interactive (p : Process) (c : RuleCall) :
    (p.apply c).perms.interactive = p.perms.interactive := by
  cases c <;> simp only [apply, grant, deny, grantScoped, denyScoped] <;> (try split) <;> rfl

end Process

theorem ScopedRules.add_comm (m : ScopedRules) (s t : Str) (a b : Capability) :
    (m.add s a).add t b = (m.add t b).add s a := by
  apply Finmap.ext_lookup fun x => ?_
  simp only [ScopedRules.lookup_add]
  by_cases hst : s = t
  · subst hst
    by_cases hx : x = s <;> simp [hx, Finset.insert_comm]
  · by_cases hx : x = t
    · subst hx; simp [Ne.symm hst]
    · by_cases hy : x = s <;> simp [hx, hy, hst]

theorem Process.apply_comm (p : Process) (c d : RuleCall) : (p.apply c).apply d = (p.apply d).apply c := by
  apply Process.ext' ?_ ?_ <;> cases c <;> cases d <;>
    simp only [Process.apply, Process.grant, Process.deny, Process.grantScoped, Process.denyScoped,
      PermissionState.grant, PermissionState.deny] <;> (repeat' split) <;>
    simp [Finset.insert_comm, ScopedRules.add_comm, ScopeState.markScopedRulesActive]

theorem Process.applyAll_perm (p : Process) {calls calls' : List RuleCall} (h : calls.Perm calls') :
    p.applyAll calls = p.applyAll calls' :=
  h.foldl_eq' (fun c _ d _ q => q.apply_comm c d) p

theorem Process.scoped_empty {p : Process} (h : p.scope.rulesActive = false) :
    p.perms.scopedGranted = ∅ ∧ p.perms.scopedDenied = ∅ := by
  constructor <;> by_contra hne
  · simpa [h] using p.active_of_scoped (Or.inl hne)
  · simpa [h] using p.active_of_scoped (Or.inr hne)

theorem ScopeState.mark_of_active {sc : ScopeState} (h : sc.rulesActive = true) :
    sc.markScopedRulesActive = sc := by
  cases sc; simp_all [ScopeState.markScopedRulesActive]

theorem allowed_scope_irrelevant {sc' : ScopeState} (hg : st.scopedGranted = ∅) (hd : st.scopedDenied = ∅)
    (h : Allowed env sc st required) : Allowed env sc' st required := by
  rw [allowed_iff] at h ⊢
  obtain ⟨h1, h2, -, h4⟩ := h
  refine ⟨h1, h2, fun s _ => by rw [hd]; exact scopeMatches_empty, ?_⟩
  rcases h4 with h4 | ⟨hne, hall⟩
  · exact Or.inl h4
  · obtain ⟨s, hs⟩ := List.exists_mem_of_ne_nil _ hne
    have := hall s hs
    rw [hg, scopeMatches_empty] at this
    cases this

theorem allowed_grant {cap : Capability} (h : Allowed env sc st required) :
    Allowed env sc (st.grant cap) required := by
  obtain ⟨h1, h2, h3, h4⟩ := h
  refine ⟨h1, h2, h3, h4.imp ?_ id⟩
  rintro ⟨g, hg, hm⟩
  exact ⟨g, Finset.mem_insert_of_mem hg, hm⟩

theorem allowed_of_deny {cap : Capability} (h : Allowed env sc (st.deny cap) required) :
    Allowed env sc st required :=
  ⟨h.1, fun d hd => h.2.1 d (Finset.mem_insert_of_mem hd), h.2.2.1, h.2.2.2⟩

theorem allowed_addScopedGrant {scope : Str} {cap : Capability} (h : Allowed env sc st required) :
    Allowed env sc { st with scopedGranted := st.scopedGranted.add scope cap } required := by
  rw [allowed_iff] at h ⊢
  obtain ⟨h1, h2, h3, h4⟩ := h
  exact ⟨h1, h2, h3, h4.imp id fun h => ⟨h.1, fun s hs => scopeMatches_add (h.2 s hs)⟩⟩

theorem allowed_of_addScopedDeny {scope : Str} {cap : Capability}
    (h : Allowed env sc { st with scopedDenied := st.scopedDenied.add scope cap } required) :
    Allowed env sc st required := by
  rw [allowed_iff] at h ⊢
  obtain ⟨h1, h2, h3, h4⟩ := h
  refine ⟨h1, h2, fun s hs => ?_, h4⟩
  by_contra hm
  have := h3 s hs
  rw [scopeMatches_add (by simpa using hm)] at this
  cases this

theorem Process.allowed_apply_grant {p : Process} {c : RuleCall} (hc : c.isGrant = true)
    (h : Allowed env p.scope p.perms required) : Allowed env (p.apply c).scope (p.apply c).perms required := by
  cases c with
  | grant cap => exact allowed_grant h
  | deny cap => cases hc
  | grantScoped scope cap =>
      simp only [Process.apply, Process.grantScoped]
      split
      · exact allowed_grant h
      · cases ha : p.scope.rulesActive with
        | true => simpa only [ScopeState.mark_of_active ha] using allowed_addScopedGrant h
        | false =>
            obtain ⟨hg, hd⟩ := p.scoped_empty ha
            exact allowed_addScopedGrant (allowed_scope_irrelevant hg hd h)
  | denyScoped scope cap => cases hc

theorem Process.allowed_of_apply_deny {p : Process} {c : RuleCall} (hc : c.isGrant = false)
    (h : Allowed env (p.apply c).scope (p.apply c).perms required) : Allowed env p.scope p.perms required := by
  cases c with
  | grant cap => cases hc
  | deny cap => exact allowed_of_deny h
  | grantScoped scope cap => cases hc
  | denyScoped scope cap =>
      simp only [Process.apply, Process.denyScoped] at h
      split at h
      · exact allowed_of_deny h
      · have h' := allowed_of_addScopedDeny h
        cases ha : p.scope.rulesActive with
        | true => simpa only [ScopeState.mark_of_active ha] using h'
        | false =>
            obtain ⟨hg, hd⟩ := p.scoped_empty ha
            exact allowed_scope_irrelevant hg hd h'

end ThreeVa.Permissions
