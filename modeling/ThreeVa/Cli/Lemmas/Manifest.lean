import ThreeVa.Cli.Manifest
import ThreeVa.Permissions.Lemmas.Check

/-!
# What an entry of a manifest adds
-/

namespace ThreeVa.Cli
open Text Permissions

/-! ## The rules of a list of calls -/

section Calls

variable {p : Process} {calls : List RuleCall} {cap : Capability} {scope : Str}

theorem scopedGrants_add {st st' : PermissionState} {name : Str} {cap' : Capability}
    (h : st'.scopedGranted = st.scopedGranted.add name cap') :
    cap ∈ scopedGrants st' scope ↔ cap ∈ scopedGrants st scope ∨ (scope = name ∧ cap = cap') := by
  rw [scopedGrants, h, ScopedRules.lookup_add]
  by_cases hs : scope = name
  · subst hs
    simp [scopedGrants, or_comm]
  · simp [scopedGrants, hs]

theorem scopedDenies_add {st st' : PermissionState} {name : Str} {cap' : Capability}
    (h : st'.scopedDenied = st.scopedDenied.add name cap') :
    cap ∈ scopedDenies st' scope ↔ cap ∈ scopedDenies st scope ∨ (scope = name ∧ cap = cap') := by
  rw [scopedDenies, h, ScopedRules.lookup_add]
  by_cases hs : scope = name
  · subst hs
    simp [scopedDenies, or_comm]
  · simp [scopedDenies, hs]

theorem mem_granted_applyAll : cap ∈ (p.applyAll calls).perms.granted ↔
    cap ∈ p.perms.granted ∨ .grant cap ∈ calls ∨ .grantScoped rootScope cap ∈ calls := by
  induction calls generalizing p with
  | nil => simp [Process.applyAll]
  | cons call calls ih =>
      rw [show p.applyAll (call :: calls) = (p.apply call).applyAll calls from rfl, ih]
      cases call with
      | grant c => simp [Process.apply, Process.grant, PermissionState.grant]; tauto
      | deny c => simp [Process.apply, Process.deny, PermissionState.deny]
      | grantScoped name c =>
          by_cases hname : name = rootScope
          · simp [Process.apply, Process.grantScoped, hname, Process.grant, PermissionState.grant]; tauto
          · simp [Process.apply, Process.grantScoped, hname, Ne.symm hname]
      | denyScoped name c =>
          by_cases hname : name = rootScope
          · simp [Process.apply, Process.denyScoped, hname, Process.deny, PermissionState.deny]
          · simp [Process.apply, Process.denyScoped, hname]

theorem mem_denied_applyAll : cap ∈ (p.applyAll calls).perms.denied ↔
    cap ∈ p.perms.denied ∨ .deny cap ∈ calls ∨ .denyScoped rootScope cap ∈ calls := by
  induction calls generalizing p with
  | nil => simp [Process.applyAll]
  | cons call calls ih =>
      rw [show p.applyAll (call :: calls) = (p.apply call).applyAll calls from rfl, ih]
      cases call with
      | grant c => simp [Process.apply, Process.grant, PermissionState.grant]
      | deny c => simp [Process.apply, Process.deny, PermissionState.deny]; tauto
      | grantScoped name c =>
          by_cases hname : name = rootScope
          · simp [Process.apply, Process.grantScoped, hname, Process.grant, PermissionState.grant]
          · simp [Process.apply, Process.grantScoped, hname]
      | denyScoped name c =>
          by_cases hname : name = rootScope
          · simp [Process.apply, Process.denyScoped, hname, Process.deny, PermissionState.deny]; tauto
          · simp [Process.apply, Process.denyScoped, hname, Ne.symm hname]

theorem mem_scopedGrants_applyAll : cap ∈ scopedGrants (p.applyAll calls).perms scope ↔
    cap ∈ scopedGrants p.perms scope ∨ scope ≠ rootScope ∧ .grantScoped scope cap ∈ calls := by
  induction calls generalizing p with
  | nil => simp [Process.applyAll]
  | cons call calls ih =>
      rw [show p.applyAll (call :: calls) = (p.apply call).applyAll calls from rfl, ih]
      cases call with
      | grant c => simp [Process.apply, Process.grant, PermissionState.grant, scopedGrants]
      | deny c => simp [Process.apply, Process.deny, PermissionState.deny, scopedGrants]
      | grantScoped name c =>
          by_cases hname : name = rootScope
          · simp only [Process.apply, Process.grantScoped, hname, ↓reduceIte, Process.grant, PermissionState.grant,
              scopedGrants, List.mem_cons, RuleCall.grantScoped.injEq]
            tauto
          · have hadd : cap ∈ scopedGrants (p.apply (.grantScoped name c)).perms scope ↔
                cap ∈ scopedGrants p.perms scope ∨ (scope = name ∧ cap = c) :=
              scopedGrants_add (by simp [Process.apply, Process.grantScoped, hname])
            rw [hadd]
            simp only [List.mem_cons, RuleCall.grantScoped.injEq]
            constructor
            · rintro ((h | ⟨rfl, rfl⟩) | h)
              · exact .inl h
              · exact .inr ⟨hname, .inl ⟨rfl, rfl⟩⟩
              · exact .inr ⟨h.1, .inr h.2⟩
            · tauto
      | denyScoped name c =>
          by_cases hname : name = rootScope
          · simp [Process.apply, Process.denyScoped, hname, Process.deny, PermissionState.deny, scopedGrants]
          · simp [Process.apply, Process.denyScoped, hname, scopedGrants]

theorem mem_scopedDenies_applyAll : cap ∈ scopedDenies (p.applyAll calls).perms scope ↔
    cap ∈ scopedDenies p.perms scope ∨ scope ≠ rootScope ∧ .denyScoped scope cap ∈ calls := by
  induction calls generalizing p with
  | nil => simp [Process.applyAll]
  | cons call calls ih =>
      rw [show p.applyAll (call :: calls) = (p.apply call).applyAll calls from rfl, ih]
      cases call with
      | grant c => simp [Process.apply, Process.grant, PermissionState.grant, scopedDenies]
      | deny c => simp [Process.apply, Process.deny, PermissionState.deny, scopedDenies]
      | grantScoped name c =>
          by_cases hname : name = rootScope
          · simp [Process.apply, Process.grantScoped, hname, Process.grant, PermissionState.grant, scopedDenies]
          · simp [Process.apply, Process.grantScoped, hname, scopedDenies]
      | denyScoped name c =>
          by_cases hname : name = rootScope
          · simp only [Process.apply, Process.denyScoped, hname, ↓reduceIte, Process.deny, PermissionState.deny,
              scopedDenies, List.mem_cons, RuleCall.denyScoped.injEq]
            tauto
          · have hadd : cap ∈ scopedDenies (p.apply (.denyScoped name c)).perms scope ↔
                cap ∈ scopedDenies p.perms scope ∨ (scope = name ∧ cap = c) :=
              scopedDenies_add (by simp [Process.apply, Process.denyScoped, hname])
            rw [hadd]
            simp only [List.mem_cons, RuleCall.denyScoped.injEq]
            constructor
            · rintro ((h | ⟨rfl, rfl⟩) | h)
              · exact .inl h
              · exact .inr ⟨hname, .inl ⟨rfl, rfl⟩⟩
              · exact .inr ⟨h.1, .inr h.2⟩
            · tauto

theorem applyAll_interactive : (p.applyAll calls).perms.interactive = p.perms.interactive := by
  induction calls generalizing p with
  | nil => rfl
  | cons call calls ih => exact ih.trans (Process.apply_interactive p call)

theorem applyAll_denyAllCovers : (p.applyAll calls).perms.denyAllCovers cap = p.perms.denyAllCovers cap := by
  induction calls generalizing p with
  | nil => rfl
  | cons call calls ih =>
      refine ih.trans ?_
      cases call with
      | grant c => cases cap <;> rfl
      | deny c => cases cap <;> rfl
      | grantScoped name c =>
          simp only [Process.apply, Process.grantScoped]
          split <;> cases cap <;> rfl
      | denyScoped name c =>
          simp only [Process.apply, Process.denyScoped]
          split <;> cases cap <;> rfl

end Calls

/-! ## The calls of a run -/

theorem Kind.mem_all (k : Kind) : k ∈ Kind.all := by cases k <;> decide

section Build

variable {env : PathEnv} {flags : Flags} {pkg : ThreeVaPermissions} {cap : Capability} {scope : Str}

theorem mem_ite_singleton {α : Type} {b : Bool} {x a : α} : x ∈ (if b then [a] else []) ↔ x = a ∧ b = true := by
  cases b <;> simp

theorem grant_mem_grantCalls : .grant cap ∈ grantCalls env flags pkg ↔
    (∃ k : Kind, cap ∈ k.listGrants env (mergeOptSlice (flags.allow k) (pkg.flat.allow k))) ∨
      cap = .spawnProcess ∧ (flags.allowChildProcess || pkg.flat.allowChildProcess) = true := by
  simp only [grantCalls, List.mem_append, List.mem_flatMap, List.mem_map, RuleCall.grant.injEq, exists_eq_right,
    mem_ite_singleton]
  constructor
  · rintro ((⟨k, -, h⟩ | h) | h)
    · exact .inl ⟨k, h⟩
    · exact .inr h
    · exact .inl ⟨.ffi, h⟩
  · rintro (⟨k, h⟩ | h)
    · cases k with
      | ffi => exact .inr h
      | read => exact .inl (.inl ⟨.read, by simp, h⟩)
      | write => exact .inl (.inl ⟨.write, by simp, h⟩)
      | net => exact .inl (.inl ⟨.net, by simp, h⟩)
      | env => exact .inl (.inl ⟨.env, by simp, h⟩)
    · exact .inl (.inr h)

theorem mem_grantCalls {call : RuleCall} (h : call ∈ grantCalls env flags pkg) : ∃ cap, call = .grant cap := by
  simp only [grantCalls, List.mem_append, List.mem_flatMap, List.mem_map, mem_ite_singleton] at h
  rcases h with (⟨k, -, cap, -, rfl⟩ | ⟨rfl, -⟩) | ⟨cap, -, rfl⟩ <;> exact ⟨_, rfl⟩

theorem deny_mem_denyCalls : .deny cap ∈ denyCalls pkg ↔
    (∃ k : Kind, ∃ text ∈ pkg.flat.deny k, k.rule text = cap) ∨
      cap = .spawnProcess ∧ pkg.flat.denyChildProcess = true := by
  simp only [denyCalls, List.mem_append, List.mem_flatMap, List.mem_map, RuleCall.deny.injEq, Kind.mem_all, true_and,
    mem_ite_singleton]

theorem mem_denyCalls {call : RuleCall} (h : call ∈ denyCalls pkg) : ∃ cap, call = .deny cap := by
  simp only [denyCalls, List.mem_append, List.mem_flatMap, List.mem_map, mem_ite_singleton] at h
  rcases h with ⟨k, -, text, -, rfl⟩ | ⟨rfl, -⟩ <;> exact ⟨_, rfl⟩

theorem mem_scopedCalls {call : RuleCall} {s : Section} (h : call ∈ scopedCalls (scope, s)) :
    ∃ cap, call = .grantScoped scope cap ∨ call = .denyScoped scope cap := by
  simp only [scopedCalls, List.mem_append, List.mem_flatMap, List.mem_map, mem_ite_singleton] at h
  rcases h with (((⟨k, -, text, -, rfl⟩ | ⟨rfl, -⟩) | ⟨text, -, rfl⟩) | ⟨k, -, text, -, rfl⟩) | ⟨rfl, -⟩
  · exact ⟨_, .inl rfl⟩
  · exact ⟨_, .inl rfl⟩
  · exact ⟨_, .inl rfl⟩
  · exact ⟨_, .inr rfl⟩
  · exact ⟨_, .inr rfl⟩

theorem grantScoped_mem_scopedCalls {s : Section} : .grantScoped scope cap ∈ scopedCalls (scope, s) ↔
    (∃ k : Kind, ∃ text ∈ s.allow k, k.rule text = cap) ∨ cap = .spawnProcess ∧ s.allowChildProcess = true := by
  simp only [scopedCalls, List.mem_append, List.mem_flatMap, List.mem_map, mem_ite_singleton,
    RuleCall.grantScoped.injEq, true_and, reduceCtorEq, and_false, exists_false, or_false, false_and]
  constructor
  · rintro ((⟨k, -, h⟩ | h) | h)
    · exact .inl ⟨k, h⟩
    · exact .inr h
    · exact .inl ⟨.ffi, h⟩
  · rintro (⟨k, h⟩ | h)
    · cases k with
      | ffi => exact .inr h
      | read => exact .inl (.inl ⟨.read, by simp, h⟩)
      | write => exact .inl (.inl ⟨.write, by simp, h⟩)
      | net => exact .inl (.inl ⟨.net, by simp, h⟩)
      | env => exact .inl (.inl ⟨.env, by simp, h⟩)
    · exact .inl (.inr h)

theorem denyScoped_mem_scopedCalls {s : Section} : .denyScoped scope cap ∈ scopedCalls (scope, s) ↔
    (∃ k : Kind, ∃ text ∈ s.deny k, k.rule text = cap) ∨ cap = .spawnProcess ∧ s.denyChildProcess = true := by
  simp only [scopedCalls, List.mem_append, List.mem_flatMap, List.mem_map, mem_ite_singleton,
    RuleCall.denyScoped.injEq, true_and, reduceCtorEq, and_false, exists_false, or_false, false_and, false_or,
    Kind.mem_all]

theorem grant_mem_buildCalls : .grant cap ∈ buildCalls env flags pkg ↔ .grant cap ∈ grantCalls env flags pkg := by
  simp only [buildCalls, List.mem_append, List.mem_flatMap]
  refine ⟨?_, fun h => .inl (.inl h)⟩
  rintro ((h | h) | ⟨⟨scope, s⟩, -, h⟩)
  · exact h
  · obtain ⟨c, hc⟩ := mem_denyCalls h
    cases hc
  · obtain ⟨c, hc | hc⟩ := mem_scopedCalls h <;> cases hc

theorem deny_mem_buildCalls : .deny cap ∈ buildCalls env flags pkg ↔ .deny cap ∈ denyCalls pkg := by
  simp only [buildCalls, List.mem_append, List.mem_flatMap]
  refine ⟨?_, fun h => .inl (.inr h)⟩
  rintro ((h | h) | ⟨⟨scope, s⟩, -, h⟩)
  · obtain ⟨c, hc⟩ := mem_grantCalls h
    cases hc
  · exact h
  · obtain ⟨c, hc | hc⟩ := mem_scopedCalls h <;> cases hc

theorem grantScoped_mem_buildCalls : .grantScoped scope cap ∈ buildCalls env flags pkg ↔
    ∃ s, (scope, s) ∈ pkg.scopes ∧ .grantScoped scope cap ∈ scopedCalls (scope, s) := by
  simp only [buildCalls, List.mem_append, List.mem_flatMap]
  constructor
  · rintro ((h | h) | ⟨⟨name, s⟩, hs, h⟩)
    · obtain ⟨c, hc⟩ := mem_grantCalls h
      cases hc
    · obtain ⟨c, hc⟩ := mem_denyCalls h
      cases hc
    · obtain ⟨c, hc | hc⟩ := mem_scopedCalls h
      · cases hc
        exact ⟨s, hs, h⟩
      · cases hc
  · rintro ⟨s, hs, h⟩
    exact .inr ⟨(scope, s), hs, h⟩

theorem denyScoped_mem_buildCalls : .denyScoped scope cap ∈ buildCalls env flags pkg ↔
    ∃ s, (scope, s) ∈ pkg.scopes ∧ .denyScoped scope cap ∈ scopedCalls (scope, s) := by
  simp only [buildCalls, List.mem_append, List.mem_flatMap]
  constructor
  · rintro ((h | h) | ⟨⟨name, s⟩, hs, h⟩)
    · obtain ⟨c, hc⟩ := mem_grantCalls h
      cases hc
    · obtain ⟨c, hc⟩ := mem_denyCalls h
      cases hc
    · obtain ⟨c, hc | hc⟩ := mem_scopedCalls h
      · cases hc
      · cases hc
        exact ⟨s, hs, h⟩
  · rintro ⟨s, hs, h⟩
    exact .inr ⟨(scope, s), hs, h⟩

end Build

/-! ## The rules of a run -/

section Run

variable {env : PathEnv} {flags : Flags} {place : Place} {m : Manifest} {cap : Capability} {scope : Str}

/-- The entries of the app that allow. -/
def rootAllow (place : Place) (m : Manifest) (k : Kind) : List Str := (readPackageJsonPermissions place m).flat.allow k

theorem rootAllow_append (place : Place) (m m' : Manifest) (k : Kind) :
    rootAllow place (m ++ m') k = rootAllow place m k ++ rootAllow place m' k := by
  simp [rootAllow, readPackageJsonPermissions]

theorem rootAllow_cons_root (place : Place) (s : Section) (m : Manifest) (k : Kind) :
    rootAllow place ((rootScope, s) :: m) k = (s.allow k).map (place.expand k) ++ rootAllow place m k := by
  simp [rootAllow, readPackageJsonPermissions, Section.expand]

theorem rootAllow_cons {name : Str} (hname : name ≠ rootScope) (place : Place) (s : Section) (m : Manifest) (k : Kind) :
    rootAllow place ((name, s) :: m) k = rootAllow place m k := by
  simp [rootAllow, readPackageJsonPermissions, hname]

theorem flat_allowChildProcess (place : Place) (m : Manifest) :
    (readPackageJsonPermissions place m).flat.allowChildProcess =
      m.any fun scope => decide (scope.1 = rootScope) && scope.2.allowChildProcess := by
  rw [Bool.eq_iff_iff]
  simp only [readPackageJsonPermissions, List.any_map, List.any_filter, List.any_eq_true, Function.comp_apply]
  rfl

theorem mem_scopes {s : Section} : (scope, s) ∈ (readPackageJsonPermissions place m).scopes ↔
    scope ≠ rootScope ∧ ∃ raw, (scope, raw) ∈ m ∧ raw.expand place = s := by
  simp only [readPackageJsonPermissions, List.mem_filter, List.mem_map, Prod.mk.injEq, Prod.exists, ne_eq,
    decide_not, Bool.not_eq_true', decide_eq_false_iff_not]
  constructor
  · rintro ⟨⟨name, raw, hm, rfl, rfl⟩, hne⟩
    exact ⟨hne, raw, hm, rfl⟩
  · rintro ⟨hne, raw, hm, rfl⟩
    exact ⟨⟨scope, raw, hm, rfl, rfl⟩, hne⟩

theorem rootScope_not_mem {s : Section} : (rootScope, s) ∉ (readPackageJsonPermissions place m).scopes :=
  fun h => (mem_scopes.mp h).1 rfl

theorem mem_granted_run : cap ∈ (runPermissions env flags place m).granted ↔
    (∃ k : Kind, cap ∈ k.listGrants env (mergeOptSlice (flags.allow k) (rootAllow place m k))) ∨
      cap = .spawnProcess ∧
        (flags.allowChildProcess || (readPackageJsonPermissions place m).flat.allowChildProcess) = true := by
  rw [runPermissions, buildPermissions, mem_granted_applyAll, grant_mem_buildCalls, grant_mem_grantCalls,
    grantScoped_mem_buildCalls]
  constructor
  · rintro (h | h | ⟨s, hs, -⟩)
    · cases h
    · exact h
    · exact absurd hs rootScope_not_mem
  · exact fun h => .inr (.inl h)

theorem mem_denied_run : cap ∈ (runPermissions env flags place m).denied ↔
    .deny cap ∈ denyCalls (readPackageJsonPermissions place m) := by
  rw [runPermissions, buildPermissions, mem_denied_applyAll, deny_mem_buildCalls, denyScoped_mem_buildCalls]
  constructor
  · rintro (h | h | ⟨s, hs, -⟩)
    · cases h
    · exact h
    · exact absurd hs rootScope_not_mem
  · exact fun h => .inr (.inl h)

theorem mem_scopedGrants_run : cap ∈ scopedGrants (runPermissions env flags place m) scope ↔
    scope ≠ rootScope ∧ ∃ s, (scope, s) ∈ m ∧
      ((∃ k : Kind, ∃ raw ∈ s.allow k, k.rule (place.expand k raw) = cap) ∨
        cap = .spawnProcess ∧ s.allowChildProcess = true) := by
  rw [runPermissions, buildPermissions, mem_scopedGrants_applyAll, grantScoped_mem_buildCalls]
  have hempty : cap ∉ scopedGrants (bareProcess flags.interactive).perms scope := Finset.notMem_empty _
  simp only [hempty, false_or, mem_scopes, grantScoped_mem_scopedCalls]
  constructor
  · rintro ⟨hne, s, ⟨-, raw, hm, rfl⟩, h⟩
    refine ⟨hne, raw, hm, h.imp_left ?_⟩
    rintro ⟨k, text, htext, rfl⟩
    obtain ⟨entry, hentry, rfl⟩ := List.mem_map.mp htext
    exact ⟨k, entry, hentry, rfl⟩
  · rintro ⟨hne, s, hm, h⟩
    refine ⟨hne, s.expand place, ⟨hne, s, hm, rfl⟩, h.imp_left ?_⟩
    rintro ⟨k, raw, hraw, rfl⟩
    exact ⟨k, _, List.mem_map.mpr ⟨raw, hraw, rfl⟩, rfl⟩

/-- A deny entry is a rule of the state, under its scope. -/
theorem rule_mem_denies {name : Str} {s : Section} {k : Kind} {raw : Str} (hs : (name, s) ∈ m) (hraw : raw ∈ s.deny k) :
    k.rule (place.expand k raw) ∈
      if name = rootScope then (runPermissions env flags place m).denied
      else scopedDenies (runPermissions env flags place m) name := by
  split
  · rename_i hroot
    subst hroot
    rw [mem_denied_run, deny_mem_denyCalls]
    refine .inl ⟨k, place.expand k raw, ?_, rfl⟩
    simp only [readPackageJsonPermissions, List.mem_flatMap, List.mem_map, List.mem_filter]
    exact ⟨s.expand place, ⟨(rootScope, s.expand place), ⟨⟨(rootScope, s), hs, rfl⟩, by simp⟩, rfl⟩,
      List.mem_map.mpr ⟨raw, hraw, rfl⟩⟩
  · rename_i hne
    rw [runPermissions, buildPermissions, mem_scopedDenies_applyAll, denyScoped_mem_buildCalls]
    refine .inr ⟨hne, s.expand place, mem_scopes.mpr ⟨hne, s, hs, rfl⟩, denyScoped_mem_scopedCalls.mpr (.inl ?_)⟩
    exact ⟨k, _, List.mem_map.mpr ⟨raw, hraw, rfl⟩, rfl⟩

end Run

/-! ## Allow entries -/

section Allow

variable {env : PathEnv} {flags : Flags} {place : Place} {k : Kind} {raw : Str} {cap : Capability}

theorem mem_listGrants {texts : List Str} : cap ∈ k.listGrants env (some texts) ↔
    if texts = [] ∨ [] ∈ texts then cap = k.wildcard else ∃ text ∈ texts, cap ∈ k.grants env text := by
  rw [Kind.listGrants]
  split <;> simp

/-- One more text in a list adds what it stands for. -/
theorem mem_listGrants_insert {left right : List Str} {text : Str}
    (h : cap ∈ k.listGrants env (some (left ++ text :: right))) :
    (left ++ right ≠ [] ∧ cap ∈ k.listGrants env (some (left ++ right))) ∨ text = [] ∧ cap = k.wildcard ∨
      cap ∈ k.grants env text := by
  have hmem : ∀ t, t ∈ left ++ text :: right ↔ t = text ∨ t ∈ left ++ right := by
    intro t
    simp only [List.mem_append, List.mem_cons]
    tauto
  rw [mem_listGrants] at h
  split at h
  · rename_i hwild
    rcases hwild with hnil | hempty
    · simp at hnil
    · rcases (hmem []).mp hempty with htext | hrest
      · exact .inr (.inl ⟨htext.symm, h⟩)
      · refine .inl ⟨List.ne_nil_of_mem hrest, mem_listGrants.mpr ?_⟩
        rw [if_pos (.inr hrest)]
        exact h
  · rename_i hwild
    obtain ⟨t, ht, hcap⟩ := h
    rcases (hmem t).mp ht with rfl | hrest
    · exact .inr (.inr hcap)
    · have hne := List.ne_nil_of_mem hrest
      have hnot : ¬ (left ++ right = [] ∨ [] ∈ left ++ right) := by
        rintro (h | h)
        · exact hne h
        · exact hwild (.inr ((hmem []).mpr (.inr h)))
      refine .inl ⟨hne, mem_listGrants.mpr ?_⟩
      rw [if_neg hnot]
      exact ⟨t, hrest, hcap⟩

theorem mem_listGrants_merge_insert {cli : Option (List Str)} {left right : List Str} {text : Str}
    (h : cap ∈ k.listGrants env (mergeOptSlice cli (left ++ text :: right))) :
    cap ∈ k.listGrants env (mergeOptSlice cli (left ++ right)) ∨ text = [] ∧ cap = k.wildcard ∨
      cap ∈ k.grants env text := by
  cases cli with
  | none =>
      rw [mergeOptSlice, if_neg (by simp)] at h
      refine (mem_listGrants_insert h).imp_left fun ⟨hne, hcap⟩ => ?_
      rwa [mergeOptSlice, if_neg hne]
  | some slice =>
      by_cases hwild : slice = [] ∨ [] ∈ slice
      · rw [mergeOptSlice, if_pos hwild] at h ⊢
        exact .inl h
      · rw [mergeOptSlice, if_neg hwild, ← List.append_assoc] at h
        rw [mergeOptSlice, if_neg hwild, ← List.append_assoc]
        exact (mem_listGrants_insert h).imp_left And.right

theorem Kind.grants_ne_nil (env : PathEnv) (text : Str) (k : Kind) : k.grants env text ≠ [] := by
  cases k <;> simp [Kind.grants, Kind.pathGrants]

/-- A list with one text grants something. -/
theorem exists_mem_listGrants (env : PathEnv) (k : Kind) (text : Str) : ∃ cap, cap ∈ k.listGrants env (some [text]) := by
  by_cases htext : text = []
  · exact ⟨k.wildcard, mem_listGrants.mpr (by simp [htext])⟩
  · obtain ⟨cap, hcap⟩ := List.exists_mem_of_ne_nil _ (Kind.grants_ne_nil env text k)
    refine ⟨cap, mem_listGrants.mpr ?_⟩
    rw [if_neg (by simp [Ne.symm htext])]
    exact ⟨text, List.mem_cons_self, hcap⟩

/-- The section with nothing but one list. -/
def Section.empty : Section := ⟨fun _ => [], fun _ => [], false, false⟩

def Flags.none : Flags := ⟨fun _ => Option.none, false, false⟩

theorem settled_of_allowsNamed (h : AllowsNamed env place k raw) : Settled place.vars raw := by
  obtain ⟨cap, hcap⟩ := exists_mem_listGrants env k (place.expand k raw)
  let s : Section := { Section.empty with allow := Function.update (fun _ => []) k [raw] }
  have hs : s.allow k = [] ++ raw :: [] := by simp [s]
  have hgranted := (h .none [] [] rootScope s [] [] hs).1 cap
  have hentry : cap ∈ (runPermissions env .none place ([] ++ (rootScope, s) :: [])).granted := by
    refine mem_granted_run.mpr (.inl ⟨k, ?_⟩)
    rw [List.nil_append, rootAllow_cons_root, hs]
    exact hcap
  rcases hgranted hentry with hwithout | hnames
  · rcases mem_granted_run.mp hwithout with ⟨k', hk'⟩ | ⟨-, hchild⟩
    · have hnone : rootAllow place ([] ++ (rootScope, { s with allow := Function.update s.allow k ([] ++ []) }) :: [])
          k' = [] := by
        rw [List.nil_append, rootAllow_cons_root]
        by_cases hk : k' = k
        · subst hk
          simp [rootAllow, readPackageJsonPermissions]
        · simp [s, hk, rootAllow, readPackageJsonPermissions]
      rw [hnone] at hk'
      cases hk'
    · simp [Flags.none, readPackageJsonPermissions, Section.expand, s, Section.empty] at hchild
  · exact hnames.1

theorem allowsNamed_of_settled (h : Settled place.vars raw) : AllowsNamed env place k raw := by
  intro flags before after name s left right hs
  have hother : ∀ k', k' ≠ k → Function.update s.allow k (left ++ right) k' = s.allow k' :=
    fun k' hk => Function.update_of_ne hk _ _
  constructor
  · intro cap hcap
    rcases mem_granted_run.mp hcap with ⟨k', hk'⟩ | hchild
    · by_cases hroot : name = rootScope
      · subst hroot
        rw [rootAllow_append, rootAllow_cons_root] at hk'
        by_cases hk : k' = k
        · subst hk
          rw [hs, List.map_append, List.map_cons, ← List.append_assoc, ← List.append_assoc, List.append_assoc,
            List.cons_append] at hk'
          rcases mem_listGrants_merge_insert hk' with hk' | hnamed
          · refine .inl (mem_granted_run.mpr (.inl ⟨k', ?_⟩))
            rw [rootAllow_append, rootAllow_cons_root]
            simpa only [Function.update_self, List.map_append, List.append_assoc] using hk'
          · exact .inr ⟨h, hnamed.imp_right .inl⟩
        · refine .inl (mem_granted_run.mpr (.inl ⟨k', ?_⟩))
          rw [rootAllow_append, rootAllow_cons_root]
          simpa only [hother k' hk] using hk'
      · refine .inl (mem_granted_run.mpr (.inl ⟨k', ?_⟩))
        rw [rootAllow_append, rootAllow_cons hroot] at hk' ⊢
        exact hk'
    · refine .inl (mem_granted_run.mpr (.inr ?_))
      simpa only [flat_allowChildProcess, List.any_append, List.any_cons] using hchild
  · intro scope cap hcap
    obtain ⟨hne, s', hs', hrule⟩ := mem_scopedGrants_run.mp hcap
    by_cases hin : (scope, s') ∈ before ∨ (scope, s') ∈ after
    · refine .inl (mem_scopedGrants_run.mpr ⟨hne, s', ?_, hrule⟩)
      simp only [List.mem_append, List.mem_cons]
      tauto
    · obtain ⟨rfl, rfl⟩ : scope = name ∧ s' = s := by
        simp only [List.mem_append, List.mem_cons, Prod.mk.injEq] at hs'
        tauto
      have hsection : (scope, { s' with allow := Function.update s'.allow k (left ++ right) }) ∈
          before ++ (scope, { s' with allow := Function.update s'.allow k (left ++ right) }) :: after := by simp
      rcases hrule with ⟨k', entry, hentry, rfl⟩ | hchild
      · by_cases hk : k' = k
        · subst hk
          rw [hs, List.mem_append, List.mem_cons] at hentry
          by_cases hraw : entry = raw
          · subst hraw
            exact .inr ⟨h, .inr (.inr rfl)⟩
          · refine .inl (mem_scopedGrants_run.mpr ⟨hne, _, hsection, .inl ⟨k', entry, ?_, rfl⟩⟩)
            simp only [Function.update_self, List.mem_append]
            tauto
        · refine .inl (mem_scopedGrants_run.mpr ⟨hne, _, hsection, .inl ⟨k', entry, ?_, rfl⟩⟩)
          simpa only [hother k' hk] using hentry
      · exact .inl (mem_scopedGrants_run.mpr ⟨hne, _, hsection, .inr hchild⟩)

end Allow

/-! ## Deny entries -/

section Deny

variable {env : PathEnv} {place : Place} {k : Kind} {raw : Str} {cap : Capability}

/-- A rule in force that matches decides against the access, whoever is asked. -/
theorem checkInner_of_rule {st : PermissionState} {sc : ScopeState} {name : Str} {d : Capability} (stdin : Stdin)
    (hscope : name = rootScope ∨ name ∈ sc.denyScopes)
    (hd : d ∈ if name = rootScope then st.denied else scopedDenies st name) (hmatch : capsMatch env d cap = true) :
    (checkInner env stdin sc st cap).1 = false := by
  unfold checkInner checkRules
  by_cases h1 : st.denyAllCovers cap = true
  · simp [h1]
  by_cases h2 : matchesAny env st.denied cap = true
  · simp [h1, h2]
  split at hd
  · exact absurd (matchesAny_eq_true.mpr ⟨d, hd, hmatch⟩) h2
  · rename_i hne
    obtain ⟨set, hset⟩ : ∃ set, st.scopedDenied.lookup name = some set := by
      cases hlook : st.scopedDenied.lookup name with
      | none => simp [scopedDenies, hlook] at hd
      | some set => exact ⟨set, rfl⟩
    rw [scopedDenies, hset, Option.getD_some] at hd
    have hm : scopeMatches env st.scopedDenied cap name = true :=
      scopeMatches_eq_true.mpr ⟨set, hset, d, hd, hmatch⟩
    have hsome : st.scopedDenied ≠ ∅ := by
      rintro he
      rw [he, scopeMatches_empty] at hm
      cases hm
    have hany : sc.denyScopes.any (scopeMatches env st.scopedDenied cap) = true :=
      List.any_eq_true.mpr ⟨name, hscope.resolve_left hne, hm⟩
    simp [h1, h2, hsome, hany]

theorem deniesAlways_of_coversAlways (h : CoversAlways env place k raw) : DeniesAlways env place k raw := by
  intro flags m name s hs hraw
  refine ⟨rule_mem_denies hs hraw, fun var cap stdin sc hscope hmatch => ?_⟩
  exact checkInner_of_rule stdin hscope (rule_mem_denies hs hraw) (h var cap hmatch)

theorem resolvePhysically_root (env : PathEnv) : resolvePhysically env (absolutize env (pathBuf ['/'])) = some [] := by
  have habs : absolutize env (pathBuf ['/']) = pathBuf ['/'] := if_pos (by decide)
  have hsegs : (pathBuf ['/']).segs = [] := by decide
  have htake : (pathBuf ['/']).take 0 = pathBuf ['/'] := by decide
  have hcanon : env.canonicalize (pathBuf ['/']) = some [] := by
    have habsolute : (pathBuf ['/']).absolute = true := by decide
    simp [PathEnv.canonicalize, PathEnv.walkPath, PathEnv.start, habsolute, hsegs, FileSystem.walk, maxSymlinks,
      FileSystem.walkSegs]
  rw [habs, resolvePhysically, hsegs, List.length_nil, resolveFrom, if_pos (by decide), htake, hcanon, hsegs]
  rfl

/-- A path that some rule covers, the root covers. -/
theorem pathCoveredBy_root {target allowed : PathBuf} (h : pathCoveredBy env target allowed = true) :
    pathCoveredBy env target (pathBuf ['/']) = true := by
  unfold pathCoveredBy at h ⊢
  rw [resolvePhysically_root]
  split at h
  · rename_i t a ht ha
    simp [ht]
  · cases h

theorem wildcard_matches {text : Str} (h : capsMatch env (k.rule text) cap = true) :
    capsMatch env k.wildcard cap = true := by
  cases k with
  | read =>
      cases cap with
      | fileRead p => exact pathCoveredBy_root h
      | _ => simp [Kind.rule, capsMatch] at h
  | write =>
      cases cap with
      | fileWrite p => exact pathCoveredBy_root h
      | _ => simp [Kind.rule, capsMatch] at h
  | net =>
      cases cap with
      | network host => rfl
      | _ => simp [Kind.rule, capsMatch] at h
  | env =>
      cases cap with
      | envVar name => rfl
      | _ => simp [Kind.rule, capsMatch] at h
  | ffi =>
      cases cap with
      | ffi p => exact pathCoveredBy_root h
      | _ => simp [Kind.rule, capsMatch] at h

/-- Everything is allowed on the command line. -/
def Flags.all : Flags := ⟨fun _ => some [], true, false⟩

/-- One deny entry. -/
def Section.denying (k : Kind) (raw : Str) : Section :=
  { Section.empty with deny := Function.update (fun _ => []) k [raw] }

theorem mem_denied_denying : cap ∈ (runPermissions env .all place [(rootScope, .denying k raw)]).denied ↔
    cap = k.rule (place.expand k raw) := by
  rw [mem_denied_run, deny_mem_denyCalls]
  constructor
  · rintro (⟨k', text, htext, rfl⟩ | ⟨-, hchild⟩)
    · by_cases hk : k' = k
      · subst hk
        simp [readPackageJsonPermissions, Section.expand, Section.denying] at htext
        rw [htext]
      · simp [readPackageJsonPermissions, Section.expand, Section.denying, hk] at htext
    · simp [readPackageJsonPermissions, Section.expand, Section.denying, Section.empty] at hchild
  · rintro rfl
    exact .inl ⟨k, _, by simp [readPackageJsonPermissions, Section.expand, Section.denying], rfl⟩

/-- With everything allowed and one deny entry, what it does not match is allowed. -/
theorem checkInner_denying {text : Str} (stdin : Stdin) (sc : ScopeState)
    (hkind : capsMatch env (k.rule text) cap = true)
    (hmatch : capsMatch env (k.rule (place.expand k raw)) cap = false) :
    (checkInner env stdin sc (runPermissions env .all place [(rootScope, .denying k raw)]) cap).1 = true := by
  have hbare : (runPermissions env .all place [(rootScope, .denying k raw)]).denyAllCovers cap = false ∧
      (runPermissions env .all place [(rootScope, .denying k raw)]).interactive = false := by
    constructor
    · rw [runPermissions, buildPermissions, applyAll_denyAllCovers]
      cases cap <;> rfl
    · rw [runPermissions, buildPermissions, applyAll_interactive]
      rfl
  rw [checkInner_iff hbare.2, Allowed]
  refine ⟨hbare.1, ?_, ?_, .inl ⟨k.wildcard, ?_, wildcard_matches hkind⟩⟩
  · intro d hd
    rw [mem_denied_denying.mp hd]
    exact hmatch
  · intro s _ set hset d hd
    have hmem : d ∈ scopedDenies (runPermissions env .all place [(rootScope, .denying k raw)]) s := by
      rw [scopedDenies, hset]
      exact hd
    rw [runPermissions, buildPermissions, mem_scopedDenies_applyAll, denyScoped_mem_buildCalls] at hmem
    rcases hmem with hmem | ⟨hne, s', hs', -⟩
    · cases hmem
    · obtain ⟨-, raw', hm, -⟩ := mem_scopes.mp hs'
      rw [List.mem_singleton, Prod.mk.injEq] at hm
      exact absurd hm.1 hne
  · refine mem_granted_run.mpr (.inl ⟨k, ?_⟩)
    simp [Flags.all, mergeOptSlice, Kind.listGrants]

theorem coversAlways_of_deniesAlways (h : DeniesAlways env place k raw) : CoversAlways env place k raw := by
  intro var cap hmatch
  by_contra hmiss
  have hfalse := (h .all [(rootScope, .denying k raw)] rootScope (.denying k raw) (by simp)
    (by simp [Section.denying])).2 var cap .notTerminal ⟨[], none, [], false⟩ (.inl rfl) hmatch
  rw [checkInner_denying .notTerminal _ hmatch (by simpa using hmiss)] at hfalse
  cases hfalse

end Deny

end ThreeVa.Cli
