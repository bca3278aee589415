import ThreeVa.Permissions.Lemmas.Check

/-!
# Binding past a deny rule
-/

namespace ThreeVa.Permissions
open Text

variable {env : PathEnv} {stdin : Stdin} {sc : ScopeState} {st : PermissionState} {host : Str}

theorem anyNet_of_allInterfaces (h : allInterfaces st = true) : anyNet st = true := by
  simp only [allInterfaces, anyNet, decide_eq_true_eq] at h ⊢
  obtain ⟨g, hg, hm⟩ := h
  refine ⟨g, hg, ?_⟩
  cases g <;> simp_all [isAllInterfacesGrant, isNetGrant]

theorem isLocalBindHost_iff :
    isLocalBindHost host = true ↔
      host ∈ [loopbackV4, loopbackV6, localhost] ∨ host ∈ [unspecifiedV4, unspecifiedV6] := by
  have h : isLocalBindHost host =
      decide (host ∈ [unspecifiedV4, unspecifiedV6] ++ [loopbackV4, loopbackV6, localhost]) := rfl
  rw [h, decide_eq_true_eq, List.mem_append, or_comm]

theorem not_loopback_of_unspecified (h : host ∈ [unspecifiedV4, unspecifiedV6]) :
    host ∉ [loopbackV4, loopbackV6, localhost] := by
  simp only [List.mem_cons, List.not_mem_nil, or_false] at h
  rcases h with rfl | rfl <;> decide

/-- What a request comes out as when the network is on and no global rule names the host. -/
theorem bindHost_cases (stdin : Stdin) (sc : ScopeState) (h1 : st.denyAllNet = false)
    (h2 : matchesAny env st.denied (.network host) = false) :
    (anyNet st = true ∧ (host ∈ [loopbackV4, loopbackV6, localhost] ∨
        host ∈ [unspecifiedV4, unspecifiedV6] ∧ allInterfaces st = true) ∧
      (bindHost env stdin sc st host).1 = some host) ∨
    (anyNet st = true ∧ allInterfaces st = false ∧
      (host = unspecifiedV4 ∧ (bindHost env stdin sc st host).1 = some loopbackV4 ∨
        host = unspecifiedV6 ∧ (bindHost env stdin sc st host).1 = some loopbackV6)) ∨
    ((anyNet st = false ∨ host ∉ [loopbackV4, loopbackV6, localhost] ∧ host ∉ [unspecifiedV4, unspecifiedV6]) ∧
      (bindHost env stdin sc st host).1 =
        if (checkInner env stdin sc st (.network host)).1 then some host else none) := by
  by_cases hn : anyNet st = true
  · by_cases hl : host ∈ [loopbackV4, loopbackV6, localhost]
    · exact Or.inl ⟨hn, Or.inl hl, by simp only [bindHost, h1, h2, hn, hl]; rfl⟩
    · by_cases hu : host ∈ [unspecifiedV4, unspecifiedV6]
      · have hlocal := isLocalBindHost_iff.mpr (Or.inr hu)
        cases ha : allInterfaces st with
        | true => exact Or.inl ⟨hn, Or.inr ⟨hu, rfl⟩, by simp [bindHost, h1, h2, hl, hlocal, ha]⟩
        | false =>
            refine Or.inr (Or.inl ⟨hn, rfl, ?_⟩)
            have hb : (bindHost env stdin sc st host).1 =
                some (if host = unspecifiedV6 then loopbackV6 else loopbackV4) := by
              simp [bindHost, h1, h2, hl, hlocal, ha, hn]
            simp only [List.mem_cons, List.not_mem_nil, or_false] at hu
            rcases hu with rfl | rfl
            · exact Or.inl ⟨rfl, by rw [hb, if_neg (by decide)]⟩
            · exact Or.inr ⟨rfl, by rw [hb, if_pos rfl]⟩
      · have hlocal : isLocalBindHost host = false := by
          rw [← Bool.not_eq_true, isLocalBindHost_iff]; exact not_or.mpr ⟨hl, hu⟩
        exact Or.inr (Or.inr ⟨Or.inr ⟨hl, hu⟩, by simp [bindHost, h1, h2, hl, hlocal]⟩)
  · have ha : allInterfaces st = false := by
      rw [← Bool.not_eq_true]; exact fun h => hn (anyNet_of_allInterfaces h)
    exact Or.inr (Or.inr ⟨Or.inl (by simpa using hn), by simp [bindHost, h1, h2, hn, ha]⟩)

section Shortcut

variable (h1 : st.denyAllNet = false) (h2 : ∀ d ∈ st.denied, capsMatch env d (.network host) = false)

include h1 h2

theorem bindDenied_iff_scope : BindDenied env sc st host ↔ ScopeDeniesHost env sc st host := by
  have hno : ¬ ∃ d ∈ st.denied, capsMatch env d (.network host) = true := by
    rintro ⟨d, hd, hm⟩
    simp [h2 d hd] at hm
  simp [BindDenied, h1, hno]

/-- The requested address is bound as asked. -/
theorem shortcut_iff_scope (hn : anyNet st = true)
    (hh : host ∈ [loopbackV4, loopbackV6, localhost] ∨
      host ∈ [unspecifiedV4, unspecifiedV6] ∧ allInterfaces st = true) :
    ShortcutPassesDeny env sc st host ↔ ScopeDeniesHost env sc st host := by
  refine ⟨?_, fun hs => ⟨h1, h2, hn, Or.inl ⟨hh, hs⟩⟩⟩
  rintro ⟨-, -, -, ⟨-, hs⟩ | ⟨ha, hw⟩⟩
  · exact hs
  · exfalso
    have hu : host ∈ [unspecifiedV4, unspecifiedV6] := by
      rcases hw with ⟨rfl, -⟩ | ⟨rfl, -⟩ <;> simp
    rcases hh with hl | ⟨-, ha'⟩
    · exact not_loopback_of_unspecified hu hl
    · simp [ha] at ha'

/-- A wildcard is moved to the loopback address of its family. -/
theorem shortcut_iff_moved (hn : anyNet st = true) (ha : allInterfaces st = false) {moved : Str}
    (hm : host = unspecifiedV4 ∧ moved = loopbackV4 ∨ host = unspecifiedV6 ∧ moved = loopbackV6) :
    ShortcutPassesDeny env sc st host ↔ BindDenied env sc st moved := by
  have hu : host ∈ [unspecifiedV4, unspecifiedV6] := by
    rcases hm with ⟨rfl, -⟩ | ⟨rfl, -⟩ <;> simp
  have hl := not_loopback_of_unspecified hu
  have hv : unspecifiedV4 ≠ unspecifiedV6 := by decide
  constructor
  · rintro ⟨-, -, -, ⟨hl' | ⟨-, ha'⟩, -⟩ | ⟨-, hw⟩⟩
    · exact absurd hl' hl
    · simp [ha] at ha'
    · rcases hm with ⟨rfl, rfl⟩ | ⟨rfl, rfl⟩
      · simpa [hv] using hw
      · simpa [hv.symm] using hw
  · intro h
    refine ⟨h1, h2, hn, Or.inr ⟨ha, ?_⟩⟩
    rcases hm with ⟨rfl, rfl⟩ | ⟨rfl, rfl⟩
    · exact Or.inl ⟨rfl, h⟩
    · exact Or.inr ⟨rfl, h⟩

end Shortcut

theorem not_shortcut (hno : anyNet st = false ∨
    host ∉ [loopbackV4, loopbackV6, localhost] ∧ host ∉ [unspecifiedV4, unspecifiedV6]) :
    ¬ ShortcutPassesDeny env sc st host := by
  rintro ⟨-, -, hn, hcase⟩
  rcases hno with hno | ⟨hl, hu⟩
  · simp [hn] at hno
  · rcases hcase with ⟨hl' | ⟨hu', -⟩, -⟩ | ⟨-, ⟨rfl, -⟩ | ⟨rfl, -⟩⟩
    · exact hl hl'
    · exact hu hu'
    · exact hu (by simp)
    · exact hu (by simp)

/-- A refused request stays refused, and the rest is decided by the rules the shortcuts skip. -/
theorem bindHost_respects_deny_iff :
    (∀ h, (bindHost env stdin sc st host).1 = some h → ¬ BindDenied env sc st h) ↔
      ¬ ShortcutPassesDeny env sc st host := by
  by_cases h1 : st.denyAllNet = true
  · simp [bindHost, h1, ShortcutPassesDeny]
  have h1' : st.denyAllNet = false := by simpa using h1
  by_cases h2 : matchesAny env st.denied (.network host) = true
  · have : ¬ ∀ d ∈ st.denied, capsMatch env d (.network host) = false := by
      rw [← matchesAny_eq_false]; simp [h2]
    simp [bindHost, h1, h2, ShortcutPassesDeny, this]
  have h2' : matchesAny env st.denied (.network host) = false := by simpa using h2
  have hd := matchesAny_eq_false.mp h2'
  rcases bindHost_cases stdin sc h1' h2' with ⟨hn, hh, hb⟩ | ⟨hn, ha, hb⟩ | ⟨hno, hb⟩
  · rw [shortcut_iff_scope h1' hd hn hh, ← bindDenied_iff_scope h1' hd, hb]
    simp
  · rcases hb with ⟨hhost, hb⟩ | ⟨hhost, hb⟩
    · rw [shortcut_iff_moved h1' hd hn ha (.inl ⟨hhost, rfl⟩), hb]
      simp
    · rw [shortcut_iff_moved h1' hd hn ha (.inr ⟨hhost, rfl⟩), hb]
      simp
  · -- the rules decide
    refine ⟨fun _ => not_shortcut hno, fun _ h hh hden => ?_⟩
    rw [hb] at hh
    split at hh
    · rename_i hc
      obtain rfl := Option.some.inj hh
      rw [checkInner_denied hden] at hc
      cases hc
    · cases hh

end ThreeVa.Permissions
