import ThreeVa.Pm.Lemmas.Compound

/-! Alternatives and comparators of a range, and the prereleases it accepts. -/

namespace ThreeVa.Pm.SemverRange
open Text

/-! ## The parts of a range -/

def alternatives : SemverRange → List SemverRange
  | or a b => a.alternatives ++ b.alternatives
  | r => [r]

def comparators : SemverRange → List SemverRange
  | and a b => a.comparators ++ b.comparators
  | r => [r]

/-- The version of a comparator. -/
def base : SemverRange → Option Semver
  | exact b | caret b | tilde b | gt b | gte b | lt b | lte b => some b
  | and _ _ | or _ _ | any => none

/-- Some comparator of the alternative is a prerelease of the same three numbers. -/
def Names (v : Semver) (alt : SemverRange) : Prop :=
  ∃ c ∈ alt.comparators, ∃ b ∈ c.base, b.prerelease ≠ [] ∧ (b.major, b.minor, b.patch) = (v.major, v.minor, v.patch)

/-- The numbers up to the left-most non-zero one are those of the base, so that also the prereleases of the next
version are out. -/
def SameSeries (b v : Semver) : Prop :=
  v.major = b.major ∧ (b.major = 0 → v.minor = b.minor ∧ (b.minor = 0 → v.patch = b.patch))

/-- `v` lies within the comparator under the order of versions. -/
def Within (v : Semver) : SemverRange → Prop
  | exact b => v = b
  | caret b => (v.cmp b).isGE = true ∧ SameSeries b v
  | tilde b => (v.cmp b).isGE = true ∧ v.major = b.major ∧ v.minor = b.minor
  | gt b => v.cmp b = .gt
  | gte b => (v.cmp b).isGE = true
  | lt b => v.cmp b = .lt
  | lte b => (v.cmp b).isLE = true
  | and _ _ | or _ _ | any => True

/-- `v` has the numbers of a `^0.0.p` comparator and lies below its version. -/
def Below (v : Semver) : SemverRange → Prop
  | caret b => b.major = 0 ∧ b.minor = 0 ∧ SameSeries b v ∧ v.cmp b = .lt
  | _ => False

theorem matchesComparator_iff (v : Semver) (c : SemverRange) :
    c.matchesComparator v = true ↔ Within v c ∨ Below v c := by
  cases c with
  | caret b =>
      simp only [matchesComparator, Within, Below, SameSeries, ← Ordering.isGE_eq_false]
      cases hge : (v.cmp b).isGE <;> by_cases hM : b.major = 0 <;> by_cases hm : b.minor = 0 <;>
        simp [hM, hm, and_assoc]
  | tilde b => simp [matchesComparator, Within, Below, and_comm, and_assoc]
  | _ => simp [matchesComparator, Within, Below]

/-! ## The shape of a parsed range -/

def OrFree : SemverRange → Prop
  | or _ _ => False
  | and a b => a.OrFree ∧ b.OrFree
  | _ => True

theorem OrFree.alternatives {r : SemverRange} (h : r.OrFree) : r.alternatives = [r] := by
  cases r with
  | or a b => exact absurd h id
  | _ => rfl

theorem andLoop_orFree {result : Option SemverRange} {rs : List (Option SemverRange)} {r : SemverRange}
    (h : andLoop result rs = some r) (hresult : ∀ r' ∈ result, r'.OrFree) (hrs : ∀ r', some r' ∈ rs → r'.OrFree) :
    r.OrFree := by
  fun_induction andLoop result rs with
  | case1 result => exact hresult r h
  | case2 result rest ih => exact ih h hresult fun r' hr' => hrs r' (by simp [hr'])
  | case3 result r' rest ih =>
      apply ih h (fun r'' hr'' => ?_) fun r'' hr'' => hrs r'' (by simp [hr''])
      rw [Option.mem_some_iff] at hr''
      subst hr''
      have hr' := hrs r' (by simp)
      cases result with
      | none => exact hr'
      | some prev => exact ⟨hresult prev rfl, hr'⟩

theorem OrFree.of_base {r : SemverRange} (h : r.base.isSome = true) : r.OrFree := by
  cases r with
  | and a b => simp [base] at h
  | or a b => simp [base] at h
  | _ => trivial

theorem base_of_map {f : Semver → SemverRange} (hf : ∀ b, (f b).base = some b) {o : Option Semver} {r : SemverRange}
    (h : o.map f = some r) : r.base.isSome = true := by
  obtain ⟨b, -, rfl⟩ := Option.map_eq_some_iff.mp h
  simp [hf]

theorem parseXRange_base {s : Str} {r : SemverRange} (h : parseXRange s = some r) : r.base.isSome = true := by
  unfold parseXRange at h
  dsimp only at h
  split at h
  · simp only [Option.bind_eq_bind, Option.bind_eq_some_iff, Option.some.injEq] at h
    obtain ⟨-, -, M, -, rfl⟩ := h
    rfl
  · split at h
    · simp only [Option.bind_eq_bind, Option.bind_eq_some_iff, Option.some.injEq] at h
      obtain ⟨-, -, M, -, -, -, m, -, rfl⟩ := h
      rfl
    · cases h

theorem parseComparator_base {s : Str} {r : SemverRange} (h : parseComparator s = some r) :
    r.base.isSome = true := by
  unfold parseComparator at h
  split at h
  · exact base_of_map (f := caret) (fun _ => rfl) h
  split at h
  · exact base_of_map (f := tilde) (fun _ => rfl) h
  split at h
  · exact base_of_map (f := gte) (fun _ => rfl) h
  split at h
  · exact base_of_map (f := gt) (fun _ => rfl) h
  split at h
  · exact base_of_map (f := lte) (fun _ => rfl) h
  split at h
  · exact base_of_map (f := lt) (fun _ => rfl) h
  split at h
  · exact base_of_map (f := exact) (fun _ => rfl) h
  rcases Option.or_eq_some_iff.mp h with hx | ⟨-, hv⟩
  · exact parseXRange_base hx
  · exact base_of_map (f := exact) (fun _ => rfl) hv

theorem parseHyphen_orFree {lo hi : Str} {r : SemverRange} (h : parseHyphen lo hi = some r) : r.OrFree := by
  unfold parseHyphen at h
  rw [Option.bind_eq_bind, Option.bind_eq_some_iff] at h
  obtain ⟨b, -, h⟩ := h
  dsimp only at h
  split at h
  · cases h
    exact ⟨trivial, trivial⟩
  · simp only [Option.bind_eq_bind, Option.bind_eq_some_iff, Option.map_eq_some_iff, Option.some.injEq] at h
    obtain ⟨-, ⟨p, -, rfl⟩, rfl⟩ := h
    exact ⟨trivial, trivial⟩

/-- Gluing operators on makes no `||`. -/
theorem not_bars_of_mem_glue {op w : Str} {ts : List Str} (hop : '|' ∉ op) (hts : ∀ t ∈ ts, ¬ ['|', '|'] <:+: t)
    (hw : w ∈ glue op ts) : ¬ ['|', '|'] <:+: w := by
  have happend : ∀ op t : Str, '|' ∉ op → ¬ ['|', '|'] <:+: t → ¬ ['|', '|'] <:+: op ++ t := by
    intro op t hop ht
    induction op with
    | nil => simpa using ht
    | cons c op ih =>
        rw [List.mem_cons, not_or] at hop
        rw [List.cons_append, List.infix_cons_iff, not_or]
        refine ⟨fun hp => ?_, ih hop.2⟩
        exact hop.1 (List.cons_prefix_cons.mp hp).1
  fun_induction glue op ts with
  | case1 op => simp at hw
  | case2 op t ts ht ih =>
      apply ih ?_ (fun t' ht' => hts t' (by simp [ht'])) hw
      have hbar : ∀ t, isOp t = true → '|' ∉ t := by
        intro t ht
        simp only [isOp, Bool.or_eq_true, decide_eq_true_eq] at ht
        rcases ht with (((((rfl | rfl) | rfl) | rfl) | rfl) | rfl) | rfl <;> decide
      simp [hop, hbar t ht]
  | case3 op t ts ht ih =>
      rcases List.mem_cons.mp hw with rfl | hw
      · exact happend op t hop (hts t (by simp))
      · exact ih (by simp) (fun t' ht' => hts t' (by simp [ht'])) hw

theorem parse_orFree {text : Str} {r : SemverRange} (hbars : ¬ ['|', '|'] <:+: trim text)
    (h : parse text = some r) : r.OrFree := by
  induction hn : text.length using Nat.strongRecOn generalizing text r with
  | ind n ih =>
      rw [parse_eq, if_neg hbars] at h
      split at h
      · exact parseHyphen_orFree h
      · split at h
        · cases h
          trivial
        · split at h
          · rename_i hspace
            apply andLoop_orFree h (by simp) fun r' hr' => ?_
            obtain ⟨part, hpart, hr'⟩ := List.mem_map.mp hr'
            have hlt := Nat.lt_of_lt_of_le (length_lt_of_mem_components hspace hpart) (isInfix_trim text).length_le
            rw [splitWhitespace_glued] at hpart
            have hclean := not_bars_of_mem_glue (by simp) (fun t ht hb => ?_) hpart
            · exact ih part.length (hn ▸ hlt) (fun hb => hclean (hb.trans (isInfix_trim part))) hr' rfl
            · exact hbars (hb.trans (mem_splitWhitespace ht).1)
          · exact .of_base (parseComparator_base h)

theorem orLoop_alternatives {out : Option SemverRange} {rs : List (Option SemverRange)} {r : SemverRange}
    (h : orLoop out rs = some r) {alt : SemverRange} (halt : alt ∈ r.alternatives) :
    (∃ r' ∈ out, alt ∈ r'.alternatives) ∨ ∃ r', some r' ∈ rs ∧ alt ∈ r'.alternatives := by
  fun_induction orLoop out rs with
  | case1 out => exact .inl ⟨r, h, halt⟩
  | case2 out rest => cases h
  | case3 out r' rest ih =>
      rcases ih h with ⟨r'', hr'', hmem⟩ | ⟨r'', hr'', hmem⟩
      · rw [Option.mem_some_iff] at hr''
        subst hr''
        cases out with
        | none => exact .inr ⟨r', by simp, hmem⟩
        | some prev =>
            rcases List.mem_append.mp hmem with hmem | hmem
            · exact .inl ⟨prev, rfl, hmem⟩
            · exact .inr ⟨r', by simp, hmem⟩
      · exact .inr ⟨r'', by simp [hr''], hmem⟩

/-- No alternative of a parsed range has alternatives within. -/
theorem parse_alternatives_orFree {text : Str} {r : SemverRange} (h : parse text = some r) :
    ∀ alt ∈ r.alternatives, alt.OrFree := by
  intro alt halt
  by_cases hbars : ['|', '|'] <:+: trim text
  · rw [parse_eq, if_pos hbars] at h
    rcases orLoop_alternatives h halt with ⟨r', hr', -⟩ | ⟨r', hr', hmem⟩
    · simp at hr'
    · obtain ⟨piece, hpiece, hr'⟩ := List.mem_map.mp hr'
      have hfree := parse_orFree (fun hb => not_infix_of_mem_splitDouble hpiece (hb.trans (isInfix_trim piece))) hr'
      rw [hfree.alternatives, List.mem_singleton] at hmem
      exact hmem ▸ hfree
  · have hfree := parse_orFree hbars h
    rw [hfree.alternatives, List.mem_singleton] at halt
    exact halt ▸ hfree

/-! ## What a range accepts -/

theorem matches_iff_alternative (v : Semver) (r : SemverRange) :
    r.matches v = true ↔ ∃ alt ∈ r.alternatives, alt.matches v = true := by
  induction r with
  | or a b iha ihb =>
      simp only [SemverRange.matches, Bool.or_eq_true, iha, ihb, alternatives, List.mem_append]
      grind
  | _ => simp [alternatives]

theorem matchesIgnoring_iff {v : Semver} {alt : SemverRange} (h : alt.OrFree) :
    alt.matchesIgnoringPrereleaseRule v = true ↔ ∀ c ∈ alt.comparators, Within v c ∨ Below v c := by
  induction alt with
  | and a b iha ihb =>
      simp only [matchesIgnoringPrereleaseRule, Bool.and_eq_true, iha h.1, ihb h.2, comparators, List.mem_append]
      grind
  | or a b => exact absurd h id
  | _ => simp [comparators, matchesIgnoringPrereleaseRule, matchesComparator_iff]

theorem namesPrereleaseOf_iff {v : Semver} {alt : SemverRange} (h : alt.OrFree) :
    alt.namesPrereleaseOf v = true ↔ Names v alt := by
  induction alt with
  | and a b iha ihb =>
      simp only [namesPrereleaseOf, Bool.or_eq_true, iha h.1, ihb h.2, Names, comparators, List.mem_append]
      grind
  | or a b => exact absurd h id
  | _ => simp [namesPrereleaseOf, Names, comparators, base]

/-- An alternative accepts a prerelease that it names and that lies within its comparators, or below those of the
form `^0.0.p`. -/
theorem matches_alternative_iff {v : Semver} (hv : v.prerelease ≠ []) {alt : SemverRange} (h : alt.OrFree) :
    alt.matches v = true ↔ Names v alt ∧ ∀ c ∈ alt.comparators, Within v c ∨ Below v c := by
  have hnotOr : ∀ a b, alt ≠ .or a b := by
    intro a b heq
    simp [heq, OrFree] at h
  rw [matches_eq v hnotOr, Bool.and_eq_true, matchesIgnoring_iff h, passesPrereleaseRule, Bool.or_eq_true,
    namesPrereleaseOf_iff h]
  simp [hv, and_comm]

end ThreeVa.Pm.SemverRange
