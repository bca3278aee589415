import ThreeVa.Pm.Partial
import ThreeVa.Pm.Lemmas.Partial
import ThreeVa.Pm.Lemmas.VersionText

/-! Hyphen ranges through the parser, and the releases between two bounds. -/

namespace ThreeVa.Pm
open Text SemverRange

/-! ## The text of a range -/

theorem splitOnceStr_append {s t : Str} (h : ∀ c ∈ s, isWhitespace c = false) :
    splitOnceStr [' ', '-', ' '] (s ++ [' ', '-', ' '] ++ t) = some (s, t) := by
  induction s with
  | nil => simp [splitOnceStr]
  | cons c s ih =>
      rw [List.forall_mem_cons] at h
      have hc : c ≠ ' ' := by
        rintro rfl
        cases h.1
      have hprefix : ¬ [' ', '-', ' '] <+: c :: (s ++ [' ', '-', ' '] ++ t) := fun hp =>
        hc (List.cons_prefix_cons.mp hp).1.symm
      rw [List.cons_append, List.cons_append, splitOnceStr, if_neg hprefix, ih h.2]
      rfl

namespace Bound

theorem text_clean (b : Bound) : ∀ c ∈ b.text, isWhitespace c = false ∧ c ≠ '|' := by
  cases b with
  | full v build =>
      intro c hc
      change c ∈ v.text at hc
      rw [v.text_eq, List.mem_append] at hc
      rcases hc with hc | hc
      · exact ⟨(v.front_clean c hc).1, (v.front_clean c hc).2.1⟩
      · rw [VersionText.buildText] at hc
        cases hb : v.build with
        | none => simp [hb] at hc
        | some s =>
            rw [hb, Option.elim_some] at hc
            rcases List.mem_cons.mp hc with rfl | hc
            · decide
            · rcases build s hb c hc with h | rfl
              · refine ⟨VersionText.isWhitespace_of_isIdentifierChar h, ?_⟩
                rintro rfl
                cases h
              · decide
  | part w _ _ => exact fun c hc => ⟨(w.text_clean c hc).1, (w.text_clean c hc).2.1⟩

theorem text_ne_nil (b : Bound) : b.text ≠ [] := by
  cases b with
  | full v _ =>
      change v.text ≠ []
      rw [v.text_eq]
      simp [v.front_ne_nil]
  | part w _ _ =>
      obtain ⟨c, t, htext, -⟩ := w.text_head
      exact fun h => by simp [text, htext] at h

end Bound

theorem parse_hyphenText (lo hi : Bound) : SemverRange.parse (hyphenText lo hi) = parseHyphen lo.text hi.text := by
  have htight : Tight isWhitespace (hyphenText lo hi) := by
    rw [hyphenText, List.append_assoc]
    apply Tight.append lo.text_ne_nil (by simp)
    · exact fun c hc => (lo.text_clean c (List.mem_of_mem_head? hc)).1
    · rw [List.getLast?_append_of_ne_nil _ hi.text_ne_nil]
      exact fun c hc => (hi.text_clean c (List.mem_of_getLast? hc)).1
  have hbar : '|' ∉ hyphenText lo hi := by
    simp only [hyphenText, List.mem_append, List.mem_cons, List.not_mem_nil, or_false, not_or]
    exact ⟨⟨fun h => (lo.text_clean _ h).2 rfl, by decide, by decide, by decide⟩, fun h => (hi.text_clean _ h).2 rfl⟩
  rw [parse_eq, htight.trim_eq, if_neg fun h => hbar (h.subset (by simp))]
  rw [hyphenText, splitOnceStr_append fun c hc => (lo.text_clean c hc).1]

/-! ## Releases and bounds -/

theorem isLT_iff_not_isGE (o : Ordering) : o.isLT = true ↔ ¬ o.isGE = true := by cases o <;> decide

section Release

variable {v : Semver} (hv : v.prerelease = []) (b : Semver)
include hv

theorem cmp_of_release : v.cmp b =
    (((compare v.major b.major).then (compare v.minor b.minor)).then (compare v.patch b.patch)).then
      (if b.prerelease = [] then .eq else .gt) := by
  rw [VersionText.cmp_then, hv]
  congr 1
  cases b.prerelease <;> rfl

theorem isGE_of_release : (v.cmp b).isGE = true ↔
    b.major < v.major ∨ b.major = v.major ∧ (b.minor < v.minor ∨ b.minor = v.minor ∧ b.patch ≤ v.patch) := by
  rw [Ordering.isGE_iff_ne_lt, cmp_of_release hv]
  have hlast : (if b.prerelease = [] then Ordering.eq else .gt) ≠ .lt := by split <;> decide
  simp only [Ordering.then_eq_lt, Ordering.then_eq_eq, Nat.compare_eq_lt, Nat.compare_eq_eq, hlast, and_false,
    or_false]
  omega

theorem isLT_of_release : (v.cmp b).isLT = true ↔
    v.major < b.major ∨ v.major = b.major ∧ (v.minor < b.minor ∨ v.minor = b.minor ∧ v.patch < b.patch) := by
  rw [isLT_iff_not_isGE, isGE_of_release hv]
  omega

/-- A prerelease is passed by the release of its numbers. -/
theorem isLE_of_release : (v.cmp b).isLE = true ↔ (v.cmp b).isLT = true ∨
    (b.prerelease = [] ∧ v.major = b.major ∧ v.minor = b.minor ∧ v.patch = b.patch) := by
  rw [Ordering.isLE_iff_eq_lt_or_eq_eq, Ordering.isLT_iff_eq_lt]
  apply or_congr_right
  rw [cmp_of_release hv]
  simp only [Ordering.then_eq_eq, Nat.compare_eq_eq]
  constructor
  · rintro ⟨⟨⟨hmajor, hminor⟩, hpatch⟩, hlast⟩
    refine ⟨?_, hmajor, hminor, hpatch⟩
    by_contra hpre
    simp [hpre] at hlast
  · rintro ⟨hpre, hmajor, hminor, hpatch⟩
    simp [hpre, hmajor, hminor, hpatch]

end Release

theorem matches_gte_and {v : Semver} (hv : v.prerelease = []) (lo : Semver) (upper : SemverRange) :
    (SemverRange.and (.gte lo) upper).matches v = true ↔
      (v.cmp lo).isGE = true ∧ upper.matchesIgnoringPrereleaseRule v = true := by
  rw [matches_release hv]
  simp [matchesIgnoringPrereleaseRule, matchesComparator]

/-! ## The bounds as they are read -/

/-- The lower bound is read with its numbers. -/
theorem parse_lower (lo : Bound) : ∃ a, parseFullOrPartial (trim lo.text) = some a ∧
    ∀ v : Semver, v.prerelease = [] → ((v.cmp a).isGE = true ↔ (v.cmp lo.lower).isGE = true) := by
  rw [trim_of_clean fun c hc => (lo.text_clean c hc).1]
  cases lo with
  | full v build =>
      obtain ⟨b, hparse⟩ := v.parse_text
      refine ⟨_, by rw [Bound.text, parseFullOrPartial, hparse, Option.some_or], fun u hu => ?_⟩
      rw [isGE_of_release hu, isGE_of_release hu]
      rfl
  | part w trailing fits =>
      refine ⟨_, w.parseFullOrPartial_text fits, fun u hu => ?_⟩
      have hfilled : w.filled = padded w.written := by
        cases w <;> first | rfl | cases trailing
      rw [hfilled]
      rfl

theorem count_join (M : Nat) {ws : List Str} (hws : ∀ w ∈ ws, '.' ∉ w) :
    (['.'].intercalate (decimal M :: ws)).count '.' = ws.length := by
  induction ws using List.reverseRecOn with
  | nil => simpa using List.count_eq_zero.mpr (not_mem_decimal (by decide))
  | append_singleton ws w ih =>
      rw [intercalate_concat, List.count_append, ih fun u hu => hws u (by simp [hu]), List.count_cons_self,
        List.count_eq_zero.mpr (hws w (by simp)), List.length_append]
      simp

/-- The dots counted are those before the components that are not trimmed. -/
theorem count_trimmed (w : PartialVersion) : (trimEndDot '*' (trimEndDot 'x' w.text)).count '.' =
    ((w.parts.2.rdropWhile (· = ['x'])).rdropWhile (· = ['*'])).length := by
  have hd : '.' ∉ decimal w.parts.1 := not_mem_decimal (by decide)
  have hdrop : ∀ (c : Char) (ws : List Str), (∀ w ∈ ws, '.' ∉ w) → ∀ w ∈ ws.rdropWhile (· = [c]), '.' ∉ w :=
    fun c ws h w hw => h w ((List.rdropWhile_prefix _ _).subset hw)
  rw [PartialVersion.text, trimEndDot_join (by decide) hd w.parts_no_dot,
    trimEndDot_join (by decide) hd (hdrop 'x' _ w.parts_no_dot), count_join _ (hdrop '*' _ (hdrop 'x' _ w.parts_no_dot))]

section Part

variable {w : PartialVersion} (trailing : w.trailing = true) (fits : ∀ n ∈ w.numbers, n ≤ u32Max)
include trailing fits

theorem semverParse_part : Semver.parse w.text = none := by
  rw [w.semverParse_text fits]
  cases w <;> first | rfl | cases trailing

theorem parsePartial_part : parsePartial w.text = some w.filled := by
  have hread := w.parseFullOrPartial_text fits
  rwa [parseFullOrPartial, semverParse_part trailing fits, Option.none_or] at hread

/-- With `n` dots counted: the version below which a partial upper bound is read. -/
def nextOf (n : Nat) (p : Semver) : Semver :=
  if n = 0 then .release ((p.major + 1) % (u32Max + 1)) 0 0 else .release p.major ((p.minor + 1) % (u32Max + 1)) 0

theorem parseHyphen_part {lo : Str} {a : Semver} (ha : parseFullOrPartial (trim lo) = some a) :
    parseHyphen lo w.text = some (.and (.gte a)
      (.lt (nextOf ((trimEndDot '*' (trimEndDot 'x' w.text)).count '.') w.filled))) := by
  have htrim : trim w.text = w.text := trim_of_clean fun c hc => (w.text_clean c hc).1
  simp only [parseHyphen, ha, htrim, semverParse_part trailing fits, parsePartial_part trailing fits, Option.map_some]
  rfl

theorem hyphenOverflows_part : hyphenOverflows w.text = true ↔
    if (trimEndDot '*' (trimEndDot 'x' w.text)).count '.' = 0 then w.filled.major = u32Max
    else w.filled.minor = u32Max := by
  unfold hyphenOverflows
  rw [semverParse_part trailing fits, parsePartial_part trailing fits]
  dsimp only
  split <;> simp

end Part

theorem numbers_of_trailing {w : PartialVersion} (trailing : w.trailing = true) : w.numbers = w.written := by
  cases w with
  | majorXPatch | full => cases trailing
  | _ => rfl

/-- One number and wildcards: no dot is counted if all of them are trimmed. -/
theorem count_of_major {w : PartialVersion} (trailing : w.trailing = true) {M : Nat} (hw : w.written = [M]) :
    ((trimEndDot '*' (trimEndDot 'x' w.text)).count '.' = 0 ↔ wildsTrimmed w.wilds = true) ∧
      w.filled = .release M 0 0 := by
  rw [count_trimmed]
  cases w with
  | major N =>
      cases hw
      exact ⟨by simp [PartialVersion.parts, PartialVersion.wilds, wildsTrimmed], rfl⟩
  | majorX N u =>
      cases hw
      refine ⟨?_, rfl⟩
      change (([u.text].rdropWhile (· = ['x'])).rdropWhile (· = ['*'])).length = 0 ↔ wildsTrimmed [u] = true
      cases u <;> decide
  | majorXX N u u' =>
      cases hw
      refine ⟨?_, rfl⟩
      change (([u.text, u'.text].rdropWhile (· = ['x'])).rdropWhile (· = ['*'])).length = 0 ↔
        wildsTrimmed [u, u'] = true
      cases u <;> cases u' <;> decide
  | majorXPatch | full => cases trailing
  | minor | minorX => cases hw

/-- Two numbers: the dot between them is counted. -/
theorem count_of_minor {w : PartialVersion} (trailing : w.trailing = true) {M m : Nat} (hw : w.written = [M, m]) :
    (trimEndDot '*' (trimEndDot 'x' w.text)).count '.' ≠ 0 ∧ w.filled = .release M m 0 := by
  rw [count_trimmed]
  have hnumber : ∀ c : Char, c.isDigit = false → [decimal m].rdropWhile (· = [c]) = [decimal m] :=
    fun c hc => PartialVersion.rdropWhile_decimal [] m hc
  have hdrop : ∀ u : Wild, ∀ c : Char, u.text = [c] →
      [decimal m, u.text].rdropWhile (· = [c]) = [decimal m].rdropWhile (· = [c]) :=
    fun u c hc => List.rdropWhile_concat_pos _ [decimal m] _ (by simp [hc])
  have hkeep : ∀ u : Wild, ∀ c : Char, u.text ≠ [c] →
      [decimal m, u.text].rdropWhile (· = [c]) = [decimal m, u.text] :=
    fun u c hc => List.rdropWhile_concat_neg _ [decimal m] _ (by simpa using hc)
  cases w with
  | minor =>
      cases hw
      refine ⟨?_, rfl⟩
      simp only [PartialVersion.parts]
      rw [hnumber 'x' (by decide), hnumber '*' (by decide)]
      exact Nat.one_ne_zero
  | minorX _ _ u =>
      cases hw
      refine ⟨?_, rfl⟩
      simp only [PartialVersion.parts]
      cases u with
      | x => simp [hdrop .x 'x' rfl, hnumber 'x' (by decide), hnumber '*' (by decide)]
      | upperX => simp [hkeep .upperX 'x' (by decide), hkeep .upperX '*' (by decide)]
      | star => simp [hkeep .star 'x' (by decide), hdrop .star '*' rfl, hnumber '*' (by decide)]
  | majorXPatch | full => cases trailing
  | major | majorX | majorXX => cases hw

/-! ## Exact ranges -/

/-- The bounds are read; what is left is to compare the releases with the upper bound. -/
theorem HyphenExact.congr_iff {lo hi : Bound} {a : Semver} {upper : SemverRange}
    (ha : ∀ v : Semver, v.prerelease = [] → ((v.cmp a).isGE = true ↔ (v.cmp lo.lower).isGE = true))
    (hparse : SemverRange.parse (hyphenText lo hi) = some (.and (.gte a) upper)) :
    HyphenExact lo hi ↔ hyphenOverflows hi.text = false ∧ ∀ v : Semver, v.prerelease = [] → v.Fits →
      (v.cmp lo.lower).isGE = true → (upper.matchesIgnoringPrereleaseRule v = true ↔ hi.Admits v) := by
  have hmatches : ∀ v : Semver, v.prerelease = [] →
      ((SemverRange.and (.gte a) upper).matches v = true ↔
        (v.cmp lo.lower).isGE = true ∧ upper.matchesIgnoringPrereleaseRule v = true) :=
    fun v hv => by rw [matches_gte_and hv, ha v hv]
  constructor
  · rintro ⟨⟨r, hr, hiff⟩, hover⟩
    cases hparse.symm.trans hr
    refine ⟨hover, fun v hv hfits hge => ?_⟩
    have h := (hmatches v hv).symm.trans (hiff v hv hfits)
    simpa only [hge, true_and] using h
  · rintro ⟨hover, hiff⟩
    exact ⟨⟨_, hparse, fun v hv hfits => (hmatches v hv).trans (and_congr_right fun hge => hiff v hv hfits hge)⟩, hover⟩

theorem hyphenExact_full (lo : Bound) (v : VersionText) (build) :
    HyphenExact lo (.full v build) ↔ HyphenFits lo (.full v build) := by
  obtain ⟨a, ha, hlower⟩ := parse_lower lo
  obtain ⟨vb, hread⟩ := v.parse_text
  have hclean : trim (Bound.full v build).text = v.text :=
    trim_of_clean fun c hc => ((Bound.full v build).text_clean c hc).1
  have hparse : SemverRange.parse (hyphenText lo (.full v build)) = some (.and (.gte a)
      (.lte ⟨v.major.value, v.minor.value, v.patch.value, v.readPrerelease, vb⟩)) := by
    rw [parse_hyphenText]
    simp only [parseHyphen, ha, hclean, hread]
    rfl
  have hover : hyphenOverflows (Bound.full v build).text = false := by
    change hyphenOverflows v.text = false
    simp [hyphenOverflows, hread]
  have hreads : ∀ u : Semver, u.prerelease = [] →
      ((SemverRange.lte ⟨v.major.value, v.minor.value, v.patch.value, v.readPrerelease, vb⟩).matchesIgnoringPrereleaseRule
        u = true ↔ (u.cmp v.semver).isLT = true ∨ (v.readPrerelease = [] ∧ u.major = v.major.value ∧
          u.minor = v.minor.value ∧ u.patch = v.patch.value)) := fun u hu =>
    (isLE_of_release hu _).trans <| or_congr_left <| (isLT_of_release hu _).trans (isLT_of_release hu v.semver).symm
  rw [HyphenExact.congr_iff hlower hparse]
  simp only [hover, true_and]
  change _ ↔ (v.prerelease = [] → v.afterHyphen = []) ∨ (v.semver.cmp lo.lower).isLT = true
  constructor
  · intro h
    rw [or_iff_not_imp_right, isLT_iff_not_isGE, not_not]
    intro hge hpre
    have hrelease : v.semver.prerelease = [] := by simp [VersionText.semver, VersionText.prereleaseText, hpre]
    have hself : (v.semver.cmp v.semver).isLE = true :=
      (isLE_of_release hrelease _).mpr (.inr ⟨hrelease, rfl, rfl, rfl⟩)
    rcases (hreads v.semver hrelease).mp
        ((h v.semver hrelease ⟨v.major.fits, v.minor.fits, v.patch.fits⟩ hge).mpr hself) with hlt | ⟨hread, -⟩
    · rw [isLT_of_release hrelease] at hlt
      omega
    · rwa [VersionText.readPrerelease, if_pos hpre] at hread
  · intro h u hu _ hge
    change _ ↔ (u.cmp v.semver).isLE = true
    rw [hreads u hu, isLE_of_release hu]
    apply or_congr_right
    by_cases hpre : v.prerelease = []
    · have htext : v.semver.prerelease = [] := by simp [VersionText.semver, VersionText.prereleaseText, hpre]
      rcases h with h | hlt
      · rw [VersionText.readPrerelease, if_pos hpre, h hpre, htext]
        rfl
      · -- No release from the lower bound on has the numbers of the upper one.
        rw [isLT_of_release htext] at hlt
        rw [isGE_of_release hu] at hge
        simp only [VersionText.semver] at hlt ⊢
        constructor <;> rintro ⟨-, hmajor, hminor, hpatch⟩ <;> omega
    · rw [VersionText.readPrerelease, if_neg hpre]
      rfl

/-- A partial upper bound: no overflow, and the version read bounds the same releases as the one meant. -/
theorem hyphenExact_part_iff (lo : Bound) (w : PartialVersion) (trailing) (fits) :
    HyphenExact lo (.part w trailing fits) ↔ hyphenOverflows w.text = false ∧
      ∀ v : Semver, v.prerelease = [] → v.Fits → (v.cmp lo.lower).isGE = true →
        ((v.cmp (nextOf ((trimEndDot '*' (trimEndDot 'x' w.text)).count '.') w.filled)).isLT = true ↔
          (v.cmp (padded (Bound.bumpLast w.written))).isLT = true) := by
  obtain ⟨a, ha, hlower⟩ := parse_lower lo
  have hparse : SemverRange.parse (hyphenText lo (.part w trailing fits)) = _ :=
    (parse_hyphenText _ _).trans (parseHyphen_part trailing fits ha)
  generalize nextOf ((trimEndDot '*' (trimEndDot 'x' w.text)).count '.') w.filled = next at hparse ⊢
  exact HyphenExact.congr_iff hlower hparse

theorem hyphenExact_major (lo : Bound) {w : PartialVersion} (trailing) (fits) {M : Nat} (hw : w.written = [M]) :
    HyphenExact lo (.part w trailing fits) ↔
      if wildsTrimmed w.wilds then M < u32Max else ((Semver.release M u32Max u32Max).cmp lo.lower).isLT = true := by
  obtain ⟨hcount, hfilled⟩ := count_of_major trailing hw
  have hM : M ≤ u32Max := fits M (by simp [numbers_of_trailing trailing, hw])
  have hmeant : padded (Bound.bumpLast w.written) = .release (M + 1) 0 0 := by rw [hw]; rfl
  have hover := hyphenOverflows_part trailing fits
  rw [hyphenExact_part_iff, ← Bool.not_eq_true, hover, hmeant, hfilled, nextOf]
  simp only [hcount]
  split
  · simp only [Semver.release]
    constructor
    · rintro ⟨hne, -⟩
      omega
    · intro hlt
      refine ⟨by omega, fun v _ _ _ => ?_⟩
      rw [Nat.mod_eq_of_lt (by omega)]
  · -- The version read is `M.1.0`.
    have hread : Semver.release M ((0 + 1) % (u32Max + 1)) 0 = .release M 1 0 := rfl
    simp only [Semver.release] at hread ⊢
    rw [hread]
    constructor
    · rintro ⟨-, h⟩
      rw [isLT_iff_not_isGE]
      intro hge
      have hlast := h ⟨M, u32Max, u32Max, [], []⟩ rfl ⟨hM, Nat.le_refl _, Nat.le_refl _⟩ hge
      rw [isLT_of_release rfl, isLT_of_release rfl] at hlast
      simp only [u32Max] at hlast
      omega
    · intro hlast
      refine ⟨by simp [u32Max], fun v hv hfits hge => ?_⟩
      rw [isLT_of_release rfl] at hlast
      rw [isGE_of_release hv] at hge
      rw [isLT_of_release hv, isLT_of_release hv]
      obtain ⟨hmajor, hminor, hpatch⟩ := hfits
      dsimp only at hlast ⊢
      constructor <;> intro h <;> omega

theorem hyphenExact_minor (lo : Bound) {w : PartialVersion} (trailing) (fits) {M m : Nat} (hw : w.written = [M, m]) :
    HyphenExact lo (.part w trailing fits) ↔ m < u32Max := by
  obtain ⟨hcount, hfilled⟩ := count_of_minor trailing hw
  have hm : m ≤ u32Max := fits m (by simp [numbers_of_trailing trailing, hw])
  have hmeant : padded (Bound.bumpLast w.written) = .release M (m + 1) 0 := by rw [hw]; rfl
  have hover := hyphenOverflows_part trailing fits
  rw [if_neg hcount] at hover
  rw [hyphenExact_part_iff, ← Bool.not_eq_true, hover, hmeant, hfilled, nextOf, if_neg hcount]
  simp only [Semver.release]
  constructor
  · rintro ⟨hne, -⟩
    omega
  · intro hlt
    refine ⟨by omega, fun v _ _ _ => ?_⟩
    rw [Nat.mod_eq_of_lt (by omega)]

theorem hyphenExact_part (lo : Bound) (w : PartialVersion) (trailing) (fits) :
    HyphenExact lo (.part w trailing fits) ↔ HyphenFits lo (.part w trailing fits) := by
  rcases hw : w.written with - | ⟨M, - | ⟨m, - | ⟨p, ns⟩⟩⟩
  · cases w <;> cases hw
  · rw [hyphenExact_major lo trailing fits hw, HyphenFits, hw]
  · rw [hyphenExact_minor lo trailing fits hw, HyphenFits, hw]
    simp
  · cases w with
    | majorXPatch | full => cases trailing
    | _ => cases hw

end ThreeVa.Pm
