import ThreeVa.Lib.Lines
import ThreeVa.Pm.Partial
import ThreeVa.Pm.Lemmas.Compound

/-! Partial versions through the parser, and the releases their ranges match. -/

namespace ThreeVa.Pm
open Text SemverRange

/-! ## A range of one word -/

theorem parse_word {s : Str} (hclean : ∀ c ∈ s, isWhitespace c = false) (hbar : '|' ∉ s) (hne : s ≠ [])
    (hstar : s ≠ ['*']) (htag : isDistTag s = false) (hop : isOp s = false) : parse s = parseComparator s := by
  have hbars : ¬ ['|', '|'] <:+: s := fun h => hbar (h.subset (by simp))
  have hspace : ' ' ∉ s := fun h => absurd (hclean ' ' h) (by decide)
  have hhyphen : splitOnceStr [' ', '-', ' '] s = none :=
    splitOnceStr_eq_none fun h => hspace (h.subset (by simp))
  have hglued : glued s = s := by simp [glued, splitWhitespace_word hne hclean, hop]
  rw [parse_eq, trim_of_clean hclean, if_neg hbars, hhyphen]
  simp [hstar, hne, htag, hglued, hspace]

/-! ## Numbers and dots -/

theorem decimal_ne_nil (n : Nat) : decimal n ≠ [] := Nat.toDigits_ne_nil

theorem not_mem_decimal {n : Nat} {c : Char} (hc : c.isDigit = false) : c ∉ decimal n := by
  intro h
  simp [decimal_isDigit h] at hc

theorem decimal_ne_singleton (n : Nat) {c : Char} (hc : c.isDigit = false) : decimal n ≠ [c] := by
  intro heq
  have := not_mem_decimal (n := n) hc
  simp [heq] at this

theorem parseU32_decimal {n : Nat} (h : n ≤ u32Max) : parseU32 (decimal n) = some n := parseUnsigned_decimal h

theorem parseU32_wild (w : Wild) : parseU32 w.text = none := by cases w <;> rfl

theorem trimEndDot_suffix (c : Char) (s : Str) : trimEndDot c (s ++ ['.', c]) = trimEndDot c s := by
  simp [trimEndDot, trimEndDotRev]

theorem trimEndDot_of_not_suffix {c : Char} {s : Str} (h : ¬ ['.', c] <:+ s) : trimEndDot c s = s := by
  rw [← List.reverse_prefix] at h
  unfold trimEndDot
  conv_rhs => rw [← List.reverse_reverse s]
  congr 1
  generalize s.reverse = t at h
  match t with
  | [] => rfl
  | [x] => rfl
  | x :: y :: t =>
      rw [trimEndDotRev, if_neg]
      intro hxy
      exact h (by simp [hxy.1, hxy.2])

/-- Trailing components that are the wildcard `c` go, the others stay. -/
theorem trimEndDot_join {c : Char} {d : Str} {ws : List Str} (hc : c ≠ '.') (hd : '.' ∉ d)
    (hws : ∀ w ∈ ws, '.' ∉ w) :
    trimEndDot c (['.'].intercalate (d :: ws)) = ['.'].intercalate (d :: ws.rdropWhile (· = [c])) := by
  induction ws using List.reverseRecOn with
  | nil =>
      rw [List.rdropWhile_nil, List.intercalate_singleton]
      apply trimEndDot_of_not_suffix
      intro h
      exact hd (h.subset (by simp))
  | append_singleton ws w ih =>
      rw [intercalate_concat]
      by_cases hw : w = [c]
      · subst hw
        rw [List.rdropWhile_concat_pos _ _ _ (by simp), trimEndDot_suffix]
        exact ih fun w hw => hws w (by simp [hw])
      · rw [List.rdropWhile_concat_neg _ _ _ (by simpa using hw), intercalate_concat]
        apply trimEndDot_of_not_suffix
        intro ⟨t, ht⟩
        -- The last dot of a text is in one place only.
        have hlast : rsplitOnce '.' (t ++ '.' :: [c]) = some (t, [c]) := rsplitOnce_append (by simpa using hc.symm)
        have hlast' : rsplitOnce '.' (['.'].intercalate (d :: ws) ++ '.' :: w) = some (_, w) :=
          rsplitOnce_append (hws w (by simp))
        rw [ht, hlast', Option.some.injEq, Prod.mk.injEq] at hlast
        exact hw hlast.2

/-! ## The version of a partial text -/

namespace PartialVersion

theorem parts_no_dot (w : PartialVersion) : ∀ part ∈ w.parts.2, '.' ∉ part := by
  have hwild : ∀ w : Wild, '.' ∉ w.text := by
    intro w
    cases w <;> simp [Wild.text]
  have hdecimal : ∀ n, '.' ∉ decimal n := fun n => not_mem_decimal (by decide)
  cases w <;> simp [parts, hwild, hdecimal]

theorem splitOn_join (M : Nat) {ws : List Str} (hws : ∀ w ∈ ws, '.' ∉ w) :
    (['.'].intercalate (decimal M :: ws)).splitOn '.' = decimal M :: ws := by
  apply List.splitOn_intercalate
  · intro l hl
    rcases List.mem_cons.mp hl with rfl | hl
    · exact not_mem_decimal (by decide)
    · exact hws l hl
  · simp

theorem text_chars {w : PartialVersion} {c : Char} (hc : c ∈ w.text) :
    c.isDigit = true ∨ c ∈ ['.', 'x', 'X', '*'] := by
  have hwild : ∀ w : Wild, ∀ c ∈ w.text, c ∈ ['.', 'x', 'X', '*'] := by
    intro w
    cases w <;> simp [Wild.text]
  rcases mem_intercalate hc with rfl | ⟨part, hpart, hcp⟩
  · simp
  · rcases List.mem_cons.mp hpart with rfl | hpart
    · exact .inl (decimal_isDigit hcp)
    · have hcases : (∃ n, part = decimal n) ∨ ∃ w : Wild, part = w.text := by
        cases w <;> simp only [parts, List.not_mem_nil, List.mem_cons, or_false] at hpart <;> grind
      rcases hcases with ⟨n, rfl⟩ | ⟨w, rfl⟩
      · exact .inl (decimal_isDigit hcp)
      · exact .inr (hwild w c hcp)

/-- The text starts with a digit. -/
theorem text_head (w : PartialVersion) : ∃ c t, w.text = c :: t ∧ c.isDigit = true := by
  obtain ⟨c, ds, hds⟩ := List.exists_cons_of_ne_nil (decimal_ne_nil w.parts.1)
  have hdigit : c.isDigit = true := decimal_isDigit (n := w.parts.1) (by simp [hds])
  cases hparts : w.parts.2 with
  | nil => exact ⟨c, ds, by simp [text, hparts, hds], hdigit⟩
  | cons v ws => exact ⟨c, _, by rw [text, hparts, List.intercalate_cons_cons, hds]; rfl, hdigit⟩

theorem digit_toNat {c : Char} (h : c.isDigit = true) : 48 ≤ c.toNat ∧ c.toNat ≤ 57 := by
  simp only [Char.isDigit, Bool.and_eq_true, decide_eq_true_eq] at h
  exact ⟨UInt32.le_iff_toNat_le.mp h.1, UInt32.le_iff_toNat_le.mp h.2⟩

theorem isWhitespace_of_isDigit {c : Char} (h : c.isDigit = true) : isWhitespace c = false := by
  have := digit_toNat h
  simp only [isWhitespace, Bool.or_eq_false_iff, Bool.and_eq_false_iff, decide_eq_false_iff_not]
  omega

theorem isAlpha_of_isDigit {c : Char} (h : c.isDigit = true) : c.isAlpha = false := by
  obtain ⟨hlo, hhi⟩ := digit_toNat h
  change (decide (65 ≤ c.toNat ∧ c.toNat ≤ 90) || decide (97 ≤ c.toNat) && decide (c.toNat ≤ 122)) = false
  simp only [Bool.or_eq_false_iff, Bool.and_eq_false_iff, decide_eq_false_iff_not]
  omega

theorem text_clean (w : PartialVersion) : ∀ c ∈ w.text, isWhitespace c = false ∧ c ≠ '|' ∧ c ≠ '-' := by
  have hlist : ∀ c ∈ ['.', 'x', 'X', '*'], isWhitespace c = false ∧ c ≠ '|' ∧ c ≠ '-' := by
    simp only [List.forall_mem_cons, List.not_mem_nil, false_imp_iff, implies_true, and_true]
    decide
  intro c hc
  rcases text_chars hc with hdigit | hmem
  · refine ⟨isWhitespace_of_isDigit hdigit, fun heq => ?_, fun heq => ?_⟩
    · simp [heq] at hdigit
    · simp [heq] at hdigit
  · exact hlist c hmem

/-- A range written with a partial version is one word that goes to the comparators. -/
theorem parse_operator_text (op : Operator) (w : PartialVersion) :
    SemverRange.parse (op.text ++ w.text) = parseComparator (op.text ++ w.text) := by
  have hop : ∀ c ∈ op.text, isWhitespace c = false ∧ c ≠ '|' := by
    cases op <;>
      simp only [Operator.text, List.forall_mem_cons, List.not_mem_nil, false_imp_iff, implies_true, and_true] <;> decide
  have hclean : ∀ c ∈ op.text ++ w.text, isWhitespace c = false ∧ c ≠ '|' := by
    intro c hc
    rcases List.mem_append.mp hc with hc | hc
    · exact hop c hc
    · exact ⟨(w.text_clean c hc).1, (w.text_clean c hc).2.1⟩
  obtain ⟨d, t, htext, hdigit⟩ := w.text_head
  have hmem : d ∈ op.text ++ w.text := by simp [htext]
  have hdigits : ∀ s : Str, (∀ c ∈ s, c.isDigit = false) → op.text ++ w.text ≠ s := by
    intro s hs heq
    simp [hs d (heq ▸ hmem)] at hdigit
  apply parse_word
  · exact fun c hc => (hclean c hc).1
  · exact fun hbar => (hclean _ hbar).2 rfl
  · exact hdigits [] (by simp)
  · exact hdigits ['*'] (by simp)
  · rw [isDistTag, Bool.and_eq_false_iff]
    right
    rw [List.all_eq_false]
    have hhyphen : d ≠ '-' := fun heq => by simp [heq] at hdigit
    exact ⟨d, hmem, by simp [isAlpha_of_isDigit hdigit, hhyphen]⟩
  · simp only [isOp, Bool.or_eq_false_iff, decide_eq_false_iff_not]
    refine ⟨⟨⟨⟨⟨⟨?_, ?_⟩, ?_⟩, ?_⟩, ?_⟩, ?_⟩, ?_⟩ <;> exact hdigits _ (by simp)

/-- What is left of the components once the trailing wildcards are trimmed. -/
def trimmed (ws : List Str) : List Str :=
  ((ws.rdropWhile (· = ['x'])).rdropWhile (· = ['X'])).rdropWhile (· = ['*'])

theorem parsePartial_join {M : Nat} (hM : M ≤ u32Max) {ws : List Str} (hws : ∀ w ∈ ws, '.' ∉ w) :
    parsePartial (['.'].intercalate (decimal M :: ws)) =
      some (.release M (((trimmed ws)[0]?.bind parseU32).getD 0) (((trimmed ws)[1]?.bind parseU32).getD 0)) := by
  have hd : '.' ∉ decimal M := not_mem_decimal (by decide)
  have hdrop : ∀ (c : Char) (ws : List Str), (∀ w ∈ ws, '.' ∉ w) → ∀ w ∈ ws.rdropWhile (· = [c]), '.' ∉ w :=
    fun c ws h w hw => h w ((List.rdropWhile_prefix _ _).subset hw)
  unfold parsePartial
  rw [trimEndDot_join (by decide) hd hws, trimEndDot_join (by decide) hd (hdrop 'x' ws hws),
    trimEndDot_join (by decide) hd (hdrop 'X' _ (hdrop 'x' ws hws))]
  dsimp only
  rw [splitOn_join M (hdrop '*' _ (hdrop 'X' _ (hdrop 'x' ws hws)))]
  simp [parseU32_decimal hM, trimmed]

/-- The version a partial text is filled up to. -/
def filled : PartialVersion → Semver
  | major M | majorX M _ | majorXX M _ _ => .release M 0 0
  | majorXPatch M _ p => .release M 0 p
  | minor M m | minorX M m _ => .release M m 0
  | full M m p => .release M m p

theorem splitOn_plus {s : Str} (h : '+' ∉ s) : (s.splitOn '+').head? = some s := by
  rw [List.splitOn_eq_singleton h]
  rfl

theorem semverParse_text (w : PartialVersion) (hfits : ∀ n ∈ w.numbers, n ≤ u32Max) :
    Semver.parse w.text = match w with
      | full M m p => some (.release M m p)
      | _ => none := by
  have hhyphen : splitOnce '-' w.text = none :=
    splitOnce_eq_none.mpr fun h => (w.text_clean _ h).2.2 rfl
  have hsplit : w.text.splitOn '.' = decimal w.parts.1 :: w.parts.2 := splitOn_join _ w.parts_no_dot
  have hplus : ∀ n, '+' ∉ decimal n := fun n => not_mem_decimal (by decide)
  unfold Semver.parse
  rw [trim_of_clean fun c hc => (w.text_clean c hc).1]
  simp only [hhyphen, hsplit]
  cases w with
  | major M => rfl
  | majorX M u => rfl
  | majorXX M u u' => simp [parts, parseU32_wild]
  | majorXPatch M u p => simp [parts, parseU32_wild]
  | minor M m => rfl
  | minorX M m u =>
      have hwild : (u.text.splitOn '+').head? = some u.text := by cases u <;> decide
      simp [parts, hwild, parseU32_wild]
  | full M m p =>
      simp only [numbers, written, List.mem_cons, List.not_mem_nil, or_false, forall_eq_or_imp, forall_eq] at hfits
      simp [parts, splitOn_plus (hplus p), parseU32_decimal hfits.1, parseU32_decimal hfits.2.1,
        parseU32_decimal hfits.2.2, Semver.parsePrereleaseBuild, Semver.release]

/-- A number at the end stops the trimming. -/
theorem rdropWhile_decimal (ws : List Str) (n : Nat) {c : Char} (hc : c.isDigit = false) :
    (ws ++ [decimal n]).rdropWhile (· = [c]) = ws ++ [decimal n] := by
  apply List.rdropWhile_concat_neg
  simpa using decimal_ne_singleton n hc

theorem trimmed_decimal (ws : List Str) (n : Nat) : trimmed (ws ++ [decimal n]) = ws ++ [decimal n] := by
  rw [trimmed, rdropWhile_decimal ws n (by decide), rdropWhile_decimal ws n (by decide),
    rdropWhile_decimal ws n (by decide)]

theorem trimmed_decimal_wild (n : Nat) (u : Wild) : trimmed [decimal n, u.text] = [decimal n] := by
  have hnumber : ∀ c : Char, c.isDigit = false → [decimal n].rdropWhile (· = [c]) = [decimal n] :=
    fun c hc => rdropWhile_decimal [] n hc
  have hdrop : ∀ c : Char, u.text = [c] →
      [decimal n, u.text].rdropWhile (· = [c]) = [decimal n].rdropWhile (· = [c]) :=
    fun c hc => List.rdropWhile_concat_pos _ [decimal n] _ (by simp [hc])
  have hkeep : ∀ c : Char, u.text ≠ [c] → [decimal n, u.text].rdropWhile (· = [c]) = [decimal n, u.text] :=
    fun c hc => List.rdropWhile_concat_neg _ [decimal n] _ (by simpa using hc)
  unfold trimmed
  cases u with
  | x => rw [hdrop 'x' rfl, hnumber 'x' (by decide), hnumber 'X' (by decide), hnumber '*' (by decide)]
  | upperX => rw [hkeep 'x' (by decide), hdrop 'X' rfl, hnumber 'X' (by decide), hnumber '*' (by decide)]
  | star => rw [hkeep 'x' (by decide), hkeep 'X' (by decide), hdrop '*' rfl, hnumber '*' (by decide)]

theorem parseFullOrPartial_text (w : PartialVersion) (hfits : ∀ n ∈ w.numbers, n ≤ u32Max) :
    parseFullOrPartial w.text = some w.filled := by
  have hM : w.parts.1 ≤ u32Max := hfits _ (by cases w <;> simp [parts, numbers, written])
  rw [parseFullOrPartial, semverParse_text w hfits]
  have hpart := parsePartial_join hM w.parts_no_dot
  change parsePartial w.text = _ at hpart
  cases w with
  | full M m p => rfl
  | major M =>
      simp only [Option.none_or, hpart]
      rfl
  | majorX M u =>
      simp only [Option.none_or, hpart]
      cases u <;> rfl
  | majorXX M u u' =>
      simp only [Option.none_or, hpart]
      cases u <;> cases u' <;> rfl
  | majorXPatch M u p =>
      have hp : p ≤ u32Max := hfits p (by simp [numbers])
      have htrimmed := trimmed_decimal [u.text] p
      simp only [Option.none_or, hpart, parts]
      simp only [List.singleton_append] at htrimmed
      simp [htrimmed, parseU32_wild, parseU32_decimal hp, filled]
  | minor M m =>
      have hm : m ≤ u32Max := hfits m (by simp [numbers, written])
      have htrimmed := trimmed_decimal [] m
      simp only [Option.none_or, hpart, parts]
      simp only [List.nil_append] at htrimmed
      simp [htrimmed, parseU32_decimal hm, filled]
  | minorX M m u =>
      have hm : m ≤ u32Max := hfits m (by simp [numbers, written])
      simp only [Option.none_or, hpart, parts]
      simp [trimmed_decimal_wild, parseU32_decimal hm, filled]

/-- An x-range is a caret range of its first number, or a tilde range of the first two. -/
theorem parseXRange_text (w : PartialVersion) (hfits : ∀ n ∈ w.numbers, n ≤ u32Max) (hpart : w.written.length < 3) :
    parseXRange w.text = some (match w.written with
      | [M] => .caret (.release M 0 0)
      | ns => .tilde (padded ns)) := by
  have hsplit : w.text.splitOn '.' = decimal w.parts.1 :: w.parts.2 := splitOn_join _ w.parts_no_dot
  have hwild : ∀ u : Wild, isWild u.text = true := by
    intro u
    cases u <;> decide
  have hnumber : ∀ n, isWild (decimal n) = false := by
    intro n
    simp only [isWild, Bool.or_eq_false_iff, decide_eq_false_iff_not]
    refine ⟨⟨?_, ?_⟩, ?_⟩ <;> exact decimal_ne_singleton n (by decide)
  unfold parseXRange
  rw [hsplit]
  cases w with
  | full M m p => simp [written] at hpart
  | _ => simp_all [parts, written, numbers, parseU32_decimal, padded]

end PartialVersion

/-! ## Releases in an interval -/

section Release

variable {v : Semver} (hv : v.prerelease = []) (M m p : Nat)
include hv

theorem cmp_release : v.cmp (.release M m p) =
    ((compare v.major M).then (compare v.minor m)).then (compare v.patch p) := by
  unfold Semver.cmp Semver.release
  cases compare v.major M <;> cases compare v.minor m <;> cases compare v.patch p <;> simp [hv]

theorem lt_release : v.cmp (.release M m p) = .lt ↔
    v.major < M ∨ v.major = M ∧ (v.minor < m ∨ v.minor = m ∧ v.patch < p) := by
  rw [cmp_release hv]
  simp only [Ordering.then_eq_lt, Ordering.then_eq_eq, Nat.compare_eq_lt, Nat.compare_eq_eq]
  omega

theorem isLT_release : (v.cmp (.release M m p)).isLT = true ↔
    v.major < M ∨ v.major = M ∧ (v.minor < m ∨ v.minor = m ∧ v.patch < p) := by
  rw [Ordering.isLT_iff_eq_lt, lt_release hv]

theorem isGE_release : (v.cmp (.release M m p)).isGE = true ↔
    M < v.major ∨ M = v.major ∧ (m < v.minor ∨ m = v.minor ∧ p ≤ v.patch) := by
  rw [Ordering.isGE_iff_ne_lt, lt_release hv]
  omega

theorem caret_matches : (SemverRange.caret (.release M m p)).matches v = true ↔
    v.major = M ∧ (M ≠ 0 ∨ v.minor = m ∧ (m ≠ 0 ∨ v.patch = p)) ∧
      (m < v.minor ∨ m = v.minor ∧ p ≤ v.patch) := by
  rw [matches_release hv]
  simp only [matchesIgnoringPrereleaseRule, matchesComparator]
  change (if M ≠ 0 then _ else if m ≠ 0 then _ else _) = true ↔ _
  split
  · rw [Bool.and_eq_true, decide_eq_true_eq, isGE_release hv]
    change v.major = M ∧ _ ↔ _
    omega
  · split
    · rw [Bool.and_eq_true, Bool.and_eq_true, decide_eq_true_eq, decide_eq_true_eq, isGE_release hv]
      change (v.major = 0 ∧ v.minor = m) ∧ _ ↔ _
      omega
    · simp only [Bool.and_eq_true, decide_eq_true_eq]
      change (v.major = 0 ∧ v.minor = 0) ∧ v.patch = p ↔ _
      omega

theorem tilde_matches : (SemverRange.tilde (.release M m p)).matches v = true ↔
    v.major = M ∧ v.minor = m ∧ p ≤ v.patch := by
  rw [matches_release hv]
  simp only [matchesIgnoringPrereleaseRule, matchesComparator]
  rw [Bool.and_eq_true, Bool.and_eq_true, decide_eq_true_eq, decide_eq_true_eq, isGE_release hv]
  change (v.major = M ∧ v.minor = m) ∧ _ ↔ _
  omega

end Release

/-! ## The range of a partial version -/

/-- What the parser makes of an operator and a partial version. -/
def rangeOf : Operator → PartialVersion → SemverRange
  | .caret, w => .caret w.filled
  | .tilde, w => .tilde w.filled
  | .xRange, w =>
      match w.written with
      | [M] => .caret (.release M 0 0)
      | ns => .tilde (padded ns)

theorem parse_rangeOf (op : Operator) (w : PartialVersion) (hfits : ∀ n ∈ w.numbers, n ≤ u32Max)
    (hpart : op = .xRange → w.written.length < 3) :
    SemverRange.parse (op.text ++ w.text) = some (rangeOf op w) := by
  rw [w.parse_operator_text op]
  cases op with
  | caret => simp [Operator.text, parseComparator, w.parseFullOrPartial_text hfits, rangeOf]
  | tilde => simp [Operator.text, parseComparator, w.parseFullOrPartial_text hfits, rangeOf]
  | xRange =>
      obtain ⟨c, t, htext, hdigit⟩ := w.text_head
      have hstrip : ∀ (op : Char) (rest : Str), op.isDigit = false → stripPrefix (op :: rest) w.text = none := by
        intro op rest hop
        rw [htext, stripPrefix, if_neg]
        intro hprefix
        rw [(List.cons_prefix_cons.mp hprefix).1, hdigit] at hop
        cases hop
      have hx := w.parseXRange_text hfits (hpart rfl)
      simp only [Operator.text, List.nil_append, parseComparator]
      rw [hstrip '^' [] (by decide), hstrip '~' [] (by decide), hstrip '>' ['='] (by decide),
        hstrip '>' [] (by decide), hstrip '<' ['='] (by decide), hstrip '<' [] (by decide),
        hstrip '=' [] (by decide), hx]
      rfl

/-! ## Where the filled version keeps the meaning -/

theorem between_release {v : Semver} (hv : v.prerelease = []) (M m p M' m' p' : Nat) :
    Between (.release M m p) (.release M' m' p') v ↔
      (M < v.major ∨ M = v.major ∧ (m < v.minor ∨ m = v.minor ∧ p ≤ v.patch)) ∧
        (v.major < M' ∨ v.major = M' ∧ (v.minor < m' ∨ v.minor = m' ∧ v.patch < p')) := by
  rw [Between, isGE_release hv, isLT_release hv]

theorem padded_bumpCaret_pair (M m : Nat) :
    padded (bumpCaret [M, m]) = if M = 0 then .release M (m + 1) 0 else .release (M + 1) 0 0 := by
  by_cases hM : M = 0 <;> simp [bumpCaret, hM, padded]

theorem padded_bumpCaret_triple (M m p : Nat) :
    padded (bumpCaret [M, m, p]) =
      if M = 0 then if m = 0 then .release M m (p + 1) else .release M (m + 1) 0 else .release (M + 1) 0 0 := by
  by_cases hM : M = 0 <;> by_cases hm : m = 0 <;> simp [bumpCaret, hM, hm, padded]

theorem caret_denotes (M m p : Nat) :
    Denotes (.caret (.release M m p)) (.release M m p) (padded (bumpCaret [M, m, p])) := by
  intro v hv
  rw [caret_matches hv, padded_bumpCaret_triple]
  split
  · split
    · rw [between_release hv]
      omega
    · rw [between_release hv]
      omega
  · rw [between_release hv]
    omega

theorem tilde_denotes (M m p : Nat) :
    Denotes (.tilde (.release M m p)) (.release M m p) (.release M (m + 1) 0) := by
  intro v hv
  rw [tilde_matches hv, between_release hv]
  omega

/-- A caret range with one number written: the zeros filled in are taken as written. -/
theorem caret_major_denotes_iff (M p : Nat) :
    Denotes (.caret (.release M 0 p)) (.release M 0 0) (.release (M + 1) 0 0) ↔ M ≠ 0 ∧ p = 0 := by
  refine ⟨fun h => ?_, fun ⟨hM, hp⟩ v hv => ?_⟩
  · have h₀ := h (.release M 0 0) rfl
    have h₁ := h (.release M 1 0) rfl
    rw [caret_matches rfl, between_release rfl] at h₀ h₁
    dsimp only [Semver.release] at h₀ h₁
    omega
  · rw [caret_matches hv, between_release hv]
    omega

theorem caret_minor_denotes_iff (M m : Nat) :
    Denotes (.caret (.release M m 0)) (.release M m 0) (padded (bumpCaret [M, m])) ↔ M ≠ 0 ∨ m ≠ 0 := by
  rw [padded_bumpCaret_pair]
  refine ⟨fun h => ?_, fun hne v hv => ?_⟩
  · by_contra hzero
    obtain ⟨rfl, rfl⟩ : M = 0 ∧ m = 0 := by omega
    have h₁ := h (.release 0 0 1) rfl
    rw [if_pos rfl, caret_matches rfl, between_release rfl] at h₁
    dsimp only [Semver.release] at h₁
    omega
  · rw [caret_matches hv]
    split
    · rw [between_release hv]
      omega
    · rw [between_release hv]
      omega

/-- A tilde range with one number written takes the zero filled in for the second number. -/
theorem tilde_major_not_denotes (M p : Nat) :
    ¬ Denotes (.tilde (.release M 0 p)) (.release M 0 0) (.release (M + 1) 0 0) := by
  intro h
  have h₁ := h (.release M 1 0) rfl
  rw [tilde_matches rfl, between_release rfl] at h₁
  dsimp only [Semver.release] at h₁
  omega

theorem rangeOf_denotes_iff (op : Operator) (w : PartialVersion) (hpart : op = .xRange → w.written.length < 3) :
    Denotes (rangeOf op w) (padded w.written) (op.next w.written) ↔ keepsMeaning op w = true := by
  cases op with
  | caret =>
      cases w with
      | major M | majorX M _ | majorXX M _ _ =>
          apply (caret_major_denotes_iff M 0).trans ?_
          simp [keepsMeaning, PartialVersion.written]
      | majorXPatch M u p =>
          apply (caret_major_denotes_iff M p).trans ?_
          simp [keepsMeaning]
      | minor M m | minorX M m _ =>
          apply (caret_minor_denotes_iff M m).trans ?_
          simp [keepsMeaning, PartialVersion.written]
      | full M m p => exact iff_of_true (caret_denotes M m p) rfl
  | tilde =>
      cases w with
      | major M | majorX M _ | majorXX M _ _ =>
          exact iff_of_false (tilde_major_not_denotes M 0) Bool.false_ne_true
      | majorXPatch M u p => exact iff_of_false (tilde_major_not_denotes M p) Bool.false_ne_true
      | minor M m | minorX M m _ => exact iff_of_true (tilde_denotes M m 0) rfl
      | full M m p => exact iff_of_true (tilde_denotes M m p) rfl
  | xRange =>
      cases w with
      | major M | majorX M _ | majorXX M _ _ | majorXPatch M _ _ =>
          apply (caret_major_denotes_iff M 0).trans ?_
          simp [keepsMeaning, PartialVersion.written]
      | minor M m | minorX M m _ => exact iff_of_true (tilde_denotes M m 0) rfl
      | full M m p => exact absurd (hpart rfl) (by simp [PartialVersion.written])

end ThreeVa.Pm
