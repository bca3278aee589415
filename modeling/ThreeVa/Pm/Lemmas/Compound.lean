import ThreeVa.Pm.Semver

/-! Ranges of several components: how the text is cut and what the conjunction matches. -/

namespace ThreeVa.Pm.SemverRange
open Text

/-! ## Components -/

/-- The components of a compound range: its words, each bare operator with the word that follows. -/
def components (text : Str) : List Str := glue [] (splitWhitespace text)

theorem glue_words {op : Str} {ts : List Str} (hop : ∀ c ∈ op, isWhitespace c = false)
    (hts : ∀ t ∈ ts, t ≠ [] ∧ ∀ c ∈ t, isWhitespace c = false) :
    ∀ w ∈ glue op ts, w ≠ [] ∧ ∀ c ∈ w, isWhitespace c = false := by
  have happend : ∀ op t : Str, (∀ c ∈ op, isWhitespace c = false) → (∀ c ∈ t, isWhitespace c = false) →
      ∀ c ∈ op ++ t, isWhitespace c = false := by
    intro op t hop ht c hc
    rcases List.mem_append.mp hc with hc | hc
    · exact hop c hc
    · exact ht c hc
  fun_induction glue op ts with
  | case1 op => simp
  | case2 op t ts ht ih =>
      exact ih (happend op t hop (hts t (by simp)).2) fun t' ht' => hts t' (by simp [ht'])
  | case3 op t ts ht ih =>
      obtain ⟨hne, hclean⟩ := hts t (by simp)
      intro w hw
      rcases List.mem_cons.mp hw with rfl | hw
      · exact ⟨by simp [hne], happend op t hop hclean⟩
      · exact ih (by simp) (fun t' ht' => hts t' (by simp [ht'])) w hw

theorem glue_of_no_op {ts : List Str} (h : ts.any isOp = false) : glue [] ts = ts := by
  induction ts with
  | nil => rfl
  | cons t ts ih =>
      simp only [List.any_cons, Bool.or_eq_false_iff] at h
      simp [glue, h.1, ih h.2]

theorem components_words (text : Str) :
    ∀ w ∈ components text, w ≠ [] ∧ ∀ c ∈ w, isWhitespace c = false :=
  glue_words (by simp) fun _ ht => (mem_splitWhitespace ht).2

/-- The words after gluing are the components. -/
theorem splitWhitespace_glued (range : Str) : splitWhitespace (glued range) = components range := by
  unfold glued
  split
  · exact splitWhitespace_intercalate (components_words range)
  · rename_i h
    exact (glue_of_no_op (by simpa using h)).symm

theorem space_mem_intercalate {ws : List Str} (h : 2 ≤ ws.length) : ' ' ∈ [' '].intercalate ws := by
  match ws, h with
  | w :: v :: ws, _ => simp [List.intercalate_cons_cons]

theorem hyphen_word {range : Str} (h : [' ', '-', ' '] <:+: range) : ['-'] ∈ splitWhitespace range := by
  obtain ⟨a, b, rfl⟩ := h
  have hsplit : a ++ [' ', '-', ' '] ++ b = a ++ ' ' :: (['-'] ++ ' ' :: b) := by simp
  have hword : splitWhitespace ['-'] = [['-']] := splitWhitespace_word (by simp) (List.forall_mem_singleton.mpr rfl)
  rw [hsplit, splitWhitespace_append_cons _ _ (by decide), splitWhitespace_append_cons _ _ (by decide), hword]
  simp

/-- A list of two or more comparators, separated by white space with a space in it: no alternatives, no hyphen
range, and no operator left over at the end. -/
structure ComparatorList (text : Str) : Prop where
  spaced : ' ' ∈ trim text
  noAlternatives : ¬ ['|', '|'] <:+: text
  noHyphen : ['-'] ∉ splitWhitespace text
  complete : ∀ t ∈ (splitWhitespace text).getLast?, isOp t = false
  several : 2 ≤ (components text).length

theorem parse_comparatorList {text : Str} (h : ComparatorList text) :
    parse text = andLoop none ((components text).map parse) := by
  have hbars : ¬ ['|', '|'] <:+: trim text := fun hb => h.noAlternatives (hb.trans (isInfix_trim text))
  have hhyphen : splitOnceStr [' ', '-', ' '] (trim text) = none := by
    apply splitOnceStr_eq_none
    intro hsub
    exact h.noHyphen (splitWhitespace_trim text ▸ hyphen_word hsub)
  have hcomponents : components (trim text) = components text := by
    rw [components, splitWhitespace_trim, components]
  have htag : (trim text = ['*'] || (trim text).isEmpty || isDistTag (trim text)) = false := by
    have hspaced := h.spaced
    have hstar : trim text ≠ ['*'] := fun hs => by simp [hs] at hspaced
    have hdist : isDistTag (trim text) = false := by
      rw [isDistTag, Bool.and_eq_false_iff]
      right
      rw [List.all_eq_false]
      exact ⟨' ', hspaced, by decide⟩
    simp [hstar, hdist, List.ne_nil_of_mem hspaced]
  have hspace : ' ' ∈ glued (trim text) := by
    unfold glued
    split
    · apply space_mem_intercalate
      change 2 ≤ (components (trim text)).length
      rw [hcomponents]
      exact h.several
    · exact h.spaced
  rw [parse_eq, if_neg hbars, hhyphen]
  simp only [htag, Bool.false_eq_true, ↓reduceIte, if_pos hspace]
  rw [splitWhitespace_glued, hcomponents]

/-! ## What a conjunction matches -/

/-- On a release the prerelease rule says nothing. -/
theorem matches_release {v : Semver} (hv : v.prerelease = []) (r : SemverRange) :
    r.matches v = r.matchesIgnoringPrereleaseRule v := by
  have hrule : ∀ r : SemverRange, r.passesPrereleaseRule v = true := by simp [passesPrereleaseRule, hv]
  cases r with
  | or a b => simp [SemverRange.matches, matchesIgnoringPrereleaseRule]
  | _ => simp [SemverRange.matches, matchesIgnoringPrereleaseRule, hrule]

theorem andLoop_eq_none {result : Option SemverRange} {rs : List (Option SemverRange)} :
    andLoop result rs = none ↔ result = none ∧ ∀ r ∈ rs, r = none := by
  fun_induction andLoop result rs with
  | case1 result => simp
  | case2 result rest ih => simp [ih]
  | case3 result r rest ih => simp [ih]

theorem andLoop_matches {result : Option SemverRange} {rs : List (Option SemverRange)} {r : SemverRange}
    (h : andLoop result rs = some r) (v : Semver) :
    r.matchesIgnoringPrereleaseRule v = true ↔
      (∀ r' ∈ result, r'.matchesIgnoringPrereleaseRule v = true) ∧
        ∀ r', some r' ∈ rs → r'.matchesIgnoringPrereleaseRule v = true := by
  fun_induction andLoop result rs with
  | case1 result => simp [h]
  | case2 result rest ih => simpa using ih h
  | case3 result r' rest ih =>
      rw [ih h]
      cases result with
      | none => simp
      | some prev => simp [matchesIgnoringPrereleaseRule, and_assoc]

end ThreeVa.Pm.SemverRange
