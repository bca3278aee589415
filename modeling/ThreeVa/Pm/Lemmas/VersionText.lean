import ThreeVa.Lib.Trim
import ThreeVa.Pm.Lemmas.Order
import ThreeVa.Pm.Lemmas.Partial
import ThreeVa.Pm.VersionText

/-! How `Semver::parse` reads a version, and where its order is the precedence. -/

namespace ThreeVa.Pm
open Text

/-! ## Digits -/

theorem parseU32_number (n : Number) : parseU32 n.text = some n.value := by
  rw [parseU32, parseUnsigned_of_head n.ne (not_mem_digits n.digits (by decide)), digitsValue_ten n.digits]
  simpa [Option.filter, Number.value, numeral] using n.fits

namespace Identifier

theorem not_mem_text (x : Identifier) {c : Char} (hc : isIdentifierChar c = false) : c ∉ x.text := by
  intro hmem
  rw [x.chars c hmem] at hc
  cases hc

theorem parseUnsigned_text (x : Identifier) : parseUnsigned 10 u64Max x.text = x.number.filter (· ≤ u64Max) := by
  rw [parseUnsigned_of_head x.ne (x.not_mem_text (by decide)), number]
  cases h : x.text.all Char.isDigit with
  | true => rw [digitsValue_ten (List.all_eq_true.mp h)]; rfl
  | false => rw [digitsValue_eq_none h]; rfl

theorem parseUnsigned_of_fits {x : Identifier} (h : x.Fits) : parseUnsigned 10 u64Max x.text = x.number := by
  rw [x.parseUnsigned_text]
  cases hn : x.number with
  | none => rfl
  | some n => simpa [Option.filter] using h n hn

theorem cmpIdentifier_of_fits {x y : Identifier} (hx : x.Fits) (hy : y.Fits) :
    Semver.cmpIdentifier x.text y.text = x.precedence y := by
  rw [Semver.cmpIdentifier, parseUnsigned_of_fits hx, parseUnsigned_of_fits hy]
  rfl

theorem precedence_self (x : Identifier) : x.precedence x = .eq := by
  unfold precedence
  split <;> simp_all

end Identifier

/-! ## Reading a version -/

theorem head?_splitOn (c : Char) (s : Str) : (s.splitOn c).head? = some (s.takeWhile fun x => x ≠ c) := by
  rw [List.splitOn_eq_splitOnP]
  rcases splitOnP_cases (p := (· == c)) s with ⟨hall, hs⟩ | ⟨w, sep, rest, rfl, hw, hsep, hs⟩
  · rw [hs, List.head?_cons, List.takeWhile_eq_self_iff.mpr fun x hx => by simpa using hall x hx]
  · have hstop : decide (sep ≠ c) = false := by simpa using hsep
    rw [hs, List.head?_cons, List.takeWhile_append_of_pos fun x hx => by simpa using hw x hx,
      List.takeWhile_cons, hstop]
    simp

/-- A tail that the parser drops after the patch: nothing, or a `+` and more. -/
def Dropped (tail : Str) : Prop := tail = [] ∨ ∃ rest, tail = '+' :: rest

theorem takeWhile_dropped {s tail : Str} (h : Dropped tail) (hs : '+' ∉ s) :
    (s ++ tail).takeWhile (fun c => c ≠ '+') = s := by
  rw [List.takeWhile_append_of_pos fun c hc => by simpa using fun heq : c = '+' => hs (heq ▸ hc)]
  obtain rfl | ⟨rest, rfl⟩ := h
  · simp
  · simp

theorem Dropped.before {s before rest : Str} (h : Dropped s) (hs : s = before ++ '-' :: rest) : Dropped before := by
  obtain rfl | ⟨t, rfl⟩ := h
  · simp at hs
  · cases before with
    | nil => simp at hs
    | cons c before => exact .inr ⟨before, by rw [(List.cons.inj hs).1]⟩

namespace VersionText

variable (v : VersionText)

theorem core_not_mem {c : Char} (hc : c.isDigit = false) (hdot : c ≠ '.') : c ∉ v.core := by
  simp [core, not_mem_digits v.major.digits hc, not_mem_digits v.minor.digits hc, not_mem_digits v.patch.digits hc, hdot]

/-- The three numbers of a main part, whatever is dropped after them. -/
theorem splitOn_core {tail : Str} (h : Dropped tail) : ∃ patch more,
    (v.core ++ tail).splitOn '.' = v.major.text :: v.minor.text :: patch :: more ∧
      (patch.splitOn '+').head? = some v.patch.text := by
  have hdot : ∀ n : Number, '.' ∉ n.text := fun n => not_mem_digits n.digits (by decide)
  have hplus : '+' ∉ v.patch.text := not_mem_digits v.patch.digits (by decide)
  have hsplit : (v.core ++ tail).splitOn '.' = v.major.text :: v.minor.text :: (v.patch.text ++ tail).splitOn '.' := by
    rw [core, List.append_assoc, List.cons_append, List.append_assoc, List.cons_append,
      List.splitOn_append_cons_self_of_not_mem (hdot v.major), List.splitOn_append_cons_self_of_not_mem (hdot v.minor)]
  obtain ⟨patch, more, hpatch⟩ := List.exists_cons_of_ne_nil (List.splitOn_ne_nil '.' (v.patch.text ++ tail))
  refine ⟨patch, more, by rw [hsplit, hpatch], ?_⟩
  have hhead := head?_splitOn '.' (v.patch.text ++ tail)
  rw [hpatch, List.head?_cons, Option.some.injEq,
    List.takeWhile_append_of_pos fun c hc => by simpa using fun heq : c = '.' => hdot v.patch (heq ▸ hc)] at hhead
  rw [head?_splitOn, hhead, takeWhile_dropped _ hplus]
  obtain rfl | ⟨rest, rfl⟩ := h
  · exact .inl rfl
  · exact .inr ⟨rest.takeWhile fun c => c ≠ '.', by simp⟩

/-- The version read from a trimmed text with a `-`. -/
theorem parse_of_hyphen {s pb tail : Str} (h : Dropped tail)
    (hsplit : splitOnce '-' (trim s) = some (v.core ++ tail, pb)) :
    ∃ build, Semver.parse s =
      some ⟨v.major.value, v.minor.value, v.patch.value, pb.takeWhile (fun c => c ≠ '+'), build⟩ := by
  obtain ⟨patch, more, hcore, hpatch⟩ := v.splitOn_core h
  have hpre : (Semver.parsePrereleaseBuild (some pb)).1 = pb.takeWhile fun c => c ≠ '+' := by
    have hhead := head?_splitOn '+' pb
    rw [List.head?_eq_getElem?] at hhead
    simp only [Semver.parsePrereleaseBuild, hhead, Option.getD_some]
  refine ⟨(Semver.parsePrereleaseBuild (some pb)).2, ?_⟩
  unfold Semver.parse
  simp only [hsplit, hcore, hpatch, parseU32_number, Option.bind_eq_bind, Option.bind_some, hpre]

/-- The version read from one without. -/
theorem parse_of_no_hyphen {s tail : Str} (h : Dropped tail) (hsplit : splitOnce '-' (trim s) = none)
    (htrim : trim s = v.core ++ tail) :
    Semver.parse s = some ⟨v.major.value, v.minor.value, v.patch.value, [], []⟩ := by
  obtain ⟨patch, more, hcore, hpatch⟩ := v.splitOn_core h
  unfold Semver.parse
  rw [htrim] at hsplit ⊢
  simp only [hsplit, hcore, hpatch, parseU32_number, Option.bind_eq_bind, Option.bind_some]
  rfl

/-! ## Trimming -/

theorem isWhitespace_of_isIdentifierChar {c : Char} (h : isIdentifierChar c = true) : isWhitespace c = false := by
  rw [isIdentifierChar, Bool.or_eq_true, decide_eq_true_eq] at h
  obtain h | rfl := h
  · exact isWhitespace_of_printable (isAlphanum_printable h)
  · rfl

theorem isIdentifierChar_of_isDigit {c : Char} (h : c.isDigit = true) : isIdentifierChar c = true := by
  simp [isIdentifierChar, Char.isAlphanum, h]

theorem mem_core {c : Char} (h : c ∈ v.core) : isIdentifierChar c = true ∨ c = '.' := by
  simp only [core, List.mem_append, List.mem_cons] at h
  rcases h with h | rfl | h | rfl | h
  · exact .inl (isIdentifierChar_of_isDigit (v.major.digits c h))
  · exact .inr rfl
  · exact .inl (isIdentifierChar_of_isDigit (v.minor.digits c h))
  · exact .inr rfl
  · exact .inl (isIdentifierChar_of_isDigit (v.patch.digits c h))

theorem mem_prereleaseText {c : Char} (h : c ∈ v.prereleaseText) : isIdentifierChar c = true ∨ c = '.' := by
  obtain rfl | ⟨w, hw, hc⟩ := mem_intercalate h
  · exact .inr rfl
  · obtain ⟨x, -, rfl⟩ := List.mem_map.mp hw
    exact .inl (x.chars c hc)

/-- What stands before the build. -/
def front : Str := v.core ++ if v.prerelease = [] then [] else '-' :: v.prereleaseText

theorem text_eq : v.text = v.front ++ v.buildText := by
  rw [text, front]
  split <;> simp

theorem front_clean : ∀ c ∈ v.front, isWhitespace c = false ∧ c ≠ '|' ∧ c ≠ '+' := by
  have hclean : ∀ c, isIdentifierChar c = true ∨ c = '.' → isWhitespace c = false ∧ c ≠ '|' ∧ c ≠ '+' := by
    rintro c (h | rfl)
    · refine ⟨isWhitespace_of_isIdentifierChar h, ?_, ?_⟩ <;> rintro rfl <;> cases h
    · decide
  intro c hc
  rw [front, List.mem_append] at hc
  rcases hc with hc | hc
  · exact hclean c (v.mem_core hc)
  · split at hc
    · cases hc
    · rcases List.mem_cons.mp hc with rfl | hc
      · decide
      · exact hclean c (v.mem_prereleaseText hc)

theorem front_ne_nil : v.front ≠ [] := by simp [front, core, v.major.ne]

/-- The build without the white space at its end. -/
def trimmedBuild : Str := v.build.elim [] fun b => '+' :: b.rdropWhile isWhitespace

theorem trim_text : trim v.text = v.front ++ v.trimmedBuild := by
  have hstart : ∀ rest, (v.front ++ rest).dropWhile isWhitespace = v.front ++ rest := by
    intro rest
    apply dropWhile_of_first
    rw [List.head?_append_of_ne_nil _ v.front_ne_nil]
    exact fun c hc => (v.front_clean c (List.mem_of_head? hc)).1
  rw [v.text_eq, trimmedBuild, buildText]
  cases v.build with
  | none => simpa using trim_of_clean fun c hc => (v.front_clean c hc).1
  | some b =>
      rw [trim, hstart]
      exact rdropWhile_append_cons _ _ rfl

/-- The text after the first `-` of the build, whether its `+` is counted or not. -/
theorem afterHyphen_eq : v.afterHyphen = match splitOnce '-' v.trimmedBuild with
    | some (_, rest) => rest.takeWhile fun c => c ≠ '+'
    | none => [] := by
  rw [afterHyphen, trimmedBuild]
  cases v.build with
  | none => rfl
  | some b =>
      rw [Option.bind_some, Option.elim_some, splitOnce, if_neg (by decide)]
      cases splitOnce '-' (b.rdropWhile isWhitespace) <;> rfl

/-! ## What is read -/

/-- The prerelease the parser reads. -/
def readPrerelease : Str := if v.prerelease = [] then v.afterHyphen else v.prereleaseText

theorem parse_text : ∃ build, Semver.parse v.text =
    some ⟨v.major.value, v.minor.value, v.patch.value, v.readPrerelease, build⟩ := by
  have hhyphen : '-' ∉ v.core := v.core_not_mem (by decide) (by decide)
  have htrim := v.trim_text
  have hdropped : Dropped v.trimmedBuild := by
    rw [trimmedBuild]
    cases v.build with
    | none => exact .inl rfl
    | some b => exact .inr ⟨_, rfl⟩
  by_cases hpre : v.prerelease = []
  · rw [front, if_pos hpre, List.append_nil] at htrim
    have hread : v.readPrerelease = v.afterHyphen := if_pos hpre
    cases hsplit : splitOnce '-' v.trimmedBuild with
    | none =>
        rw [hread, v.afterHyphen_eq, hsplit]
        refine ⟨[], v.parse_of_no_hyphen hdropped ?_ htrim⟩
        rw [htrim]
        exact splitOnce_eq_none.mpr (by simp [hhyphen, splitOnce_eq_none.mp hsplit])
    | some r =>
        obtain ⟨before, rest⟩ := r
        obtain ⟨htail, hbefore⟩ := splitOnce_eq_some.mp hsplit
        rw [hread, v.afterHyphen_eq, hsplit]
        refine v.parse_of_hyphen (hdropped.before htail) ?_
        rw [htrim, htail]
        exact splitOnce_eq_some.mpr ⟨by simp, by simp [hhyphen, hbefore]⟩
  · have hplus : '+' ∉ v.prereleaseText := fun h => by
      rcases v.mem_prereleaseText h with h | h <;> cases h
    have hsplit : splitOnce '-' (trim v.text) = some (v.core ++ [], v.prereleaseText ++ v.trimmedBuild) := by
      rw [htrim, front, if_neg hpre]
      exact splitOnce_eq_some.mpr ⟨by simp, by simpa using hhyphen⟩
    have hread : (v.prereleaseText ++ v.trimmedBuild).takeWhile (fun c => c ≠ '+') = v.readPrerelease := by
      rw [takeWhile_dropped hdropped hplus, readPrerelease, if_neg hpre]
    obtain ⟨build, hparse⟩ := v.parse_of_hyphen (.inl rfl) hsplit
    exact ⟨build, by rw [hparse, hread]⟩

/-! ## Comparing -/

theorem prereleaseText_splitOn (h : v.prerelease ≠ []) :
    v.prereleaseText.splitOn '.' = v.prerelease.map Identifier.text := by
  apply List.splitOn_intercalate
  · intro l hl
    obtain ⟨x, -, rfl⟩ := List.mem_map.mp hl
    exact x.not_mem_text (by decide)
  · simpa using h

theorem prereleaseText_ne_nil (h : v.prerelease ≠ []) : v.prereleaseText ≠ [] := by
  obtain ⟨x, xs, hxs⟩ := List.exists_cons_of_ne_nil h
  rw [prereleaseText, hxs]
  cases xs with
  | nil => simpa using x.ne
  | cons y ys => simp [List.intercalate_cons_cons, x.ne]

theorem compareLex_texts {xs ys : List Identifier} (hx : ∀ x ∈ xs, x.Fits) (hy : ∀ y ∈ ys, y.Fits) :
    List.compareLex Semver.cmpIdentifier (xs.map Identifier.text) (ys.map Identifier.text) =
      List.compareLex Identifier.precedence xs ys := by
  induction xs generalizing ys with
  | nil => cases ys <;> rfl
  | cons x xs ih =>
      cases ys with
      | nil => rfl
      | cons y ys =>
          rw [List.forall_mem_cons] at hx hy
          rw [List.map_cons, List.map_cons, List.compareLex_cons_cons, List.compareLex_cons_cons,
            Identifier.cmpIdentifier_of_fits hx.1 hy.1, ih hx.2 hy.2]

/-- Two versions with the same numbers are ordered by their prereleases. -/
def cmpRead (p q : Str) : Ordering :=
  match p.isEmpty, q.isEmpty with
  | true, false => .gt
  | false, true => .lt
  | true, true => .eq
  | false, false => Semver.cmpPrerelease p q

theorem cmp_then (a b : Semver) : a.cmp b =
    (((compare a.major b.major).then (compare a.minor b.minor)).then (compare a.patch b.patch)).then
      (cmpRead a.prerelease b.prerelease) := by
  unfold Semver.cmp
  cases compare a.major b.major <;> try rfl
  cases compare a.minor b.minor <;> rfl

/-- What the parser reads of two versions is compared. -/
theorem realises_iff {v w : VersionText} : Realises v w ↔
    (((compare v.major.value w.major.value).then (compare v.minor.value w.minor.value)).then
      (compare v.patch.value w.patch.value)).then (cmpRead v.readPrerelease w.readPrerelease) = v.precedence w := by
  obtain ⟨build, hv⟩ := v.parse_text
  obtain ⟨build', hw⟩ := w.parse_text
  unfold Realises
  rw [hv, hw]
  simp only [Option.some.injEq, cmp_then]
  constructor
  · rintro ⟨a, b, rfl, rfl, h⟩
    exact h
  · exact fun h => ⟨_, _, rfl, rfl, h⟩

theorem ReadsRight.readPrerelease_eq {v : VersionText} (h : v.ReadsRight) : v.readPrerelease = v.prereleaseText := by
  rw [readPrerelease]
  split
  · rename_i hpre
    rw [h.build hpre, prereleaseText, hpre]
    rfl
  · rfl

theorem cmpRead_prereleaseText {v w : VersionText} (hv : v.prerelease ≠ []) (hw : w.prerelease ≠ []) :
    cmpRead v.prereleaseText w.prereleaseText = List.compareLex Semver.cmpIdentifier
      (v.prerelease.map Identifier.text) (w.prerelease.map Identifier.text) := by
  rw [← v.prereleaseText_splitOn hv, ← w.prereleaseText_splitOn hw, cmpRead,
    List.isEmpty_eq_false_iff.mpr (v.prereleaseText_ne_nil hv), List.isEmpty_eq_false_iff.mpr (w.prereleaseText_ne_nil hw)]
  dsimp only
  rw [Semver.cmpPrerelease_eq]

theorem prereleasePrecedence_of_ne {xs ys : List Identifier} (hx : xs ≠ []) (hy : ys ≠ []) :
    prereleasePrecedence xs ys = List.compareLex Identifier.precedence xs ys := by
  obtain ⟨x, xs, rfl⟩ := List.exists_cons_of_ne_nil hx
  obtain ⟨y, ys, rfl⟩ := List.exists_cons_of_ne_nil hy
  rfl

theorem cmpRead_of_readsRight {v w : VersionText} (hv : v.ReadsRight) (hw : w.ReadsRight) :
    cmpRead v.readPrerelease w.readPrerelease = prereleasePrecedence v.prerelease w.prerelease := by
  rw [hv.readPrerelease_eq, hw.readPrerelease_eq]
  by_cases hpv : v.prerelease = []
  · by_cases hpw : w.prerelease = []
    · rw [prereleaseText, prereleaseText, hpv, hpw]
      rfl
    · obtain ⟨y, ys, hys⟩ := List.exists_cons_of_ne_nil hpw
      rw [cmpRead, List.isEmpty_eq_false_iff.mpr (w.prereleaseText_ne_nil hpw), prereleaseText, hpv, hys]
      rfl
  · by_cases hpw : w.prerelease = []
    · obtain ⟨x, xs, hxs⟩ := List.exists_cons_of_ne_nil hpv
      rw [cmpRead, List.isEmpty_eq_false_iff.mpr (v.prereleaseText_ne_nil hpv), prereleaseText, hpw, hxs]
      rfl
    · rw [cmpRead_prereleaseText hpv hpw, compareLex_texts hv.fits hw.fits, prereleasePrecedence_of_ne hpv hpw]

/-- Versions that are read right are ordered by their precedence. -/
theorem ReadsRight.realises {v w : VersionText} (hv : v.ReadsRight) (hw : w.ReadsRight) : Realises v w := by
  rw [realises_iff, cmpRead_of_readsRight hv hw, precedence]

/-! ## Versions that are not read right -/

/-- Versions with the same numbers. -/
theorem realises_withPrerelease {v w : VersionText} (hmajor : w.major = v.major) (hminor : w.minor = v.minor)
    (hpatch : w.patch = v.patch) :
    Realises v w ↔ cmpRead v.readPrerelease w.readPrerelease = prereleasePrecedence v.prerelease w.prerelease := by
  rw [realises_iff, precedence, hmajor, hminor, hpatch]
  simp [Std.ReflCmp.compare_self]

/-- A build taken for a prerelease puts a version below itself without the build. -/
theorem not_realises_of_afterHyphen (hpre : v.prerelease = []) (h : v.afterHyphen ≠ []) :
    ∃ w : VersionText, w.ReadsRight ∧ ¬ Realises v w := by
  refine ⟨{ v with build := none }, ⟨fun _ => rfl, by simp [hpre]⟩, ?_⟩
  rw [realises_withPrerelease (v := v) (w := { v with build := none }) rfl rfl rfl]
  have hread : v.readPrerelease = v.afterHyphen := if_pos hpre
  have hplain : ({ v with build := none } : VersionText).readPrerelease = [] := if_pos hpre
  rw [hread, hplain, hpre]
  cases hafter : v.afterHyphen with
  | nil => exact absurd hafter h
  | cons c s => simp [cmpRead, prereleasePrecedence]

/-- The identifier below all texts of digits. -/
def hyphen : Identifier := ⟨['-'], by simp, by simp [isIdentifierChar]⟩

theorem compareLex_append {α : Type} {cmp : α → α → Ordering} {x y : α} {o : Ordering} (hrefl : ∀ a, cmp a a = .eq)
    (h : cmp x y = o) (ho : o ≠ .eq) (xs ys ys' : List α) : List.compareLex cmp (xs ++ x :: ys) (xs ++ y :: ys') = o := by
  induction xs with
  | nil =>
      rw [List.nil_append, List.nil_append, List.compareLex_cons_cons, h]
      cases o <;> first | rfl | exact absurd rfl ho
  | cons z xs ih => 
      rw [List.cons_append, List.cons_append, List.compareLex_cons_cons, hrefl]
      exact ih

theorem cmpIdentifier_hyphen {x : Identifier} (h : ¬ x.Fits) :
    Semver.cmpIdentifier x.text hyphen.text = .gt ∧ x.precedence hyphen = .lt := by
  simp only [Identifier.Fits, Option.mem_def, not_forall] at h
  obtain ⟨n, hn, hlarge⟩ := h
  have hdigits : x.text.all Char.isDigit = true := by
    by_contra hnot
    simp [Identifier.number, hnot] at hn
  have hparse : parseUnsigned 10 u64Max x.text = none := by
    rw [x.parseUnsigned_text, hn]
    simp [Option.filter, hlarge]
  have hhyphen : parseUnsigned 10 u64Max hyphen.text = none := by decide
  have hnumber : hyphen.number = none := by decide
  refine ⟨?_, by rw [Identifier.precedence, hn, hnumber]⟩
  rw [Semver.cmpIdentifier, hparse, hhyphen]
  obtain ⟨c, cs, hc⟩ := List.exists_cons_of_ne_nil x.ne
  rw [hc, List.all_cons, Bool.and_eq_true] at hdigits
  have hgt : compare c '-' = .gt := by
    have hlow : 48 ≤ c.toNat := (PartialVersion.digit_toNat hdigits.1).1
    have hnot : ¬ c < '-' := fun hlt => by
      have hlt' : c.toNat < 45 := UInt32.lt_iff_toNat_lt.mp hlt
      omega
    have hne : c ≠ '-' := by
      rintro rfl
      exact absurd hlow (by decide)
    change compareOfLessAndEq c '-' = .gt
    rw [compareOfLessAndEq, if_neg hnot, if_neg hne]
  rw [hc]
  change compare (c :: cs) ['-'] = .gt
  rw [List.compare_cons_cons, hgt]
  rfl

/-- A number beyond `u64` is above `-`, where it should be below. -/
theorem not_realises_of_not_fits (h : ¬ ∀ x ∈ v.prerelease, x.Fits) :
    ∃ w : VersionText, w.ReadsRight ∧ ¬ Realises v w := by
  obtain ⟨x, hfind⟩ : ∃ x, v.prerelease.find? (fun x => !decide x.Fits) = some x := by
    rw [← Option.isSome_iff_exists, List.find?_isSome]
    push Not at h
    simpa using h
  obtain ⟨hx, xs, ys, hsplit, hxs⟩ := List.find?_eq_some_iff_append.mp hfind
  obtain ⟨hcode, hspec⟩ := cmpIdentifier_hyphen (by simpa using hx)
  have hne : v.prerelease ≠ [] := by simp [hsplit]
  let w : VersionText := { v with prerelease := xs ++ [hyphen] }
  have hwne : w.prerelease ≠ [] := by simp [w]
  refine ⟨w, ⟨fun hnil => absurd hnil hwne, fun z hz => ?_⟩, ?_⟩
  · rcases List.mem_append.mp hz with hz | hz
    · simpa using hxs z hz
    · rw [List.mem_singleton.mp hz]
      decide
  · rw [realises_withPrerelease (v := v) (w := w) rfl rfl rfl]
    have hread : ∀ u : VersionText, u.prerelease ≠ [] → u.readPrerelease = u.prereleaseText := fun u hu => if_neg hu
    rw [hread v hne, hread w hwne]
    have hcmp : cmpRead v.prereleaseText w.prereleaseText = .gt := by
      rw [cmpRead_prereleaseText hne hwne, hsplit, List.map_append, List.map_append]
      exact compareLex_append (fun _ => Std.ReflCmp.compare_self) hcode (by decide) _ _ []
    have hprec : prereleasePrecedence v.prerelease w.prerelease = .lt := by
      rw [prereleasePrecedence_of_ne hne hwne, hsplit]
      exact compareLex_append Identifier.precedence_self hspec (by decide) _ _ []
    rw [hcmp, hprec]
    decide

end VersionText

end ThreeVa.Pm
