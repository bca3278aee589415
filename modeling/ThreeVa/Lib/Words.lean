import Mathlib.Algebra.GroupWithZero.Nat
import ThreeVa.Lib.Text

/-!
# Words and patterns

Splitting a text at white space and at patterns of more than one character, as the methods of `str` do.
-/

namespace Text

/-! ## Patterns -/

section Pattern

variable {α : Type} [DecidableEq α]

/-- `split_once` at a text. -/
def splitOnceStr (pat : List α) : List α → Option (List α × List α)
  | [] => if pat = [] then some ([], []) else none
  | x :: xs =>
      if pat <+: x :: xs then some ([], (x :: xs).drop pat.length)
      else (splitOnceStr pat xs).map fun p => (x :: p.1, p.2)

/-- `split` at every two `c` in a row. -/
def splitDouble (c : α) : List α → List (List α)
  | [] => [[]]
  | [x] => [[x]]
  | x :: y :: s =>
      if x = c ∧ y = c then [] :: splitDouble c s else (splitDouble c (y :: s)).modifyHead (x :: ·)

/-- `trim_end_matches` of the two-character text `.c`, on the reversed text. -/
def trimEndDotRev (c : Char) : Str → Str
  | x :: y :: s => if x = c ∧ y = '.' then trimEndDotRev c s else x :: y :: s
  | s => s

def trimEndDot (c : Char) (s : Str) : Str := (trimEndDotRev c s.reverse).reverse

theorem splitOnceStr_eq_none {pat s : List α} (h : ¬ pat <:+: s) : splitOnceStr pat s = none := by
  induction s with
  | nil =>
      have hpat : pat ≠ [] := fun hpat => h (hpat ▸ List.nil_infix)
      simp [splitOnceStr, hpat]
  | cons x xs ih =>
      have hhead : ¬ pat <+: x :: xs := fun hp => h hp.isInfix
      have htail : ¬ pat <:+: xs := fun hp => h (hp.trans (List.infix_cons List.infix_rfl))
      simp [splitOnceStr, hhead, ih htail]

theorem splitDouble_ne_nil (c : α) (s : List α) : splitDouble c s ≠ [] := by
  fun_induction splitDouble c s with
  | case1 => simp
  | case2 => simp
  | case3 => simp
  | case4 x y s hxy ih =>
      cases hs : splitDouble c (y :: s) with
      | nil => exact absurd hs ih
      | cons w ws => simp

/-- The pieces and the separators between them make up the text. -/
theorem splitDouble_length (c : α) (s : List α) :
    ((splitDouble c s).map (·.length + 2)).sum = s.length + 2 := by
  fun_induction splitDouble c s with
  | case1 => simp
  | case2 => simp
  | case3 x y s hxy ih => simp [ih]; omega
  | case4 x y s hxy ih =>
      cases hs : splitDouble c (y :: s) with
      | nil => exact absurd hs (splitDouble_ne_nil c _)
      | cons w ws =>
          simp only [hs, List.map_cons, List.sum_cons, List.modifyHead_cons, List.length_cons] at ih ⊢
          omega

theorem one_lt_length_splitDouble {c : α} {s : List α} (h : [c, c] <:+: s) : 1 < (splitDouble c s).length := by
  fun_induction splitDouble c s with
  | case1 => simp at h
  | case2 x =>
      have := h.length_le
      simp at this
  | case3 x y s hxy ih =>
      have := List.length_pos_iff.mpr (splitDouble_ne_nil c s)
      simp only [List.length_cons]
      omega
  | case4 x y s hxy ih =>
      rw [List.length_modifyHead]
      apply ih
      rcases List.infix_cons_iff.mp h with hp | hi
      · obtain ⟨hx, hp⟩ := List.cons_prefix_cons.mp hp
        obtain ⟨hy, -⟩ := List.cons_prefix_cons.mp hp
        exact absurd ⟨hx.symm, hy.symm⟩ hxy
      · exact hi

theorem length_lt_of_mem_splitDouble {c : α} {s w : List α} (h : [c, c] <:+: s) (hw : w ∈ splitDouble c s) :
    w.length < s.length := by
  have htotal := splitDouble_length c s
  have hmany := one_lt_length_splitDouble h
  obtain ⟨before, after, hsplit⟩ := List.append_of_mem hw
  rw [hsplit] at htotal hmany
  have hbefore : ∀ l : List (List α), 2 * l.length ≤ (l.map (·.length + 2)).sum := by
    intro l
    induction l with
    | nil => simp
    | cons w l ih => simp only [List.length_cons, List.map_cons, List.sum_cons]; omega
  have h1 := hbefore before
  have h2 := hbefore after
  simp only [List.map_append, List.map_cons, List.sum_append, List.sum_cons] at htotal
  simp only [List.length_append, List.length_cons] at hmany
  omega

theorem head_splitDouble_isPrefixOf {c : α} {s w : List α} {ws : List (List α)} (h : splitDouble c s = w :: ws) :
    w <+: s := by
  fun_induction splitDouble c s generalizing w ws with
  | case1 => simp_all
  | case2 => simp_all
  | case3 x y s hxy ih =>
      rw [← (List.cons.inj h).1]
      exact List.nil_prefix
  | case4 x y s hxy ih =>
      cases hs : splitDouble c (y :: s) with
      | nil => exact absurd hs (splitDouble_ne_nil c _)
      | cons w' ws' =>
          rw [hs, List.modifyHead_cons] at h
          rw [← (List.cons.inj h).1]
          exact List.cons_prefix_cons.mpr ⟨rfl, ih hs⟩

theorem not_infix_of_mem_splitDouble {c : α} {s w : List α} (hw : w ∈ splitDouble c s) : ¬ [c, c] <:+: w := by
  fun_induction splitDouble c s generalizing w with
  | case1 =>
      rw [List.mem_singleton.mp hw]
      simp
  | case2 x =>
      rw [List.mem_singleton.mp hw]
      intro h
      have := h.length_le
      simp at this
  | case3 x y s hxy ih =>
      rcases List.mem_cons.mp hw with rfl | hw
      · simp
      · exact ih hw
  | case4 x y s hxy ih =>
      cases hs : splitDouble c (y :: s) with
      | nil => exact absurd hs (splitDouble_ne_nil c _)
      | cons w' ws =>
          rw [hs, List.modifyHead_cons] at hw
          rcases List.mem_cons.mp hw with rfl | hw
          · -- The first piece starts with `x`; two `c` across the seam would have been a separator.
            intro h
            rcases List.infix_cons_iff.mp h with hp | hi
            · obtain ⟨hx, hp⟩ := List.cons_prefix_cons.mp hp
              obtain ⟨hy, -⟩ := List.cons_prefix_cons.mp (hp.trans (head_splitDouble_isPrefixOf hs))
              exact hxy ⟨hx.symm, hy.symm⟩
            · exact ih (by simp [hs]) hi
          · exact ih (by simp [hs, hw])

end Pattern

/-! ## White space -/

def splitWhitespace (s : Str) : List Str := (s.splitOnP isWhitespace).filter fun w => !w.isEmpty

section SplitOnP

variable {α : Type} {p : α → Bool}

/-- A text has no separator, or the first piece ends at the first one. -/
theorem splitOnP_cases (s : List α) :
    ((∀ x ∈ s, p x = false) ∧ s.splitOnP p = [s]) ∨
      ∃ w sep rest, s = w ++ sep :: rest ∧ (∀ x ∈ w, p x = false) ∧ p sep = true ∧
        s.splitOnP p = w :: rest.splitOnP p := by
  induction s with
  | nil => simp
  | cons x s ih =>
      cases hx : p x with
      | true => exact .inr ⟨[], x, s, rfl, by simp, hx, by simp [List.splitOnP_cons_eq_if_modifyHead, hx]⟩
      | false =>
          rcases ih with ⟨hall, hs⟩ | ⟨w, sep, rest, rfl, hw, hsep, hs⟩
          · exact .inl ⟨by simpa [hx] using hall, by simp [List.splitOnP_cons_eq_if_modifyHead, hx, hs]⟩
          · exact .inr ⟨x :: w, sep, rest, rfl, by simpa [hx] using hw, hsep,
              by simp [List.splitOnP_cons_eq_if_modifyHead, hx, hs]⟩

theorem mem_splitOnP {s w : List α} (hw : w ∈ s.splitOnP p) : w <:+: s ∧ ∀ x ∈ w, p x = false := by
  induction hn : s.length using Nat.strongRecOn generalizing s with
  | ind n ih =>
      rcases splitOnP_cases (p := p) s with ⟨hall, hs⟩ | ⟨v, sep, rest, rfl, hv, -, hs⟩
      · rw [hs, List.mem_singleton] at hw
        subst hw
        exact ⟨List.infix_rfl, hall⟩
      · rw [hs] at hw
        rcases List.mem_cons.mp hw with rfl | hw
        · exact ⟨(List.prefix_append _ _).isInfix, hv⟩
        · obtain ⟨hsub, hclean⟩ := ih rest.length (by simp [← hn]; omega) hw rfl
          exact ⟨hsub.trans ⟨v ++ [sep], [], by simp⟩, hclean⟩

theorem splitOnP_length (s : List α) : ((s.splitOnP p).map (·.length + 1)).sum = s.length + 1 := by
  induction hn : s.length using Nat.strongRecOn generalizing s with
  | ind n ih =>
      rcases splitOnP_cases (p := p) s with ⟨-, hs⟩ | ⟨v, sep, rest, rfl, -, -, hs⟩
      · simp [hs, ← hn]
      · have := ih rest.length (by simp [← hn]; omega) rest rfl
        simp only [List.length_append, List.length_cons] at hn
        rw [hs, List.map_cons, List.sum_cons, this]
        omega

end SplitOnP

theorem mem_splitWhitespace {s w : Str} (hw : w ∈ splitWhitespace s) :
    w <:+: s ∧ w ≠ [] ∧ ∀ c ∈ w, isWhitespace c = false := by
  obtain ⟨hw, hne⟩ := List.mem_filter.mp hw
  obtain ⟨hsub, hclean⟩ := mem_splitOnP hw
  exact ⟨hsub, by simpa using hne, hclean⟩

theorem splitWhitespace_length (s : Str) : ((splitWhitespace s).map (·.length + 1)).sum ≤ s.length + 1 := by
  rw [← splitOnP_length (p := isWhitespace) s, splitWhitespace]
  induction s.splitOnP isWhitespace with
  | nil => simp
  | cons w ws ih =>
      rw [List.filter_cons]
      split
      · simpa using ih
      · simp only [List.map_cons, List.sum_cons]
        omega

/-- A text without white space is one word. -/
theorem splitWhitespace_word {s : Str} (hne : s ≠ []) (hclean : ∀ c ∈ s, isWhitespace c = false) :
    splitWhitespace s = [s] := by
  rw [splitWhitespace, List.splitOnP_eq_singleton hclean]
  simpa using hne

theorem splitWhitespace_append_cons (s t : Str) {c : Char} (hc : isWhitespace c = true) :
    splitWhitespace (s ++ c :: t) = splitWhitespace s ++ splitWhitespace t := by
  rw [splitWhitespace, List.splitOnP_append_cons s t hc, List.filter_append]
  rfl

theorem splitWhitespace_nil : splitWhitespace [] = [] := by simp [splitWhitespace]

/-- Words joined by a space are read back. -/
theorem splitWhitespace_intercalate {ws : List Str} (h : ∀ w ∈ ws, w ≠ [] ∧ ∀ c ∈ w, isWhitespace c = false) :
    splitWhitespace ([' '].intercalate ws) = ws := by
  induction ws with
  | nil => simp [splitWhitespace_nil]
  | cons w ws ih =>
      obtain ⟨hne, hclean⟩ := h w (by simp)
      cases ws with
      | nil => simpa using splitWhitespace_word hne hclean
      | cons v ws =>
          rw [List.intercalate_cons_cons, List.append_assoc, List.singleton_append,
            splitWhitespace_append_cons _ _ (by decide), splitWhitespace_word hne hclean,
            ih fun x hx => h x (by simp [hx])]
          rfl

theorem splitWhitespace_dropWhile (s : Str) : splitWhitespace (s.dropWhile isWhitespace) = splitWhitespace s := by
  induction s with
  | nil => rfl
  | cons c s ih =>
      cases hc : isWhitespace c with
      | true =>
          rw [List.dropWhile_cons_of_pos hc, ih]
          simpa [splitWhitespace_nil] using (splitWhitespace_append_cons [] s hc).symm
      | false => rw [List.dropWhile_cons_of_neg (by simp [hc])]

theorem splitWhitespace_rdropWhile (s : Str) :
    splitWhitespace (s.rdropWhile isWhitespace) = splitWhitespace s := by
  induction s using List.reverseRecOn with
  | nil => rfl
  | append_singleton s c ih =>
      cases hc : isWhitespace c with
      | true =>
          rw [List.rdropWhile_concat_pos _ _ _ hc, ih, splitWhitespace_append_cons s [] hc, splitWhitespace_nil,
            List.append_nil]
      | false => rw [List.rdropWhile_concat_neg _ _ _ (by simp [hc])]

theorem splitWhitespace_trim (s : Str) : splitWhitespace (trim s) = splitWhitespace s := by
  rw [trim, splitWhitespace_rdropWhile, splitWhitespace_dropWhile]

theorem isInfix_trim (s : Str) : trim s <:+: s :=
  ((List.rdropWhile_prefix isWhitespace (s.dropWhile isWhitespace)).isInfix).trans
    (List.dropWhile_suffix isWhitespace).isInfix

theorem trim_of_clean {s : Str} (hclean : ∀ c ∈ s, isWhitespace c = false) : trim s = s := by
  have hdrop : s.dropWhile isWhitespace = s := by
    cases s with
    | nil => rfl
    | cons c s => rw [List.dropWhile_cons_of_neg (by simp [hclean c])]
  rw [trim, hdrop]
  induction s using List.reverseRecOn with
  | nil => rfl
  | append_singleton s c ih => rw [List.rdropWhile_concat_neg _ _ _ (by simp [hclean c])]

end Text
