import ThreeVa.Lib.Text

/-!
# Trimming

What the trimming functions of `str` leave of a text that is written between blanks or quotes.
-/

namespace Text

def trimStart (s : Str) : Str := s.dropWhile isWhitespace

def trimMatches (c : Char) (s : Str) : Str := (s.dropWhile (· = c)).rdropWhile (· = c)

def trimStartMatches (c : Char) (s : Str) : Str := s.dropWhile (· = c)

def trimEndMatches (c : Char) (s : Str) : Str := s.rdropWhile (· = c)

/-! ## Texts with nothing to trim -/

theorem dropWhile_of_first {α : Type} {p : α → Bool} {s : List α} (h : ∀ c ∈ s.head?, p c = false) : s.dropWhile p = s := by
  cases s with
  | nil => rfl
  | cons c s => exact List.dropWhile_cons_of_neg (by simp [h c rfl])

theorem rdropWhile_of_last {α : Type} {p : α → Bool} {s : List α} (h : ∀ c ∈ s.getLast?, p c = false) : s.rdropWhile p = s := by
  rcases List.eq_nil_or_concat s with rfl | ⟨s, c, rfl⟩
  · rfl
  · rw [List.concat_eq_append] at h ⊢
    exact List.rdropWhile_concat_neg _ _ _ (by simp [h c])

/-- The text is not empty and none of the characters stands at an end of it. -/
structure Tight (p : Char → Bool) (s : Str) : Prop where
  ne : s ≠ []
  first : ∀ c ∈ s.head?, p c = false
  last : ∀ c ∈ s.getLast?, p c = false

section Tight

variable {p : Char → Bool} {s t : Str}

/-- Trimming stops at a character that stays. -/
theorem rdropWhile_append_cons (s t : Str) {c : Char} (h : p c = false) :
    (s ++ c :: t).rdropWhile p = s ++ c :: t.rdropWhile p := by
  induction t using List.reverseRecOn with
  | nil => exact List.rdropWhile_concat_neg _ _ _ (by simp [h])
  | append_singleton t x ih =>
      have hconcat : s ++ c :: (t ++ [x]) = s ++ c :: t ++ [x] := by simp
      rw [hconcat]
      by_cases hx : p x = true
      · rw [List.rdropWhile_concat_pos _ _ _ hx, List.rdropWhile_concat_pos _ _ _ hx, ih]
      · rw [List.rdropWhile_concat_neg _ _ _ hx, List.rdropWhile_concat_neg _ _ _ hx, hconcat]

theorem Tight.append (hs : s ≠ []) (ht : t ≠ []) (hfirst : ∀ c ∈ s.head?, p c = false)
    (hlast : ∀ c ∈ t.getLast?, p c = false) : Tight p (s ++ t) where
  ne := by simp [hs]
  first := by rwa [List.head?_append_of_ne_nil _ hs]
  last := by rwa [List.getLast?_append_of_ne_nil _ ht]

theorem tight_of_clean (hne : s ≠ []) (h : ∀ c ∈ s, p c = false) : Tight p s where
  ne := hne
  first := fun c hc => h c (List.mem_of_head? hc)
  last := fun c hc => h c (List.mem_of_getLast? hc)

theorem tight_of_any (hne : s ≠ []) (h : s.any p = false) : Tight p s :=
  tight_of_clean hne fun c hc => Bool.eq_false_iff.mpr (List.any_eq_false.mp h c hc)

theorem tight_wrapped {q : Char} (hq : p q = false) : Tight p (q :: s ++ [q]) where
  ne := by simp
  first := by simp [hq]
  last := by rw [List.getLast?_concat]; simp [hq]

theorem Tight.dropWhile_eq (h : Tight p s) : s.dropWhile p = s := dropWhile_of_first h.first

theorem Tight.rdropWhile_eq (h : Tight p s) : s.rdropWhile p = s := rdropWhile_of_last h.last

theorem Tight.trim_eq (h : Tight isWhitespace s) : trim s = s := by rw [trim, h.dropWhile_eq, h.rdropWhile_eq]

end Tight

/-! ## Blanks -/

variable {s : Str}

/-- `n` blanks before a text -/
def indented (n : Nat) (s : Str) : Str := List.replicate n ' ' ++ s

theorem trimStart_indented (n : Nat) (h : ∀ c ∈ s.head?, isWhitespace c = false) : trimStart (indented n s) = s := by
  rw [trimStart, indented, List.dropWhile_append_of_pos, dropWhile_of_first h]
  intro c hc
  rw [List.eq_of_mem_replicate hc]
  rfl

theorem trim_indented (n : Nat) (h : Tight isWhitespace s) : trim (indented n s) = s := by
  have hstart := trimStart_indented n h.first
  rw [trimStart] at hstart
  rw [trim, hstart, h.rdropWhile_eq]

theorem trim_indented_ne_nil (n : Nat) {c : Char} (h : isWhitespace c = false) : trim (indented n (c :: s)) ≠ [] := by
  have hstart : trimStart (indented n (c :: s)) = c :: s := trimStart_indented n (by simpa using h)
  rw [trimStart] at hstart
  rw [trim, hstart, Ne, List.rdropWhile_eq_nil_iff]
  exact fun hall => by simp [hall c] at h

theorem takeWhile_indented (n : Nat) (h : ∀ c ∈ s.head?, isWhitespace c = false) :
    (indented n s).takeWhile isWhitespace = List.replicate n ' ' := by
  rw [indented, List.takeWhile_append_of_pos]
  · cases s with
    | nil => simp
    | cons c s =>
        rw [List.takeWhile_cons_of_neg (by simp [h c rfl])]
        simp
  · intro c hc
    rw [List.eq_of_mem_replicate hc]
    rfl

/-! ## Quotes -/

variable {q : Char}

theorem trimMatches_of_not_mem (h : q ∉ s) : trimMatches q s = s := by
  have hclean : ∀ c ∈ s, decide (c = q) = false := fun c hc => decide_eq_false fun heq => h (heq ▸ hc)
  rw [trimMatches, dropWhile_of_first fun c hc => hclean c (List.mem_of_head? hc),
    rdropWhile_of_last fun c hc => hclean c (List.mem_of_getLast? hc)]

theorem trim_concat (s : Str) {c : Char} (hc : isWhitespace c = true) : trim (s ++ [c]) = trim s := by
  unfold trim
  rw [List.dropWhile_append]
  split
  · rename_i hempty
    rw [List.isEmpty_iff.mp hempty, List.dropWhile_cons_of_pos hc]
    rfl
  · exact List.rdropWhile_concat_pos _ _ _ hc

theorem trimMatches_wrapped (h : q ∉ s) : trimMatches q (q :: s ++ [q]) = s := by
  have hplain := trimMatches_of_not_mem h
  rw [trimMatches, List.cons_append, List.dropWhile_cons_of_pos (by simp)]
  cases s with
  | nil => simp
  | cons c s =>
      have hc : c ≠ q := fun heq => h (heq ▸ List.mem_cons_self)
      rw [trimMatches, List.dropWhile_cons_of_neg (by simpa using hc)] at hplain
      rw [List.cons_append, List.dropWhile_cons_of_neg (by simpa using hc), ← List.cons_append,
        List.rdropWhile_concat_pos _ _ _ (by simp), hplain]

end Text
