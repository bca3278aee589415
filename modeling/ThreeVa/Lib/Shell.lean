import ThreeVa.Lib.Trim

/-!
# Words of a shell

What a POSIX shell makes of a line without expansions: quotations and escapes are removed, what is left is split at blanks.
A line that a shell does more with has no fields here. A reader without escapes is compared with it.
-/

namespace Shell
open Text

/-! ## Quotations -/

inductive Mode
  | bare
  | single
  | double
deriving DecidableEq

/-- A character, quoted or not, or one end of a quotation. -/
inductive Mark
  | lit (c : Char) (quoted : Bool)
  | quote
deriving DecidableEq

abbrev Word := List Mark

def Mode.next : Mode → Char → Mode × Mark
  | bare, c => if c = '\'' then (single, .quote) else if c = '"' then (double, .quote) else (bare, .lit c false)
  | single, c => if c = '\'' then (bare, .quote) else (single, .lit c true)
  | double, c => if c = '"' then (bare, .quote) else (double, .lit c true)

/-- The marks of a text in which a backslash is a character like others. -/
def raw : Mode → Str → List Mark
  | _, [] => []
  | m, c :: s => (m.next c).2 :: raw (m.next c).1 s

def endMode (m : Mode) (s : Str) : Mode := s.foldl (fun m c => (m.next c).1) m

/-- The characters that a backslash escapes inside double quotes. -/
def escapable : Str := ['$', '\x60', '"', '\\']

/-- The marks of a text as a shell reads it: none if a quotation is not closed, a backslash ends the text, or there is an
expansion with a dollar sign or a backquote. A backslash and the end of a line stand for nothing. -/
def marks : Mode → Str → Option (List Mark)
  | m, [] => if m = .bare then some [] else none
  | m, c :: s =>
      if c = '\\' ∧ m ≠ .single then
        match s with
        | [] => none
        | d :: rest =>
            if d = '\n' then marks m rest
            else if m = .bare ∨ d ∈ escapable then (marks m rest).map (.lit d true :: ·)
            else (marks m (d :: rest)).map (.lit c true :: ·)
      else if m ≠ .single ∧ c ∈ ['$', '\x60'] then none
      else (marks (m.next c).1 s).map ((m.next c).2 :: ·)

/-! ## Words -/

/-- An unquoted character of a kind. -/
def Mark.isBare (p : Char → Bool) : Mark → Bool
  | lit c false => p c
  | _ => false

def wordsFrom (p : Char → Bool) (word : Word) : List Mark → List Word
  | [] => if word = [] then [] else [word]
  | m :: ms =>
      if m.isBare p then if word = [] then wordsFrom p [] ms else word :: wordsFrom p [] ms
      else wordsFrom p (word ++ [m]) ms

/-- The marks between separators. -/
def wordsBy (p : Char → Bool) (ms : List Mark) : List Word := wordsFrom p [] ms

def Mark.char : Mark → Option Char
  | lit c _ => some c
  | quote => none

def text (w : List Mark) : Str := w.filterMap Mark.char

/-! ## Fields -/

def isBlank (c : Char) : Bool := c = ' ' || c = '\t'

def isBlankOrNewline (c : Char) : Bool := isBlank c || c = '\n'

/-- The characters that begin an operator, or end the command. -/
def isOperator (c : Char) : Bool := "|&;<>()\n".toList.contains c

/-- A bracket expression from its second character on: one character at least and a closing bracket, in one component. -/
def closes (w : Word) : Bool := ((w.takeWhile fun m => m.char ≠ some '/').drop 1).any (Mark.isBare (· = ']'))

/-- A bracket expression of a pattern. -/
def hasBracket : Word → Bool
  | [] => false
  | m :: w => (m.isBare (· = '[') && closes (w.filter (· ≠ .quote))) || hasBracket w

/-- A pattern, a home directory or a comment. -/
def expands (w : Word) : Bool :=
  w.any (Mark.isBare fun c => c = '*' || c = '?') || w.head?.any (Mark.isBare fun c => c = '~' || c = '#') || hasBracket w

def reservedWords : List Str :=
  ["!", "\x7b", "\x7d", "case", "do", "done", "elif", "else", "esac", "fi", "for", "if", "in", "then", "until",
    "while"].map String.toList

def isNameChar (c : Char) : Bool := ('a' ≤ c && c ≤ 'z') || ('A' ≤ c && c ≤ 'Z') || c = '_' || ('0' ≤ c && c ≤ '9')

/-- A name and an equals sign. -/
def isAssignment (w : Word) : Bool :=
  let name := w.takeWhile (Mark.isBare isNameChar)
  name ≠ [] && !name.head?.any (Mark.isBare fun c => '0' ≤ c && c ≤ '9') && w[name.length]? = some (.lit '=' false)

/-- A first word that is not the name of a command. -/
def isKeyword (w : Word) : Bool := (w.all (Mark.isBare fun _ => true) && reservedWords.contains (text w)) || isAssignment w

/-- A line without the blanks and the line ends around it. -/
def strip (ms : List Mark) : List Mark :=
  (ms.dropWhile (Mark.isBare isBlankOrNewline)).rdropWhile (Mark.isBare isBlankOrNewline)

/-- The fields of a line that is one command of plain words: quotations removed, nothing expanded, no redirection. -/
def fields (line : Str) : Option (List Str) :=
  (marks .bare line).bind fun ms =>
    let words := wordsBy isBlank (strip ms)
    if (strip ms).any (Mark.isBare isOperator) || words.any expands || words.head?.any isKeyword then none
    else some (words.map text)

/-! ## Reading without escapes -/

section Raw

variable {m : Mode} {s t : Str} {ms : List Mark}

theorem raw_append (m : Mode) (s t : Str) : raw m (s ++ t) = raw m s ++ raw (endMode m s) t := by
  induction s generalizing m with
  | nil => rfl
  | cons c s ih => exact congrArg _ (ih _)

theorem endMode_append (m : Mode) (s t : Str) : endMode m (s ++ t) = endMode (endMode m s) t := List.foldl_append

theorem mem_of_mem_raw {c : Char} {quoted : Bool} (h : Mark.lit c quoted ∈ raw m s) : c ∈ s := by
  induction s generalizing m with
  | nil => cases h
  | cons d s ih =>
      rcases List.mem_cons.mp h with h | h
      · refine List.mem_cons.mpr (.inl ?_)
        cases m with
        | bare | single | double =>
            simp only [Mode.next] at h
            split at h <;> try split at h
            all_goals cases h
            all_goals rfl
      · exact List.mem_cons_of_mem _ (ih h)

theorem next_of_whitespace {c : Char} (h : isWhitespace c = true) : Mode.bare.next c = (.bare, .lit c false) := by
  rw [Mode.next, if_neg, if_neg]
  · rintro rfl
    cases h
  · rintro rfl
    cases h

theorem isBare_next (c : Char) : (Mode.bare.next c).2.isBare isWhitespace = isWhitespace c := by
  simp only [Mode.next]
  split
  · rename_i hc
    rw [hc]
    rfl
  · split
    · rename_i hc
      rw [hc]
      rfl
    · rfl

/-- Blanks outside quotations. -/
theorem raw_whitespace (h : ∀ c ∈ s, isWhitespace c = true) :
    raw .bare s = s.map (Mark.lit · false) ∧ endMode .bare s = .bare := by
  induction s with
  | nil => exact ⟨rfl, rfl⟩
  | cons c s ih =>
      have hc := h c List.mem_cons_self
      obtain ⟨hraw, hend⟩ := ih fun d hd => h d (List.mem_cons_of_mem _ hd)
      simp only [raw, endMode, List.foldl_cons, next_of_whitespace hc, List.map_cons]
      exact ⟨congrArg _ hraw, hend⟩

/-- No backslash stands where a shell takes it for an escape. -/
def unescaped : Mode → Str → Bool
  | _, [] => true
  | m, c :: s =>
      (c ≠ '\\' || m = .single || (m = .double && s.head?.all fun d => d ≠ '\n' && !escapable.contains d)) &&
        unescaped (m.next c).1 s

theorem next_backslash (m : Mode) : (m.next '\\').1 = m ∧ ∃ quoted, (m.next '\\').2 = .lit '\\' quoted := by
  cases m with
  | bare | single | double => exact ⟨rfl, _, rfl⟩

theorem marks_cons {c : Char} (h : c ≠ '\\' ∨ m = .single) : marks m (c :: s) =
    if m ≠ .single ∧ c ∈ ['$', '\x60'] then none else (marks (m.next c).1 s).map ((m.next c).2 :: ·) := by
  rw [marks.eq_def]
  exact if_neg fun hescape => h.elim (· hescape.1) hescape.2

theorem marks_escape (h : m ≠ .single) (d : Char) : marks m ('\\' :: d :: s) =
    if d = '\n' then marks m s
    else if m = .bare ∨ d ∈ escapable then (marks m s).map (.lit d true :: ·)
    else (marks m (d :: s)).map (.lit '\\' true :: ·) := by
  conv_lhs => rw [marks.eq_def]
  exact if_pos ⟨rfl, h⟩

theorem marks_last (h : m ≠ .single) : marks m ['\\'] = none := by
  rw [marks.eq_def]
  exact if_pos ⟨rfl, h⟩

/-- Without escapes the two readers agree. -/
theorem marks_of_unescaped (h : unescaped m s = true) (hs : ∀ c ∈ s, c ∉ ['$', '\x60']) :
    marks m s = if endMode m s = .bare then some (raw m s) else none := by
  induction s generalizing m with
  | nil => cases m <;> rfl
  | cons c s ih =>
      rw [unescaped, Bool.and_eq_true] at h
      have hrest : (marks (m.next c).1 s).map ((m.next c).2 :: ·) =
          if endMode m (c :: s) = .bare then some (raw m (c :: s)) else none := by
        rw [ih h.2 fun d hd => hs d (List.mem_cons_of_mem _ hd)]
        show Option.map _ (if endMode (m.next c).1 s = .bare then _ else _) =
          if endMode (m.next c).1 s = .bare then _ else none
        split <;> rfl
      by_cases hplain : c ≠ '\\' ∨ m = .single
      · rw [marks_cons hplain, if_neg fun hdollar => hs c List.mem_cons_self hdollar.2]
        exact hrest
      · rw [not_or, not_not] at hplain
        obtain ⟨rfl, hsingle⟩ := hplain
        have hdouble : m = .double ∧ ∀ d ∈ s.head?, d ≠ '\n' ∧ d ∉ escapable := by
          have hfirst := h.1
          cases m with
          | bare => simp at hfirst
          | single => exact absurd rfl hsingle
          | double => simpa [Option.all_eq_true] using hfirst
        obtain ⟨rfl, hnext⟩ := hdouble
        cases s with
        | nil => rw [marks_last hsingle]; rfl
        | cons d rest =>
            obtain ⟨hnewline, hescapable⟩ := hnext d rfl
            rw [marks_escape hsingle, if_neg hnewline, if_neg (by simp [hescapable])]
            exact hrest

theorem text_cons (a : Mark) (ms : List Mark) : text (a :: ms) = a.char.toList ++ text ms := by
  rw [text, List.filterMap_cons]
  cases a.char <;> rfl

/-- Every character but the ends of quotations stays. -/
theorem count_raw (m : Mode) (s : Str) : (text (raw m s)).count '\\' = s.count '\\' := by
  induction s generalizing m with
  | nil => rfl
  | cons c s ih =>
      rw [raw, text_cons, List.count_append, ih, List.count_cons, Nat.add_comm]
      congr 1
      by_cases hc : c = '\\'
      · subst hc
        obtain ⟨-, quoted, hquoted⟩ := next_backslash m
        rw [hquoted]
        rfl
      · rw [if_neg (by simpa using hc)]
        cases m with
        | bare | single | double =>
            simp only [Mode.next]
            split <;> try split
            all_goals simp [Mark.char, hc]

/-- An escape takes a backslash away. -/
theorem count_marks (h : marks m s = some ms) :
    (text ms).count '\\' ≤ s.count '\\' ∧ (unescaped m s = false → (text ms).count '\\' < s.count '\\') := by
  induction hn : s.length using Nat.strong_induction_on generalizing m s ms with
  | _ n ih =>
      cases s with
      | nil =>
          rw [marks] at h
          split at h
          · cases h
            exact ⟨Nat.le_refl _, fun h => by cases h⟩
          · cases h
      | cons c s =>
          by_cases hplain : c ≠ '\\' ∨ m = .single
          · rw [marks_cons hplain] at h
            split at h
            · cases h
            · obtain ⟨ms, hms, rfl⟩ := Option.map_eq_some_iff.mp h
              obtain ⟨hle, hlt⟩ := ih s.length (by rw [← hn, List.length_cons]; omega) hms rfl
              have hone := count_raw m [c]
              rw [raw, raw, text_cons, show text [] = [] from rfl, List.append_nil] at hone
              have hsplit : (c :: s).count '\\' = [c].count '\\' + s.count '\\' := by
                rw [← List.count_append, List.singleton_append]
              rw [text_cons, List.count_append, hone, hsplit]
              refine ⟨Nat.add_le_add_left hle _, fun hescape => Nat.add_lt_add_left (hlt ?_) _⟩
              rw [unescaped, Bool.and_eq_false_iff] at hescape
              refine hescape.resolve_left fun hfirst => ?_
              rcases hplain with hc | hm
              · simp [hc] at hfirst
              · simp [hm] at hfirst
          · rw [not_or, not_not] at hplain
            obtain ⟨rfl, hsingle⟩ := hplain
            cases s with
            | nil =>
                rw [marks_last hsingle] at h
                cases h
            | cons d rest =>
                rw [marks_escape hsingle] at h
                rw [List.count_cons_self]
                split at h
                · obtain ⟨hle, -⟩ := ih rest.length (by rw [← hn, List.length_cons, List.length_cons]; omega) h rfl
                  have hmore := List.count_le_count_cons (a := '\\') (b := d) (l := rest)
                  exact ⟨by omega, fun _ => by omega⟩
                · split at h
                  · obtain ⟨ms, hms, rfl⟩ := Option.map_eq_some_iff.mp h
                    obtain ⟨hle, -⟩ := ih rest.length (by rw [← hn, List.length_cons, List.length_cons]; omega) hms rfl
                    rw [text_cons, show (Mark.lit d true).char.toList = [d] from rfl, List.singleton_append,
                      List.count_cons, List.count_cons]
                    exact ⟨by omega, fun _ => by omega⟩
                  · rename_i hnewline hescapable
                    obtain ⟨ms, hms, rfl⟩ := Option.map_eq_some_iff.mp h
                    obtain ⟨hle, hlt⟩ := ih (d :: rest).length (by rw [← hn]; exact Nat.lt_succ_self _) hms rfl
                    rw [text_cons, show (Mark.lit '\\' true).char.toList = ['\\'] from rfl, List.singleton_append,
                      List.count_cons_self]
                    refine ⟨Nat.succ_le_succ hle, fun hescape => Nat.succ_lt_succ (hlt ?_)⟩
                    rw [unescaped, (next_backslash m).1, Bool.and_eq_false_iff] at hescape
                    refine hescape.resolve_left fun hfirst => ?_
                    rw [not_or] at hescapable
                    cases m with
                    | bare => exact hescapable.1 rfl
                    | single => exact hsingle rfl
                    | double => simp [hnewline, hescapable.2] at hfirst

end Raw

/-! ## Splitting -/

section Words

variable {p q : Char → Bool} {word : Word} {ms more : List Mark}

/-- The words hold what is no separator. -/
theorem text_wordsFrom (p : Char → Bool) (word : Word) (ms : List Mark) :
    (wordsFrom p word ms).flatMap text = text word ++ text (ms.filter fun m => !m.isBare p) := by
  induction ms generalizing word with
  | nil =>
      rw [wordsFrom]
      split
      · rename_i hempty
        rw [hempty]
        rfl
      · rw [List.flatMap_singleton]
        exact (List.append_nil _).symm
  | cons m ms ih =>
      rw [wordsFrom]
      split
      · rename_i hsep
        rw [List.filter_cons_of_neg (by simp [hsep])]
        split
        · rename_i hempty
          rw [ih, hempty]
        · rw [List.flatMap_cons, ih]
          rfl
      · rename_i hsep
        rw [ih, List.filter_cons_of_pos (by simpa using hsep), text, text, text, text, List.filterMap_append,
          List.append_assoc, ← List.filterMap_append]
        rfl

theorem wordsFrom_append (h : ∀ m ∈ more, m.isBare p = true) : wordsFrom p word (ms ++ more) = wordsFrom p word ms := by
  induction ms generalizing word with
  | nil =>
      induction more generalizing word with
      | nil => rfl
      | cons m more ih =>
          have hrest : wordsFrom p [] more = [] := ih fun m hm => h m (List.mem_cons_of_mem _ hm)
          show (if m.isBare p then if word = [] then wordsFrom p [] more else word :: wordsFrom p [] more else _) = _
          rw [if_pos (h m List.mem_cons_self), hrest]
          rfl
  | cons m ms ih => simp only [List.cons_append, wordsFrom, ih]

theorem wordsBy_append (h : ∀ m ∈ more, m.isBare p = true) : wordsBy p (more ++ ms) = wordsBy p ms := by
  induction more with
  | nil => rfl
  | cons m more ih =>
      rw [← ih fun m hm => h m (List.mem_cons_of_mem _ hm), wordsBy, wordsBy, List.cons_append, wordsFrom,
        if_pos (h m List.mem_cons_self), if_pos rfl]

theorem wordsFrom_congr (h : ∀ m ∈ ms, m.isBare p = m.isBare q) : wordsFrom p word ms = wordsFrom q word ms := by
  induction ms generalizing word with
  | nil => rfl
  | cons m ms ih =>
      have hrest : ∀ {word}, wordsFrom p word ms = wordsFrom q word ms := @fun _ => ih fun m hm => h m (List.mem_cons_of_mem _ hm)
      simp only [wordsFrom, h m List.mem_cons_self, hrest]

/-- What is stripped. -/
theorem strip_spec (ms : List Mark) : ∃ before after, ms = before ++ strip ms ++ after ∧
    (∀ m ∈ before, m.isBare isBlankOrNewline = true) ∧ ∀ m ∈ after, m.isBare isBlankOrNewline = true := by
  refine ⟨ms.takeWhile (Mark.isBare isBlankOrNewline),
    (ms.dropWhile (Mark.isBare isBlankOrNewline)).rtakeWhile (Mark.isBare isBlankOrNewline), ?_, ?_, ?_⟩
  · rw [strip, List.append_assoc, List.rdropWhile_append_rtakeWhile, List.takeWhile_append_dropWhile]
  · exact fun m hm => List.mem_takeWhile_imp hm
  · exact fun m hm => List.mem_rtakeWhile_imp hm

theorem rdropWhile_append_of_pos {f : Mark → Bool} (h : ∀ m ∈ more, f m = true) :
    (ms ++ more).rdropWhile f = ms.rdropWhile f := by
  induction more using List.reverseRecOn with
  | nil => rw [List.append_nil]
  | append_singleton more m ih =>
      rw [← List.append_assoc, List.rdropWhile_concat_pos _ _ _ (h m (by simp))]
      exact ih fun m hm => h m (List.mem_append_left _ hm)

/-- What is stripped of a text between blanks is stripped of the text. -/
theorem mem_of_mem_strip {before after : List Mark} {m : Mark} (hbefore : ∀ m ∈ before, m.isBare isBlankOrNewline = true)
    (hafter : ∀ m ∈ after, m.isBare isBlankOrNewline = true) (h : m ∈ strip (before ++ ms ++ after)) : m ∈ ms := by
  rw [strip, List.append_assoc, List.dropWhile_append_of_pos hbefore, List.dropWhile_append] at h
  split at h
  · rw [show after.dropWhile (Mark.isBare isBlankOrNewline) = [] from List.dropWhile_eq_nil_iff.mpr hafter] at h
    cases h
  · rw [rdropWhile_append_of_pos hafter] at h
    exact (List.dropWhile_sublist _).subset ((List.rdropWhile_prefix _ _).subset h)

/-- Where no line ends inside, the words between blanks are those between blanks and ends of lines. -/
theorem wordsBy_strip (h : ∀ m ∈ strip ms, m.isBare (· = '\n') = false) :
    wordsBy isBlank (strip ms) = wordsBy isBlankOrNewline ms := by
  obtain ⟨before, after, hms, hbefore, hafter⟩ := strip_spec ms
  conv_rhs => rw [hms, List.append_assoc, wordsBy_append hbefore, wordsBy, wordsFrom_append hafter]
  refine wordsFrom_congr fun m hm => ?_
  have hnewline := h m hm
  cases m with
  | quote => rfl
  | lit c quoted =>
      cases quoted with
      | true => rfl
      | false =>
          show isBlank c = (isBlank c || c = '\n')
          rw [show decide (c = '\n') = false from hnewline, Bool.or_false]

/-- A character that is no separator stays. -/
theorem count_filter {c : Char} (h : p c = false) (ms : List Mark) :
    (text (ms.filter fun m => !m.isBare p)).count c = (text ms).count c := by
  induction ms with
  | nil => rfl
  | cons m ms ih =>
      by_cases hm : m.isBare p = true
      · rw [List.filter_cons_of_neg (by simp [hm]), text_cons, List.count_append, ih]
        cases m with
        | quote => cases hm
        | lit d quoted =>
            have hd : d ≠ c := by
              rintro rfl
              cases quoted with
              | true => cases hm
              | false => exact absurd (show p d = true from hm) (by simp [h])
            simp [Mark.char, hd]
      · rw [List.filter_cons_of_pos (by simpa using hm), text_cons, text_cons, List.count_append, List.count_append, ih]

/-- A separator that is not quoted is lost. -/
theorem count_filter_lt {c : Char} (h : p c = true) (hmem : Mark.lit c false ∈ ms) :
    (text (ms.filter fun m => !m.isBare p)).count c < (text ms).count c := by
  obtain ⟨before, after, rfl⟩ := List.append_of_mem hmem
  have hsub : ∀ l : List Mark, (text (l.filter fun m => !m.isBare p)).count c ≤ (text l).count c := fun l =>
    (List.filter_sublist.filterMap _).count_le _
  have hbefore := hsub before
  have hafter := hsub after
  have hdrop : (Mark.lit c false :: after).filter (fun m => !m.isBare p) = after.filter fun m => !m.isBare p :=
    List.filter_cons_of_neg (by simp [Mark.isBare, h])
  have hall : text (before ++ .lit c false :: after) = text before ++ c :: text after := by
    rw [text, List.filterMap_append]
    rfl
  rw [List.filter_append, hdrop, hall, text, List.filterMap_append, List.count_append, List.count_append,
    List.count_cons_self]
  exact Nat.lt_of_le_of_lt (Nat.add_le_add hbefore hafter) (by omega)

end Words

/-! ## Lines that both readers split alike -/

/-- No escapes, no blanks but those of a shell, no pattern, and the name of a command first. -/
structure Plain (line : Str) : Prop where
  escapes : unescaped .bare line = true
  blanks : ∀ c, Mark.lit c false ∈ raw .bare line → isWhitespace c = true → isBlankOrNewline c = true
  patterns : ∀ w ∈ wordsBy isWhitespace (raw .bare line), expands w = false
  first : ∀ w ∈ (wordsBy isWhitespace (raw .bare line)).head?, isKeyword w = false

section Plain

variable {line : Str} {args : List Str}

theorem isWhitespace_of_blank {c : Char} (h : isBlankOrNewline c = true) : isWhitespace c = true := by
  simp only [isBlankOrNewline, isBlank, Bool.or_eq_true, decide_eq_true_eq] at h
  rcases h with (rfl | rfl) | rfl <;> rfl

/-- Where no other white space is, the words of the two readers are the same. -/
theorem wordsBy_blanks (h : ∀ c, Mark.lit c false ∈ raw .bare line → isWhitespace c = true → isBlankOrNewline c = true) :
    wordsBy isBlankOrNewline (raw .bare line) = wordsBy isWhitespace (raw .bare line) := by
  refine wordsFrom_congr fun m hm => ?_
  cases m with
  | quote => rfl
  | lit c quoted =>
      cases quoted with
      | true => rfl
      | false => exact Bool.eq_iff_iff.mpr ⟨isWhitespace_of_blank, h c hm⟩

theorem no_newline {ms : List Mark} (h : (strip ms).any (Mark.isBare isOperator) = false) :
    ∀ m ∈ strip ms, m.isBare (· = '\n') = false := by
  intro m hm
  have hoperator := List.any_eq_false.mp h m hm
  cases m with
  | quote => rfl
  | lit c quoted =>
      cases quoted with
      | true => rfl
      | false =>
          refine decide_eq_false ?_
          rintro rfl
          exact hoperator rfl

/-- A line whose quotations are closed, split at white space without escapes, has these fields for a shell exactly if it
is plain, operators and the signs of expansions apart. -/
theorem fields_eq_iff (hend : endMode .bare line = .bare)
    (hargs : args = (wordsBy isWhitespace (raw .bare line)).map text) (hsigns : ∀ c ∈ line, c ∉ ['$', '\x60'])
    (hoperators : (∀ c, Mark.lit c false ∈ raw .bare line → isWhitespace c = true → isBlankOrNewline c = true) →
      (strip (raw .bare line)).any (Mark.isBare isOperator) = false) :
    fields line = some args ↔ Plain line := by
  have hraw : unescaped .bare line = true → marks .bare line = some (raw .bare line) := fun h => by
    rw [marks_of_unescaped h hsigns, if_pos hend]
  constructor
  · intro h
    obtain ⟨ms, hms, h⟩ := Option.bind_eq_some_iff.mp h
    simp only at h
    split at h
    · cases h
    · rename_i hplain
      simp only [Bool.or_eq_true, not_or, Bool.not_eq_true] at hplain
      obtain ⟨⟨hoperator, hpatterns⟩, hfirst⟩ := hplain
      rw [wordsBy_strip (no_newline hoperator)] at h hpatterns hfirst
      rw [hargs, Option.some.injEq] at h
      have htext : text (ms.filter fun m => !m.isBare isBlankOrNewline) =
          text ((raw .bare line).filter fun m => !m.isBare isWhitespace) := by
        have hflat := congrArg List.flatten h
        rw [← List.flatMap_def, ← List.flatMap_def, wordsBy, wordsBy, text_wordsFrom, text_wordsFrom] at hflat
        exact hflat
      have hescapes : unescaped .bare line = true := by
        by_contra hescape
        have hlt := (count_marks hms).2 (Bool.not_eq_true _ ▸ hescape)
        have hcount := congrArg (List.count '\\') htext
        rw [count_filter rfl, count_filter rfl, count_raw] at hcount
        omega
      obtain rfl : raw .bare line = ms := Option.some.inj ((hraw hescapes).symm.trans hms)
      have hblanks : ∀ c, Mark.lit c false ∈ raw .bare line → isWhitespace c = true → isBlankOrNewline c = true := by
        intro c hc hwhite
        by_contra hblank
        have hcount := congrArg (List.count c) htext
        rw [count_filter (Bool.not_eq_true _ ▸ hblank)] at hcount
        have hlt := count_filter_lt hwhite hc
        omega
      rw [wordsBy_blanks hblanks] at hpatterns hfirst
      refine ⟨hescapes, hblanks, fun w hw => ?_, fun w hw => ?_⟩
      · exact Bool.not_eq_true _ ▸ List.any_eq_false.mp hpatterns w hw
      · rw [Option.mem_def.mp hw] at hfirst
        exact hfirst
  · intro h
    have hoperator := hoperators h.blanks
    rw [fields, hraw h.escapes, Option.bind_some]
    simp only
    rw [wordsBy_strip (no_newline hoperator), wordsBy_blanks h.blanks, hargs, hoperator]
    have hpatterns : (wordsBy isWhitespace (raw .bare line)).any expands = false :=
      List.any_eq_false.mpr fun w hw => by simp [h.patterns w hw]
    have hfirst : (wordsBy isWhitespace (raw .bare line)).head?.any isKeyword = false := by
      cases hhead : (wordsBy isWhitespace (raw .bare line)).head? with
      | none => rfl
      | some w => exact h.first w hhead
    rw [hpatterns, hfirst]
    rfl

end Plain

end Shell
