import ThreeVa.Locks.BunLock

namespace ThreeVa.Locks
open Text JsonText

/-! ## ASCII -/

theorem byteChar_byteOf {c : Char} (h : c.toNat < 0x80) : byteChar (byteOf c) = c := by
  rw [byteChar, byteOf, toNat_ofNat_uint8 (by omega), Char.ofNat_toNat]

theorem encodeUtf8_cons (c : Char) (s : Str) : encodeUtf8 (c :: s) = encodeChar c ++ encodeUtf8 s := List.flatMap_cons

theorem encodeChar_ascii {c : Char} (h : c.toNat < 0x80) : encodeChar c = [byteOf c] := by simp [encodeChar, h, byteOf]

/-- A character is told apart from an ASCII one by its bytes. -/
theorem byteOf_not_mem {c q : Char} (hq : q.toNat < 0x80) (h : c ≠ q) : byteOf q ∉ encodeChar c := by
  intro hmem
  have hb : (byteOf q).toNat = q.toNat := toNat_ofNat_uint8 (by omega)
  have hc := toNat_of_mem_encodeChar (by omega) hmem
  exact h (Char.toNat_inj.mp (hc.trans hb))

theorem byteChar_ne {b : UInt8} {q : Char} (hq : q.toNat < 0x80) (h : b ≠ byteOf q) : byteChar b ≠ q := by
  rintro rfl
  apply h
  rw [byteOf, byteChar_toNat, UInt8.ofNat_toNat]

theorem byteOf_ne {c q : Char} (hc : c.toNat < 0x80) (hq : q.toNat < 0x80) (h : c ≠ q) : byteOf c ≠ byteOf q := by
  intro heq
  rw [← byteChar_byteOf hc, ← byteChar_byteOf hq, heq] at h
  exact h rfl

/-! ## Strings in the first loop -/

/-- A character is pushed byte by byte. -/
def latin (c : Char) : Str := (encodeChar c).map byteChar

theorem latin_ascii {c : Char} (h : c.toNat < 0x80) : latin c = [c] := by
  rw [latin, encodeChar_ascii h, List.map_singleton, byteChar_byteOf h]

theorem plain_of_byte {c : Char} (h : 0x20 ≤ c.toNat ∧ c ≠ '"' ∧ c ≠ '\\') {b : UInt8} (hb : b ∈ encodeChar c) :
    0x20 ≤ (byteChar b).toNat ∧ byteChar b ≠ '"' ∧ byteChar b ≠ '\\' := by
  have hne : ∀ q : Char, q.toNat < 0x80 → c ≠ q → byteChar b ≠ q := fun q hq hc =>
    byteChar_ne hq fun heq => byteOf_not_mem hq hc (heq ▸ hb)
  refine ⟨?_, hne '"' (by decide) h.2.1, hne '\\' (by decide) h.2.2⟩
  rw [byteChar_toNat]
  by_contra hlt
  have hc := toNat_of_mem_encodeChar (by omega) hb
  omega

def latinLetter : Letter → Literal
  | .plain c h => (encodeChar c).attach.map fun b => .plain (byteChar b.1) (plain_of_byte h b.2)
  | .escape l value h => [.escape l value h]
  | .unicode a b c d h => [.unicode a b c d h]

def latinLiteral (s : Literal) : Literal := s.flatMap latinLetter

theorem escape_ascii {l value : Char} (h : (l, value) ∈ escapeLetters) : l.toNat < 0x80 := by
  have hall : ∀ p ∈ escapeLetters, p.1.toNat < 0x80 := by decide
  exact hall _ h

theorem isHexDigit_spec {c : Char} (h : isHexDigit c = true) : c.toNat < 0x80 ∧ c ≠ '"' ∧ c ≠ '\\' := by
  have hrange : c.toNat < 0x67 ∧ c.toNat ≠ 34 ∧ c.toNat ≠ 92 := by
    simp only [isHexDigit, Char.isDigit, Bool.or_eq_true, Bool.and_eq_true, decide_eq_true_eq, Char.le_def,
      UInt32.le_iff_toNat_le, ge_iff_le] at h
    have hcode : c.val.toNat = c.toNat := rfl
    simp at h
    omega
  exact ⟨by omega, fun h => hrange.2.1 (h ▸ rfl), fun h => hrange.2.2 (h ▸ rfl)⟩

theorem text_latinLetter (l : Letter) : (latinLetter l).text = l.text.flatMap latin := by
  cases l with
  | plain c h =>
      have hmap : (encodeChar c).flatMap (fun b => [byteChar b]) = (encodeChar c).map byteChar := List.map_eq_flatMap.symm
      simp [latinLetter, Literal.text, Letter.text, latin, List.flatMap_map, hmap]
  | escape l value h => simp [latinLetter, Literal.text, Letter.text, latin_ascii (escape_ascii h), latin_ascii]
  | unicode a b c d h =>
      simp only [List.forall_mem_cons] at h
      obtain ⟨ha, hb, hc, hd, -⟩ := h
      simp [latinLetter, Literal.text, Letter.text, latin_ascii, (isHexDigit_spec ha).1, (isHexDigit_spec hb).1,
        (isHexDigit_spec hc).1, (isHexDigit_spec hd).1]

theorem text_latinLiteral (s : Literal) : (latinLiteral s).text = s.text.flatMap latin := by
  induction s with
  | nil => rfl
  | cons l s ih =>
      have hl := text_latinLetter l
      simp only [Literal.text, latinLiteral, List.flatMap_cons, List.flatMap_append] at ih hl ⊢
      rw [ih, hl]

theorem string_bytes {bs rest : Bytes} (h : ∀ b ∈ bs, byteChar b ≠ '\\' ∧ byteChar b ≠ '"') :
    withoutComments (.string false) (bs ++ rest) = bs.map byteChar ++ withoutComments (.string false) rest := by
  induction bs with
  | nil => rfl
  | cons b bs ih =>
      obtain ⟨hb, hbs⟩ := List.forall_mem_cons.mp h
      have hafter : afterStringByte false (byteChar b) = .string false := by simp [afterStringByte, hb]
      rw [List.cons_append, withoutComments, hafter, ih hbs]
      rfl

theorem string_char {c : Char} (hslash : c ≠ '\\') (hquote : c ≠ '"') (rest : Bytes) :
    withoutComments (.string false) (encodeChar c ++ rest) = latin c ++ withoutComments (.string false) rest := by
  refine string_bytes fun b hb => ⟨?_, ?_⟩
  · exact byteChar_ne (by decide) fun heq => byteOf_not_mem (by decide) hslash (heq ▸ hb)
  · exact byteChar_ne (by decide) fun heq => byteOf_not_mem (by decide) hquote (heq ▸ hb)

theorem string_escape {c : Char} (hc : c.toNat < 0x80) (rest : Bytes) :
    withoutComments (.string false) (encodeChar '\\' ++ (encodeChar c ++ rest)) =
      latin '\\' ++ (latin c ++ withoutComments (.string false) rest) := by
  have hslash : byteChar (byteOf '\\') = '\\' := by decide
  rw [encodeChar_ascii hc, encodeChar_ascii (by decide), latin_ascii hc, latin_ascii (by decide)]
  simp [withoutComments, afterStringByte, hslash, byteChar_byteOf hc]

theorem string_letter (l : Letter) (rest : Bytes) :
    withoutComments (.string false) (encodeUtf8 l.text ++ rest) =
      l.text.flatMap latin ++ withoutComments (.string false) rest := by
  cases l with
  | plain c h =>
      simpa [Letter.text, encodeUtf8] using string_char h.2.2 h.2.1 rest
  | escape l value h =>
      simpa [Letter.text, encodeUtf8] using string_escape (escape_ascii h) rest
  | unicode a b c d h =>
      simp only [List.forall_mem_cons] at h
      obtain ⟨ha, hb, hc, hd, -⟩ := h
      have hdigit : ∀ {x : Char} (_ : isHexDigit x = true) (rest : Bytes), withoutComments (.string false)
          (encodeChar x ++ rest) = latin x ++ withoutComments (.string false) rest := fun hx rest =>
        string_char (isHexDigit_spec hx).2.2 (isHexDigit_spec hx).2.1 rest
      have hu := string_escape (c := 'u') (by decide)
      simp only [Letter.text, encodeUtf8, List.flatMap_cons, List.flatMap_nil, List.append_assoc, List.nil_append, hu,
        hdigit ha, hdigit hb, hdigit hc, hdigit hd]

theorem string_literal (s : Literal) (rest : Bytes) :
    withoutComments (.string false) (encodeUtf8 s.text ++ rest) =
      (latinLiteral s).text ++ withoutComments (.string false) rest := by
  rw [text_latinLiteral]
  induction s with
  | nil => rfl
  | cons l s ih =>
      have hl := string_letter l (encodeUtf8 (Literal.text s) ++ rest)
      rw [Literal.text, List.flatMap_cons, encodeUtf8_append, List.append_assoc, List.flatMap_append, List.append_assoc]
      exact hl.trans (congrArg _ ih)

/-! ## The first loop -/

/-- The characters of tokens and blanks outside strings. -/
def isCodeChar (c : Char) : Bool := isBlank c || isPunct c || isWordChar c

theorem isCodeChar_spec {c : Char} (h : isCodeChar c = true) : c.toNat < 0x80 ∧ c ≠ '"' ∧ c ≠ '/' := by
  have hne : ∀ q, isCodeChar q = false → c ≠ q := by
    rintro q hq rfl
    exact Bool.false_ne_true (hq.symm.trans h)
  refine ⟨?_, hne '"' (by decide), hne '/' (by decide)⟩
  have hlists : ∀ c ∈ [' ', '\t', '\n', '\r', '\x7b', '\x7d', '[', ']', ',', ':', '-', '+', '.'],
      decide (c.toNat < 0x80) = true := List.all_eq_true.mp (by decide)
  by_cases halpha : c.isAlphanum = true
  · have hrange := isAlphanum_printable halpha
    omega
  · refine of_decide_eq_true (hlists c ?_)
    simp only [isCodeChar, isBlank, isPunct, isWordChar, halpha, List.contains_eq_mem, List.mem_cons, List.not_mem_nil,
      Bool.or_eq_true, decide_eq_true_eq, Bool.false_eq_true] at h ⊢
    grind

theorem code_other {b : UInt8} (h : b ≠ byteOf '/') (rest : Bytes) : withoutComments .code (b :: rest) =
    byteChar b :: withoutComments (if b = byteOf '"' then .string false else .code) rest := by
  cases rest <;> simp only [withoutComments, if_neg h] <;> split <;> rfl

theorem code_run {s : Str} (h : ∀ c ∈ s, isCodeChar c = true) (rest : Bytes) :
    withoutComments .code (encodeUtf8 s ++ rest) = s ++ withoutComments .code rest := by
  induction s with
  | nil => rfl
  | cons c s ih =>
      obtain ⟨hc, hs⟩ := List.forall_mem_cons.mp h
      obtain ⟨hascii, hquote, hslash⟩ := isCodeChar_spec hc
      rw [encodeUtf8_cons, List.append_assoc, encodeChar_ascii hascii, List.singleton_append,
        code_other (byteOf_ne hascii (by decide) hslash), if_neg (byteOf_ne hascii (by decide) hquote),
        byteChar_byteOf hascii, ih hs]
      rfl

theorem code_string (s : Literal) (rest : Bytes) :
    withoutComments .code (encodeUtf8 (Token.str s).text ++ rest) =
      (Token.str (latinLiteral s)).text ++ withoutComments .code rest := by
  have hquote : byteChar (byteOf '"') = '"' := by decide
  have hopen : encodeUtf8 (Token.str s).text = byteOf '"' :: (encodeUtf8 s.text ++ [byteOf '"']) := by
    simp [Token.text, encodeUtf8, encodeChar_ascii (c := '"') (by decide)]
  rw [hopen, List.cons_append, List.append_assoc, List.singleton_append, code_other (by decide), if_pos rfl,
    string_literal, withoutComments, hquote]
  simp [Token.text, afterStringByte]

theorem code_token (t : Token) (rest : Bytes) : withoutComments .code (encodeUtf8 t.text ++ rest) =
    (t.map latinLiteral).text ++ withoutComments .code rest := by
  cases t with
  | punct c h => exact code_run (by simp [Token.text, isCodeChar, h]) rest
  | str s => exact code_string s rest
  | word w => exact code_run (fun c hc => by simp [isCodeChar, w.text_spec.2 c hc]) rest

theorem line_run {bs : Bytes} (h : byteOf '\n' ∉ bs) (rest : Bytes) :
    withoutComments .line (bs ++ rest) = withoutComments .line rest := by
  induction bs with
  | nil => rfl
  | cons b bs ih =>
      rw [List.mem_cons, not_or] at h
      rw [List.cons_append, withoutComments, if_neg (Ne.symm h.1), ih h.2]

theorem line_feed_not_mem {body : Str} (h : '\n' ∉ body) : byteOf '\n' ∉ encodeUtf8 body := by
  intro hmem
  obtain ⟨c, hc, hb⟩ := List.mem_flatMap.mp hmem
  have hne : c ≠ '\n' := by
    rintro rfl
    exact h hc
  exact byteOf_not_mem (by decide) hne hb

theorem code_line (rest : Bytes) : withoutComments .code (byteOf '/' :: byteOf '/' :: rest) =
    withoutComments .line rest := by
  have hne : byteOf '/' ≠ byteOf '"' := by decide
  have hfeed : byteOf '/' ≠ byteOf '\n' := by decide
  rw [withoutComments, if_neg hne, if_pos rfl]
  simp only [↓reduceIte]
  rw [withoutComments, if_neg hfeed]

theorem code_block (rest : Bytes) : withoutComments .code (byteOf '/' :: byteOf '*' :: rest) =
    withoutComments .block rest := by
  have hne : byteOf '/' ≠ byteOf '"' := by decide
  have hstar : byteOf '*' ≠ byteOf '/' := by decide
  rw [withoutComments, if_neg hne, if_pos rfl]
  simp only [↓reduceIte, if_neg hstar]

theorem block_skip {bs : Bytes} (h : byteOf '*' ∉ bs) {rest : Bytes} (hrest : rest ≠ []) :
    withoutComments .block (bs ++ rest) = withoutComments .block rest := by
  induction bs with
  | nil => rfl
  | cons b bs ih =>
      rw [List.mem_cons, not_or] at h
      obtain ⟨b', rest', hcons⟩ := List.exists_cons_of_ne_nil (l := bs ++ rest) (by simp [hrest])
      rw [List.cons_append, ← ih h.2, hcons, withoutComments]
      exact if_neg fun heq => h.1 heq.1.symm

/-- A block comment ends at the first `*/`. -/
theorem block_run {body : Str} (h : ¬ ['*', '/'] <:+: body) (rest : Bytes) :
    withoutComments .block (encodeUtf8 body ++ byteOf '*' :: byteOf '/' :: rest) = withoutComments .code rest := by
  induction body with
  | nil => simp [encodeUtf8, withoutComments]
  | cons c body ih =>
      have htail : ¬ ['*', '/'] <:+: body := fun hin => h (hin.trans (List.suffix_cons c body).isInfix)
      rw [encodeUtf8_cons, List.append_assoc, ← ih htail]
      by_cases hc : c = '*'
      · subst hc
        -- what comes after the star is not a slash
        have hslash : ∃ b bs, encodeUtf8 body ++ byteOf '*' :: byteOf '/' :: rest = b :: bs ∧ b ≠ byteOf '/' := by
          cases body with
          | nil => exact ⟨byteOf '*', _, rfl, by decide⟩
          | cons d body =>
              obtain ⟨b, bs, hd⟩ := List.exists_cons_of_ne_nil (encodeChar_ne_nil d)
              refine ⟨b, bs ++ (encodeUtf8 body ++ byteOf '*' :: byteOf '/' :: rest), by simp [encodeUtf8_cons, hd], ?_⟩
              rintro rfl
              have hne : d ≠ '/' := by
                rintro rfl
                exact h ⟨[], body, rfl⟩
              exact byteOf_not_mem (by decide) hne (hd ▸ List.mem_cons_self)
        obtain ⟨b, bs, hcons, hb⟩ := hslash
        rw [encodeChar_ascii (by decide), hcons, List.singleton_append, withoutComments]
        exact if_neg fun heq => hb heq.2
      · exact block_skip (byteOf_not_mem (by decide) hc) (by simp)

/-- What the first loop leaves of a piece. -/
def shown : Piece → List Lexeme
  | .blank c h => [.blank c h]
  | .line _ _ => [.blank '\n' rfl]
  | .block _ _ => []
  | .token t => [.token (t.map latinLiteral)]

theorem code_piece (p : Piece) (rest : Bytes) : withoutComments .code (encodeUtf8 p.text ++ rest) =
    (shown p).flatMap Lexeme.text ++ withoutComments .code rest := by
  cases p with
  | blank c h =>
      have hrun := code_run (s := [c]) (by simp [isCodeChar, h]) rest
      simpa [Piece.text, shown, Lexeme.text] using hrun
  | line body h =>
      have htext : encodeUtf8 (Piece.line body h).text = byteOf '/' :: byteOf '/' :: (encodeUtf8 body ++ [byteOf '\n']) := by
        simp [Piece.text, encodeUtf8, encodeChar_ascii (c := '/') (by decide), encodeChar_ascii (c := '\n') (by decide)]
      have hfeed : byteChar (byteOf '\n') = '\n' := by decide
      rw [htext, List.cons_append, List.cons_append, code_line, List.append_assoc, line_run (line_feed_not_mem h),
        List.singleton_append, withoutComments, if_pos rfl, hfeed]
      rfl
  | block body h =>
      have htext : encodeUtf8 (Piece.block body h).text =
          byteOf '/' :: byteOf '*' :: (encodeUtf8 body ++ [byteOf '*', byteOf '/']) := by
        simp [Piece.text, encodeUtf8, encodeChar_ascii (c := '/') (by decide), encodeChar_ascii (c := '*') (by decide)]
      rw [htext, List.cons_append, List.cons_append, code_block, List.append_assoc]
      exact block_run h rest
  | token t =>
      rw [Piece.text, code_token]
      simp [shown, Lexeme.text]

theorem code_pieces (ps : List Piece) (rest : Bytes) :
    withoutComments .code (encodeUtf8 (ps.flatMap Piece.text) ++ rest) =
      (ps.flatMap shown).flatMap Lexeme.text ++ withoutComments .code rest := by
  induction ps with
  | nil => rfl
  | cons p ps ih =>
      rw [List.flatMap_cons, encodeUtf8_append, List.append_assoc, code_piece, ih, List.flatMap_cons, List.flatMap_append,
        List.append_assoc]

/-- The first loop leaves the tokens and blanks, with the strings read byte by byte. -/
theorem withoutComments_text (d : Decorated) :
    withoutComments .code (encodeUtf8 d.text) = (d.pieces.flatMap shown).flatMap Lexeme.text := by
  have hnil : ∀ place, withoutComments place [] = [] := fun place => by rw [withoutComments]
  rw [Decorated.text, encodeUtf8_append, code_pieces]
  cases hlast : d.lastLine with
  | none => simp [encodeUtf8, hnil]
  | some body =>
      have htext : encodeUtf8 ('/' :: '/' :: body) = byteOf '/' :: byteOf '/' :: encodeUtf8 body := by
        simp [encodeUtf8, encodeChar_ascii (c := '/') (by decide)]
      have hline := line_run (line_feed_not_mem (d.lastLine_ne body hlast)) []
      rw [List.append_nil, hnil] at hline
      simp only
      rw [htext, code_line, hline, List.append_nil]

/-! ## The second loop -/

/-- The characters of some lexemes, the last of them first. -/
def backwards (acc : List Lexeme) : Str := acc.flatMap fun x => x.text.reverse

theorem backwards_cons (x : Lexeme) (acc : List Lexeme) : backwards (x :: acc) = x.text.reverse ++ backwards acc :=
  List.flatMap_cons

theorem reverse_backwards (acc : List Lexeme) : (backwards acc).reverse = acc.reverse.flatMap Lexeme.text := by
  simp [backwards, List.reverse_flatMap, Function.comp_def]

/-- The state outside strings after some lexemes. -/
def cleanerOf (acc : List Lexeme) : Cleaner := ⟨false, false, backwards acc⟩

def isBlankLexeme : Lexeme → Bool
  | .blank _ _ => true
  | .token _ => false

def dropCommaLexeme : List Lexeme → List Lexeme
  | .token t :: acc => if t.isComma then acc else .token t :: acc
  | acc => acc

/-- What one more lexeme does. -/
def lexemeStep (acc : List Lexeme) : Lexeme → List Lexeme
  | .blank c h => .blank c h :: acc
  | .token t => if t.closes then .token t :: dropCommaLexeme (acc.dropWhile isBlankLexeme) else .token t :: acc

theorem isWhitespace_of_blank {c : Char} (h : isBlank c = true) : isWhitespace c = true := by
  have hall : ∀ c ∈ [' ', '\t', '\n', '\r'], isWhitespace c = true := List.all_eq_true.mp (by decide)
  exact hall c (List.contains_iff_mem.mp h)

theorem not_isWhitespace_of_wordChar {c : Char} (h : isWordChar c = true) : isWhitespace c = false := by
  by_cases halpha : c.isAlphanum = true
  · exact isWhitespace_of_printable (isAlphanum_printable halpha)
  · have hlist : ∀ c ∈ ['-', '+', '.'], decide (isWhitespace c = false) = true := List.all_eq_true.mp (by decide)
    exact of_decide_eq_true (hlist c (by simpa [isWordChar, halpha, or_assoc] using h))

/-- The last character of a token, which is no blank; only a comma ends with one. -/
theorem Token.text_last (t : Token) : ∃ c rest, t.text.reverse = c :: rest ∧ isWhitespace c = false ∧
    (c = ',' ↔ t.isComma = true) := by
  cases t with
  | punct c h =>
      have hall : ∀ c ∈ ['\x7b', '\x7d', '[', ']', ',', ':'], decide (isWhitespace c = false) = true :=
        List.all_eq_true.mp (by decide)
      exact ⟨c, [], rfl, of_decide_eq_true (hall c (List.contains_iff_mem.mp h)), by simp [Token.isComma]⟩
  | str s => exact ⟨'"', s.text.reverse ++ ['"'], by simp [Token.text], by decide, by simp [Token.isComma]⟩
  | word w =>
      obtain ⟨hne, hall⟩ := w.text_spec
      obtain ⟨c, rest, hw⟩ := List.exists_cons_of_ne_nil (l := w.text.reverse) (by simpa using hne)
      have hc := hall c (List.mem_reverse.mp (hw ▸ List.mem_cons_self))
      refine ⟨c, rest, hw, not_isWhitespace_of_wordChar hc, ?_⟩
      have hcomma : c ≠ ',' := by
        rintro rfl
        cases hc
      simp [Token.isComma, hcomma]

theorem dropWhile_head (acc : List Lexeme) : ∀ x ∈ (acc.dropWhile isBlankLexeme).head?, isBlankLexeme x = false := by
  intro x hx
  have hfirst := List.head?_dropWhile_not isBlankLexeme acc
  rw [Option.mem_def.mp hx] at hfirst
  simpa using hfirst

theorem dropWhile_backwards (acc : List Lexeme) :
    (backwards acc).dropWhile isWhitespace = backwards (acc.dropWhile isBlankLexeme) := by
  induction acc with
  | nil => rfl
  | cons x acc ih =>
      rw [backwards_cons]
      cases x with
      | blank c h =>
          rw [List.dropWhile_cons_of_pos (by rfl), ← ih]
          exact List.dropWhile_cons_of_pos (isWhitespace_of_blank h)
      | token t =>
          obtain ⟨c, rest, ht, hc, -⟩ := Token.text_last t
          rw [List.dropWhile_cons_of_neg (by simp [isBlankLexeme]), backwards_cons, Lexeme.text, ht]
          exact List.dropWhile_cons_of_neg (by simp [hc])

theorem dropComma_backwards {acc : List Lexeme} (h : ∀ x ∈ acc.head?, isBlankLexeme x = false) :
    dropComma (backwards acc) = backwards (dropCommaLexeme acc) := by
  cases acc with
  | nil => rfl
  | cons x acc =>
      cases x with
      | blank c hc => exact absurd (h _ rfl) (by simp [isBlankLexeme])
      | token t =>
          obtain ⟨c, rest, ht, -, hcomma⟩ := Token.text_last t
          rw [backwards_cons, Lexeme.text, ht, dropComma, dropCommaLexeme]
          by_cases hc : t.isComma = true
          · obtain rfl := hcomma.mpr hc
            have hempty : rest = [] := by
              cases t with
              | punct c h => simpa [Token.text] using (List.cons.inj ht).2.symm
              | str s => cases hc
              | word w => cases hc
            simp [hc, hempty]
          · have hne : c ≠ ',' := fun heq => hc (hcomma.mp heq)
            simp [hc, hne, backwards_cons, Lexeme.text, ht]

theorem clean_letter (l : Letter) (cleaned : Str) : l.text.foldl cleanStep ⟨true, false, cleaned⟩ =
    ⟨true, false, l.text.reverse ++ cleaned⟩ := by
  cases l with
  | plain c h => simp [Letter.text, cleanStep, h.2]
  | escape l value h => simp [Letter.text, cleanStep]
  | unicode a b c d h =>
      simp only [List.forall_mem_cons] at h
      obtain ⟨ha, hb, hc, hd, -⟩ := h
      simp [Letter.text, cleanStep, (isHexDigit_spec ha).2, (isHexDigit_spec hb).2, (isHexDigit_spec hc).2,
        (isHexDigit_spec hd).2]

theorem clean_literal (s : Literal) (cleaned : Str) : s.text.foldl cleanStep ⟨true, false, cleaned⟩ =
    ⟨true, false, s.text.reverse ++ cleaned⟩ := by
  induction s generalizing cleaned with
  | nil => rfl
  | cons l s ih =>
      have htext : Literal.text (l :: s) = l.text ++ Literal.text s := rfl
      rw [htext, List.foldl_append, clean_letter, ih, List.reverse_append, List.append_assoc]

/-- Outside strings only closing brackets do more than being pushed. -/
theorem clean_code {s : Str} (h : ∀ c ∈ s, c ≠ '"' ∧ c ≠ '\x7d' ∧ c ≠ ']') (cleaned : Str) :
    s.foldl cleanStep ⟨false, false, cleaned⟩ = ⟨false, false, s.reverse ++ cleaned⟩ := by
  induction s generalizing cleaned with
  | nil => rfl
  | cons c s ih =>
      obtain ⟨⟨hquote, hbrace, hbracket⟩, hs⟩ := List.forall_mem_cons.mp h
      have hstep : cleanStep ⟨false, false, cleaned⟩ c = ⟨false, false, c :: cleaned⟩ := by
        simp [cleanStep, hquote, hbrace, hbracket]
      rw [List.foldl_cons, hstep, ih hs, List.reverse_cons, List.append_assoc]
      rfl

theorem clean_lexeme (acc : List Lexeme) (x : Lexeme) :
    x.text.foldl cleanStep (cleanerOf acc) = cleanerOf (lexemeStep acc x) := by
  cases x with
  | blank c h =>
      have hc : ∀ c ∈ [' ', '\t', '\n', '\r'], decide (c ≠ '"' ∧ c ≠ '\x7d' ∧ c ≠ ']') = true :=
        List.all_eq_true.mp (by decide)
      have hother := of_decide_eq_true (hc c (List.contains_iff_mem.mp h))
      exact clean_code (s := [c]) (by simpa using hother) _
  | token t =>
      cases t with
      | punct c h =>
          by_cases hcloses : (Token.punct c h).closes = true
          · have hc : c = '\x7d' ∨ c = ']' := by simpa [Token.closes, or_comm] using hcloses
            have hquote : c ≠ '"' := by rcases hc with rfl | rfl <;> decide
            have hstep : cleanStep (cleanerOf acc) c =
                ⟨false, false, c :: dropComma ((backwards acc).dropWhile isWhitespace)⟩ := by
              simp [cleanStep, cleanerOf, hquote, hc]
            rw [lexemeStep, if_pos hcloses]
            rw [dropWhile_backwards, dropComma_backwards (dropWhile_head acc)] at hstep
            exact hstep
          · have hc : c ≠ '\x7d' ∧ c ≠ ']' := by simpa [Token.closes, and_comm] using hcloses
            have hquote : c ≠ '"' := by
              rintro rfl
              cases h
            rw [lexemeStep, if_neg hcloses]
            exact clean_code (s := [c]) (by simp [hquote, hc]) _
      | str s =>
          have htext : (Lexeme.token (.str s)).text = '"' :: (s.text ++ ['"']) := rfl
          rw [htext, List.foldl_cons, List.foldl_append]
          have hopen : cleanStep (cleanerOf acc) '"' = ⟨true, false, '"' :: backwards acc⟩ := rfl
          rw [hopen, clean_literal]
          simp [cleanStep, lexemeStep, Token.closes, cleanerOf, backwards_cons, htext]
      | word w =>
          refine clean_code (fun c hc => ?_) _
          have hall := w.text_spec.2 c hc
          refine ⟨?_, ?_, ?_⟩ <;> · rintro rfl; cases hall

theorem clean_lexemes (ls acc : List Lexeme) :
    (ls.flatMap Lexeme.text).foldl cleanStep (cleanerOf acc) = cleanerOf (ls.foldl lexemeStep acc) := by
  induction ls generalizing acc with
  | nil => rfl
  | cons x ls ih => rw [List.flatMap_cons, List.foldl_append, clean_lexeme, ih, List.foldl_cons]

/-! ## The tokens that are left -/

/-- What the second loop does with the tokens, the last of them first. -/
def tokenStep (acc : List Token) (t : Token) : List Token :=
  if t.closes then t :: (if acc.head?.any Token.isComma then acc.tail else acc) else t :: acc

theorem tokensOf_dropWhile (acc : List Lexeme) : tokensOf (acc.dropWhile isBlankLexeme) = tokensOf acc := by
  induction acc with
  | nil => rfl
  | cons x acc ih =>
      cases x with
      | blank c h => exact ih
      | token t => rfl

theorem tokensOf_lexemeStep (acc : List Lexeme) (x : Lexeme) :
    tokensOf (lexemeStep acc x) = (x.token?.toList).foldl tokenStep (tokensOf acc) := by
  cases x with
  | blank c h => rfl
  | token t =>
      rw [lexemeStep]
      show _ = tokenStep (tokensOf acc) t
      rw [tokenStep]
      split
      · have hdrop : ∀ acc : List Lexeme, (∀ x ∈ acc.head?, isBlankLexeme x = false) →
            tokensOf (dropCommaLexeme acc) =
              if (tokensOf acc).head?.any Token.isComma then (tokensOf acc).tail else tokensOf acc := by
          intro acc hacc
          cases acc with
          | nil => rfl
          | cons y acc =>
              cases y with
              | blank c h => exact absurd (hacc _ rfl) (by simp [isBlankLexeme])
              | token u => cases hu : u.isComma <;> simp [dropCommaLexeme, hu, tokensOf, Lexeme.token?]
        have hrest := hdrop _ (dropWhile_head acc)
        rw [tokensOf_dropWhile] at hrest
        exact congrArg (t :: ·) hrest
      · rfl

theorem tokensOf_lexemes (ls acc : List Lexeme) :
    tokensOf (ls.foldl lexemeStep acc) = (tokensOf ls).foldl tokenStep (tokensOf acc) := by
  induction ls generalizing acc with
  | nil => rfl
  | cons x ls ih =>
      rw [List.foldl_cons, ih, tokensOf_lexemeStep, ← List.foldl_append]
      cases x <;> rfl

/-- The commas that have been added are dropped again, and no others. -/
theorem foldl_tokenStep {ts us : List Token} (h : WithCommas ts us) (hchain : ts.IsChain Follows) (acc : List Token)
    (hacc : ∀ a ∈ acc.head?, ∀ b ∈ ts.head?, a.isComma = true → b.closes = false) :
    us.foldl tokenStep acc = ts.reverse ++ acc := by
  induction h generalizing acc with
  | nil => rfl
  | same t h ih =>
      have hstep : tokenStep acc t = t :: acc := by
        rw [tokenStep]
        split
        · rename_i hcloses
          have hcomma : acc.head?.any Token.isComma = false := by
            cases acc with
            | nil => rfl
            | cons a acc =>
                by_contra hcomma
                have hopen := hacc a rfl t rfl (by simpa using hcomma)
                rw [hcloses] at hopen
                cases hopen
          rw [hcomma]
          rfl
        · rfl
      rw [List.foldl_cons, hstep, ih hchain.tail _ ?_, List.reverse_cons, List.append_assoc]
      · rfl
      · intro a ha b hb
        cases ha
        exact ((List.isChain_cons.mp hchain).1 b hb).2
  | @trailing t ts us ht h ih =>
      have hcomma : tokenStep acc comma = comma :: acc := rfl
      have hstep : tokenStep (comma :: acc) t = t :: acc := by
        rw [tokenStep, if_pos ht]
        rfl
      rw [List.foldl_cons, List.foldl_cons, hcomma, hstep, ih hchain.tail _ ?_, List.reverse_cons, List.append_assoc]
      · rfl
      · intro a ha b hb hisComma
        cases ha
        cases t with
        | punct c h => 
            simp [Token.closes, Token.isComma] at ht hisComma
            subst hisComma
            simp at ht
        | _ => cases ht

theorem WithCommas.map {ts us : List Token} (h : WithCommas ts us) (f : Literal → Literal) :
    WithCommas (ts.map (Token.map f)) (us.map (Token.map f)) := by
  induction h with
  | nil => exact .nil
  | same t h ih => exact .same _ ih
  | @trailing t ts us ht h ih =>
      refine .trailing ?_ ih
      cases t with
      | punct c h => exact ht
      | _ => cases ht

theorem tokensOf_shown (ps : List Piece) :
    tokensOf (ps.flatMap shown) = (ps.filterMap Piece.token?).map (Token.map latinLiteral) := by
  induction ps with
  | nil => rfl
  | cons p ps ih =>
      rw [List.flatMap_cons, tokensOf, List.filterMap_append, ← tokensOf, ← tokensOf, ih]
      cases p <;> rfl

/-- The document that is left. -/
def latinDocument (d : Decorated) : Document where
  tree := d.document.tree.map latinLiteral
  lexemes := ((d.pieces.flatMap shown).foldl lexemeStep []).reverse
  tokens_eq := by
    have hcommas := d.tokens.map latinLiteral
    rw [← Tree.tokens_map] at hcommas
    have hfold := foldl_tokenStep hcommas (Tree.isChain_tokens _) [] (by simp)
    have htokens := tokensOf_lexemes (d.pieces.flatMap shown) []
    rw [tokensOf_shown] at htokens
    rw [tokensOf, List.filterMap_reverse, ← tokensOf, htokens]
    exact (congrArg List.reverse hfold).trans (by simp)

theorem stripJsonc_text (d : Decorated) : stripJsonc d.text = (latinDocument d).text := by
  have hclean := clean_lexemes (d.pieces.flatMap shown) []
  rw [stripJsonc, withoutComments_text, cleanCommas]
  exact (congrArg (fun s => s.cleaned.reverse) hclean).trans (reverse_backwards _)

/-! ## Strings read byte by byte -/

theorem length_encodeChar (c : Char) : (utf16 c).length ≤ (encodeChar c).length ∧
    ((encodeChar c).length = (utf16 c).length → c.toNat < 0x80) := by
  simp only [utf16, encodeChar]
  by_cases h1 : c.toNat < 0x80
  · simp [h1, show c.toNat < 0x10000 by omega]
  · by_cases h2 : c.toNat < 0x800
    · simp [h1, h2, show c.toNat < 0x10000 by omega]
    · by_cases h3 : c.toNat < 0x10000 <;> simp [h1, h2, h3]

theorem codeUnits_plain {c : Char} (h : 0x20 ≤ c.toNat ∧ c ≠ '"' ∧ c ≠ '\\') :
    (latinLetter (.plain c h)).codeUnits = (latin c).flatMap utf16 := by
  simp [latinLetter, Literal.codeUnits, Letter.codeUnits, latin, List.flatMap_map]

theorem length_latin (c : Char) : ((latin c).flatMap utf16).length = (encodeChar c).length := by
  have hone : ∀ b : UInt8, (utf16 (byteChar b)).length = 1 := by
    intro b
    have hmax := b.toNat_lt
    simp [utf16, byteChar_toNat, show b.toNat < 65536 by omega]
  simp [latin, List.flatMap_map, List.length_flatMap, hone]

theorem codeUnits_latinLetter (l : Letter) : l.codeUnits.length ≤ (latinLetter l).codeUnits.length ∧
    ((latinLetter l).codeUnits.length = l.codeUnits.length → ∀ c ∈ l.text, c.toNat < 0x80) ∧
    ((∀ c ∈ l.text, c.toNat < 0x80) → (latinLetter l).codeUnits = l.codeUnits) := by
  cases l with
  | plain c h =>
      rw [codeUnits_plain, length_latin]
      refine ⟨(length_encodeChar c).1, fun hlen => ?_, fun hall => ?_⟩
      · simpa [Letter.text] using (length_encodeChar c).2 hlen
      · rw [latin_ascii (hall c List.mem_cons_self)]
        simp [Letter.codeUnits]
  | escape l value h =>
      have hsame : (latinLetter (.escape l value h)).codeUnits = (Letter.escape l value h).codeUnits := by
        simp [latinLetter, Literal.codeUnits]
      refine ⟨hsame ▸ le_rfl, fun _ => ?_, fun _ => hsame⟩
      simp [Letter.text, escape_ascii h]
  | unicode a b c d h =>
      have hsame : (latinLetter (.unicode a b c d h)).codeUnits = (Letter.unicode a b c d h).codeUnits := by
        simp [latinLetter, Literal.codeUnits]
      refine ⟨hsame ▸ le_rfl, fun _ x hx => ?_, fun _ => hsame⟩
      simp only [Letter.text, List.mem_cons] at hx
      rcases hx with rfl | rfl | hx
      · decide
      · decide
      · exact (isHexDigit_spec (h x (by simpa using hx))).1

/-- A character beyond ASCII becomes more code units than it has. -/
theorem codeUnits_latinLiteral (s : Literal) :
    (latinLiteral s).codeUnits = s.codeUnits ↔ ∀ c ∈ s.text, c.toNat < 0x80 := by
  have hcons : ∀ l s, (latinLiteral (l :: s)).codeUnits = (latinLetter l).codeUnits ++ (latinLiteral s).codeUnits :=
    fun l s => List.flatMap_append
  have hmem : ∀ {l : Letter} {s : Literal}, (∀ c ∈ Literal.text (l :: s), c.toNat < 0x80) ↔
      (∀ c ∈ l.text, c.toNat < 0x80) ∧ ∀ c ∈ Literal.text s, c.toNat < 0x80 := fun {l s} => List.forall_mem_append
  have hlength : s.codeUnits.length ≤ (latinLiteral s).codeUnits.length ∧
      ((latinLiteral s).codeUnits.length = s.codeUnits.length → ∀ c ∈ s.text, c.toNat < 0x80) := by
    induction s with
    | nil => exact ⟨le_rfl, fun _ c hc => absurd hc List.not_mem_nil⟩
    | cons l s ih =>
        obtain ⟨hle, hascii, -⟩ := codeUnits_latinLetter l
        have hunits : (Literal.codeUnits (l :: s)).length = l.codeUnits.length + (Literal.codeUnits s).length :=
          List.length_append
        rw [hcons, List.length_append, hunits, hmem]
        exact ⟨by omega, fun heq => ⟨hascii (by omega), ih.2 (by omega)⟩⟩
  refine ⟨fun h => hlength.2 (congrArg List.length h), fun h => ?_⟩
  clear hlength
  induction s with
  | nil => rfl
  | cons l s ih =>
      obtain ⟨hl, hs⟩ := hmem.mp h
      rw [hcons, (codeUnits_latinLetter l).2.2 hl, ih hs]
      rfl

theorem sameValue_iff (d : Decorated) : SameValue (stripJsonc d.text) d.document.text ↔
    (d.document.tree.map latinLiteral).value = d.document.tree.value := by
  have hleft : Parses (stripJsonc d.text) (d.document.tree.map latinLiteral).value :=
    ⟨latinDocument d, (stripJsonc_text d).symm, rfl⟩
  have hright : Parses d.document.text d.document.tree.value := ⟨d.document, rfl, rfl⟩
  constructor
  · rintro ⟨v, hv, hw⟩
    exact (hleft.unique hv).trans (hw.unique hright)
  · exact fun heq => ⟨_, heq ▸ hleft, hright⟩

end ThreeVa.Locks
