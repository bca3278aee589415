import Mathlib.Data.List.Chain
import ThreeVa.Lib.Quoted

/-!
# JSON texts

The grammar of JSON: a document is the tokens of a value with blanks between them. Strings are kept as they are written;
their meaning is a list of UTF-16 code units. A text is a document in one way only, so it has one value at most.
-/

namespace Text.JsonText

/-! ## Strings -/

def isHexDigit (c : Char) : Bool := c.isDigit || ('a' ≤ c && c ≤ 'f') || ('A' ≤ c && c ≤ 'F')

def hexValue (c : Char) : Nat :=
  if c.isDigit then c.toNat - '0'.toNat
  else if 'a' ≤ c then c.toNat - 'a'.toNat + 10
  else c.toNat - 'A'.toNat + 10

def escapeLetters : List (Char × Char) :=
  [('"', '"'), ('\\', '\\'), ('/', '/'), ('b', '\u0008'), ('f', '\u000C'), ('n', '\n'), ('r', '\r'), ('t', '\t')]

/-- A character of a string as it is written. -/
inductive Letter
  | plain (c : Char) (h : 0x20 ≤ c.toNat ∧ c ≠ '"' ∧ c ≠ '\\')
  | escape (l value : Char) (h : (l, value) ∈ escapeLetters)
  | unicode (a b c d : Char) (h : ∀ x ∈ [a, b, c, d], isHexDigit x = true)

def Letter.text : Letter → Str
  | .plain c _ => [c]
  | .escape l _ _ => ['\\', l]
  | .unicode a b c d _ => ['\\', 'u', a, b, c, d]

def utf16 (c : Char) : List Nat :=
  if c.toNat < 0x10000 then [c.toNat]
  else [0xD800 + (c.toNat - 0x10000) / 0x400, 0xDC00 + (c.toNat - 0x10000) % 0x400]

def Letter.codeUnits : Letter → List Nat
  | .plain c _ => utf16 c
  | .escape _ value _ => utf16 value
  | .unicode a b c d _ => [((hexValue a * 16 + hexValue b) * 16 + hexValue c) * 16 + hexValue d]

abbrev Literal := List Letter

def Literal.text (s : Literal) : Str := s.flatMap Letter.text

def Literal.codeUnits (s : Literal) : List Nat := s.flatMap Letter.codeUnits

/-! ## Numbers and names -/

def IsDigits (s : Str) : Prop := s ≠ [] ∧ ∀ c ∈ s, c.isDigit = true

inductive IsNumber : Str → Prop
  | mk (sign whole fraction exponent : Str) (hsign : sign = [] ∨ sign = ['-'])
      (hwhole : IsDigits whole ∧ (whole = ['0'] ∨ whole.head? ≠ some '0'))
      (hfraction : fraction = [] ∨ ∃ ds, IsDigits ds ∧ fraction = '.' :: ds)
      (hexponent : exponent = [] ∨ ∃ e s ds, (e = 'e' ∨ e = 'E') ∧ (s = [] ∨ s = ['+'] ∨ s = ['-']) ∧ IsDigits ds ∧
        exponent = e :: s ++ ds) : IsNumber (sign ++ whole ++ fraction ++ exponent)

structure Word where
  text : Str
  valid : text = "null".toList ∨ text = "true".toList ∨ text = "false".toList ∨ IsNumber text

/-! ## Tokens -/

def isPunct (c : Char) : Bool := ['\x7b', '\x7d', '[', ']', ',', ':'].contains c

inductive Token
  | punct (c : Char) (h : isPunct c = true)
  | str (s : Literal)
  | word (w : Word)

def Token.text : Token → Str
  | .punct c _ => [c]
  | .str s => '"' :: s.text ++ ['"']
  | .word w => w.text

def comma : Token := .punct ',' rfl

def colon : Token := .punct ':' rfl

def openBracket : Token := .punct '[' rfl

def closeBracket : Token := .punct ']' rfl

def openBrace : Token := .punct '\x7b' rfl

def closeBrace : Token := .punct '\x7d' rfl

/-! ## Values -/

/-- A value with strings of some kind, and the members of an object in the order of the text. -/
inductive Tree (σ : Type)
  | word (w : Word)
  | str (s : σ)
  | arr (items : List (Tree σ))
  | obj (members : List (σ × Tree σ))

namespace Tree

variable {σ τ : Type}

/-- Induction over the values in a value. -/
theorem induction {P : Tree σ → Prop} (word : ∀ w, P (.word w)) (str : ∀ s, P (.str s))
    (arr : ∀ items, (∀ v ∈ items, P v) → P (.arr items))
    (obj : ∀ members : List (σ × Tree σ), (∀ x ∈ members, P x.2) → P (.obj members)) (v : Tree σ) : P v :=
  @Tree.rec σ P (fun items => ∀ v ∈ items, P v) (fun members => ∀ x ∈ members, P x.2) (fun x => P x.2) word str arr obj
    (fun _ hv => absurd hv List.not_mem_nil) (fun _ _ hv hvs => List.forall_mem_cons.mpr ⟨hv, hvs⟩)
    (fun _ hx => absurd hx List.not_mem_nil) (fun _ _ hx hxs => List.forall_mem_cons.mpr ⟨hx, hxs⟩) (fun _ _ hv => hv) v

mutual

def map (f : σ → τ) : Tree σ → Tree τ
  | .word w => .word w
  | .str s => .str (f s)
  | .arr items => .arr (mapItems f items)
  | .obj members => .obj (mapMembers f members)

def mapItems (f : σ → τ) : List (Tree σ) → List (Tree τ)
  | [] => []
  | v :: vs => map f v :: mapItems f vs

def mapMembers (f : σ → τ) : List (σ × Tree σ) → List (τ × Tree τ)
  | [] => []
  | (k, v) :: ms => (f k, map f v) :: mapMembers f ms

end

mutual

/-- The strings and the keys. -/
def strings : Tree σ → List σ
  | .word _ => []
  | .str s => [s]
  | .arr items => stringsOfItems items
  | .obj members => stringsOfMembers members

def stringsOfItems : List (Tree σ) → List σ
  | [] => []
  | v :: vs => strings v ++ stringsOfItems vs

def stringsOfMembers : List (σ × Tree σ) → List σ
  | [] => []
  | (k, v) :: ms => k :: strings v ++ stringsOfMembers ms

end

mutual

def tokens : Tree Literal → List Token
  | .word w => [.word w]
  | .str s => [.str s]
  | .arr items => openBracket :: [comma].intercalate (itemTokens items) ++ [closeBracket]
  | .obj members => openBrace :: [comma].intercalate (memberTokens members) ++ [closeBrace]

def itemTokens : List (Tree Literal) → List (List Token)
  | [] => []
  | v :: vs => tokens v :: itemTokens vs

def memberTokens : List (Literal × Tree Literal) → List (List Token)
  | [] => []
  | (k, v) :: ms => (.str k :: colon :: tokens v) :: memberTokens ms

end

def value (v : Tree Literal) : Tree (List Nat) := v.map Literal.codeUnits

end Tree

/-! ## Documents -/

def isBlank (c : Char) : Bool := [' ', '\t', '\n', '\r'].contains c

inductive Lexeme
  | blank (c : Char) (h : isBlank c = true)
  | token (t : Token)

def Lexeme.text : Lexeme → Str
  | .blank c _ => [c]
  | .token t => t.text

def Lexeme.token? : Lexeme → Option Token
  | .blank _ _ => none
  | .token t => some t

def tokensOf (ls : List Lexeme) : List Token := ls.filterMap Lexeme.token?

/-- The tokens of a value with blanks between them. -/
structure Document where
  tree : Tree Literal
  lexemes : List Lexeme
  tokens_eq : tokensOf lexemes = tree.tokens

def Document.text (d : Document) : Str := d.lexemes.flatMap Lexeme.text

/-- The text is a document with this value. -/
def Parses (text : Str) (v : Tree (List Nat)) : Prop := ∃ d : Document, d.text = text ∧ d.tree.value = v

/-! ## The parts of a value -/

namespace Tree

variable {σ τ : Type}

theorem mapItems_eq (f : σ → τ) (items : List (Tree σ)) : mapItems f items = items.map (map f) := by
  induction items with
  | nil => rfl
  | cons v vs ih => rw [mapItems, List.map_cons, ih]

theorem mapMembers_eq (f : σ → τ) (members : List (σ × Tree σ)) :
    mapMembers f members = members.map fun x => (f x.1, map f x.2) := by
  induction members with
  | nil => rfl
  | cons x ms ih => rw [mapMembers, List.map_cons, ih]

theorem mem_stringsOfItems {s : σ} {items : List (Tree σ)} :
    s ∈ stringsOfItems items ↔ ∃ v ∈ items, s ∈ strings v := by
  induction items with
  | nil => simp [stringsOfItems]
  | cons v vs ih => simp [stringsOfItems, ih]

theorem mem_stringsOfMembers {s : σ} {members : List (σ × Tree σ)} :
    s ∈ stringsOfMembers members ↔ ∃ x ∈ members, s = x.1 ∨ s ∈ strings x.2 := by
  induction members with
  | nil => simp [stringsOfMembers]
  | cons x ms ih => simp [stringsOfMembers, ih, or_assoc]

/-- Two maps of the strings give the same value exactly if they agree on the strings. -/
theorem map_eq_map_iff {f g : σ → τ} (v : Tree σ) : v.map f = v.map g ↔ ∀ s ∈ v.strings, f s = g s := by
  induction v using induction with
  | word w => simp [map, strings]
  | str s => simp [map, strings]
  | arr items ih =>
      rw [map, map, mapItems_eq, mapItems_eq, arr.injEq, List.map_inj_left, strings]
      simp only [mem_stringsOfItems]
      constructor
      · rintro h s ⟨v, hv, hs⟩
        exact (ih v hv).mp (h v hv) s hs
      · exact fun h v hv => (ih v hv).mpr fun s hs => h s ⟨v, hv, hs⟩
  | obj members ih =>
      rw [map, map, mapMembers_eq, mapMembers_eq, obj.injEq, List.map_inj_left, strings]
      simp only [mem_stringsOfMembers, Prod.mk.injEq]
      constructor
      · rintro h s ⟨x, hx, rfl | hs⟩
        · exact (h x hx).1
        · exact (ih x hx).mp (h x hx).2 s hs
      · exact fun h x hx => ⟨h _ ⟨x, hx, .inl rfl⟩, (ih x hx).mpr fun s hs => h s ⟨x, hx, .inr hs⟩⟩

theorem map_map {υ : Type} (f : σ → τ) (g : τ → υ) (v : Tree σ) : (v.map f).map g = v.map (g ∘ f) := by
  induction v using induction with
  | word w => rfl
  | str s => rfl
  | arr items ih =>
      simp only [map, mapItems_eq, List.map_map, arr.injEq, List.map_inj_left]
      exact ih
  | obj members ih =>
      simp only [map, mapMembers_eq, List.map_map, obj.injEq, List.map_inj_left]
      exact fun x hx => Prod.ext rfl (ih x hx)

def memberText (x : Literal × Tree Literal) : List Token := .str x.1 :: colon :: x.2.tokens

theorem itemTokens_eq (items : List (Tree Literal)) : itemTokens items = items.map tokens := by
  induction items with
  | nil => rfl
  | cons v vs ih => rw [itemTokens, List.map_cons, ih]

theorem memberTokens_eq (members : List (Literal × Tree Literal)) : memberTokens members = members.map memberText := by
  induction members with
  | nil => rfl
  | cons x ms ih => rw [memberTokens, List.map_cons, ih]; rfl

end Tree

/-! ## Changing the strings of a value -/

def Token.map (f : Literal → Literal) : Token → Token
  | .punct c h => .punct c h
  | .str s => .str (f s)
  | .word w => .word w

theorem map_intercalate {α β : Type} (f : α → β) (sep : α) (xs : List (List α)) :
    ([sep].intercalate xs).map f = [f sep].intercalate (xs.map (List.map f)) := by
  induction xs with
  | nil => rfl
  | cons x xs ih =>
      cases xs with
      | nil => simp
      | cons y ys =>
          simp only [List.map_cons, List.intercalate_cons_cons, List.map_append, List.map_nil] at ih ⊢
          rw [ih]

theorem Tree.tokens_map (f : Literal → Literal) (v : Tree Literal) : (v.map f).tokens = v.tokens.map (Token.map f) := by
  induction v using Tree.induction with
  | word w => rfl
  | str s => rfl
  | arr items ih =>
      have hitems : (items.map (Tree.map f)).map tokens = (items.map tokens).map (List.map (Token.map f)) := by
        rw [List.map_map, List.map_map, List.map_inj_left]
        exact ih
      rw [Tree.map, tokens, tokens, mapItems_eq, itemTokens_eq, itemTokens_eq, hitems, List.map_append, List.map_cons,
        map_intercalate]
      rfl
  | obj members ih =>
      have hmembers : (members.map fun x => (f x.1, x.2.map f)).map memberText =
          (members.map memberText).map (List.map (Token.map f)) := by
        rw [List.map_map, List.map_map, List.map_inj_left]
        intro x hx
        exact congrArg (Token.str (f x.1) :: colon :: ·) (ih x hx)
      rw [Tree.map, tokens, tokens, mapMembers_eq, memberTokens_eq, memberTokens_eq, hmembers, List.map_append,
        List.map_cons, map_intercalate]
      rfl

/-! ## Neighbours -/

def Token.isWord : Token → Bool
  | .word _ => true
  | _ => false

def Token.isComma : Token → Bool
  | .punct c _ => c = ','
  | _ => false

def Token.closes : Token → Bool
  | .punct c _ => c = ']' || c = '\x7d'
  | _ => false

/-- What may stand next to each other in a document. -/
def Follows (a b : Token) : Prop := (a.isWord = true → b.isWord = false) ∧ (a.isComma = true → b.closes = false)

theorem Tree.tokens_head (v : Tree Literal) : ∃ a rest, v.tokens = a :: rest ∧ a.closes = false := by
  cases v with
  | word w => exact ⟨_, _, rfl, rfl⟩
  | str s => exact ⟨_, _, rfl, rfl⟩
  | arr items => exact ⟨_, _, rfl, rfl⟩
  | obj members => exact ⟨_, _, rfl, rfl⟩

/-- The text can be put before what follows a value. -/
def Joins (text : List Token) : Prop :=
  ∀ rest : List Token, rest.IsChain Follows → (∀ b ∈ rest.head?, b.isWord = false) → (text ++ rest).IsChain Follows

theorem restOf_joins {α : Type} {text : α → List Token} {closing : Token} {rest : List Token}
    (hclosing : ∀ b, Follows closing b) (hword : closing.isWord = false) (hrest : rest.IsChain Follows) {xs : List α}
    (hhead : ∀ x ∈ xs, ∃ a more, text x = a :: more ∧ a.closes = false) (htext : ∀ x ∈ xs, Joins (text x)) :
    (restOf text comma closing rest xs).IsChain Follows ∧
      ∀ b ∈ (restOf text comma closing rest xs).head?, b.isWord = false := by
  induction xs with
  | nil => exact ⟨hrest.cons fun b _ => hclosing b, by simpa [restOf] using hword⟩
  | cons x xs ih =>
      obtain ⟨hchain, hnext⟩ :=
        ih (fun y hy => hhead y (List.mem_cons_of_mem _ hy)) fun y hy => htext y (List.mem_cons_of_mem _ hy)
      obtain ⟨a, more, ha, hcloses⟩ := hhead x List.mem_cons_self
      refine ⟨(htext x List.mem_cons_self _ hchain hnext).cons fun b hb => ?_, by simp [restOf, comma, Token.isWord]⟩
      rw [ha] at hb
      cases hb
      exact ⟨by simp [comma, Token.isWord], fun _ => hcloses⟩

theorem joins_list {α : Type} {text : α → List Token} {opening closing : Token} {xs : List α}
    (hopening : ∀ b, Follows opening b) (hclosing : ∀ b, Follows closing b) (hword : closing.isWord = false)
    (hhead : ∀ x ∈ xs, ∃ a more, text x = a :: more ∧ a.closes = false) (htext : ∀ x ∈ xs, Joins (text x)) :
    Joins (opening :: [comma].intercalate (xs.map text) ++ [closing]) := by
  intro rest hrest _
  rw [List.append_assoc, List.cons_append, List.singleton_append]
  refine List.IsChain.cons ?_ fun b _ => hopening b
  cases xs with
  | nil => exact hrest.cons fun b _ => hclosing b
  | cons x xs =>
      rw [intercalate_eq_restOf]
      obtain ⟨hchain, hnext⟩ := restOf_joins hclosing hword hrest (fun y hy => hhead y (List.mem_cons_of_mem _ hy))
        fun y hy => htext y (List.mem_cons_of_mem _ hy)
      exact htext x List.mem_cons_self _ hchain hnext

theorem follows_of {a : Token} (hword : a.isWord = false) (hcomma : a.isComma = false) (b : Token) : Follows a b := by
  simp [Follows, hword, hcomma]

theorem Tree.joins_tokens (v : Tree Literal) : Joins v.tokens := by
  induction v using Tree.induction with
  | word w =>
      intro rest hrest hnext
      exact hrest.cons fun b hb => ⟨fun _ => hnext b hb, nofun⟩
  | str s =>
      intro rest hrest _
      exact hrest.cons fun b _ => follows_of rfl rfl b
  | arr items ih =>
      rw [tokens, itemTokens_eq]
      exact joins_list (follows_of rfl rfl) (follows_of rfl rfl) rfl (fun v _ => v.tokens_head) ih
  | obj members ih =>
      rw [tokens, memberTokens_eq]
      refine joins_list (follows_of rfl rfl) (follows_of rfl rfl) rfl (fun x _ => ⟨_, _, rfl, rfl⟩) ?_
      intro x hx rest hrest hnext
      have hcolon : (colon :: (x.2.tokens ++ rest)).IsChain Follows :=
        (ih x hx rest hrest hnext).cons fun b _ => follows_of rfl rfl b
      exact hcolon.cons fun b _ => follows_of rfl rfl b

theorem Tree.isChain_tokens (v : Tree Literal) : v.tokens.IsChain Follows := by
  simpa using v.joins_tokens [] .nil (by simp)

/-! ## Reading the tokens -/

theorem list_tokens_inj {α : Type} {text : α → List Token} {closing : Token} (hclosing : closing.closes = true)
    {xs ys : List α} (hhead : ∀ x, ∃ a more, text x = a :: more ∧ a.closes = false)
    (hread : ∀ x ∈ xs, ∀ y r r', text x ++ r = text y ++ r' → x = y ∧ r = r') {r r' : List Token}
    (h : [comma].intercalate (xs.map text) ++ [closing] ++ r = [comma].intercalate (ys.map text) ++ [closing] ++ r') :
    xs = ys ∧ r = r' := by
  rw [List.append_assoc, List.append_assoc, List.singleton_append, List.singleton_append] at h
  have hcomma : closing ≠ comma := by
    rintro rfl
    cases hclosing
  -- a token is a symbol of its own, so anything may follow an element
  have hreadable : Readable text comma (fun _ => true) Eq xs ys := fun x hx y _ r r' _ _ => hread x hx y r r'
  have hall := intercalate_inj rfl hcomma hreadable ?_ h
  · exact ⟨List.forall₂_eq_eq_eq ▸ hall.1, hall.2⟩
  · intro x _
    obtain ⟨a, more, ha, hcloses⟩ := hhead x
    refine ⟨a, more, ha, ?_⟩
    rintro rfl
    rw [hclosing] at hcloses
    cases hcloses

theorem Tree.tokens_inj (v : Tree Literal) {w : Tree Literal} {r r' : List Token}
    (h : v.tokens ++ r = w.tokens ++ r') : v = w ∧ r = r' := by
  induction v using Tree.induction generalizing w r r' with
  | word x =>
      cases w with
      | word y => simpa [tokens] using h
      | _ => simp [tokens, openBracket, openBrace] at h
  | str s =>
      cases w with
      | str t => simpa [tokens] using h
      | _ => simp [tokens, openBracket, openBrace] at h
  | arr items ih =>
      cases w with
      | arr items' =>
          rw [tokens, tokens, itemTokens_eq, itemTokens_eq] at h
          obtain ⟨rfl, hr⟩ := list_tokens_inj rfl tokens_head (fun v hv w r r' => ih v hv) (List.cons.inj h).2
          exact ⟨rfl, hr⟩
      | obj members =>
          injection (List.cons.inj h).1 with hc
          exact absurd hc (by decide)
      | _ => simp [tokens, openBracket] at h
  | obj members ih =>
      cases w with
      | obj members' =>
          rw [tokens, tokens, memberTokens_eq, memberTokens_eq] at h
          have hread : ∀ x ∈ members, ∀ y r r', memberText x ++ r = memberText y ++ r' → x = y ∧ r = r' := by
            intro x hx y r r' heq
            simp only [memberText, List.cons_append, List.cons.injEq, Token.str.injEq, true_and] at heq
            obtain ⟨hv, hr⟩ := ih x hx heq.2
            exact ⟨Prod.ext heq.1 hv, hr⟩
          obtain ⟨rfl, hr⟩ := list_tokens_inj rfl (fun x => ⟨_, _, rfl, rfl⟩) hread (List.cons.inj h).2
          exact ⟨rfl, hr⟩
      | arr items =>
          injection (List.cons.inj h).1 with hc
          exact absurd hc (by decide)
      | _ => simp [tokens, openBrace] at h

/-! ## Reading the characters -/

theorem Letter.text_cases (l : Letter) : (∃ c h, l = .plain c h) ∨ ∃ c rest, l.text = '\\' :: c :: rest := by
  cases l with
  | plain c h => exact .inl ⟨c, h, rfl⟩
  | escape l value h => exact .inr ⟨l, [], rfl⟩
  | unicode a b c d h => exact .inr ⟨'u', _, rfl⟩

theorem Letter.prefixFree_text : PrefixFree Letter.text := by
  have hvalue : ∀ p ∈ escapeLetters, ∀ q ∈ escapeLetters, p.1 = q.1 → p.2 = q.2 := by decide
  have hu : ∀ p ∈ escapeLetters, p.1 ≠ 'u' := by decide
  intro l l' x y heq
  cases l with
  | plain c h =>
      cases l' with
      | plain c' h' =>
          obtain rfl := (List.cons.inj heq).1
          rfl
      | _ => exact absurd (List.cons.inj heq).1 h.2.2
  | escape m value h =>
      cases l' with
      | plain c' h' => exact absurd (List.cons.inj heq).1.symm h'.2.2
      | escape m' value' h' =>
          obtain rfl := (List.cons.inj (List.cons.inj heq).2).1
          obtain rfl := hvalue _ h _ h' rfl
          rfl
      | unicode a' b' c' d' h' => exact absurd (List.cons.inj (List.cons.inj heq).2).1 (hu _ h)
  | unicode a b c d h =>
      cases l' with
      | plain c' h' => exact absurd (List.cons.inj heq).1.symm h'.2.2
      | escape m' value' h' => exact absurd (List.cons.inj (List.cons.inj heq).2).1.symm (hu _ h')
      | unicode a' b' c' d' h' =>
          simp only [text, List.cons_append, List.nil_append, List.cons.injEq, true_and] at heq
          obtain ⟨rfl, rfl, rfl, rfl, -⟩ := heq
          rfl

/-- The letters of a literal end at the quotation mark. -/
theorem Literal.text_inj {s t : Literal} {r r' : Str} (h : s.text ++ '"' :: r = t.text ++ '"' :: r') : s = t ∧ r = r' := by
  refine Letter.prefixFree_text.flatMap_inj ?_ h
  intro l x r hl
  cases l with
  | plain c hc => exact hc.2.1 (List.cons.inj hl).1
  | escape m value hm => exact absurd (List.cons.inj hl).1 (by decide)
  | unicode a b c d hd => exact absurd (List.cons.inj hl).1 (by decide)

/-- The characters of numbers and names. -/
def isWordChar (c : Char) : Bool := c.isAlphanum || c = '-' || c = '+' || c = '.'

theorem isWordChar_digits {ds : Str} (h : IsDigits ds) : ∀ c ∈ ds, isWordChar c = true := by
  intro c hc
  simp [isWordChar, Char.isAlphanum, h.2 c hc]

theorem isWordChar_number {s : Str} (h : IsNumber s) : s ≠ [] ∧ ∀ c ∈ s, isWordChar c = true := by
  obtain ⟨sign, whole, fraction, exponent, hsign, hwhole, hfraction, hexponent⟩ := h
  refine ⟨by simp [hwhole.1.1], fun c hc => ?_⟩
  simp only [List.mem_append] at hc
  rcases hc with ((hc | hc) | hc) | hc
  · rcases hsign with rfl | rfl
    · cases hc
    · obtain rfl := List.mem_singleton.mp hc
      decide
  · exact isWordChar_digits hwhole.1 c hc
  · rcases hfraction with rfl | ⟨ds, hds, rfl⟩
    · cases hc
    · rcases List.mem_cons.mp hc with rfl | hc
      · decide
      · exact isWordChar_digits hds c hc
  · rcases hexponent with rfl | ⟨e, s, ds, he, hs, hds, rfl⟩
    · cases hc
    · rcases List.mem_append.mp hc with hc | hc
      · rcases List.mem_cons.mp hc with rfl | hc
        · rcases he with rfl | rfl <;> decide
        · rcases hs with rfl | rfl | rfl
          · cases hc
          · obtain rfl := List.mem_singleton.mp hc
            decide
          · obtain rfl := List.mem_singleton.mp hc
            decide
      · exact isWordChar_digits hds c hc

theorem Word.text_spec (w : Word) : w.text ≠ [] ∧ ∀ c ∈ w.text, isWordChar c = true := by
  rcases w.valid with h | h | h | h
  · exact h ▸ ⟨by decide, List.all_eq_true.mp (by decide)⟩
  · exact h ▸ ⟨by decide, List.all_eq_true.mp (by decide)⟩
  · exact h ▸ ⟨by decide, List.all_eq_true.mp (by decide)⟩
  · exact isWordChar_number h

/-- The kinds of lexemes by their first characters. -/
def kindOf (c : Char) : Nat := if isBlank c then 0 else if isPunct c then 1 else if c = '"' then 2 else 3

def Lexeme.kind : Lexeme → Nat
  | .blank _ _ => 0
  | .token (.punct _ _) => 1
  | .token (.str _) => 2
  | .token (.word _) => 3

theorem kindOf_wordChar {c : Char} (h : isWordChar c = true) : kindOf c = 3 := by
  have hother : ∀ c ∈ [' ', '\t', '\n', '\r', '\x7b', '\x7d', '[', ']', ',', ':', '"'], (!isWordChar c) = true :=
    List.all_eq_true.mp (by decide)
  have hc : c ∉ [' ', '\t', '\n', '\r', '\x7b', '\x7d', '[', ']', ',', ':', '"'] := by
    intro hc
    have hnot := hother c hc
    rw [h] at hnot
    cases hnot
  simp only [List.mem_cons, not_or] at hc
  simp [kindOf, isBlank, isPunct, hc]

theorem kindOf_punct {c : Char} (h : isPunct c = true) : kindOf c = 1 := by
  have hall : ∀ c ∈ ['\x7b', '\x7d', '[', ']', ',', ':'], (kindOf c == 1) = true := List.all_eq_true.mp (by decide)
  exact beq_iff_eq.mp (hall c (List.contains_iff_mem.mp h))

theorem Lexeme.text_head (x : Lexeme) : ∃ c rest, x.text = c :: rest ∧ kindOf c = x.kind := by
  cases x with
  | blank c h => exact ⟨c, [], rfl, if_pos h⟩
  | token t =>
      cases t with
      | punct c h => exact ⟨c, [], rfl, kindOf_punct h⟩
      | str s => exact ⟨'"', _, rfl, show kindOf '"' = 2 by decide⟩
      | word w =>
          obtain ⟨hne, hall⟩ := w.text_spec
          obtain ⟨c, rest, hw⟩ := List.exists_cons_of_ne_nil hne
          exact ⟨c, rest, hw, kindOf_wordChar (hall c (by simp [hw]))⟩

/-- A number or a name ends where the next lexeme begins. -/
theorem takeWhile_word (w : Word) (ls : List Lexeme) (h : ∀ b ∈ (tokensOf ls).head?, b.isWord = false) :
    (w.text ++ ls.flatMap Lexeme.text).takeWhile isWordChar = w.text := by
  rw [List.takeWhile_append_of_pos w.text_spec.2]
  cases ls with
  | nil => simp
  | cons x ls =>
      obtain ⟨c, rest, hx, hkind⟩ := x.text_head
      have hc : isWordChar c = false := by
        by_contra hc
        rw [kindOf_wordChar (by simpa using hc)] at hkind
        cases x with
        | blank c h => cases hkind
        | token t =>
            cases t with
            | word w => exact absurd (h _ rfl) (by simp [Token.isWord])
            | _ => cases hkind
      simp [hx, hc]

theorem Lexeme.text_inj {x y : Lexeme} {ls ls' : List Lexeme} (h : (tokensOf (x :: ls)).IsChain Follows)
    (h' : (tokensOf (y :: ls')).IsChain Follows)
    (heq : x.text ++ ls.flatMap Lexeme.text = y.text ++ ls'.flatMap Lexeme.text) :
    x = y ∧ ls.flatMap Lexeme.text = ls'.flatMap Lexeme.text := by
  have hkind : x.kind = y.kind := by
    obtain ⟨c, rest, hx, hc⟩ := x.text_head
    obtain ⟨d, rest', hy, hd⟩ := y.text_head
    rw [hx, hy] at heq
    rw [← hc, ← hd, (List.cons.inj heq).1]
  cases x with
  | blank c hc =>
      cases y with
      | blank d hd =>
          obtain ⟨rfl, hrest⟩ := List.cons.inj heq
          exact ⟨rfl, hrest⟩
      | token u => cases u <;> cases hkind
  | token t =>
      cases y with
      | blank d hd => cases t <;> cases hkind
      | token u =>
          cases t with
          | punct c hc =>
              cases u with
              | punct d hd =>
                  obtain ⟨rfl, hrest⟩ := List.cons.inj heq
                  exact ⟨rfl, hrest⟩
              | _ => cases hkind
          | str s =>
              cases u with
              | str s' =>
                  simp only [text, Token.text, List.cons_append, List.append_assoc, List.nil_append, List.cons.injEq,
                    true_and] at heq
                  obtain ⟨rfl, hrest⟩ := Literal.text_inj heq
                  exact ⟨rfl, hrest⟩
              | _ => cases hkind
          | word w =>
              cases u with
              | word w' =>
                  have htext : w.text = w'.text := by
                    have htake := congrArg (List.takeWhile isWordChar) heq
                    have hw := takeWhile_word w ls fun b hb => (List.isChain_cons.mp h).1 b hb |>.1 rfl
                    have hw' := takeWhile_word w' ls' fun b hb => (List.isChain_cons.mp h').1 b hb |>.1 rfl
                    exact hw.symm.trans (htake.trans hw')
                  obtain ⟨text, valid⟩ := w
                  obtain rfl : text = w'.text := htext
                  exact ⟨rfl, List.append_cancel_left heq⟩
              | _ => cases hkind

/-- A text is read as the tokens of a document in one way only. -/
theorem tokensOf_unique {ls ls' : List Lexeme} (h : (tokensOf ls).IsChain Follows) (h' : (tokensOf ls').IsChain Follows)
    (heq : ls.flatMap Lexeme.text = ls'.flatMap Lexeme.text) : tokensOf ls = tokensOf ls' := by
  have hempty : ∀ ls : List Lexeme, ls.flatMap Lexeme.text = [] → ls = [] := by
    intro ls hls
    cases ls with
    | nil => rfl
    | cons x ls =>
        obtain ⟨c, rest, hx, -⟩ := x.text_head
        simp [hx] at hls
  induction ls generalizing ls' with
  | nil => rw [hempty ls' heq.symm]
  | cons x ls ih =>
      cases ls' with
      | nil => exact absurd (hempty _ heq) (List.cons_ne_nil _ _)
      | cons y ls' =>
          rw [List.flatMap_cons, List.flatMap_cons] at heq
          obtain ⟨rfl, hrest⟩ := Lexeme.text_inj h h' heq
          have htail : ∀ ls, (tokensOf (x :: ls)).IsChain Follows → (tokensOf ls).IsChain Follows := by
            intro ls hls
            cases x with
            | blank c hc => exact hls
            | token t => exact hls.tail
          have hsame := ih (htail ls h) (htail ls' h') hrest
          cases x with
          | blank c hc => exact hsame
          | token t => exact congrArg (t :: ·) hsame

theorem Parses.unique {text : Str} {v w : Tree (List Nat)} (hv : Parses text v) (hw : Parses text w) : v = w := by
  obtain ⟨d, rfl, rfl⟩ := hv
  obtain ⟨e, he, rfl⟩ := hw
  have hchain : ∀ d : Document, (tokensOf d.lexemes).IsChain Follows := fun d => d.tokens_eq ▸ d.tree.isChain_tokens
  have htokens := tokensOf_unique (hchain d) (hchain e) he.symm
  rw [d.tokens_eq, e.tokens_eq, ← List.append_nil d.tree.tokens, ← List.append_nil e.tree.tokens] at htokens
  rw [(d.tree.tokens_inj htokens).1]

end Text.JsonText
