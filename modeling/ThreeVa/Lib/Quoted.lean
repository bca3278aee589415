import ThreeVa.Lib.Text

/-!
# Quoted strings

A writer of string literals that escapes characters by a letter or a number after a backslash. Its words are a prefix
code, so a literal and what follows it can be told apart in every text.
-/

namespace Text

/-! ## Prefix codes -/

/-- Nothing that begins with the word of one letter begins with the word of another. -/
def PrefixFree {α β : Type} (code : α → List β) : Prop := ∀ a b x y, code a ++ x = code b ++ y → a = b

/-- A coded text ends where a symbol comes that begins no word. -/
theorem PrefixFree.flatMap_inj {α β : Type} {code : α → List β} (h : PrefixFree code) {stop : β}
    (hstop : ∀ a x r, code a ++ x ≠ stop :: r) {s t : List α} {r r' : List β}
    (heq : s.flatMap code ++ stop :: r = t.flatMap code ++ stop :: r') : s = t ∧ r = r' := by
  induction s generalizing t with
  | nil =>
      cases t with
      | nil => exact ⟨rfl, by simpa using heq⟩
      | cons b t =>
          rw [List.flatMap_cons, List.append_assoc] at heq
          exact absurd heq.symm (hstop b _ r)
  | cons a s ih =>
      cases t with
      | nil =>
          rw [List.flatMap_cons, List.append_assoc] at heq
          exact absurd heq (hstop a _ r')
      | cons b t =>
          rw [List.flatMap_cons, List.flatMap_cons, List.append_assoc, List.append_assoc] at heq
          obtain rfl := h a b _ _ heq
          obtain ⟨rfl, rfl⟩ := ih (List.append_cancel_left heq)
          exact ⟨rfl, rfl⟩

/-! ## Delimited lists -/

section Delimited

variable {α β : Type} {text : α → List β} {R : α → α → Prop} {close : β → Bool} {comma bracket : β}

/-- What may follow an element of a list. -/
def Ends (comma : β) (close : β → Bool) (r : List β) : Prop := ∀ c ∈ r.head?, c = comma ∨ close c = true

/-- The text after an element: the other elements, each after a comma, and the bracket. -/
def restOf (text : α → List β) (comma bracket : β) (r : List β) : List α → List β
  | [] => bracket :: r
  | x :: xs => comma :: text x ++ restOf text comma bracket r xs

theorem ends_restOf (hclose : close bracket = true) (r : List β) (xs : List α) :
    Ends comma close (restOf text comma bracket r xs) := by
  cases xs <;> simp [Ends, restOf, hclose]

theorem intercalate_eq_restOf (r : List β) (x : α) (xs : List α) :
    [comma].intercalate ((x :: xs).map text) ++ bracket :: r = text x ++ restOf text comma bracket r xs := by
  induction xs generalizing x with
  | nil => rw [List.map_singleton, List.intercalate_singleton, restOf]
  | cons y xs ih =>
      rw [List.map_cons, List.map_cons, List.intercalate_cons_cons, ← List.map_cons, List.append_assoc, List.append_assoc,
        ih]
      rfl

/-- The elements of two lists are told apart from what may follow them. -/
def Readable (text : α → List β) (comma : β) (close : β → Bool) (R : α → α → Prop) (xs ys : List α) : Prop :=
  ∀ x ∈ xs, ∀ y ∈ ys, ∀ r r', Ends comma close r → Ends comma close r' → text x ++ r = text y ++ r' → R x y ∧ r = r'

theorem Readable.tail {x y : α} {xs ys : List α} (h : Readable text comma close R (x :: xs) (y :: ys)) :
    Readable text comma close R xs ys :=
  fun a ha b hb => h a (List.mem_cons_of_mem _ ha) b (List.mem_cons_of_mem _ hb)

theorem restOf_inj (hclose : close bracket = true) (hcomma : bracket ≠ comma) {xs ys : List α} {r r' : List β}
    (hread : Readable text comma close R xs ys) (h : restOf text comma bracket r xs = restOf text comma bracket r' ys) :
    List.Forall₂ R xs ys ∧ r = r' := by
  induction xs generalizing ys with
  | nil =>
      cases ys with
      | nil => exact ⟨.nil, (List.cons.inj h).2⟩
      | cons y ys => exact absurd (List.cons.inj h).1 hcomma
  | cons x xs ih =>
      cases ys with
      | nil => exact absurd (List.cons.inj h).1.symm hcomma
      | cons y ys =>
          obtain ⟨hR, hrest⟩ := hread x List.mem_cons_self y List.mem_cons_self _ _ (ends_restOf hclose r xs)
            (ends_restOf hclose r' ys) (List.cons.inj h).2
          obtain ⟨hall, hr⟩ := ih hread.tail hrest
          exact ⟨.cons hR hall, hr⟩

/-- A list with commas between its elements and a bracket after them is read back element by element, if no element
begins with the bracket. -/
theorem intercalate_inj (hclose : close bracket = true) (hcomma : bracket ≠ comma) {xs ys : List α} {r r' : List β}
    (hread : Readable text comma close R xs ys)
    (hhead : ∀ x, x ∈ xs ∨ x ∈ ys → ∃ c rest, text x = c :: rest ∧ c ≠ bracket)
    (h : [comma].intercalate (xs.map text) ++ bracket :: r = [comma].intercalate (ys.map text) ++ bracket :: r') :
    List.Forall₂ R xs ys ∧ r = r' := by
  cases xs with
  | nil =>
      cases ys with
      | nil => exact ⟨.nil, (List.cons.inj h).2⟩
      | cons y ys =>
          obtain ⟨c, rest, hc, hne⟩ := hhead y (.inr List.mem_cons_self)
          rw [intercalate_eq_restOf, hc] at h
          exact absurd (List.cons.inj h).1.symm hne
  | cons x xs =>
      cases ys with
      | nil =>
          obtain ⟨c, rest, hc, hne⟩ := hhead x (.inl List.mem_cons_self)
          rw [intercalate_eq_restOf, hc] at h
          exact absurd (List.cons.inj h).1 hne
      | cons y ys =>
          rw [intercalate_eq_restOf, intercalate_eq_restOf] at h
          obtain ⟨hR, hrest⟩ := hread x List.mem_cons_self y List.mem_cons_self _ _ (ends_restOf hclose r xs)
            (ends_restOf hclose r' ys) h
          obtain ⟨hall, hr⟩ := restOf_inj hclose hcomma hread.tail hrest
          exact ⟨.cons hR hall, hr⟩

end Delimited

/-! ## Hexadecimal numbers -/

theorem mem_toDigits_sixteen {n : Nat} {c : Char} (h : c ∈ Nat.toDigits 16 n) : ∃ d < 16, c = Nat.digitChar d := by
  induction n using Nat.strongRecOn with
  | ind n ih =>
      rw [Nat.toDigits_eq_if (by decide)] at h
      split at h
      · rename_i hn
        exact ⟨n, hn, List.mem_singleton.mp h⟩
      · rcases List.mem_append.mp h with h | h
        · exact ih (n / 16) (by omega) h
        · exact ⟨n % 16, Nat.mod_lt _ (by decide), List.mem_singleton.mp h⟩

theorem digitChar_inj : ∀ m < 16, ∀ n < 16, Nat.digitChar m = Nat.digitChar n → m = n := by decide

theorem toDigits_sixteen_inj {m n : Nat} (h : Nat.toDigits 16 m = Nat.toDigits 16 n) : m = n := by
  induction m using Nat.strongRecOn generalizing n with
  | ind m ih =>
      rw [Nat.toDigits_eq_if (n := m) (by decide), Nat.toDigits_eq_if (n := n) (by decide)] at h
      have hlong : ∀ k d, Nat.toDigits 16 k ++ [d] ≠ [Nat.digitChar m] ∧ Nat.toDigits 16 k ++ [d] ≠ [Nat.digitChar n] := by
        intro k d
        have hk := Nat.toDigits_ne_nil (n := k) (b := 16)
        cases hd : Nat.toDigits 16 k with
        | nil => exact absurd hd hk
        | cons c cs => simp
      split at h
      · rename_i hm
        split at h
        · rename_i hn
          exact digitChar_inj m hm n hn (List.singleton_inj.mp h)
        · exact absurd h.symm (hlong _ _).1
      · split at h
        · exact absurd h (hlong _ _).2
        · obtain ⟨hdiv, hmod⟩ := List.append_inj' h rfl
          have h1 := ih (m / 16) (by omega) hdiv
          have h2 := digitChar_inj _ (Nat.mod_lt m (by decide)) _ (Nat.mod_lt n (by decide)) (List.singleton_inj.mp hmod)
          omega

/-! ## Escapes -/

/-- How a writer escapes the characters of a string literal. -/
structure Escapes where
  /-- The letters that stand for characters after the backslash. -/
  letters : List (Char × Char)
  /-- The other characters that are not written as they are. -/
  coded : Char → Bool
  /-- The number of a character after `\u`. -/
  number : Char → Str
  letters_inj : ∀ p ∈ letters, ∀ q ∈ letters, p.2 = q.2 → p.1 = q.1
  letters_ne_u : ∀ p ∈ letters, p.2 ≠ 'u'
  number_free : ∀ a b x y, coded a = true → coded b = true → number a ++ x = number b ++ y → a = b
  backslash : letters.lookup '\\' ≠ none
  quotation : letters.lookup '"' ≠ none

namespace Escapes

variable (e : Escapes)

def word (c : Char) : Str :=
  match e.letters.lookup c with
  | some l => ['\\', l]
  | none => if e.coded c then '\\' :: 'u' :: e.number c else [c]

def quote (s : Str) : Str := '"' :: s.flatMap e.word ++ ['"']

variable {e}

theorem word_cases (e : Escapes) (c : Char) : (∃ l, (c, l) ∈ e.letters ∧ e.word c = ['\\', l]) ∨
    e.coded c = true ∧ e.word c = '\\' :: 'u' :: e.number c ∨ e.word c = [c] ∧ c ≠ '\\' ∧ c ≠ '"' := by
  unfold word
  cases hl : e.letters.lookup c with
  | some l =>
      obtain ⟨before, after, hsplit, -⟩ := List.lookup_eq_some_iff.mp hl
      exact .inl ⟨l, by simp [hsplit], rfl⟩
  | none =>
      simp only
      split
      · exact .inr (.inl ⟨‹_›, rfl⟩)
      · refine .inr (.inr ⟨rfl, ?_, ?_⟩)
        · rintro rfl
          exact e.backslash hl
        · rintro rfl
          exact e.quotation hl

theorem prefixFree_word : PrefixFree e.word := by
  intro a b x y h
  rcases word_cases e a with ⟨l, hl, ha⟩ | ⟨hcoded, ha⟩ | ⟨ha, hslash, -⟩ <;>
    rcases word_cases e b with ⟨l', hl', hb⟩ | ⟨hcoded', hb⟩ | ⟨hb, hslash', -⟩ <;>
    simp only [ha, hb, List.cons_append, List.nil_append, List.cons.injEq, true_and] at h
  · exact e.letters_inj _ hl _ hl' h.1
  · exact absurd h.1 (e.letters_ne_u _ hl)
  · exact absurd h.1.symm hslash'
  · exact absurd h.1.symm (e.letters_ne_u _ hl')
  · exact e.number_free a b x y hcoded hcoded' h
  · exact absurd h.1.symm hslash'
  · exact absurd h.1 hslash
  · exact absurd h.1 hslash
  · exact h.1

/-- A literal and what follows it are read back from the text. -/
theorem quote_append_inj {s t r r' : Str} (h : e.quote s ++ r = e.quote t ++ r') : s = t ∧ r = r' := by
  simp only [quote, List.cons_append, List.append_assoc, List.nil_append, List.cons.injEq, true_and] at h
  apply e.prefixFree_word.flatMap_inj ?_ h
  intro c x r h
  rcases word_cases e c with ⟨l, -, hc⟩ | ⟨-, hc⟩ | ⟨hc, -, hquote⟩
  · simp [hc] at h
  · simp [hc] at h
  · simp only [hc, List.cons_append, List.nil_append, List.cons.injEq] at h
    exact hquote h.1

end Escapes

/-! ## `Debug` of `str`, and `serde_json` -/

/-- The characters that Unicode says extend a grapheme, and those that are printable. -/
structure CharTables where
  graphemeExtend : Char → Bool
  printable : Char → Bool

/-- `{:?}` of a string. -/
def Escapes.debug (tables : CharTables) : Escapes where
  letters := [('\u0000', '0'), ('\t', 't'), ('\r', 'r'), ('\n', 'n'), ('\\', '\\'), ('"', '"')]
  coded := fun c => tables.graphemeExtend c || !tables.printable c
  number := fun c => '\x7b' :: Nat.toDigits 16 c.toNat ++ ['\x7d']
  letters_inj := by decide
  letters_ne_u := by decide
  number_free := by
    intro a b x y _ _ h
    have hbrace : ∀ n, '\x7d' ∉ Nat.toDigits 16 n := by
      intro n hn
      obtain ⟨d, hd, heq⟩ := mem_toDigits_sixteen hn
      exact absurd heq (by revert d; decide)
    simp only [List.cons_append, List.append_assoc, List.nil_append, List.cons.injEq, true_and] at h
    have hsplit := congrArg (splitOnce '\x7d') h
    rw [splitOnce_append (hbrace _), splitOnce_append (hbrace _), Option.some.injEq, Prod.mk.injEq] at hsplit
    exact Char.toNat_inj.mp (toDigits_sixteen_inj hsplit.1)
  backslash := by decide
  quotation := by decide

/-- A string as `serde_json` writes it; only control characters are numbered, by two digits. -/
def Escapes.json : Escapes where
  letters := [('"', '"'), ('\\', '\\'), ('\u0008', 'b'), ('\t', 't'), ('\n', 'n'), ('\u000C', 'f'), ('\r', 'r')]
  coded := fun c => c.toNat < 0x20
  number := fun c => ['0', '0', Nat.digitChar (c.toNat / 16), Nat.digitChar (c.toNat % 16)]
  letters_inj := by decide
  letters_ne_u := by decide
  number_free := by
    intro a b x y ha hb h
    simp only [decide_eq_true_eq] at ha hb
    simp only [List.cons_append, List.nil_append, List.cons.injEq, true_and] at h
    have hhigh := digitChar_inj _ (by omega) _ (by omega) h.1
    have hlow := digitChar_inj _ (Nat.mod_lt _ (by decide)) _ (Nat.mod_lt _ (by decide)) h.2.1
    exact Char.toNat_inj.mp (by omega)
  backslash := by decide
  quotation := by decide

end Text
