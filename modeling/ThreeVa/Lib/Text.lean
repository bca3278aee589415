import Mathlib.Data.List.DropRight
import Mathlib.Data.List.Infix
import Mathlib.Tactic.Common

/-!
# Text

A text is the list of its characters and a byte string the list of its bytes. The functions follow the
standard library operations of the same name on `str` and `u8` slices.
-/

namespace Text

abbrev Str := List Char

abbrev Bytes := List UInt8

instance lawfulBEqStr : LawfulBEq Str := inferInstance

/-! ## Splitting -/

section Split

variable {α : Type} [DecidableEq α]

def splitOnce (c : α) : List α → Option (List α × List α)
  | [] => none
  | x :: xs => if x = c then some ([], xs) else (splitOnce c xs).map fun p => (x :: p.1, p.2)

def rsplitOnce (c : α) (s : List α) : Option (List α × List α) :=
  (splitOnce c s.reverse).map fun p => (p.2.reverse, p.1.reverse)

def stripPrefix (p s : List α) : Option (List α) :=
  if p <+: s then some (s.drop p.length) else none

theorem splitOnce_eq_some {c : α} {s a b : List α} :
    splitOnce c s = some (a, b) ↔ s = a ++ c :: b ∧ c ∉ a := by
  induction s generalizing a with
  | nil => simp [splitOnce]
  | cons x xs ih =>
      by_cases hx : x = c
      · subst hx
        cases a with
        | nil => simp [splitOnce, eq_comm]
        | cons y ys => simp only [splitOnce, ↓reduceIte, Option.some.injEq, Prod.mk.injEq]; grind
      · simp only [splitOnce, hx, ↓reduceIte, Option.map_eq_some_iff, Prod.mk.injEq, Prod.exists]
        constructor
        · rintro ⟨a', b', h, rfl, rfl⟩
          obtain ⟨rfl, hc⟩ := ih.mp h
          exact ⟨rfl, by simp [hc, Ne.symm hx]⟩
        · rintro ⟨h, hc⟩
          cases a with
          | nil => simp only [List.nil_append, List.cons.injEq] at h; exact absurd h.1 hx
          | cons y ys =>
              simp only [List.cons_append, List.cons.injEq] at h
              exact ⟨ys, b, ih.mpr ⟨h.2, fun hm => hc (List.mem_cons_of_mem _ hm)⟩, by rw [h.1], rfl⟩

theorem splitOnce_eq_none {c : α} {s : List α} : splitOnce c s = none ↔ c ∉ s := by
  induction s with
  | nil => simp [splitOnce]
  | cons x xs ih =>
      by_cases hx : x = c
      · simp [splitOnce, hx]
      · simp [splitOnce, hx, ih, Ne.symm hx]

theorem splitOnce_append {c : α} {a b : List α} (h : c ∉ a) : splitOnce c (a ++ c :: b) = some (a, b) :=
  splitOnce_eq_some.mpr ⟨rfl, h⟩

theorem rsplitOnce_eq_some {c : α} {s a b : List α} :
    rsplitOnce c s = some (a, b) ↔ s = a ++ c :: b ∧ c ∉ b := by
  simp only [rsplitOnce, Option.map_eq_some_iff, Prod.mk.injEq, Prod.exists, splitOnce_eq_some]
  constructor
  · rintro ⟨b', a', ⟨h, hc⟩, rfl, rfl⟩
    exact ⟨by simpa using congrArg List.reverse h, by simpa using hc⟩
  · rintro ⟨rfl, hc⟩
    exact ⟨b.reverse, a.reverse, ⟨by simp, by simpa using hc⟩, by simp, by simp⟩

theorem rsplitOnce_append {c : α} {a b : List α} (h : c ∉ b) :
    rsplitOnce c (a ++ c :: b) = some (a, b) :=
  rsplitOnce_eq_some.mpr ⟨rfl, h⟩

theorem stripPrefix_eq_some {p s t : List α} : stripPrefix p s = some t ↔ s = p ++ t := by
  unfold stripPrefix
  split
  · rename_i h
    obtain ⟨u, rfl⟩ := h
    simp [eq_comm]
  · rename_i h
    simp only [reduceCtorEq, false_iff]
    rintro rfl
    exact h (List.prefix_append _ _)

@[simp] theorem stripPrefix_singleton_cons (c x : α) (t : List α) :
    stripPrefix [c] (x :: t) = if x = c then some t else none := by
  unfold stripPrefix
  by_cases h : x = c
  · simp [h]
  · simp [List.cons_prefix_cons, h, Ne.symm h]

@[simp] theorem stripPrefix_singleton_nil (c : α) : stripPrefix [c] [] = none := by
  simp [stripPrefix]

end Split

/-! ## Case and white space -/

/-- `char::is_whitespace`: the characters with the Unicode property `White_Space`. -/
def isWhitespace (c : Char) : Bool :=
  (9 ≤ c.toNat && c.toNat ≤ 13) || c.toNat = 0x20 || c.toNat = 0x85 || c.toNat = 0xA0 || c.toNat = 0x1680
    || (0x2000 ≤ c.toNat && c.toNat ≤ 0x200A) || c.toNat = 0x2028 || c.toNat = 0x2029 || c.toNat = 0x202F
    || c.toNat = 0x205F || c.toNat = 0x3000

def trim (s : Str) : Str := (s.dropWhile isWhitespace).rdropWhile isWhitespace

def toAsciiLowercase (s : Str) : Str := s.map Char.toLower

/-- `to_lowercase` of a character. Of the letters beyond ASCII only the two are listed whose lower case begins with a
letter of ASCII; the names compared with are ASCII. -/
def lowerChar (c : Char) : Str :=
  if c = '\u0130' then ['i', '\u0307'] else if c = '\u212A' then ['k'] else [c.toLower]

def toLowercase (s : Str) : Str := s.flatMap lowerChar

def eqIgnoreAsciiCase (s t : Str) : Bool := toAsciiLowercase s = toAsciiLowercase t

theorem isAlphanum_printable {c : Char} (h : c.isAlphanum) : 33 ≤ c.toNat ∧ c.toNat ≤ 126 := by
  have hranges : (decide ('A'.val ≤ c.val ∧ c.val ≤ 'Z'.val) || (decide ('a'.val ≤ c.val) && decide (c.val ≤ 'z'.val)) ||
    (decide ('0'.val ≤ c.val) && decide (c.val ≤ '9'.val))) = true := h
  simp only [Bool.or_eq_true, Bool.and_eq_true, decide_eq_true_eq, UInt32.le_iff_toNat_le, Char.toNat_val,
    Char.reduceToNat] at hranges
  omega

theorem isWhitespace_of_printable {c : Char} (h : 33 ≤ c.toNat ∧ c.toNat ≤ 126) : isWhitespace c = false := by
  simp only [isWhitespace, Bool.or_eq_false_iff, Bool.and_eq_false_iff, decide_eq_false_iff_not]
  omega

/-! ## Numbers -/

def toDigit (radix : Nat) (c : Char) : Option Nat :=
  (if '0' ≤ c ∧ c ≤ '9' then some (c.toNat - 48)
    else if 'a' ≤ c ∧ c ≤ 'z' then some (c.toNat - 87)
    else if 'A' ≤ c ∧ c ≤ 'Z' then some (c.toNat - 55)
    else none).filter (· < radix)

/-- The number the digits write, most significant first, after the digits read so far. -/
def digitsValue (radix : Nat) : Nat → Str → Option Nat
  | acc, [] => some acc
  | acc, c :: cs => (toDigit radix c).bind fun d => digitsValue radix (acc * radix + d) cs

/-- `from_str_radix` of an unsigned type whose largest value is `max`: a leading `+` is accepted. -/
def parseUnsigned (radix max : Nat) : Str → Option Nat
  | [] => none
  | ['+'] => none
  | '+' :: ds => (digitsValue radix 0 ds).filter (· ≤ max)
  | ds => (digitsValue radix 0 ds).filter (· ≤ max)

def u16Max : Nat := 65535

/-- The largest `usize` on a 64-bit target. -/
def usizeMax : Nat := 18446744073709551615

/-- `{n}` in a format string. -/
def decimal (n : Nat) : Str := Nat.toDigits 10 n

theorem toDigit_ten_of_isDigit {c : Char} (h : c.isDigit) : toDigit 10 c = some (c.toNat - 48) := by
  simp only [Char.isDigit, Bool.and_eq_true, decide_eq_true_eq] at h
  have h1 : '0' ≤ c ∧ c ≤ '9' := h
  have h9 : c.toNat ≤ 57 := by
    have := Char.le_def.mp h1.2
    simpa using (UInt32.le_iff_toNat_le.mp this)
  unfold toDigit
  rw [if_pos h1]
  simp only [Option.filter_some, decide_eq_true_eq]
  rw [if_pos (by omega)]

theorem digitsValue_ten {ds : Str} (h : ∀ c ∈ ds, c.isDigit) (acc : Nat) :
    digitsValue 10 acc ds = some (Nat.ofDigitChars 10 ds acc) := by
  induction ds generalizing acc with
  | nil => simp [digitsValue]
  | cons c cs ih =>
      have hc := toDigit_ten_of_isDigit (h c (by simp))
      simp only [digitsValue, hc, Option.bind_some, Nat.ofDigitChars_cons]
      rw [ih (fun d hd => h d (by simp [hd]))]
      simp [Nat.mul_comm]

theorem decimal_isDigit {n : Nat} {c : Char} (h : c ∈ decimal n) : c.isDigit :=
  Nat.isDigit_of_mem_toDigits (by omega) (by omega) h

theorem parseUnsigned_of_head {radix max : Nat} {ds : Str} (hne : ds ≠ []) (h : '+' ∉ ds) :
    parseUnsigned radix max ds = (digitsValue radix 0 ds).filter (· ≤ max) := by
  unfold parseUnsigned
  split
  · exact absurd rfl hne
  · simp at h
  · simp at h
  · rfl

theorem toDigit_ten_of_not_isDigit {c : Char} (h : c.isDigit = false) : toDigit 10 c = none := by
  unfold toDigit
  split
  · rename_i hc
    have hdigit : c.isDigit = true := by
      simp only [Char.isDigit, Bool.and_eq_true, decide_eq_true_eq]
      exact hc
    rw [hdigit] at h
    cases h
  · rename_i hc
    rw [Option.filter_eq_none_iff]
    intro n hn
    simp only [decide_eq_true_eq, Nat.not_lt]
    split at hn
    · rename_i hlow
      have hle : 97 ≤ c.toNat := by simpa using UInt32.le_iff_toNat_le.mp (Char.le_def.mp hlow.1)
      cases hn
      omega
    · split at hn
      · rename_i hup
        have hle : 65 ≤ c.toNat := by simpa using UInt32.le_iff_toNat_le.mp (Char.le_def.mp hup.1)
        cases hn
        omega
      · cases hn

theorem digitsValue_eq_none {ds : Str} (h : ds.all Char.isDigit = false) (acc : Nat) : digitsValue 10 acc ds = none := by
  induction ds generalizing acc with
  | nil => cases h
  | cons c ds ih =>
      rw [digitsValue]
      cases hc : c.isDigit with
      | false => rw [toDigit_ten_of_not_isDigit hc, Option.bind_none]
      | true =>
          rw [List.all_cons, hc, Bool.true_and] at h
          rw [toDigit_ten_of_isDigit hc, Option.bind_some, ih h]

theorem not_mem_digits {ds : Str} (h : ∀ c ∈ ds, c.isDigit) {c : Char} (hc : c.isDigit = false) : c ∉ ds := by
  intro hmem
  rw [h c hmem] at hc
  cases hc

theorem parseUnsigned_le {radix max n : Nat} {s : Str} (h : parseUnsigned radix max s = some n) : n ≤ max := by
  have hfilter : ∀ ds, (digitsValue radix 0 ds).filter (· ≤ max) = some n → n ≤ max := by
    intro ds h
    simpa using (Option.filter_eq_some_iff.mp h).2
  unfold parseUnsigned at h
  split at h
  · cases h
  · cases h
  · exact hfilter _ h
  · exact hfilter _ h

theorem parseUnsigned_decimal {n max : Nat} (h : n ≤ max) : parseUnsigned 10 max (decimal n) = some n := by
  have hplus : '+' ∉ decimal n := fun hm => by simpa using decimal_isDigit hm
  have hne : decimal n ≠ [] := Nat.toDigits_ne_nil
  rw [parseUnsigned_of_head hne hplus, digitsValue_ten (fun _ => decimal_isDigit)]
  simp [decimal, Nat.ofDigitChars_ten_toDigits, h]

end Text
