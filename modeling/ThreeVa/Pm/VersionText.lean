import ThreeVa.Pm.Semver

/-!
# Versions and their precedence

The versions of SemVer 2.0 as texts, and the precedence of section 11 on them. Leading zeros are allowed, and the build
is any text.
-/

namespace ThreeVa.Pm
open Text

/-! ## Numbers and identifiers -/

def numeral (ds : Str) : Nat := Nat.ofDigitChars 10 ds 0

/-- A number of a version: digits of a `u32`. -/
structure Number where
  text : Str
  ne : text ≠ []
  digits : ∀ c ∈ text, c.isDigit
  fits : numeral text ≤ u32Max

def Number.value (n : Number) : Nat := numeral n.text

def isIdentifierChar (c : Char) : Bool := c.isAlphanum || c = '-'

/-- An identifier of a prerelease. -/
structure Identifier where
  text : Str
  ne : text ≠ []
  chars : ∀ c ∈ text, isIdentifierChar c

namespace Identifier

/-- The value of a numeric identifier, of any length. -/
def number (x : Identifier) : Option Nat := if x.text.all Char.isDigit then some (numeral x.text) else none

/-- Numeric identifiers by value and below the others, which are ordered as texts. -/
def precedence (x y : Identifier) : Ordering :=
  match x.number, y.number with
  | some n, some m => compare n m
  | some _, none => .lt
  | none, some _ => .gt
  | none, none => compare x.text y.text

/-- A numeric identifier is a `u64`. -/
def Fits (x : Identifier) : Prop := ∀ n ∈ x.number, n ≤ u64Max

instance (x : Identifier) : Decidable x.Fits :=
  match h : x.number with
  | some n => decidable_of_iff (n ≤ u64Max) (by simp [Fits, h])
  | none => .isTrue (by simp [Fits, h])

end Identifier

/-! ## Versions -/

structure VersionText where
  major : Number
  minor : Number
  patch : Number
  prerelease : List Identifier
  /-- Everything after the first `+`. -/
  build : Option Str

namespace VersionText

def core (v : VersionText) : Str := v.major.text ++ '.' :: (v.minor.text ++ '.' :: v.patch.text)

def prereleaseText (v : VersionText) : Str := ['.'].intercalate (v.prerelease.map Identifier.text)

def buildText (v : VersionText) : Str := v.build.elim [] ('+' :: ·)

def text (v : VersionText) : Str :=
  v.core ++ (if v.prerelease = [] then v.buildText else '-' :: (v.prereleaseText ++ v.buildText))

/-- A version without a prerelease is above those with one. -/
def prereleasePrecedence : List Identifier → List Identifier → Ordering
  | [], [] => .eq
  | [], _ :: _ => .gt
  | _ :: _, [] => .lt
  | x :: xs, y :: ys => List.compareLex Identifier.precedence (x :: xs) (y :: ys)

def precedence (v w : VersionText) : Ordering :=
  (((compare v.major.value w.major.value).then (compare v.minor.value w.minor.value)).then
    (compare v.patch.value w.patch.value)).then (prereleasePrecedence v.prerelease w.prerelease)

/-- The order of the parsed versions is the precedence of the texts. -/
def Realises (v w : VersionText) : Prop :=
  ∃ a b, Semver.parse v.text = some a ∧ Semver.parse w.text = some b ∧ a.cmp b = v.precedence w

/-- What stands between the first `-` of the build and the next `+`. White space at the end of a version is
trimmed. -/
def afterHyphen (v : VersionText) : Str :=
  match v.build.bind fun b => splitOnce '-' (b.rdropWhile isWhitespace) with
  | some (_, rest) => rest.takeWhile fun c => c ≠ '+'
  | none => []

/-- No build is taken for a prerelease, and the numeric identifiers are `u64`. -/
structure ReadsRight (v : VersionText) : Prop where
  build : v.prerelease = [] → v.afterHyphen = []
  fits : ∀ x ∈ v.prerelease, x.Fits

end VersionText

/-- Reflexive, antisymmetric up to `Equal`, and transitive. -/
structure TotalPreorder {α : Type} (cmp : α → α → Ordering) : Prop where
  refl : ∀ a, cmp a a = .eq
  antisymm : ∀ a b, cmp b a = (cmp a b).swap
  trans : ∀ a b c, (cmp a b).isLE → (cmp b c).isLE → (cmp a c).isLE

end ThreeVa.Pm
