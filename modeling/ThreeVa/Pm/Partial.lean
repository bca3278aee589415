import ThreeVa.Pm.Semver
import ThreeVa.Pm.VersionText

/-!
# Partial versions and their intervals

The versions npm allows after `^`, after `~` and as an x-range: one to three numbers, then components that are
missing or wildcards. What such a range stands for is an interval of releases.
-/

namespace ThreeVa.Pm
open Text

inductive Wild
  | x
  | upperX
  | star
deriving DecidableEq

def Wild.text : Wild → Str
  | x => ['x']
  | upperX => ['X']
  | star => ['*']

inductive PartialVersion
  | major (major : Nat)
  | majorX (major : Nat) (w : Wild)
  | majorXX (major : Nat) (w w' : Wild)
  /-- `1.x.3`: the number after the wildcard says nothing. -/
  | majorXPatch (major : Nat) (w : Wild) (patch : Nat)
  | minor (major minor : Nat)
  | minorX (major minor : Nat) (w : Wild)
  | full (major minor patch : Nat)

inductive Operator
  | caret
  | tilde
  | xRange
deriving DecidableEq

def Operator.text : Operator → Str
  | caret => ['^']
  | tilde => ['~']
  | xRange => []

namespace PartialVersion

/-- The first number, and the components after it. -/
def parts : PartialVersion → Nat × List Str
  | major M => (M, [])
  | majorX M w => (M, [w.text])
  | majorXX M w w' => (M, [w.text, w'.text])
  | majorXPatch M w p => (M, [w.text, decimal p])
  | minor M m => (M, [decimal m])
  | minorX M m w => (M, [decimal m, w.text])
  | full M m p => (M, [decimal m, decimal p])

def text (w : PartialVersion) : Str := ['.'].intercalate (decimal w.parts.1 :: w.parts.2)

/-- The numbers up to the first wildcard. -/
def written : PartialVersion → List Nat
  | major M | majorX M _ | majorXX M _ _ | majorXPatch M _ _ => [M]
  | minor M m | minorX M m _ => [M, m]
  | full M m p => [M, m, p]

def numbers : PartialVersion → List Nat
  | majorXPatch M _ p => [M, p]
  | w => w.written

end PartialVersion

/-! ## Intervals -/

/-- Missing numbers are zero. -/
def padded (ns : List Nat) : Semver := .release (ns[0]?.getD 0) (ns[1]?.getD 0) (ns[2]?.getD 0)

/-- The left-most non-zero number increased, or the last one if all are zero. -/
def bumpCaret : List Nat → List Nat
  | [] => []
  | [n] => [n + 1]
  | n :: ns => if n ≠ 0 then [n + 1] else n :: bumpCaret ns

/-- The second number increased, or the first one if it stands alone. -/
def bumpTilde : List Nat → List Nat
  | [] => []
  | [n] => [n + 1]
  | n :: m :: _ => [n, m + 1]

def Operator.next : Operator → List Nat → Semver
  | caret, ns => padded (bumpCaret ns)
  | tilde, ns | xRange, ns => padded (bumpTilde ns)

def Between (lo hi v : Semver) : Prop := (v.cmp lo).isGE = true ∧ (v.cmp hi).isLT = true

/-- The releases that `r` matches are those from `lo` on below `hi`. -/
def Denotes (r : SemverRange) (lo hi : Semver) : Prop :=
  ∀ v : Semver, v.prerelease = [] → (r.matches v = true ↔ Between lo hi v)

/-- The forms in which the zeros filled in make no difference. -/
def keepsMeaning : Operator → PartialVersion → Bool
  | .caret, .majorXPatch M _ p => M ≠ 0 && p = 0
  | .caret, w => 3 ≤ w.written.length || w.written.any (· ≠ 0)
  | .tilde, w => 2 ≤ w.written.length
  | .xRange, w => 2 ≤ w.written.length || w.written.any (· ≠ 0)

end ThreeVa.Pm

/-!
## Hyphen ranges

The texts `A - B` whose bounds are full versions or partial ones, and the releases they stand for.
-/

namespace ThreeVa.Pm
open Text

/-! ## Bounds -/

/-- Numbers, and after them only missing components and wildcards; not all three numbers. -/
def PartialVersion.trailing : PartialVersion → Bool
  | majorXPatch .. | full .. => false
  | _ => true

/-- The wildcards written. -/
def PartialVersion.wilds : PartialVersion → List Wild
  | majorX _ w | minorX _ _ w | majorXPatch _ w _ => [w]
  | majorXX _ w w' => [w, w']
  | _ => []

/-- The version as it is meant. -/
def VersionText.semver (v : VersionText) : Semver :=
  ⟨v.major.value, v.minor.value, v.patch.value, v.prereleaseText, v.build.getD []⟩

inductive Bound
  | full (v : VersionText) (build : ∀ b ∈ v.build, ∀ c ∈ b, isIdentifierChar c ∨ c = '.')
  | part (w : PartialVersion) (trailing : w.trailing) (fits : ∀ n ∈ w.numbers, n ≤ u32Max)

namespace Bound

def text : Bound → Str
  | full v _ => v.text
  | part w _ _ => w.text

def lower : Bound → Semver
  | full v _ => v.semver
  | part w _ _ => padded w.written

/-- The last number increased. -/
def bumpLast : List Nat → List Nat
  | [] => []
  | [n] => [n + 1]
  | n :: ns => n :: bumpLast ns

/-- The version is below the upper bound: up to a full version, or before the next number of a partial one. -/
def Admits (b : Bound) (v : Semver) : Prop :=
  match b with
  | full b _ => (v.cmp b.semver).isLE = true
  | part w _ _ => (v.cmp (padded (bumpLast w.written))).isLT = true

end Bound

def hyphenText (lo hi : Bound) : Str := lo.text ++ [' ', '-', ' '] ++ hi.text

/-- The numbers are `u32`. -/
structure Semver.Fits (v : Semver) : Prop where
  major : v.major ≤ u32Max
  minor : v.minor ≤ u32Max
  patch : v.patch ≤ u32Max

/-- Reading the upper bound adds one to the largest `u32`. -/
def hyphenOverflows (hi : Str) : Bool :=
  match Semver.parse hi, SemverRange.parsePartial hi with
  | none, some p =>
      if (trimEndDot '*' (trimEndDot 'x' hi)).count '.' = 0 then p.major = u32Max else p.minor = u32Max
  | _, _ => false

/-! ## Where the range is what is meant -/

/-- The range is read without overflow, and matches the releases between its bounds. -/
structure HyphenExact (lo hi : Bound) : Prop where
  matches_iff : ∃ r, SemverRange.parse (hyphenText lo hi) = some r ∧ ∀ v : Semver, v.prerelease = [] → v.Fits →
    (r.matches v = true ↔ (v.cmp lo.lower).isGE = true ∧ hi.Admits v)
  fits : hyphenOverflows hi.text = false

/-- No wildcard is left when `.x` and then `.*` are trimmed. -/
def wildsTrimmed (ws : List Wild) : Bool := ((ws.rdropWhile (· = .x)).rdropWhile (· = .star)).isEmpty

/-- A full upper bound has no build that is taken for a prerelease, and of a partial one the last number can be
increased and the wildcards are trimmed; unless the lower bound is above all that. -/
def HyphenFits (lo hi : Bound) : Prop :=
  match hi with
  | .full v _ => (v.prerelease = [] → v.afterHyphen = []) ∨ (v.semver.cmp lo.lower).isLT = true
  | .part w _ _ =>
      match w.written with
      | [M] =>
          if wildsTrimmed w.wilds then M < u32Max else ((Semver.release M u32Max u32Max).cmp lo.lower).isLT = true
      | ns => ∀ m ∈ ns.getLast?, m < u32Max

end ThreeVa.Pm
