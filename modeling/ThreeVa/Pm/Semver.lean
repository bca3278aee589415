import ThreeVa.Lib.Words

/-!
# Versions and ranges

`pm/src/semver.rs`: versions, their order, the ranges of npm and which versions a range matches. The numbers of a
version are `u32`; `parse` reads no larger ones.
-/

namespace ThreeVa.Pm
open Text

def u32Max : Nat := 4294967295

def u64Max : Nat := 18446744073709551615

def parseU32 (s : Str) : Option Nat := parseUnsigned 10 u32Max s

/-! ## Versions -/

structure Semver where
  major : Nat
  minor : Nat
  patch : Nat
  prerelease : Str
  build : Str
deriving DecidableEq

namespace Semver

def release (major minor patch : Nat) : Semver := ⟨major, minor, patch, [], []⟩

/-- The prerelease and the build of the text after the first `-`. -/
def parsePrereleaseBuild : Option Str → Str × Str
  | some pb =>
      let parts := pb.splitOn '+'
      (parts[0]?.getD [], parts[1]?.getD [])
  | none => ([], [])

def parse (version : Str) : Option Semver :=
  let version := trim version
  let (main, prereleaseBuild) :=
    match splitOnce '-' version with
    | some (main, pb) => (main, some pb)
    | none => (version, none)
  match main.splitOn '.' with
  | major :: minor :: patch :: _ => do
      let major ← parseU32 major
      let minor ← parseU32 minor
      let patch ← parseU32 (← (patch.splitOn '+').head?)
      let (prerelease, build) := parsePrereleaseBuild prereleaseBuild
      some { major, minor, patch, prerelease, build }
  | _ => none

/-- Two identifiers of a prerelease: numeric ones numerically and below the others. -/
def cmpIdentifier (x y : Str) : Ordering :=
  match parseUnsigned 10 u64Max x, parseUnsigned 10 u64Max y with
  | some n, some m => compare n m
  | some _, none => .lt
  | none, some _ => .gt
  | none, none => compare x y

def cmpPrereleaseLoop : List Str → List Str → Ordering
  | [], [] => .eq
  | [], _ :: _ => .lt
  | _ :: _, [] => .gt
  | x :: xs, y :: ys =>
      match cmpIdentifier x y with
      | .eq => cmpPrereleaseLoop xs ys
      | o => o

def cmpPrerelease (a b : Str) : Ordering := cmpPrereleaseLoop (a.splitOn '.') (b.splitOn '.')

def cmp (a b : Semver) : Ordering :=
  match compare a.major b.major with
  | .eq =>
      match compare a.minor b.minor with
      | .eq =>
          match compare a.patch b.patch with
          | .eq =>
              match a.prerelease.isEmpty, b.prerelease.isEmpty with
              | true, false => .gt
              | false, true => .lt
              | true, true => .eq
              | false, false => cmpPrerelease a.prerelease b.prerelease
          | o => o
      | o => o
  | o => o

end Semver

/-! ## Ranges -/

inductive SemverRange
  | exact (v : Semver)
  | caret (base : Semver)
  | tilde (base : Semver)
  | gt (v : Semver)
  | gte (v : Semver)
  | lt (v : Semver)
  | lte (v : Semver)
  | and (a b : SemverRange)
  | or (a b : SemverRange)
  | any
deriving DecidableEq

namespace SemverRange

def namesPrereleaseOf (v : Semver) : SemverRange → Bool
  | exact b | caret b | tilde b | gt b | gte b | lt b | lte b =>
      !b.prerelease.isEmpty && (b.major, b.minor, b.patch) = (v.major, v.minor, v.patch)
  | and a b => a.namesPrereleaseOf v || b.namesPrereleaseOf v
  | or _ _ | any => false

/-- `matches_ignoring_prerelease_rule` of a range that is neither `And` nor `Or`. -/
def matchesComparator (version : Semver) : SemverRange → Bool
  | exact v => version = v
  | caret base =>
      if base.major ≠ 0 then version.major = base.major && (version.cmp base).isGE
      else if base.minor ≠ 0 then
        version.major = 0 && version.minor = base.minor && (version.cmp base).isGE
      else version.major = 0 && version.minor = 0 && version.patch = base.patch
  | tilde base => version.major = base.major && version.minor = base.minor && (version.cmp base).isGE
  | gt v => (version.cmp v).isGT
  | gte v => (version.cmp v).isGE
  | lt v => (version.cmp v).isLT
  | lte v => (version.cmp v).isLE
  | and _ _ | or _ _ | any => true

end SemverRange

/-- What the prerelease rule asks of a range that is not `Or`. -/
def SemverRange.passesPrereleaseRule (version : Semver) (r : SemverRange) : Bool :=
  version.prerelease.isEmpty || r.namesPrereleaseOf version

mutual

/-- A prerelease only matches a range that names a prerelease of the same numbers. -/
def SemverRange.matches (version : Semver) : SemverRange → Bool
  | .or a b => a.matches version || b.matches version
  -- `matches_ignoring_prerelease_rule` of the conjunction, written out for the recursion.
  | .and a b =>
      a.matchesIgnoringPrereleaseRule version && b.matchesIgnoringPrereleaseRule version &&
        (SemverRange.and a b).passesPrereleaseRule version
  | r => r.matchesComparator version && r.passesPrereleaseRule version

def SemverRange.matchesIgnoringPrereleaseRule (version : Semver) : SemverRange → Bool
  | .and a b => a.matchesIgnoringPrereleaseRule version && b.matchesIgnoringPrereleaseRule version
  | .or a b => a.matches version || b.matches version
  | r => r.matchesComparator version

end

theorem SemverRange.matches_eq (version : Semver) {r : SemverRange} (h : ∀ a b, r ≠ .or a b) :
    r.matches version = (r.matchesIgnoringPrereleaseRule version && r.passesPrereleaseRule version) := by
  cases r with
  | or a b => exact absurd rfl (h a b)
  | _ => simp [SemverRange.matches, SemverRange.matchesIgnoringPrereleaseRule]

/-! ## Reading a range -/

namespace SemverRange

def isDistTag (s : Str) : Bool := !s.isEmpty && s.all fun c => c.isAlpha || c = '-'

/-- A partial version, its missing and wildcard components filled with zeros. -/
def parsePartial (s : Str) : Option Semver :=
  let s := trimEndDot '*' (trimEndDot 'X' (trimEndDot 'x' s))
  let parts := s.splitOn '.'
  do
    let major ← parseU32 (← parts[0]?)
    let minor := (parts[1]?.bind parseU32).getD 0
    let patch := (parts[2]?.bind parseU32).getD 0
    some (.release major minor patch)

def isWild (p : Str) : Bool := p = ['x'] || p = ['X'] || p = ['*']

/-- Interpret x-range shorthand as a caret or tilde range. -/
def parseXRange (s : Str) : Option SemverRange :=
  let parts := s.splitOn '.'
  if parts[1]?.all isWild then do
    let major ← parseU32 (← parts[0]?)
    some (caret (.release major 0 0))
  else if parts.length ≤ 3 && parts[2]?.all isWild then do
    let major ← parseU32 (← parts[0]?)
    let minor ← parseU32 (← parts[1]?)
    some (tilde (.release major minor 0))
  else none

/-- The version after an operator that accepts partial ones. -/
def parseFullOrPartial (s : Str) : Option Semver := (Semver.parse s).or (parsePartial s)

/-- `1.2.3 - 2.3.4`. A sum past the largest `u32` wraps. -/
def parseHyphen (lo hi : Str) : Option SemverRange := do
  let lo ← parseFullOrPartial (trim lo)
  let hi := trim hi
  let upper ←
    match Semver.parse hi with
    | some v => some (lte v)
    | none =>
        let dots := (trimEndDot '*' (trimEndDot 'x' hi)).count '.'
        (parsePartial hi).map fun p =>
          lt (if dots = 0 then .release ((p.major + 1) % (u32Max + 1)) 0 0
            else .release p.major ((p.minor + 1) % (u32Max + 1)) 0)
  some (and (gte lo) upper)

/-- A range of one word: a comparator, an x-range or a version. -/
def parseComparator (range : Str) : Option SemverRange :=
  match stripPrefix ['^'] range with
  | some rest => (parseFullOrPartial rest).map caret
  | none =>
  match stripPrefix ['~'] range with
  | some rest => (parseFullOrPartial rest).map tilde
  | none =>
  match stripPrefix ['>', '='] range with
  | some rest => (Semver.parse rest).map gte
  | none =>
  match stripPrefix ['>'] range with
  | some rest => (Semver.parse rest).map gt
  | none =>
  match stripPrefix ['<', '='] range with
  | some rest => (Semver.parse rest).map lte
  | none =>
  match stripPrefix ['<'] range with
  | some rest => (Semver.parse rest).map lt
  | none =>
  match stripPrefix ['='] range with
  | some rest => (Semver.parse rest).map exact
  | none => (parseXRange range).or ((Semver.parse range).map exact)

def isOp (t : Str) : Bool :=
  t = ['>', '='] || t = ['<', '='] || t = ['>'] || t = ['<'] || t = ['='] || t = ['^'] || t = ['~']

/-- Each bare operator glued onto the next word. -/
def glue (op : Str) : List Str → List Str
  | [] => []
  | t :: ts => if isOp t then glue (op ++ t) ts else (op ++ t) :: glue [] ts

def glued (range : Str) : Str :=
  if (splitWhitespace range).any isOp then [' '].intercalate (glue [] (splitWhitespace range)) else range

/-- The loop over the alternatives: one that does not parse fails the range. -/
def orLoop (out : Option SemverRange) : List (Option SemverRange) → Option SemverRange
  | [] => out
  | none :: _ => none
  | some r :: rest =>
      orLoop (some (match out with
        | none => r
        | some prev => or prev r)) rest

/-- The loop over the components of a compound range: one that does not parse is skipped. -/
def andLoop (result : Option SemverRange) : List (Option SemverRange) → Option SemverRange
  | [] => result
  | none :: rest => andLoop result rest
  | some r :: rest =>
      andLoop (some (match result with
        | none => r
        | some prev => and prev r)) rest

/-! The recursion of `parse` goes to shorter texts. -/

theorem glue_length (op : Str) (ts : List Str) :
    ((glue op ts).map (·.length + 1)).sum ≤ op.length + (ts.map (·.length + 1)).sum := by
  fun_induction glue op ts with
  | case1 op => simp
  | case2 op t ts ht ih =>
      simp only [List.length_append, List.map_cons, List.sum_cons] at ih ⊢
      omega
  | case3 op t ts ht ih =>
      simp only [List.length_nil, List.map_cons, List.sum_cons, List.length_append] at ih ⊢
      omega

theorem intercalate_length (ws : List Str) : ([' '].intercalate ws).length ≤ (ws.map (·.length + 1)).sum - 1 := by
  induction ws with
  | nil => simp
  | cons w ws ih =>
      cases ws with
      | nil => simp
      | cons v ws =>
          rw [List.intercalate_cons_cons]
          simp only [List.length_append, List.length_singleton, List.map_cons, List.sum_cons] at ih ⊢
          omega

theorem glued_length (range : Str) : (glued range).length ≤ range.length := by
  unfold glued
  split
  · have hwords := splitWhitespace_length range
    have hglue := glue_length [] (splitWhitespace range)
    have hjoin := intercalate_length (glue [] (splitWhitespace range))
    simp only [List.length_nil] at hglue
    omega
  · exact Nat.le_refl _

theorem length_lt_of_mem_components {range part : Str} (hspace : ' ' ∈ glued range)
    (hpart : part ∈ splitWhitespace (glued range)) : part.length < range.length := by
  obtain ⟨hsub, -, hclean⟩ := mem_splitWhitespace hpart
  apply Nat.lt_of_lt_of_le (Nat.lt_of_le_of_ne hsub.length_le fun heq => ?_) (glued_length range)
  rw [hsub.eq_of_length heq] at hclean
  exact absurd (hclean ' ' hspace) (by decide)

def parse (text : Str) : Option SemverRange :=
  let range := trim text
  if ['|', '|'] <:+: range then orLoop none ((splitDouble '|' range).attach.map fun ⟨alt, _⟩ => parse alt)
  else
    match splitOnceStr [' ', '-', ' '] range with
    | some (lo, hi) => parseHyphen lo hi
    | none =>
        if range = ['*'] || range.isEmpty || isDistTag range then some any
        else if ' ' ∈ glued range then andLoop none ((splitWhitespace (glued range)).attach.map fun ⟨part, _⟩ => parse part)
        else parseComparator (glued range)
termination_by text.length
decreasing_by
  · exact Nat.lt_of_lt_of_le (length_lt_of_mem_splitDouble ‹_› ‹_›) (isInfix_trim text).length_le
  · exact Nat.lt_of_lt_of_le (length_lt_of_mem_components ‹_› ‹_›) (isInfix_trim text).length_le

theorem parse_eq (text : Str) :
    parse text =
      if ['|', '|'] <:+: trim text then orLoop none ((splitDouble '|' (trim text)).map parse)
      else
        match splitOnceStr [' ', '-', ' '] (trim text) with
        | some (lo, hi) => parseHyphen lo hi
        | none =>
            if trim text = ['*'] || (trim text).isEmpty || isDistTag (trim text) then some any
            else if ' ' ∈ glued (trim text) then andLoop none ((splitWhitespace (glued (trim text))).map parse)
            else parseComparator (glued (trim text)) := by
  rw [parse]
  simp only [List.map_attach_eq_pmap, List.pmap_eq_map]

end SemverRange

end ThreeVa.Pm
