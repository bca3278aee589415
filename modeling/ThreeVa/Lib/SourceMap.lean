import ThreeVa.Lib.Base64

/-!
# Source maps

How a reader of version 3 takes the mappings apart: lines are separated by `;` and segments by `,`, a segment is a list of
numbers in base 64 VLQ, and the numbers are relative to those of the segment before.
-/

namespace SourceMap
open Text

/-! ## VLQ -/

/-- The digits of five bits up to the first without a continuation bit, the lowest first. -/
def decodeDigits : Str → Option (Nat × Str)
  | [] => none
  | c :: cs => do
      let d ← base64Value c
      if d < 32 then return (d, cs)
      else
        let (n, rest) ← decodeDigits cs
        return (d - 32 + 32 * n, rest)

/-- The lowest bit is the sign. -/
def signed (n : Nat) : Int := if n % 2 = 1 then -((n / 2 : Nat) : Int) else (n / 2 : Nat)

def decodeVlq (s : Str) : Option (Int × Str) := (decodeDigits s).map fun (n, rest) => (signed n, rest)

def decodeNumbersUpTo : Nat → Str → Option (List Int)
  | _, [] => some []
  | 0, _ => none
  | fuel + 1, s => do
      let (n, rest) ← decodeVlq s
      return n :: (← decodeNumbersUpTo fuel rest)

/-- Every number takes a character at least. -/
def decodeNumbers (s : Str) : Option (List Int) := decodeNumbersUpTo s.length s

/-! ## Mappings -/

/-- The fields that segments are relative to. -/
structure Fields where
  source : Int
  line : Int
  column : Int
  name : Int

def Fields.zero : Fields := ⟨0, 0, 0, 0⟩

/-- A segment: its column in the generated line, and the source and the line it stands for. -/
structure Segment where
  generated : Int
  position : Option (Int × Int)
deriving DecidableEq

def decodeSegment (generated : Int) (f : Fields) (s : Str) : Option (Segment × Fields) :=
  match decodeNumbers s with
  | some [g] => some (⟨generated + g, none⟩, f)
  | some [g, source, line, column] =>
      let f : Fields := ⟨f.source + source, f.line + line, f.column + column, f.name⟩
      some (⟨generated + g, some (f.source, f.line)⟩, f)
  | some [g, source, line, column, name] =>
      let f : Fields := ⟨f.source + source, f.line + line, f.column + column, f.name + name⟩
      some (⟨generated + g, some (f.source, f.line)⟩, f)
  | _ => none

def decodeSegments (generated : Int) (f : Fields) : List Str → Option (List Segment × Fields)
  | [] => some ([], f)
  | s :: ss => do
      let (seg, f) ← decodeSegment generated f s
      let (segs, f) ← decodeSegments seg.generated f ss
      return (seg :: segs, f)

def decodeLine (f : Fields) (line : Str) : Option (List Segment × Fields) :=
  if line = [] then some ([], f) else decodeSegments 0 f (line.splitOn ',')

def decodeLines (f : Fields) : List Str → Option (List (List Segment))
  | [] => some []
  | line :: lines => do
      let (segs, f) ← decodeLine f line
      return segs :: (← decodeLines f lines)

def decodeMappings (mappings : Str) : Option (List (List Segment)) := decodeLines .zero (mappings.splitOn ';')

/-- The sources and lines that a generated line is mapped to. -/
def positionsAt (decoded : List (List Segment)) (g : Nat) : List (Int × Int) :=
  ((decoded[g]?).getD []).filterMap Segment.position

/-! ## Reading -/

theorem base64Value_symbol (n : Nat) : base64Value (base64Symbol n) = some (n % 64) := by
  have hall : ∀ k : Fin 64, base64Value (base64Symbol k) = some k.val := by decide +kernel
  have hmod : base64Symbol n = base64Symbol (n % 64) := by simp [base64Symbol]
  rw [hmod]
  exact hall ⟨n % 64, Nat.mod_lt n (by decide)⟩

/-- A line with one segment of four numbers. -/
theorem decodeLine_single {line : Str} {g source row column : Int} (hne : line ≠ []) (hcomma : ',' ∉ line)
    (hnumbers : decodeNumbers line = some [g, source, row, column]) (f : Fields) :
    decodeLine f line = some ([⟨g, some (f.source + source, f.line + row)⟩],
      ⟨f.source + source, f.line + row, f.column + column, f.name⟩) := by
  unfold decodeLine
  rw [if_neg hne, List.splitOn_eq_singleton hcomma]
  simp [decodeSegments, decodeSegment, hnumbers]

theorem decodeLines_cons {f : Fields} {line : Str} {ls : List Str} {decoded : List (List Segment)} :
    decodeLines f (line :: ls) = some decoded ↔
      ∃ segs f' rest, decodeLine f line = some (segs, f') ∧ decodeLines f' ls = some rest ∧ decoded = segs :: rest := by
  simp only [decodeLines, Option.bind_eq_bind, Option.bind_eq_some_iff, Prod.exists, Option.pure_def, Option.some.injEq]
  constructor
  · rintro ⟨segs, f', hline, rest, hrest, rfl⟩
    exact ⟨segs, f', rest, hline, hrest, rfl⟩
  · rintro ⟨segs, f', rest, hline, hrest, rfl⟩
    exact ⟨segs, f', hline, rest, hrest, rfl⟩

/-- Lines without segments leave the fields as they are. -/
theorem decodeLines_replicate_nil (n : Nat) {f : Fields} {ls : List Str} {decoded : List (List Segment)}
    (h : decodeLines f (List.replicate n [] ++ ls) = some decoded) :
    ∃ rest, decoded = List.replicate n [] ++ rest ∧ decodeLines f ls = some rest := by
  induction n generalizing decoded with
  | zero => exact ⟨decoded, rfl, h⟩
  | succ n ih =>
      rw [List.replicate_succ, List.cons_append, decodeLines_cons] at h
      obtain ⟨segs, f', tail, hline, htail, rfl⟩ := h
      cases hline
      obtain ⟨rest, rfl, hrest⟩ := ih htail
      exact ⟨rest, rfl, hrest⟩

/-- The segments of each line, from the fields that the lines before it leave. -/
theorem decodeLines_append {f : Fields} {before after : List Str} {line : Str} {decoded : List (List Segment)}
    (h : decodeLines f (before ++ line :: after) = some decoded) :
    ∃ f' segs, (decodeLine f' line).map Prod.fst = some segs ∧ decoded[before.length]? = some segs := by
  induction before generalizing f decoded with
  | nil =>
      obtain ⟨segs, f', rest, hline, -, rfl⟩ := decodeLines_cons.mp h
      exact ⟨f, segs, by rw [hline]; rfl, rfl⟩
  | cons l before ih =>
      obtain ⟨segs, f', rest, -, hrest, rfl⟩ := decodeLines_cons.mp h
      exact ih hrest

end SourceMap
