import Mathlib.Data.Nat.Digits.Defs
import Mathlib.Data.UInt
import ThreeVa.Lib.Checked
import ThreeVa.Lib.Json
import ThreeVa.Lib.Utf8

/-!
# Stored source maps

`js/src/transpiler.rs`: the mappings that `try_transpile_inner` writes for the tokens of the code generator, and
`apply_source_map_json`, which looks a position up in them. A build checks arithmetic for overflow or wraps around.
-/

namespace ThreeVa.Js.SourceMaps
open Text

/-! ## Numbers -/

/-- `-` of `u32`. -/
def subU32 (checks : Bool) (a b : UInt32) : Checked UInt32 := if checks && a < b then .error .panic else .ok (a - b)

/-- `+ 1` of `u32`. -/
def succU32 (checks : Bool) (a : UInt32) : Checked UInt32 :=
  if checks && a.toNat = 2 ^ 32 - 1 then .error .panic else .ok (a + 1)

/-- `b - 63` of a byte. -/
def subByte (checks : Bool) (b : Nat) : Checked Nat :=
  if 63 ≤ b then .ok (b - 63) else if checks then .error .panic else .ok (b + 193)

def wrapI64 (n : Int) : Int := n.bmod (2 ^ 64)

/-- `<<` of `i64`: where overflow is not checked, the amount wraps around. -/
def shlI64 (checks : Bool) (x shift : Nat) : Checked Int :=
  if checks && 64 ≤ shift then .error .panic else .ok (wrapI64 (x * 2 ^ (shift % 64)))

def addI64 (checks : Bool) (a b : Int) : Checked Int :=
  if checks && wrapI64 (a + b) ≠ a + b then .error .panic else .ok (wrapI64 (a + b))

/-- The loop of `encode_vlq`, on a value that is not negative: the lowest five bits first. -/
def encodeDigits (value : Nat) : Str :=
  if value / 32 = 0 then [Char.ofNat (value % 32 + 64 + 63)]
  else Char.ofNat (value % 32 + 32 + 63) :: encodeDigits (value / 32)
termination_by value
decreasing_by omega

def encodeVlq (value : Int) : Str :=
  encodeDigits (if value < 0 then value.natAbs * 2 + 1 else value.natAbs * 2)

/-- The loop of `decode_vlq`, at an index. A text that ends within a number has no end. -/
def decodeDigits (checks : Bool) (idx shift : Nat) (result : Int) : Bytes → Checked (Int × Nat)
  | [] => .ok (result, 0)
  | b :: bytes =>
      if 32 ≤ b.toNat ∧ b.toNat ≤ 96 then do
        let byte ← subByte checks b.toNat
        let part ← shlI64 checks (byte % 32) shift
        let result ← addI64 checks result part
        if byte / 32 % 2 = 1 then decodeDigits checks (idx + 1) (shift + 5) result bytes else .ok (result, idx + 1)
      else .ok (result, idx)

def decodeVlq (checks : Bool) (bytes : Bytes) : Checked (Int × Nat) := do
  let (result, i) ← decodeDigits checks 0 0 0 bytes
  return (if 0x80000000 ≤ result then result - 0x100000000 else result, i)

/-! ## Writing -/

/-- A token of the code generator. -/
structure Token where
  dstLine : UInt32
  dstCol : UInt32
  sourceId : Option UInt32
  srcLine : UInt32
  srcCol : UInt32
deriving DecidableEq

structure Encoder where
  encoded : Str
  prevDstLine : UInt32
  prevDstCol : UInt32
  prevSrcIdx : UInt32
  prevSrcLine : UInt32
  prevSrcCol : UInt32
deriving DecidableEq

def Encoder.new : Encoder := ⟨[], 0, 0, 0, 0, 0⟩

/-- A `;` for a change of the line, and deltas that start anew. -/
def Encoder.atLine (st : Encoder) (dstLine : UInt32) : Encoder :=
  if dstLine ≠ st.prevDstLine then
    { st with
      encoded := if st.encoded ≠ [] then st.encoded ++ [';'] else st.encoded
      prevDstCol := 0
      prevSrcIdx := 0
      prevSrcLine := 0
      prevSrcCol := 0 }
  else st

def vlq (n : UInt32) : Str := encodeVlq n.toNat

/-- The source of a token. -/
def Encoder.pushSource (checks : Bool) (st : Encoder) (token : Token) : Checked Encoder :=
  match token.sourceId with
  | none => .ok st
  | some si => do
      let deltaIdx ← subU32 checks si st.prevSrcIdx
      let deltaLine ← subU32 checks token.srcLine st.prevSrcLine
      let deltaCol ← subU32 checks token.srcCol st.prevSrcCol
      return { st with
        encoded := st.encoded ++ ',' :: vlq deltaIdx ++ vlq deltaLine ++ vlq deltaCol
        prevSrcIdx := si
        prevSrcLine := token.srcLine
        prevSrcCol := token.srcCol }

def Encoder.push (checks : Bool) (st : Encoder) (token : Token) : Checked Encoder := do
  let st := st.atLine token.dstLine
  let st ←
    if st.prevDstCol ≤ token.dstCol then
      Encoder.pushSource checks
        { st with encoded := st.encoded ++ vlq (token.dstCol - st.prevDstCol), prevDstCol := token.dstCol } token
    else .ok st
  return { st with prevDstLine := token.dstLine }

def encodeMappings (checks : Bool) (tokens : List Token) : Checked Str := do
  return (← tokens.foldlM (Encoder.push checks) Encoder.new).encoded

/-- The map that is stored for a file. -/
def storedMap (file : Str) (names : List Str) (mappings : Str) : Json :=
  Json.object [("version", .int 3), ("sources", .arr [.str file]), ("names", .arr (names.map .str)),
    ("mappings", .str mappings)]

/-! ## Reading -/

structure Decoder where
  genCol : UInt32
  srcIdx : UInt32
  srcLine : UInt32
  srcCol : UInt32
deriving DecidableEq

/-- The numbers of a segment; the name is not read. -/
def Decoder.segment (checks : Bool) (st : Decoder) (segment : Str) : Checked Decoder := do
  let bytes := encodeUtf8 segment
  let (delta, consumed) ← decodeVlq checks bytes
  let st := { st with genCol := st.genCol + .ofInt delta }
  if consumed ≤ 1 then return st
  let (si, consumed2) ← decodeVlq checks (bytes.drop consumed)
  let st := { st with srcIdx := st.srcIdx + .ofInt si }
  if consumed2 = 0 ∨ bytes.length ≤ consumed + consumed2 then return st
  let (sl, consumed3) ← decodeVlq checks (bytes.drop (consumed + consumed2))
  let st := { st with srcLine := st.srcLine + .ofInt sl }
  if consumed3 = 0 ∨ bytes.length ≤ consumed + consumed2 + consumed3 then return st
  let (sc, _) ← decodeVlq checks (bytes.drop (consumed + consumed2 + consumed3))
  return { st with srcCol := st.srcCol + .ofInt sc }

/-- The segments of a line, up to the first of the wanted line that is at the column or after it. -/
def Decoder.segments (checks wanted : Bool) (column : UInt32) (st : Decoder) : List Str → Checked (Decoder × Bool)
  | [] => .ok (st, false)
  | segment :: rest =>
      if segment = [] then Decoder.segments checks wanted column st rest
      else do
        let st ← st.segment checks segment
        if wanted ∧ column ≤ st.genCol then return (st, true)
        Decoder.segments checks wanted column st rest

def Decoder.lines (checks : Bool) (line column : UInt32) (lineIdx : Nat) (st : Decoder) :
    List Str → Checked (Option Decoder)
  | [] => .ok none
  | text :: rest => do
      let (st, found) ← Decoder.segments checks (lineIdx + 1 = line.toNat) column { st with genCol := 0 } (text.splitOn ',')
      if found then return some st
      Decoder.lines checks line column (lineIdx + 1) st rest

/-- The file, line and column that a position stands for, in a map that was parsed. -/
def applySourceMapJson (checks : Bool) (map : Json) (file : Str) (line column : UInt32) :
    Checked (Option (Str × UInt32 × UInt32)) :=
  match (map.field "mappings").asStr with
  | none => .ok none
  | some mappings => do
      match ← Decoder.lines checks line column 0 ⟨0, 0, 0, 0⟩ (mappings.splitOn ';') with
      | none => return none
      | some st =>
          let sources := (map.field "sources").asArray
          let source := sources.bind fun arr => arr[st.srcIdx.toNat]?.bind Json.asStr
          return some (source.getD file, ← succU32 checks st.srcLine, ← succU32 checks st.srcCol)

/-! ## Tokens -/

/-- The order in which the code generator leaves tokens. -/
def Generated (tokens : List Token) : Prop :=
  tokens.Pairwise fun a b => a.dstLine < b.dstLine ∨ a.dstLine = b.dstLine ∧ a.dstCol ≤ b.dstCol

/-- On a generated line, no source position is followed by one that is smaller in any of its numbers. -/
def NeverBack (tokens : List Token) : Prop :=
  tokens.Pairwise fun a b => a.dstLine = b.dstLine → ∀ i j, a.sourceId = some i → b.sourceId = some j →
    i ≤ j ∧ a.srcLine ≤ b.srcLine ∧ a.srcCol ≤ b.srcCol

/-- The tokens of each generated line that has any. -/
def generatedLines : List Token → List (List Token)
  | [] => []
  | t :: ts =>
      (t :: ts.takeWhile (·.dstLine = t.dstLine)) :: generatedLines (ts.dropWhile (·.dstLine = t.dstLine))
termination_by tokens => tokens.length
decreasing_by
  rw [List.length_cons]
  exact Nat.lt_succ_of_le (List.dropWhile_sublist _).length_le

def sourceDeltas (before : UInt32) : List Token → List UInt32
  | [] => []
  | t :: ts =>
      match t.sourceId with
      | some si => (si - before) :: sourceDeltas si ts
      | none => sourceDeltas before ts

/-- The numbers that the segments of a line begin with: its first column, and a change of the source after each comma. -/
def firstNumbers : List Token → List UInt32
  | [] => []
  | t :: ts => t.dstCol :: sourceDeltas 0 (t :: ts)

/-- The digits that are read of a number: the first ones that are 0 or 1, if others follow. -/
def leadingDigits (value : Nat) : List Nat :=
  if value / 32 = 0 ∨ 1 < value % 32 then [] else value % 32 :: leadingDigits (value / 32)
termination_by value
decreasing_by omega

/-- What is read of a number that was written. -/
def readNumber (n : UInt32) : UInt32 := .ofNat (Nat.ofDigits 32 (leadingDigits (n.toNat * 2)))

/-- The columns that are read on a line come to this one. -/
def Reaches (column : UInt32) (numbers : List UInt32) : Prop :=
  ∃ k < numbers.length, column ≤ ((numbers.take (k + 1)).map readNumber).sum

/-- The position is the first of the source, and the line of that number among those with tokens comes to the column. -/
def FoundAtOrigin (tokens : List Token) (t : Token) : Prop :=
  t.srcLine = 0 ∧ t.srcCol = 0 ∧
    ∃ line, (generatedLines tokens)[t.dstLine.toNat]? = some line ∧ Reaches t.dstCol (firstNumbers line)

end ThreeVa.Js.SourceMaps
