import ThreeVa.Js.Mqtt
import ThreeVa.Lib.Utf8Decoder

/-!
# TextDecoder

`TextDecoder` of `js/src/builtins/buffer.rs`. A string is the list of its UTF-16 code units.
-/

namespace ThreeVa.Js
open Text

inductive Encoding
  | utf8
  | latin1
  | ascii
deriving DecidableEq

structure TextDecoder where
  encoding : Encoding
  fatal : Bool
  pending : Bytes

def replacement : Nat := 0xFFFD

def invalidData : Str := "The encoded data is not valid.".toList

namespace TextDecoder

def new (encoding : Encoding) (fatal : Bool) : TextDecoder := ⟨encoding, fatal, []⟩

/-- How many bytes follow a first byte, and the bits it gives to the code point. -/
def lead (b : UInt8) : Option (Nat × Nat) :=
  if b &&& 0xE0 = 0xC0 then some (1, (b &&& 0x1F).toNat)
  else if b &&& 0xF0 = 0xE0 then some (2, (b &&& 0x0F).toNat)
  else if b &&& 0xF8 = 0xF0 then some (3, (b &&& 0x07).toNat)
  else none

/-- The loop over the bytes that follow: the code point, unless one of them is no continuation byte. -/
def continuation (cp : Nat) : Bytes → Option Nat
  | [] => some cp
  | cc :: rest => if cc &&& 0xC0 ≠ 0x80 then none else continuation (cp <<< 6 ||| (cc &&& 0x3F).toNat) rest

/-- No code point, a surrogate, or a longer spelling than needed. -/
def refused (need cp : Nat) : Bool :=
  cp > 0x10FFFF || (cp ≥ 0xD800 && cp ≤ 0xDFFF) || (need == 1 && cp < 0x80) || (need == 2 && cp < 0x800) ||
    (need == 3 && cp < 0x10000)

def fromCodePoint (cp : Nat) : Units :=
  if cp < 0x10000 then [cp] else [0xD800 + ((cp - 0x10000) >>> 10), 0xDC00 + ((cp - 0x10000) &&& 0x3FF)]

/-- The main loop: the string, and the bytes held back for the next call. -/
def decodeUtf8 (fatal stream : Bool) (bytes : Bytes) : Except Str (Units × Bytes) :=
  match bytes with
  | [] => .ok ([], [])
  | b :: rest =>
      if b < 0x80 then (decodeUtf8 fatal stream rest).map fun p => (b.toNat :: p.1, p.2)
      else
        match lead b with
        | none =>
            if fatal then .error invalidData
            else (decodeUtf8 fatal stream rest).map fun p => (replacement :: p.1, p.2)
        | some (need, cp) =>
            if rest.length < need then
              -- a truncated sequence at the end of the input
              if stream then .ok ([], b :: rest)
              else if fatal then .error invalidData
              else .ok ([replacement], [])
            else
              match (continuation cp (rest.take need)).filter fun cp => !refused need cp with
              | none =>
                  if fatal then .error invalidData
                  else (decodeUtf8 fatal stream rest).map fun p => (replacement :: p.1, p.2)
              | some cp => (decodeUtf8 fatal stream (rest.drop need)).map fun p => (fromCodePoint cp ++ p.1, p.2)
termination_by bytes.length
decreasing_by all_goals simp only [List.length_cons, List.length_drop]; omega

def decodeByte (encoding : Encoding) (c : UInt8) : Nat :=
  if encoding = .ascii ∧ c > 0x7F then replacement else c.toNat

/-- One call: the decoder after it, and the string or what is thrown. -/
def decode (d : TextDecoder) (buf : Bytes) (stream : Bool) : TextDecoder × Except Str Units :=
  let bytes := d.pending ++ buf
  if d.encoding ≠ .utf8 then ({ d with pending := [] }, .ok (bytes.map (decodeByte d.encoding)))
  else
    match decodeUtf8 d.fatal stream bytes with
    | .ok (str, held) => ({ d with pending := held }, .ok str)
    | .error e => ({ d with pending := [] }, .error e)

/-- The chunks in order with `stream`, then a call that flushes. -/
def decodeChunks (d : TextDecoder) : List Bytes → Except Str Units
  | [] => (d.decode [] false).2
  | chunk :: chunks =>
      match d.decode chunk true with
      | (d, .ok str) => (decodeChunks d chunks).map (str ++ ·)
      | (_, .error e) => .error e

/-! ## The standard -/

/-- What the decoder of the standard emits, as code units. -/
def itemUnits : Option Nat → Units
  | some cp => fromCodePoint cp
  | none => [replacement]

/-- The string of the standard: a byte order mark at the beginning is removed. -/
def standardDecode (bytes : Bytes) : Units :=
  match decoder none bytes with
  | some 0xFEFF :: items => items.flatMap itemUnits
  | items => items.flatMap itemUnits

/-- The input ends before the bytes that a first byte asks for. -/
def endsWithin (b : UInt8) (following : Nat) : Bool := (lead b).any fun p => following < p.1

/-- An ill-formed subpart whose first byte asks for more bytes than there are. -/
def cutOff (p : Utf8Piece) (ps : List Utf8Piece) : Bool :=
  p.item.isNone && endsWithin (p.bytes.headD 0) (p.bytes.tail ++ ps.flatMap Utf8Piece.bytes).length

/-- The pieces before the first that is cut off, and those after it. -/
def splitCut : List Utf8Piece → List Utf8Piece × List Utf8Piece
  | [] => ([], [])
  | p :: ps => if cutOff p ps then ([], ps) else (p :: (splitCut ps).1, (splitCut ps).2)

/-- The bytes of ill-formed subparts after the first of each. -/
def surplus (ps : List Utf8Piece) : Bytes := ps.flatMap fun p => if p.item.isNone then p.bytes.tail else []

/-- Nothing is lost or doubled that is not made up for: up to some place the ill-formed subparts are single bytes, from
there on all is U+FFFD, and as many replacement characters are too many before the cut as characters are lost after it. -/
structure Even (ps : List Utf8Piece) : Prop where
  balance : ∃ front back, (splitCut ps).1 = front ++ back ∧ (∀ p ∈ front, p.item = none → p.bytes.length = 1) ∧
    (∀ p ∈ back ++ (splitCut ps).2, itemUnits p.item = [replacement]) ∧
    (surplus back).length = (splitCut ps).2.length

end TextDecoder

/-- The code units of a text. -/
def units (text : Str) : Units := text.flatMap fun c => TextDecoder.fromCodePoint c.toNat

namespace TextDecoder

def byteOrderMark : Bytes := [0xEF, 0xBB, 0xBF]

/-- A fresh decoder decodes the bytes as the standard does: what it makes of them, when it throws with `fatal`, and that
it undoes the encoding of a text. -/
structure AsStandard (bytes : Bytes) : Prop where
  lossy : ((new .utf8 false).decode bytes false).2 = .ok (standardDecode bytes)
  throws : (∃ e, ((new .utf8 true).decode bytes false).2 = .error e) ↔ ¬∃ text, encodeUtf8 text = bytes
  inverse : ∀ fatal text, encodeUtf8 text = bytes → text.head? ≠ some '\uFEFF' →
    ((new .utf8 fatal).decode bytes false).2 = .ok (units text)

end TextDecoder

end ThreeVa.Js
