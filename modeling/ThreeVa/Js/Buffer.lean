import ThreeVa.Js.TextDecoder
import ThreeVa.Lib.Base64

/-!
# Buffer

The codecs and the integer methods of `Buffer` of `js/src/builtins/buffer.rs`, and the `atob` and `btoa` of
`js/src/builtins/mod.rs` they call. A string is the list of its UTF-16 code units. The bitwise operators work on 32 bits.
-/

namespace ThreeVa.Js
open Text

namespace Buffer

/-! ## UTF-16 -/

def isHigh (u : Nat) : Bool := 0xD800 ≤ u && u ≤ 0xDBFF

def isLow (u : Nat) : Bool := 0xDC00 ≤ u && u ≤ 0xDFFF

/-- The characters of a string: a surrogate without its other half is U+FFFD. -/
def chars : Units → Str
  | [] => []
  | [u] => [if isHigh u || isLow u then Text.replacement else .ofNat u]
  | u :: v :: rest =>
      if isHigh u && isLow v then .ofNat (0x10000 + (u - 0xD800) * 1024 + (v - 0xDC00)) :: chars rest
      else (if isHigh u || isLow u then Text.replacement else .ofNat u) :: chars (v :: rest)

/-- `__utf8Encode`, which is V8's own encoder. -/
def utf8Encode (str : Units) : Bytes := encodeUtf8 (chars str)

/-- `__utf8Length`, which does not encode. -/
def utf8Length : Units → Nat
  | [] => 0
  | [u] => if u < 0x80 then 1 else if u < 0x800 then 2 else 3
  | u :: v :: rest =>
      if isHigh u && isLow v then 4 + utf8Length rest
      else (if u < 0x80 then 1 else if u < 0x800 then 2 else 3) + utf8Length (v :: rest)

/-! ## Hexadecimal -/

def hexValue (u : Nat) : Option Nat :=
  if 0x30 ≤ u ∧ u ≤ 0x39 then some (u - 0x30)
  else if 0x61 ≤ u ∧ u ≤ 0x66 then some (u - 0x57)
  else if 0x41 ≤ u ∧ u ≤ 0x46 then some (u - 0x37)
  else none

def isStrWhiteSpace (u : Nat) : Bool :=
  (9 ≤ u && u ≤ 13) || u = 0x20 || u = 0xA0 || u = 0x1680 || (0x2000 ≤ u && u ≤ 0x200A) || u = 0x2028 || u = 0x2029
    || u = 0x202F || u = 0x205F || u = 0x3000 || u = 0xFEFF

/-- The sign of a number and the rest. -/
def parseSign : Units → Int × Units
  | 0x2D :: rest => (-1, rest)
  | 0x2B :: rest => (1, rest)
  | s => (1, s)

def stripHexPrefix : Units → Units
  | 0x30 :: 0x78 :: rest => rest
  | 0x30 :: 0x58 :: rest => rest
  | s => s

/-- `parseInt(s, 16)`, with `none` for `NaN`. -/
def parseInt16 (s : Units) : Option Int :=
  let (sign, s) := parseSign (s.dropWhile isStrWhiteSpace)
  let digits := (stripHexPrefix s).map hexValue |>.takeWhile Option.isSome
  if digits.isEmpty then none else some (sign * (digits.foldl (fun n d => n * 16 + d.getD 0) 0 : Nat))

/-- `parseInt(s, 16) || 0`, stored in a `Uint8Array`. -/
def parsedByte (s : Units) : UInt8 := .ofNat (((parseInt16 s).getD 0) % 256).toNat

/-- The loop over the string, two code units at a time. -/
def hexBytes : Units → Bytes
  | [] => []
  | [u] => [parsedByte [u]]
  | u :: v :: rest => parsedByte [u, v] :: hexBytes rest

def hexDigit (n : Nat) : Nat := if n < 10 then 0x30 + n else 0x57 + n

/-- `b.toString(16)` -/
def toString16 (b : UInt8) : Units :=
  if b.toNat < 16 then [hexDigit b.toNat] else [hexDigit (b.toNat / 16), hexDigit (b.toNat % 16)]

/-- `('0' + b.toString(16)).slice(-2)` -/
def hexUnits (b : UInt8) : Units :=
  let digits := 0x30 :: toString16 b
  digits.drop (digits.length - 2)

/-! ## Base 64 -/

def b64chars : Units := base64Alphabet.map Char.toNat

/-- What `_b64map` has for a code unit, `none` for `undefined`. -/
def b64map (u : Nat) : Option (BitVec 32) :=
  if u = 0x3D then some (-1) else if u ∈ b64chars then some (.ofNat 32 (b64chars.idxOf u)) else none

def fromCharCode (x : BitVec 32) : Nat := x.toNat % 0x10000

/-- The body of the loop of `atob`, where a code unit beyond the end is `undefined`. -/
def atobGroup (a b c d : Option (BitVec 32)) : Units :=
  let bits (x : Option (BitVec 32)) : BitVec 32 := x.getD 0
  fromCharCode (bits a <<< 2 ||| (bits b).sshiftRight 4) ::
    ((if c ≠ some (-1) then [fromCharCode ((bits b &&& 0x0F) <<< 4 ||| (bits c).sshiftRight 2)] else []) ++
      (if d ≠ some (-1) then [fromCharCode ((bits c &&& 0x03) <<< 6 ||| bits d)] else []))

def atobLoop : Units → Units
  | [] => []
  | [a] => atobGroup (b64map a) none none none
  | [a, b] => atobGroup (b64map a) (b64map b) none none
  | [a, b, c] => atobGroup (b64map a) (b64map b) (b64map c) none
  | a :: b :: c :: d :: rest => atobGroup (b64map a) (b64map b) (b64map c) (b64map d) ++ atobLoop rest

def atob (s : Units) : Units := atobLoop (s.filter fun u => u ∉ [0x09, 0x0A, 0x0C, 0x0D, 0x20])

def b64char (n : Nat) : Nat := b64chars.getD (n &&& 0x3F) 0x3D

def btoa : Units → Units
  | [] => []
  | [a] => [b64char (a >>> 2), b64char (a <<< 4), 0x3D, 0x3D]
  | [a, b] => [b64char (a >>> 2), b64char (a <<< 4 ||| b >>> 4), b64char (b <<< 2), 0x3D]
  | a :: b :: c :: rest =>
      b64char (a >>> 2) :: b64char (a <<< 4 ||| b >>> 4) :: b64char (b <<< 2 ||| c >>> 6) :: b64char c :: btoa rest

/-- `-` and `_` are replaced by `+` and a slash. -/
def fromUrlAlphabet (s : Units) : Units := s.map fun u => if u = 0x2D then 0x2B else if u = 0x5F then 0x2F else u

/-- `+` and a slash are replaced by `-` and `_`. -/
def toUrlAlphabet (s : Units) : Units := s.map fun u => if u = 0x2B then 0x2D else if u = 0x2F then 0x5F else u

/-- `while (s.length % 4) s += '='` -/
def padded (s : Units) : Units := s ++ List.replicate ((4 - s.length % 4) % 4) 0x3D

/-! ## Strings and bytes -/

/-- The name of an encoding in lower case, with letters and digits only. -/
def normalized (enc : Str) : Str :=
  (toLowercase enc).filter fun c => ('a' ≤ c && c ≤ 'z') || ('0' ≤ c && c ≤ '9')

def lowByte (u : Nat) : UInt8 := .ofNat (u &&& 0xFF)

/-- `_encodeString`; the name is not empty. -/
def encodeString (str : Units) (enc : Str) : Bytes :=
  if enc = "utf8".toList ∨ enc = "utf-8".toList then utf8Encode str
  else
    let enc := normalized enc
    if enc = "hex".toList then hexBytes str
    else if enc = "base64".toList ∨ enc = "base64url".toList then
      (atob (padded (fromUrlAlphabet str))).map fun u => .ofNat u
    else if enc = "latin1".toList ∨ enc = "binary".toList ∨ enc = "ascii".toList then str.map lowByte
    else utf8Encode str

/-- What a `TextDecoder` makes of the bytes, which throws nothing without `fatal`. -/
def decodeWith (encoding : Encoding) (bytes : Bytes) : Units :=
  match ((TextDecoder.new encoding false).decode bytes false).2 with
  | .ok str => str
  | .error _ => []

/-- `_decodeBytes` of the whole buffer. -/
def decodeBytes (bytes : Bytes) (enc : Str) : Units :=
  let enc := normalized enc
  if enc = "hex".toList then bytes.flatMap hexUnits
  else if enc = "base64".toList then btoa (bytes.map UInt8.toNat)
  else if enc = "base64url".toList then (toUrlAlphabet (btoa (bytes.map UInt8.toNat))).filter fun u => u ≠ 0x3D
  else decodeWith (if enc = "latin1".toList ∨ enc = "binary".toList then .latin1 else .utf8) bytes

def orUtf8 (enc : Str) : Str := if enc.isEmpty then "utf8".toList else enc

/-- `Buffer.from` of a string. -/
def fromString (str : Units) (enc : Str) : Bytes := encodeString str (orUtf8 enc)

def toString (bytes : Bytes) (enc : Str) : Units := decodeBytes bytes (orUtf8 enc)

def encodingNames : List Str :=
  ["utf8", "utf-8", "hex", "base64", "base64url", "ascii", "latin1", "binary", "ucs2", "ucs-2", "utf16le",
    "utf-16le"].map String.toList

def isEncoding (enc : Str) : Bool := encodingNames.contains (toLowercase enc)

def byteLength (str : Units) (enc : Str) : Nat :=
  let e := toLowercase (orUtf8 enc)
  if e = "utf8".toList ∨ e = "utf-8".toList then utf8Length str else (encodeString str (orUtf8 enc)).length

/-! ## Integers -/

def toInt32 (v : Int) : BitVec 32 := .ofInt 32 v

/-- `x >>> 0` -/
def toUint32 (v : Int) : Int := v % 0x100000000

/-- A byte of the buffer; the offset lies in it. -/
def byteAt (b : Bytes) (o : Nat) : BitVec 32 := .ofNat 32 (b.getD o 0).toNat

def setByte (b : Bytes) (o : Nat) (x : BitVec 32) : Bytes := b.set o (.ofNat x.toNat)

def readUInt8 (b : Bytes) (o : Nat) : Int := toUint32 (byteAt b o).toInt

def readInt8 (b : Bytes) (o : Nat) : Int :=
  let v := (byteAt b o).toInt
  if v ≥ 0x80 then v - 0x100 else v

def readUInt16LE (b : Bytes) (o : Nat) : Int := toUint32 (byteAt b o ||| byteAt b (o + 1) <<< 8).toInt

def readUInt16BE (b : Bytes) (o : Nat) : Int := toUint32 (byteAt b o <<< 8 ||| byteAt b (o + 1)).toInt

def readUInt32LE (b : Bytes) (o : Nat) : Int :=
  toUint32 ((byteAt b o ||| byteAt b (o + 1) <<< 8 ||| byteAt b (o + 2) <<< 16).toInt +
    (byteAt b (o + 3)).toInt * 0x1000000)

def readUInt32BE (b : Bytes) (o : Nat) : Int :=
  toUint32 ((byteAt b o).toInt * 0x1000000 +
    (byteAt b (o + 1) <<< 16 ||| byteAt b (o + 2) <<< 8 ||| byteAt b (o + 3)).toInt)

def readInt32LE (b : Bytes) (o : Nat) : Int :=
  (byteAt b o ||| byteAt b (o + 1) <<< 8 ||| byteAt b (o + 2) <<< 16 ||| byteAt b (o + 3) <<< 24).toInt

def readInt32BE (b : Bytes) (o : Nat) : Int :=
  (byteAt b o <<< 24 ||| byteAt b (o + 1) <<< 16 ||| byteAt b (o + 2) <<< 8 ||| byteAt b (o + 3)).toInt

def readBigUInt64LE (b : Bytes) (o : Nat) : Int :=
  let lo := readUInt32LE b o
  let hi := readUInt32LE b (o + 4)
  lo + hi * 0x100000000

def readBigUInt64BE (b : Bytes) (o : Nat) : Int :=
  let hi := readUInt32BE b o
  let lo := readUInt32BE b (o + 4)
  hi * 0x100000000 + lo

/-- The value of an unsigned number as a signed one. -/
def signed64 (v : Int) : Int := if v ≥ 9223372036854775808 then v - 18446744073709551616 else v

def readBigInt64LE (b : Bytes) (o : Nat) : Int := signed64 (readBigUInt64LE b o)

def readBigInt64BE (b : Bytes) (o : Nat) : Int := signed64 (readBigUInt64BE b o)

/-- A write gives the buffer after it and the offset behind what was written. -/
abbrev Written := Bytes × Nat

def writeUInt8 (b : Bytes) (v : Int) (o : Nat) : Written := (setByte b o (toInt32 v &&& 0xFF), o + 1)

def writeInt8 (b : Bytes) (v : Int) (o : Nat) : Written :=
  (setByte b o (toInt32 (if v < 0 then v + 0x100 else v) &&& 0xFF), o + 1)

def writeUInt16LE (b : Bytes) (v : Int) (o : Nat) : Written :=
  let b := setByte b o (toInt32 v &&& 0xFF)
  (setByte b (o + 1) ((toInt32 v).sshiftRight 8 &&& 0xFF), o + 2)

def writeUInt16BE (b : Bytes) (v : Int) (o : Nat) : Written :=
  let b := setByte b o ((toInt32 v).sshiftRight 8 &&& 0xFF)
  (setByte b (o + 1) (toInt32 v &&& 0xFF), o + 2)

def writeUInt32LE (b : Bytes) (v : Int) (o : Nat) : Written :=
  let b := setByte b o (toInt32 v &&& 0xFF)
  let b := setByte b (o + 1) ((toInt32 v).sshiftRight 8 &&& 0xFF)
  let b := setByte b (o + 2) ((toInt32 v).sshiftRight 16 &&& 0xFF)
  (setByte b (o + 3) (toInt32 v >>> 24 &&& 0xFF), o + 4)

def writeUInt32BE (b : Bytes) (v : Int) (o : Nat) : Written :=
  let b := setByte b o (toInt32 v >>> 24 &&& 0xFF)
  let b := setByte b (o + 1) ((toInt32 v).sshiftRight 16 &&& 0xFF)
  let b := setByte b (o + 2) ((toInt32 v).sshiftRight 8 &&& 0xFF)
  (setByte b (o + 3) (toInt32 v &&& 0xFF), o + 4)

def writeInt32LE := writeUInt32LE

def writeInt32BE := writeUInt32BE

/-- `BigInt.asUintN(32, v)` -/
def asUint32 (v : Int) : Int := v % 0x100000000

def writeBigUInt64LE (b : Bytes) (v : Int) (o : Nat) : Written :=
  let lo := asUint32 v
  let hi := asUint32 (v >>> (32 : Nat))
  let b := (writeUInt32LE b lo o).1
  ((writeUInt32LE b hi (o + 4)).1, o + 8)

def writeBigUInt64BE (b : Bytes) (v : Int) (o : Nat) : Written :=
  let lo := asUint32 v
  let hi := asUint32 (v >>> (32 : Nat))
  let b := (writeUInt32BE b hi o).1
  ((writeUInt32BE b lo (o + 4)).1, o + 8)

def writeBigInt64LE := writeBigUInt64LE

def writeBigInt64BE := writeBigUInt64BE

/-- The widths, signs and orders that have both a read and a write method. -/
inductive Format
  | uInt8
  | int8
  | uInt16LE
  | uInt16BE
  | uInt32LE
  | uInt32BE
  | int32LE
  | int32BE
  | bigUInt64LE
  | bigUInt64BE
  | bigInt64LE
  | bigInt64BE

namespace Format

def width : Format → Nat
  | uInt8 | int8 => 1
  | uInt16LE | uInt16BE => 2
  | uInt32LE | uInt32BE | int32LE | int32BE => 4
  | bigUInt64LE | bigUInt64BE | bigInt64LE | bigInt64BE => 8

def signed : Format → Bool
  | int8 | int32LE | int32BE | bigInt64LE | bigInt64BE => true
  | _ => false

def read : Format → Bytes → Nat → Int
  | uInt8 => readUInt8
  | int8 => readInt8
  | uInt16LE => readUInt16LE
  | uInt16BE => readUInt16BE
  | uInt32LE => readUInt32LE
  | uInt32BE => readUInt32BE
  | int32LE => readInt32LE
  | int32BE => readInt32BE
  | bigUInt64LE => readBigUInt64LE
  | bigUInt64BE => readBigUInt64BE
  | bigInt64LE => readBigInt64LE
  | bigInt64BE => readBigInt64BE

def write : Format → Bytes → Int → Nat → Written
  | uInt8 => writeUInt8
  | int8 => writeInt8
  | uInt16LE => writeUInt16LE
  | uInt16BE => writeUInt16BE
  | uInt32LE => writeUInt32LE
  | uInt32BE => writeUInt32BE
  | int32LE => writeInt32LE
  | int32BE => writeInt32BE
  | bigUInt64LE => writeBigUInt64LE
  | bigUInt64BE => writeBigUInt64BE
  | bigInt64LE => writeBigInt64LE
  | bigInt64BE => writeBigInt64BE

/-- How many values a format has. -/
def size : Format → Int
  | uInt8 | int8 => 0x100
  | uInt16LE | uInt16BE => 0x10000
  | uInt32LE | uInt32BE | int32LE | int32BE => 0x100000000
  | bigUInt64LE | bigUInt64BE | bigInt64LE | bigInt64BE => 0x10000000000000000

/-- The values of the range of a format. -/
def InRange (f : Format) (v : Int) : Prop :=
  if f.signed then -f.size ≤ 2 * v ∧ 2 * v < f.size else 0 ≤ v ∧ v < f.size

end Format

/-! ## Representable strings -/

/-- Lower-case digits, two for a byte. -/
def hexText (bytes : Bytes) : Units :=
  bytes.flatMap fun b => [hexDigit (b.toNat / 16), hexDigit (b.toNat % 16)]

def base64Text (bytes : Bytes) : Units := (encodeBase64 bytes).map Char.toNat

/-- The alphabet for addresses, without padding. -/
def base64urlText (bytes : Bytes) : Units := (toUrlAlphabet (base64Text bytes)).filter fun u => u ≠ 0x3D

/-- A UTF-16 encoding by one of its names. -/
def Utf16Name (enc : Str) : Prop :=
  toLowercase enc ∈ ["ucs2", "ucs-2", "utf16le", "utf-16le"].map String.toList

instance (enc : Str) : Decidable (Utf16Name enc) := inferInstanceAs (Decidable (_ ∈ _))

/-- The strings that an encoding can represent. -/
def Represents (enc : Str) (s : Units) : Prop :=
  let name := toLowercase enc
  if Utf16Name enc then ∀ u ∈ s, u < 0x10000
  else if name = "hex".toList then ∃ bytes, s = hexText bytes
  else if name = "base64".toList then ∃ bytes, s = base64Text bytes
  else if name = "base64url".toList then ∃ bytes, s = base64urlText bytes
  else if name = "ascii".toList then ∀ u ∈ s, u < 0x80
  else if name = "latin1".toList ∨ name = "binary".toList then ∀ u ∈ s, u < 0x100
  else ∃ text, units text = s

/-- Encoding and decoding gives the string back, and `byteLength` tells the length of the buffer. -/
structure Inverse (enc : Str) (s : Units) : Prop where
  back : toString (fromString s enc) enc = s
  length : byteLength s enc = (fromString s enc).length

/-- The encodings that represent every byte string. -/
def BytesName (enc : Str) : Prop :=
  toLowercase enc ∈ ["hex", "base64", "base64url", "latin1", "binary"].map String.toList

end Buffer

end ThreeVa.Js
