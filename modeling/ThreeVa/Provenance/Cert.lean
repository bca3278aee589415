import ThreeVa.Lib.Base64
import ThreeVa.Lib.Checked
import ThreeVa.Lib.Json
import ThreeVa.Lib.Utf8
import ThreeVa.Store.Provenance

/-!
# Certificates

`pm/src/provenance.rs`: the DER walker, the two places that look for the key of a certificate, and the parts of a
certificate that the chain is verified with. Curves, hashes and the parser of JSON are those of other crates.
-/

namespace ThreeVa.Provenance
open Text Store

inductive Curve
  | p256
  | p384
deriving DecidableEq

/-- What the verifier takes from other crates, and how it is built; `K` is the type of a verifying key. -/
structure Crates (K : Type) where
  /-- Whether a shift out of range panics. -/
  overflowChecks : Bool
  /-- The text of the error for a string that is not base 64. -/
  base64Error : Str → Str
  fromSlice : Bytes → Except Str Json
  fromSec1 : Curve → Bytes → Except Str K
  /-- A DER signature over a digest. -/
  verifyPrehash : Curve → K → Bytes → Bytes → Bool
  sha256 : Bytes → Bytes
  sha384 : Bytes → Bytes
  /-- `{:?}` of `String::from_utf8_lossy`. -/
  debugLossy : Bytes → Str

inductive EcPublicKey (K : Type)
  | p256 (key : K)
  | p384 (key : K)
deriving DecidableEq

inductive SigHash
  | sha256
  | sha384
deriving DecidableEq

/-! ## DER -/

structure Tlv where
  tag : UInt8
  raw : Bytes
  content : Bytes
deriving DecidableEq

def bigEndian (bs : Bytes) : Nat := bs.foldl (fun len b => len * 256 + b.toNat) 0

/-- The element with `idx` bytes of tag and length. -/
def cutTlv (input : Bytes) (tag : UInt8) (idx len : Nat) : Option Tlv :=
  if input.length < idx + len then none
  else some { tag, raw := input.take (idx + len), content := (input.take (idx + len)).drop idx }

def readTlv (input : Bytes) : Option Tlv :=
  match input with
  | tag :: first :: rest =>
      if first.toNat < 0x80 then cutTlv input tag 2 first.toNat
      else
        let n := first.toNat - 0x80
        if n = 0 || 4 < n || rest.length < n then none else cutTlv input tag (2 + n) (bigEndian (rest.take n))
  | _ => none

def childrenUpTo : Nat → Bytes → List Tlv
  | 0, _ => []
  | n + 1, rest =>
      match readTlv rest with
      | some t => t :: childrenUpTo n (rest.drop t.raw.length)
      | none => []

/-- Every element takes at least two bytes, so the length bounds the loop. -/
def children (content : Bytes) : List Tlv := childrenUpTo content.length content

/-! ## Keys -/

def oidEcPublicKey : Bytes := [0x2a, 0x86, 0x48, 0xce, 0x3d, 0x02, 0x01]

def oidP256 : Bytes := [0x2a, 0x86, 0x48, 0xce, 0x3d, 0x03, 0x01, 0x07]

def oidP384 : Bytes := [0x2b, 0x81, 0x04, 0x00, 0x22]

def curveOf (oid : Tlv) : Option Curve :=
  if oid.tag = 0x06 && oid.content = oidP256 then some .p256
  else if oid.tag = 0x06 && oid.content = oidP384 then some .p384
  else none

variable {K : Type} (crates : Crates K)

def point (curve : Curve) (bytes : Bytes) : Checked (EcPublicKey K) :=
  match curve, crates.fromSec1 curve bytes with
  | .p256, .ok key => .ok (.p256 key)
  | .p384, .ok key => .ok (.p384 key)
  | .p256, .error e => fail ("invalid P-256 point: ".toList ++ e)
  | .p384, .error e => fail ("invalid P-384 point: ".toList ++ e)

def spkiPublicKey (spki : Tlv) : Checked (EcPublicKey K) :=
  match children spki.content with
  | [alg, bitstring] => do
      ensure (alg.tag = 0x30 && bitstring.tag = 0x03 && bitstring.content.head? = some 0x00)
        "SPKI is not an EC subjectPublicKey".toList
      let algParts := children alg.content
      let oid ← okOr algParts.head? "SPKI has no key algorithm".toList
      ensure (oid.content = oidEcPublicKey) "SPKI key is not EC".toList
      let curve ← okOr (algParts[1]?.bind curveOf) "unsupported EC curve in certificate".toList
      point crates curve (bitstring.content.drop 1)
  | _ => fail "malformed SPKI".toList

/-- A SEQUENCE whose content starts with a SEQUENCE. -/
def nestedSequence (elem : Tlv) : Bool := elem.tag = 0x30 && elem.content.head? = some 0x30

def extractEcPublicKey (certDer : Bytes) : Checked (EcPublicKey K) := do
  let cert ← okOr (readTlv certDer) "malformed certificate: outer SEQUENCE".toList
  let tbs ← okOr (children cert.content).head? "certificate has no TBS".toList
  ensure (tbs.tag = 0x30) "TBS not a SEQUENCE".toList
  let spki ← okOr ((children tbs.content).find? nestedSequence)
    "no EC SubjectPublicKeyInfo found in certificate".toList
  spkiPublicKey crates spki

/-! ## Times -/

/-- Hinnant's days since 1970-01-01; divisions round towards zero. -/
def daysFromCivil (y : Int) (m d : Nat) : Int :=
  let y := if m ≤ 2 then y - 1 else y
  let era := (if 0 ≤ y then y else y - 399).tdiv 400
  let yoe := y - era * 400
  let doy := (153 * (if 2 < m then (m : Int) - 3 else m + 9) + 2).tdiv 5 + d - 1
  let doe := yoe * 365 + yoe.tdiv 4 - yoe.tdiv 100 + doy
  era * 146097 + doe - 719468

def isCharBoundary (s : Bytes) (i : Nat) : Bool :=
  i = s.length || (s[i]?.any fun b => !(0x80 ≤ b.toNat && b.toNat < 0xC0))

/-- `str::get` of a range. -/
def getRange (s : Bytes) (a b : Nat) : Option Bytes :=
  if a ≤ b && b ≤ s.length && isCharBoundary s a && isCharBoundary s b then some ((s.take b).drop a) else none

def asText (s : Bytes) : Str := s.map fun b => Char.ofNat b.toNat

def i64Max : Nat := 9223372036854775807

def parseI64 (s : Str) : Option Int :=
  match s with
  | '-' :: ds => if ds = [] then none else ((digitsValue 10 0 ds).filter (· ≤ i64Max + 1)).map fun n => -(n : Int)
  | _ => (parseUnsigned 10 i64Max s).map fun n => (n : Int)

def u32Max : Nat := 4294967295

def twoDigits (rest : Bytes) (i : Nat) : Option Nat :=
  (getRange rest i (i + 2)).bind fun ds => parseUnsigned 10 u32Max (asText ds)

/-- The year of `k` digits that `d` starts with; slicing inside a character is a panic. -/
def yearDigits (d : Bytes) (k : Nat) : Checked (Option Int) :=
  if isCharBoundary d k then .ok (parseI64 (asText (d.take k))) else .error .panic

/-- The year and the digits after it. -/
def splitYear (tag : UInt8) (s : Bytes) : Checked (Option (Int × Bytes)) :=
  if tag = 0x18 then
    match getRange s 0 14 with
    | some d => do return (← yearDigits d 4).map fun year => (year, d.drop 4)
    | none => .ok none
  else if tag = 0x17 then
    match getRange s 0 12 with
    | some d => do return (← yearDigits d 2).map fun yy => (if yy < 50 then 2000 + yy else 1900 + yy, d.drop 2)
    | none => .ok none
  else .ok none

def secondsOf (year : Int) (rest : Bytes) : Option Int := do
  let mon ← twoDigits rest 0
  let day ← twoDigits rest 2
  let hh ← twoDigits rest 4
  let mm ← twoDigits rest 6
  let ss ← twoDigits rest 8
  return daysFromCivil year mon day * 86400 + hh * 3600 + mm * 60 + ss

def parseTime (tlv : Tlv) : Checked (Option Int) :=
  if (decodeUtf8 tlv.content).isNone || !(tlv.content.getLast?.any fun b => b = 0x5A || b = 0x7A) then .ok none
  else do return (← splitYear tlv.tag tlv.content.dropLast).bind fun (year, rest) => secondsOf year rest

/-! ## Certificates -/

structure ParsedCert (K : Type) where
  der : Bytes
  tbs : Bytes
  issuer : Bytes
  subject : Bytes
  key : EcPublicKey K
  hash : SigHash
  signature : Bytes
  notBefore : Int
  notAfter : Int
  extensions : List (Bytes × Bytes)

/-- The fields of a TBSCertificate from the serial number on. -/
def tbsFields (tbs : Tlv) : Checked (List Tlv) :=
  match children tbs.content with
  | [] => fail "empty TBSCertificate".toList
  | first :: rest => .ok (if first.tag = 0xa0 then rest else first :: rest)

def fieldAt (fields : List Tlv) (i : Nat) (tag : UInt8) (why : String) : Checked Tlv :=
  okOr (fields[i]?.filter (·.tag = tag)) why.toList

def extensionOf (ext : Tlv) : Option (Bytes × Bytes) := do
  let parts := children ext.content
  let oid ← parts.head?.filter (·.tag = 0x06)
  let value ← parts.reverse.find? (·.tag = 0x04)
  return (oid.content, value.content)

def extensionsOf (elem : Tlv) : List (Bytes × Bytes) :=
  if elem.tag = 0xa3 then
    match readTlv elem.content with
    | some seq => (children seq.content).filterMap extensionOf
    | none => []
  else []

def sigHashOf (sigAlg : Tlv) : Checked SigHash :=
  let algOid := (((children sigAlg.content).head?.filter (·.tag = 0x06)).map Tlv.content).getD []
  if algOid = [0x2a, 0x86, 0x48, 0xce, 0x3d, 0x04, 0x03, 0x02] then .ok .sha256
  else if algOid = [0x2a, 0x86, 0x48, 0xce, 0x3d, 0x04, 0x03, 0x03] then .ok .sha384
  else fail "unsupported certificate signature algorithm".toList

def timeAt (times : List Tlv) (i : Nat) (missing malformed : String) : Checked Int := do
  let t ← okOr times[i]? missing.toList
  okOr (← parseTime t) malformed.toList

def parseCert (der : Bytes) : Checked (ParsedCert K) := do
  let cert ← okOr (readTlv der) "malformed certificate: outer SEQUENCE".toList
  ensure (cert.tag = 0x30) "certificate outer is not a SEQUENCE".toList
  let parts := children cert.content
  let tbs ← okOr parts[0]? "certificate has no TBS".toList
  let sigAlg ← okOr parts[1]? "certificate has no signature algorithm".toList
  let sigValue ← okOr parts[2]? "certificate has no signature value".toList
  ensure (tbs.tag = 0x30 && sigAlg.tag = 0x30 && sigValue.tag = 0x03) "malformed certificate structure".toList
  let fields ← tbsFields tbs
  let _serial ← fieldAt fields 0 0x02 "TBS missing serialNumber"
  let _tbsSig ← fieldAt fields 1 0x30 "TBS missing signature"
  let issuer ← fieldAt fields 2 0x30 "TBS missing issuer"
  let validity ← fieldAt fields 3 0x30 "TBS missing validity"
  let subject ← fieldAt fields 4 0x30 "TBS missing subject"
  let spki ← fieldAt fields 5 0x30 "TBS missing SPKI"
  let key ← spkiPublicKey crates spki
  let hash ← sigHashOf sigAlg
  ensure (sigValue.content.head? = some 0x00) "malformed signatureValue bit string".toList
  let times := children validity.content
  let notBefore ← timeAt times 0 "validity missing notBefore" "malformed notBefore"
  let notAfter ← timeAt times 1 "validity missing notAfter" "malformed notAfter"
  return {
    der, tbs := tbs.raw, issuer := issuer.raw, subject := subject.raw, key, hash
    signature := sigValue.content.drop 1
    notBefore, notAfter
    extensions := (fields.drop 6).flatMap extensionsOf }

namespace ParsedCert

variable (cert : ParsedCert K)

def extension (oid : Bytes) : Option Bytes := (cert.extensions.find? (·.1 = oid)).map Prod.snd

/-- basicConstraints with cA = TRUE. -/
def isCa : Bool :=
  ((cert.extension [0x55, 0x1d, 0x13]).bind readTlv).any fun seq =>
    (children seq.content).head?.any fun b => b.raw = [0x01, 0x01, 0xff]

def hasCodeSigningEku : Bool :=
  ((cert.extension [0x55, 0x1d, 0x25]).bind readTlv).any fun seq =>
    (children seq.content).any fun o => o.tag = 0x06 && o.content = [0x2b, 0x06, 0x01, 0x05, 0x05, 0x07, 0x03, 0x03]

end ParsedCert

/-! ## The signer -/

def derString (value : Bytes) : Option Str := (readTlv value).bind fun t => decodeUtf8 t.content

/-- A Fulcio extension, 1.3.6.1.4.1.57264.1.n. -/
def oidFulcio (n : UInt8) : Bytes := [0x2b, 0x06, 0x01, 0x04, 0x01, 0x83, 0xbf, 0x30, 0x01, n]

def signerIdentity (leaf : ParsedCert K) : Checked SignerIdentity := do
  let issuer ← okOr
    (((leaf.extension (oidFulcio 0x08)).bind derString).or ((leaf.extension (oidFulcio 0x01)).bind decodeUtf8))
    "provenance certificate has no OIDC issuer extension".toList
  let san ← okOr
    (((leaf.extension [0x55, 0x1d, 0x11]).bind readTlv).bind fun seq =>
      ((children seq.content).find? fun g => g.tag = 0x86 || g.tag = 0x81).bind fun g => decodeUtf8 g.content)
    "provenance certificate has no URI/email subject alternative name".toList
  return { issuer, san, sourceRepo := (leaf.extension (oidFulcio 0x0c)).bind derString }

/-! ## Fields that look like a key -/

/-- The fields from the serial number on, where the certificate has them. -/
def certFields (der : Bytes) : Option (List Tlv) := do
  let cert ← readTlv der
  let tbs ← (children cert.content).head?
  (tbsFields tbs).toOption

/-- The first of the signature algorithm, the issuer and the subject that starts with a SEQUENCE, as a key does. -/
def lookalike (der : Bytes) : Option Tlv :=
  match certFields der with
  | some (_ :: tbsSig :: issuer :: _ :: subject :: _) => [tbsSig, issuer, subject].find? nestedSequence
  | _ => none

end ThreeVa.Provenance
