import ThreeVa.Lib.Lines
import ThreeVa.Provenance.Chain

/-!
# Rekor entries

`pm/src/provenance.rs`: an entry of the transparency log against the pinned key, its inclusion proof, and what it
records.
-/

namespace ThreeVa.Provenance
open Text

def rekorSpkiDerB64 : Str :=
  literal _
    "MFkwEwYHKoZIzj0CAQYIKoZIzj0DAQcDQgAE2G2Y+2tabdTV5BcGiBIx0a9fAFwrkBbmLSGtks4L3qX6yYY0zufBnhC8Ur/iy55GhWP/9A/bY2LhC30M9+RYtw=="
    String.toList_ofList

def hexEncode (bytes : Bytes) : Str :=
  bytes.flatMap fun b => [Nat.digitChar (b.toNat / 16), Nat.digitChar (b.toNat % 16)]

variable {K : Type} (crates : Crates K)

def decodeB64 (s : Str) (what : String) : Checked Bytes :=
  okOr (decodeBase64 s) (what.toList ++ ": invalid base64: ".toList ++ crates.base64Error s)

/-- A number that npm sometimes ships as a string. -/
def jsonU64 (v : Json) (what : String) : Checked Nat :=
  okOr (v.asU64.or (v.asStr.bind (parseUnsigned 10 usizeMax))) ("tlog entry missing ".toList ++ what.toList)

/-- `as i64` -/
def toI64 (n : Nat) : Int := (n : Int).bmod (2 ^ 64)

def rekorPublicKey : Checked (EcPublicKey K) := do
  let spki ← okOr (readTlv (pinned rekorSpkiDerB64)) "malformed Rekor SPKI".toList
  spkiPublicKey crates spki

/-! ## Inclusion proofs -/

def merkleLeafHash (body : Bytes) : Bytes := crates.sha256 (0x00 :: body)

def merkleNodeHash (left right : Bytes) : Bytes := crates.sha256 (0x01 :: left ++ right)

/-- `64 - leading_zeros` -/
def bitLength (x : Nat) : Nat := if x = 0 then 0 else x.log2 + 1

def innerProofSize (index size : Nat) : Nat := bitLength (index ^^^ (size - 1))

def countOnes (x : Nat) : Nat := (List.range 64).countP fun i => x.testBit i

/-- `>>` of a `u64`; where overflow is not checked, the amount wraps around. -/
def shiftRight (x amount : Nat) : Checked Nat :=
  if crates.overflowChecks && 64 ≤ amount then .error .panic else .ok (x >>> (amount % 64))

def chainInner (seed : Bytes) (hashes : List Bytes) (index : Nat) : Bytes :=
  hashes.zipIdx.foldl
    (fun seed (h, i) =>
      if index.testBit i then merkleNodeHash crates h seed else merkleNodeHash crates seed h) seed

def chainBorderRight (seed : Bytes) (hashes : List Bytes) : Bytes :=
  hashes.foldl (fun seed h => merkleNodeHash crates h seed) seed

/-- Indexing the map of an object, which panics where the key is missing. -/
def indexMap (fields : List (Str × Json)) (key : String) : Checked Json :=
  match Json.get? fields key.toList with
  | some v => .ok v
  | none => .error .panic

def proofHash (h : Json) : Checked Bytes := do
  let s ← okOr h.asStr "inclusion proof hash is not a string".toList
  let b ← decodeB64 crates s "inclusion proof hash"
  ensure (b.length = 32) "inclusion proof hash is not 32 bytes".toList
  return b

def verifyInclusion (proof : List (Str × Json)) (leafHash rootHash : Bytes) : Checked Unit := do
  let index ← jsonU64 (← indexMap proof "logIndex") "inclusionProof logIndex"
  let treeSize ← jsonU64 (← indexMap proof "treeSize") "inclusionProof treeSize"
  ensure (treeSize ≠ 0 && index < treeSize) "inclusion proof index out of range".toList
  let items ← okOr (← indexMap proof "hashes").asArray "inclusionProof missing hashes".toList
  let hashes ← items.mapM (proofHash crates)
  let inner := innerProofSize index treeSize
  let border := countOnes (← shiftRight crates index inner)
  ensure (hashes.length = inner + border) "inclusion proof hash count mismatch".toList
  let seed := chainInner crates leafHash (hashes.take inner) index
  ensure (chainBorderRight crates seed (hashes.drop inner) = rootHash)
    "inclusion proof does not match the checkpoint root hash".toList

/-! ## Entries -/

def setPayload (bodyB64 : Str) (integratedTime : Int) (logId : Bytes) (logIndex : Nat) : Bytes :=
  encodeUtf8 ("\x7b\"body\":\"".toList ++ bodyB64 ++ "\",\"integratedTime\":".toList ++ intText integratedTime ++
    ",\"logID\":\"".toList ++ hexEncode logId ++ "\",\"logIndex\":".toList ++ decimal logIndex ++ "\x7d".toList)

/-- The checkpoint of an inclusion proof, signed by the log. -/
def verifyCheckpoint (proof : List (Str × Json)) (rekorKey : EcPublicKey K) (logId : Bytes) : Checked Bytes := do
  let envelope ← okOr ((← indexMap proof "checkpoint").field "envelope").asStr
    "inclusionProof missing checkpoint envelope".toList
  let (note, signatures) ← okOr (splitOnceStr "\n\n".toList envelope)
    "malformed checkpoint: missing note separator".toList
  let noteBody := note ++ ['\n']
  let sigField ← okOr (((signatures.splitOn '\n').find? (·.contains '—')).bind fun l => (splitWhitespace l).getLast?)
    "malformed checkpoint: no signature line".toList
  let raw ← decodeB64 crates sigField "checkpoint signature"
  ensure (4 ≤ raw.length) "malformed checkpoint signature".toList
  ensure (raw.take 4 = logId.take 4) "checkpoint signature key hint does not match the Rekor log".toList
  ensure (verifyEcdsa crates rekorKey .sha256 (encodeUtf8 noteBody) (raw.drop 4))
    "checkpoint signature is invalid".toList
  let rootB64 ← okOr (noteBody.splitOn '\n')[2]? "malformed checkpoint note".toList
  decodeB64 crates rootB64 "checkpoint root hash"

def verifyRekor (entry : Json) : Checked Unit := do
  let logIdB64 ← okOr ((entry.field "logId").field "keyId").asStr "tlog entry missing logId.keyId".toList
  ensure (logIdB64 = encodeBase64 (crates.sha256 (pinned rekorSpkiDerB64)))
    "tlog entry is not from the trusted Sigstore Rekor log".toList
  let logId ← decodeB64 crates logIdB64 "logId.keyId"
  let bodyB64 ← okOr (entry.field "canonicalizedBody").asStr "tlog entry missing canonicalizedBody".toList
  let integratedTime ← jsonU64 (entry.field "integratedTime") "integratedTime"
  let logIndex ← jsonU64 (entry.field "logIndex") "logIndex"
  let setB64 ← okOr ((entry.field "inclusionPromise").field "signedEntryTimestamp").asStr
    "tlog entry missing signedEntryTimestamp".toList
  let setDer ← decodeB64 crates setB64 "signedEntryTimestamp"
  let rekorKey ← rekorPublicKey crates
  ensure (verifyEcdsa crates rekorKey .sha256 (setPayload bodyB64 (toI64 integratedTime) logId logIndex) setDer)
    "Rekor signed entry timestamp (SET) is invalid".toList
  match (entry.field "inclusionProof").asObject with
  | some proof => do
      let rootHash ← verifyCheckpoint crates proof rekorKey logId
      let body ← decodeB64 crates bodyB64 "canonicalizedBody"
      verifyInclusion crates proof (merkleLeafHash crates body) rootHash
  | none => .ok ()

/-! ## What an entry records -/

def fromSlice? (bytes : Bytes) : Option Json := (crates.fromSlice bytes).toOption

/-- The certificate of a log entry, a PEM text in base 64, is the leaf. -/
def certIsLeaf (leafDer : Bytes) (v : Json) : Bool :=
  ((v.asStr.bind decodeBase64).bind decodeUtf8).any fun pem =>
    decodeBase64 ((lines pem).filter fun l => !("-----".toList.isPrefixOf l)).flatten = some leafDer

def sigsMatch (leafDer : Bytes) (list : Json) (sigKey : String) (sigValue : Str) (certKey : String) : Bool :=
  list.asArray.any fun sigs =>
    sigs.any fun s => (s.field sigKey).asStr = some sigValue && certIsLeaf leafDer (s.field certKey)

def entryBinds (entry : Json) (leafDer : Bytes) (sigB64 : Str) (payload : Bytes) : Bool :=
  match ((entry.field "canonicalizedBody").asStr.bind decodeBase64).bind (fromSlice? crates) with
  | none => false
  | some body =>
      let payloadHash := hexEncode (crates.sha256 payload)
      if (body.field "kind").asStr = some "intoto".toList then
        let content := (body.field "spec").field "content"
        ((content.field "payloadHash").field "value").asStr = some payloadHash &&
          sigsMatch leafDer ((content.field "envelope").field "signatures") "sig" (encodeBase64 (encodeUtf8 sigB64))
            "publicKey"
      else if (body.field "kind").asStr = some "dsse".toList then
        let spec := body.field "spec"
        ((spec.field "payloadHash").field "value").asStr = some payloadHash &&
          sigsMatch leafDer (spec.field "signatures") "signature" sigB64 "verifier"
      else false

end ThreeVa.Provenance
