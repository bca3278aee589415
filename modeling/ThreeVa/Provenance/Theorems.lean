import ThreeVa.Provenance.Lemmas.Attestations
import ThreeVa.Provenance.Pins

/-!
What holds of every response with attestations, in whatever order they come, and of every run of installs that record
signers.
-/

namespace ThreeVa.Provenance
open Text
open Store (SignerIdentity)

variable {K : Type} (crates : Crates K) (artifact : Artifact)

/-! ## The order of a response -/

section Order

variable {crates artifact} {response : Json}

theorem kind_verified_all (h : kind crates artifact response = .verified) :
    ∀ att ∈ attestationsOf response, kind crates artifact (alone att) = .verified := by
  intro att hatt
  cases hitems : (response.field "attestations").asArray with
  | none => simp [attestationsOf, hitems] at hatt
  | some items =>
      have hmem : att ∈ items := by simpa [attestationsOf, hitems] using hatt
      rw [kind_eq_firstStop hitems (List.ne_nil_of_mem hmem)] at h
      exact firstStop_eq_verified h _ (List.mem_map_of_mem hmem)

/-- Attestations that stop in one way only give the response its kind. -/
theorem orderSafe_of_one_kind (k : Kind) (hk : k = .unsupported ∨ k = .err)
    (hone : ∀ att ∈ attestationsOf response, kind crates artifact (alone att) ≠ .verified →
      kind crates artifact (alone att) = k) : OrderSafe crates artifact response := by
  have hkinds : ∀ items, (response.field "attestations").asArray = some items →
      ∀ k' ∈ items.map (fun att => kind crates artifact (alone att)), k' ≠ .verified → k' = k := by
    intro items hitems k' hk'
    obtain ⟨att, hatt, rfl⟩ := List.mem_map.mp hk'
    exact hone att (by simpa [attestationsOf, hitems] using hatt)
  refine ⟨kind_verified_all, ?_, ?_⟩
  · rintro ⟨att, hatt, hinvalid⟩
    cases hitems : (response.field "attestations").asArray with
    | none => simp [attestationsOf, hitems] at hatt
    | some items =>
        have hmem : att ∈ items := by simpa [attestationsOf, hitems] using hatt
        have hfate := hone att hatt hinvalid.1
        have herr : k = .err := by
          rcases hk with rfl | rfl
          · exact absurd hfate hinvalid.2
          · rfl
        rw [kind_eq_firstStop hitems (List.ne_nil_of_mem hmem)]
        refine firstStop_of_mem (by decide) ?_ (fun k' hk' hne => (hkinds items hitems k' hk' hne).trans herr)
        rw [← herr, ← hfate]
        exact List.mem_map_of_mem hmem
  · rintro response' ⟨items, items', hitems, hitems', hperm⟩
    by_cases hne : items = []
    · subst hne
      rw [List.nil_perm] at hperm
      subst hperm
      unfold kind verifyAttestations
      rw [hitems, hitems']
    · have hne' : items' ≠ [] := fun hnil => hne (by rw [hnil, List.perm_nil] at hperm; exact hperm)
      rw [kind_eq_firstStop hitems hne, kind_eq_firstStop hitems' hne']
      exact (firstStop_perm (hperm.map _) (hkinds items hitems)).symm

/-- The same attestations with this one first. -/
theorem reordered_first {att : Json} (hatt : att ∈ attestationsOf response) :
    ∃ rest, Reordered response (.obj [("attestations".toList, .arr (att :: rest))]) := by
  cases hitems : (response.field "attestations").asArray with
  | none => simp [attestationsOf, hitems] at hatt
  | some items =>
      have hmem : att ∈ items := by simpa [attestationsOf, hitems] using hatt
      obtain ⟨before, rest, rfl⟩ := List.append_of_mem hmem
      exact ⟨before ++ rest, _, _, hitems, rfl, List.perm_middle⟩

/-- An attestation that stops, put first, decides the response. -/
theorem kind_of_orderSafe (h : OrderSafe crates artifact response) {att : Json} (hatt : att ∈ attestationsOf response)
    (hstop : kind crates artifact (alone att) ≠ .verified) :
    kind crates artifact response = kind crates artifact (alone att) := by
  obtain ⟨rest, hreordered⟩ := reordered_first hatt
  rw [← h.order _ hreordered, kind_eq_firstStop (show _ = some (att :: rest) from rfl) (by simp), List.map_cons, firstStop_cons,
    if_neg hstop]

end Order

/-- The outcome is safe in every order exactly where no attestation is invalid, or where those that stop are all plainly
invalid: none is without a certificate, and none makes a check panic. -/
theorem orderSafe_iff (response : Json) :
    OrderSafe crates artifact response ↔
      (∀ att ∈ attestationsOf response, ¬ Invalid crates artifact att) ∨
        ∀ att ∈ attestationsOf response, ¬ Uncheckable crates artifact att ∧ ¬ Panics crates artifact att := by
  constructor
  · intro hsafe
    by_cases hinvalid : ∃ att ∈ attestationsOf response, Invalid crates artifact att
    · -- an invalid one makes the response an error, which every other that stops must then be too
      right
      have herr := hsafe.invalid hinvalid
      intro att hatt
      rw [← kind_alone_unsupported, ← kind_alone_panic]
      refine ⟨fun hkind => ?_, fun hkind => ?_⟩ <;>
        · have := kind_of_orderSafe hsafe hatt (by simp [hkind])
          simp [herr, hkind] at this
    · left
      exact fun att hatt h => hinvalid ⟨att, hatt, h⟩
  · rintro (hnone | hplain)
    · refine orderSafe_of_one_kind .unsupported (.inl rfl) fun att hatt hne => ?_
      by_contra hother
      exact hnone att hatt ⟨hne, hother⟩
    · refine orderSafe_of_one_kind .err (.inr rfl) fun att hatt hne => ?_
      obtain ⟨hcheck, hpanic⟩ := hplain att hatt
      rw [← kind_alone_unsupported] at hcheck
      rw [← kind_alone_panic] at hpanic
      exact (kind_cases_of_invalid ⟨hne, hcheck⟩).resolve_right hpanic

/-! ## A response without a certificate -/

def respond (atts : List Json) : Json := .object [("attestations", .arr atts)]

/-- A subject with a name, a digest or both. -/
def subject (name digest : Option String) : Json :=
  .object ((name.map fun n => ("name", Json.text n)).toList ++
    (digest.map fun d => ("digest", .object [("sha512", Json.text d)])).toList)

def statement (subjects : List Json) : Json :=
  .object [("_type", .text "https://in-toto.io/Statement/v1"), ("subject", .arr subjects),
    ("predicateType", .text "build")]

def exampleArtifact : Artifact := ⟨"a".toList, "1.0.0".toList, "cf83".toList⟩

def inTotoPayload : Str := "application/vnd.in-toto+json".toList

def attestation (payload : Bytes) (sigs : List Json) (material : Json) : Json :=
  .object [("predicateType", .text "build"), ("bundle", .object [
    ("mediaType", .text "application/vnd.dev.sigstore.bundle+json;version=0.2"),
    ("dsseEnvelope", .object [("payloadType", .str inTotoPayload), ("payload", .str (encodeBase64 payload)),
      ("signatures", .arr sigs)]),
    ("verificationMaterial", material)])]

def certificateChain (certs : List Bytes) : String × Json :=
  ("x509CertificateChain",
    .object [("certificates", .arr (certs.map fun der => .object [("rawBytes", .str (encodeBase64 der))]))])

def plainStatement : Json := statement [subject (some "a@1.0.0") (some "cf83")]

/-- Crates that know one document, and no key. -/
def plainCrates : Crates Unit where
  overflowChecks := false
  base64Error _ := []
  fromSlice b := if b = encodeUtf8 plainStatement.render then .ok plainStatement else .error []
  fromSec1 _ _ := .error []
  verifyPrehash _ _ _ _ := false
  sha256 b := b
  sha384 b := b
  debugLossy _ := []

def withoutCertificate : Json := attestation (encodeUtf8 plainStatement.render) [] (.object [])

/-- A certificate that is no certificate. -/
def forged : Json := attestation (encodeUtf8 plainStatement.render) [] (.object [certificateChain [[]]])

set_option maxRecDepth 4000 in
/-- An attestation without a certificate hides a forged one behind it. -/
theorem forged_hidden :
    kind plainCrates exampleArtifact (respond [withoutCertificate, forged]) = .unsupported ∧
      kind plainCrates exampleArtifact (respond [forged, withoutCertificate]) = .err ∧
      ¬ OrderSafe plainCrates exampleArtifact (respond [withoutCertificate, forged]) := by
  have hfirst : kind plainCrates exampleArtifact (respond [withoutCertificate, forged]) = .unsupported := by
    decide +kernel
  have hforged : kind plainCrates exampleArtifact (alone forged) = .err := by decide +kernel
  refine ⟨hfirst, by decide +kernel, fun hsafe => ?_⟩
  have herr := hsafe.invalid ⟨forged, List.mem_cons_of_mem _ List.mem_cons_self, by simp [Invalid, hforged]⟩
  rw [hfirst] at herr
  cases herr

/-! ## What an attestation binds -/

/-- In a response that verifies, an attestation binds the artifact and the certificate exactly where its statement does not
name the package in one subject and the tarball in another, and no field before the key of its leaf holds another key. -/
theorem bound_iff (response : Json) (h : kind crates artifact response = .verified) :
    (∀ att ∈ attestationsOf response, Bound crates artifact att) ↔
      ∀ att ∈ attestationsOf response, ¬ SplitSubject crates artifact att ∧ ¬ OtherKey crates att := by
  refine forall₂_congr fun att hatt => ?_
  have haccepted := accepted_of_kind (kind_verified_all h att hatt)
  exact ⟨fun hbound => ⟨not_splitSubject_iff.mpr hbound.subject, hbound.not_otherKey⟩,
    fun ⟨hsubject, hkey⟩ => ⟨not_splitSubject_iff.mp hsubject, haccepted.bound_key hkey⟩⟩

/-! ## Responses as they are made

Signatures and hashes are symbolic: a signature is the key with the digest of what it signs, and each message that is
hashed has a digest of its own. The pinned certificates are the real ones.
-/

inductive Message
  | log
  | payload
  | envelope
  | entry
  | leaf
  | intermediate

def Message.digest : Message → Bytes
  | log => [1]
  | payload => [2]
  | envelope => [3]
  | entry => [4]
  | leaf => [5]
  | intermediate => [6]

def sign (key : Bytes) (m : Message) : Bytes := key ++ m.digest

def derTlv (tag : UInt8) (content : Bytes) : Bytes :=
  let n := content.length
  let size : Bytes := if n < 128 then [.ofNat n] else [0x82, .ofNat (n / 256), .ofNat (n % 256)]
  tag :: size ++ content

def derText (tag : UInt8) (s : String) : Bytes := derTlv tag (encodeUtf8 s.toList)

/-- A SubjectPublicKeyInfo with a key of the curve P-256. -/
def spkiOf (key : Bytes) : Bytes :=
  derTlv 0x30 (derTlv 0x30 (derTlv 0x06 oidEcPublicKey ++ derTlv 0x06 oidP256) ++ derTlv 0x03 (0 :: key))

def extensionDer (oid value : Bytes) : Bytes := derTlv 0x30 (derTlv 0x06 oid ++ derTlv 0x04 value)

/-- An element of a certificate: the TBSCertificate, the algorithm or the signature. -/
def certPart (der : Bytes) (i : Nat) : Tlv :=
  ((readTlv der).bind fun cert => (children cert.content)[i]?).getD ⟨0, [], []⟩

def certField (der : Bytes) (i : Nat) : Tlv := ((certFields der).bind fun fields => fields[i]?).getD ⟨0, [], []⟩

def bitsOf (t : Tlv) : Bytes := t.content.drop 1

def spkiKey (spki : Bytes) : Bytes := ((children spki)[1]?.map bitsOf).getD []

def intermediate : Bytes := pinned fulcioIntermediateV1DerB64

def rekorKey : Bytes := ((readTlv (pinned rekorSpkiDerB64)).map fun t => spkiKey t.content).getD []

/-- What the publisher decides: the statement, the signature algorithm of the leaf, its key, and the key that signs. -/
structure Made where
  statement : Json
  tbsSig : Bytes
  key : Bytes
  signingKey : Bytes

namespace Made

variable (m : Made)

def payload : Bytes := encodeUtf8 m.statement.render

def sigB64 : Str := encodeBase64 (sign m.signingKey .envelope)

def leafTbs : Bytes :=
  derTlv 0x30 (derTlv 0x02 [1] ++ m.tbsSig ++ (certField intermediate 4).raw ++
    derTlv 0x30 (derText 0x17 "230101000000Z" ++ derText 0x17 "240101000000Z") ++ derTlv 0x30 [] ++ spkiOf m.key ++
    derTlv 0xa3 (derTlv 0x30 (
      extensionDer [0x55, 0x1d, 0x25] (derTlv 0x30 (derTlv 0x06 [0x2b, 0x06, 0x01, 0x05, 0x05, 0x07, 0x03, 0x03])) ++
      extensionDer [0x55, 0x1d, 0x11] (derTlv 0x30 (derText 0x86 "https://github.com/o/a/.github/r")) ++
      extensionDer (oidFulcio 0x08) (derText 0x0c "https://ci"))))

/-- The leaf, issued by the pinned intermediate. -/
def leaf : Bytes :=
  derTlv 0x30 (m.leafTbs ++ derTlv 0x30 (derTlv 0x06 [0x2a, 0x86, 0x48, 0xce, 0x3d, 0x04, 0x03, 0x03]) ++
    derTlv 0x03 (0 :: sign (spkiKey (certField intermediate 5).content) .leaf))

def pem : Bytes :=
  encodeUtf8 ("-----BEGIN CERTIFICATE-----\n".toList ++ encodeBase64 m.leaf ++ "\n-----END CERTIFICATE-----\n".toList)

def body : Json :=
  .object [("kind", .text "dsse"), ("spec", .object [
    ("payloadHash", .object [("value", .str (hexEncode Message.payload.digest))]),
    ("signatures", .arr [.object [("signature", .str m.sigB64), ("verifier", .str (encodeBase64 m.pem))]])])]

def bodyB64 : Str := encodeBase64 (encodeUtf8 m.body.render)

def entry : Json :=
  .object [("logId", .object [("keyId", .str (encodeBase64 Message.log.digest))]),
    ("canonicalizedBody", .str m.bodyB64), ("integratedTime", .int 1690000000), ("logIndex", .int 1),
    ("inclusionPromise", .object [("signedEntryTimestamp", .str (encodeBase64 (sign rekorKey .entry)))])]

def response : Json :=
  respond [attestation m.payload [.object [("sig", .str m.sigB64)]]
    (.object [certificateChain [m.leaf], ("tlogEntries", .arr [m.entry])])]

def digest (b : Bytes) : Bytes :=
  if b = pinned rekorSpkiDerB64 then Message.log.digest
  else if b = m.payload then Message.payload.digest
  else if b = dssePae inTotoPayload m.payload then Message.envelope.digest
  else if b = setPayload m.bodyB64 1690000000 Message.log.digest 1 then Message.entry.digest
  else if b = m.leafTbs then Message.leaf.digest
  else if b = (certPart intermediate 0).raw then Message.intermediate.digest
  else 0 :: b

/-- A signature is over a digest under a key; so is the one of the pinned root on the pinned intermediate. -/
def symbolic : Crates Bytes where
  overflowChecks := false
  base64Error _ := []
  fromSlice b :=
    if b = m.payload then .ok m.statement
    else if b = encodeUtf8 m.body.render then .ok m.body
    else .error []
  fromSec1 _ b := .ok b
  verifyPrehash _ key digest sig :=
    sig = key ++ digest ||
      (key = spkiKey (certField (pinned fulcioRootV1DerB64) 5).content && digest = Message.intermediate.digest &&
        sig = bitsOf (certPart intermediate 2))
  sha256 := m.digest
  sha384 := m.digest
  debugLossy _ := []

def att : Json :=
  attestation m.payload [.object [("sig", .str m.sigB64)]]
    (.object [certificateChain [m.leaf], ("tlogEntries", .arr [m.entry])])

/-- The texts that are hashed differ in their first bytes. -/
theorem digest_entry (h : setPayload m.bodyB64 1690000000 Message.log.digest 1 ≠ m.payload) :
    m.digest (setPayload m.bodyB64 1690000000 Message.log.digest 1) = Message.entry.digest := by
  have hhead : (setPayload m.bodyB64 1690000000 Message.log.digest 1).head? = some 0x7b := rfl
  have hlog : setPayload m.bodyB64 1690000000 Message.log.digest 1 ≠ pinned rekorSpkiDerB64 := by
    intro heq
    rw [heq] at hhead
    exact absurd hhead (by decide +kernel)
  have hpae : setPayload m.bodyB64 1690000000 Message.log.digest 1 ≠ dssePae inTotoPayload m.payload := by
    intro heq
    have hpae : (dssePae inTotoPayload m.payload).head? = some 0x44 := rfl
    rw [← heq, hhead] at hpae
    cases hpae
  rw [digest, if_neg hlog, if_neg h, if_neg hpae, if_pos rfl]

theorem sha256_rekor : m.symbolic.sha256 (pinned rekorSpkiDerB64) = Message.log.digest := by
  rw [show m.symbolic.sha256 = m.digest from rfl, digest, if_pos rfl]

theorem verifyRekor_entry (h : setPayload m.bodyB64 1690000000 Message.log.digest 1 ≠ m.payload)
    (hkey : (rekorPublicKey m.symbolic).toOption = some (.p256 rekorKey)) : verifyRekor m.symbolic m.entry = .ok () := by
  simp only [verifyRekor, bind_eq_ok, okOr_eq_ok, ensure_eq_ok, decodeB64]
  refine ⟨_, rfl, (), ?_, Message.log.digest, decodeBase64_encodeBase64 _, m.bodyB64, rfl, 1690000000, rfl, 1, rfl, _, rfl,
    _, decodeBase64_encodeBase64 _, .p256 rekorKey, eq_ok_of_toOption hkey, (), ?_, rfl⟩
  · rw [sha256_rekor, decide_eq_true_eq]
  · show m.symbolic.verifyPrehash .p256 rekorKey (m.digest (setPayload m.bodyB64 1690000000 Message.log.digest 1)) _ = true
    rw [m.digest_entry h]
    simp [symbolic, sign]

theorem entryBinds_entry (hpayload : m.payload ≠ pinned rekorSpkiDerB64) (hbody : encodeUtf8 m.body.render ≠ m.payload)
    (hcert : certIsLeaf m.leaf (.str (encodeBase64 m.pem)) = true) :
    entryBinds m.symbolic m.entry m.leaf m.sigB64 m.payload = true := by
  have hparse : ((m.entry.field "canonicalizedBody").asStr.bind decodeBase64).bind (fromSlice? m.symbolic) = some m.body := by
    rw [show (m.entry.field "canonicalizedBody").asStr = some m.bodyB64 from rfl, Option.bind_some, bodyB64,
      decodeBase64_encodeBase64, Option.bind_some]
    simp [fromSlice?, symbolic, hbody, Except.toOption]
  have hhash : m.symbolic.sha256 m.payload = Message.payload.digest := by
    rw [show m.symbolic.sha256 = m.digest from rfl, digest, if_neg hpayload, if_pos rfl]
  have hkind : (m.body.field "kind").asStr = some "dsse".toList := rfl
  unfold entryBinds
  rw [hparse]
  simp only [hhash, hkind]
  rw [if_neg (by decide), if_pos trivial, Bool.and_eq_true]
  refine ⟨decide_eq_true rfl, ?_⟩
  rw [show (m.body.field "spec").field "signatures" = .arr [.object [("signature", .str m.sigB64),
    ("verifier", .str (encodeBase64 m.pem))]] from rfl]
  simp only [sigsMatch, Json.asArray, Option.any_some, List.any_cons, List.any_nil, Bool.or_false, Bool.and_eq_true]
  exact ⟨decide_eq_true rfl, hcert⟩

/-- A leaf whose parts pass, under a response of one attestation. -/
structure Checks (key : EcPublicKey Bytes) : Prop where
  payload : m.payload ≠ pinned rekorSpkiDerB64
  body : encodeUtf8 m.body.render ≠ m.payload
  set : setPayload m.bodyB64 1690000000 Message.log.digest 1 ≠ m.payload
  rekor : (rekorPublicKey m.symbolic).toOption = some (.p256 rekorKey)
  extracted : (extractEcPublicKey m.symbolic m.leaf).toOption = some key
  signed : ((checkEnvelope m.symbolic exampleArtifact m.att).toOption.any fun signed =>
    (verifySignatures m.symbolic exampleArtifact key signed).toOption = some m.sigB64 && signed.payload = m.payload) = true
  pem : certIsLeaf m.leaf (.str (encodeBase64 m.pem)) = true
  fulcio : (verifyFulcioChain m.symbolic m.leaf [m.leaf] 1690000000).toOption = some ()
  signer : ((parseCert m.symbolic m.leaf).toOption.any fun cert => (signerIdentity cert).toOption.isSome) = true

theorem Checks.kind_response {m : Made} {key : EcPublicKey Bytes} (h : m.Checks key) :
    kind m.symbolic exampleArtifact m.response = .verified := by
  obtain ⟨signed, henvelope, hsig⟩ := (Option.any_eq_true _ _).mp h.signed
  rw [Bool.and_eq_true, decide_eq_true_eq, decide_eq_true_eq] at hsig
  obtain ⟨cert, hcert, hsigner⟩ := (Option.any_eq_true _ _).mp h.signer
  obtain ⟨signer, hsigner⟩ := Option.isSome_iff_exists.mp hsigner
  have hpasses : Passes m.symbolic exampleArtifact m.att m.entry m.leaf :=
    { leaf := ⟨_, rfl, decodeBase64_encodeBase64 _⟩
      chain := rfl
      log := rfl
      signed := by
        refine ⟨signed, key, m.sigB64, eq_ok_of_toOption henvelope, eq_ok_of_toOption h.extracted, eq_ok_of_toOption hsig.1, ?_⟩
        rw [hsig.2]
        exact m.entryBinds_entry h.payload h.body h.pem
      rekor := m.verifyRekor_entry h.set h.rekor
      fulcio := ⟨1690000000, rfl, eq_ok_of_toOption h.fulcio⟩
      signer := ⟨cert, signer, eq_ok_of_toOption hcert, eq_ok_of_toOption hsigner⟩ }
  exact hpasses.kind_alone

end Made

def ecdsaAlgorithm : Bytes := derTlv 0x30 (derTlv 0x06 [0x2a, 0x86, 0x48, 0xce, 0x3d, 0x04, 0x03, 0x03])

/-- One subject, and a leaf that is signed with its key. -/
def honest : Made := ⟨plainStatement, ecdsaAlgorithm, [4, 1, 1], [4, 1, 1]⟩

/-- The name in one subject and the digest in another, and a key in the place of the algorithm. -/
def mixed : Made :=
  ⟨statement [subject (some "a@1.0.0") none, subject none (some "cf83")], spkiOf [4, 2, 2], [4, 1, 1], [4, 2, 2]⟩

set_option maxRecDepth 10000 in
theorem honest_checks : honest.Checks (.p256 [4, 1, 1]) := by
  constructor <;> decide +kernel

set_option maxRecDepth 10000 in
theorem mixed_checks : mixed.Checks (.p256 [4, 2, 2]) := by
  constructor <;> decide +kernel

instance {K : Type} (crates : Crates K) (artifact : Artifact) (att : Json) : Decidable (SplitSubject crates artifact att) :=
  inferInstanceAs (Decidable (∀ s ∈ subjectsOf crates artifact att, _ → _))

theorem not_otherKey_of_plain {att : Json} (h : (lookalike (leafDerOf att)).isNone = true) : ¬ OtherKey crates att := by
  rintro ⟨t, ht, -⟩
  rw [ht] at h
  cases h

set_option maxRecDepth 10000 in
theorem honest_bound :
    kind honest.symbolic exampleArtifact honest.response = .verified ∧
      ∀ att ∈ attestationsOf honest.response, Bound honest.symbolic exampleArtifact att := by
  have hkind := honest_checks.kind_response
  have hplain : ∀ att ∈ attestationsOf honest.response, ¬ SplitSubject honest.symbolic exampleArtifact att ∧
      (lookalike (leafDerOf att)).isNone = true := by decide +kernel
  refine ⟨hkind, (bound_iff honest.symbolic exampleArtifact honest.response hkind).mpr fun att hatt => ?_⟩
  exact ⟨(hplain att hatt).1, not_otherKey_of_plain _ (hplain att hatt).2⟩

set_option maxRecDepth 10000 in
/-- A response that verifies although no subject is the artifact and the leaf has another key than the one that signed. -/
theorem mixed_not_bound :
    kind mixed.symbolic exampleArtifact mixed.response = .verified ∧
      (∀ att ∈ attestationsOf mixed.response, SplitSubject mixed.symbolic exampleArtifact att ∧
        (parseCert mixed.symbolic (leafDerOf att)).toOption.map ParsedCert.key = some (.p256 [4, 1, 1]) ∧
        (extractEcPublicKey mixed.symbolic (leafDerOf att)).toOption = some (.p256 [4, 2, 2])) ∧
      ¬ ∀ att ∈ attestationsOf mixed.response, Bound mixed.symbolic exampleArtifact att := by
  have hkind := mixed_checks.kind_response
  have hparts : ∀ att ∈ attestationsOf mixed.response, SplitSubject mixed.symbolic exampleArtifact att ∧
      (parseCert mixed.symbolic (leafDerOf att)).toOption.map ParsedCert.key = some (.p256 [4, 1, 1]) ∧
      (extractEcPublicKey mixed.symbolic (leafDerOf att)).toOption = some (.p256 [4, 2, 2]) := by decide +kernel
  refine ⟨hkind, hparts, fun hbound => ?_⟩
  have hmem : attestation mixed.payload [.object [("sig", .str mixed.sigB64)]]
      (.object [certificateChain [mixed.leaf], ("tlogEntries", .arr [mixed.entry])]) ∈ attestationsOf mixed.response :=
    List.mem_cons_self
  exact absurd (hparts _ hmem).1 (not_splitSubject_iff.mpr (hbound _ hmem).subject)

/-! ## Recorded signers -/

/-- In a run in which the file is read back whole, and in which every list that records a first signer goes on with that
signer, records are a latch. -/
theorem signers_latched (s s₁ s₂ : State) (ops₁ ops₂ : List State.Op) (hnew : s.flights = [])
    (h₁ : Runs.exec State.step s ops₁ = some s₁) (h₂ : Runs.exec State.step s₁ ops₂ = some s₂)
    (hgood₁ : Runs.Along State.step (fun s op => s.goodStep op = true) s ops₁)
    (hgood₂ : Runs.Along State.step (fun s op => s.goodStep op = true) s₁ ops₂) : Latched s₁ s₂ := by
  have hsettled : s₂.AllSettled := by
    refine Runs.exec_invariant (fun s op t hs hgood => hs.step hgood) ?_ hgood₂ h₂
    refine Runs.exec_invariant (fun s op t hs hgood => hs.step hgood) ?_ hgood₁ h₁
    exact fun f hf => by simp [hnew] at hf
  have hfollow : ∀ pkgName pin, s₁.recorded pkgName = some pin → s₂.AllFollow pkgName pin s₁.flights.length := by
    intro pkgName pin hpin
    refine Runs.exec_invariant (fun s op t hs hgood => hs.step hgood) ⟨hpin, ?_⟩ hgood₂ h₂
    intro i f hi hf
    rw [List.getElem?_eq_none hi] at hf
    cases hf
  refine ⟨fun pkgName pin hpin => (hfollow pkgName pin hpin).1, ?_, ?_⟩
  · rintro pkgName pin hpin i f hi hf hname result hresult ⟨x, hx, hother⟩
    cases result with
    | error why => exact ⟨why, rfl⟩
    | ok u =>
        obtain ⟨before, hsplit, hall, htodo⟩ := (hfollow pkgName pin hpin).2 i f hi hf hname
        rw [hsplit, htodo hresult, List.append_nil] at hx
        exact absurd (hall x hx) hother
  · intro f hf why hresult
    by_contra hrec
    exact (hsettled f hf (by simpa using hrec)).1 why hresult

def signerOf (repo : String) : SignerIdentity := ⟨"ci".toList, "r".toList, some repo.toList⟩

def fine : Io := ⟨true, .done⟩

def fresh : State := ⟨none, []⟩

/-- An install of a package that declares a repository. -/
def install (pkgName repo : String) (repos : List String) : State.Op :=
  .start pkgName.toList (some (Store.normalizeRepository repo.toList)) false (repos.map fun r => some (signerOf r))

/-- The state after calls that can all be made. -/
def after (s : State) (ops : List State.Op) : State := (Runs.exec State.step s ops).getD s

theorem exec_after {s : State} {ops : List State.Op} (h : (Runs.exec State.step s ops).isSome = true) :
    Runs.exec State.step s ops = some (after s ops) := by
  obtain ⟨t, ht⟩ := Option.isSome_iff_exists.mp h
  rw [after, ht, Option.getD_some]

def firstInstall : List State.Op := [install "a" "o/a" ["o/a", "o/a"], .advance 0 fine, .advance 0 fine, .advance 0 fine]

def otherSigner : List State.Op := [install "a" "e/a" ["e/a"], .advance 1 fine]

theorem other_signer_latched :
    (after fresh firstInstall).recorded "a".toList = some "ci o/a".toList ∧
      Latched (after fresh firstInstall) (after (after fresh firstInstall) otherSigner) :=
  ⟨by decide +kernel, signers_latched fresh _ _ firstInstall otherSigner rfl (exec_after (by decide +kernel))
    (exec_after (by decide +kernel)) (by decide +kernel) (by decide +kernel)⟩

/-- The second signer of the list has built from another repository. -/
def partlySigned : List State.Op := [install "a" "o/a" ["o/a", "e/a"], .advance 0 fine, .advance 0 fine]

/-- The signer of another package is recorded while the disk is full; then the first package is installed anew. -/
def cutShort : List State.Op :=
  [install "b" "o/b" ["o/b"], .advance 1 ⟨true, .cut "no space left on device".toList⟩, install "a" "e/a" ["e/a"],
    .advance 2 fine, .advance 2 fine]

theorem rejected_signer_recorded_and_record_lost :
    (Runs.exec State.step fresh partlySigned = some (after fresh partlySigned) ∧
        (after fresh partlySigned).recorded "a".toList = some "ci o/a".toList ∧
        ¬ Latched fresh (after fresh partlySigned)) ∧
      Runs.exec State.step fresh firstInstall = some (after fresh firstInstall) ∧
      Runs.exec State.step (after fresh firstInstall) cutShort = some (after (after fresh firstInstall) cutShort) ∧
      (after fresh firstInstall).recorded "a".toList = some "ci o/a".toList ∧
      (after (after fresh firstInstall) cutShort).recorded "a".toList = some "ci e/a".toList ∧
      ¬ Latched (after fresh firstInstall) (after (after fresh firstInstall) cutShort) := by
  have hfirst : (after fresh firstInstall).recorded "a".toList = some "ci o/a".toList := by decide +kernel
  have hcut : (after (after fresh firstInstall) cutShort).recorded "a".toList = some "ci e/a".toList := by
    decide +kernel
  refine ⟨⟨exec_after (by decide +kernel), by decide +kernel, fun h => ?_⟩, exec_after (by decide +kernel),
    exec_after (by decide +kernel), hfirst, hcut, fun h => ?_⟩
  · have hflight : (after fresh partlySigned).flights.any (fun f => f.recorded && f.result.any fun r => !r.isOk) = true := by
      decide +kernel
    obtain ⟨f, hf, hflags⟩ := List.any_eq_true.mp hflight
    obtain ⟨hrecorded, hresult⟩ := Bool.and_eq_true_iff.mp hflags
    cases hr : f.result with
    | none => simp [hr] at hresult
    | some r =>
        cases r with
        | ok u => simp [hr, Except.isOk, Except.toBool] at hresult
        | error why => simp [h.clean f hf why hr] at hrecorded
  · have hkept := h.kept _ _ hfirst
    rw [hcut] at hkept
    exact absurd hkept (by decide +kernel)

end ThreeVa.Provenance
