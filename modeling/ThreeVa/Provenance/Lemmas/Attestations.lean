import ThreeVa.Provenance.Attestations
import ThreeVa.Provenance.Lemmas.Cert

/-!
# A response and its attestations

The outcome of a response from the outcomes of its attestations, and what an attestation that verifies has passed.
-/

namespace ThreeVa.Provenance
open Text
open Store (SignerIdentity)

variable {K : Type} {crates : Crates K} {artifact : Artifact}

/-! ## The first that stops -/

theorem find?_perm {α : Type} {p : α → Bool} {l l' : List α} (h : l.Perm l')
    (hone : ∀ a ∈ l, ∀ b ∈ l, p a = true → p b = true → a = b) : l.find? p = l'.find? p := by
  cases hl : l.find? p with
  | none =>
      rw [List.find?_eq_none] at hl
      refine (List.find?_eq_none.mpr fun a ha => ?_).symm
      exact hl a (h.symm.subset ha)
  | some a =>
      have ha := List.mem_of_find?_eq_some hl
      have hpa := List.find?_some hl
      cases hl' : l'.find? p with
      | none =>
          rw [List.find?_eq_none] at hl'
          exact absurd hpa (hl' a (h.subset ha))
      | some b =>
          have hb := h.symm.subset (List.mem_of_find?_eq_some hl')
          rw [hone a ha b hb hpa (List.find?_some hl')]

/-- The kind of one attestation. -/
def fate : Checked (Except Str SignerIdentity) → Kind
  | .ok (.ok _) => .verified
  | .ok (.error _) => .unsupported
  | .error (.err _) => .err
  | .error .panic => .panic

def firstStop (kinds : List Kind) : Kind := (kinds.find? (· ≠ .verified)).getD .verified

theorem firstStop_cons (k : Kind) (ks : List Kind) : firstStop (k :: ks) = if k = .verified then firstStop ks else k := by
  unfold firstStop
  split <;> simp_all

theorem kindOf_verifyEach (signers : List SignerIdentity) (atts : List Json) :
    kindOf (verifyEach crates artifact signers atts) =
      firstStop (atts.map fun att => fate (verifyAttestation crates artifact att)) := by
  induction atts generalizing signers with
  | nil => rfl
  | cons att atts ih =>
      rw [List.map_cons, firstStop_cons]
      unfold verifyEach
      cases verifyAttestation crates artifact att with
      | error e => cases e <;> rfl
      | ok r =>
          cases r with
          | error why => rfl
          | ok signer => simpa [fate] using ih (signers ++ [signer])

theorem kind_of_attestations {response : Json} {items : List Json} (h : (response.field "attestations").asArray = some items)
    (hne : items ≠ []) : kind crates artifact response =
      firstStop (items.map fun att => fate (verifyAttestation crates artifact att)) := by
  unfold kind verifyAttestations
  simp only [h, okOr_some, ok_bind, List.isEmpty_eq_false_iff.mpr hne, Bool.not_false, ensure_true]
  exact kindOf_verifyEach [] items

theorem kind_alone (att : Json) : kind crates artifact (alone att) = fate (verifyAttestation crates artifact att) := by
  rw [kind_of_attestations (show _ = some [att] from rfl) (by simp), List.map_singleton, firstStop_cons]
  split <;> simp_all [firstStop]

theorem kind_eq_firstStop {response : Json} {items : List Json}
    (h : (response.field "attestations").asArray = some items) (hne : items ≠ []) :
    kind crates artifact response = firstStop (items.map fun att => kind crates artifact (alone att)) := by
  rw [kind_of_attestations h hne]
  simp only [kind_alone]

theorem firstStop_eq_verified {kinds : List Kind} (h : firstStop kinds = .verified) : ∀ k ∈ kinds, k = .verified := by
  induction kinds with
  | nil => simp
  | cons k ks ih =>
      rw [firstStop_cons] at h
      split at h
      · rename_i hk
        intro k' hk'
        rcases List.mem_cons.mp hk' with rfl | hk'
        · exact hk
        · exact ih h k' hk'
      · exact absurd h ‹_›

/-- Where those that stop are of one kind, that is the kind of the list. -/
theorem firstStop_of_mem {kinds : List Kind} {k : Kind} (hne : k ≠ .verified) (hmem : k ∈ kinds)
    (hone : ∀ k' ∈ kinds, k' ≠ .verified → k' = k) : firstStop kinds = k := by
  cases hfind : kinds.find? (· ≠ .verified) with
  | none =>
      rw [List.find?_eq_none] at hfind
      exact absurd (by simpa using hfind k hmem) hne
  | some k' =>
      have hk' := hone k' (List.mem_of_find?_eq_some hfind) (by simpa using List.find?_some hfind)
      unfold firstStop
      rw [hfind, Option.getD_some, hk']

theorem firstStop_perm {kinds kinds' : List Kind} {k : Kind} (hperm : kinds.Perm kinds')
    (hone : ∀ k' ∈ kinds, k' ≠ .verified → k' = k) : firstStop kinds = firstStop kinds' := by
  unfold firstStop
  rw [find?_perm hperm]
  intro a ha b hb hpa hpb
  rw [hone a ha (by simpa using hpa), hone b hb (by simpa using hpb)]

/-! ## Kinds of attestations -/

theorem kind_alone_unsupported {att : Json} :
    kind crates artifact (alone att) = .unsupported ↔ Uncheckable crates artifact att := by
  rw [kind_alone]
  unfold verifyAttestation Uncheckable
  cases checkEnvelope crates artifact att with
  | error e => cases e <;> simp [fate, Bind.bind, Except.bind, Except.isOk, Except.toBool]
  | ok signed =>
      cases leafB64 att with
      | none => simp [fate, Except.isOk, Except.toBool, pure, Except.pure]
      | some leaf =>
          cases h : verifySigner crates artifact att signed leaf with
          | error e => cases e <;> simp [h, fate, Bind.bind, Except.bind]
          | ok signer => simp [h, fate, Bind.bind, Except.bind, pure, Except.pure]

theorem noPanic_checkStatement (predicateType : Str) (statement : Json) :
    NoPanic (checkStatement artifact predicateType statement) := by
  unfold checkStatement
  refine (noPanic_ensure _ _).bind fun _ _ => (noPanic_ensure _ _).bind fun _ _ => ?_
  exact (noPanic_ensure _ _).bind fun _ _ => noPanic_ensure _ _

theorem noPanic_statementOf (payload : Bytes) : NoPanic (statementOf crates payload) := by
  unfold statementOf
  split <;> exact fun h => by cases h

theorem noPanic_checkEnvelope (att : Json) : NoPanic (checkEnvelope crates artifact att) := by
  unfold checkEnvelope
  refine (noPanic_okOr _ _).bind fun _ _ => (noPanic_okOr _ _).bind fun _ _ => ?_
  refine (noPanic_ensure _ _).bind fun _ _ => (noPanic_ensure _ _).bind fun _ _ => ?_
  refine (noPanic_okOr _ _).bind fun _ _ => (noPanic_ensure _ _).bind fun _ _ => ?_
  refine (noPanic_okOr _ _).bind fun _ _ => (noPanic_okOr _ _).bind fun _ _ => ?_
  refine (noPanic_statementOf _).bind fun _ _ => (noPanic_checkStatement _ _).bind fun _ _ => ?_
  exact noPanic_ok _

theorem kind_alone_panic {att : Json} : kind crates artifact (alone att) = .panic ↔ Panics crates artifact att := by
  have hno : NoPanic (checkEnvelope crates artifact att) := noPanic_checkEnvelope att
  rw [kind_alone]
  unfold verifyAttestation Panics
  cases hcheck : checkEnvelope crates artifact att with
  | error e =>
      cases e with
      | err why => simp [fate, Bind.bind, Except.bind]
      | panic => exact absurd hcheck hno
  | ok signed =>
      cases leafB64 att with
      | none => simp [fate, pure, Except.pure]
      | some leaf =>
          cases h : verifySigner crates artifact att signed leaf with
          | error e => cases e <;> simp [h, fate, Bind.bind, Except.bind]
          | ok signer => simp [h, fate, Bind.bind, Except.bind, pure, Except.pure]

theorem kind_cases_of_invalid {att : Json} (h : Invalid crates artifact att) :
    kind crates artifact (alone att) = .err ∨ kind crates artifact (alone att) = .panic := by
  unfold Invalid at h
  cases hkind : kind crates artifact (alone att) <;> simp_all

/-! ## Attestations that verify -/

theorem findSignature_spec {key : EcPublicKey K} {signed : Signed} {sigs : List Json} {s : Str}
    (h : findSignature crates key signed sigs = .ok (some s)) :
    ∃ sig ∈ sigs, ∃ sigDer, (sig.field "sig").asStr.bind decodeBase64 = some sigDer ∧
      verifyDsseSignature crates key signed.payloadType signed.payload sigDer = true := by
  induction sigs with
  | nil => cases h
  | cons sig sigs ih =>
      unfold findSignature at h
      simp only [bind_eq_ok, okOr_eq_ok] at h
      obtain ⟨sigB64, hstr, sigDer, hdecode, h⟩ := h
      split at h
      · exact ⟨sig, List.mem_cons_self, sigDer, by rw [hstr]; exact hdecode, ‹_›⟩
      · obtain ⟨sig', hmem, hsig'⟩ := ih h
        exact ⟨sig', List.mem_cons_of_mem _ hmem, hsig'⟩

theorem signedBy_of_verifySignatures {key : EcPublicKey K} {signed : Signed} {s : Str}
    (h : verifySignatures crates artifact key signed = .ok s) : SignedBy crates key signed := by
  unfold verifySignatures at h
  simp only [bind_eq_ok, okOr_eq_ok] at h
  obtain ⟨sigs, hsigs, -, -, o, hfind, rfl⟩ := h
  obtain ⟨sig, hmem, sigDer, hdecode, hverify⟩ := findSignature_spec hfind
  exact ⟨sigs, sig, sigDer, hsigs, hmem, hdecode, hverify⟩

/-- What an attestation with one entry of the log must pass to verify. -/
structure Passes (crates : Crates K) (artifact : Artifact) (att entry : Json) (leafDer : Bytes) : Prop where
  leaf : ∃ leaf, leafB64 att = some leaf ∧ decodeBase64 leaf = some leafDer
  chain : ((certificates att).getD []).filterMap rawBytes = (leafB64 att).toList
  log : ((verificationMaterial att).field "tlogEntries").asArray = some [entry]
  signed : ∃ signed key sig, checkEnvelope crates artifact att = .ok signed ∧ extractEcPublicKey crates leafDer = .ok key ∧
    verifySignatures crates artifact key signed = .ok sig ∧ entryBinds crates entry leafDer sig signed.payload = true
  rekor : verifyRekor crates entry = .ok ()
  fulcio : ∃ time, jsonU64 (entry.field "integratedTime") "integratedTime" = .ok time ∧
    verifyFulcioChain crates leafDer [leafDer] (toI64 time) = .ok ()
  signer : ∃ cert signer, parseCert crates leafDer = .ok cert ∧ signerIdentity cert = .ok signer

theorem Passes.kind_alone {att entry : Json} {leafDer : Bytes} (h : Passes crates artifact att entry leafDer) :
    kind crates artifact (alone att) = .verified := by
  obtain ⟨leaf, hleaf, hder⟩ := h.leaf
  obtain ⟨signed, key, sig, henvelope, hkey, hsig, hbinds⟩ := h.signed
  obtain ⟨time, htime, hfulcio⟩ := h.fulcio
  obtain ⟨cert, signer, hcert, hsigner⟩ := h.signer
  have hchain : (((certificates att).getD []).filterMap rawBytes).mapM (decodeB64 crates · "certificate rawBytes") =
      .ok [leafDer] := by
    rw [h.chain, hleaf]
    simp [decodeB64, hder]
  have hentries : verifyEntries crates leafDer sig signed.payload none [entry] = .ok (some (toI64 time)) := by
    simp [verifyEntries, h.rekor, hbinds, htime, mapErr]
  have hverify : verifySigner crates artifact att signed leaf = .ok signer := by
    simp only [verifySigner, bind_eq_ok, okOr_eq_ok, mapErr_eq_ok]
    exact ⟨leafDer, by simpa [decodeB64] using hder, key, hkey, [leafDer], hchain, sig, hsig, [entry], h.log, (), rfl,
      some (toI64 time), hentries, toI64 time, rfl, (), hfulcio, cert, hcert, hsigner⟩
  rw [Provenance.kind_alone, verifyAttestation, henvelope, ok_bind, hleaf]
  simp only [hverify, ok_bind]
  rfl

/-- What an attestation that verifies has passed. -/
structure Accepted (crates : Crates K) (artifact : Artifact) (att : Json) : Prop where
  passed : ∃ signed key cert chain asOf, checkEnvelope crates artifact att = .ok signed ∧
    verifyFulcioChain crates (leafDerOf att) chain asOf = .ok () ∧
    parseCert crates (leafDerOf att) = .ok cert ∧
    extractEcPublicKey crates (leafDerOf att) = .ok key ∧ SignedBy crates key signed

theorem accepted_of_kind {att : Json} (h : kind crates artifact (alone att) = .verified) :
    Accepted crates artifact att := by
  rw [kind_alone] at h
  obtain ⟨signer, hverify⟩ : ∃ signer, verifyAttestation crates artifact att = .ok (.ok signer) := by
    revert h
    unfold fate
    split <;> simp_all
  unfold verifyAttestation at hverify
  rw [bind_eq_ok] at hverify
  obtain ⟨signed, hsigned, hverify⟩ := hverify
  split at hverify
  · rename_i leaf hleaf
    simp only [bind_eq_ok] at hverify
    obtain ⟨_, hsigner, -⟩ := hverify
    unfold verifySigner decodeB64 at hsigner
    simp only [bind_eq_ok, okOr_eq_ok, mapErr_eq_ok] at hsigner
    obtain ⟨leafDer, hdecode, key, hkey, chain, -, sig, hsig, tlog, -, -, -, o, -, asOf, -, ⟨⟩,
      hchain, cert, hcert, -⟩ :=
      hsigner
    have hleafDer : leafDerOf att = leafDer := by simp [leafDerOf, hleaf, hdecode]
    rw [← hleafDer] at hkey hchain hcert
    exact ⟨signed, key, cert, chain, asOf, hsigned, hchain, hcert, hkey, signedBy_of_verifySignatures hsig⟩
  · cases hverify

theorem not_splitSubject_iff {att : Json} : ¬ SplitSubject crates artifact att ↔
    ∃ s ∈ subjectsOf crates artifact att,
      namesPackage artifact.pkgName artifact.version s = true ∧ hasDigest artifact.tarballSha512Hex s = true := by
  simp [SplitSubject]

theorem Bound.not_otherKey {att : Json} (h : Bound crates artifact att) : ¬ OtherKey crates att := by
  obtain ⟨signed, cert, chain, asOf, -, -, hcert, hkey, -⟩ := h.key
  rintro ⟨t, ht, hother⟩
  rw [extractEcPublicKey_of_parseCert hcert, ht] at hkey
  exact hother cert hcert hkey

theorem Accepted.bound_key {att : Json} (h : Accepted crates artifact att) (hkey : ¬ OtherKey crates att) :
    ∃ signed cert chain asOf, checkEnvelope crates artifact att = .ok signed ∧
      verifyFulcioChain crates (leafDerOf att) chain asOf = .ok () ∧
      parseCert crates (leafDerOf att) = .ok cert ∧
      extractEcPublicKey crates (leafDerOf att) = .ok cert.key ∧ SignedBy crates cert.key signed := by
  obtain ⟨signed, key, cert, chain, asOf, hsigned, hchain, hcert, hextract, hby⟩ := h.passed
  have hsame : extractEcPublicKey crates (leafDerOf att) = .ok cert.key := by
    rw [extractEcPublicKey_of_parseCert hcert]
    cases hlook : lookalike (leafDerOf att) with
    | none => rfl
    | some t =>
        by_contra hne
        exact hkey ⟨t, hlook, fun cert' hcert' => by rw [hcert] at hcert'; cases hcert'; exact hne⟩
  rw [hextract] at hsame
  cases hsame
  exact ⟨signed, cert, chain, asOf, hsigned, hchain, hcert, hextract, hby⟩

end ThreeVa.Provenance
