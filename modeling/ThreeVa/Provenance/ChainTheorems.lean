import ThreeVa.Provenance.Lemmas.Search
import ThreeVa.Provenance.Theorems
import ThreeVa.Provenance.Lemmas.Hostile

/-!
# Theorems about chains

What the search for a chain proves, and when the order of a bundle matters to it.
-/

namespace ThreeVa.Provenance
open Text FirstFit

/-- What is accepted has a chain, and the order of the bundle does not matter, exactly if no choice among the issuers that
fit matters. -/
theorem chainVerified_iff {K : Type} (crates : Crates K) (leafDer : Bytes) (bundleChain : List Bytes) (asOf : Int) :
    ChainVerified crates leafDer bundleChain asOf ↔ ¬ Ambiguous crates leafDer bundleChain asOf := by
  constructor
  · rintro h ⟨leaf, hleaf, hways⟩
    refine Search.run_perm_iff.mp (fun bundleChain' hperm => ?_) hways
    have hsame := h.order bundleChain' hperm
    rw [acceptsChain_of_leaf hleaf, acceptsChain_of_leaf hleaf] at hsame
    exact Bool.eq_iff_iff.mpr hsame
  · intro h
    refine ⟨fun haccepts => ?_, fun bundleChain' hperm => ?_⟩
    · obtain ⟨leaf, hleaf, hrun⟩ := acceptsChain_iff.mp haccepts
      exact exists_trustChain hleaf (Search.canAccept_of_run (.refl _) hrun)
    · rw [acceptsChain_iff, acceptsChain_iff]
      refine exists_congr fun leaf => and_congr_right fun hleaf => ?_
      rw [Search.run_perm_iff.mpr (fun hways => h ⟨leaf, hleaf, hways⟩) bundleChain' hperm]

/-- Where at most one certificate of the bundle issued each, and none makes the reader panic, its order does not matter. -/
theorem not_ambiguous_of_one_issuer {K : Type} (crates : Crates K) (leafDer : Bytes) (bundleChain : List Bytes) (asOf : Int)
    (hpanic : ∀ der ∈ bundleChain, parseCert crates der ≠ .error .panic)
    (hone : ∀ cert, ∀ der ∈ bundleChain, ∀ der' ∈ bundleChain, ∀ issuer issuer', parseCert crates der = .ok issuer →
      parseCert crates der' = .ok issuer' → IssuedBy crates cert issuer → IssuedBy crates cert issuer' → issuer = issuer') :
    ¬ Ambiguous crates leafDer bundleChain asOf := by
  rintro ⟨leaf, -, haccept, hreject⟩
  have hsome : ∀ cert, ∀ der ∈ bundleChain, ∀ o, (chainSearch crates asOf).offer cert der = some o →
      ∃ issuer, o = some issuer := by
    intro cert der hder o hoffer
    cases o with
    | some issuer => exact ⟨issuer, rfl⟩
    | none => exact absurd (panic_of_offer hoffer) (hpanic der hder)
  refine haccept.not_canReject (fun cert der hder der' hder' o o' hoffer hoffer' => ?_) hreject
  obtain ⟨issuer, rfl⟩ := hsome cert der hder o hoffer
  obtain ⟨issuer', rfl⟩ := hsome cert der' hder' o' hoffer'
  obtain ⟨hparse, hissued, -⟩ := offer_eq_some hoffer
  obtain ⟨hparse', hissued', -⟩ := offer_eq_some hoffer'
  rw [hone cert der hder der' hder' issuer issuer' hparse hparse' hissued hissued']

/-! ## A decoy -/

/-- A certificate with the name and the key of the pinned intermediate, and an issuer that is nowhere. -/
def decoy : Bytes :=
  derTlv 0x30 (
    derTlv 0x30 (derTlv 0x02 [1] ++ ecdsaAlgorithm ++ derTlv 0x30 [] ++
      derTlv 0x30 (derText 0x17 "230101000000Z" ++ derText 0x17 "240101000000Z") ++ (certField intermediate 4).raw ++
      (certField intermediate 5).raw ++
      derTlv 0xa3 (derTlv 0x30 (extensionDer [0x55, 0x1d, 0x13] (derTlv 0x30 [0x01, 0x01, 0xff])))) ++
    ecdsaAlgorithm ++ derTlv 0x03 [0])

set_option maxRecDepth 10000 in
/-- Before the intermediate the decoy leads nowhere, behind it it is never looked at. -/
theorem decoy_first :
    AcceptsChain honest.symbolic honest.leaf [intermediate, decoy] 1690000000 ∧
      ¬ AcceptsChain honest.symbolic honest.leaf [decoy, intermediate] 1690000000 ∧
      ¬ ChainVerified honest.symbolic honest.leaf [intermediate, decoy] 1690000000 := by
  have hbehind : AcceptsChain honest.symbolic honest.leaf [intermediate, decoy] 1690000000 :=
    eq_ok_of_toOption (by decide +kernel)
  have hbefore : (verifyFulcioChain honest.symbolic honest.leaf [decoy, intermediate] 1690000000).toOption = none := by
    decide +kernel
  have hrejects : ¬ AcceptsChain honest.symbolic honest.leaf [decoy, intermediate] 1690000000 := by
    intro haccepts
    rw [show verifyFulcioChain honest.symbolic honest.leaf [decoy, intermediate] 1690000000 = .ok () from haccepts] at hbefore
    cases hbefore
  exact ⟨hbehind, hrejects, fun h => hrejects ((h.order _ (List.Perm.swap _ _ _)).mpr hbehind)⟩

end ThreeVa.Provenance

/-!
## Theorems about hostile responses

Which responses, certificates and entries make a check panic.
-/

namespace ThreeVa.Provenance
open Text

/-- The checks end in a result or an error exactly where what they read is not hostile. In a build with overflow checks
this is where no operation is out of range. -/
theorem noPanic_iff {K : Type} (crates : Crates K) (artifact : Artifact) :
    (∀ response, NoPanic (verifyAttestations crates artifact response) ↔ ¬ Hostile crates artifact response) ∧
      (∀ entry, NoPanic (verifyRekor crates entry) ↔ ¬ HostileEntry crates entry) ∧
      (∀ proof leafHash rootHash,
        NoPanic (verifyInclusion crates proof leafHash rootHash) ↔ ¬ HostilePath crates proof) ∧
      (∀ leafDer bundleChain asOf,
        NoPanic (verifyFulcioChain crates leafDer bundleChain asOf) ↔ ¬ HostileChain crates leafDer bundleChain asOf) ∧
      (∀ der, NoPanic (parseCert crates der) ↔ ¬ HostileCert crates der) ∧
      ∀ tlv, NoPanic (parseTime tlv) ↔ ¬ SplitsYear tlv :=
  ⟨fun _ => not_congr verifyAttestations_eq_panic, fun _ => not_congr verifyRekor_eq_panic,
    fun _ _ _ => not_congr verifyInclusion_eq_panic, fun _ _ _ => not_congr verifyFulcioChain_eq_panic,
    fun _ => not_congr parseCert_eq_panic, fun _ => not_congr parseTime_eq_panic⟩

/-! ## An empty inclusion proof -/

def withEmptyProof : Json → Json
  | .obj fields => .obj (fields ++ [("inclusionProof".toList, .obj [])])
  | v => v

namespace Made

variable {m : Made} {key : EcPublicKey Bytes}

/-- The attestation, and an inclusion proof in its entry that nothing signs. -/
def emptyProof (m : Made) : Json :=
  attestation m.payload [.object [("sig", .str m.sigB64)]]
    (.object [certificateChain [m.leaf], ("tlogEntries", .arr [withEmptyProof m.entry])])

theorem Checks.hostileEntry (h : m.Checks key) : HostileEntry m.symbolic (withEmptyProof m.entry) := by
  have hproof : ((withEmptyProof m.entry).field "inclusionProof").asObject = some [] := rfl
  refine .checkpoint ?_ hproof rfl
  have hwithout : withoutProof (withEmptyProof m.entry) = m.entry := rfl
  rw [hwithout]
  exact m.verifyRekor_entry h.set h.rekor

theorem Checks.hostile (h : m.Checks key) : HostileAttestation m.symbolic exampleArtifact m.emptyProof := by
  obtain ⟨signed, henvelope, hsig⟩ := (Option.any_eq_true _ _).mp h.signed
  rw [Bool.and_eq_true, decide_eq_true_eq] at hsig
  have hleaf : leafB64 m.emptyProof = some (encodeBase64 m.leaf) := rfl
  have hupTo : SignedUpTo m.symbolic exampleArtifact m.emptyProof signed m.leaf [m.leaf] m.sigB64
      ([] ++ withEmptyProof m.entry :: []) :=
    { envelope := eq_ok_of_toOption henvelope
      leaf := by rw [hleaf, Option.bind_some, decodeBase64_encodeBase64]
      signature := ⟨key, eq_ok_of_toOption h.extracted, eq_ok_of_toOption hsig.1⟩
      chain := by
        change [encodeBase64 m.leaf].mapM (decodeB64 m.symbolic · "certificate rawBytes") = .ok [m.leaf]
        simp [decodeB64, decodeBase64_encodeBase64]
      tlog := rfl }
  exact .entry hupTo (fun _ h => (List.not_mem_nil h).elim) h.hostileEntry

theorem Checks.panics (h : m.Checks key) :
    verifyAttestations m.symbolic exampleArtifact (respond [m.emptyProof]) = .error .panic :=
  verifyAttestations_eq_panic.mpr ⟨[], m.emptyProof, [], rfl, fun _ h => (List.not_mem_nil h).elim, h.hostile⟩

end Made

/-- A time in the year `2é`. -/
def splitTime : Tlv :=
  ⟨0x17, [], [0x32, 0xC3, 0xA9, 0x30, 0x31, 0x30, 0x31, 0x30, 0x30, 0x30, 0x30, 0x30, 0x5A]⟩

/-- A response whose attestation verifies panics once its proof is empty, and a time does on its own. -/
theorem empty_proof_panics :
    verifyAttestations honest.symbolic exampleArtifact (respond [honest.emptyProof]) = .error .panic ∧
      parseTime splitTime = .error .panic :=
  ⟨honest_checks.panics, by decide⟩

end ThreeVa.Provenance
