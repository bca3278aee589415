import ThreeVa.Provenance.Hostile
import ThreeVa.Provenance.Lemmas.Attestations
import ThreeVa.Provenance.Inclusion

/-!
# Lemmas about hostile responses

Each check panics exactly at the inputs that are hostile to it.
-/

namespace ThreeVa.Provenance
open Text

variable {K : Type} {crates : Crates K} {artifact : Artifact}

/-! ## Times -/

theorem yearDigits_eq_panic {d : Bytes} {k : Nat} : yearDigits d k = .error .panic ↔ isCharBoundary d k = false := by
  unfold yearDigits
  cases isCharBoundary d k <;> simp

theorem splitYear_eq_panic {tag : UInt8} {s : Bytes} : splitYear tag s = .error .panic ↔
    ∃ length year d, (tag, length, year) ∈ [((0x18 : UInt8), 14, 4), (0x17, 12, 2)] ∧
      getRange s 0 length = some d ∧ isCharBoundary d year = false := by
  unfold splitYear
  split
  · rename_i htag
    subst htag
    cases hd : getRange s 0 14 with
    | none => simp [hd]
    | some d => simp [hd, yearDigits_eq_panic]
  · split
    · rename_i htag
      subst htag
      cases hd : getRange s 0 12 with
      | none => simp [hd]
      | some d => simp [hd, yearDigits_eq_panic]
    · simp_all

theorem parseTime_eq_panic {t : Tlv} : parseTime t = .error .panic ↔ SplitsYear t := by
  unfold parseTime SplitsYear
  rw [← splitYear_eq_panic]
  cases hutf : decodeUtf8 t.content with
  | none => simp
  | some text =>
      cases hlast : (t.content.getLast?.any fun b => b = 0x5A || b = 0x7A) with
      | false => simp
      | true => simp

/-! ## Certificates -/

theorem noPanic_point (curve : Curve) (bytes : Bytes) : NoPanic (point crates curve bytes) := by
  unfold point
  split
  · exact noPanic_ok _
  · exact noPanic_ok _
  · exact noPanic_fail _
  · exact noPanic_fail _

theorem noPanic_spkiPublicKey (spki : Tlv) : NoPanic (spkiPublicKey crates spki) := by
  unfold spkiPublicKey
  split
  · refine (noPanic_ensure _ _).bind fun _ _ => (noPanic_okOr _ _).bind fun _ _ => ?_
    exact (noPanic_ensure _ _).bind fun _ _ => (noPanic_okOr _ _).bind fun _ _ => noPanic_point _ _
  · exact noPanic_fail _

theorem noPanic_sigHashOf (sigAlg : Tlv) : NoPanic (sigHashOf sigAlg) := by
  unfold sigHashOf
  dsimp only
  split
  · exact noPanic_ok _
  · split
    · exact noPanic_ok _
    · exact noPanic_fail _

theorem noPanic_tbsFields (tbs : Tlv) : NoPanic (tbsFields tbs) := by
  unfold tbsFields
  split
  · exact noPanic_fail _
  · exact noPanic_ok _

theorem noPanic_extractEcPublicKey (der : Bytes) : NoPanic (extractEcPublicKey crates der) := by
  unfold extractEcPublicKey
  refine (noPanic_okOr _ _).bind fun _ _ => (noPanic_okOr _ _).bind fun _ _ => (noPanic_ensure _ _).bind fun _ _ => ?_
  exact (noPanic_okOr _ _).bind fun _ _ => noPanic_spkiPublicKey _

theorem noPanic_signerIdentity (leaf : ParsedCert K) : NoPanic (signerIdentity leaf) := by
  unfold signerIdentity
  exact (noPanic_okOr _ _).bind fun _ _ => (noPanic_okOr _ _).bind fun _ _ => noPanic_ok _

theorem timeAt_eq_panic {times : List Tlv} {i : Nat} {missing malformed : String} :
    timeAt times i missing malformed = .error .panic ↔ ∃ t, times[i]? = some t ∧ SplitsYear t := by
  unfold timeAt
  rw [okOr_bind_eq_panic]
  refine exists_congr fun t => and_congr_right fun _ => ?_
  rw [bind_eq_panic, parseTime_eq_panic, or_iff_left]
  rintro ⟨o, -, h⟩
  exact noPanic_okOr _ _ h

theorem timeAt_eq_ok {times : List Tlv} {i : Nat} {missing malformed : String} {n : Int} :
    timeAt times i missing malformed = .ok n ↔ ∃ t, times[i]? = some t ∧ parseTime t = .ok (some n) := by
  unfold timeAt
  simp only [bind_eq_ok, okOr_eq_ok, exists_eq_right]

/-- The certificate is read up to the validity, and then its two times. -/
theorem parseCert_eq_panic_times {der : Bytes} : parseCert crates der = .error .panic ↔
    ∃ times, validityOf crates der = some times ∧
      (timeAt times 0 "validity missing notBefore" "malformed notBefore" = .error .panic ∨
        ∃ n, timeAt times 0 "validity missing notBefore" "malformed notBefore" = .ok n ∧
          timeAt times 1 "validity missing notAfter" "malformed notAfter" = .error .panic) := by
  unfold parseCert validityOf fieldAt
  simp only [okOr_bind_eq_panic, ensure_bind_eq_panic, (noPanic_tbsFields _).bind_eq_panic,
    (noPanic_spkiPublicKey _).bind_eq_panic, (noPanic_sigHashOf _).bind_eq_panic, Option.bind_eq_bind, Option.pure_def,
    Option.bind_eq_some_iff, Option.filter_eq_some_iff, toOption_eq_some, Bool.and_eq_true, decide_eq_true_eq,
    bind₂_eq_panic, Option.some.injEq]
  constructor
  · rintro ⟨cert, hcert, hcertTag, tbs, htbs, sigAlg, halg, sigValue, hvalue, ⟨⟨htbsTag, halgTag⟩, hvalueTag⟩, fields, hfields,
      serial, hserial, tbsSig, htbsSig, issuer, hissuer, validity, hvalidity, subject, hsubject, spki, hspki, key, hkey, hash,
      hhash, hbits, htimes⟩
    exact ⟨_, ⟨cert, ⟨hcert, hcertTag⟩, tbs, ⟨htbs, htbsTag⟩, sigAlg, ⟨halg, halgTag⟩, sigValue, ⟨hvalue, hvalueTag, hbits⟩,
      fields, hfields, serial, hserial, tbsSig, htbsSig, issuer, hissuer, validity, hvalidity, subject, hsubject, spki, hspki,
      key, hkey, hash, hhash, rfl⟩, htimes⟩
  · rintro ⟨_, ⟨cert, ⟨hcert, hcertTag⟩, tbs, ⟨htbs, htbsTag⟩, sigAlg, ⟨halg, halgTag⟩, sigValue, ⟨hvalue, hvalueTag, hbits⟩,
      fields, hfields, serial, hserial, tbsSig, htbsSig, issuer, hissuer, validity, hvalidity, subject, hsubject, spki, hspki,
      key, hkey, hash, hhash, rfl⟩, htimes⟩
    exact ⟨cert, hcert, hcertTag, tbs, htbs, sigAlg, halg, sigValue, hvalue, ⟨⟨htbsTag, halgTag⟩, hvalueTag⟩, fields, hfields,
      serial, hserial, tbsSig, htbsSig, issuer, hissuer, validity, hvalidity, subject, hsubject, spki, hspki, key, hkey, hash,
      hhash, hbits, htimes⟩

theorem parseCert_eq_panic {der : Bytes} : parseCert crates der = .error .panic ↔ HostileCert crates der := by
  rw [parseCert_eq_panic_times]
  simp only [timeAt_eq_panic, timeAt_eq_ok]
  constructor
  · rintro ⟨times, hread, ⟨t, ht, hsplits⟩ | ⟨n, ⟨s, hs, hn⟩, t, ht, hsplits⟩⟩
    · exact .notBefore hread ht hsplits
    · exact .notAfter hread hs hn ht hsplits
  · rintro (⟨hread, ht, hsplits⟩ | ⟨hread, hs, hn, ht, hsplits⟩)
    · exact ⟨_, hread, .inl ⟨_, ht, hsplits⟩⟩
    · exact ⟨_, hread, .inr ⟨_, ⟨_, hs, hn⟩, _, ht, hsplits⟩⟩

/-! ## Chains -/

/-- The first place in a list where something holds, with something else before it. -/
theorem exists_split_cons {α : Type} {P Q : α → Prop} {x : α} {l : List α} :
    (∃ before y after, x :: l = before ++ y :: after ∧ (∀ z ∈ before, P z) ∧ Q y) ↔
      Q x ∨ P x ∧ ∃ before y after, l = before ++ y :: after ∧ (∀ z ∈ before, P z) ∧ Q y := by
  constructor
  · rintro ⟨before, y, after, hl, hbefore, hy⟩
    cases before with
    | nil => cases hl; exact .inl hy
    | cons b before =>
        cases hl
        obtain ⟨hb, hbefore⟩ := List.forall_mem_cons.mp hbefore
        exact .inr ⟨hb, before, y, after, rfl, hbefore, hy⟩
  · rintro (hx | ⟨hx, before, y, after, rfl, hbefore, hy⟩)
    · exact ⟨[], x, l, rfl, fun _ h => (List.not_mem_nil h).elim, hx⟩
    · exact ⟨x :: before, y, after, rfl, List.forall_mem_cons.mpr ⟨hx, hbefore⟩, hy⟩

theorem not_exists_split_nil {α : Type} {P Q : α → Prop} :
    ¬ ∃ before y after, ([] : List α) = before ++ y :: after ∧ (∀ z ∈ before, P z) ∧ Q y := by
  rintro ⟨before, y, after, hl, -⟩
  exact absurd hl (by simp)

theorem findIssuer_eq_panic {asOf : Int} {current : ParsedCert K} {ders : List Bytes} :
    findIssuer crates asOf current ders = .error .panic ↔
      ∃ before der after, ders = before ++ der :: after ∧
        (∀ d ∈ before, ∀ cert, parseCert crates d = .ok cert → issues crates asOf current cert = false) ∧
        HostileCert crates der := by
  induction ders with
  | nil => exact iff_of_false (fun h => by cases h) not_exists_split_nil
  | cons d rest ih =>
      rw [exists_split_cons, ← ih, ← parseCert_eq_panic, findIssuer]
      cases hparse : parseCert crates d with
      | ok candidate => cases hissues : issues crates asOf current candidate <;> simp [hissues]
      | error e => cases e <;> simp

theorem climb_eq_panic {candidates : List Bytes} {asOf : Int} {n : Nat} {current : ParsedCert K} :
    climb crates candidates asOf n current = .error .panic ↔ MeetsHostile crates candidates asOf n current := by
  induction n generalizing current with
  | zero => exact iff_of_false (noPanic_fail _) fun h => by cases h
  | succ n ih =>
      unfold climb
      cases hroot : fulcioRoots.contains current.der with
      | true =>
          rw [if_pos rfl]
          refine iff_of_false (noPanic_ensure _ _) ?_
          rintro (⟨hroot', -⟩ | ⟨hroot', -⟩)
          all_goals rw [hroot] at hroot'; cases hroot'
      | false =>
          rw [if_neg Bool.false_ne_true, bind_eq_panic, findIssuer_eq_panic]
          constructor
          · rintro (⟨before, der, after, hders, hbefore, hhostile⟩ | ⟨o, hfind, hrest⟩)
            · exact .here hroot hders hbefore hhostile
            · cases o with
              | none => exact absurd hrest (noPanic_fail _)
              | some issuer => exact .above hroot hfind (ih.mp hrest)
          · rintro (⟨-, hders, hbefore, hhostile⟩ | ⟨-, hfind, hrest⟩)
            · exact .inl ⟨_, _, _, hders, hbefore, hhostile⟩
            · exact .inr ⟨_, hfind, ih.mpr hrest⟩

theorem verifyFulcioChain_eq_panic {leafDer : Bytes} {bundleChain : List Bytes} {asOf : Int} :
    verifyFulcioChain crates leafDer bundleChain asOf = .error .panic ↔ HostileChain crates leafDer bundleChain asOf := by
  unfold verifyFulcioChain
  simp only [bind_eq_panic (x := parseCert crates leafDer), parseCert_eq_panic, ensure_bind_eq_panic, climb_eq_panic,
    Bool.and_eq_true, Bool.not_eq_true']
  constructor
  · rintro (hleaf | ⟨leaf, hparse, ⟨hca, heku⟩, hvalid, hmeets⟩)
    · exact .leaf hleaf
    · exact .above hparse hca heku hvalid hmeets
  · rintro (hleaf | ⟨hparse, hca, heku, hvalid, hmeets⟩)
    · exact .inl hleaf
    · exact .inr ⟨_, hparse, ⟨hca, heku⟩, hvalid, hmeets⟩

/-! ## Inclusion proofs -/

theorem indexMap_bind_eq_panic {α : Type} {fields : List (Str × Json)} {key : String} {f : Json → Checked α} :
    (indexMap fields key >>= f) = .error .panic ↔
      Json.get? fields key.toList = none ∨ ∃ v, Json.get? fields key.toList = some v ∧ f v = .error .panic := by
  unfold indexMap
  cases Json.get? fields key.toList <;> simp [Bind.bind, Except.bind]

theorem jsonU64_lt {v : Json} {what : String} {n : Nat} (h : jsonU64 v what = .ok n) : n < 2 ^ 64 := by
  unfold jsonU64 at h
  rw [okOr_eq_ok, Option.or_eq_some_iff] at h
  have hle : n ≤ usizeMax := by
    rcases h with h | ⟨-, h⟩
    · unfold Json.asU64 at h
      split at h
      · obtain ⟨hrange, heq⟩ := Option.ite_none_right_eq_some.mp h
        cases heq
        exact Int.toNat_le.mpr hrange.2
      · cases h
    · obtain ⟨s, -, h⟩ := Option.bind_eq_some_iff.mp h
      exact parseUnsigned_le h
  unfold usizeMax at hle
  omega

theorem noPanic_jsonU64 (v : Json) (what : String) : NoPanic (jsonU64 v what) := noPanic_okOr _ _

theorem noPanic_decodeB64 (s : Str) (what : String) : NoPanic (decodeB64 crates s what) := noPanic_okOr _ _

theorem noPanic_proofHash (h : Json) : NoPanic (proofHash crates h) := by
  unfold proofHash
  refine (noPanic_okOr _ _).bind fun _ _ => (noPanic_decodeB64 _ _).bind fun _ _ => ?_
  exact (noPanic_ensure _ _).bind fun _ _ => noPanic_ok _

theorem noPanic_proofHashes (items : List Json) : NoPanic (items.mapM (proofHash crates)) :=
  NoPanic.mapM noPanic_proofHash items

theorem shiftRight_eq_panic {x amount : Nat} :
    shiftRight crates x amount = .error .panic ↔ crates.overflowChecks = true ∧ 64 ≤ amount := by
  unfold shiftRight
  split
  · rename_i h
    simpa using h
  · rename_i h
    simpa using h

theorem verifyInclusion_eq_panic {proof : List (Str × Json)} {leafHash rootHash : Bytes} :
    verifyInclusion crates proof leafHash rootHash = .error .panic ↔ HostilePath crates proof := by
  have hend : ∀ (c₁ c₂ : Bool) (why₁ why₂ : Str), (do ensure c₁ why₁; ensure c₂ why₂ : Checked Unit) ≠ .error .panic :=
    fun _ _ _ _ => (noPanic_ensure _ _).bind fun _ _ => noPanic_ensure _ _
  have hshift : ∀ {index size : Nat}, index < size → size < 2 ^ 64 →
      (64 ≤ innerProofSize index size ↔ 2 ^ 63 < size ∧ index < 2 ^ 63) := by
    intro index size hindex hsize
    rw [← Nat.not_lt, innerProofSize_lt_iff hindex hsize]
    omega
  unfold verifyInclusion
  simp only [indexMap_bind_eq_panic, (noPanic_jsonU64 _ _).bind_eq_panic, ensure_bind_eq_panic, okOr_bind_eq_panic,
    (noPanic_proofHashes _).bind_eq_panic, bind_eq_panic (x := shiftRight _ _ _),
    shiftRight_eq_panic, hend, and_false, exists_false, or_false, Bool.and_eq_true, decide_eq_true_eq]
  constructor
  · rintro (hnone | ⟨v, hv, index, hindex, hnone | ⟨w, hw, size, hsize, ⟨-, hlt⟩, hnone | ⟨u, hu, items, hitems, hashes,
      hhashes, hchecks, hinner⟩⟩⟩)
    · exact .index hnone
    · exact .size hv hindex hnone
    · exact .hashes hv hindex hw hsize hlt hnone
    · obtain ⟨hwide, hlow⟩ := (hshift hlt (jsonU64_lt hsize)).mp hinner
      exact .shift hv hindex hw hsize hlt hu hitems hhashes hchecks hwide hlow
  · rintro (hnone | ⟨hv, hindex, hnone⟩ | ⟨hv, hindex, hw, hsize, hlt, hnone⟩ |
      ⟨hv, hindex, hw, hsize, hlt, hu, hitems, hhashes, hchecks, hwide, hlow⟩)
    · exact .inl hnone
    · exact .inr ⟨_, hv, _, hindex, .inl hnone⟩
    · exact .inr ⟨_, hv, _, hindex, .inr ⟨_, hw, _, hsize, ⟨by omega, hlt⟩, .inl hnone⟩⟩
    · exact .inr ⟨_, hv, _, hindex, .inr ⟨_, hw, _, hsize, ⟨by omega, hlt⟩, .inr ⟨_, hu, _, hitems, _, hhashes, hchecks,
        (hshift hlt (jsonU64_lt hsize)).mpr ⟨hwide, hlow⟩⟩⟩⟩

/-! ## Entries of the log -/

section Keys

variable {fields : List (Str × Json)} {key removed : Str}

theorem get?_filter (h : key ≠ removed) : Json.get? (fields.filter fun x => x.1 ≠ removed) key = Json.get? fields key := by
  unfold Json.get?
  rw [List.find?_filter]
  refine congrArg (Option.map Prod.snd) (congrArg (fields.find? ·) (funext fun x => ?_))
  by_cases hx : x.1 = key
  · simp [hx, h]
  · simp [hx]

theorem get?_filter_self : Json.get? (fields.filter fun x => x.1 ≠ removed) removed = none := by
  unfold Json.get?
  rw [Option.map_eq_none_iff, List.find?_eq_none]
  intro x hx
  simpa using (List.mem_filter.mp hx).2

end Keys

theorem field_withoutProof (entry : Json) {key : String} (h : key.toList ≠ "inclusionProof".toList) :
    (withoutProof entry).field key = entry.field key := by
  cases entry with
  | obj fields => exact congrArg (·.getD .null) (get?_filter h)
  | _ => rfl

theorem field_withoutProof_self (entry : Json) : (withoutProof entry).field "inclusionProof" = .null := by
  cases entry with
  | obj fields => exact congrArg (·.getD .null) get?_filter_self
  | _ => rfl

/-- The checks of an entry before its inclusion proof: the body, the key and the log. -/
def verifySet (crates : Crates K) (entry : Json) : Checked (Str × EcPublicKey K × Bytes) := do
  let logIdB64 ← okOr ((entry.field "logId").field "keyId").asStr "tlog entry missing logId.keyId".toList
  ensure (logIdB64 = encodeBase64 (crates.sha256 (pinned rekorSpkiDerB64)))
    "tlog entry is not from the trusted Sigstore Rekor log".toList
  let logId ← decodeB64 crates logIdB64 "logId.keyId"
  let bodyB64 ← okOr (entry.field "canonicalizedBody").asStr "tlog entry missing canonicalizedBody".toList
  let integratedTime ← jsonU64 (entry.field "integratedTime") "integratedTime"
  let logIndex ← jsonU64 (entry.field "logIndex") "logIndex"
  let setB64 ← okOr ((entry.field "inclusionPromise").field "signedEntryTimestamp").asStr
    "tlog entry missing signedEntryTimestamp".toList
  let setDer ← decodeB64 crates setB64 "signedEntryTimestamp"
  let rekorKey ← rekorPublicKey crates
  ensure (verifyEcdsa crates rekorKey .sha256 (setPayload bodyB64 (toI64 integratedTime) logId logIndex) setDer)
    "Rekor signed entry timestamp (SET) is invalid".toList
  return (bodyB64, rekorKey, logId)

theorem verifyRekor_eq (entry : Json) : verifyRekor crates entry = verifySet crates entry >>= fun x =>
    match (entry.field "inclusionProof").asObject with
    | some proof => do
        let rootHash ← verifyCheckpoint crates proof x.2.1 x.2.2
        let body ← decodeB64 crates x.1 "canonicalizedBody"
        verifyInclusion crates proof (merkleLeafHash crates body) rootHash
    | none => .ok () := by
  unfold verifyRekor verifySet
  simp only [bind_assoc, pure_bind]
  all_goals rfl

theorem verifySet_withoutProof (entry : Json) : verifySet crates (withoutProof entry) = verifySet crates entry := by
  unfold verifySet
  rw [field_withoutProof entry (by decide), field_withoutProof entry (by decide), field_withoutProof entry (by decide),
    field_withoutProof entry (by decide), field_withoutProof entry (by decide)]

theorem noPanic_rekorPublicKey : NoPanic (rekorPublicKey crates) :=
  (noPanic_okOr _ _).bind fun _ _ => noPanic_spkiPublicKey _

theorem noPanic_verifySet (entry : Json) : NoPanic (verifySet crates entry) := by
  unfold verifySet
  refine (noPanic_okOr _ _).bind fun _ _ => (noPanic_ensure _ _).bind fun _ _ => (noPanic_decodeB64 _ _).bind fun _ _ => ?_
  refine (noPanic_okOr _ _).bind fun _ _ => (noPanic_jsonU64 _ _).bind fun _ _ => (noPanic_jsonU64 _ _).bind fun _ _ => ?_
  refine (noPanic_okOr _ _).bind fun _ _ => (noPanic_decodeB64 _ _).bind fun _ _ => noPanic_rekorPublicKey.bind fun _ _ => ?_
  exact (noPanic_ensure _ _).bind fun _ _ => noPanic_ok _

/-- Without its proof, an entry is accepted for what comes before the proof. -/
theorem verifyRekor_withoutProof {entry : Json} :
    verifyRekor crates (withoutProof entry) = .ok () ↔ ∃ x, verifySet crates entry = .ok x := by
  rw [verifyRekor_eq, field_withoutProof_self, verifySet_withoutProof, bind_eq_ok]
  exact exists_congr fun x => and_iff_left rfl

theorem verifySet_eq_ok {entry : Json} {bodyB64 : Str} {key : EcPublicKey K} {logId : Bytes}
    (h : verifySet crates entry = .ok (bodyB64, key, logId)) : (entry.field "canonicalizedBody").asStr = some bodyB64 ∧
      rekorPublicKey crates = .ok key ∧ logId = crates.sha256 (pinned rekorSpkiDerB64) := by
  unfold verifySet at h
  simp only [bind_eq_ok, okOr_eq_ok, ensure_eq_ok, decodeB64_eq_ok, decide_eq_true_eq] at h
  obtain ⟨_, -, -, rfl, logId', hlog, body, hbody, _, -, _, -, _, -, _, -, key', hkey, _, -, hpure⟩ := h
  cases hpure
  rw [decodeBase64_encodeBase64] at hlog
  exact ⟨hbody, hkey, (Option.some.inj hlog).symm⟩

theorem verifyCheckpoint_eq_panic {proof : List (Str × Json)} {key : EcPublicKey K} {logId : Bytes} :
    verifyCheckpoint crates proof key logId = .error .panic ↔ Json.get? proof "checkpoint".toList = none := by
  unfold verifyCheckpoint
  rw [indexMap_bind_eq_panic, or_iff_left]
  rintro ⟨v, -, h⟩
  refine NoPanic.bind (noPanic_okOr _ _) (fun _ _ => (noPanic_okOr _ _).bind fun _ _ => ?_) h
  refine (noPanic_okOr _ _).bind fun _ _ => (noPanic_decodeB64 _ _).bind fun _ _ => (noPanic_ensure _ _).bind fun _ _ => ?_
  refine (noPanic_ensure _ _).bind fun _ _ => (noPanic_ensure _ _).bind fun _ _ => (noPanic_okOr _ _).bind fun _ _ => ?_
  exact noPanic_decodeB64 _ _

theorem verifyRekor_eq_panic {entry : Json} : verifyRekor crates entry = .error .panic ↔ HostileEntry crates entry := by
  rw [verifyRekor_eq, (noPanic_verifySet entry).bind_eq_panic]
  constructor
  · rintro ⟨⟨bodyB64, key, logId⟩, hset, h⟩
    obtain ⟨hbody, hkey, rfl⟩ := verifySet_eq_ok hset
    have haccepted := verifyRekor_withoutProof.mpr ⟨_, hset⟩
    cases hproof : (entry.field "inclusionProof").asObject with
    | none => rw [hproof] at h; cases h
    | some proof =>
        rw [hproof] at h
        rcases bind_eq_panic.mp h with hcheckpoint | ⟨root, hroot, h⟩
        · exact .checkpoint haccepted hproof (verifyCheckpoint_eq_panic.mp hcheckpoint)
        · obtain ⟨body, hdecode, hinclusion⟩ := (noPanic_decodeB64 _ _).bind_eq_panic.mp h
          have hbody' : (entry.field "canonicalizedBody").asStr.bind decodeBase64 = some body := by
            rw [hbody, Option.bind_some]
            exact decodeB64_eq_ok.mp hdecode
          exact .path haccepted hproof hkey hroot hbody' (verifyInclusion_eq_panic.mp hinclusion)
  · intro h
    obtain ⟨⟨bodyB64, key, logId⟩, hset⟩ : ∃ x, verifySet crates entry = .ok x := by
      cases h with
      | checkpoint haccepted => exact verifyRekor_withoutProof.mp haccepted
      | path haccepted => exact verifyRekor_withoutProof.mp haccepted
    obtain ⟨hbody, hkey, rfl⟩ := verifySet_eq_ok hset
    refine ⟨_, hset, ?_⟩
    cases h with
    | checkpoint _ hproof hnone =>
        rw [hproof]
        exact bind_eq_panic.mpr (.inl (verifyCheckpoint_eq_panic.mpr hnone))
    | @path proof key' root body _ hproof hkey' hroot hdecode hpath =>
        rw [hkey] at hkey'
        cases hkey'
        rw [hbody, Option.bind_some] at hdecode
        rw [hproof]
        refine bind_eq_panic.mpr (.inr ⟨root, hroot, ?_⟩)
        exact bind_eq_panic.mpr (.inr ⟨body, decodeB64_eq_ok.mpr hdecode, verifyInclusion_eq_panic.mpr hpath⟩)

/-! ## Attestations -/

theorem integratedTime_of_verifyRekor {entry : Json} (h : verifyRekor crates entry = .ok ()) :
    ∃ time, jsonU64 (entry.field "integratedTime") "integratedTime" = .ok time := by
  unfold verifyRekor at h
  simp only [bind_eq_ok] at h
  obtain ⟨_, -, _, -, _, -, _, -, time, htime, -⟩ := h
  exact ⟨time, htime⟩

/-- The entries are verified one after the other, and the first that records the signature has a time. -/
theorem verifyEntries_eq_panic {leafDer payload : Bytes} {sig : Str} {asOf : Option Int} {entries : List Json} :
    verifyEntries crates leafDer sig payload asOf entries = .error .panic ↔
      ∃ before entry after, entries = before ++ entry :: after ∧ (∀ e ∈ before, verifyRekor crates e = .ok ()) ∧
        HostileEntry crates entry := by
  induction entries generalizing asOf with
  | nil => exact iff_of_false (fun h => by cases h) not_exists_split_nil
  | cons entry rest ih =>
      rw [exists_split_cons, ← verifyRekor_eq_panic, verifyEntries, bind_eq_panic, mapErr_eq_panic]
      refine or_congr_right ?_
      constructor
      · rintro ⟨u, hok, hrest⟩
        rw [mapErr_eq_ok] at hok
        refine ⟨hok, ?_⟩
        split at hrest
        · obtain ⟨time, -, hrest⟩ := (noPanic_jsonU64 _ _).bind_eq_panic.mp hrest
          exact ih.mp hrest
        · exact ih.mp hrest
      · rintro ⟨hok, hrest⟩
        refine ⟨(), mapErr_eq_ok.mpr hok, ?_⟩
        split
        · obtain ⟨time, htime⟩ := integratedTime_of_verifyRekor hok
          rw [htime, ok_bind]
          exact ih.mpr hrest
        · exact ih.mpr hrest

theorem noPanic_findSignature (key : EcPublicKey K) (signed : Signed) (sigs : List Json) :
    NoPanic (findSignature crates key signed sigs) := by
  induction sigs with
  | nil => exact noPanic_ok _
  | cons sig sigs ih =>
      unfold findSignature
      refine (noPanic_okOr _ _).bind fun _ _ => (noPanic_okOr _ _).bind fun _ _ => ?_
      split
      · exact noPanic_ok _
      · exact ih

theorem noPanic_verifySignatures (key : EcPublicKey K) (signed : Signed) :
    NoPanic (verifySignatures crates artifact key signed) := by
  unfold verifySignatures
  refine (noPanic_okOr _ _).bind fun _ _ => (noPanic_ensure _ _).bind fun _ _ => ?_
  exact (noPanic_findSignature _ _ _).bind fun _ _ => noPanic_okOr _ _

theorem noPanic_rawBytes (raws : List Str) : NoPanic (raws.mapM (decodeB64 crates · "certificate rawBytes")) :=
  NoPanic.mapM (fun s => noPanic_decodeB64 s _) raws

/-- After the chain is verified, the leaf is known to parse. -/
theorem noPanic_signer {leafDer : Bytes} {chainDers : List Bytes} {asOf : Int}
    (h : verifyFulcioChain crates leafDer chainDers asOf = .ok ()) :
    NoPanic (do signerIdentity (← parseCert crates leafDer)) := by
  unfold verifyFulcioChain at h
  obtain ⟨leaf, hparse, -⟩ := bind_eq_ok.mp h
  rw [hparse, ok_bind]
  exact noPanic_signerIdentity leaf

theorem verifySigner_eq_panic {att : Json} {signed : Signed} {leaf : Str}
    (henvelope : checkEnvelope crates artifact att = .ok signed) (hleaf : leafB64 att = some leaf) :
    verifySigner crates artifact att signed leaf = .error .panic ↔ HostileAttestation crates artifact att := by
  have hparts : ∀ {leafDer chainDers sig tlog}, SignedUpTo crates artifact att signed leafDer chainDers sig tlog ↔
      decodeB64 crates leaf "certificate rawBytes" = .ok leafDer ∧
        (∃ key, extractEcPublicKey crates leafDer = .ok key ∧ verifySignatures crates artifact key signed = .ok sig) ∧
        (((certificates att).getD []).filterMap rawBytes).mapM (decodeB64 crates · "certificate rawBytes") = .ok chainDers ∧
        ((verificationMaterial att).field "tlogEntries").asArray = some tlog := by
    intro leafDer chainDers sig tlog
    rw [decodeB64_eq_ok]
    constructor
    · rintro ⟨-, hder, hsignature, hchain, htlog⟩
      rw [hleaf] at hder
      exact ⟨hder, hsignature, hchain, htlog⟩
    · rintro ⟨hder, hsignature, hchain, htlog⟩
      exact ⟨henvelope, by rw [hleaf]; exact hder, hsignature, hchain, htlog⟩
  unfold verifySigner
  simp only [(noPanic_decodeB64 _ _).bind_eq_panic, (noPanic_extractEcPublicKey _).bind_eq_panic,
    (noPanic_rawBytes _).bind_eq_panic,
    (noPanic_verifySignatures _ _).bind_eq_panic, okOr_bind_eq_panic, ensure_bind_eq_panic]
  constructor
  · rintro ⟨leafDer, hder, key, hkey, chainDers, hchain, sig, hsig, tlog, htlog, -, h⟩
    have hupTo := hparts.mpr ⟨hder, ⟨key, hkey, hsig⟩, hchain, htlog⟩
    rcases bind_eq_panic.mp h with hentries | ⟨o, hentries, h⟩
    · obtain ⟨before, entry, after, rfl, hbefore, hhostile⟩ := verifyEntries_eq_panic.mp hentries
      exact .entry hupTo hbefore hhostile
    · obtain ⟨asOf, rfl, hrest⟩ := okOr_bind_eq_panic.mp h
      rcases bind_eq_panic.mp hrest with hfulcio | ⟨u, hfulcio, hsigner⟩
      · exact .chain hupTo hentries (verifyFulcioChain_eq_panic.mp (mapErr_eq_panic.mp hfulcio))
      · exact absurd hsigner (noPanic_signer (mapErr_eq_ok.mp hfulcio))
  · intro h
    -- the envelope is the one that was checked
    have hsame : ∀ {signed' leafDer chainDers sig tlog}, SignedUpTo crates artifact att signed' leafDer chainDers sig tlog →
        signed' = signed := fun hupTo => Except.ok.inj (hupTo.envelope.symm.trans henvelope)
    cases h with
    | entry hupTo hbefore hhostile =>
        obtain rfl := hsame hupTo
        obtain ⟨hder, ⟨key, hkey, hsig⟩, hchain, htlog⟩ := hparts.mp hupTo
        refine ⟨_, hder, key, hkey, _, hchain, _, hsig, _, htlog, by simp, bind_eq_panic.mpr (.inl ?_)⟩
        exact verifyEntries_eq_panic.mpr ⟨_, _, _, rfl, hbefore, hhostile⟩
    | @chain _ leafDer chainDers sig tlog asOf hupTo hentries hhostile =>
        obtain rfl := hsame hupTo
        obtain ⟨hder, ⟨key, hkey, hsig⟩, hchain, htlog⟩ := hparts.mp hupTo
        have hsome : (!tlog.isEmpty) = true := by
          cases tlog with
          | nil => cases hentries
          | cons entry rest => rfl
        refine ⟨_, hder, key, hkey, _, hchain, _, hsig, _, htlog, hsome, bind_eq_panic.mpr (.inr ⟨_, hentries, ?_⟩)⟩
        refine okOr_bind_eq_panic.mpr ⟨asOf, rfl, bind_eq_panic.mpr (.inl ?_)⟩
        exact mapErr_eq_panic.mpr (verifyFulcioChain_eq_panic.mpr hhostile)

theorem panics_iff {att : Json} : Panics crates artifact att ↔ HostileAttestation crates artifact att := by
  constructor
  · rintro ⟨signed, leaf, henvelope, hleaf, hpanic⟩
    exact (verifySigner_eq_panic henvelope hleaf).mp hpanic
  · intro h
    obtain ⟨signed, henvelope, leaf, hleaf⟩ :
        ∃ signed, checkEnvelope crates artifact att = .ok signed ∧ ∃ leaf, leafB64 att = some leaf := by
      cases h with
      | entry hupTo =>
          obtain ⟨leaf, hleaf, -⟩ := Option.bind_eq_some_iff.mp hupTo.leaf
          exact ⟨_, hupTo.envelope, leaf, hleaf⟩
      | chain hupTo =>
          obtain ⟨leaf, hleaf, -⟩ := Option.bind_eq_some_iff.mp hupTo.leaf
          exact ⟨_, hupTo.envelope, leaf, hleaf⟩
    exact ⟨signed, leaf, henvelope, hleaf, (verifySigner_eq_panic henvelope hleaf).mpr h⟩

/-! ## Responses -/

theorem firstStop_eq_panic {atts : List Json} :
    firstStop (atts.map fun att => kind crates artifact (alone att)) = .panic ↔
      ∃ before att after, atts = before ++ att :: after ∧ (∀ a ∈ before, kind crates artifact (alone a) = .verified) ∧
        HostileAttestation crates artifact att := by
  induction atts with
  | nil => exact iff_of_false (fun h => by cases h) not_exists_split_nil
  | cons att rest ih =>
      rw [exists_split_cons, ← ih, ← panics_iff, ← kind_alone_panic, List.map_cons, firstStop_cons]
      cases hkind : kind crates artifact (alone att) <;> simp

theorem kind_eq_panic {response : Json} :
    kind crates artifact response = .panic ↔ verifyAttestations crates artifact response = .error .panic := by
  unfold kind kindOf
  split <;> simp_all

theorem verifyAttestations_eq_panic {response : Json} :
    verifyAttestations crates artifact response = .error .panic ↔ Hostile crates artifact response := by
  rw [← kind_eq_panic]
  unfold Hostile
  cases hitems : (response.field "attestations").asArray with
  | none =>
      refine iff_of_false ?_ fun ⟨_, _, _, h, _⟩ => by cases h
      unfold kind verifyAttestations
      rw [hitems]
      exact fun h => by cases h
  | some items =>
      simp only [Option.some.injEq]
      by_cases hne : items = []
      · subst hne
        refine iff_of_false ?_ not_exists_split_nil
        unfold kind verifyAttestations
        rw [hitems]
        exact fun h => by cases h
      · rw [kind_eq_firstStop hitems hne, firstStop_eq_panic]

end ThreeVa.Provenance
