import ThreeVa.Store.Download

/-! What the checks of a download leave behind, and what the next run makes of it. -/

namespace ThreeVa.Store
open Text

variable {Att : Type} {o : Outside Att} {p : Policy} {a : Answer Att} {h : Held}

/-! ## The recorded signer -/

theorem checkSignerPin_recorded {recorded signer : Option Str} :
    (checkSignerPin recorded signer).2 = recorded.or signer := by
  unfold checkSignerPin
  cases recorded with
  | none => cases signer <;> rfl
  | some pin =>
      cases signer with
      | none => rfl
      | some s => by_cases hs : pin = s <;> simp [hs]

/-- A recorded signer stays. -/
theorem checkSigners_recorded {declared : Option Str} {require : Bool} {signers : List SignerIdentity} {pin : Str} :
    (checkSigners declared require signers (some pin)).2 = some pin := by
  induction signers with
  | nil => rfl
  | cons signer signers ih =>
      unfold checkSigners
      have hpin : (checkSignerPin (some pin) (some signer.pin)).2 = some pin := checkSignerPin_recorded
      by_cases hfits : signerFits declared require signer
      · rw [if_pos hfits]
        rcases hcheck : checkSignerPin (some pin) (some signer.pin) with ⟨result, recorded⟩
        rw [hcheck] at hpin
        cases result with
        | error why => exact hpin
        | ok _ =>
            simp only at hpin
            rw [hpin]
            exact ih
      · rw [if_neg hfits]

theorem checkUnsigned_recorded (recorded : Option Str) (why : Str) : (checkUnsigned p recorded why).2 = recorded := by
  unfold checkUnsigned
  cases recorded <;> rfl

theorem checkUnsigned_ok {recorded : Option Str} {why : Str} :
    (checkUnsigned p recorded why).1 = .ok () ↔ recorded = none ∧ p.requireProvenance = false := by
  unfold checkUnsigned
  cases recorded <;> cases p.requireProvenance <;> simp [checkSignerPin]

theorem checkProvenance_recorded {bytes : Bytes} {attestations : Except Str (Option Att)} {pin : Str} :
    (checkProvenance o p bytes attestations (some pin)).2 = some pin := by
  unfold checkProvenance
  split
  · split
    · exact checkSigners_recorded
    · exact checkUnsigned_recorded _ _
    · rfl
  · exact checkUnsigned_recorded _ _
  · exact checkUnsigned_recorded _ _

theorem checkProvenance_none (bytes : Bytes) (recorded : Option Str) :
    (checkProvenance o p bytes (.ok none) recorded).2 = recorded := checkUnsigned_recorded _ _

theorem checkProvenance_none_ok {bytes : Bytes} {recorded : Option Str} :
    (checkProvenance o p bytes (.ok none) recorded).1 = .ok () ↔ recorded = none ∧ p.requireProvenance = false :=
  checkUnsigned_ok

/-- The first signer is recorded once its repository fits. -/
theorem checkSigners_first {declared : Option Str} {require : Bool} {signer : SignerIdentity}
    {signers : List SignerIdentity} (hfits : signerFits declared require signer) :
    (checkSigners declared require (signer :: signers) none).2 = some signer.pin := by
  unfold checkSigners
  rw [if_pos hfits]
  exact checkSigners_recorded

theorem checkSigners_misfit {declared : Option Str} {require : Bool} {signer : SignerIdentity}
    {signers : List SignerIdentity} {recorded : Option Str} (hfits : ¬ signerFits declared require signer) :
    checkSigners declared require (signer :: signers) recorded = (.error (repositoryMessage declared signer), recorded) := by
  unfold checkSigners
  rw [if_neg hfits]

/-! ## The chain of checks -/

theorem verify_passed {bytes : Bytes} {integrity : Option Str} {attestations : Except Str (Option Att)}
    {recorded : Option Str} (hintegrity : checkIntegrity o bytes integrity = .ok ())
    (hscan : checkScan p bytes integrity = .ok ()) :
    verify o p bytes integrity attestations recorded = checkProvenance o p bytes attestations recorded := by
  unfold verify
  rw [hintegrity, hscan]

/-- A rejection before the provenance, which does not depend on the attestations, or one by the provenance. -/
theorem verify_cases (bytes : Bytes) (integrity : Option Str) :
    (∃ r, ∀ (attestations : Except Str (Option Att)) recorded,
        verify o p bytes integrity attestations recorded = (.error r, recorded)) ∨
      (checkIntegrity o bytes integrity = .ok () ∧ checkScan p bytes integrity = .ok ()) := by
  cases hintegrity : checkIntegrity o bytes integrity with
  | error r => exact .inl ⟨r, fun attestations recorded => by unfold verify; rw [hintegrity]⟩
  | ok _ =>
      cases hscan : checkScan p bytes integrity with
      | error r => exact .inl ⟨r, fun attestations recorded => by unfold verify; rw [hintegrity, hscan]⟩
      | ok _ => exact .inr ⟨rfl, rfl⟩

theorem verify_none (bytes : Bytes) (integrity recorded : Option Str) :
    (verify o p bytes integrity (.ok none) recorded).2 = recorded := by
  rcases verify_cases (o := o) (p := p) bytes integrity with ⟨r, hr⟩ | ⟨hintegrity, hscan⟩
  · rw [hr]
  · rw [verify_passed hintegrity hscan]
    exact checkProvenance_none bytes recorded

theorem checkIntegrity_error {bytes : Bytes} {hash : Str}
    (hbad : o.digests.verifyFromRegistry bytes (some hash) ≠ .verified) :
    checkIntegrity o bytes (some hash) = .error .integrity := by
  simp only [checkIntegrity, hbad, ↓reduceIte]

/-! ## One run -/

variable {b : UInt8} {bs : Bytes} {r : Rejection}

theorem fetch_stored (o : Outside Att) (p : Policy) (a : Answer Att) (h : Held) :
    (fetch o p a h).2.2.stored = h.stored := by
  unfold fetch
  cases localBytes o p h with
  | some bytes => rfl
  | none => cases a.tarball <;> rfl

theorem download_local_rejected (hlocal : localBytes o p h = some (b :: bs))
    (hverify : (verify o p (b :: bs) a.integrity (.ok none) h.recorded).1 = .error r) :
    download o p a h = (.rejected r, h) := by
  have hpair : verify o p (b :: bs) a.integrity (.ok none) h.recorded = (.error r, h.recorded) :=
    Prod.ext hverify (verify_none ..)
  unfold download fetch
  rw [hlocal]
  simp only [hpair]

theorem download_local_accepted (hlocal : localBytes o p h = some (b :: bs))
    (hverify : (verify o p (b :: bs) a.integrity (.ok none) h.recorded).1 = .ok ()) :
    (download o p a h).1 = .accepted (b :: bs) := by
  have hpair : verify o p (b :: bs) a.integrity (.ok none) h.recorded = (.ok (), h.recorded) :=
    Prod.ext hverify (verify_none ..)
  unfold download fetch
  rw [hlocal]
  simp only [hpair]

theorem download_fresh_rejected {recorded : Option Str} (hlocal : localBytes o p h = none)
    (hbytes : a.tarball = .ok (b :: bs))
    (hverify : verify o p (b :: bs) a.integrity a.attestations h.recorded = (.error r, recorded)) :
    download o p a h = (.rejected r, { h with cached := some (b :: bs), recorded }) := by
  unfold download fetch
  rw [hlocal, hbytes]
  simp only [hverify]

/-- Where the bytes of a rejection came from. -/
theorem download_rejected_cases (hrun : (download o p a h).1 = .rejected r) :
    ∃ b bs, (localBytes o p h = some (b :: bs) ∧
        (verify o p (b :: bs) a.integrity (.ok none) h.recorded).1 = .error r) ∨
      (localBytes o p h = none ∧ a.tarball = .ok (b :: bs) ∧
        (verify o p (b :: bs) a.integrity a.attestations h.recorded).1 = .error r) := by
  unfold download fetch at hrun
  cases hlocal : localBytes o p h with
  | some bytes =>
      simp only [hlocal] at hrun
      cases bytes with
      | nil => simp at hrun
      | cons b bs =>
          refine ⟨b, bs, .inl ⟨rfl, ?_⟩⟩
          rcases hverify : verify o p (b :: bs) a.integrity (.ok none) h.recorded with ⟨result, recorded⟩
          cases result <;> simp_all
  | none =>
      cases htarball : a.tarball with
      | error e => simp [hlocal, htarball] at hrun
      | ok bytes =>
          simp only [hlocal, htarball] at hrun
          cases bytes with
          | nil => simp at hrun
          | cons b bs =>
              refine ⟨b, bs, .inr ⟨rfl, rfl, ?_⟩⟩
              rcases hverify : verify o p (b :: bs) a.integrity a.attestations h.recorded with ⟨result, recorded⟩
              cases result <;> simp_all

/-- What was downloaded is at hand in the next run. -/
theorem localBytes_cached {bytes : Bytes} {recorded : Option Str} (hlocal : localBytes o p h = none) :
    localBytes o p { h with cached := some bytes, recorded } = some bytes := by
  unfold localBytes at hlocal ⊢
  by_cases hzero : p.zeroInstall
  · rw [if_pos hzero] at hlocal ⊢
    cases hread : readZeroInstallCache o h.zero with
    | some bytes' => simp [hread] at hlocal
    | none =>
        simp only [hread] at hlocal ⊢
        by_cases hstored : isCached h.stored <;> simp_all
  · rw [if_neg hzero] at hlocal ⊢
    by_cases hstored : isCached h.stored <;> simp_all

/-! ## The runs after a rejection -/

/-- The bytes that were rejected stay at hand. -/
theorem local_of_rejected (hrun : (download o p a h).1 = .rejected r) :
    ∃ b bs, servedBytes o p a h = some (b :: bs) ∧ localBytes o p (download o p a h).2 = some (b :: bs) := by
  obtain ⟨b, bs, ⟨hlocal, hverify⟩ | ⟨hlocal, hbytes, hverify⟩⟩ := download_rejected_cases hrun
  · refine ⟨b, bs, by simp [servedBytes, hlocal], ?_⟩
    rw [download_local_rejected hlocal hverify]
    exact hlocal
  · refine ⟨b, bs, by simp [servedBytes, hlocal, hbytes, Except.toOption], ?_⟩
    rw [download_fresh_rejected hlocal hbytes (Prod.ext hverify rfl)]
    exact localBytes_cached hlocal

/-- A run that rejects bytes at hand changes nothing. -/
theorem again_of_rejected {bytes : Bytes} (hlocal : localBytes o p h = some bytes)
    (hrun : (download o p a h).1 = .rejected r) (n : Nat) : again o p a n h = h := by
  obtain ⟨b, bs, ⟨hlocal', hverify⟩ | ⟨hnone, -⟩⟩ := download_rejected_cases hrun
  · apply Function.iterate_fixed
    show (download o p a h).2 = h
    rw [download_local_rejected hlocal' hverify]
  · rw [hlocal] at hnone
    cases hnone

theorem again_succ (a : Answer Att) (n : Nat) (h : Held) :
    again o p a (n + 1) h = again o p a n (download o p a h).2 := rfl

/-- All later runs reject if the second does. -/
theorem later_rejected_iff (hrun : (download o p a h).1 = .rejected r) :
    (∀ n, ∃ r', (download o p a (again o p a (n + 1) h)).1 = .rejected r') ↔
      ∃ r', (download o p a (download o p a h).2).1 = .rejected r' := by
  constructor
  · exact fun hall => hall 0
  · rintro ⟨r', hsecond⟩ n
    obtain ⟨b, bs, -, hlocal⟩ := local_of_rejected hrun
    rw [again_succ, again_of_rejected hlocal hsecond]
    exact ⟨r', hsecond⟩

theorem checkUnsigned_error {recorded : Option Str} {why : Str} (herror : (checkUnsigned p recorded why).1 = .error r) :
    ∃ why, r = .provenance why := by
  unfold checkUnsigned at herror
  cases recorded with
  | some pin =>
      simp only [checkSignerPin, Except.error.injEq] at herror
      exact ⟨_, herror.symm⟩
  | none =>
      cases hrequire : p.requireProvenance with
      | false => simp [checkSignerPin, hrequire] at herror
      | true =>
          simp only [checkSignerPin, hrequire, ↓reduceIte, Except.error.injEq] at herror
          exact ⟨_, herror.symm⟩

theorem mapError_eq_error {α : Type} {x : Except Str α} {f : Str → Rejection} (herror : x.mapError f = .error r) :
    ∃ why, r = f why := by
  cases x with
  | ok _ => simp [Except.mapError] at herror
  | error why => exact ⟨why, by simpa [Except.mapError, eq_comm] using herror⟩

theorem checkProvenance_error {bytes : Bytes} {attestations : Except Str (Option Att)} {recorded : Option Str}
    (herror : (checkProvenance o p bytes attestations recorded).1 = .error r) : ∃ why, r = .provenance why := by
  unfold checkProvenance at herror
  split at herror
  · split at herror
    · exact mapError_eq_error herror
    · exact checkUnsigned_error herror
    · simp only [Except.error.injEq] at herror
      exact ⟨_, herror.symm⟩
  · exact checkUnsigned_error herror
  · exact checkUnsigned_error herror

theorem checkScan_ne_integrity {bytes : Bytes} {integrity : Option Str} :
    checkScan p bytes integrity ≠ .error .integrity := by
  unfold checkScan
  cases p.scan bytes with
  | none => simp
  | some report => cases p.trust integrity <;> simp

theorem verify_error_integrity {bytes : Bytes} {integrity : Option Str} {attestations : Except Str (Option Att)}
    {recorded : Option Str} :
    (verify o p bytes integrity attestations recorded).1 = .error .integrity ↔
      integrity.isSome ∧ o.digests.verifyFromRegistry bytes integrity ≠ .verified := by
  unfold verify
  cases integrity with
  | none => simp [checkIntegrity]
  | some hash =>
      by_cases hgood : o.digests.verifyFromRegistry bytes (some hash) = .verified
      · simp only [checkIntegrity, hgood, ↓reduceIte, Option.isSome_some, ne_eq, not_true_eq_false, and_false, iff_false]
        cases hscan : checkScan p bytes (some hash) with
        | error r =>
            simp only [Except.error.injEq]
            exact fun heq => checkScan_ne_integrity (heq ▸ hscan)
        | ok _ =>
            intro herror
            obtain ⟨why, hwhy⟩ := checkProvenance_error herror
            cases hwhy
      · simp [checkIntegrity, hgood]

theorem mismatch_of_rejected {bytes : Bytes} (hrun : (download o p a h).1 = .rejected .integrity)
    (hserved : servedBytes o p a h = some bytes) :
    a.integrity.isSome ∧ o.digests.verifyFromRegistry bytes a.integrity ≠ .verified := by
  obtain ⟨b, bs, ⟨hlocal, hverify⟩ | ⟨hlocal, hbytes, hverify⟩⟩ := download_rejected_cases hrun
  · obtain rfl : b :: bs = bytes := by simpa [servedBytes, hlocal] using hserved
    exact verify_error_integrity.mp hverify
  · obtain rfl : b :: bs = bytes := by simpa [servedBytes, hlocal, hbytes, Except.toOption] using hserved
    exact verify_error_integrity.mp hverify

/-- Bytes that do not match stay, whatever the registry serves. -/
theorem mismatch_stays {a' : Answer Att} (hrun : (download o p a h).1 = .rejected .integrity)
    (hsame : a'.integrity = a.integrity) (n : Nat) :
    (download o p a' (again o p a (n + 1) h)).1 = .rejected .integrity := by
  obtain ⟨b, bs, hserved, hlocal⟩ := local_of_rejected hrun
  have hbad := mismatch_of_rejected hrun hserved
  have hsecond : download o p a (download o p a h).2 = (.rejected .integrity, (download o p a h).2) :=
    download_local_rejected hlocal (verify_error_integrity.mpr hbad)
  rw [again_succ, again_of_rejected hlocal (congrArg Prod.fst hsecond)]
  rw [← hsame] at hbad
  rw [download_local_rejected hlocal (verify_error_integrity.mpr hbad)]

theorem rejected_integrity {bytes : Bytes} (hserved : servedBytes o p a h = some bytes) (hne : bytes ≠ [])
    (hbad : a.integrity.isSome ∧ o.digests.verifyFromRegistry bytes a.integrity ≠ .verified) :
    (download o p a h).1 = .rejected .integrity := by
  obtain ⟨b, bs, rfl⟩ := List.exists_cons_of_ne_nil hne
  cases hlocal : localBytes o p h with
  | some bytes' =>
      obtain rfl : bytes' = b :: bs := by simpa [servedBytes, hlocal] using hserved
      rw [download_local_rejected hlocal (verify_error_integrity.mpr hbad)]
  | none =>
      have hbytes : a.tarball = .ok (b :: bs) := by
        unfold servedBytes at hserved
        rw [hlocal, Option.none_or] at hserved
        cases htarball : a.tarball with
        | error e => simp [htarball, Except.toOption] at hserved
        | ok bytes => simpa [htarball, Except.toOption] using hserved
      rw [download_fresh_rejected hlocal hbytes (Prod.ext (verify_error_integrity.mpr hbad) rfl)]

/-- After a mismatch the right bytes are never accepted, so this holds only if there is no mismatch or no right bytes. -/
theorem recovers_iff_bytesMatch :
    ((download o p a h).1 = .rejected .integrity → ∀ n (a' : Answer Att) bytes, a'.integrity = a.integrity →
      Sound o p a' bytes → (download o p a' (again o p a (n + 1) h)).1 = .accepted bytes) ↔ BytesMatch o p a h := by
  constructor
  · intro hrecovers bytes hserved hne hsome
    by_contra hnot
    obtain ⟨hbad, hright⟩ := not_or.mp hnot
    have hrun := rejected_integrity hserved hne ⟨hsome, hbad⟩
    apply hright
    intro a' bytes' hsame hsound
    have hbefore := hrecovers hrun 0 a' bytes' hsame hsound
    rw [mismatch_stays hrun hsame 0] at hbefore
    cases hbefore
  · intro hmatch hrun n a' bytes hsame hsound
    obtain ⟨b, bs, hserved, -⟩ := local_of_rejected hrun
    obtain ⟨hsome, hbad⟩ := mismatch_of_rejected hrun hserved
    have hnone := (hmatch (b :: bs) hserved (by simp) hsome).resolve_left hbad
    exact absurd hsound (hnone a' bytes hsame)

/-- A provenance that does not fit is rejected and leaves no signer behind. -/
theorem checkProvenance_misfit {bytes : Bytes} {att : Att}
    (hmisfit : ¬ responseFits ((o.declaredRepository bytes).map normalizeRepository) p.requireProvenance
      (o.verifyAttestations att (o.sha512Hex bytes))) :
    ∃ r, checkProvenance o p bytes (.ok (some att)) none = (.error r, none) := by
  unfold checkProvenance
  simp only
  generalize o.verifyAttestations att (o.sha512Hex bytes) = response at hmisfit
  match response with
  | .error why => exact ⟨_, rfl⟩
  | .ok (.unsupported why) => exact absurd rfl hmisfit
  | .ok (.verified signer others) =>
      simp only [checkSigners_misfit hmisfit]
      exact ⟨_, rfl⟩

/-- One that fits and is rejected all the same leaves its first signer behind. -/
theorem checkProvenance_fits {bytes : Bytes} {attestations : Except Str (Option Att)}
    (hfits : ∀ att, attestations = .ok (some att) → responseFits ((o.declaredRepository bytes).map normalizeRepository)
      p.requireProvenance (o.verifyAttestations att (o.sha512Hex bytes)))
    (hrequire : p.requireProvenance = false) (herror : (checkProvenance o p bytes attestations none).1 = .error r) :
    (checkProvenance o p bytes attestations none).2 ≠ none := by
  have hunsigned : ∀ why, (checkUnsigned p none why).1 ≠ .error r := by
    intro why
    rw [checkUnsigned_ok.mpr ⟨rfl, hrequire⟩]
    simp
  unfold checkProvenance at herror ⊢
  match attestations with
  | .error e => exact absurd herror (hunsigned _)
  | .ok none => exact absurd herror (hunsigned _)
  | .ok (some att) =>
      have hresponse := hfits att rfl
      simp only at herror ⊢
      generalize o.verifyAttestations att (o.sha512Hex bytes) = response at hresponse herror
      match response with
      | .error why => cases hresponse
      | .ok (.unsupported why) => exact absurd herror (hunsigned _)
      | .ok (.verified signer others) =>
          simp only [checkSigners_first hresponse]
          simp

/-- The second run, which sees no attestations, rejects as well exactly if the provenance is kept. -/
theorem second_rejected_iff_provenanceKept :
    (∀ r, (download o p a h).1 = .rejected r → ∃ r', (download o p a (download o p a h).2).1 = .rejected r') ↔
      ProvenanceKept o p a h := by
  constructor
  · intro hsecond bytes att hlocal hbytes hne hatt hintegrity hscan
    obtain ⟨b, bs, rfl⟩ := List.exists_cons_of_ne_nil hne
    by_contra hnot
    obtain ⟨hrequire, hrest⟩ := not_or.mp hnot
    obtain ⟨hrecorded, hmisfit⟩ := not_or.mp hrest
    rw [Bool.not_eq_true] at hrequire
    rw [Bool.not_eq_true, Option.isSome_eq_false_iff, Option.isNone_iff_eq_none] at hrecorded
    obtain ⟨r, hfirst⟩ := checkProvenance_misfit hmisfit
    rw [← hatt, ← hrecorded, ← verify_passed hintegrity hscan] at hfirst
    have hrun := download_fresh_rejected hlocal hbytes hfirst
    obtain ⟨r', hr'⟩ := hsecond r (congrArg Prod.fst hrun)
    have haccepted : (verify o p (b :: bs) a.integrity (.ok none) h.recorded).1 = .ok () := by
      rw [verify_passed hintegrity hscan]
      exact checkProvenance_none_ok.mpr ⟨hrecorded, hrequire⟩
    rw [hrun, download_local_accepted (localBytes_cached hlocal) haccepted] at hr'
    cases hr'
  · intro hkept r hrun
    obtain ⟨b, bs, ⟨hlocal, hverify⟩ | ⟨hlocal, hbytes, hverify⟩⟩ := download_rejected_cases hrun
    · rw [download_local_rejected hlocal hverify]
      exact ⟨r, hrun⟩
    · rw [download_fresh_rejected hlocal hbytes (Prod.ext hverify rfl)]
      rcases verify_cases (o := o) (p := p) (b :: bs) a.integrity with ⟨r₀, hearly⟩ | ⟨hintegrity, hscan⟩
      · exact ⟨r₀, congrArg Prod.fst (download_local_rejected (localBytes_cached hlocal) (by rw [hearly]))⟩
      · have hpassed : ∀ attestations recorded, verify o p (b :: bs) a.integrity attestations recorded =
            checkProvenance o p (b :: bs) attestations recorded := fun _ _ => verify_passed hintegrity hscan
        rw [hpassed] at hverify ⊢
        cases hnext : (checkProvenance o p (b :: bs) (.ok none)
            (checkProvenance o p (b :: bs) a.attestations h.recorded).2).1 with
        | error r' =>
            refine ⟨r', congrArg Prod.fst (download_local_rejected (localBytes_cached hlocal) ?_)⟩
            rw [hpassed]
            exact hnext
        | ok _ =>
            obtain ⟨hleft, hrequire⟩ := checkProvenance_none_ok.mp hnext
            exfalso
            cases hrecorded : h.recorded with
            | some pin =>
                rw [hrecorded, checkProvenance_recorded] at hleft
                cases hleft
            | none =>
                rw [hrecorded] at hverify hleft
                apply checkProvenance_fits ?_ hrequire hverify hleft
                intro att hatt
                have hfits := hkept (b :: bs) att hlocal hbytes (by simp) hatt hintegrity hscan
                simpa [hrequire, hrecorded] using hfits

end ThreeVa.Store
