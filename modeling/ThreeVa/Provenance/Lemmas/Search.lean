import Mathlib.Data.List.Chain
import ThreeVa.Provenance.Chain

/-! # Lemmas about the search for a chain -/

namespace ThreeVa.Provenance
open Text FirstFit

variable {K : Type} {crates : Crates K} {asOf : Int} {current cert leaf : ParsedCert K} {leafDer : Bytes}
  {ders bundleChain : List Bytes}

/-! ## The issuer -/

theorem offer_eq (current : ParsedCert K) (der : Bytes) :
    (chainSearch crates asOf).offer current der =
      match parseCert crates der with
      | .ok cert => if issues crates asOf current cert then some (some cert) else none
      | .error (.err _) => none
      | .error .panic => some none := by
  unfold Search.offer
  have hread : (chainSearch crates asOf).read der = match parseCert crates der with
      | .ok cert => some (some cert)
      | .error (.err _) => none
      | .error .panic => some none := rfl
  have hfits : (chainSearch crates asOf).fits = issues crates asOf := rfl
  rw [hread, hfits]
  cases parseCert crates der with
  | ok cert => rw [Option.filter_some, Option.all_some]
  | error e => cases e <;> rfl

theorem fallback_eq (current : ParsedCert K) : (chainSearch crates asOf).fallback current =
    (findIssuer crates asOf current (fulcioIntermediates ++ fulcioRoots)).toOption.bind id := by
  rw [chainSearch]

theorem verdict_of_root (h : fulcioRoots.contains cert.der = true) : (chainSearch crates asOf).verdict cert =
    some (!(cert.der = pinned fulcioRootV0DerB64 && fulcioRootV0End < asOf)) := if_pos h

theorem verdict_of_not_root (h : ¬ fulcioRoots.contains cert.der = true) : (chainSearch crates asOf).verdict cert = none :=
  if_neg h

/-- The first candidate that issued the certificate is the first that is offered. -/
theorem findIssuer_eq (current : ParsedCert K) (ders : List Bytes) :
    findIssuer crates asOf current ders =
      match ders.findSome? ((chainSearch crates asOf).offer current) with
      | none => .ok none
      | some none => .error .panic
      | some (some issuer) => .ok (some issuer) := by
  induction ders with
  | nil => rfl
  | cons der rest ih =>
      unfold findIssuer
      rw [List.findSome?_cons, offer_eq]
      cases parseCert crates der with
      | ok candidate =>
          by_cases hissues : issues crates asOf current candidate = true
          · simp only [hissues, if_true]
          · simp only [hissues, Bool.false_eq_true, if_false]
            exact ih
      | error e =>
          cases e with
          | err why => exact ih
          | panic => rfl

theorem toOption_findIssuer (current : ParsedCert K) (ders : List Bytes) :
    (findIssuer crates asOf current ders).toOption.bind id =
      (ders.findSome? ((chainSearch crates asOf).offer current)).bind id := by
  rw [findIssuer_eq]
  rcases ders.findSome? ((chainSearch crates asOf).offer current) with _ | _ | issuer <;> rfl

/-- Where the candidates of the bundle do not decide, the pinned ones do. -/
theorem next_chainSearch (current : ParsedCert K) (bundleChain : List Bytes) :
    (findIssuer crates asOf current (bundleChain ++ fulcioIntermediates ++ fulcioRoots)).toOption.bind id =
      (chainSearch crates asOf).next bundleChain current := by
  rw [toOption_findIssuer, List.append_assoc, List.findSome?_append, Search.next, fallback_eq, toOption_findIssuer]
  cases bundleChain.findSome? ((chainSearch crates asOf).offer current) with
  | none => rw [Option.none_or, Option.getD_none]
  | some o => rw [Option.some_or, Option.getD_some]; rfl

theorem climb_eq_ok (bundleChain : List Bytes) (n : Nat) (current : ParsedCert K) :
    climb crates (bundleChain ++ fulcioIntermediates) asOf n current = .ok () ↔
      (chainSearch crates asOf).run bundleChain n current = true := by
  induction n generalizing current with
  | zero => simp [climb, Search.run, fail]
  | succ n ih =>
      unfold climb Search.run
      by_cases hroot : fulcioRoots.contains current.der = true
      · rw [if_pos hroot, verdict_of_root hroot, ensure_eq_ok]
      · rw [if_neg hroot, verdict_of_not_root hroot, ← next_chainSearch]
        cases hfind : findIssuer crates asOf current (bundleChain ++ fulcioIntermediates ++ fulcioRoots) with
        | error e => simp [Bind.bind, Except.bind, Except.toOption]
        | ok issuer =>
            cases issuer with
            | none => simp [Except.toOption, fail]
            | some issuer => simpa [Except.toOption] using ih issuer

/-- A bundle is accepted for a signing leaf exactly if the search from it succeeds. -/
theorem acceptsChain_iff : AcceptsChain crates leafDer bundleChain asOf ↔
    ∃ leaf, SigningLeaf crates leafDer asOf leaf ∧ (chainSearch crates asOf).run bundleChain 4 leaf = true := by
  unfold AcceptsChain verifyFulcioChain
  simp only [bind_eq_ok, ensure_eq_ok, climb_eq_ok, Bool.and_eq_true, Bool.not_eq_true']
  constructor
  · rintro ⟨leaf, hparse, -, ⟨hca, heku⟩, -, hvalid, hrun⟩
    exact ⟨leaf, ⟨hparse, hca, heku, hvalid⟩, hrun⟩
  · rintro ⟨leaf, h, hrun⟩
    exact ⟨leaf, h.parsed, (), ⟨h.notCa, h.codeSigning⟩, (), h.valid, hrun⟩

theorem SigningLeaf.unique {leaf' : ParsedCert K} (h : SigningLeaf crates leafDer asOf leaf)
    (h' : SigningLeaf crates leafDer asOf leaf') : leaf = leaf' :=
  Except.ok.inj (h.parsed.symm.trans h'.parsed)

theorem acceptsChain_of_leaf (h : SigningLeaf crates leafDer asOf leaf) (bundleChain : List Bytes) :
    AcceptsChain crates leafDer bundleChain asOf ↔ (chainSearch crates asOf).run bundleChain 4 leaf = true := by
  rw [acceptsChain_iff]
  exact ⟨fun ⟨leaf', h', hrun⟩ => h.unique h' ▸ hrun, fun hrun => ⟨leaf, h, hrun⟩⟩

/-! ## The chain -/

/-- What a step of the search finds. -/
structure Found (crates : Crates K) (asOf : Int) (bundleChain : List Bytes) (current issuer : ParsedCert K) : Prop where
  issued : IssuedBy crates current issuer
  valid : validAt issuer asOf = true
  known : ∃ der ∈ bundleChain ++ fulcioIntermediates ++ fulcioRoots, parseCert crates der = .ok issuer

theorem offer_eq_some {der : Bytes} (h : (chainSearch crates asOf).offer current der = some (some cert)) :
    parseCert crates der = .ok cert ∧ IssuedBy crates current cert ∧ validAt cert asOf = true := by
  rw [offer_eq] at h
  cases hparse : parseCert crates der with
  | ok candidate =>
      rw [hparse] at h
      obtain ⟨hissues, heq⟩ := Option.ite_none_right_eq_some.mp h
      cases heq
      unfold issues at hissues
      simp only [Bool.and_eq_true, decide_eq_true_eq] at hissues
      obtain ⟨⟨⟨hsubject, hca⟩, hsigned⟩, hvalid⟩ := hissues
      exact ⟨rfl, ⟨hsubject, hca, hsigned⟩, hvalid⟩
  | error e => rw [hparse] at h; cases e <;> cases h

theorem panic_of_offer {der : Bytes} (h : (chainSearch crates asOf).offer current der = some none) :
    parseCert crates der = .error .panic := by
  rw [offer_eq] at h
  cases hparse : parseCert crates der with
  | ok candidate =>
      rw [hparse] at h
      cases (Option.ite_none_right_eq_some.mp h).2
  | error e =>
      cases e with
      | err why => rw [hparse] at h; cases h
      | panic => rfl

theorem found_of_may (h : (chainSearch crates asOf).May bundleChain current (some cert)) :
    Found crates asOf bundleChain current cert := by
  rcases h with ⟨der, hder, hoffer⟩ | ⟨-, hfallback⟩
  · obtain ⟨hparse, hissued, hvalid⟩ := offer_eq_some hoffer
    exact ⟨hissued, hvalid, der, by simp [hder], hparse⟩
  · rw [fallback_eq, toOption_findIssuer, Option.bind_eq_some_iff] at hfallback
    obtain ⟨o, hfind, rfl⟩ := hfallback
    obtain ⟨der, hder, hoffer⟩ := List.exists_of_findSome?_eq_some hfind
    obtain ⟨hparse, hissued, hvalid⟩ := offer_eq_some hoffer
    exact ⟨hissued, hvalid, der, by rw [List.append_assoc]; exact List.mem_append_right _ hder, hparse⟩

theorem forall_tail_of_isChain {α : Type} {R : α → α → Prop} {P : α → Prop} (hR : ∀ a b, R a b → P b) {a : α}
    {l : List α} (h : List.IsChain R (a :: l)) : ∀ b ∈ l, P b := by
  induction l generalizing a with
  | nil => exact fun b hb => by cases hb
  | cons b l ih =>
      obtain ⟨hab, hrest⟩ := List.isChain_cons_cons.mp h
      intro c hc
      rcases List.mem_cons.mp hc with rfl | hc
      · exact hR a c hab
      · exact ih hrest c hc

/-- A search that may succeed passes along a chain. -/
theorem exists_trustChain (hleaf : SigningLeaf crates leafDer asOf leaf)
    (h : (chainSearch crates asOf).CanAccept bundleChain 4 leaf) : ∃ chain, TrustChain crates leafDer bundleChain asOf chain := by
  obtain ⟨root, hway, hverdict⟩ := h.exists_way
  obtain ⟨rest, hchain, hlast⟩ := List.exists_isChain_cons_of_relationReflTransGen hway
  have hfound : List.IsChain (Found crates asOf bundleChain) (leaf :: rest) := hchain.imp fun _ _ => found_of_may
  refine ⟨leaf :: rest, ⟨leaf, rfl, hleaf⟩, hfound.imp fun _ _ h => h.issued,
    forall_tail_of_isChain (fun _ _ h => h.known) hfound, ?_, root, ?_, ?_⟩
  · intro cert hcert
    rcases List.mem_cons.mp hcert with rfl | hcert
    · exact hleaf.valid
    · exact forall_tail_of_isChain (fun _ _ h => h.valid) hfound cert hcert
  · rw [List.getLast?_eq_some_getLast (List.cons_ne_nil _ _), hlast]
  · by_cases hroot : fulcioRoots.contains root.der = true
    · rw [verdict_of_root hroot] at hverdict
      refine ⟨List.contains_iff_mem.mp hroot, fun hder => ?_⟩
      by_contra hlate
      simp only [hder, decide_true, Bool.true_and, Option.some.injEq, Bool.not_eq_true', decide_eq_false_iff_not]
        at hverdict
      omega
    · rw [verdict_of_not_root hroot] at hverdict
      cases hverdict

end ThreeVa.Provenance
