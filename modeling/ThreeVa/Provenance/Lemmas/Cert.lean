import ThreeVa.Provenance.Cert

/-!
# The two walkers of a certificate

The key that is taken from the first nested SEQUENCE of a certificate, against the one at the place of the
SubjectPublicKeyInfo.
-/

namespace ThreeVa.Provenance
open Text

/-! ## DER -/

theorem cutTlv_spec {input : Bytes} {tag : UInt8} {idx len : Nat} {t : Tlv} (h : cutTlv input tag idx len = some t) :
    t.tag = tag ∧ t.raw.length = idx + len := by
  unfold cutTlv at h
  split at h
  · cases h
  · cases h
    exact ⟨rfl, by simp; omega⟩

theorem readTlv_spec {input : Bytes} {t : Tlv} (h : readTlv input = some t) :
    input.head? = some t.tag ∧ 0 < t.raw.length := by
  unfold readTlv at h
  split at h
  · rename_i tag first rest
    split at h
    · obtain ⟨rfl, hlen⟩ := cutTlv_spec h
      exact ⟨rfl, by omega⟩
    · simp only at h
      split at h
      · cases h
      · obtain ⟨rfl, hlen⟩ := cutTlv_spec h
        exact ⟨rfl, by omega⟩
  · cases h

theorem childrenUpTo_of_le {n m : Nat} {rest : Bytes} (hn : rest.length ≤ n) (hm : rest.length ≤ m) :
    childrenUpTo n rest = childrenUpTo m rest := by
  induction n generalizing m rest with
  | zero =>
      have hnil : rest = [] := List.length_eq_zero_iff.mp (by omega)
      subst hnil
      cases m <;> rfl
  | succ n ih =>
      cases m with
      | zero =>
          have hnil : rest = [] := List.length_eq_zero_iff.mp (by omega)
          subst hnil
          rfl
      | succ m =>
          unfold childrenUpTo
          cases hread : readTlv rest with
          | none => rfl
          | some t =>
              have hpos := (readTlv_spec hread).2
              simp only
              rw [ih (m := m) (by simp; omega) (by simp; omega)]

/-- The loop of `children`: the first element, then those of what follows it. -/
theorem children_of_readTlv {c : Bytes} {t : Tlv} (h : readTlv c = some t) :
    children c = t :: children (c.drop t.raw.length) := by
  have hpos := (readTlv_spec h).2
  have hne : c ≠ [] := fun hnil => by simp [hnil, readTlv] at h
  obtain ⟨n, hn⟩ : ∃ n, c.length = n + 1 := Nat.exists_eq_succ_of_ne_zero (by simpa using hne)
  unfold children
  rw [hn, childrenUpTo, h]
  simp only
  rw [childrenUpTo_of_le (m := (c.drop t.raw.length).length) (by simp; omega) (le_refl _)]

theorem children_of_readTlv_none {c : Bytes} (h : readTlv c = none) : children c = [] := by
  unfold children
  cases c.length with
  | zero => rfl
  | succ n => rw [childrenUpTo, h]

theorem head?_children (c : Bytes) : (children c).head? = readTlv c := by
  cases h : readTlv c with
  | none => rw [children_of_readTlv_none h]; rfl
  | some t => rw [children_of_readTlv h]; rfl

/-- The tag of the first element is the first byte. -/
theorem head?_of_children {c : Bytes} {t : Tlv} (h : (children c).head? = some t) : c.head? = some t.tag :=
  (readTlv_spec ((head?_children c).symm.trans h)).1

/-! ## Keys and times -/

variable {K : Type} {crates : Crates K}

/-- What holds a key is nested, so both walkers stop there. -/
theorem nested_of_spkiPublicKey {t : Tlv} {key : EcPublicKey K} (htag : t.tag = 0x30)
    (h : spkiPublicKey crates t = .ok key) : nestedSequence t = true := by
  unfold spkiPublicKey at h
  split at h
  · rename_i alg bitstring hchildren
    rw [bind_eq_ok] at h
    obtain ⟨_, hensure, -⟩ := h
    simp only [ensure_eq_ok, Bool.and_eq_true, decide_eq_true_eq] at hensure
    have hhead := head?_of_children (c := t.content) (t := alg) (by rw [hchildren]; rfl)
    simp [nestedSequence, htag, hhead, hensure.1.1]
  · cases h

theorem splitYear_tag {tag : UInt8} {s : Bytes} {r : Int × Bytes} (h : splitYear tag s = .ok (some r)) :
    tag = 0x18 ∨ tag = 0x17 := by
  unfold splitYear at h
  split at h
  · exact .inl ‹_›
  · split at h
    · exact .inr ‹_›
    · cases h

theorem parseTime_tag {t : Tlv} {n : Int} (h : parseTime t = .ok (some n)) : t.tag = 0x18 ∨ t.tag = 0x17 := by
  unfold parseTime at h
  split at h
  · cases h
  · rw [bind_eq_ok] at h
    obtain ⟨r, hsplit, hsome⟩ := h
    cases r with
    | none => cases hsome
    | some r => exact splitYear_tag hsplit

/-- A validity whose first time parses does not start with a SEQUENCE. -/
theorem not_nested_of_timeAt {t : Tlv} {n : Int} {missing malformed : String}
    (h : timeAt (children t.content) 0 missing malformed = .ok n) : nestedSequence t = false := by
  unfold timeAt at h
  simp only [bind_eq_ok, okOr_eq_ok] at h
  obtain ⟨first, hfirst, o, hparse, hsome⟩ := h
  subst hsome
  rw [← List.head?_eq_getElem?] at hfirst
  have hhead := head?_of_children hfirst
  rcases parseTime_tag hparse with htag | htag <;> simp [nestedSequence, hhead, htag]

/-! ## Certificates -/

theorem fieldAt_eq_ok {fields : List Tlv} {i : Nat} {tag : UInt8} {why : String} {t : Tlv} :
    fieldAt fields i tag why = .ok t ↔ fields[i]? = some t ∧ t.tag = tag := by
  unfold fieldAt
  rw [okOr_eq_ok, Option.filter_eq_some_iff]
  simp

/-- The parts of a certificate that parses, with what the other walker makes of them. -/
structure Walked (crates : Crates K) (der : Bytes) (cert : ParsedCert K) where
  outer : Tlv
  tbs : Tlv
  serial : Tlv
  tbsSig : Tlv
  issuer : Tlv
  validity : Tlv
  subject : Tlv
  spki : Tlv
  rest : List Tlv
  read : readTlv der = some outer
  head : (children outer.content).head? = some tbs
  sequence : tbs.tag = 0x30
  fields : tbsFields tbs = .ok (serial :: tbsSig :: issuer :: validity :: subject :: spki :: rest)
  serialTag : serial.tag = 0x02
  validityPlain : nestedSequence validity = false
  spkiNested : nestedSequence spki = true
  key : spkiPublicKey crates spki = .ok cert.key

theorem eq_of_six {l : List Tlv} {a b c d e f : Tlv} (ha : l[0]? = some a) (hb : l[1]? = some b) (hc : l[2]? = some c)
    (hd : l[3]? = some d) (he : l[4]? = some e) (hf : l[5]? = some f) : l = a :: b :: c :: d :: e :: f :: l.drop 6 := by
  match l, ha, hb, hc, hd, he, hf with
  | _ :: _ :: _ :: _ :: _ :: _ :: _, rfl, rfl, rfl, rfl, rfl, rfl => rfl

theorem parseCert_walked {der : Bytes} {cert : ParsedCert K} (h : parseCert crates der = .ok cert) :
    Nonempty (Walked crates der cert) := by
  unfold parseCert at h
  simp only [bind_eq_ok, okOr_eq_ok, ensure_eq_ok, fieldAt_eq_ok, Bool.and_eq_true, decide_eq_true_eq] at h
  obtain ⟨outer, hread, -, -, tbs, htbs, sigAlg, -, sigValue, -, -, ⟨⟨hseq, -⟩, -⟩, fields, hfields, serial,
    ⟨hserial, hserialTag⟩, tbsSig, ⟨hsig, -⟩, issuer, ⟨hissuer, -⟩, validity, ⟨hvalidity, -⟩, subject, ⟨hsubject, -⟩,
    spki, ⟨hspki, hspkiTag⟩, key, hkey, hash, -, -, -, notBefore, hbefore, notAfter, -, hcert⟩ := h
  cases hcert
  exact ⟨{
    outer, tbs, serial, tbsSig, issuer, validity, subject, spki
    rest := fields.drop 6
    read := hread
    head := by rw [List.head?_eq_getElem?]; exact htbs
    sequence := hseq
    fields := by rw [hfields, ← eq_of_six hserial hsig hissuer hvalidity hsubject hspki]
    serialTag := hserialTag
    validityPlain := not_nested_of_timeAt hbefore
    spkiNested := nested_of_spkiPublicKey hspkiTag hkey
    key := hkey }⟩

/-- A version before the fields is not a SEQUENCE. -/
theorem find?_nested_tbsFields {tbs : Tlv} {fields : List Tlv} (h : tbsFields tbs = .ok fields) :
    (children tbs.content).find? nestedSequence = fields.find? nestedSequence := by
  unfold tbsFields at h
  split at h
  · cases h
  · rename_i first rest hchildren
    cases h
    rw [hchildren]
    split
    · rename_i htag
      rw [List.find?_cons_of_neg]
      simp [nestedSequence, htag]
    · rfl

namespace Walked

variable {der : Bytes} {cert : ParsedCert K} (w : Walked crates der cert)

theorem lookalike_eq : lookalike der = [w.tbsSig, w.issuer, w.subject].find? nestedSequence := by
  have hfields : certFields der =
      some (w.serial :: w.tbsSig :: w.issuer :: w.validity :: w.subject :: w.spki :: w.rest) := by
    simp [certFields, w.read, w.head, w.fields, Except.toOption]
  simp only [lookalike, hfields]

theorem find?_nested : (children w.tbs.content).find? nestedSequence = some ((lookalike der).getD w.spki) := by
  have hserial : nestedSequence w.serial = false := by simp [nestedSequence, w.serialTag]
  rw [find?_nested_tbsFields w.fields, w.lookalike_eq, List.find?_cons_of_neg (by simp [hserial])]
  simp only [List.find?_cons, List.find?_nil, w.validityPlain, w.spkiNested]
  cases nestedSequence w.tbsSig <;> cases nestedSequence w.issuer <;> cases nestedSequence w.subject <;> rfl

end Walked

/-- The first walker reads the field that looks like a key, where there is one. -/
theorem extractEcPublicKey_of_parseCert {der : Bytes} {cert : ParsedCert K} (h : parseCert crates der = .ok cert) :
    extractEcPublicKey crates der = (lookalike der).elim (.ok cert.key) (spkiPublicKey crates) := by
  obtain ⟨w⟩ := parseCert_walked h
  unfold extractEcPublicKey
  simp only [w.read, w.head, w.sequence, w.find?_nested, okOr_some, decide_true, ensure_true, ok_bind]
  cases lookalike der with
  | none => exact w.key
  | some t => rfl

end ThreeVa.Provenance
