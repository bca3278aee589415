import ThreeVa.Js.Lemmas.TextDecoder

/-!
# Decoding ill-formed bytes

The loop of `decode` goes over the same pieces as the decoder of the standard. It stands U+FFFD for every byte of an
ill-formed subpart, and stops at the first that is cut off.
-/

namespace ThreeVa.Js
open Text

namespace TextDecoder

variable {fatal : Bool}

/-! ## One step -/

theorem tail_of_mask {b : UInt8} (h : b &&& 0xC0 = 0x80) : ∃ k < 64, b = .ofNat (0x80 + k) := by
  have hall : ∀ n < 256, UInt8.ofNat n &&& 0xC0 = 0x80 → 0x80 ≤ n ∧ n < 0xC0 := by decide +kernel
  obtain ⟨hle, hlt⟩ := hall b.toNat b.toNat_lt (by rwa [UInt8.ofNat_toNat])
  exact ⟨b.toNat - 0x80, by omega, by rw [Nat.add_sub_cancel' hle, UInt8.ofNat_toNat]⟩

theorem continuation_eq_some {cp v : Nat} {bs : Bytes} :
    continuation cp bs = some v ↔ ∃ bits, (∀ k ∈ bits, k < 64) ∧ bs = tails bits ∧ v = addBits cp bits := by
  induction bs generalizing cp with
  | nil =>
      rw [continuation, Option.some.injEq]
      constructor
      · rintro rfl
        exact ⟨[], by simp, rfl, rfl⟩
      · rintro ⟨bits, -, hbits, rfl⟩
        rw [List.map_eq_nil_iff.mp hbits.symm]
        rfl
  | cons b bs ih =>
      constructor
      · intro h
        by_cases hmask : b &&& 0xC0 = 0x80
        · obtain ⟨k, hk, rfl⟩ := tail_of_mask hmask
          rw [continuation_ofNat hk] at h
          obtain ⟨bits, hsmall, rfl, rfl⟩ := ih.mp h
          exact ⟨k :: bits, List.forall_mem_cons.mpr ⟨hk, hsmall⟩, rfl, rfl⟩
        · rw [continuation, if_pos hmask] at h
          cases h
      · rintro ⟨bits, hsmall, hbits, rfl⟩
        cases bits with
        | nil => cases hbits
        | cons k bits =>
            rw [List.forall_mem_cons] at hsmall
            obtain ⟨rfl, rfl⟩ := List.cons.inj hbits
            rw [continuation_ofNat hsmall.1]
            exact ih.mpr ⟨bits, hsmall.2, rfl, rfl⟩

/-- The step at an ill-formed subpart. -/
def invalidStep (fatal : Bool) (b : UInt8) (rest : Bytes) : Step :=
  if endsWithin b rest.length then .truncated else if fatal then .invalid else .emit [replacement] rest

/-- A first byte whose sequence is not accepted. -/
theorem next_refused {b : UInt8} {need cp : Nat} {rest : Bytes} (hlead : ¬b < 0x80 ∧ lead b = some (need, cp))
    (h : ∀ bits, (∀ k ∈ bits, k < 64) → bits.length = need → rest.take need = tails bits →
      refused need (addBits cp bits) = true) :
    next fatal b rest = invalidStep fatal b rest := by
  obtain ⟨hb, hlead⟩ := hlead
  have hends : endsWithin b rest.length = decide (rest.length < need) := by rw [endsWithin, hlead]; rfl
  rw [next, if_neg hb, hlead, invalidStep, hends]
  simp only [decide_eq_true_eq]
  by_cases hlen : rest.length < need
  · rw [if_pos hlen, if_pos hlen]
  · rw [if_neg hlen, if_neg hlen]
    have hnone : (continuation cp (rest.take need)).filter (fun cp => !refused need cp) = none := by
      rw [Option.filter_eq_none_iff]
      intro v hv
      obtain ⟨bits, hsmall, htake, rfl⟩ := continuation_eq_some.mp hv
      have hlength : bits.length = need := by
        rw [← tails_length, ← htake, List.length_take]
        omega
      simp [h bits hsmall hlength htake]
    rw [hnone]

/-- What is not refused of a sequence is what the bounds of the standard admit. -/
def Agrees (st : Partway) : Prop :=
  ∀ bits, (∀ k ∈ bits, k < 64) → bits.length = st.needed →
    (refused st.needed (addBits st.codePoint bits) = false ↔ st.Admits bits)

section More

variable {b : UInt8} {st : Partway}

theorem next_more_some (hb : ¬b < 0x80) (hlead : lead b = some (st.needed, st.codePoint)) (hbounded : st.Bounded)
    (hneeded : 0 < st.needed) (hagrees : Agrees st) {rest : Bytes} {cp k : Nat} (h : st.follow rest = (some cp, k)) :
    next fatal b rest = .emit (fromCodePoint cp) (rest.drop k) := by
  obtain ⟨bits, hbits⟩ := st.takes_follow hbounded hneeded rest
  rw [h] at hbits
  have hitem := hbits.item
  split at hitem
  · rename_i hlength
    obtain rfl : cp = addBits st.codePoint bits := Option.some.inj hitem
    have hk : k = st.needed := hbits.length.symm.trans hlength
    have hok := (hagrees bits hbits.small hlength).mpr hbits.admits
    have hrest : tails bits ++ rest.drop k = rest := by rw [← hbits.taken, List.take_append_drop]
    have hnext := @next_of_lead fatal b (tails bits) _ _ _ hb hlead (by rw [tails_length, hlength])
      (continuation_eq_some.mpr ⟨bits, hbits.small, rfl, rfl⟩) hok (rest.drop k)
    rwa [hrest] at hnext
  · cases hitem

theorem next_more_none (hb : ¬b < 0x80) (hlead : lead b = some (st.needed, st.codePoint)) (hneeded : 0 < st.needed)
    (hagrees : Agrees st) {rest : Bytes} {k : Nat} (h : st.follow rest = (none, k)) :
    next fatal b rest = invalidStep fatal b rest := by
  refine next_refused ⟨hb, hlead⟩ fun bits hsmall hlength htake => ?_
  by_contra hok
  have hadmits := (hagrees bits hsmall hlength).mp (by simpa using hok)
  have hne : bits ≠ [] := by
    rintro rfl
    exact absurd hlength hneeded.ne
  have hfollow := Partway.follow_tails hsmall hne hlength hadmits (rest.drop st.needed)
  rw [← htake, List.take_append_drop, h] at hfollow
  cases hfollow

end More

theorem agrees_two {k : Nat} (hk : k < 32) (hleast : 2 ≤ k) : Agrees ⟨k, 1, 0x80, 0xBF⟩ := by
  intro bits hsmall hlength
  obtain ⟨x, rfl⟩ := List.length_eq_one_iff.mp hlength
  have hx := hsmall x (List.mem_singleton_self x)
  refine iff_of_true (show refused 1 (k * 64 + x) = false from ?_) (Partway.admits_tail _ _ hsmall)
  simp [refused]
  omega

theorem agrees_three {k : Nat} (hk : k < 16) :
    Agrees ⟨k, 2, if k = 0 then 0xA0 else 0x80, if k = 13 then 0x9F else 0xBF⟩ := by
  intro bits hsmall hlength
  obtain ⟨x, y, rfl⟩ := List.length_eq_two.mp hlength
  simp only [List.mem_cons, List.not_mem_nil, or_false, forall_eq_or_imp, forall_eq] at hsmall
  have hrefused : refused 2 ((k * 64 + x) * 64 + y) = false ↔ (k = 0 → 32 ≤ x) ∧ (k = 13 → x ≤ 31) := by
    simp [refused]
    omega
  refine hrefused.trans (Iff.trans ?_ Partway.admits_cons.symm)
  by_cases h0 : k = 0
  · subst h0
    simp
    omega
  · by_cases h13 : k = 13
    · subst h13
      simp
      omega
    · simp [h0, h13]
      omega

theorem agrees_four {k : Nat} (hk : k ≤ 4) :
    Agrees ⟨k, 3, if k = 0 then 0x90 else 0x80, if k = 4 then 0x8F else 0xBF⟩ := by
  intro bits hsmall hlength
  obtain ⟨x, y, z, rfl⟩ := List.length_eq_three.mp hlength
  simp only [List.mem_cons, List.not_mem_nil, or_false, forall_eq_or_imp, forall_eq] at hsmall
  have hrefused : refused 3 (((k * 64 + x) * 64 + y) * 64 + z) = false ↔ (k = 0 → 16 ≤ x) ∧ (k = 4 → x ≤ 15) := by
    simp [refused]
    omega
  refine hrefused.trans (Iff.trans ?_ Partway.admits_cons.symm)
  by_cases h0 : k = 0
  · subst h0
    simp
    omega
  · by_cases h4 : k = 4
    · subst h4
      simp
      omega
    · simp [h0, h4]
      omega

/-! ## The first piece -/

theorem lead_tail : ∀ k < 64, ¬UInt8.ofNat (0x80 + k) < 0x80 ∧ lead (.ofNat (0x80 + k)) = none := by decide

theorem lead_other : ∀ k < 8, ¬UInt8.ofNat (0xF8 + k) < 0x80 ∧ lead (.ofNat (0xF8 + k)) = none := by decide

theorem next_of_no_lead {b : UInt8} (h : ¬b < 0x80 ∧ lead b = none) (rest : Bytes) :
    next fatal b rest = invalidStep fatal b rest := by
  rw [next, if_neg h.1, h.2, invalidStep, endsWithin, h.2]
  rfl

/-- The step at a piece of the standard. -/
def pieceStep (fatal : Bool) (b : UInt8) (rest : Bytes) : Option Nat × Nat → Step
  | (some cp, k) => .emit (fromCodePoint cp) (rest.drop k)
  | (none, _) => invalidStep fatal b rest

theorem next_more {b : UInt8} {st : Partway} (hread : readLead b = .more st)
    (hlead : ¬b < 0x80 ∧ lead b = some (st.needed, st.codePoint)) (hagrees : Agrees st) (rest : Bytes) :
    next fatal b rest = pieceStep fatal b rest (st.follow rest) := by
  obtain ⟨hb, hlead⟩ := hlead
  obtain ⟨hbounded, hneeded⟩ := Partway.bounded_lead hread
  rcases hfollow : st.follow rest with ⟨item, k⟩
  cases item with
  | some cp => exact next_more_some hb hlead hbounded hneeded hagrees hfollow
  | none => exact next_more_none hb hlead hneeded hagrees hfollow

theorem next_firstPiece (b : UInt8) (rest : Bytes) :
    next fatal b rest = pieceStep fatal b rest (firstPiece b rest) := by
  rw [firstPiece]
  cases byteForm b with
  | one hb =>
      have hlt : b < 0x80 := UInt8.lt_iff_toNat_lt.mpr hb
      rw [readLead_one hb, next, if_pos hlt]
      show _ = Step.emit (fromCodePoint b.toNat) rest
      rw [fromCodePoint, if_pos (by omega)]
  | @tail k hk =>
      rw [readLead_tail k hk]
      exact next_of_no_lead (lead_tail k hk) rest
  | @other k hk =>
      rw [readLead_other k hk]
      exact next_of_no_lead (lead_other k hk) rest
  | @two k hk =>
      have hread := readLead_two k hk
      by_cases hleast : 2 ≤ k
      · rw [if_pos hleast] at hread
        rw [hread]
        exact next_more hread (lead_two hk) (agrees_two hk hleast) rest
      · rw [if_neg hleast] at hread
        rw [hread]
        refine next_refused (lead_two hk) fun bits hsmall hlength _ => ?_
        obtain ⟨x, rfl⟩ := List.length_eq_one_iff.mp hlength
        have hx := hsmall x (List.mem_singleton_self x)
        show refused 1 (k * 64 + x) = true
        simp [refused]
        omega
  | @three k hk =>
      have hread := readLead_three k hk
      rw [hread]
      exact next_more hread (lead_three hk) (agrees_three hk) rest
  | @four k hk =>
      have hread := readLead_four k hk
      by_cases hmost : k ≤ 4
      · rw [if_pos hmost] at hread
        rw [hread]
        exact next_more hread (lead_four hk) (agrees_four hmost) rest
      · rw [if_neg hmost] at hread
        rw [hread]
        refine next_refused (lead_four hk) fun bits hsmall hlength _ => ?_
        obtain ⟨x, y, z, rfl⟩ := List.length_eq_three.mp hlength
        show refused 3 (((k * 64 + x) * 64 + y) * 64 + z) = true
        simp [refused]
        omega

/-! ## The loop -/

/-- What the loop makes of the pieces. -/
def emitted : List Utf8Piece → Units
  | [] => []
  | p :: ps =>
      match p.item with
      | some cp => fromCodePoint cp ++ emitted ps
      | none => if cutOff p ps then [replacement] else List.replicate p.bytes.length replacement ++ emitted ps

theorem decodeUtf8_tails {bits : List Nat} (h : ∀ k ∈ bits, k < 64) (rest : Bytes) :
    decodeUtf8 false false (tails bits ++ rest) =
      (decodeUtf8 false false rest).map fun p => (List.replicate bits.length replacement ++ p.1, p.2) := by
  induction bits with
  | nil =>
      show decodeUtf8 false false rest = (decodeUtf8 false false rest).map fun p => p
      cases decodeUtf8 false false rest <;> rfl
  | cons k bits ih =>
      rw [List.forall_mem_cons] at h
      have hnext := @next_of_no_lead false _ (lead_tail k h.1) (tails bits ++ rest)
      rw [invalidStep, endsWithin, (lead_tail k h.1).2] at hnext
      show decodeUtf8 false false (.ofNat (0x80 + k) :: (tails bits ++ rest)) = _
      rw [decodeUtf8_cons, hnext]
      show (decodeUtf8 false false (tails bits ++ rest)).map _ = _
      rw [ih h.2]
      cases decodeUtf8 false false rest <;> rfl

theorem cutOff_firstPiece {b : UInt8} {bs : Bytes} (h : (firstPiece b bs).1 = none) :
    cutOff ⟨(firstPiece b bs).1, b :: bs.take (firstPiece b bs).2⟩ (utf8Pieces (bs.drop (firstPiece b bs).2)) =
      endsWithin b bs.length := by
  rw [cutOff, pieces_flatten]
  simp only [h, Option.isNone_none, Bool.true_and, List.headD_cons, List.tail_cons, List.take_append_drop]

theorem decodeUtf8_pieces (bytes : Bytes) : decodeUtf8 false false bytes = .ok (emitted (utf8Pieces bytes), []) := by
  induction bytes using pieces_induction with
  | nil => rw [decodeUtf8_nil, pieces_nil, emitted]
  | cons b bs ih =>
      rw [decodeUtf8_cons, next_firstPiece, pieces_cons, emitted]
      cases hitem : (firstPiece b bs).1 with
      | some cp =>
          have hstep : pieceStep false b bs (firstPiece b bs) =
              .emit (fromCodePoint cp) (bs.drop (firstPiece b bs).2) := by
            rw [show firstPiece b bs = (some cp, (firstPiece b bs).2) from Prod.ext hitem rfl]
            rfl
          rw [hstep]
          simp only [ih]
          rfl
      | none =>
          have hstep : pieceStep false b bs (firstPiece b bs) = invalidStep false b bs := by
            rw [show firstPiece b bs = (none, (firstPiece b bs).2) from Prod.ext hitem rfl]
            rfl
          have hcut := cutOff_firstPiece hitem
          rw [hitem] at hcut
          simp only [hcut]
          rw [hstep, invalidStep]
          by_cases hends : endsWithin b bs.length = true
          · rw [if_pos hends, if_pos hends]
            rfl
          · rw [if_neg hends, if_neg hends]
            obtain ⟨bits, hsmall, htake⟩ := firstPiece_tails b bs
            have hbs := List.take_append_drop (firstPiece b bs).2 bs
            rw [htake] at hbs ⊢
            have hrest := decodeUtf8_tails hsmall (bs.drop (firstPiece b bs).2)
            rw [hbs, ih] at hrest
            show (decodeUtf8 false false bs).map _ = _
            rw [hrest, List.length_cons, tails_length]
            rfl

/-! ## Against the standard -/

/-- The string of the standard, with a byte order mark where there is one. -/
def standing (ps : List Utf8Piece) : Units := ps.flatMap fun p => itemUnits p.item

/-- What the loop makes of pieces of which none is cut off. -/
def expanded (ps : List Utf8Piece) : Units :=
  ps.flatMap fun p => if p.item.isNone then List.replicate p.bytes.length replacement else itemUnits p.item

/-- Between the two parts there is nothing, or a piece that is cut off. -/
theorem splitCut_spec (ps : List Utf8Piece) :
    ∃ cut : List Utf8Piece, (cut = [] ∧ (splitCut ps).2 = [] ∨ ∃ p, cut = [p] ∧ p.item = none) ∧
      ps = (splitCut ps).1 ++ (cut ++ (splitCut ps).2) ∧ emitted ps = expanded (splitCut ps).1 ++ standing cut := by
  induction ps with
  | nil => exact ⟨[], .inl ⟨rfl, rfl⟩, rfl, rfl⟩
  | cons p ps ih =>
      by_cases hcut : cutOff p ps = true
      · have hnone : p.item = none := by
          rw [cutOff, Bool.and_eq_true] at hcut
          exact Option.isNone_iff_eq_none.mp hcut.1
        rw [splitCut, if_pos hcut, emitted, hnone]
        simp only [if_pos hcut]
        exact ⟨[p], .inr ⟨p, rfl, hnone⟩, rfl, by simp [expanded, standing, hnone, itemUnits]⟩
      · obtain ⟨cut, hkind, hps, hemitted⟩ := ih
        rw [splitCut, if_neg hcut, emitted]
        refine ⟨cut, hkind, congrArg (p :: ·) hps, ?_⟩
        rw [hemitted]
        simp only [if_neg hcut, expanded, List.flatMap_cons, List.append_assoc]
        cases p.item with
        | none => rfl
        | some cp => rfl

/-- The pieces that a byte string has: a piece is not empty, and a code point is one of a character. -/
def Sound (ps : List Utf8Piece) : Prop :=
  ∀ p ∈ ps, p.bytes ≠ [] ∧ ∀ cp, p.item = some cp → cp < 0xD800 ∨ 0xDFFF < cp ∧ cp < 0x110000

theorem itemUnits_cons {p : Utf8Piece} (hp : ∀ cp, p.item = some cp → cp < 0xD800 ∨ 0xDFFF < cp ∧ cp < 0x110000)
    {u : Nat} {rest : Units} (hu : u < 0xD800 ∨ 0xDFFF < u) (h : itemUnits p.item = u :: rest) :
    rest = [] ∧ (p.item = some u ∨ p.item = none ∧ u = replacement) := by
  cases hitem : p.item with
  | none =>
      rw [hitem] at h
      cases h
      exact ⟨rfl, .inr ⟨rfl, rfl⟩⟩
  | some cp =>
      have hcp := hp cp hitem
      rw [hitem, itemUnits, fromCodePoint] at h
      split at h
      · cases h
        exact ⟨rfl, .inl rfl⟩
      · simp only [List.cons.injEq, Nat.shiftRight_eq_div_pow] at h
        omega

theorem itemUnits_ne_nil (item : Option Nat) : itemUnits item ≠ [] := by
  cases item with
  | none => exact List.cons_ne_nil _ _
  | some cp =>
      rw [itemUnits, fromCodePoint]
      split <;> exact List.cons_ne_nil _ _

theorem standing_replicate {ps : List Utf8Piece} (h : ∀ p ∈ ps, itemUnits p.item = [replacement]) :
    standing ps = List.replicate ps.length replacement := by
  induction ps with
  | nil => rfl
  | cons p ps ih =>
      rw [List.forall_mem_cons] at h
      rw [standing, List.flatMap_cons, h.1, ← standing, ih h.2]
      rfl

/-- A string of replacement characters comes from pieces that each stand for one. -/
theorem replaced_of_standing {ps : List Utf8Piece} (hsound : Sound ps) {n : Nat}
    (h : standing ps = List.replicate n replacement) : (∀ p ∈ ps, itemUnits p.item = [replacement]) ∧ ps.length = n := by
  induction ps generalizing n with
  | nil => exact ⟨by simp, by simpa [standing] using congrArg List.length h⟩
  | cons p ps ih =>
      rw [Sound, List.forall_mem_cons] at hsound
      rw [standing, List.flatMap_cons, ← standing] at h
      cases n with
      | zero => exact absurd (List.append_eq_nil_iff.mp h).1 (itemUnits_ne_nil _)
      | succ n =>
          obtain ⟨u, rest, hunits⟩ := List.exists_cons_of_ne_nil (itemUnits_ne_nil p.item)
          rw [hunits, List.cons_append, List.replicate_succ, List.cons.injEq] at h
          obtain ⟨rfl, hrest⟩ := h
          obtain ⟨rfl, -⟩ := itemUnits_cons hsound.1.2 (by decide) hunits
          obtain ⟨hps, hlength⟩ := ih hsound.2 hrest
          exact ⟨List.forall_mem_cons.mpr ⟨hunits, hps⟩, congrArg (· + 1) hlength⟩

theorem expanded_cons (p : Utf8Piece) (ps : List Utf8Piece) :
    expanded (p :: ps) =
      (if p.item.isNone then List.replicate p.bytes.length replacement else itemUnits p.item) ++ expanded ps := rfl

theorem standing_cons (p : Utf8Piece) (ps : List Utf8Piece) : standing (p :: ps) = itemUnits p.item ++ standing ps := rfl

theorem surplus_cons (p : Utf8Piece) (ps : List Utf8Piece) :
    surplus (p :: ps) = (if p.item.isNone then p.bytes.tail else []) ++ surplus ps := rfl

/-- What the loop makes of a piece that stands for U+FFFD, and how much of it is surplus. -/
theorem expanded_head {p : Utf8Piece} (hbytes : p.bytes ≠ []) (h : itemUnits p.item = [replacement]) :
    ∃ n, (if p.item.isNone then List.replicate p.bytes.length replacement else itemUnits p.item) =
        List.replicate (n + 1) replacement ∧ (if p.item.isNone then p.bytes.tail else []).length = n := by
  cases hitem : p.item with
  | some cp =>
      rw [hitem] at h
      exact ⟨0, h, rfl⟩
  | none =>
      obtain ⟨b, bytes, hcons⟩ := List.exists_cons_of_ne_nil hbytes
      exact ⟨bytes.length, by simp [hcons], by simp [hcons]⟩

/-- With a replacement character too many in front, all that follows is replacement characters. -/
theorem shifted {before cut after : List Utf8Piece} (hbefore : Sound before) (hafter : Sound after)
    (hcut : standing cut = [] ∨ standing cut = [replacement]) {m : Nat} (hm : 0 < m)
    (h : List.replicate m replacement ++ (expanded before ++ standing cut) =
      standing before ++ (standing cut ++ standing after)) :
    (∀ p ∈ before ++ after, itemUnits p.item = [replacement]) ∧ m + (surplus before).length = after.length := by
  induction before generalizing m with
  | nil =>
      have hshift : List.replicate m replacement ++ standing cut = standing cut ++ standing after := h
      have hreplicate : standing after = List.replicate m replacement := by
        rcases hcut with hcut | hcut
        · simpa [hcut] using hshift.symm
        · rw [hcut, ← List.replicate_succ', List.replicate_succ, List.singleton_append] at hshift
          exact (List.cons.inj hshift).2.symm
      obtain ⟨hall, hlength⟩ := replaced_of_standing hafter hreplicate
      exact ⟨hall, hlength.symm⟩
  | cons p ps ih =>
      rw [Sound, List.forall_mem_cons] at hbefore
      obtain ⟨m, rfl⟩ := Nat.exists_eq_succ_of_ne_zero hm.ne'
      obtain ⟨u, rest, hunits⟩ := List.exists_cons_of_ne_nil (itemUnits_ne_nil p.item)
      rw [standing_cons, hunits, Nat.succ_eq_add_one, List.replicate_succ] at h
      obtain ⟨hu, htail⟩ := List.cons.inj h
      subst hu
      obtain ⟨rfl, -⟩ := itemUnits_cons hbefore.1.2 (by decide) hunits
      obtain ⟨n, hhead, hsurplus⟩ := expanded_head hbefore.1.1 hunits
      have hshift : List.replicate (m + (n + 1)) replacement ++ (expanded ps ++ standing cut) =
          standing ps ++ (standing cut ++ standing after) := by
        rw [List.replicate_add, ← hhead, List.append_assoc, ← List.append_assoc _ (expanded ps), ← expanded_cons]
        exact htail
      obtain ⟨hall, hlength⟩ := ih hbefore.2 (by omega) hshift
      refine ⟨List.forall_mem_cons.mpr ⟨hunits, hall⟩, ?_⟩
      rw [surplus_cons, List.length_append, hsurplus]
      omega

/-- Pieces that are written as the standard has them, or the first that is not. -/
theorem front_split (ps : List Utf8Piece) :
    ∃ front back, ps = front ++ back ∧ (∀ p ∈ front, p.item = none → p.bytes.length = 1) ∧
      (back = [] ∨ ∃ p back', back = p :: back' ∧ p.item = none ∧ p.bytes.length ≠ 1) := by
  induction ps with
  | nil => exact ⟨[], [], rfl, by simp, .inl rfl⟩
  | cons p ps ih =>
      by_cases hp : p.item = none → p.bytes.length = 1
      · obtain ⟨front, back, hsplit, hfront, hback⟩ := ih
        exact ⟨p :: front, back, congrArg (p :: ·) hsplit, List.forall_mem_cons.mpr ⟨hp, hfront⟩, hback⟩
      · rw [Classical.not_imp] at hp
        exact ⟨[], p :: ps, rfl, by simp, .inr ⟨p, ps, rfl, hp⟩⟩

theorem expanded_front {front : List Utf8Piece} (h : ∀ p ∈ front, p.item = none → p.bytes.length = 1) :
    expanded front = standing front := by
  induction front with
  | nil => rfl
  | cons p front ih =>
      rw [List.forall_mem_cons] at h
      rw [expanded_cons, standing_cons, ih h.2]
      cases hitem : p.item with
      | none => simp [h.1 hitem, itemUnits]
      | some cp => rfl

theorem expanded_append (ps qs : List Utf8Piece) : expanded (ps ++ qs) = expanded ps ++ expanded qs := List.flatMap_append

theorem standing_append (ps qs : List Utf8Piece) : standing (ps ++ qs) = standing ps ++ standing qs := List.flatMap_append

/-- Pieces that stand for U+FFFD give one replacement character for each, and those that are surplus. -/
theorem expanded_replaced {ps : List Utf8Piece} (hsound : Sound ps) (h : ∀ p ∈ ps, itemUnits p.item = [replacement]) :
    expanded ps = List.replicate (ps.length + (surplus ps).length) replacement := by
  induction ps with
  | nil => rfl
  | cons p ps ih =>
      rw [Sound, List.forall_mem_cons] at hsound
      rw [List.forall_mem_cons] at h
      obtain ⟨n, hhead, hsurplus⟩ := expanded_head hsound.1.1 h.1
      rw [expanded_cons, hhead, ih hsound.2 h.2, ← List.replicate_add, surplus_cons, List.length_append, hsurplus,
        List.length_cons]
      congr 1
      omega

theorem emitted_eq_standing_iff {ps : List Utf8Piece} (hsound : Sound ps) : emitted ps = standing ps ↔ Even ps := by
  obtain ⟨cut, hkind, hps, hemitted⟩ := splitCut_spec ps
  generalize hbefore : (splitCut ps).1 = before at *
  generalize hafter : (splitCut ps).2 = after at *
  have hsoundBefore : Sound before := fun p hp => hsound p (by rw [hps]; exact List.mem_append_left _ hp)
  have hsoundAfter : Sound after := fun p hp =>
    hsound p (by rw [hps]; exact List.mem_append_right _ (List.mem_append_right _ hp))
  have hcut : standing cut = [] ∨ standing cut = [replacement] := by
    rcases hkind with ⟨rfl, -⟩ | ⟨p, rfl, hp⟩
    · exact .inl rfl
    · exact .inr (by simp [standing, hp, itemUnits])
  have hstanding : standing ps = standing before ++ (standing cut ++ standing after) := by
    conv_lhs => rw [hps]
    rw [standing_append, standing_append]
  rw [hemitted, hstanding]
  constructor
  · intro h
    obtain ⟨front, back, rfl, hfront, hback⟩ := front_split before
    refine ⟨front, back, hbefore, hfront, ?_⟩
    rw [hafter]
    rw [expanded_append, standing_append, expanded_front hfront, List.append_assoc, List.append_assoc] at h
    have h := List.append_cancel_left h
    rcases hback with rfl | ⟨p, back, rfl, hitem, hlength⟩
    · have hnone : standing after = List.replicate 0 replacement := List.self_eq_append_right.mp h
      obtain ⟨hall, hlength⟩ := replaced_of_standing hsoundAfter hnone
      exact ⟨hall, hlength.symm⟩
    · have hsoundBack : Sound (p :: back) := fun q hq => hsoundBefore q (List.mem_append_right _ hq)
      rw [Sound, List.forall_mem_cons] at hsoundBack
      obtain ⟨m, hm⟩ := Nat.exists_eq_succ_of_ne_zero (List.length_pos_iff.mpr hsoundBack.1.1).ne'
      have hunits : itemUnits p.item = [replacement] := by rw [hitem, itemUnits]
      have hshift : List.replicate m replacement ++ (expanded back ++ standing cut) =
          standing back ++ (standing cut ++ standing after) := by
        rw [expanded_cons, standing_cons, hunits, hitem, hm, Nat.succ_eq_add_one, List.replicate_succ] at h
        simpa using h
      obtain ⟨hrest, hsurplus⟩ := shifted hsoundBack.2 hsoundAfter hcut (by omega) hshift
      refine ⟨List.forall_mem_cons.mpr ⟨hunits, hrest⟩, ?_⟩
      rw [surplus_cons, hitem, List.length_append, ← hsurplus]
      simp [hm]
  · rintro ⟨front, back, hsplit, hfront, hall, hlength⟩
    rw [hbefore] at hsplit
    rw [hafter] at hall hlength
    subst hsplit
    have hback : ∀ p ∈ back, itemUnits p.item = [replacement] := fun p hp => hall p (List.mem_append_left _ hp)
    have hexpanded := expanded_replaced (fun p hp => hsoundBefore p (List.mem_append_right _ hp)) hback
    rw [expanded_append, standing_append, expanded_front hfront, hexpanded, standing_replicate hback,
      standing_replicate fun p hp => hall p (List.mem_append_right _ hp), hlength, List.append_assoc, List.append_assoc]
    rcases hcut with hcut | hcut
    · rw [hcut, List.replicate_add, List.append_nil, List.nil_append]
    · rw [hcut, List.replicate_add, List.append_assoc, ← List.replicate_succ', List.replicate_succ]
      rfl

/-- A byte order mark that is kept is not made up for. -/
theorem mark_kept {ps : List Utf8Piece} (hsound : Sound ps) : 0xFEFF :: emitted ps ≠ standing ps := by
  induction ps with
  | nil => exact List.cons_ne_nil _ _
  | cons p ps ih =>
      rw [Sound, List.forall_mem_cons] at hsound
      intro h
      rw [standing_cons] at h
      obtain ⟨u, rest, hunits⟩ := List.exists_cons_of_ne_nil (itemUnits_ne_nil p.item)
      rw [hunits, List.cons_append, List.cons.injEq] at h
      obtain ⟨rfl, h⟩ := h
      obtain ⟨rfl, hitem | ⟨-, hmark⟩⟩ := itemUnits_cons hsound.1.2 (by decide) hunits
      · rw [emitted, hitem] at h
        exact ih hsound.2 h
      · exact absurd hmark (by decide)

/-! ## The pieces of a byte string -/

theorem sound_pieces (bytes : Bytes) : Sound (utf8Pieces bytes) := by
  refine fun p hp => ⟨?_, fun cp hcp => ?_⟩
  · induction bytes using pieces_induction with
    | nil =>
        rw [pieces_nil] at hp
        cases hp
    | cons b bs ih =>
        rw [pieces_cons] at hp
        rcases List.mem_cons.mp hp with rfl | hp
        · exact List.cons_ne_nil _ _
        · exact ih hp
  · obtain ⟨c, rfl, -⟩ := pieces_encode hp hcp
    exact c.valid

theorem mark_iff {bytes : Bytes} :
    byteOrderMark <+: bytes ↔ ∃ p ps, utf8Pieces bytes = p :: ps ∧ p.item = some 0xFEFF := by
  constructor
  · rintro ⟨rest, rfl⟩
    exact ⟨_, _, pieces_cons 0xEF (0xBB :: 0xBF :: rest), rfl⟩
  · rintro ⟨p, ps, hpieces, hitem⟩
    obtain ⟨c, hc, hencode⟩ := pieces_encode (hpieces ▸ List.mem_cons_self) hitem
    have hmark : encodeChar c = byteOrderMark := by
      rw [← Char.ofNat_toNat c, hc]
      decide
    rw [← pieces_flatten bytes, hpieces, List.flatMap_cons, ← hencode, hmark]
    exact List.prefix_append _ _

theorem standardDecode_eq (bytes : Bytes) :
    (byteOrderMark <+: bytes ∧ ∃ p ps, utf8Pieces bytes = p :: ps ∧ p.item = some 0xFEFF ∧ standardDecode bytes = standing ps) ∨
      (¬byteOrderMark <+: bytes ∧ standardDecode bytes = standing (utf8Pieces bytes)) := by
  have hstanding : ∀ ps : List Utf8Piece, (ps.map Utf8Piece.item).flatMap itemUnits = standing ps := by
    intro ps
    rw [List.flatMap_map]
    rfl
  by_cases hmark : byteOrderMark <+: bytes
  · obtain ⟨p, ps, hpieces, hitem⟩ := mark_iff.mp hmark
    refine .inl ⟨hmark, p, ps, hpieces, hitem, ?_⟩
    rw [standardDecode, decoder_eq_pieces, hpieces, List.map_cons, hitem]
    exact hstanding ps
  · refine .inr ⟨hmark, ?_⟩
    rw [standardDecode, decoder_eq_pieces]
    split
    · rename_i items hitems
      obtain ⟨p, ps, hpieces, hitem, -⟩ := List.map_eq_cons_iff.mp hitems
      exact absurd (mark_iff.mpr ⟨p, ps, hpieces, hitem⟩) hmark
    · exact hstanding _

theorem lossy_iff (bytes : Bytes) :
    ((new .utf8 false).decode bytes false).2 = .ok (standardDecode bytes) ↔
      ¬byteOrderMark <+: bytes ∧ Even (utf8Pieces bytes) := by
  have hsound := sound_pieces bytes
  rw [new, decode_utf8, List.nil_append, decodeUtf8_pieces]
  show Except.ok (emitted (utf8Pieces bytes)) = _ ↔ _
  rw [Except.ok.injEq]
  rcases standardDecode_eq bytes with ⟨hmark, p, ps, hpieces, hitem, hstandard⟩ | ⟨hmark, hstandard⟩
  · rw [hpieces, Sound, List.forall_mem_cons] at hsound
    refine iff_of_false ?_ fun h => h.1 hmark
    rw [hstandard, hpieces, emitted, hitem]
    exact mark_kept hsound.2
  · rw [hstandard, emitted_eq_standing_iff hsound]
    exact (and_iff_right hmark).symm

theorem fatal_iff (bytes : Bytes) :
    (∃ p, decodeUtf8 true false bytes = .ok p) ↔ ∀ p ∈ utf8Pieces bytes, p.item ≠ none := by
  induction bytes using pieces_induction with
  | nil =>
      rw [pieces_nil]
      exact iff_of_true ⟨_, decodeUtf8_nil⟩ (List.forall_mem_nil _)
  | cons b bs ih =>
      rw [decodeUtf8_cons, next_firstPiece, pieces_cons, List.forall_mem_cons, ← ih]
      rcases hpiece : firstPiece b bs with ⟨item, k⟩
      cases item with
      | some cp =>
          show (∃ p, (decodeUtf8 true false (bs.drop k)).map _ = .ok p) ↔ _
          cases decodeUtf8 true false (bs.drop k) with
          | error e => simp [Except.map]
          | ok p => simp [Except.map]
      | none =>
          refine iff_of_false ?_ fun h => h.1 rfl
          rintro ⟨p, hp⟩
          rw [pieceStep, invalidStep] at hp
          by_cases hends : endsWithin b bs.length = true
          · rw [if_pos hends] at hp
            cases hp
          · rw [if_neg hends] at hp
            cases hp

theorem throws_iff (bytes : Bytes) :
    (∃ e, ((new .utf8 true).decode bytes false).2 = .error e) ↔ ¬∃ text, encodeUtf8 text = bytes := by
  rw [new, decode_utf8, List.nil_append]
  constructor
  · rintro ⟨e, he⟩ ⟨text, rfl⟩
    have hdecode := @decodeUtf8_encodeUtf8 true false text []
    rw [List.append_nil, decodeUtf8_nil] at hdecode
    rw [hdecode] at he
    cases he
  · intro hill
    cases hdecode : decodeUtf8 true false bytes with
    | error e => exact ⟨e, rfl⟩
    | ok p => exact absurd (encoded_of_pieces ((fatal_iff bytes).mp ⟨p, hdecode⟩)) hill

theorem decode_encoded (fatal : Bool) (text : Str) :
    ((new .utf8 fatal).decode (encodeUtf8 text) false).2 = .ok (units text) := by
  have hdecode := @decodeUtf8_encodeUtf8 fatal false text []
  rw [List.append_nil, decodeUtf8_nil] at hdecode
  rw [new, decode_utf8, List.nil_append, hdecode]
  simp [Except.map]

end TextDecoder

end ThreeVa.Js
