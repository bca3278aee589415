import Mathlib.Data.Nat.Digits.Lemmas
import ThreeVa.Js.SourceMaps

namespace ThreeVa.Js.SourceMaps
open Text

/-! ## Digits -/

theorem wrapI64_eq {n : Int} (h0 : 0 ≤ n) (h : n < 2 ^ 62) : wrapI64 n = n := by
  unfold wrapI64
  rw [Int.bmod_def]
  simp only [Nat.cast_pow, Nat.cast_ofNat, Int.reducePow]
  omega

theorem ofNat_toNat {n : Nat} (h : n < 0xD800) : (Char.ofNat n).toNat = n := by
  have hvalid : n.isValidChar := .inl h
  unfold Char.ofNat
  rw [dif_pos hvalid]
  exact UInt32.toNat_ofNatLT

/-- A digit that is followed by another is one byte. -/
theorem encodeChar_continued (value : Nat) :
    ∃ b : UInt8, encodeChar (Char.ofNat (value % 32 + 32 + 63)) = [b] ∧ b.toNat = value % 32 + 95 := by
  have hchar := ofNat_toNat (show value % 32 + 32 + 63 < 0xD800 by omega)
  refine ⟨.ofNat (value % 32 + 95), ?_, toNat_ofNat_uint8 (by omega)⟩
  unfold encodeChar
  simp only [hchar]
  rw [if_pos (by omega)]

/-- The last digit begins with a byte that `decode_vlq` does not read. -/
theorem encodeChar_last (value : Nat) :
    ∃ (b : UInt8) (more : Bytes), encodeChar (Char.ofNat (value % 32 + 64 + 63)) = b :: more ∧ 96 < b.toNat := by
  have hchar := ofNat_toNat (show value % 32 + 64 + 63 < 0xD800 by omega)
  unfold encodeChar
  simp only [hchar]
  split
  · exact ⟨_, [], rfl, by rw [toNat_ofNat_uint8 (by omega)]; omega⟩
  · rw [if_pos (by omega)]
    exact ⟨_, _, rfl, by rw [toNat_ofNat_uint8 (by omega)]; omega⟩

theorem encodeUtf8_cons (c : Char) (s : Str) : encodeUtf8 (c :: s) = encodeChar c ++ encodeUtf8 s := List.flatMap_cons

/-- The bytes of a number are its leading digits and one that is not read. -/
theorem encodeDigits_bytes (value : Nat) (rest : Bytes) :
    ∃ (lead : Bytes) (b : UInt8) (more : Bytes), encodeUtf8 (encodeDigits value) ++ rest = lead ++ b :: more ∧
      96 < b.toNat ∧ lead.map UInt8.toNat = (leadingDigits value).map (· + 95) := by
  induction value using Nat.strongRecOn with
  | ind value ih =>
      rw [encodeDigits, leadingDigits]
      split
      · rename_i hlast
        obtain ⟨b, more, hb, hlt⟩ := encodeChar_last value
        refine ⟨[], b, more ++ rest, ?_, hlt, by simp [hlast]⟩
        rw [encodeUtf8_cons, hb]
        simp [encodeUtf8]
      · rename_i hmore
        obtain ⟨b, hb, hbyte⟩ := encodeChar_continued value
        by_cases hbit : 1 < value % 32
        · refine ⟨[], b, encodeUtf8 (encodeDigits (value / 32)) ++ rest, ?_, by omega, by simp [hbit]⟩
          rw [encodeUtf8_cons, hb]
          rfl
        · obtain ⟨lead, b', more, hbytes, hlt, hlead⟩ := ih (value / 32) (by omega)
          refine ⟨b :: lead, b', more, ?_, hlt, ?_⟩
          · rw [encodeUtf8_cons, hb, List.append_assoc, hbytes]
            rfl
          · rw [if_neg (by omega), List.map_cons, List.map_cons, hlead, hbyte]

theorem leadingDigits_le_one (value : Nat) : ∀ d ∈ leadingDigits value, d ≤ 1 := by
  induction value using Nat.strongRecOn with
  | ind value ih =>
      rw [leadingDigits]
      split
      · simp
      · exact List.forall_mem_cons.mpr ⟨by omega, ih (value / 32) (by omega)⟩

/-- What is read is far below the number. -/
theorem ofDigits_leadingDigits (value : Nat) (hpos : 0 < value) :
    31 * Nat.ofDigits 32 (leadingDigits value) + 1 ≤ value ∧ 32 ^ (leadingDigits value).length ≤ value := by
  induction value using Nat.strongRecOn with
  | ind value ih =>
      rw [leadingDigits]
      split
      · simp only [Nat.ofDigits_nil, List.length_nil]
        omega
      · obtain ⟨hread, hlength⟩ := ih (value / 32) (by omega) (by omega)
        rw [Nat.ofDigits_cons, List.length_cons, Nat.pow_succ]
        omega

theorem length_leadingDigits_lt (value : Nat) : (leadingDigits value).length < (encodeDigits value).length := by
  induction value using Nat.strongRecOn with
  | ind value ih =>
      rw [encodeDigits, leadingDigits]
      by_cases hlast : value / 32 = 0
      · rw [if_pos hlast, if_pos (.inl hlast)]
        exact Nat.succ_pos _
      · rw [if_neg hlast]
        split
        · exact Nat.succ_pos _
        · rw [List.length_cons, List.length_cons]
          exact Nat.succ_lt_succ (ih (value / 32) (by omega))

theorem length_le_encodeUtf8 (s : Str) : s.length ≤ (encodeUtf8 s).length := by
  induction s with
  | nil => exact Nat.zero_le _
  | cons c s ih =>
      have hc := List.length_pos_iff.mpr (encodeChar_ne_nil c)
      rw [encodeUtf8_cons, List.length_cons, List.length_append]
      omega

/-! ## Reading a number -/

theorem decodeDigits_lead (checks : Bool) {lead : Bytes} {digits : List Nat} (hlead : lead.map UInt8.toNat = digits.map (· + 95))
    (hbits : ∀ d ∈ digits, d ≤ 1) {b : UInt8} (hb : 96 < b.toNat) (more : Bytes) (idx result : Nat)
    (hresult : result < 32 ^ idx) (hidx : idx + digits.length ≤ 12) :
    decodeDigits checks idx (5 * idx) result (lead ++ b :: more) =
      .ok ((result + Nat.ofDigits 32 digits * 32 ^ idx : Nat), idx + digits.length) := by
  induction digits generalizing lead idx result with
  | nil =>
      obtain rfl := List.map_eq_nil_iff.mp hlead
      rw [List.nil_append, decodeDigits, if_neg (by omega)]
      simp
  | cons d digits ih =>
      obtain ⟨x, lead, rfl⟩ : ∃ x rest, lead = x :: rest := by
        cases lead with
        | nil => cases hlead
        | cons x rest => exact ⟨x, rest, rfl⟩
      rw [List.map_cons, List.map_cons, List.cons.injEq] at hlead
      rw [List.forall_mem_cons] at hbits
      rw [List.length_cons] at hidx
      have hpow : 32 ^ idx ≤ 32 ^ 11 := Nat.pow_le_pow_right (by decide) (by omega)
      have hshift : (2 : Nat) ^ (5 * idx) = 32 ^ idx := Nat.pow_mul 2 5 idx
      have hbyte : x.toNat - 63 = d + 32 := by omega
      have hpart : d * 32 ^ idx ≤ 1 * 32 ^ idx := Nat.mul_le_mul_right _ hbits.1
      have hnext : 32 ^ (idx + 1) = 32 * 32 ^ idx := by rw [Nat.pow_succ, Nat.mul_comm]
      generalize hplace : 32 ^ idx = place at *
      have hshl : shlI64 checks ((d + 32) % 32) (5 * idx) = .ok ((d * place : Nat) : Int) := by
        have hd : (d + 32) % 32 = d := by omega
        have hmod : 5 * idx % 64 = 5 * idx := by omega
        have hcast : (d : Int) * 2 ^ (5 * idx) = ((d * place : Nat) : Int) := by
          rw [← hshift]
          push_cast
          rfl
        unfold shlI64
        rw [hd, hmod, hcast, wrapI64_eq (by omega) (by omega), if_neg (by simp; omega)]
      have hadd : addI64 checks result ((d * place : Nat) : Int) = .ok ((result + d * place : Nat) : Int) := by
        unfold addI64
        rw [← Int.natCast_add, wrapI64_eq (by omega) (by omega), if_neg (by simp)]
      rw [List.cons_append, decodeDigits, if_pos (by omega), subByte, if_pos (by omega), hbyte, ok_bind, hshl, ok_bind,
        hadd, ok_bind, if_pos (by omega), show 5 * idx + 5 = 5 * (idx + 1) by omega,
        ih hlead.2 hbits.2 _ _ (by omega) (by omega), Nat.ofDigits_cons, List.length_cons, hnext]
      have hvalue : result + d * place + Nat.ofDigits 32 digits * (32 * place) =
          result + (d + 32 * Nat.ofDigits 32 digits) * place := by ring
      rw [hvalue, Nat.add_right_comm, Nat.add_assoc idx]

theorem leadingDigits_bounds {value : Nat} (h : value < 2 ^ 33) :
    (leadingDigits value).length ≤ 6 ∧ Nat.ofDigits 32 (leadingDigits value) < 2 ^ 30 := by
  cases value with
  | zero => simp [leadingDigits]
  | succ n =>
      obtain ⟨hread, hlength⟩ := ofDigits_leadingDigits (n + 1) (Nat.succ_pos n)
      refine ⟨?_, by omega⟩
      by_contra hlong
      have hpow : 32 ^ 7 ≤ 32 ^ (leadingDigits (n + 1)).length := Nat.pow_le_pow_right (by decide) (by omega)
      omega

/-- Only the leading digits are read, and from there on nothing. -/
theorem decodeVlq_encodeDigits (checks : Bool) {value : Nat} (h : value < 2 ^ 33) (rest : Bytes) :
    decodeVlq checks (encodeUtf8 (encodeDigits value) ++ rest) =
        .ok ((Nat.ofDigits 32 (leadingDigits value) : Nat), (leadingDigits value).length) ∧
      decodeVlq checks ((encodeUtf8 (encodeDigits value) ++ rest).drop (leadingDigits value).length) = .ok (0, 0) := by
  obtain ⟨lead, b, more, hbytes, hb, hlead⟩ := encodeDigits_bytes value rest
  obtain ⟨hlength, hsmall⟩ := leadingDigits_bounds h
  have hsame : lead.length = (leadingDigits value).length := by simpa using congrArg List.length hlead
  constructor
  · have hread := decodeDigits_lead checks hlead (leadingDigits_le_one value) hb more 0 0 (by decide)
      (by omega)
    rw [Nat.zero_add, Nat.pow_zero, Nat.mul_one, Nat.zero_add] at hread
    rw [hbytes, decodeVlq]
    change decodeDigits checks 0 0 0 (lead ++ b :: more) = _ at hread
    rw [hread, ok_bind]
    simp only
    rw [if_neg (by omega)]
    rfl
  · rw [hbytes, ← hsame, List.drop_left, decodeVlq, decodeDigits, if_neg (by omega)]
    rfl

/-- No number is read as it was written: its last digit never is. -/
theorem decodeVlq_encodeVlq (checks : Bool) {n : Int} (h : n.natAbs < 2 ^ 31) :
    ∃ m i, decodeVlq checks (encodeUtf8 (encodeVlq n)) = .ok (m, i) ∧ i < (encodeVlq n).length := by
  unfold encodeVlq
  generalize hvalue : (if n < 0 then n.natAbs * 2 + 1 else n.natAbs * 2) = value
  have hsmall : value < 2 ^ 33 := by
    subst hvalue
    split <;> omega
  obtain ⟨hread, -⟩ := decodeVlq_encodeDigits checks hsmall []
  rw [List.append_nil] at hread
  exact ⟨_, _, hread, length_leadingDigits_lt value⟩

/-! ## Reading segments -/

theorem vlq_eq (n : UInt32) : vlq n = encodeDigits (n.toNat * 2) := by
  unfold vlq encodeVlq
  rw [if_neg (by omega), Int.natAbs_natCast]

/-- A segment that begins with a number. -/
def Begins (segment : Str) (n : UInt32) : Prop := ∃ tail, segment = vlq n ++ tail

theorem Begins.ne_nil {segment : Str} {n : UInt32} (h : Begins segment n) : segment ≠ [] := by
  obtain ⟨tail, rfl⟩ := h
  rw [vlq_eq, encodeDigits]
  split <;> simp

/-- Of a segment only what its first number says is read. -/
theorem Decoder.segment_eq (checks : Bool) (st : Decoder) {segment : Str} {n : UInt32} (h : Begins segment n) :
    st.segment checks segment = .ok { st with genCol := st.genCol + readNumber n } := by
  obtain ⟨tail, rfl⟩ := h
  have hsmall : n.toNat * 2 < 2 ^ 33 := by have := n.toNat_lt; omega
  obtain ⟨hread, hnone⟩ := decodeVlq_encodeDigits checks hsmall (encodeUtf8 tail)
  rw [← vlq_eq, ← encodeUtf8_append] at hread hnone
  have hnumber : UInt32.ofInt (Nat.ofDigits 32 (leadingDigits (n.toNat * 2)) : Nat) = readNumber n := by
    have hbound := (leadingDigits_bounds hsmall).2
    unfold UInt32.ofInt readNumber
    congr 1
    omega
  unfold Decoder.segment
  simp only [hread, ok_bind, hnumber]
  split
  · rfl
  · simp only [hnone, ok_bind]
    rw [if_pos (.inl trivial), show UInt32.ofInt 0 = 0 from rfl, UInt32.add_zero]
    rfl

/-! ## Reading lines -/

/-- The columns that come to a number, from one on. -/
def ReachesFrom (start column : UInt32) (numbers : List UInt32) : Prop :=
  ∃ k < numbers.length, column ≤ start + ((numbers.take (k + 1)).map readNumber).sum

theorem reachesFrom_cons {start column n : UInt32} {numbers : List UInt32} :
    ReachesFrom start column (n :: numbers) ↔
      column ≤ start + readNumber n ∨ ReachesFrom (start + readNumber n) column numbers := by
  constructor
  · rintro ⟨k, hk, hle⟩
    cases k with
    | zero => exact .inl (by simpa using hle)
    | succ k =>
        rw [List.take_succ_cons, List.map_cons, List.sum_cons, ← UInt32.add_assoc] at hle
        exact .inr ⟨k, Nat.lt_of_succ_lt_succ hk, hle⟩
  · rintro (hle | ⟨k, hk, hle⟩)
    · exact ⟨0, Nat.succ_pos _, by simpa using hle⟩
    · refine ⟨k + 1, Nat.succ_lt_succ hk, ?_⟩
      rw [List.take_succ_cons, List.map_cons, List.sum_cons, ← UInt32.add_assoc]
      exact hle

theorem reaches_iff {column : UInt32} {numbers : List UInt32} :
    Reaches column numbers ↔ ReachesFrom 0 column numbers := by
  simp only [Reaches, ReachesFrom, UInt32.zero_add]

/-- The source position does not move. -/
def Decoder.AtOrigin (st : Decoder) : Prop := st.srcIdx = 0 ∧ st.srcLine = 0 ∧ st.srcCol = 0

theorem Decoder.segments_spec (checks wanted : Bool) (column : UInt32) (st : Decoder) (hst : st.AtOrigin)
    {segments : List Str} {numbers : List UInt32} (h : List.Forall₂ Begins segments numbers) :
    ∃ st' found, Decoder.segments checks wanted column st segments = .ok (st', found) ∧ st'.AtOrigin ∧
      (found = true ↔ wanted = true ∧ ReachesFrom st.genCol column numbers) := by
  induction h generalizing st with
  | nil => exact ⟨st, false, rfl, hst, by simp [ReachesFrom]⟩
  | @cons segment n segments numbers hbegins _ ih =>
      rw [Decoder.segments, if_neg hbegins.ne_nil, Decoder.segment_eq checks st hbegins, ok_bind]
      rw [reachesFrom_cons]
      by_cases hfound : wanted = true ∧ column ≤ st.genCol + readNumber n
      · exact ⟨_, true, if_pos hfound, hst, by simp [hfound]⟩
      · obtain ⟨st', found, hrun, horigin, hiff⟩ := ih { st with genCol := st.genCol + readNumber n } hst
        refine ⟨st', found, (if_neg hfound).trans hrun, horigin, hiff.trans ?_⟩
        exact and_congr_right fun hw => ⟨.inr, fun h => h.resolve_left fun hle => hfound ⟨hw, hle⟩⟩

/-- The lines of mappings, each with the numbers that its segments begin with. -/
def Lists (texts : List Str) (numbers : List (List UInt32)) : Prop :=
  List.Forall₂ (fun text ns => List.Forall₂ Begins (text.splitOn ',') ns) texts numbers

theorem Decoder.lines_spec (checks : Bool) (line column : UInt32) {texts : List Str} {numbers : List (List UInt32)}
    (h : Lists texts numbers) (idx : Nat) (st : Decoder) (hst : st.AtOrigin) :
    ∃ found, Decoder.lines checks line column idx st texts = .ok found ∧ (∀ st' ∈ found, st'.AtOrigin) ∧
      (found.isSome = true ↔ ∃ k ns, idx + k + 1 = line.toNat ∧ numbers[k]? = some ns ∧ Reaches column ns) := by
  induction h generalizing idx st with
  | nil => exact ⟨none, rfl, by simp, by simp⟩
  | @cons text ns texts numbers hline _ ih =>
      obtain ⟨st', found, hrun, horigin, hiff⟩ := Decoder.segments_spec checks (idx + 1 = line.toNat) column
        { st with genCol := 0 } hst hline
      rw [← reaches_iff, decide_eq_true_eq] at hiff
      rw [Decoder.lines, hrun, ok_bind]
      cases found with
      | true =>
          obtain ⟨hidx, hreach⟩ := hiff.mp rfl
          refine ⟨some st', rfl, fun st'' h => by cases h; exact horigin, ?_⟩
          exact ⟨fun _ => ⟨0, ns, hidx, rfl, hreach⟩, fun _ => rfl⟩
      | false =>
          obtain ⟨rest, hrest, hall, hsome⟩ := ih (idx + 1) _ horigin
          refine ⟨rest, hrest, hall, hsome.trans ⟨?_, ?_⟩⟩
          · rintro ⟨k, ns', hk, hget, hreach⟩
            exact ⟨k + 1, ns', by omega, hget, hreach⟩
          · rintro ⟨k, ns', hk, hget, hreach⟩
            cases k with
            | zero =>
                cases hget
                exact absurd (hiff.mpr ⟨hk, hreach⟩) (by decide)
            | succ k => exact ⟨k, ns', by omega, hget, hreach⟩

/-- A stored map only ever answers the first position of the source. -/
theorem applySourceMapJson_spec (checks : Bool) (file : Str) (names : List Str) {mappings : Str}
    {numbers : List (List UInt32)} (h : Lists (mappings.splitOn ';') numbers) (other : Str) (line column : UInt32)
    (answer : UInt32 × UInt32) :
    applySourceMapJson checks (storedMap file names mappings) other line column = .ok (some (file, answer)) ↔
      answer = (1, 1) ∧ ∃ k ns, k + 1 = line.toNat ∧ numbers[k]? = some ns ∧ Reaches column ns := by
  obtain ⟨found, hrun, horigin, hiff⟩ := Decoder.lines_spec checks line column h 0 ⟨0, 0, 0, 0⟩ ⟨rfl, rfl, rfl⟩
  simp only [Nat.zero_add] at hiff
  rw [← hiff]
  have hmappings : ((storedMap file names mappings).field "mappings").asStr = some mappings := rfl
  have hsources : ((storedMap file names mappings).field "sources").asArray = some [.str file] := rfl
  unfold applySourceMapJson
  rw [hmappings]
  simp only [hrun, ok_bind, hsources]
  cases found with
  | none =>
      refine ⟨fun h => ?_, fun h => absurd h.2 (by decide)⟩
      cases h
  | some st =>
      obtain ⟨hidx, hrow, hcol⟩ := horigin st rfl
      have hone : succU32 checks 0 = .ok 1 := by
        unfold succU32
        rw [if_neg (by simp)]
        rfl
      simp only [hidx, hrow, hcol, hone, ok_bind]
      constructor
      · intro h
        cases h
        exact ⟨rfl, rfl⟩
      · rintro ⟨rfl, -⟩
        rfl

/-! ## Writing -/

namespace Encoder

/-- The source of a token as it is written if nothing underflows, or if the build does not look. -/
def withSource (st : Encoder) (token : Token) : Encoder :=
  match token.sourceId with
  | none => st
  | some si =>
      { st with
        encoded := st.encoded ++ ',' :: vlq (si - st.prevSrcIdx) ++ vlq (token.srcLine - st.prevSrcLine) ++
          vlq (token.srcCol - st.prevSrcCol)
        prevSrcIdx := si
        prevSrcLine := token.srcLine
        prevSrcCol := token.srcCol }

def step (st : Encoder) (token : Token) : Encoder :=
  let st := st.atLine token.dstLine
  let st :=
    if st.prevDstCol ≤ token.dstCol then
      { st with encoded := st.encoded ++ vlq (token.dstCol - st.prevDstCol), prevDstCol := token.dstCol }.withSource token
    else st
  { st with prevDstLine := token.dstLine }

/-- The source of a token is not before the one that was written last. -/
def Fits (st : Encoder) (token : Token) : Prop :=
  ∀ si, token.sourceId = some si →
    st.prevSrcIdx ≤ si ∧ st.prevSrcLine ≤ token.srcLine ∧ st.prevSrcCol ≤ token.srcCol

theorem subU32_eq {checks : Bool} {a b : UInt32} {r : UInt32} :
    subU32 checks a b = .ok r ↔ (checks = true → b ≤ a) ∧ r = a - b := by
  unfold subU32
  cases checks with
  | false => simp [eq_comm]
  | true =>
      by_cases h : a < b
      · simp [h]
      · simp [h, UInt32.not_lt.mp h, eq_comm]

theorem pushSource_eq {checks : Bool} {st st' : Encoder} {token : Token} :
    st.pushSource checks token = .ok st' ↔ (checks = true → st.Fits token) ∧ st' = st.withSource token := by
  unfold pushSource withSource Fits
  cases token.sourceId with
  | none => simp [eq_comm]
  | some si =>
      simp only [bind_eq_ok, subU32_eq, Option.some.injEq, forall_eq']
      constructor
      · rintro ⟨d, ⟨hd, rfl⟩, dl, ⟨hdl, rfl⟩, dc, ⟨hdc, rfl⟩, h⟩
        cases h
        exact ⟨fun hc => ⟨hd hc, hdl hc, hdc hc⟩, rfl⟩
      · rintro ⟨hfits, rfl⟩
        exact ⟨_, ⟨fun hc => (hfits hc).1, rfl⟩, _, ⟨fun hc => (hfits hc).2.1, rfl⟩, _, ⟨fun hc => (hfits hc).2.2, rfl⟩, rfl⟩

/-- The state in which a token is written, if its column is not before the last one. -/
def beforeSource (st : Encoder) (token : Token) : Encoder :=
  { st.atLine token.dstLine with
    encoded := (st.atLine token.dstLine).encoded ++ vlq (token.dstCol - (st.atLine token.dstLine).prevDstCol)
    prevDstCol := token.dstCol }

/-- The column of a token is not before the last one of its line. -/
def Follows (st : Encoder) (token : Token) : Prop := token.dstLine = st.prevDstLine → st.prevDstCol ≤ token.dstCol

theorem Follows.column {st : Encoder} {token : Token} (h : st.Follows token) :
    (st.atLine token.dstLine).prevDstCol ≤ token.dstCol := by
  unfold atLine
  split
  · exact UInt32.zero_le
  · exact h (not_not.mp ‹_›)

/-- The state after a token that is written. -/
theorem step_eq {st : Encoder} {token : Token} (h : st.Follows token) :
    st.step token = { (st.beforeSource token).withSource token with prevDstLine := token.dstLine } := by
  simp only [step, h.column, ↓reduceIte]
  rfl

theorem push_eq {checks : Bool} {st st' : Encoder} {token : Token} (h : st.Follows token) :
    st.push checks token = .ok st' ↔ (checks = true → (st.beforeSource token).Fits token) ∧ st' = st.step token := by
  have hpush : st.push checks token = (st.beforeSource token).pushSource checks token >>= fun st =>
      .ok { st with prevDstLine := token.dstLine } := by
    simp only [push, h.column, ↓reduceIte]
    rfl
  rw [hpush, bind_eq_ok, step_eq h]
  constructor
  · rintro ⟨st'', hpush, h⟩
    obtain ⟨hfits, rfl⟩ := pushSource_eq.mp hpush
    cases h
    exact ⟨hfits, rfl⟩
  · rintro ⟨hfits, rfl⟩
    exact ⟨_, pushSource_eq.mpr ⟨hfits, rfl⟩, rfl⟩

/-- Every token comes after what was written. -/
def Ahead (st : Encoder) (tokens : List Token) : Prop :=
  (∀ t ∈ tokens, st.prevDstLine < t.dstLine ∨ st.prevDstLine = t.dstLine ∧ st.prevDstCol ≤ t.dstCol) ∧ Generated tokens

theorem ahead_new {tokens : List Token} (h : Generated tokens) : new.Ahead tokens := by
  refine ⟨fun t _ => ?_, h⟩
  by_cases hline : t.dstLine = 0
  · exact .inr ⟨hline.symm, UInt32.zero_le⟩
  · exact .inl (UInt32.pos_iff_ne_zero.mpr hline)

section Ahead

variable {st : Encoder} {t : Token} {ts : List Token}

theorem Ahead.follows (h : st.Ahead (t :: ts)) : st.Follows t := by
  intro hline
  rcases h.1 t List.mem_cons_self with hlt | ⟨-, hle⟩
  · exact absurd (hline ▸ hlt) (UInt32.lt_irrefl _)
  · exact hle

theorem step_prevDst (h : st.Follows t) : (st.step t).prevDstLine = t.dstLine ∧ (st.step t).prevDstCol = t.dstCol := by
  rw [step_eq h]
  refine ⟨rfl, ?_⟩
  unfold withSource
  cases t.sourceId <;> rfl

theorem Ahead.tail (h : st.Ahead (t :: ts)) : (st.step t).Ahead ts := by
  obtain ⟨hline, hcol⟩ := step_prevDst h.follows
  obtain ⟨hhead, htail⟩ := List.pairwise_cons.mp h.2
  refine ⟨fun t' ht' => ?_, htail⟩
  rw [hline, hcol]
  exact hhead t' ht'

end Ahead

/-- Every token fits when its turn comes. -/
def AllFit : Encoder → List Token → Prop
  | _, [] => True
  | st, t :: ts => (st.beforeSource t).Fits t ∧ AllFit (st.step t) ts

theorem run_eq {checks : Bool} {st st' : Encoder} {ts : List Token} (h : st.Ahead ts) :
    ts.foldlM (push checks) st = .ok st' ↔ (checks = true → st.AllFit ts) ∧ st' = ts.foldl step st := by
  induction ts generalizing st with
  | nil =>
      simp only [List.foldlM_nil, List.foldl_nil, AllFit, implies_true, true_and]
      exact ⟨fun h => by cases h; rfl, fun h => by rw [h]; rfl⟩
  | cons t ts ih =>
      rw [List.foldlM_cons, bind_eq_ok, List.foldl_cons]
      constructor
      · rintro ⟨st1, hpush, hrun⟩
        obtain ⟨hfits, rfl⟩ := (push_eq h.follows).mp hpush
        obtain ⟨hall, rfl⟩ := (ih h.tail).mp hrun
        exact ⟨fun hc => ⟨hfits hc, hall hc⟩, rfl⟩
      · rintro ⟨hall, rfl⟩
        exact ⟨_, (push_eq h.follows).mpr ⟨fun hc => (hall hc).1, rfl⟩,
          (ih h.tail).mpr ⟨fun hc => (hall hc).2, rfl⟩⟩

/-! ## When nothing underflows -/

theorem fits_beforeSource {st : Encoder} {t : Token} :
    (st.beforeSource t).Fits t ↔ (t.dstLine = st.prevDstLine → st.Fits t) := by
  unfold beforeSource atLine Fits
  by_cases hline : t.dstLine = st.prevDstLine
  · simp [hline]
  · simp [hline]

theorem fits_step {st : Encoder} {t t' : Token} (h : st.Follows t) :
    (st.step t).Fits t' ↔ (∀ i j, t.sourceId = some i → t'.sourceId = some j →
        i ≤ j ∧ t.srcLine ≤ t'.srcLine ∧ t.srcCol ≤ t'.srcCol) ∧
      (t.sourceId = none → t.dstLine = st.prevDstLine → st.Fits t') := by
  rw [step_eq h]
  unfold withSource
  cases hsource : t.sourceId with
  | some i =>
      refine ⟨fun h => ⟨fun i' j hi hj => ?_, fun hnone => absurd hnone (by simp)⟩, fun h j hj => h.1 i j rfl hj⟩
      obtain rfl := Option.some.inj hi
      exact h j hj
  | none =>
      unfold beforeSource atLine Fits
      by_cases hline : t.dstLine = st.prevDstLine
      · simp [hline]
      · simp [hline]

theorem Fits.trans {st : Encoder} {t t' : Token} {i : UInt32} (hsource : t.sourceId = some i) (h : st.Fits t)
    (hback : ∀ i j, t.sourceId = some i → t'.sourceId = some j →
      i ≤ j ∧ t.srcLine ≤ t'.srcLine ∧ t.srcCol ≤ t'.srcCol) : st.Fits t' := by
  intro j hj
  obtain ⟨h1, h2, h3⟩ := h i hsource
  obtain ⟨h1', h2', h3'⟩ := hback i j hsource hj
  exact ⟨UInt32.le_trans h1 h1', UInt32.le_trans h2 h2', UInt32.le_trans h3 h3'⟩

theorem allFit_iff {st : Encoder} {ts : List Token} (h : st.Ahead ts) :
    st.AllFit ts ↔ (∀ t ∈ ts, t.dstLine = st.prevDstLine → st.Fits t) ∧ NeverBack ts := by
  induction ts generalizing st with
  | nil => simp [AllFit, NeverBack]
  | cons t ts ih =>
      have hline := (step_prevDst h.follows).1
      unfold NeverBack at ih ⊢
      rw [AllFit, ih h.tail, fits_beforeSource, List.pairwise_cons, List.forall_mem_cons, hline]
      constructor
      · rintro ⟨hfits, hlater, hpair⟩
        refine ⟨⟨hfits, fun t' ht' hsame => ?_⟩, fun t' ht' hsame => ?_, hpair⟩
        · -- the tokens of the line that was being written come first
          have hold : t.dstLine = st.prevDstLine := by
            rcases h.1 t List.mem_cons_self with hlt | ⟨heq, -⟩
            · rcases (List.pairwise_cons.mp h.2).1 t' ht' with hlt' | ⟨heq', -⟩
              · exact absurd (hsame ▸ UInt32.lt_trans hlt hlt') (UInt32.lt_irrefl _)
              · exact heq'.trans hsame
            · exact heq.symm
          obtain ⟨hback, hnone⟩ := (fits_step h.follows).mp (hlater t' ht' (hsame.trans hold.symm))
          cases hsource : t.sourceId with
          | none => exact hnone hsource hold
          | some i => exact (hfits hold).trans hsource hback
        · exact ((fits_step h.follows).mp (hlater t' ht' hsame.symm)).1
      · rintro ⟨⟨hfits, hrest⟩, hback, hpair⟩
        refine ⟨hfits, fun t' ht' hsame => (fits_step h.follows).mpr ⟨hback t' ht' hsame.symm, fun _ hold => ?_⟩, hpair⟩
        exact hrest t' ht' (hsame.trans hold)

end Encoder

theorem encodeMappings_eq {checks : Bool} {tokens : List Token} {mappings : Str} (h : Generated tokens) :
    encodeMappings checks tokens = .ok mappings ↔
      (checks = true → NeverBack tokens) ∧ mappings = (tokens.foldl Encoder.step .new).encoded := by
  have hahead := Encoder.ahead_new h
  have hfits : Encoder.new.AllFit tokens ↔ NeverBack tokens := by
    rw [Encoder.allFit_iff hahead]
    exact and_iff_right fun t _ _ si _ => ⟨UInt32.zero_le, UInt32.zero_le, UInt32.zero_le⟩
  unfold encodeMappings
  rw [bind_eq_ok]
  constructor
  · rintro ⟨st, hrun, h⟩
    obtain ⟨hall, rfl⟩ := (Encoder.run_eq hahead).mp hrun
    cases h
    exact ⟨fun hc => hfits.mp (hall hc), rfl⟩
  · rintro ⟨hback, rfl⟩
    exact ⟨_, (Encoder.run_eq hahead).mpr ⟨fun hc => hfits.mpr (hback hc), rfl⟩, rfl⟩

/-! ## The text that is written -/

theorem separator_not_mem_vlq (n : UInt32) : ';' ∉ vlq n ∧ ',' ∉ vlq n := by
  have hdigits : ∀ value, ∀ c ∈ encodeDigits value, 95 ≤ c.toNat := by
    intro value
    induction value using Nat.strongRecOn with
    | ind value ih =>
        rw [encodeDigits]
        split
        · simp only [List.mem_singleton, forall_eq]
          rw [ofNat_toNat (by omega)]
          omega
        · refine List.forall_mem_cons.mpr ⟨?_, ih (value / 32) (by omega)⟩
          rw [ofNat_toNat (by omega)]
          omega
  rw [vlq_eq]
  exact ⟨fun h => absurd (hdigits _ _ h) (by decide), fun h => absurd (hdigits _ _ h) (by decide)⟩

/-- A first part without separators belongs to the first piece. -/
theorem splitOn_begun {c : Char} {x y first : Str} {others : List Str} (h : c ∉ x) (hy : y.splitOn c = first :: others) :
    (x ++ y).splitOn c = (x ++ first) :: others := by
  induction x with
  | nil => exact hy
  | cons a x ih =>
      rw [List.mem_cons, not_or] at h
      rw [List.cons_append, List.splitOn_cons_eq_if_modifyHead, if_neg (by simpa using Ne.symm h.1), ih h.2]
      rfl

/-- What is written after the current segment: more of it, other segments of the line, other lines. -/
def Continues (w : Str) (numbers : List UInt32) (lines : List (List UInt32)) : Prop :=
  ∃ first others rest segments, w.splitOn ';' = first :: others ∧ first.splitOn ',' = rest :: segments ∧
    List.Forall₂ Begins segments numbers ∧ Lists others lines

namespace Continues

variable {w x : Str} {n : UInt32} {numbers : List UInt32} {lines : List (List UInt32)}

theorem nil : Continues [] [] [] := ⟨[], [], [], [], rfl, rfl, .nil, .nil⟩

theorem digits (hx : ';' ∉ x ∧ ',' ∉ x) (h : Continues w numbers lines) : Continues (x ++ w) numbers lines := by
  obtain ⟨first, others, rest, segments, hw, hfirst, hsegments, hothers⟩ := h
  exact ⟨x ++ first, others, x ++ rest, segments, splitOn_begun hx.1 hw, splitOn_begun hx.2 hfirst, hsegments, hothers⟩

theorem segment (h : Continues w numbers lines) : Continues (',' :: vlq n ++ w) (n :: numbers) lines := by
  obtain ⟨first, others, rest, segments, hw, hfirst, hsegments, hothers⟩ := h
  have hn := separator_not_mem_vlq n
  refine ⟨',' :: (vlq n ++ first), others, [], (vlq n ++ rest) :: segments, ?_, ?_, .cons ⟨rest, rfl⟩ hsegments, hothers⟩
  · exact splitOn_begun (x := ',' :: vlq n) (by simp [hn.1]) hw
  · rw [List.splitOn_cons_eq_if_modifyHead, if_pos (beq_self_eq_true _), splitOn_begun hn.2 hfirst]

theorem line (h : Continues w numbers lines) : Continues (';' :: vlq n ++ w) [] ((n :: numbers) :: lines) := by
  obtain ⟨first, others, rest, segments, hw, hfirst, hsegments, hothers⟩ := h
  have hn := separator_not_mem_vlq n
  refine ⟨[], (vlq n ++ first) :: others, [], [], ?_, rfl, .nil, .cons ?_ hothers⟩
  · rw [List.cons_append, List.splitOn_cons_eq_if_modifyHead, if_pos (beq_self_eq_true _), splitOn_begun hn.1 hw]
  · rw [splitOn_begun hn.2 hfirst]
    exact .cons ⟨rest, rfl⟩ hsegments

end Continues

namespace Encoder

/-- The text of the source of a token. -/
def sourceText (st : Encoder) (t : Token) : Str :=
  match t.sourceId with
  | none => []
  | some si =>
      ',' :: vlq (si - st.prevSrcIdx) ++ vlq (t.srcLine - st.prevSrcLine) ++ vlq (t.srcCol - st.prevSrcCol)

theorem step_encoded {st : Encoder} {t : Token} (h : st.Follows t) :
    (st.step t).encoded = (st.atLine t.dstLine).encoded ++ vlq (t.dstCol - (st.atLine t.dstLine).prevDstCol) ++
      sourceText (st.atLine t.dstLine) t := by
  rw [step_eq h]
  unfold withSource sourceText beforeSource
  cases t.sourceId with
  | none => simp
  | some si => simp [List.append_assoc]

/-- The source index of a token is kept for the next one. -/
theorem step_prevSrcIdx {st : Encoder} {t : Token} (h : st.Follows t) :
    (st.step t).prevSrcIdx = t.sourceId.getD (st.atLine t.dstLine).prevSrcIdx := by
  rw [step_eq h]
  unfold withSource beforeSource
  cases t.sourceId <;> rfl

theorem continues_source {st : Encoder} {t : Token} (ts : List Token) {w : Str} {lines : List (List UInt32)}
    (h : Continues w (sourceDeltas (t.sourceId.getD st.prevSrcIdx) ts) lines) :
    Continues (st.sourceText t ++ w) (sourceDeltas st.prevSrcIdx (t :: ts)) lines := by
  unfold sourceText
  rw [sourceDeltas]
  cases hsource : t.sourceId with
  | none =>
      rw [hsource] at h
      exact h
  | some si =>
      rw [hsource, Option.getD_some] at h
      have hline := separator_not_mem_vlq (t.srcLine - st.prevSrcLine)
      have hcol := separator_not_mem_vlq (t.srcCol - st.prevSrcCol)
      have hsegment := ((h.digits hcol).digits hline).segment (n := si - st.prevSrcIdx)
      simpa only [List.append_assoc, List.cons_append] using hsegment

/-- The text that is written for the tokens that follow: the rest of the current line, and a line for each other one. -/
theorem run_text {st : Encoder} {ts : List Token} (hne : st.encoded ≠ []) (h : st.Ahead ts) :
    ∃ w, (ts.foldl step st).encoded = st.encoded ++ w ∧
      Continues w (sourceDeltas st.prevSrcIdx (ts.takeWhile (·.dstLine = st.prevDstLine)))
        ((generatedLines (ts.dropWhile (·.dstLine = st.prevDstLine))).map firstNumbers) := by
  induction ts generalizing st with
  | nil =>
      refine ⟨[], (List.append_nil _).symm, ?_⟩
      rw [List.takeWhile_nil, List.dropWhile_nil, generatedLines]
      exact .nil
  | cons t ts ih =>
      have hfollows := h.follows
      have hstep := step_encoded hfollows
      have hvlq := separator_not_mem_vlq (t.dstCol - (st.atLine t.dstLine).prevDstCol)
      have hencoded : (st.step t).encoded ≠ [] := by
        have hat : (st.atLine t.dstLine).encoded ≠ [] := by
          unfold atLine
          split <;> simp [hne]
        rw [hstep]
        simp [hat]
      obtain ⟨w, hw, hcontinues⟩ := ih hencoded h.tail
      rw [(step_prevDst hfollows).1, step_prevSrcIdx hfollows] at hcontinues
      have hsource := continues_source _ hcontinues
      rw [List.foldl_cons, hw, hstep]
      by_cases hline : t.dstLine = st.prevDstLine
      · have hat : st.atLine t.dstLine = st := by simp [atLine, hline]
        rw [hat] at hsource hvlq ⊢
        rw [List.takeWhile_cons_of_pos (by simpa using hline), List.dropWhile_cons_of_pos (by simpa using hline), ← hline]
        exact ⟨_, by simp only [List.append_assoc], hsource.digits hvlq⟩
      · have hat : st.atLine t.dstLine = { st with
            encoded := st.encoded ++ [';'], prevDstCol := 0, prevSrcIdx := 0, prevSrcLine := 0, prevSrcCol := 0 } := by
          simp [atLine, hline, hne]
        rw [hat] at hsource ⊢
        rw [List.takeWhile_cons_of_neg (by simpa using hline), List.dropWhile_cons_of_neg (by simpa using hline),
          generatedLines]
        refine ⟨';' :: vlq t.dstCol ++ _, ?_, hsource.line⟩
        rw [UInt32.sub_zero]
        simp only [List.append_assoc, List.cons_append, List.nil_append]

end Encoder

/-- The lines that are written are those with tokens, one after another. -/
theorem lists_generatedLines {tokens : List Token} (h : Generated tokens) (hne : tokens ≠ []) :
    Lists ((tokens.foldl Encoder.step .new).encoded.splitOn ';') ((generatedLines tokens).map firstNumbers) := by
  cases tokens with
  | nil => exact absurd rfl hne
  | cons t ts =>
      have hahead := Encoder.ahead_new h
      have hfollows := hahead.follows
      have hat : Encoder.new.atLine t.dstLine = { Encoder.new with encoded := [] } := by
        unfold Encoder.atLine
        split <;> rfl
      have hstep := Encoder.step_encoded hfollows
      rw [hat] at hstep
      have hvlq : vlq t.dstCol ≠ [] := Begins.ne_nil ⟨[], (List.append_nil _).symm⟩
      have hencoded : (Encoder.new.step t).encoded ≠ [] := by
        rw [hstep]
        simp [Encoder.new, hvlq]
      obtain ⟨w, hw, hcontinues⟩ := Encoder.run_text hencoded hahead.tail
      rw [(Encoder.step_prevDst hfollows).1, Encoder.step_prevSrcIdx hfollows, hat] at hcontinues
      obtain ⟨first, others, rest, segments, hsplit, hfirst, hsegments, hothers⟩ := Encoder.continues_source _ hcontinues
      have hn := separator_not_mem_vlq t.dstCol
      have hcol : t.dstCol - Encoder.new.prevDstCol = t.dstCol := UInt32.sub_zero _
      rw [List.foldl_cons, hw, hstep, generatedLines, List.map_cons, List.append_assoc, List.nil_append, hcol,
        splitOn_begun hn.1 hsplit]
      refine .cons ?_ hothers
      rw [splitOn_begun hn.2 hfirst]
      exact .cons ⟨rest, rfl⟩ hsegments

end ThreeVa.Js.SourceMaps
