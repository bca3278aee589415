import ThreeVa.Js.TextDecoder
import ThreeVa.Lib.Utf8

/-!
# Decoding in chunks
-/

namespace ThreeVa.Js
open Text

namespace TextDecoder

variable {fatal stream : Bool}

/-- One step of the loop: what it emits and how much it leaves, or why it stops. -/
inductive Step
  | emit (units : Units) (rest : Bytes)
  | invalid
  | truncated

def next (fatal : Bool) (b : UInt8) (rest : Bytes) : Step :=
  if b < 0x80 then .emit [b.toNat] rest
  else
    match lead b with
    | none => if fatal then .invalid else .emit [replacement] rest
    | some (need, cp) =>
        if rest.length < need then .truncated
        else
          match (continuation cp (rest.take need)).filter fun cp => !refused need cp with
          | none => if fatal then .invalid else .emit [replacement] rest
          | some cp => .emit (fromCodePoint cp) (rest.drop need)

theorem decodeUtf8_nil : decodeUtf8 fatal stream [] = .ok ([], []) := by rw [decodeUtf8]

theorem decodeUtf8_cons (b : UInt8) (rest : Bytes) :
    decodeUtf8 fatal stream (b :: rest) =
      match next fatal b rest with
      | .emit units rest => (decodeUtf8 fatal stream rest).map fun p => (units ++ p.1, p.2)
      | .invalid => .error invalidData
      | .truncated =>
          if stream then .ok ([], b :: rest) else if fatal then .error invalidData else .ok ([replacement], []) := by
  rw [decodeUtf8, next]
  by_cases hb : b < 0x80
  · rw [if_pos hb, if_pos hb]
    rfl
  · rw [if_neg hb, if_neg hb]
    cases lead b with
    | none => cases fatal <;> rfl
    | some p =>
        obtain ⟨need, cp⟩ := p
        by_cases hlen : rest.length < need
        · simp only [if_pos hlen]
        · simp only [if_neg hlen]
          cases (continuation cp (rest.take need)).filter fun cp => !refused need cp with
          | none => cases fatal <;> rfl
          | some cp => rfl

theorem next_length {b : UInt8} {rest left : Bytes} {units : Units} (h : next fatal b rest = .emit units left) :
    left.length ≤ rest.length := by
  unfold next at h
  split at h
  · cases h
    exact le_rfl
  · split at h
    · split at h
      · cases h
      · cases h
        exact le_rfl
    · split at h
      · cases h
      · split at h
        · split at h
          · cases h
          · cases h
            exact le_rfl
        · cases h
          simp

theorem next_ne_invalid (b : UInt8) (rest : Bytes) : next false b rest ≠ .invalid := by
  unfold next
  split
  · exact Step.noConfusion
  · split
    · exact Step.noConfusion
    · split
      · exact Step.noConfusion
      · split <;> exact Step.noConfusion

/-- Without `fatal` nothing is thrown. -/
theorem decodeUtf8_ok (stream : Bool) (bytes : Bytes) : ∃ p, decodeUtf8 false stream bytes = .ok p := by
  generalize hn : bytes.length = n
  induction n using Nat.strongRecOn generalizing bytes with
  | _ n ih =>
      cases bytes with
      | nil => exact ⟨_, decodeUtf8_nil⟩
      | cons b rest =>
          rw [decodeUtf8_cons]
          cases hnext : next false b rest with
          | invalid => exact absurd hnext (next_ne_invalid b rest)
          | truncated => cases stream <;> exact ⟨_, rfl⟩
          | emit units after =>
              have hlt : after.length < n := by
                have := next_length hnext
                rw [← hn, List.length_cons]
                omega
              obtain ⟨p, hp⟩ := ih after.length hlt after rfl
              simp only [hp]
              exact ⟨_, rfl⟩

/-- A step that is not held up by the end of the input does not look at what is appended. -/
theorem next_append {b : UInt8} {rest : Bytes} (more : Bytes) (h : next fatal b rest ≠ .truncated) :
    next fatal b (rest ++ more) =
      match next fatal b rest with
      | .emit units left => .emit units (left ++ more)
      | .invalid => .invalid
      | .truncated => .truncated := by
  unfold next at h ⊢
  split
  · rfl
  · split
    · split <;> rfl
    · rename_i need cp hlead
      rw [if_neg ‹_›, hlead] at h
      by_cases hlen : rest.length < need
      · exact absurd (if_pos hlen) h
      · have happend : ¬ (rest ++ more).length < need := by
          rw [List.length_append]
          omega
        have htake : (rest ++ more).take need = rest.take need := by
          rw [List.take_append_of_le_length (by omega)]
        have hdrop : (rest ++ more).drop need = rest.drop need ++ more := by
          rw [List.drop_append_of_le_length (by omega)]
        rw [if_neg happend, if_neg hlen, htake, hdrop]
        split
        · split <;> rfl
        · rfl

/-- Decoding a text is decoding a first part with `stream`, then the rest after the bytes that were held back. -/
theorem decodeUtf8_append (left right : Bytes) :
    decodeUtf8 fatal stream (left ++ right) =
      (decodeUtf8 fatal true left).bind fun p =>
        (decodeUtf8 fatal stream (p.2 ++ right)).map fun q => (p.1 ++ q.1, q.2) := by
  generalize hn : left.length = n
  induction n using Nat.strongRecOn generalizing left with
  | _ n ih =>
      cases left with
      | nil =>
          rw [decodeUtf8_nil, List.nil_append]
          show _ = (decodeUtf8 fatal stream right).map fun q => q
          cases decodeUtf8 fatal stream right <;> rfl
      | cons b rest =>
          rw [List.cons_append, @decodeUtf8_cons fatal true]
          cases hnext : next fatal b rest with
          | truncated =>
              -- everything from `b` on is held back
              show _ = (decodeUtf8 fatal stream (b :: rest ++ right)).map fun q => q
              rw [List.cons_append]
              cases decodeUtf8 fatal stream (b :: (rest ++ right)) <;> rfl
          | invalid =>
              rw [decodeUtf8_cons, next_append right (by simp [hnext]), hnext]
              rfl
          | emit units after =>
              have hlt : after.length < n := by
                have := next_length hnext
                rw [← hn, List.length_cons]
                omega
              rw [decodeUtf8_cons, next_append right (by simp [hnext]), hnext]
              simp only
              rw [ih after.length hlt after rfl]
              cases decodeUtf8 fatal true after with
              | error e => rfl
              | ok p =>
                  show ((decodeUtf8 fatal stream (p.2 ++ right)).map _).map _ =
                    (decodeUtf8 fatal stream (p.2 ++ right)).map _
                  cases decodeUtf8 fatal stream (p.2 ++ right) with
                  | error e => rfl
                  | ok q => simp [Except.map]

theorem decode_utf8 (fatal stream : Bool) (pending buf : Bytes) :
    (decode ⟨.utf8, fatal, pending⟩ buf stream).2 = (decodeUtf8 fatal stream (pending ++ buf)).map Prod.fst := by
  rw [decode, if_neg (by simp)]
  cases decodeUtf8 fatal stream (pending ++ buf) <;> rfl

theorem decodeChunks_utf8 (fatal : Bool) (pending : Bytes) (chunks : List Bytes) :
    decodeChunks ⟨.utf8, fatal, pending⟩ chunks =
      (decodeUtf8 fatal false (pending ++ chunks.flatten)).map Prod.fst := by
  induction chunks generalizing pending with
  | nil => rw [decodeChunks, decode_utf8, List.flatten_nil]
  | cons chunk chunks ih =>
      rw [decodeChunks, List.flatten_cons, ← List.append_assoc, decodeUtf8_append, decode, if_neg (by simp)]
      cases decodeUtf8 fatal true (pending ++ chunk) with
      | error e => rfl
      | ok p =>
          show (decodeChunks ⟨.utf8, fatal, p.2⟩ chunks).map _ = Except.map _ (Except.map _ _)
          rw [ih]
          cases decodeUtf8 fatal false (p.2 ++ chunks.flatten) <;> rfl

theorem decodeChunks_bytes {encoding : Encoding} (h : encoding ≠ .utf8) (fatal : Bool) (pending : Bytes)
    (chunks : List Bytes) :
    decodeChunks ⟨encoding, fatal, pending⟩ chunks = .ok ((pending ++ chunks.flatten).map (decodeByte encoding)) := by
  induction chunks generalizing pending with
  | nil => rw [decodeChunks, decode, if_pos h, List.flatten_nil]
  | cons chunk chunks ih =>
      rw [decodeChunks, decode, if_pos h]
      simp only
      rw [ih]
      simp [Except.map]

/-- Decoding in chunks is decoding at once, also where it throws. -/
theorem decodeChunks_eq (encoding : Encoding) (fatal : Bool) (chunks : List Bytes) :
    decodeChunks (.new encoding fatal) chunks = ((new encoding fatal).decode chunks.flatten false).2 := by
  by_cases h : encoding = .utf8
  · subst h
    rw [new, decodeChunks_utf8, decode_utf8]
  · rw [new, decodeChunks_bytes h, decode, if_pos h]

/-! ## Encoded texts -/

theorem lead_two {k : Nat} (h : k < 32) :
    ¬ UInt8.ofNat (0xC0 + k) < 0x80 ∧ lead (.ofNat (0xC0 + k)) = some (1, k) := by
  have hall : ∀ k < 32, ¬ UInt8.ofNat (0xC0 + k) < 0x80 ∧ lead (.ofNat (0xC0 + k)) = some (1, k) := by decide
  exact hall k h

theorem lead_three {k : Nat} (h : k < 16) :
    ¬ UInt8.ofNat (0xE0 + k) < 0x80 ∧ lead (.ofNat (0xE0 + k)) = some (2, k) := by
  have hall : ∀ k < 16, ¬ UInt8.ofNat (0xE0 + k) < 0x80 ∧ lead (.ofNat (0xE0 + k)) = some (2, k) := by decide
  exact hall k h

theorem lead_four {k : Nat} (h : k < 8) :
    ¬ UInt8.ofNat (0xF0 + k) < 0x80 ∧ lead (.ofNat (0xF0 + k)) = some (3, k) := by
  have hall : ∀ k < 8, ¬ UInt8.ofNat (0xF0 + k) < 0x80 ∧ lead (.ofNat (0xF0 + k)) = some (3, k) := by decide
  exact hall k h

theorem continuation_ofNat {k : Nat} (h : k < 64) (cp : Nat) (rest : Bytes) :
    continuation cp (.ofNat (0x80 + k) :: rest) = continuation (cp * 64 + k) rest := by
  have hall : ∀ k < 64, UInt8.ofNat (0x80 + k) &&& 0xC0 = 0x80 ∧ (UInt8.ofNat (0x80 + k) &&& 0x3F).toNat = k := by decide
  obtain ⟨hbits, hlow⟩ := hall k h
  rw [continuation, hbits, hlow, if_neg (by simp), ← Nat.shiftLeft_add_eq_or_of_lt (by omega), Nat.shiftLeft_eq]

theorem next_of_lead {b : UInt8} {after : Bytes} {need k cp : Nat} (hb : ¬ b < 0x80) (hlead : lead b = some (need, k))
    (hlen : after.length = need) (hcp : continuation k after = some cp) (hok : refused need cp = false) (rest : Bytes) :
    next fatal b (after ++ rest) = .emit (fromCodePoint cp) rest := by
  have htake : (after ++ rest).take need = after := by rw [← hlen, List.take_left]
  have hdrop : (after ++ rest).drop need = rest := by rw [← hlen, List.drop_left]
  rw [next, if_neg hb, hlead]
  simp only
  rw [if_neg (by rw [List.length_append]; omega), htake, hdrop, hcp, Option.filter_some_pos (by simp [hok])]

/-- One character of an encoded text is one step. -/
theorem next_encodeChar (c : Char) :
    ∃ b after, encodeChar c = b :: after ∧ ∀ rest, next fatal b (after ++ rest) = .emit (fromCodePoint c.toNat) rest := by
  have hscalar : c.toNat < 0xD800 ∨ 0xDFFF < c.toNat ∧ c.toNat < 0x110000 := c.valid
  unfold encodeChar
  by_cases h1 : c.toNat < 0x80
  · simp only [h1, ↓reduceIte]
    refine ⟨_, _, rfl, fun rest => ?_⟩
    have hb : UInt8.ofNat c.toNat < 0x80 := by
      rw [UInt8.lt_iff_toNat_lt, toNat_ofNat_uint8 (by omega)]
      exact h1
    rw [next, if_pos hb, toNat_ofNat_uint8 (by omega), fromCodePoint, if_pos (by omega)]
    rfl
  · by_cases h2 : c.toNat < 0x800
    · obtain ⟨hb, hlead⟩ := lead_two (show c.toNat / 64 < 32 by omega)
      simp only [h1, h2, ↓reduceIte]
      refine ⟨_, _, rfl, next_of_lead hb hlead rfl ?_ ?_⟩
      · rw [continuation_ofNat (by omega), continuation]
        congr 1
        omega
      · simp [refused]
        omega
    · by_cases h3 : c.toNat < 0x10000
      · obtain ⟨hb, hlead⟩ := lead_three (show c.toNat / 4096 < 16 by omega)
        simp only [h1, h2, h3, ↓reduceIte]
        refine ⟨_, _, rfl, next_of_lead hb hlead rfl ?_ ?_⟩
        · rw [continuation_ofNat (by omega), continuation_ofNat (by omega), continuation]
          congr 1
          omega
        · simp [refused]
          omega
      · obtain ⟨hb, hlead⟩ := lead_four (show c.toNat / 262144 < 8 by omega)
        simp only [h1, h2, h3, ↓reduceIte]
        refine ⟨_, _, rfl, next_of_lead hb hlead rfl ?_ ?_⟩
        · rw [continuation_ofNat (by omega), continuation_ofNat (by omega), continuation_ofNat (by omega), continuation]
          congr 1
          omega
        · simp [refused]
          omega

theorem decodeUtf8_encodeUtf8 (text : Str) (rest : Bytes) :
    decodeUtf8 fatal stream (encodeUtf8 text ++ rest) =
      (decodeUtf8 fatal stream rest).map fun p => (units text ++ p.1, p.2) := by
  induction text with
  | nil =>
      rw [encodeUtf8, List.flatMap_nil, List.nil_append]
      cases decodeUtf8 fatal stream rest <;> rfl
  | cons c text ih =>
      obtain ⟨b, after, hchar, hnext⟩ := @next_encodeChar fatal c
      have hcons : encodeUtf8 (c :: text) ++ rest = b :: (after ++ (encodeUtf8 text ++ rest)) := by
        rw [encodeUtf8, List.flatMap_cons, hchar, List.append_assoc, List.cons_append]
        rfl
      have hunits : units (c :: text) = fromCodePoint c.toNat ++ units text := by rw [units, List.flatMap_cons]; rfl
      rw [hcons, decodeUtf8_cons, hnext, hunits]
      simp only
      rw [ih]
      cases decodeUtf8 fatal stream rest with
      | error e => rfl
      | ok p => simp [Except.map]

end TextDecoder

/-! ## Code units -/

theorem units_append (s t : Str) : units (s ++ t) = units s ++ units t := by
  rw [units, List.flatMap_append]
  rfl

theorem units_cons (c : Char) (t : Str) : units (c :: t) = TextDecoder.fromCodePoint c.toNat ++ units t := rfl

theorem mem_fromCodePoint {n cp : Nat} (hn : n < 0xD800) (h : n ∈ TextDecoder.fromCodePoint cp) : n = cp := by
  unfold TextDecoder.fromCodePoint at h
  split at h
  · simpa using h
  · simp only [List.mem_cons, List.not_mem_nil, or_false] at h
    omega

/-- A unit below the surrogates is a character of its own. -/
theorem mem_units {n : Nat} {text : Str} (hn : n < 0xD800) (h : n ∈ units text) : ∃ c ∈ text, c.toNat = n := by
  obtain ⟨c, hc, hmem⟩ := List.mem_flatMap.mp h
  exact ⟨c, hc, (mem_fromCodePoint hn hmem).symm⟩

theorem head_fromCodePoint (cp : Nat) :
    ∃ u rest, TextDecoder.fromCodePoint cp = u :: rest ∧ (u < 0xD800 → u = cp ∧ rest = []) := by
  unfold TextDecoder.fromCodePoint
  split
  · exact ⟨_, _, rfl, fun _ => ⟨rfl, rfl⟩⟩
  · exact ⟨_, _, rfl, fun h => absurd h (by omega)⟩

theorem units_prefix_iff {s t : Str} (hs : ∀ c ∈ s, c.toNat < 0xD800) : units s <+: units t ↔ s <+: t := by
  induction s generalizing t with
  | nil => simp [units]
  | cons c s ih =>
      have hc := hs c List.mem_cons_self
      have hcode : TextDecoder.fromCodePoint c.toNat = [c.toNat] := by
        rw [TextDecoder.fromCodePoint, if_pos (by omega)]
      cases t with
      | nil => simp [hcode, units]
      | cons c' t =>
          obtain ⟨u, rest, hhead, hsmall⟩ := head_fromCodePoint c'.toNat
          rw [units_cons, units_cons, hcode, hhead, List.singleton_append, List.cons_append, List.cons_prefix_cons,
            List.cons_prefix_cons]
          constructor
          · rintro ⟨rfl, h⟩
            obtain ⟨heq, rfl⟩ := hsmall hc
            exact ⟨Char.toNat_inj.mp heq, (ih fun x hx => hs x (List.mem_cons_of_mem _ hx)).mp h⟩
          · rintro ⟨rfl, h⟩
            rw [hcode, List.cons.injEq] at hhead
            obtain ⟨rfl, rfl⟩ := hhead
            exact ⟨rfl, (ih fun x hx => hs x (List.mem_cons_of_mem _ hx)).mpr h⟩

end ThreeVa.Js
