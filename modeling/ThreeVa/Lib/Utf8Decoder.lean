import ThreeVa.Lib.Utf8

/-!
# Decoding ill-formed UTF-8

The UTF-8 decoder of the encoding standard reads a byte at a time and stands an error for what is no text. What it reads
falls into pieces: scalar values, and ill-formed subparts that are as long as can be.
-/

namespace Text

/-! ## The decoder -/

/-- In the middle of a sequence: the code point so far, the bytes that are missing, and the bounds of the next one. -/
structure Partway where
  codePoint : Nat
  needed : Nat
  lower : UInt8
  upper : UInt8
deriving DecidableEq

/-- What a byte does to the decoder. -/
inductive Utf8Reading
  | scalar (cp : Nat)
  | more (st : Partway)
  | invalid
deriving DecidableEq

def readLead (b : UInt8) : Utf8Reading :=
  if b ≤ 0x7F then .scalar b.toNat
  else if 0xC2 ≤ b ∧ b ≤ 0xDF then .more ⟨(b &&& 0x1F).toNat, 1, 0x80, 0xBF⟩
  else if 0xE0 ≤ b ∧ b ≤ 0xEF then
    .more ⟨(b &&& 0x0F).toNat, 2, if b = 0xE0 then 0xA0 else 0x80, if b = 0xED then 0x9F else 0xBF⟩
  else if 0xF0 ≤ b ∧ b ≤ 0xF4 then
    .more ⟨(b &&& 0x07).toNat, 3, if b = 0xF0 then 0x90 else 0x80, if b = 0xF4 then 0x8F else 0xBF⟩
  else .invalid

def Partway.read (st : Partway) (b : UInt8) : Utf8Reading :=
  if b < st.lower ∨ st.upper < b then .invalid
  else
    let cp := st.codePoint <<< 6 ||| (b &&& 0x3F).toNat
    if st.needed = 1 then .scalar cp else .more ⟨cp, st.needed - 1, 0x80, 0xBF⟩

/-- What is emitted, an error as `none`, before the decoder goes on. -/
def Utf8Reading.emit (after : Option Partway → List (Option Nat)) : Utf8Reading → List (Option Nat)
  | .scalar cp => some cp :: after none
  | .more st => after (some st)
  | .invalid => none :: after none

/-- A byte that does not go on a sequence is an error and then read as the first of its own. -/
def decoder : Option Partway → Bytes → List (Option Nat)
  | none, [] => []
  | some _, [] => [none]
  | none, b :: bs => (readLead b).emit fun st => decoder st bs
  | some st, b :: bs =>
      match st.read b with
      | .invalid => none :: (readLead b).emit fun st => decoder st bs
      | reading => reading.emit fun st => decoder st bs

example : decoder none [0x68, 0xE2, 0x82, 0x41, 0xED, 0xA0, 0xF0, 0x9F] =
    [some 0x68, none, some 0x41, none, none, none] := by decide

/-! ## Bytes by their first bits -/

/-- A byte is a character of its own, one that goes on a sequence, or one that begins a sequence of two, three or four. -/
inductive ByteForm : UInt8 → Prop
  | one {b : UInt8} (h : b.toNat < 0x80) : ByteForm b
  | tail {k : Nat} (h : k < 64) : ByteForm (.ofNat (0x80 + k))
  | two {k : Nat} (h : k < 32) : ByteForm (.ofNat (0xC0 + k))
  | three {k : Nat} (h : k < 16) : ByteForm (.ofNat (0xE0 + k))
  | four {k : Nat} (h : k < 8) : ByteForm (.ofNat (0xF0 + k))
  | other {k : Nat} (h : k < 8) : ByteForm (.ofNat (0xF8 + k))

theorem byteForm (b : UInt8) : ByteForm b := by
  have hlt := b.toNat_lt
  have hform : ∀ {least : Nat}, least ≤ b.toNat → b = .ofNat (least + (b.toNat - least)) := by
    intro least hle
    rw [Nat.add_sub_cancel' hle, UInt8.ofNat_toNat]
  by_cases h1 : b.toNat < 0x80
  · exact .one h1
  · by_cases h2 : b.toNat < 0xC0
    · rw [hform (show 0x80 ≤ b.toNat by omega)]
      exact .tail (by omega)
    · by_cases h3 : b.toNat < 0xE0
      · rw [hform (show 0xC0 ≤ b.toNat by omega)]
        exact .two (by omega)
      · by_cases h4 : b.toNat < 0xF0
        · rw [hform (show 0xE0 ≤ b.toNat by omega)]
          exact .three (by omega)
        · by_cases h5 : b.toNat < 0xF8
          · rw [hform (show 0xF0 ≤ b.toNat by omega)]
            exact .four (by omega)
          · rw [hform (show 0xF8 ≤ b.toNat by omega)]
            exact .other (by omega)

theorem readLead_one {b : UInt8} (h : b.toNat < 0x80) : readLead b = .scalar b.toNat :=
  if_pos (UInt8.le_iff_toNat_le.mpr (Nat.le_of_lt_succ h))

theorem readLead_tail : ∀ k < 64, readLead (.ofNat (0x80 + k)) = .invalid := by decide

theorem readLead_two :
    ∀ k < 32, readLead (.ofNat (0xC0 + k)) = if 2 ≤ k then .more ⟨k, 1, 0x80, 0xBF⟩ else .invalid := by decide

theorem readLead_three :
    ∀ k < 16, readLead (.ofNat (0xE0 + k)) =
      .more ⟨k, 2, if k = 0 then 0xA0 else 0x80, if k = 13 then 0x9F else 0xBF⟩ := by decide

theorem readLead_four :
    ∀ k < 8, readLead (.ofNat (0xF0 + k)) =
      if k ≤ 4 then .more ⟨k, 3, if k = 0 then 0x90 else 0x80, if k = 4 then 0x8F else 0xBF⟩ else .invalid := by decide

theorem readLead_other : ∀ k < 8, readLead (.ofNat (0xF8 + k)) = .invalid := by decide

theorem readLead_scalar {b : UInt8} {cp : Nat} (h : readLead b = .scalar cp) : b.toNat < 0x80 ∧ cp = b.toNat := by
  by_cases hb : b ≤ 0x7F
  · rw [readLead, if_pos hb] at h
    cases h
    exact ⟨Nat.lt_succ_of_le (UInt8.le_iff_toNat_le.mp hb), rfl⟩
  · rw [readLead, if_neg hb] at h
    split at h
    · cases h
    · split at h
      · cases h
      · split at h <;> cases h

/-- Nothing but a byte that goes on a sequence lies within the bounds. -/
def Partway.Bounded (st : Partway) : Prop := 0x80 ≤ st.lower.toNat ∧ st.upper.toNat < 0xC0

theorem Partway.read_tail (st : Partway) {k : Nat} (h : k < 64) :
    st.read (.ofNat (0x80 + k)) =
      if 0x80 + k < st.lower.toNat ∨ st.upper.toNat < 0x80 + k then .invalid
      else if st.needed = 1 then .scalar (st.codePoint * 64 + k)
      else .more ⟨st.codePoint * 64 + k, st.needed - 1, 0x80, 0xBF⟩ := by
  have hbits : ∀ k < 64, (UInt8.ofNat (0x80 + k) &&& 0x3F).toNat = k := by decide
  have hvalue : st.codePoint <<< 6 ||| k = st.codePoint * 64 + k := by
    rw [← Nat.shiftLeft_add_eq_or_of_lt (by omega), Nat.shiftLeft_eq]
  simp only [Partway.read, UInt8.lt_iff_toNat_lt, toNat_ofNat_uint8 (show 0x80 + k < 256 by omega), hbits k h, hvalue]

theorem Partway.read_invalid {st : Partway} (h : st.Bounded) {b : UInt8} (hb : b.toNat < 0x80 ∨ 0xC0 ≤ b.toNat) :
    st.read b = .invalid := by
  obtain ⟨hlower, hupper⟩ := h
  refine if_pos ?_
  rw [UInt8.lt_iff_toNat_lt, UInt8.lt_iff_toNat_lt]
  omega

/-! ## Pieces -/

/-- The code point that the bytes after a first byte complete, and how many of them belong to it. -/
def Partway.follow : Partway → Bytes → Option Nat × Nat
  | _, [] => (none, 0)
  | st, b :: bs =>
      match st.read b with
      | .scalar cp => (some cp, 1)
      | .more st => ((st.follow bs).1, (st.follow bs).2 + 1)
      | .invalid => (none, 0)

def firstPiece (b : UInt8) (bs : Bytes) : Option Nat × Nat :=
  match readLead b with
  | .scalar cp => (some cp, 0)
  | .more st => st.follow bs
  | .invalid => (none, 0)

/-- A scalar value or an ill-formed subpart, with its bytes. -/
structure Utf8Piece where
  item : Option Nat
  bytes : Bytes

def utf8Pieces (bytes : Bytes) : List Utf8Piece :=
  match bytes with
  | [] => []
  | b :: bs => ⟨(firstPiece b bs).1, b :: bs.take (firstPiece b bs).2⟩ :: utf8Pieces (bs.drop (firstPiece b bs).2)
termination_by bytes.length
decreasing_by simp only [List.length_cons, List.length_drop]; omega

theorem pieces_nil : utf8Pieces [] = [] := by rw [utf8Pieces]

theorem pieces_cons (b : UInt8) (bs : Bytes) :
    utf8Pieces (b :: bs) =
      ⟨(firstPiece b bs).1, b :: bs.take (firstPiece b bs).2⟩ :: utf8Pieces (bs.drop (firstPiece b bs).2) := by
  rw [utf8Pieces]

theorem decoder_some (st : Partway) (bs : Bytes) :
    decoder (some st) bs = (st.follow bs).1 :: decoder none (bs.drop (st.follow bs).2) := by
  induction bs generalizing st with
  | nil => rfl
  | cons b bs ih =>
      rw [decoder, Partway.follow]
      cases st.read b with
      | scalar cp => rfl
      | more st => exact ih st
      | invalid => rfl

theorem decoder_cons (b : UInt8) (bs : Bytes) :
    decoder none (b :: bs) = (firstPiece b bs).1 :: decoder none (bs.drop (firstPiece b bs).2) := by
  rw [decoder, firstPiece]
  cases readLead b with
  | scalar cp => rfl
  | more st => exact decoder_some st bs
  | invalid => rfl

/-- Induction on the pieces of a byte string. -/
theorem pieces_induction {motive : Bytes → Prop} (nil : motive [])
    (cons : ∀ b bs, motive (bs.drop (firstPiece b bs).2) → motive (b :: bs)) (bytes : Bytes) : motive bytes := by
  generalize hn : bytes.length = n
  induction n using Nat.strongRecOn generalizing bytes with
  | _ n ih =>
      cases bytes with
      | nil => exact nil
      | cons b bs =>
          refine cons b bs (ih _ ?_ _ rfl)
          rw [← hn, List.length_drop, List.length_cons]
          omega

/-- The decoder emits one item for each piece. -/
theorem decoder_eq_pieces (bytes : Bytes) : decoder none bytes = (utf8Pieces bytes).map Utf8Piece.item := by
  induction bytes using pieces_induction with
  | nil => rw [decoder, pieces_nil, List.map_nil]
  | cons b bs ih => rw [decoder_cons, pieces_cons, List.map_cons, ih]

theorem pieces_flatten (bytes : Bytes) : (utf8Pieces bytes).flatMap Utf8Piece.bytes = bytes := by
  induction bytes using pieces_induction with
  | nil => rw [pieces_nil, List.flatMap_nil]
  | cons b bs ih => rw [pieces_cons, List.flatMap_cons, ih, List.cons_append, List.take_append_drop]

/-! ## Sequences -/

/-- So many bytes that go on a sequence, with the bits they give. -/
def tails (bits : List Nat) : Bytes := bits.map fun k => .ofNat (0x80 + k)

/-- What the bits add to a code point. -/
def addBits (cp : Nat) (bits : List Nat) : Nat := bits.foldl (fun cp k => cp * 64 + k) cp

theorem tails_append (left right : List Nat) : tails (left ++ right) = tails left ++ tails right := List.map_append

theorem tails_length (bits : List Nat) : (tails bits).length = bits.length := List.length_map _

/-- The first bits lie within the bounds of the state. -/
def Partway.Admits (st : Partway) (bits : List Nat) : Prop :=
  ∀ k ∈ bits.head?, st.lower.toNat ≤ 0x80 + k ∧ 0x80 + k ≤ st.upper.toNat

/-- What a sequence takes of the bytes after its first: the bits of each, as many as are missing exactly if it completes. -/
structure Partway.Takes (st : Partway) (bs : Bytes) (piece : Option Nat × Nat) (bits : List Nat) : Prop where
  small : ∀ k ∈ bits, k < 64
  taken : bs.take piece.2 = tails bits
  length : bits.length = piece.2
  admits : st.Admits bits
  short : bits.length ≤ st.needed
  item : piece.1 = if bits.length = st.needed then some (addBits st.codePoint bits) else none

namespace Partway

variable {st : Partway}

theorem Takes.nothing (hneeded : 0 < st.needed) (bs : Bytes) : st.Takes bs (none, 0) [] where
  small := by simp
  taken := rfl
  length := rfl
  admits := by simp [Admits]
  short := Nat.zero_le _
  item := (if_neg hneeded.ne).symm

theorem bounded_tail (cp needed : Nat) : (⟨cp, needed, 0x80, 0xBF⟩ : Partway).Bounded :=
  ⟨show 0x80 ≤ (0x80 : UInt8).toNat by decide, show (0xBF : UInt8).toNat < 0xC0 by decide⟩

theorem bounded_lead {b : UInt8} (h : readLead b = .more st) : st.Bounded ∧ 0 < st.needed := by
  unfold readLead at h
  split at h
  · cases h
  · split at h
    · cases h
      exact ⟨bounded_tail _ _, Nat.one_pos⟩
    · split at h
      · cases h
        refine ⟨⟨?_, ?_⟩, Nat.two_pos⟩
        · show 0x80 ≤ (if b = 0xE0 then 0xA0 else 0x80 : UInt8).toNat
          split <;> decide
        · show (if b = 0xED then 0x9F else 0xBF : UInt8).toNat < 0xC0
          split <;> decide
      · split at h
        · cases h
          refine ⟨⟨?_, ?_⟩, Nat.succ_pos 2⟩
          · show 0x80 ≤ (if b = 0xF0 then 0x90 else 0x80 : UInt8).toNat
            split <;> decide
          · show (if b = 0xF4 then 0x8F else 0xBF : UInt8).toNat < 0xC0
            split <;> decide
        · cases h

theorem admits_tail (cp needed : Nat) {bits : List Nat} (h : ∀ k ∈ bits, k < 64) :
    (⟨cp, needed, 0x80, 0xBF⟩ : Partway).Admits bits := by
  intro k hk
  have hsmall := h k (List.mem_of_mem_head? hk)
  exact ⟨Nat.le_add_right _ _, show 0x80 + k ≤ (0xBF : UInt8).toNat by
    rw [show (0xBF : UInt8).toNat = 0xBF from rfl]
    omega⟩

/-- Every byte of a piece but its first goes the sequence on. -/
theorem takes_follow (h : st.Bounded) (hneeded : 0 < st.needed) (bs : Bytes) : ∃ bits, st.Takes bs (st.follow bs) bits := by
  induction bs generalizing st with
  | nil => exact ⟨[], .nothing hneeded []⟩
  | cons b bs ih =>
      have hinvalid : ∀ {b : UInt8}, st.read b = .invalid → ∃ bits, st.Takes (b :: bs) (st.follow (b :: bs)) bits := by
        intro b hread
        rw [follow, hread]
        exact ⟨[], .nothing hneeded _⟩
      cases byteForm b with
      | one hb => exact hinvalid (read_invalid h (.inl hb))
      | two hk => exact hinvalid (read_invalid h (.inr (by rw [toNat_ofNat_uint8 (by omega)]; omega)))
      | three hk => exact hinvalid (read_invalid h (.inr (by rw [toNat_ofNat_uint8 (by omega)]; omega)))
      | four hk => exact hinvalid (read_invalid h (.inr (by rw [toNat_ofNat_uint8 (by omega)]; omega)))
      | other hk => exact hinvalid (read_invalid h (.inr (by rw [toNat_ofNat_uint8 (by omega)]; omega)))
      | @tail k hk =>
          have hread := st.read_tail hk
          split at hread
          · exact hinvalid hread
          · rename_i hbounds
            have hadmits : st.lower.toNat ≤ 0x80 + k ∧ 0x80 + k ≤ st.upper.toNat := by omega
            split at hread
            · rename_i hone
              rw [follow, hread]
              exact ⟨[k], by simpa using hk, rfl, rfl, by simpa [Admits] using hadmits, by simp [hone], by
                simp [hone, addBits]⟩
            · rename_i hmore
              obtain ⟨bits, hbits⟩ := ih (bounded_tail (st.codePoint * 64 + k) (st.needed - 1)) (by simp; omega)
              rw [follow, hread]
              refine ⟨k :: bits, List.forall_mem_cons.mpr ⟨hk, hbits.small⟩, ?_, congrArg (· + 1) hbits.length,
                by simpa [Admits] using hadmits, ?_, ?_⟩
              · simp only [List.take_succ_cons, hbits.taken]
                rfl
              · have := hbits.short
                simp only [List.length_cons] at this ⊢
                omega
              · have hneeded : (k :: bits).length = st.needed ↔ bits.length = st.needed - 1 := by
                  rw [List.length_cons]
                  omega
                simp only [hbits.item, hneeded]
                rfl

/-- A sequence that goes on as it should completes. -/
theorem follow_tails {bits : List Nat} (hbits : ∀ k ∈ bits, k < 64) (hne : bits ≠ []) (hlength : bits.length = st.needed)
    (hadmits : st.Admits bits) (rest : Bytes) :
    st.follow (tails bits ++ rest) = (some (addBits st.codePoint bits), bits.length) := by
  induction bits generalizing st with
  | nil => exact absurd rfl hne
  | cons k bits ih =>
      rw [List.forall_mem_cons] at hbits
      have hbounds : st.lower.toNat ≤ 0x80 + k ∧ 0x80 + k ≤ st.upper.toNat := by simpa [Admits] using hadmits
      have hread := st.read_tail hbits.1
      rw [if_neg (by omega), ← hlength] at hread
      show follow _ (_ :: (tails bits ++ rest)) = _
      cases bits with
      | nil =>
          rw [follow, hread]
          rfl
      | cons k' bits =>
          rw [if_neg (by simp)] at hread
          have htail := @ih ⟨st.codePoint * 64 + k, (k :: k' :: bits).length - 1, 0x80, 0xBF⟩ hbits.2
            (List.cons_ne_nil _ _) rfl (admits_tail _ _ hbits.2)
          rw [follow, hread]
          simp only [htail]
          rfl

end Partway

/-- The bytes of a piece after its first go a sequence on. -/
theorem firstPiece_tails (b : UInt8) (bs : Bytes) :
    ∃ bits, (∀ k ∈ bits, k < 64) ∧ bs.take (firstPiece b bs).2 = tails bits := by
  rw [firstPiece]
  cases hread : readLead b with
  | scalar cp => exact ⟨[], by simp, rfl⟩
  | invalid => exact ⟨[], by simp, rfl⟩
  | more st =>
      obtain ⟨hbounded, hneeded⟩ := Partway.bounded_lead hread
      obtain ⟨bits, hbits⟩ := st.takes_follow hbounded hneeded bs
      exact ⟨bits, hbits.small, hbits.taken⟩

/-! ## Well-formed pieces -/

theorem toNat_ofNat_char {n : Nat} (h : n.isValidChar) : (Char.ofNat n).toNat = n := by
  have hchar : Char.ofNat n = Char.ofNatAux n h := dif_pos h
  rw [hchar]
  rfl

theorem encodeChar_two {k x : Nat} (hk : k < 32) (hleast : 2 ≤ k) (hx : x < 64) :
    ∃ c : Char, c.toNat = k * 64 + x ∧ encodeChar c = [.ofNat (0xC0 + k), .ofNat (0x80 + x)] := by
  have hvalid : (k * 64 + x).isValidChar := .inl (by omega)
  have hc : (Char.ofNat (k * 64 + x)).toNat = k * 64 + x := toNat_ofNat_char hvalid
  refine ⟨.ofNat (k * 64 + x), hc, ?_⟩
  rw [encodeChar, hc, if_neg (by omega), if_pos (by omega), show (k * 64 + x) / 64 = k by omega,
    show (k * 64 + x) % 64 = x by omega]

theorem encodeChar_three {k x y : Nat} (hk : k < 16) (hx : x < 64) (hy : y < 64) (hzero : k = 0 → 32 ≤ x)
    (hsurrogate : k = 13 → x < 32) :
    ∃ c : Char, c.toNat = (k * 64 + x) * 64 + y ∧
      encodeChar c = [.ofNat (0xE0 + k), .ofNat (0x80 + x), .ofNat (0x80 + y)] := by
  have hvalid : ((k * 64 + x) * 64 + y).isValidChar := by
    unfold Nat.isValidChar
    omega
  have hc : (Char.ofNat ((k * 64 + x) * 64 + y)).toNat = (k * 64 + x) * 64 + y := toNat_ofNat_char hvalid
  refine ⟨.ofNat ((k * 64 + x) * 64 + y), hc, ?_⟩
  rw [encodeChar, hc, if_neg (by omega), if_neg (by omega), if_pos (by omega),
    show ((k * 64 + x) * 64 + y) / 4096 = k by omega, show ((k * 64 + x) * 64 + y) / 64 % 64 = x by omega,
    show ((k * 64 + x) * 64 + y) % 64 = y by omega]

theorem encodeChar_four {k x y z : Nat} (hk : k ≤ 4) (hx : x < 64) (hy : y < 64) (hz : z < 64) (hzero : k = 0 → 16 ≤ x)
    (hmost : k = 4 → x < 16) :
    ∃ c : Char, c.toNat = ((k * 64 + x) * 64 + y) * 64 + z ∧
      encodeChar c = [.ofNat (0xF0 + k), .ofNat (0x80 + x), .ofNat (0x80 + y), .ofNat (0x80 + z)] := by
  have hvalid : (((k * 64 + x) * 64 + y) * 64 + z).isValidChar := by
    unfold Nat.isValidChar
    omega
  have hc : (Char.ofNat (((k * 64 + x) * 64 + y) * 64 + z)).toNat = ((k * 64 + x) * 64 + y) * 64 + z :=
    toNat_ofNat_char hvalid
  refine ⟨.ofNat (((k * 64 + x) * 64 + y) * 64 + z), hc, ?_⟩
  rw [encodeChar, hc, if_neg (by omega), if_neg (by omega), if_neg (by omega),
    show (((k * 64 + x) * 64 + y) * 64 + z) / 262144 = k by omega,
    show (((k * 64 + x) * 64 + y) * 64 + z) / 4096 % 64 = x by omega,
    show (((k * 64 + x) * 64 + y) * 64 + z) / 64 % 64 = y by omega,
    show (((k * 64 + x) * 64 + y) * 64 + z) % 64 = z by omega]

/-- The sequences of a first byte encode characters. -/
def Partway.Encodes (b : UInt8) (st : Partway) : Prop :=
  ∀ bits, (∀ k ∈ bits, k < 64) → bits.length = st.needed → st.Admits bits →
    ∃ c : Char, c.toNat = addBits st.codePoint bits ∧ encodeChar c = b :: tails bits

theorem Partway.admits_cons {st : Partway} {x : Nat} {bits : List Nat} :
    st.Admits (x :: bits) ↔ st.lower.toNat ≤ 0x80 + x ∧ 0x80 + x ≤ st.upper.toNat := by simp [Partway.Admits]

theorem encodes_two {k : Nat} (hk : k < 32) (hleast : 2 ≤ k) :
    Partway.Encodes (.ofNat (0xC0 + k)) ⟨k, 1, 0x80, 0xBF⟩ := by
  intro bits hsmall hlength _
  obtain ⟨x, rfl⟩ := List.length_eq_one_iff.mp hlength
  exact encodeChar_two hk hleast (hsmall x (List.mem_singleton_self x))

theorem encodes_three {k : Nat} (hk : k < 16) :
    Partway.Encodes (.ofNat (0xE0 + k)) ⟨k, 2, if k = 0 then 0xA0 else 0x80, if k = 13 then 0x9F else 0xBF⟩ := by
  intro bits hsmall hlength hadmits
  obtain ⟨x, y, rfl⟩ := List.length_eq_two.mp hlength
  simp only [List.mem_cons, List.not_mem_nil, or_false, forall_eq_or_imp, forall_eq] at hsmall
  obtain ⟨hlower, hupper⟩ := Partway.admits_cons.mp hadmits
  refine encodeChar_three hk hsmall.1 hsmall.2 (fun hzero => ?_) (fun hsurrogate => ?_)
  · subst hzero
    simp at hlower
    omega
  · subst hsurrogate
    simp at hupper
    omega

theorem encodes_four {k : Nat} (hk : k ≤ 4) :
    Partway.Encodes (.ofNat (0xF0 + k)) ⟨k, 3, if k = 0 then 0x90 else 0x80, if k = 4 then 0x8F else 0xBF⟩ := by
  intro bits hsmall hlength hadmits
  obtain ⟨x, y, z, rfl⟩ := List.length_eq_three.mp hlength
  simp only [List.mem_cons, List.not_mem_nil, or_false, forall_eq_or_imp, forall_eq] at hsmall
  obtain ⟨hlower, hupper⟩ := Partway.admits_cons.mp hadmits
  refine encodeChar_four hk hsmall.1 hsmall.2.1 hsmall.2.2 (fun hzero => ?_) (fun hmost => ?_)
  · subst hzero
    simp at hlower
    omega
  · subst hmost
    simp at hupper
    omega

theorem encodes_lead {b : UInt8} {st : Partway} (h : readLead b = .more st) : st.Encodes b := by
  cases byteForm b with
  | one hb =>
      rw [readLead_one hb] at h
      cases h
  | @tail k hk =>
      rw [readLead_tail k hk] at h
      cases h
  | @other k hk =>
      rw [readLead_other k hk] at h
      cases h
  | @two k hk =>
      rw [readLead_two k hk] at h
      split at h
      · cases h
        exact encodes_two hk ‹_›
      · cases h
  | @three k hk =>
      rw [readLead_three k hk] at h
      cases h
      exact encodes_three hk
  | @four k hk =>
      rw [readLead_four k hk] at h
      split at h
      · cases h
        exact encodes_four ‹_›
      · cases h

/-- A piece with a scalar value is the encoding of it. -/
theorem firstPiece_encodes {b : UInt8} {bs : Bytes} {cp : Nat} (h : (firstPiece b bs).1 = some cp) :
    ∃ c : Char, c.toNat = cp ∧ encodeChar c = b :: bs.take (firstPiece b bs).2 := by
  rw [firstPiece] at h ⊢
  cases hread : readLead b with
  | invalid =>
      rw [hread] at h
      cases h
  | scalar n =>
      rw [hread] at h
      cases h
      obtain ⟨hb, rfl⟩ := readLead_scalar hread
      have hc : (Char.ofNat b.toNat).toNat = b.toNat := toNat_ofNat_char (.inl (by omega))
      refine ⟨.ofNat b.toNat, hc, ?_⟩
      rw [encodeChar, hc, if_pos hb, UInt8.ofNat_toNat]
      rfl
  | more st =>
      simp only [hread] at h
      obtain ⟨hbounded, hneeded⟩ := Partway.bounded_lead hread
      obtain ⟨bits, hbits⟩ := st.takes_follow hbounded hneeded bs
      have hitem := hbits.item
      rw [h] at hitem
      split at hitem
      · obtain rfl := Option.some.inj hitem
        obtain ⟨c, hc, hencode⟩ := encodes_lead hread bits hbits.small ‹_› hbits.admits
        exact ⟨c, hc, by rw [hencode, hbits.taken]⟩
      · cases hitem

theorem pieces_encode {bytes : Bytes} {p : Utf8Piece} (hp : p ∈ utf8Pieces bytes) {cp : Nat} (h : p.item = some cp) :
    ∃ c : Char, c.toNat = cp ∧ encodeChar c = p.bytes := by
  induction bytes using pieces_induction with
  | nil =>
      rw [pieces_nil] at hp
      cases hp
  | cons b bs ih =>
      rw [pieces_cons] at hp
      rcases List.mem_cons.mp hp with rfl | hp
      · exact firstPiece_encodes h
      · exact ih hp

/-- A byte string without ill-formed subparts is the encoding of a text. -/
theorem encoded_of_pieces {bytes : Bytes} (h : ∀ p ∈ utf8Pieces bytes, p.item ≠ none) :
    ∃ text, encodeUtf8 text = bytes := by
  induction bytes using pieces_induction with
  | nil => exact ⟨[], rfl⟩
  | cons b bs ih =>
      rw [pieces_cons, List.forall_mem_cons] at h
      obtain ⟨cp, hcp⟩ := Option.ne_none_iff_exists'.mp h.1
      obtain ⟨c, -, hc⟩ := firstPiece_encodes hcp
      obtain ⟨text, htext⟩ := ih h.2
      refine ⟨c :: text, ?_⟩
      rw [encodeUtf8, List.flatMap_cons, hc, ← encodeUtf8, htext, List.cons_append, List.take_append_drop]

end Text
