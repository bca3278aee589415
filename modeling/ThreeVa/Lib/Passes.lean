import ThreeVa.Lib.Utf8

/-!
# Passes over the bytes of a text

A pass looks at the byte before a position and at the bytes from there on. It goes over a construct and writes something
for it, or it writes the byte as a character of its own.
-/

namespace Text

/-- `b as char`. -/
def byteChar (b : UInt8) : Char := Char.ofNat b.toNat

/-- `b'c'`. -/
def byteOf (c : Char) : UInt8 := .ofNat c.toNat

/-- What stands at a position, after one byte and before the others: how many bytes are passed over, and what is written
for them. -/
abbrev Finder := Option UInt8 → Bytes → Option (Nat × Str)

/-- A pass that still has to go over some bytes of a construct. -/
def runPass (find : Finder) : Option UInt8 → Nat → Bytes → Str
  | _, _, [] => []
  | _, skip + 1, b :: rest => runPass find (some b) skip rest
  | before, 0, b :: rest =>
      match find before (b :: rest) with
      | some (n, written) => written ++ runPass find (some b) (n - 1) rest
      | none => byteChar b :: runPass find (some b) 0 rest

/-! ## Pieces -/

/-- A byte outside the constructs, or a construct with what is written for it. -/
inductive Piece
  | kept (b : UInt8)
  | construct (bytes : Bytes) (written : Str)

def Piece.source : Piece → Bytes
  | .kept b => [b]
  | .construct bytes _ => bytes

def Piece.shown : Piece → Str
  | .kept b => [byteChar b]
  | .construct _ written => written

/-- The bytes that should be written: those outside the constructs as they are. -/
def Piece.wanted : Piece → Bytes
  | .kept b => [b]
  | .construct _ written => encodeUtf8 written

def pieces (find : Finder) : Option UInt8 → Nat → Bytes → List Piece
  | _, _, [] => []
  | _, skip + 1, b :: rest => pieces find (some b) skip rest
  | before, 0, b :: rest =>
      match find before (b :: rest) with
      | some (n, written) => .construct ((b :: rest).take n) written :: pieces find (some b) (n - 1) rest
      | none => .kept b :: pieces find (some b) 0 rest

section Pieces

variable {find : Finder}

theorem runPass_eq_shown (before : Option UInt8) (skip : Nat) (bs : Bytes) :
    runPass find before skip bs = (pieces find before skip bs).flatMap Piece.shown := by
  induction bs generalizing before skip with
  | nil => rfl
  | cons b rest ih =>
      cases skip with
      | succ skip => exact ih (some b) skip
      | zero =>
          rw [runPass, pieces]
          cases find before (b :: rest) with
          | none => exact congrArg (byteChar b :: ·) (ih (some b) 0)
          | some found => exact congrArg (found.2 ++ ·) (ih (some b) (found.1 - 1))

/-- The pieces are the whole text, if a construct has a byte at least. -/
theorem pieces_source (hpos : ∀ before bs n written, find before bs = some (n, written) → 0 < n)
    (before : Option UInt8) (skip : Nat) (bs : Bytes) :
    (pieces find before skip bs).flatMap Piece.source = bs.drop skip := by
  induction bs generalizing before skip with
  | nil => simp [pieces]
  | cons b rest ih =>
      cases skip with
      | succ skip => exact ih (some b) skip
      | zero =>
          rw [pieces]
          cases hfind : find before (b :: rest) with
          | none => rw [List.flatMap_cons, ih]; rfl
          | some found =>
              obtain ⟨n, written⟩ := found
              obtain ⟨m, rfl⟩ := Nat.exists_eq_add_of_lt (hpos _ _ _ _ hfind)
              rw [List.flatMap_cons, ih, Piece.source, Nat.zero_add, Nat.add_sub_cancel, List.take_succ_cons,
                List.cons_append, List.take_append_drop, List.drop_zero]

end Pieces

/-! ## Bytes beyond ASCII -/

theorem byteChar_toNat (b : UInt8) : (byteChar b).toNat = b.toNat := by
  have hvalid : b.toNat.isValidChar := .inl (by have := b.toNat_lt; omega)
  unfold byteChar Char.ofNat
  rw [dif_pos hvalid]
  rfl

theorem length_encodeChar_byteChar (b : UInt8) :
    (encodeChar (byteChar b)).length = if b.toNat < 0x80 then 1 else 2 := by
  have hmax := b.toNat_lt
  unfold encodeChar
  simp only [byteChar_toNat]
  split
  · rfl
  · rw [if_pos (by omega)]
    rfl

theorem encodeChar_byteChar {b : UInt8} (h : b.toNat < 0x80) : encodeChar (byteChar b) = [b] := by
  unfold encodeChar
  simp only [byteChar_toNat, h, ↓reduceIte, UInt8.ofNat_toNat]

/-- The text says what it should exactly if every byte outside the constructs is ASCII. -/
theorem encode_shown_iff (ps : List Piece) :
    encodeUtf8 (ps.flatMap Piece.shown) = ps.flatMap Piece.wanted ↔ ∀ b, .kept b ∈ ps → b.toNat < 0x80 := by
  -- a byte beyond ASCII takes two bytes as a character, so the text that is written is too long
  have hlength : (ps.flatMap Piece.wanted).length ≤ (encodeUtf8 (ps.flatMap Piece.shown)).length ∧
      ((encodeUtf8 (ps.flatMap Piece.shown)).length = (ps.flatMap Piece.wanted).length →
        ∀ b, .kept b ∈ ps → b.toNat < 0x80) := by
    induction ps with
    | nil => simp [encodeUtf8]
    | cons p ps ih =>
        rw [List.flatMap_cons, List.flatMap_cons, encodeUtf8_append, List.length_append, List.length_append]
        cases p with
        | kept b =>
            have hb : (encodeUtf8 (Piece.kept b).shown).length = if b.toNat < 0x80 then 1 else 2 := by
              rw [← length_encodeChar_byteChar]
              simp [Piece.shown, encodeUtf8]
            have hone : (Piece.kept b).wanted.length = 1 := rfl
            rw [hb, hone]
            refine ⟨by split <;> omega, fun heq => ?_⟩
            have hascii : b.toNat < 0x80 := by
              by_contra hb
              rw [if_neg hb] at heq
              omega
            rw [if_pos hascii] at heq
            intro b' hmem
            rcases List.mem_cons.mp hmem with h | h
            · cases h
              exact hascii
            · exact ih.2 (by omega) b' h
        | construct bytes written =>
            have hsame : (Piece.construct bytes written).wanted = encodeUtf8 (Piece.construct bytes written).shown := rfl
            rw [hsame]
            refine ⟨by omega, fun heq b hmem => ?_⟩
            exact ih.2 (by omega) b ((List.mem_cons.mp hmem).resolve_left (by simp))
  refine ⟨fun h => hlength.2 (congrArg List.length h), fun h => ?_⟩
  clear hlength
  induction ps with
  | nil => rfl
  | cons p ps ih =>
      rw [List.flatMap_cons, List.flatMap_cons, encodeUtf8_append, ih fun b hb => h b (List.mem_cons_of_mem _ hb)]
      cases p with
      | kept b =>
          have hb := encodeChar_byteChar (h b List.mem_cons_self)
          simp [Piece.shown, Piece.wanted, encodeUtf8, hb]
      | construct bytes written => rfl

end Text
