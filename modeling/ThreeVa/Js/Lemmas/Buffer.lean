import ThreeVa.Js.Buffer
import ThreeVa.Js.Lemmas.IllFormed

/-!
# Codecs of buffers

Each codec on its own, then the names that select it. The integer methods agree on the bytes of a number.
-/

namespace ThreeVa.Js.Buffer
open Text

/-! ## Bytes of a number -/

/-- The byte of a number that counts so many units each. -/
def digit (v unit : Int) : UInt8 := .ofNat (v / unit % 256).toNat

theorem toNat_digit (v unit : Int) : ((digit v unit).toNat : Int) = v / unit % 256 := by
  rw [digit, toNat_ofNat_uint8 (by omega)]
  omega

theorem toNat_mask (x : BitVec 32) : (x &&& 0xFF).toNat = x.toNat % 256 := by
  rw [BitVec.toNat_and]
  exact Nat.and_two_pow_sub_one_eq_mod _ 8

theorem toNat_eq_emod (x : BitVec 32) : (x.toNat : Int) = x.toInt % 4294967296 := by
  have hlt := x.isLt
  rw [BitVec.toInt_eq_toNat_cond]
  split <;> omega

theorem toInt32_emod (v : Int) : (toInt32 v).toInt % 4294967296 = v % 4294967296 := by
  rw [toInt32, BitVec.toInt_ofInt]
  exact Int.bmod_emod

theorem mask_zero (v : Int) : ((toInt32 v &&& 0xFF).toNat : Int) = v / 1 % 256 := by
  have hv := toInt32_emod v
  rw [toNat_mask]
  have hx := toNat_eq_emod (toInt32 v)
  omega

theorem mask_eight (v : Int) : (((toInt32 v).sshiftRight 8 &&& 0xFF).toNat : Int) = v / 256 % 256 := by
  have hv := toInt32_emod v
  have hx := toNat_eq_emod ((toInt32 v).sshiftRight 8)
  rw [BitVec.toInt_sshiftRight, Int.shiftRight_eq_div_pow] at hx
  rw [toNat_mask]
  omega

theorem mask_sixteen (v : Int) : (((toInt32 v).sshiftRight 16 &&& 0xFF).toNat : Int) = v / 65536 % 256 := by
  have hv := toInt32_emod v
  have hx := toNat_eq_emod ((toInt32 v).sshiftRight 16)
  rw [BitVec.toInt_sshiftRight, Int.shiftRight_eq_div_pow] at hx
  rw [toNat_mask]
  omega

theorem mask_top (v : Int) : ((toInt32 v >>> 24 &&& 0xFF).toNat : Int) = v / 16777216 % 256 := by
  have hv := toInt32_emod v
  have hx := toNat_eq_emod (toInt32 v)
  rw [toNat_mask, BitVec.toNat_ushiftRight, Nat.shiftRight_eq_div_pow]
  omega

theorem setByte_eq {x : BitVec 32} {v unit : Int} (h : (x.toNat : Int) = v / unit % 256) (b : Bytes) (o : Nat) :
    setByte b o x = b.set o (digit v unit) := by
  rw [setByte, digit, ← h, Int.toNat_natCast]

/-! ## Numbers of bytes -/

theorem or_shift {x : BitVec 32} {k y : Nat} (hx : x.toNat < 2 ^ k) (hy : y < 256) (hk : k ≤ 24) :
    (x ||| BitVec.ofNat 32 y <<< k).toNat = x.toNat + y * 2 ^ k := by
  have hpow : 2 ^ k ≤ 2 ^ 24 := Nat.pow_le_pow_right (by decide) hk
  have hshift : (BitVec.ofNat 32 y <<< k).toNat = y <<< k := by
    rw [BitVec.toNat_shiftLeft, BitVec.toNat_ofNat, Nat.mod_eq_of_lt (show y < 2 ^ 32 by omega), Nat.shiftLeft_eq]
    refine Nat.mod_eq_of_lt ?_
    calc y * 2 ^ k ≤ 255 * 2 ^ 24 := Nat.mul_le_mul (by omega) hpow
      _ < 2 ^ 32 := by decide
  rw [BitVec.toNat_or, hshift, Nat.or_comm, ← Nat.shiftLeft_add_eq_or_of_lt hx, Nat.shiftLeft_eq, Nat.add_comm]

section Little

variable {w x y z : Nat}

theorem little_two (hw : w < 256) (hx : x < 256) :
    (BitVec.ofNat 32 w ||| BitVec.ofNat 32 x <<< 8).toNat = w + x * 256 := by
  have hfirst : (BitVec.ofNat 32 w).toNat = w := by
    rw [BitVec.toNat_ofNat]
    omega
  rw [or_shift (by omega) hx (by decide), hfirst]
  rfl

theorem little_three (hw : w < 256) (hx : x < 256) (hy : y < 256) :
    (BitVec.ofNat 32 w ||| BitVec.ofNat 32 x <<< 8 ||| BitVec.ofNat 32 y <<< 16).toNat = w + x * 256 + y * 65536 := by
  have hfirst := little_two hw hx
  rw [or_shift (by omega) hy (by decide), hfirst]
  rfl

theorem little_four (hw : w < 256) (hx : x < 256) (hy : y < 256) (hz : z < 256) :
    (BitVec.ofNat 32 w ||| BitVec.ofNat 32 x <<< 8 ||| BitVec.ofNat 32 y <<< 16 ||| BitVec.ofNat 32 z <<< 24).toNat =
      w + x * 256 + y * 65536 + z * 16777216 := by
  have hfirst := little_three hw hx hy
  rw [or_shift (by omega) hz (by decide), hfirst]
  rfl

end Little

theorem or_three (x y z : BitVec 32) : x ||| y ||| z = z ||| y ||| x := by ac_rfl

theorem or_four (w x y z : BitVec 32) : w ||| x ||| y ||| z = z ||| y ||| x ||| w := by ac_rfl

theorem toInt_of_lt {x : BitVec 32} (h : x.toNat < 2147483648) : x.toInt = x.toNat := by
  rw [BitVec.toInt_eq_toNat_cond, if_pos (by omega)]

/-- The number at an offset, from its first byte on or from its last. -/
def little (b : Bytes) (o : Nat) : Int :=
  (b.getD o 0).toNat + (b.getD (o + 1) 0).toNat * 256 + (b.getD (o + 2) 0).toNat * 65536 +
    (b.getD (o + 3) 0).toNat * 16777216

def big (b : Bytes) (o : Nat) : Int :=
  (b.getD (o + 3) 0).toNat + (b.getD (o + 2) 0).toNat * 256 + (b.getD (o + 1) 0).toNat * 65536 +
    (b.getD o 0).toNat * 16777216

theorem getD_lt (b : Bytes) (o : Nat) : (b.getD o 0).toNat < 256 := UInt8.toNat_lt _

theorem toInt_byteAt (b : Bytes) (o : Nat) : (byteAt b o).toInt = (b.getD o 0).toNat := by
  have hlt := getD_lt b o
  have hbyte : (byteAt b o).toNat = (b.getD o 0).toNat := by
    rw [byteAt, BitVec.toNat_ofNat]
    omega
  rw [toInt_of_lt (by omega), hbyte]

section Read

variable (b : Bytes) (o : Nat)

theorem readUInt8_eq : readUInt8 b o = (b.getD o 0).toNat := by
  have hlt := getD_lt b o
  rw [readUInt8, toInt_byteAt, toUint32]
  omega

theorem readUInt16LE_eq : readUInt16LE b o = (b.getD o 0).toNat + (b.getD (o + 1) 0).toNat * 256 := by
  have h0 := getD_lt b o
  have h1 := getD_lt b (o + 1)
  have hnat := little_two h0 h1
  rw [readUInt16LE, byteAt, byteAt, toInt_of_lt (by omega), hnat, toUint32]
  omega

theorem readUInt16BE_eq : readUInt16BE b o = (b.getD (o + 1) 0).toNat + (b.getD o 0).toNat * 256 := by
  have h0 := getD_lt b o
  have h1 := getD_lt b (o + 1)
  have hnat := little_two h1 h0
  rw [readUInt16BE, byteAt, byteAt, BitVec.or_comm, toInt_of_lt (by omega), hnat, toUint32]
  omega

theorem readUInt32LE_eq : readUInt32LE b o = little b o := by
  have h0 := getD_lt b o
  have h1 := getD_lt b (o + 1)
  have h2 := getD_lt b (o + 2)
  have h3 := getD_lt b (o + 3)
  have hnat := little_three h0 h1 h2
  rw [readUInt32LE, toInt_byteAt, byteAt, byteAt, byteAt, toInt_of_lt (by omega), hnat, toUint32, little]
  omega

theorem readUInt32BE_eq : readUInt32BE b o = big b o := by
  have h0 := getD_lt b o
  have h1 := getD_lt b (o + 1)
  have h2 := getD_lt b (o + 2)
  have h3 := getD_lt b (o + 3)
  have hnat := little_three h3 h2 h1
  rw [readUInt32BE, toInt_byteAt, or_three, byteAt, byteAt, byteAt, toInt_of_lt (by omega), hnat, toUint32, big]
  omega

/-- The signed reading of 32 bits. -/
def signed32 (v : Int) : Int := if v < 2147483648 then v else v - 4294967296

theorem toInt_eq_signed {x : BitVec 32} {v : Int} (h : (x.toNat : Int) = v) : x.toInt = signed32 v := by
  rw [BitVec.toInt_eq_toNat_cond, signed32, ← h]
  split <;> split <;> omega

theorem readInt32LE_eq : readInt32LE b o = signed32 (little b o) := by
  refine toInt_eq_signed ?_
  rw [byteAt, byteAt, byteAt, byteAt, little_four (getD_lt _ _) (getD_lt _ _) (getD_lt _ _) (getD_lt _ _), little]
  omega

theorem readInt32BE_eq : readInt32BE b o = signed32 (big b o) := by
  refine toInt_eq_signed ?_
  rw [or_four, byteAt, byteAt, byteAt, byteAt, little_four (getD_lt _ _) (getD_lt _ _) (getD_lt _ _) (getD_lt _ _), big]
  omega

end Read

/-! ## Writing -/

theorem getD_set {b : Bytes} {o : Nat} (h : o < b.length) (x : UInt8) (i : Nat) :
    (b.set o x).getD i 0 = if o = i then x else b.getD i 0 := by
  rw [List.getD_eq_getElem?_getD, List.getElem?_set, List.getD_eq_getElem?_getD]
  by_cases hi : o = i
  · rw [if_pos hi, if_pos hi, if_pos h, Option.getD_some]
  · rw [if_neg hi, if_neg hi]

/-- Four digits of a number side by side. -/
def placed (b : Bytes) (v : Int) (o : Nat) (u₀ u₁ u₂ u₃ : Int) : Bytes :=
  (((b.set o (digit v u₀)).set (o + 1) (digit v u₁)).set (o + 2) (digit v u₂)).set (o + 3) (digit v u₃)

section Placed

variable {b : Bytes} {v : Int} {o : Nat} {u₀ u₁ u₂ u₃ : Int}

theorem length_placed : (placed b v o u₀ u₁ u₂ u₃).length = b.length := by simp [placed]

theorem getD_placed (h : o + 4 ≤ b.length) (i : Nat) :
    (placed b v o u₀ u₁ u₂ u₃).getD i 0 =
      if o + 3 = i then digit v u₃ else if o + 2 = i then digit v u₂ else if o + 1 = i then digit v u₁
      else if o = i then digit v u₀ else b.getD i 0 := by
  rw [placed, getD_set (by simp; omega), getD_set (by simp; omega), getD_set (by simp; omega), getD_set (by omega)]

theorem little_placed (h : o + 4 ≤ b.length) : little (placed b v o 1 256 65536 16777216) o = v % 4294967296 := by
  have h0 := toNat_digit v 1
  have h1 := toNat_digit v 256
  have h2 := toNat_digit v 65536
  have h3 := toNat_digit v 16777216
  simp only [little, getD_placed h, Nat.add_eq_left, ↓reduceIte, Nat.reduceEqDiff]
  omega

theorem big_placed (h : o + 4 ≤ b.length) : big (placed b v o 16777216 65536 256 1) o = v % 4294967296 := by
  have h0 := toNat_digit v 1
  have h1 := toNat_digit v 256
  have h2 := toNat_digit v 65536
  have h3 := toNat_digit v 16777216
  simp only [big, getD_placed h, Nat.add_eq_left, ↓reduceIte, Nat.reduceEqDiff]
  omega

/-- Four bytes elsewhere are left alone. -/
theorem getD_placed_of_ne (h : o + 4 ≤ b.length) {i : Nat} (hi : i < o ∨ o + 4 ≤ i) :
    (placed b v o u₀ u₁ u₂ u₃).getD i 0 = b.getD i 0 := by
  rw [getD_placed h, if_neg (by omega), if_neg (by omega), if_neg (by omega), if_neg (by omega)]

theorem little_placed_of_ne (h : o + 4 ≤ b.length) {i : Nat} (hi : i + 4 ≤ o ∨ o + 4 ≤ i) :
    little (placed b v o u₀ u₁ u₂ u₃) i = little b i := by
  simp only [little, getD_placed_of_ne h (show i < o ∨ o + 4 ≤ i by omega),
    getD_placed_of_ne h (show i + 1 < o ∨ o + 4 ≤ i + 1 by omega),
    getD_placed_of_ne h (show i + 2 < o ∨ o + 4 ≤ i + 2 by omega),
    getD_placed_of_ne h (show i + 3 < o ∨ o + 4 ≤ i + 3 by omega)]

theorem big_placed_of_ne (h : o + 4 ≤ b.length) {i : Nat} (hi : i + 4 ≤ o ∨ o + 4 ≤ i) :
    big (placed b v o u₀ u₁ u₂ u₃) i = big b i := by
  simp only [big, getD_placed_of_ne h (show i < o ∨ o + 4 ≤ i by omega),
    getD_placed_of_ne h (show i + 1 < o ∨ o + 4 ≤ i + 1 by omega),
    getD_placed_of_ne h (show i + 2 < o ∨ o + 4 ≤ i + 2 by omega),
    getD_placed_of_ne h (show i + 3 < o ∨ o + 4 ≤ i + 3 by omega)]

end Placed

section Write

variable (b : Bytes) (v : Int) (o : Nat)

theorem writeUInt32LE_eq : writeUInt32LE b v o = (placed b v o 1 256 65536 16777216, o + 4) := by
  rw [writeUInt32LE, setByte_eq (mask_zero v), setByte_eq (mask_eight v), setByte_eq (mask_sixteen v),
    setByte_eq (mask_top v), placed]

theorem writeUInt32BE_eq : writeUInt32BE b v o = (placed b v o 16777216 65536 256 1, o + 4) := by
  rw [writeUInt32BE, setByte_eq (mask_zero v), setByte_eq (mask_eight v), setByte_eq (mask_sixteen v),
    setByte_eq (mask_top v), placed]

theorem writeBigUInt64LE_eq :
    (writeBigUInt64LE b v o).1 =
      placed (placed b (v % 4294967296) o 1 256 65536 16777216) (v / 4294967296 % 4294967296) (o + 4) 1 256 65536
        16777216 := by
  simp only [writeBigUInt64LE, writeUInt32LE_eq, asUint32, Int.shiftRight_eq_div_pow]
  rfl

theorem writeBigUInt64BE_eq :
    (writeBigUInt64BE b v o).1 =
      placed (placed b (v / 4294967296 % 4294967296) o 16777216 65536 256 1) (v % 4294967296) (o + 4) 16777216 65536
        256 1 := by
  simp only [writeBigUInt64BE, writeUInt32BE_eq, asUint32, Int.shiftRight_eq_div_pow]
  rfl

end Write

/-- Eight bytes read back the number up to a multiple of what they can hold. -/
theorem readBigUInt64LE_written {b : Bytes} {o : Nat} (h : o + 8 ≤ b.length) (v : Int) :
    readBigUInt64LE (writeBigUInt64LE b v o).1 o = v % 18446744073709551616 := by
  have hlength : ∀ {v : Int} {u₀ u₁ u₂ u₃ : Int}, o + 4 + 4 ≤ (placed b v o u₀ u₁ u₂ u₃).length := by
    intros
    rw [length_placed]
    omega
  rw [writeBigUInt64LE_eq, readBigUInt64LE]
  simp only [readUInt32LE_eq]
  rw [little_placed_of_ne hlength (by omega), little_placed (by omega), little_placed hlength]
  omega

theorem readBigUInt64BE_written {b : Bytes} {o : Nat} (h : o + 8 ≤ b.length) (v : Int) :
    readBigUInt64BE (writeBigUInt64BE b v o).1 o = v % 18446744073709551616 := by
  have hlength : ∀ {v : Int} {u₀ u₁ u₂ u₃ : Int}, o + 4 + 4 ≤ (placed b v o u₀ u₁ u₂ u₃).length := by
    intros
    rw [length_placed]
    omega
  rw [writeBigUInt64BE_eq, readBigUInt64BE]
  simp only [readUInt32BE_eq]
  rw [big_placed_of_ne hlength (by omega), big_placed (by omega), big_placed hlength]
  omega

theorem read_write (f : Format) {b : Bytes} {o : Nat} (h : o + f.width ≤ b.length) {v : Int} (hv : f.InRange v) :
    f.read (f.write b v o).1 o = v := by
  have h0 := toNat_digit v 1
  have h1 := toNat_digit v 256
  cases f with
  | uInt8 =>
      have hbounds : 0 ≤ v ∧ v < 0x100 := hv
      show readUInt8 (writeUInt8 b v o).1 o = v
      rw [writeUInt8, setByte_eq (mask_zero v), readUInt8_eq, getD_set h, if_pos rfl]
      omega
  | int8 =>
      have hbounds : -0x100 ≤ 2 * v ∧ 2 * v < 0x100 := hv
      show readInt8 (writeInt8 b v o).1 o = v
      have hbyte := toNat_digit (if v < 0 then v + 0x100 else v) 1
      rw [writeInt8, setByte_eq (mask_zero _), readInt8, toInt_byteAt, getD_set h, if_pos rfl, hbyte]
      split at hbyte <;> split <;> omega
  | uInt16LE =>
      have hbounds : 0 ≤ v ∧ v < 0x10000 := hv
      have hlength : o + 2 ≤ b.length := h
      show readUInt16LE (writeUInt16LE b v o).1 o = v
      rw [writeUInt16LE, setByte_eq (mask_zero v), setByte_eq (mask_eight v), readUInt16LE_eq,
        getD_set (by rw [List.length_set]; omega), if_neg (by omega), getD_set (by omega), if_pos rfl,
        getD_set (by rw [List.length_set]; omega), if_pos rfl]
      omega
  | uInt16BE =>
      have hbounds : 0 ≤ v ∧ v < 0x10000 := hv
      have hlength : o + 2 ≤ b.length := h
      show readUInt16BE (writeUInt16BE b v o).1 o = v
      rw [writeUInt16BE, setByte_eq (mask_zero v), setByte_eq (mask_eight v), readUInt16BE_eq,
        getD_set (by rw [List.length_set]; omega), if_pos rfl, getD_set (by rw [List.length_set]; omega),
        if_neg (by omega), getD_set (by omega), if_pos rfl]
      omega
  | uInt32LE =>
      have hbounds : 0 ≤ v ∧ v < 0x100000000 := hv
      show readUInt32LE (writeUInt32LE b v o).1 o = v
      rw [writeUInt32LE_eq, readUInt32LE_eq, little_placed h]
      omega
  | uInt32BE =>
      have hbounds : 0 ≤ v ∧ v < 0x100000000 := hv
      show readUInt32BE (writeUInt32BE b v o).1 o = v
      rw [writeUInt32BE_eq, readUInt32BE_eq, big_placed h]
      omega
  | int32LE =>
      have hbounds : -0x100000000 ≤ 2 * v ∧ 2 * v < 0x100000000 := hv
      show readInt32LE (writeUInt32LE b v o).1 o = v
      rw [writeUInt32LE_eq, readInt32LE_eq, little_placed h, signed32]
      split <;> omega
  | int32BE =>
      have hbounds : -0x100000000 ≤ 2 * v ∧ 2 * v < 0x100000000 := hv
      show readInt32BE (writeUInt32BE b v o).1 o = v
      rw [writeUInt32BE_eq, readInt32BE_eq, big_placed h, signed32]
      split <;> omega
  | bigUInt64LE =>
      have hbounds : 0 ≤ v ∧ v < 0x10000000000000000 := hv
      show readBigUInt64LE (writeBigUInt64LE b v o).1 o = v
      rw [readBigUInt64LE_written h]
      omega
  | bigUInt64BE =>
      have hbounds : 0 ≤ v ∧ v < 0x10000000000000000 := hv
      show readBigUInt64BE (writeBigUInt64BE b v o).1 o = v
      rw [readBigUInt64BE_written h]
      omega
  | bigInt64LE =>
      have hbounds : -0x10000000000000000 ≤ 2 * v ∧ 2 * v < 0x10000000000000000 := hv
      show signed64 (readBigUInt64LE (writeBigUInt64LE b v o).1 o) = v
      rw [readBigUInt64LE_written h, signed64]
      split <;> omega
  | bigInt64BE =>
      have hbounds : -0x10000000000000000 ≤ 2 * v ∧ 2 * v < 0x10000000000000000 := hv
      show signed64 (readBigUInt64BE (writeBigUInt64BE b v o).1 o) = v
      rw [readBigUInt64BE_written h, signed64]
      split <;> omega

/-! ## UTF-16 -/

theorem chars_units (text : Str) : chars (units text) = text := by
  induction text with
  | nil => rfl
  | cons c text ih =>
      have hc : c.toNat < 0xD800 ∨ 0xDFFF < c.toNat ∧ c.toNat < 0x110000 := c.valid
      rw [units_cons, TextDecoder.fromCodePoint]
      split
      · have hhigh : isHigh c.toNat = false := by
          simp [isHigh]
          omega
        have hlow : isLow c.toNat = false := by
          simp [isLow]
          omega
        cases hrest : units text with
        | nil =>
            rw [hrest] at ih
            rw [List.append_nil, chars, hhigh, hlow, ← ih]
            simp [chars, Char.ofNat_toNat]
        | cons v rest =>
            rw [hrest] at ih
            rw [List.singleton_append, chars, hhigh, hlow, ih]
            simp [Char.ofNat_toNat]
      · have hmask : (c.toNat - 0x10000) &&& 0x3FF = (c.toNat - 0x10000) % 1024 := Nat.and_two_pow_sub_one_eq_mod _ 10
        have hhigh : isHigh (0xD800 + (c.toNat - 0x10000) >>> 10) = true := by
          simp [isHigh, Nat.shiftRight_eq_div_pow]
          omega
        have hlow : isLow (0xDC00 + (c.toNat - 0x10000) % 1024) = true := by
          simp [isLow]
          omega
        have hvalue : 0x10000 + (0xD800 + (c.toNat - 0x10000) >>> 10 - 0xD800) * 1024 +
            (0xDC00 + (c.toNat - 0x10000) % 1024 - 0xDC00) = c.toNat := by
          rw [Nat.shiftRight_eq_div_pow]
          omega
        rw [hmask]
        show chars (_ :: _ :: units text) = _
        rw [chars, hhigh, hlow, hvalue, Char.ofNat_toNat, ih]
        rfl

theorem units_lt {text : Str} : ∀ u ∈ units text, u < 0x10000 := by
  intro u hu
  obtain ⟨c, -, hc⟩ := List.mem_flatMap.mp hu
  have hmax := toNat_lt c
  rw [TextDecoder.fromCodePoint] at hc
  split at hc
  · obtain rfl := List.mem_singleton.mp hc
    assumption
  · have hmask : (c.toNat - 0x10000) &&& 0x3FF = (c.toNat - 0x10000) % 1024 := Nat.and_two_pow_sub_one_eq_mod _ 10
    simp only [hmask, Nat.shiftRight_eq_div_pow, List.mem_cons, List.not_mem_nil, or_false] at hc
    omega

/-- A string is read back from its characters exactly if it is one of a text. -/
theorem units_chars_iff (s : Units) : units (chars s) = s ↔ ∃ text, units text = s := by
  refine ⟨fun h => ⟨chars s, h⟩, ?_⟩
  rintro ⟨text, rfl⟩
  rw [chars_units]

theorem utf8Encode_units (text : Str) : utf8Encode (units text) = encodeUtf8 text := by rw [utf8Encode, chars_units]

/-- The bytes of one code unit that is no half of a pair. -/
def unitLength (u : Nat) : Nat := if u < 0x80 then 1 else if u < 0x800 then 2 else 3

theorem length_encodeChar_unit {u : Nat} (h : u < 0x10000) :
    (encodeChar (if isHigh u || isLow u then Text.replacement else .ofNat u)).length = unitLength u := by
  split
  · rename_i hsurrogate
    simp only [isHigh, isLow, Bool.or_eq_true, Bool.and_eq_true, decide_eq_true_eq] at hsurrogate
    rw [unitLength, if_neg (by omega), if_neg (by omega)]
    rfl
  · rename_i hscalar
    simp only [isHigh, isLow, Bool.or_eq_true, Bool.and_eq_true, decide_eq_true_eq] at hscalar
    have hu : (Char.ofNat u).toNat = u := toNat_ofNat_char (by unfold Nat.isValidChar; omega)
    rw [encodeChar, hu, unitLength]
    by_cases h1 : u < 0x80
    · simp only [if_pos h1, List.length_singleton]
    · by_cases h2 : u < 0x800
      · simp only [if_neg h1, if_pos h2, List.length_cons, List.length_nil]
      · simp only [if_neg h1, if_neg h2, if_pos h, List.length_cons, List.length_nil]

theorem length_encodeChar_pair {u v : Nat} (hu : isHigh u = true) (hv : isLow v = true) :
    (encodeChar (.ofNat (0x10000 + (u - 0xD800) * 1024 + (v - 0xDC00)))).length = 4 := by
  simp only [isHigh, isLow, Bool.and_eq_true, decide_eq_true_eq] at hu hv
  have hc : (Char.ofNat (0x10000 + (u - 0xD800) * 1024 + (v - 0xDC00))).toNat =
      0x10000 + (u - 0xD800) * 1024 + (v - 0xDC00) := toNat_ofNat_char (by unfold Nat.isValidChar; omega)
  rw [encodeChar, hc, if_neg (by omega), if_neg (by omega), if_neg (by omega)]
  rfl

theorem utf8Length_eq {s : Units} (h : ∀ u ∈ s, u < 0x10000) : utf8Length s = (utf8Encode s).length := by
  have hcons : ∀ (c : Char) (text : Str), (encodeUtf8 (c :: text)).length = (encodeChar c).length + (encodeUtf8 text).length := by
    intro c text
    rw [encodeUtf8, List.flatMap_cons, List.length_append, ← encodeUtf8]
  rw [utf8Encode]
  induction s using chars.induct with
  | case1 => rfl
  | case2 u =>
      rw [utf8Length, chars, hcons, length_encodeChar_unit (h u List.mem_cons_self)]
      rfl
  | case3 u v rest hpair ih =>
      rw [List.forall_mem_cons, List.forall_mem_cons] at h
      rw [Bool.and_eq_true] at hpair
      rw [utf8Length, chars, hpair.1, hpair.2]
      simp only [Bool.and_self, ↓reduceIte]
      rw [hcons, length_encodeChar_pair hpair.1 hpair.2, ih h.2.2]
  | case4 u v rest hpair ih =>
      rw [List.forall_mem_cons] at h
      rw [utf8Length, chars, if_neg hpair, if_neg hpair, hcons, length_encodeChar_unit h.1, ih h.2]
      rfl

/-! ## Single bytes -/

theorem lowByte_eq (u : Nat) : lowByte u = .ofNat u := by
  have hmask : u &&& 0xFF = u % 256 := Nat.and_two_pow_sub_one_eq_mod u 8
  rw [lowByte, hmask]
  refine UInt8.toNat_inj.mp ?_
  rw [UInt8.toNat_ofNat', UInt8.toNat_ofNat']
  omega

theorem toNat_lowByte {u : Nat} (h : u < 0x100) : (lowByte u).toNat = u := by rw [lowByte_eq, toNat_ofNat_uint8 h]

theorem lowByte_toNat (b : UInt8) : lowByte b.toNat = b := by rw [lowByte_eq, UInt8.ofNat_toNat]

theorem decodeWith_latin1 (bytes : Bytes) : decodeWith .latin1 bytes = bytes.map UInt8.toNat := by
  have hdecode : ((TextDecoder.new .latin1 false).decode bytes false).2 = .ok (bytes.map UInt8.toNat) := by
    rw [TextDecoder.decode, if_pos (by simp [TextDecoder.new])]
    rfl
  rw [decodeWith, hdecode]

theorem decodeWith_utf8 (text : Str) : decodeWith .utf8 (encodeUtf8 text) = units text := by
  rw [decodeWith, TextDecoder.decode_encoded]

theorem decodeWith_ascii {s : Units} (h : ∀ u ∈ s, u < 0x80) : decodeWith .utf8 (s.map lowByte) = s := by
  have hchar : ∀ u ∈ s, (Char.ofNat u).toNat = u := fun u hu => toNat_ofNat_char (.inl (by have := h u hu; omega))
  have hbytes : encodeUtf8 (s.map Char.ofNat) = s.map lowByte := by
    rw [encodeUtf8_of_ascii, List.map_map]
    · refine List.map_congr_left fun u hu => ?_
      rw [lowByte_eq, Function.comp_apply, hchar u hu]
    · intro c hc
      obtain ⟨u, hu, rfl⟩ := List.mem_map.mp hc
      rw [hchar u hu]
      exact h u hu
  have hunits : units (s.map Char.ofNat) = s := by
    rw [units, List.flatMap_map]
    conv_rhs => rw [← List.flatMap_singleton' s]
    refine List.flatMap_congr fun u hu => ?_
    rw [hchar u hu, TextDecoder.fromCodePoint, if_pos (by have := h u hu; omega)]
  rw [← hbytes, decodeWith_utf8, hunits]

/-! ## Hexadecimal -/

theorem hexUnits_eq (b : UInt8) : hexUnits b = [hexDigit (b.toNat / 16), hexDigit (b.toNat % 16)] := by
  rw [hexUnits, toString16]
  split
  · rename_i hsmall
    rw [Nat.div_eq_of_lt hsmall, Nat.mod_eq_of_lt hsmall]
    rfl
  · rfl

theorem parsedByte_digits (b : UInt8) : parsedByte [hexDigit (b.toNat / 16), hexDigit (b.toNat % 16)] = b := by
  have hall : ∀ n < 256, parsedByte [hexDigit (n / 16), hexDigit (n % 16)] = .ofNat n := by decide +kernel
  rw [hall b.toNat b.toNat_lt, UInt8.ofNat_toNat]

theorem hexBytes_hexText (bytes : Bytes) : hexBytes (hexText bytes) = bytes := by
  induction bytes with
  | nil => rfl
  | cons b bytes ih =>
      show parsedByte _ :: hexBytes (hexText bytes) = _
      rw [parsedByte_digits, ih]

theorem flatMap_hexUnits (bytes : Bytes) : bytes.flatMap hexUnits = hexText bytes :=
  List.flatMap_congr fun b _ => hexUnits_eq b

/-! ## Base 64 -/

theorem b64char_eq (n : Nat) : b64char n = (base64Symbol n).toNat := by
  have hmask : n &&& 0x3F = n % 64 := Nat.and_two_pow_sub_one_eq_mod n 6
  rw [b64char, hmask, base64Symbol, b64chars, List.getD_eq_getElem?_getD, List.getElem?_map, List.getD_eq_getElem?_getD]
  cases base64Alphabet[n % 64]? <;> rfl

theorem base64Symbol_congr {m n : Nat} (h : m % 64 = n % 64) : base64Symbol m = base64Symbol n := by
  rw [base64Symbol, base64Symbol, h]

/-- The symbols of three bytes, from the bits that `btoa` puts together. -/
theorem b64char_join (a : Nat) {b c : Nat} (hb : b < 256) (hc : c < 256) :
    b64char (a >>> 2) = (base64Symbol (a / 4)).toNat ∧ b64char (a <<< 4) = (base64Symbol (a * 16)).toNat ∧
      b64char (a <<< 4 ||| b >>> 4) = (base64Symbol (a * 16 + b / 16)).toNat ∧
      b64char (b <<< 2 ||| c >>> 6) = (base64Symbol (b * 4 + c / 64)).toNat := by
  have hfour : a <<< 4 ||| b >>> 4 = a * 16 + b / 16 := by
    rw [Nat.shiftRight_eq_div_pow, ← Nat.shiftLeft_add_eq_or_of_lt (by omega), Nat.shiftLeft_eq]
  have htwo : b <<< 2 ||| c >>> 6 = b * 4 + c / 64 := by
    rw [Nat.shiftRight_eq_div_pow, ← Nat.shiftLeft_add_eq_or_of_lt (by omega), Nat.shiftLeft_eq]
  refine ⟨?_, ?_, by rw [hfour, b64char_eq], by rw [htwo, b64char_eq]⟩
  · rw [b64char_eq, Nat.shiftRight_eq_div_pow]
  · rw [b64char_eq, Nat.shiftLeft_eq]

theorem btoa_eq (bytes : Bytes) : btoa (bytes.map UInt8.toNat) = base64Text bytes := by
  unfold base64Text
  induction bytes using encodeBase64.induct with
  | case1 => rfl
  | case2 a =>
      obtain ⟨h1, h2, -⟩ := b64char_join a.toNat (show 0 < 256 by decide) (show 0 < 256 by decide)
      simp only [List.map_cons, List.map_nil, btoa, encodeBase64]
      rw [h1, h2]
      rfl
  | case3 a b =>
      have hb := b.toNat_lt
      obtain ⟨h1, -, h3, -⟩ := b64char_join a.toNat hb hb
      obtain ⟨-, h4, -⟩ := b64char_join b.toNat hb hb
      have h2 : b64char (b.toNat <<< 2) = (base64Symbol (b.toNat * 4)).toNat := by rw [b64char_eq, Nat.shiftLeft_eq]
      simp only [List.map_cons, List.map_nil, btoa, encodeBase64]
      rw [h1, h3, h2, base64Symbol_congr (show a.toNat / 4 % 64 = (a.toNat * 256 + b.toNat) / 1024 % 64 by omega),
        base64Symbol_congr (show (a.toNat * 16 + b.toNat / 16) % 64 = (a.toNat * 256 + b.toNat) / 16 % 64 by omega),
        base64Symbol_congr (show b.toNat * 4 % 64 = (a.toNat * 256 + b.toNat) * 4 % 64 by omega)]
      rfl
  | case4 a b c rest ih =>
      have hb := b.toNat_lt
      have hc := c.toNat_lt
      obtain ⟨h1, -, h3, h4⟩ := b64char_join a.toNat hb hc
      simp only [List.map_cons, btoa, encodeBase64]
      rw [h1, h3, h4, b64char_eq, ih,
        base64Symbol_congr (show a.toNat / 4 % 64 = ((a.toNat * 256 + b.toNat) * 256 + c.toNat) / 262144 % 64 by omega),
        base64Symbol_congr (show (a.toNat * 16 + b.toNat / 16) % 64 =
          ((a.toNat * 256 + b.toNat) * 256 + c.toNat) / 4096 % 64 by omega),
        base64Symbol_congr (show (b.toNat * 4 + c.toNat / 64) % 64 =
          ((a.toNat * 256 + b.toNat) * 256 + c.toNat) / 64 % 64 by omega),
        base64Symbol_congr (show c.toNat % 64 = ((a.toNat * 256 + b.toNat) * 256 + c.toNat) % 64 by omega)]

theorem b64map_symbol (n : Nat) : b64map (base64Symbol n).toNat = some (.ofNat 32 (n % 64)) := by
  have hall : ∀ k < 64, b64map (base64Symbol k).toNat = some (.ofNat 32 k) := by decide +kernel
  rw [base64Symbol_congr (show n % 64 = n % 64 % 64 by omega)]
  exact hall _ (Nat.mod_lt _ (by decide))

theorem b64map_pad : b64map '='.toNat = some (-1) := rfl

theorem toNat_small {x : Nat} (h : x < 64) : (BitVec.ofNat 32 x).toNat = x := by
  rw [BitVec.toNat_ofNat]
  omega

theorem sshiftRight_small {x : Nat} (h : x < 64) (k : Nat) : ((BitVec.ofNat 32 x).sshiftRight k).toNat = x / 2 ^ k := by
  have hmsb : (BitVec.ofNat 32 x).msb = false := by
    rw [BitVec.msb_eq_false_iff_two_mul_lt, toNat_small h]
    omega
  rw [BitVec.sshiftRight_eq_of_msb_false hmsb, BitVec.toNat_ushiftRight, toNat_small h, Nat.shiftRight_eq_div_pow]

section Group

variable {w x y z : Nat}

theorem group_first (hw : w < 64) (hx : x < 64) :
    fromCharCode (BitVec.ofNat 32 w <<< 2 ||| (BitVec.ofNat 32 x).sshiftRight 4) = w * 4 + x / 16 := by
  have hshift : (BitVec.ofNat 32 w <<< 2).toNat = w <<< 2 := by
    rw [BitVec.toNat_shiftLeft, toNat_small hw, Nat.shiftLeft_eq]
    omega
  rw [fromCharCode, BitVec.toNat_or, hshift, sshiftRight_small hx, ← Nat.shiftLeft_add_eq_or_of_lt (by omega),
    Nat.shiftLeft_eq]
  omega

theorem group_second (hx : x < 64) (hy : y < 64) :
    fromCharCode ((BitVec.ofNat 32 x &&& 0x0F) <<< 4 ||| (BitVec.ofNat 32 y).sshiftRight 2) = x % 16 * 16 + y / 4 := by
  have hmask : (BitVec.ofNat 32 x &&& 0x0F).toNat = x % 16 := by
    rw [BitVec.toNat_and, toNat_small hx]
    exact Nat.and_two_pow_sub_one_eq_mod _ 4
  have hshift : ((BitVec.ofNat 32 x &&& 0x0F) <<< 4).toNat = (x % 16) <<< 4 := by
    rw [BitVec.toNat_shiftLeft, hmask, Nat.shiftLeft_eq]
    omega
  rw [fromCharCode, BitVec.toNat_or, hshift, sshiftRight_small hy, ← Nat.shiftLeft_add_eq_or_of_lt (by omega),
    Nat.shiftLeft_eq]
  omega

theorem group_third (hy : y < 64) (hz : z < 64) :
    fromCharCode ((BitVec.ofNat 32 y &&& 0x03) <<< 6 ||| BitVec.ofNat 32 z) = y % 4 * 64 + z := by
  have hmask : (BitVec.ofNat 32 y &&& 0x03).toNat = y % 4 := by
    rw [BitVec.toNat_and, toNat_small hy]
    exact Nat.and_two_pow_sub_one_eq_mod _ 2
  have hshift : ((BitVec.ofNat 32 y &&& 0x03) <<< 6).toNat = (y % 4) <<< 6 := by
    rw [BitVec.toNat_shiftLeft, hmask, Nat.shiftLeft_eq]
    omega
  rw [fromCharCode, BitVec.toNat_or, hshift, toNat_small hz, ← Nat.shiftLeft_add_eq_or_of_lt (by omega),
    Nat.shiftLeft_eq]
  omega

theorem ofNat_ne_pad (h : x < 64) : some (BitVec.ofNat 32 x) ≠ some (-1) := by
  rw [ne_eq, Option.some.injEq, ← BitVec.toNat_inj, toNat_small h]
  show ¬x = 4294967295
  omega

end Group

theorem mod_lt_64 (n : Nat) : n % 64 < 64 := Nat.mod_lt _ (by decide)

theorem atobLoop_base64Text (bytes : Bytes) : atobLoop (base64Text bytes) = bytes.map UInt8.toNat := by
  unfold base64Text
  induction bytes using encodeBase64.induct with
  | case1 => rfl
  | case2 a =>
      have ha := a.toNat_lt
      simp only [encodeBase64, List.map_cons, List.map_nil, atobLoop, b64map_symbol, b64map_pad, atobGroup]
      simp only [Option.getD_some, ne_eq, not_true_eq_false, ↓reduceIte, List.append_nil]
      rw [group_first (mod_lt_64 _) (mod_lt_64 _)]
      congr 1
      omega
  | case3 a b =>
      have ha := a.toNat_lt
      have hb := b.toNat_lt
      simp only [encodeBase64, List.map_cons, List.map_nil, atobLoop, b64map_symbol, b64map_pad, atobGroup]
      rw [if_pos (ofNat_ne_pad (mod_lt_64 _))]
      simp only [Option.getD_some, ne_eq, not_true_eq_false, ↓reduceIte, List.append_nil]
      rw [group_first (mod_lt_64 _) (mod_lt_64 _), group_second (mod_lt_64 _) (mod_lt_64 _)]
      congr 1
      · omega
      · congr 1
        omega
  | case4 a b c rest ih =>
      have ha := a.toNat_lt
      have hb := b.toNat_lt
      have hc := c.toNat_lt
      simp only [encodeBase64, List.map_cons, atobLoop, b64map_symbol, atobGroup]
      rw [if_pos (ofNat_ne_pad (mod_lt_64 _)), if_pos (ofNat_ne_pad (mod_lt_64 _)), ih]
      simp only [Option.getD_some]
      rw [group_first (mod_lt_64 _) (mod_lt_64 _), group_second (mod_lt_64 _) (mod_lt_64 _),
        group_third (mod_lt_64 _) (mod_lt_64 _)]
      show _ :: _ :: _ :: _ = _
      congr 1
      · omega
      · congr 1
        · omega
        · congr 1
          omega

/-! ## The alphabet for addresses -/

/-- A code unit of the alphabet. -/
def IsSymbol (u : Nat) : Prop := ∃ n, u = (base64Symbol n).toNat

theorem symbol_facts {u : Nat} (h : IsSymbol u) :
    u < 0x80 ∧ u ≠ 0x3D ∧ u ≠ 0x2D ∧ u ≠ 0x5F ∧ u ∉ [0x09, 0x0A, 0x0C, 0x0D, 0x20] := by
  have hall : ∀ k < 64, (base64Symbol k).toNat < 0x80 ∧ (base64Symbol k).toNat ≠ 0x3D ∧ (base64Symbol k).toNat ≠ 0x2D ∧
      (base64Symbol k).toNat ≠ 0x5F ∧ (base64Symbol k).toNat ∉ [0x09, 0x0A, 0x0C, 0x0D, 0x20] := by decide +kernel
  obtain ⟨n, rfl⟩ := h
  rw [base64Symbol_congr (show n % 64 = n % 64 % 64 by omega)]
  exact hall _ (mod_lt_64 n)

/-- Symbols, then padding to a multiple of four. -/
theorem base64Text_parts (bytes : Bytes) :
    ∃ body k, base64Text bytes = body ++ List.replicate k 0x3D ∧ (∀ u ∈ body, IsSymbol u) ∧ k < 4 ∧
      (body.length + k) % 4 = 0 := by
  unfold base64Text
  induction bytes using encodeBase64.induct with
  | case1 => exact ⟨[], 0, rfl, by simp, by decide, rfl⟩
  | case2 a =>
      refine ⟨([a.toNat / 4, a.toNat * 16].map base64Symbol).map Char.toNat, 2, rfl, ?_, by decide, by simp⟩
      simp only [List.forall_mem_map]
      exact fun _ _ => ⟨_, rfl⟩
  | case3 a b =>
      let n := a.toNat * 256 + b.toNat
      refine ⟨([n / 1024, n / 16, n * 4].map base64Symbol).map Char.toNat, 1, rfl, ?_, by decide, by simp⟩
      simp only [List.forall_mem_map]
      exact fun _ _ => ⟨_, rfl⟩
  | case4 a b c rest ih =>
      obtain ⟨body, k, hbody, hsymbols, hk, hlength⟩ := ih
      let n := (a.toNat * 256 + b.toNat) * 256 + c.toNat
      refine ⟨([n / 262144, n / 4096, n / 64, n].map base64Symbol).map Char.toNat ++ body, k, ?_, ?_, hk, ?_⟩
      · simp only [encodeBase64, List.map_cons, hbody]
        rfl
      · simp only [List.forall_mem_append, List.forall_mem_map]
        exact ⟨fun _ _ => ⟨_, rfl⟩, hsymbols⟩
      · simp only [List.length_append, List.length_map, List.length_cons, List.length_nil]
        omega

theorem map_eq_self {s : Units} {f : Nat → Nat} (h : ∀ u ∈ s, f u = u) : s.map f = s := by
  conv_rhs => rw [← List.map_id s]
  exact List.map_congr_left h

theorem fromUrlAlphabet_base64Text (bytes : Bytes) : fromUrlAlphabet (base64Text bytes) = base64Text bytes := by
  obtain ⟨body, k, hparts, hsymbols, -⟩ := base64Text_parts bytes
  rw [hparts]
  refine map_eq_self fun u hu => ?_
  rcases List.mem_append.mp hu with hu | hu
  · obtain ⟨-, -, h2, h3, -⟩ := symbol_facts (hsymbols u hu)
    rw [if_neg h2, if_neg h3]
  · rw [List.eq_of_mem_replicate hu]
    rfl

theorem padded_base64Text (bytes : Bytes) : padded (base64Text bytes) = base64Text bytes := by
  obtain ⟨body, k, hparts, -, -, hlength⟩ := base64Text_parts bytes
  have hzero : (base64Text bytes).length % 4 = 0 := by rw [hparts, List.length_append, List.length_replicate, hlength]
  rw [padded, hzero]
  exact List.append_nil _

theorem atob_base64Text (bytes : Bytes) : atob (base64Text bytes) = bytes.map UInt8.toNat := by
  obtain ⟨body, k, hparts, hsymbols, -⟩ := base64Text_parts bytes
  have hfilter : (base64Text bytes).filter (fun u => u ∉ [0x09, 0x0A, 0x0C, 0x0D, 0x20]) = base64Text bytes := by
    rw [hparts]
    refine List.filter_eq_self.mpr fun u hu => decide_eq_true ?_
    rcases List.mem_append.mp hu with hu | hu
    · exact (symbol_facts (hsymbols u hu)).2.2.2.2
    · rw [List.eq_of_mem_replicate hu]
      decide
  rw [atob, hfilter, atobLoop_base64Text]

/-- The padding is what the text for addresses lacks. -/
theorem padded_base64urlText (bytes : Bytes) : padded (fromUrlAlphabet (base64urlText bytes)) = base64Text bytes := by
  obtain ⟨body, k, hparts, hsymbols, hk, hlength⟩ := base64Text_parts bytes
  have hbody : base64urlText bytes = toUrlAlphabet body := by
    have hkeep : (toUrlAlphabet body).filter (fun u => u ≠ 0x3D) = toUrlAlphabet body := by
      refine List.filter_eq_self.mpr fun u hu => decide_eq_true ?_
      obtain ⟨v, hv, rfl⟩ := List.mem_map.mp hu
      have hv := (symbol_facts (hsymbols v hv)).2.1
      split
      · decide
      · split
        · decide
        · exact hv
    have hdrop : (toUrlAlphabet (List.replicate k 0x3D)).filter (fun u => u ≠ 0x3D) = [] := by
      rw [toUrlAlphabet, List.map_replicate]
      simp
    have happend : toUrlAlphabet (body ++ List.replicate k 0x3D) =
        toUrlAlphabet body ++ toUrlAlphabet (List.replicate k 0x3D) := List.map_append
    rw [base64urlText, hparts, happend, List.filter_append, hkeep, hdrop, List.append_nil]
  have hback : fromUrlAlphabet (toUrlAlphabet body) = body := by
    rw [fromUrlAlphabet, toUrlAlphabet, List.map_map]
    refine map_eq_self fun u hu => ?_
    obtain ⟨-, -, h2, h3, -⟩ := symbol_facts (hsymbols u hu)
    simp only [Function.comp_apply]
    by_cases hplus : u = 0x2B
    · subst hplus
      rfl
    · by_cases hslash : u = 0x2F
      · subst hslash
        rfl
      · rw [if_neg hplus, if_neg hslash, if_neg h2, if_neg h3]
  have hpad : (4 - body.length % 4) % 4 = k := by omega
  rw [hbody, hback, padded, hpad, hparts]

/-! ## Names -/

/-- `_encodeString` by the name in lower case, with letters and digits only. -/
def encodeNamed (str : Units) (enc : Str) : Bytes :=
  if enc = "hex".toList then hexBytes str
  else if enc = "base64".toList ∨ enc = "base64url".toList then
    (atob (padded (fromUrlAlphabet str))).map fun u => .ofNat u
  else if enc = "latin1".toList ∨ enc = "binary".toList ∨ enc = "ascii".toList then str.map lowByte
  else utf8Encode str

theorem encodeString_eq (str : Units) (enc : Str) : encodeString str enc = encodeNamed str (normalized enc) := by
  rw [encodeString]
  split
  · rename_i h
    rcases h with rfl | rfl <;> rfl
  · rfl

theorem normalized_congr {enc name : Str} (h : toLowercase enc = toLowercase name) : normalized enc = normalized name := by
  rw [normalized, normalized, h]

/-- The name of an encoding in lower case, by what the two sides make of it. -/
structure Selects (enc : Str) (encode : Units → Bytes) (decode : Bytes → Units) : Prop where
  encodes : ∀ s, fromString s enc = encode s
  decodes : ∀ bytes, toString bytes enc = decode bytes

section Selects

variable {enc name : Str}

theorem orUtf8_eq (hlower : toLowercase enc = name) (hne : name ≠ []) : orUtf8 enc = enc := by
  refine if_neg fun hempty => hne ?_
  rw [← hlower, List.isEmpty_iff.mp hempty]
  rfl

theorem selects (name : Str) {encode : Units → Bytes} {decode : Bytes → Units}
    (hlower : toLowercase enc = toLowercase name) (hne : toLowercase name ≠ [])
    (hencode : ∀ s, encodeNamed s (normalized name) = encode s)
    (hdecode : ∀ bytes, decodeBytes bytes name = decode bytes) : Selects enc encode decode where
  encodes s := by rw [fromString, orUtf8_eq hlower hne, encodeString_eq, normalized_congr hlower, hencode]
  decodes bytes := by
    rw [toString, orUtf8_eq hlower hne, ← hdecode, decodeBytes, decodeBytes, normalized_congr hlower]

/-- `byteLength` encodes where it does not count. -/
theorem byteLength_eq (hne : toLowercase enc ≠ []) {s : Units} (hs : ∀ u ∈ s, u < 0x10000) :
    byteLength s enc = (fromString s enc).length := by
  rw [byteLength, fromString, orUtf8_eq rfl hne]
  split
  · rename_i hutf8
    have hencode : encodeString s enc = utf8Encode s := by
      rw [encodeString_eq, normalized]
      rcases hutf8 with hutf8 | hutf8 <;> rw [hutf8] <;> rfl
    rw [hencode, utf8Length_eq hs]
  · rfl

end Selects

/-! ## Each encoding -/

section Each

variable {enc : Str} {s : Units}

/-- The names that the decoder and the encoder leave to UTF-8 give back what is text. -/
theorem Selects.inverse_iff (h : Selects enc utf8Encode (decodeWith .utf8)) (hne : toLowercase enc ≠ [])
    (hs : ∀ u ∈ s, u < 0x10000) : Inverse enc s ↔ ∃ text, units text = s := by
  have hback : toString (fromString s enc) enc = units (chars s) := by
    rw [h.encodes, h.decodes, utf8Encode, decodeWith_utf8]
  rw [← units_chars_iff]
  constructor
  · intro hinverse
    rw [← hback, hinverse.back]
  · intro htext
    exact ⟨by rw [hback, htext], byteLength_eq hne hs⟩

theorem utf8_selects (hlower : toLowercase enc ∈
    ["utf8", "utf-8", "ucs2", "ucs-2", "utf16le", "utf-16le"].map String.toList) :
    Selects enc utf8Encode (decodeWith .utf8) := by
  simp only [List.map_cons, List.map_nil, List.mem_cons, List.not_mem_nil, or_false] at hlower
  rcases hlower with hlower | hlower | hlower | hlower | hlower | hlower
  · exact selects "utf8".toList hlower (by decide) (fun _ => rfl) fun _ => rfl
  · exact selects "utf-8".toList hlower (by decide) (fun _ => rfl) fun _ => rfl
  · exact selects "ucs2".toList hlower (by decide) (fun _ => rfl) fun _ => rfl
  · exact selects "ucs-2".toList hlower (by decide) (fun _ => rfl) fun _ => rfl
  · exact selects "utf16le".toList hlower (by decide) (fun _ => rfl) fun _ => rfl
  · exact selects "utf-16le".toList hlower (by decide) (fun _ => rfl) fun _ => rfl

theorem latin1_selects (hlower : toLowercase enc ∈ ["latin1", "binary"].map String.toList) :
    Selects enc (List.map lowByte) (decodeWith .latin1) := by
  simp only [List.map_cons, List.map_nil, List.mem_cons, List.not_mem_nil, or_false] at hlower
  rcases hlower with hlower | hlower
  · exact selects "latin1".toList hlower (by decide) (fun _ => rfl) fun _ => rfl
  · exact selects "binary".toList hlower (by decide) (fun _ => rfl) fun _ => rfl

theorem ascii_selects (hlower : toLowercase enc = "ascii".toList) :
    Selects enc (List.map lowByte) (decodeWith .utf8) :=
  selects "ascii".toList hlower (by decide) (fun _ => rfl) fun _ => rfl

theorem hex_selects (hlower : toLowercase enc = "hex".toList) : Selects enc hexBytes hexText :=
  selects "hex".toList hlower (by decide) (fun _ => rfl) flatMap_hexUnits

/-- What `atob` gives, in a `Uint8Array`. -/
def fromBase64 (s : Units) : Bytes := (atob (padded (fromUrlAlphabet s))).map fun u => .ofNat u

theorem base64_selects (hlower : toLowercase enc = "base64".toList) : Selects enc fromBase64 base64Text :=
  selects "base64".toList hlower (by decide) (fun _ => rfl) btoa_eq

theorem base64url_selects (hlower : toLowercase enc = "base64url".toList) : Selects enc fromBase64 base64urlText := by
  refine selects "base64url".toList hlower (by decide) (fun _ => rfl) fun bytes => ?_
  rw [base64urlText, ← btoa_eq]
  rfl

/-! ## Round trips -/

theorem ofNat_toNat_bytes (bytes : Bytes) : (bytes.map UInt8.toNat).map (fun u => UInt8.ofNat u) = bytes := by
  rw [List.map_map]
  conv_rhs => rw [← List.map_id bytes]
  exact List.map_congr_left fun b _ => UInt8.ofNat_toNat

theorem fromBase64_base64Text (bytes : Bytes) : fromBase64 (base64Text bytes) = bytes := by
  rw [fromBase64, fromUrlAlphabet_base64Text, padded_base64Text, atob_base64Text, ofNat_toNat_bytes]

theorem fromBase64_base64urlText (bytes : Bytes) : fromBase64 (base64urlText bytes) = bytes := by
  rw [fromBase64, padded_base64urlText, atob_base64Text, ofNat_toNat_bytes]

theorem decodeWith_lowByte (h : ∀ u ∈ s, u < 0x100) : decodeWith .latin1 (s.map lowByte) = s := by
  rw [decodeWith_latin1, List.map_map]
  exact map_eq_self fun u hu => toNat_lowByte (h u hu)

theorem lowByte_decodeWith (bytes : Bytes) : (decodeWith .latin1 bytes).map lowByte = bytes := by
  rw [decodeWith_latin1, List.map_map]
  conv_rhs => rw [← List.map_id bytes]
  exact List.map_congr_left fun b _ => lowByte_toNat b

theorem base64Text_lt {bytes : Bytes} : ∀ u ∈ base64Text bytes, u < 0x10000 := by
  intro u hu
  obtain ⟨body, k, hparts, hsymbols, -⟩ := base64Text_parts bytes
  rw [hparts] at hu
  rcases List.mem_append.mp hu with hu | hu
  · exact Nat.lt_of_lt_of_le (symbol_facts (hsymbols u hu)).1 (by decide)
  · rw [List.eq_of_mem_replicate hu]
    decide

theorem base64urlText_lt {bytes : Bytes} : ∀ u ∈ base64urlText bytes, u < 0x10000 := by
  intro u hu
  obtain ⟨v, hv, rfl⟩ := List.mem_map.mp (List.mem_filter.mp hu).1
  have hv := base64Text_lt v hv
  split
  · decide
  · split
    · decide
    · exact hv

theorem hexText_lt {bytes : Bytes} : ∀ u ∈ hexText bytes, u < 0x10000 := by
  have hdigit : ∀ n < 16, hexDigit n < 0x10000 := by decide
  intro u hu
  obtain ⟨b, -, hu⟩ := List.mem_flatMap.mp hu
  have hb := b.toNat_lt
  rcases List.mem_cons.mp hu with rfl | hu
  · exact hdigit _ (by omega)
  · rw [List.mem_singleton.mp hu]
    exact hdigit _ (by omega)

/-- A text that an encoding gives comes back. -/
theorem Selects.inverse {encode : Units → Bytes} {decode : Bytes → Units} (h : Selects enc encode decode)
    (hne : toLowercase enc ≠ []) (hs : ∀ u ∈ s, u < 0x10000) (hback : decode (encode s) = s) : Inverse enc s where
  back := by rw [h.encodes, h.decodes, hback]
  length := byteLength_eq hne hs

theorem lower_ne_nil (hname : isEncoding enc = true) : toLowercase enc ≠ [] := by
  intro hempty
  rw [isEncoding, hempty] at hname
  revert hname
  decide

/-- Apart from the names of UTF-16, an encoding gives back all that it represents. -/
theorem inverse_of_represents (hname : isEncoding enc = true) (hutf16 : ¬ Utf16Name enc) (hs : Represents enc s) :
    Inverse enc s := by
  have hne := lower_ne_nil hname
  rw [Represents, if_neg hutf16] at hs
  split at hs
  · rename_i hhex
    obtain ⟨bytes, rfl⟩ := hs
    exact (hex_selects hhex).inverse hne hexText_lt (by rw [hexBytes_hexText])
  split at hs
  · rename_i hbase64
    obtain ⟨bytes, rfl⟩ := hs
    exact (base64_selects hbase64).inverse hne base64Text_lt (by rw [fromBase64_base64Text])
  split at hs
  · rename_i hbase64url
    obtain ⟨bytes, rfl⟩ := hs
    exact (base64url_selects hbase64url).inverse hne base64urlText_lt (by rw [fromBase64_base64urlText])
  split at hs
  · rename_i hascii
    exact (ascii_selects hascii).inverse hne (fun u hu => (hs u hu).trans (by decide)) (decodeWith_ascii hs)
  split at hs
  · rename_i hlatin1
    have hmem : toLowercase enc ∈ ["latin1", "binary"].map String.toList := by
      rcases hlatin1 with hlatin1 | hlatin1 <;> rw [hlatin1] <;> decide
    exact (latin1_selects hmem).inverse hne (fun u hu => (hs u hu).trans (by decide)) (decodeWith_lowByte hs)
  · obtain ⟨text, rfl⟩ := hs
    rename_i hhex hbase64 hbase64url hascii hlatin1
    have hmem : toLowercase enc ∈ ["utf8", "utf-8", "ucs2", "ucs-2", "utf16le", "utf-16le"].map String.toList := by
      have hname : toLowercase enc ∈ encodingNames := List.contains_iff_mem.mp hname
      simp only [encodingNames, List.map_cons, List.map_nil, List.mem_cons, List.not_mem_nil, or_false] at hname
      rcases hname with h | h | h | h | h | h | h | h | h | h | h | h
      · exact h ▸ by decide
      · exact h ▸ by decide
      · exact absurd h hhex
      · exact absurd h hbase64
      · exact absurd h hbase64url
      · exact absurd h hascii
      · exact absurd (.inl h) hlatin1
      · exact absurd (.inr h) hlatin1
      all_goals exact h ▸ by decide
    exact ((utf8_selects hmem).inverse_iff hne units_lt).mpr ⟨text, rfl⟩

theorem fromString_toString (hname : BytesName enc) (bytes : Bytes) : fromString (toString bytes enc) enc = bytes := by
  simp only [BytesName, List.map_cons, List.map_nil, List.mem_cons, List.not_mem_nil, or_false] at hname
  rcases hname with hhex | hbase64 | hbase64url | hname
  · rw [(hex_selects hhex).encodes, (hex_selects hhex).decodes, hexBytes_hexText]
  · rw [(base64_selects hbase64).encodes, (base64_selects hbase64).decodes, fromBase64_base64Text]
  · rw [(base64url_selects hbase64url).encodes, (base64url_selects hbase64url).decodes, fromBase64_base64urlText]
  · have hselects : Selects enc (List.map lowByte) (decodeWith .latin1) := by
      refine latin1_selects ?_
      rcases hname with hlatin1 | hbinary
      · exact hlatin1 ▸ by decide
      · exact hbinary ▸ by decide
    rw [hselects.encodes, hselects.decodes, lowByte_decodeWith]

theorem utf16_inverse_iff (hname : isEncoding enc = true) (hutf16 : Utf16Name enc) (hs : Represents enc s) :
    Inverse enc s ↔ ∃ text, units text = s := by
  rw [Represents, if_pos hutf16] at hs
  exact (utf8_selects (List.mem_cons_of_mem _ (List.mem_cons_of_mem _ hutf16))).inverse_iff (lower_ne_nil hname) hs

end Each

end ThreeVa.Js.Buffer
