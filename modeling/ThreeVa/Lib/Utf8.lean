import ThreeVa.Lib.Text

/-!
# UTF-8

`String::from_utf8`: the text that a byte string encodes, or nothing when the bytes are not well formed.
-/

namespace Text

def contBits (b : UInt8) : Option Nat := if 0x80 ≤ b.toNat ∧ b.toNat < 0xC0 then some (b.toNat - 0x80) else none

/-- The scalar value `n`, unless a shorter encoding exists. -/
def scalarFrom (least n : Nat) : Option Char := if least ≤ n ∧ n.isValidChar then some (Char.ofNat n) else none

def decodeUtf8 : Bytes → Option Str
  | [] => some []
  | a :: bs =>
      if a.toNat < 0x80 then (decodeUtf8 bs).map (Char.ofNat a.toNat :: ·)
      else if a.toNat < 0xC0 then none
      else if a.toNat < 0xE0 then
        match bs with
        | b :: rest => do
            let x ← scalarFrom 0x80 ((a.toNat - 0xC0) * 64 + (← contBits b))
            return x :: (← decodeUtf8 rest)
        | [] => none
      else if a.toNat < 0xF0 then
        match bs with
        | b :: c :: rest => do
            let x ← scalarFrom 0x800 (((a.toNat - 0xE0) * 64 + (← contBits b)) * 64 + (← contBits c))
            return x :: (← decodeUtf8 rest)
        | _ => none
      else if a.toNat < 0xF8 then
        match bs with
        | b :: c :: d :: rest => do
            let x ← scalarFrom 0x10000
              ((((a.toNat - 0xF0) * 64 + (← contBits b)) * 64 + (← contBits c)) * 64 + (← contBits d))
            return x :: (← decodeUtf8 rest)
        | _ => none
      else none

example : decodeUtf8 [0x68, 0xC3, 0xA9, 0xF0, 0x9F, 0x98, 0x80] = some "hé😀".toList := by decide +kernel

example : decodeUtf8 [0xC0, 0x80] = none := by decide +kernel

theorem decodeUtf8_eq_nil {b : Bytes} (h : decodeUtf8 b = some []) : b = [] := by
  cases b with
  | nil => rfl
  | cons a bs =>
      exfalso
      unfold decodeUtf8 at h
      split at h
      · simp at h
      · split at h
        · simp at h
        · split at h
          · split at h <;> simp [Option.bind_eq_some_iff] at h
          · split at h
            · split at h <;> simp [Option.bind_eq_some_iff] at h
            · split at h
              · split at h <;> simp [Option.bind_eq_some_iff] at h
              · simp at h

/-! ## Encoding -/

def encodeChar (c : Char) : Bytes :=
  let n := c.toNat
  if n < 0x80 then [.ofNat n]
  else if n < 0x800 then [.ofNat (0xC0 + n / 64), .ofNat (0x80 + n % 64)]
  else if n < 0x10000 then [.ofNat (0xE0 + n / 4096), .ofNat (0x80 + n / 64 % 64), .ofNat (0x80 + n % 64)]
  else
    [.ofNat (0xF0 + n / 262144), .ofNat (0x80 + n / 4096 % 64), .ofNat (0x80 + n / 64 % 64), .ofNat (0x80 + n % 64)]

def encodeUtf8 (s : Str) : Bytes := s.flatMap encodeChar

theorem toNat_ofNat_uint8 {k : Nat} (h : k < 256) : (UInt8.ofNat k).toNat = k := by
  rw [UInt8.toNat_ofNat']
  omega

theorem contBits_ofNat {k : Nat} (h : k < 64) : contBits (.ofNat (0x80 + k)) = some k := by
  unfold contBits
  rw [toNat_ofNat_uint8 (by omega), if_pos (by omega)]
  simp

theorem scalarFrom_toNat {least : Nat} {c : Char} (h : least ≤ c.toNat) : scalarFrom least c.toNat = some c := by
  have hvalid : c.toNat.isValidChar := c.valid
  unfold scalarFrom
  rw [if_pos ⟨h, hvalid⟩, Char.ofNat_toNat]

theorem toNat_lt (c : Char) : c.toNat < 0x110000 := by
  rcases c.valid with h | h
  · exact h.trans (by decide)
  · exact h.2

theorem encodeChar_ne_nil (c : Char) : encodeChar c ≠ [] := by
  simp only [encodeChar]
  split
  · exact List.cons_ne_nil _ _
  · split
    · exact List.cons_ne_nil _ _
    · split <;> exact List.cons_ne_nil _ _

/-- A byte below 128 is a character of its own. -/
theorem toNat_of_mem_encodeChar {b : UInt8} {c : Char} (hb : b.toNat < 0x80) (h : b ∈ encodeChar c) :
    c.toNat = b.toNat := by
  have hmax := toNat_lt c
  have hhigh : ∀ {k : Nat}, 0x80 ≤ k → k < 256 → b ≠ .ofNat k := by
    rintro k hk hlt rfl
    rw [toNat_ofNat_uint8 hlt] at hb
    omega
  unfold encodeChar at h
  by_cases h1 : c.toNat < 0x80
  · simp only [h1, ↓reduceIte, List.mem_singleton] at h
    rw [h, toNat_ofNat_uint8 (by omega)]
  · by_cases h2 : c.toNat < 0x800
    · simp only [h1, h2, ↓reduceIte, List.mem_cons, List.not_mem_nil, or_false] at h
      rcases h with h | h <;> exact absurd h (hhigh (by omega) (by omega))
    · by_cases h3 : c.toNat < 0x10000
      · simp only [h1, h2, h3, ↓reduceIte, List.mem_cons, List.not_mem_nil, or_false] at h
        rcases h with h | h | h <;> exact absurd h (hhigh (by omega) (by omega))
      · simp only [h1, h2, h3, ↓reduceIte, List.mem_cons, List.not_mem_nil, or_false] at h
        rcases h with h | h | h | h <;> exact absurd h (hhigh (by omega) (by omega))

/-- A character beyond ASCII has bytes beyond 127. -/
theorem toNat_lt_of_encodeChar {c : Char} (h : ∀ b ∈ encodeChar c, b.toNat < 0x80) : c.toNat < 0x80 := by
  by_contra hc
  have hmax := toNat_lt c
  unfold encodeChar at h
  simp only [hc, ↓reduceIte] at h
  split at h
  · have hfirst := h _ List.mem_cons_self
    rw [toNat_ofNat_uint8 (by omega)] at hfirst
    omega
  · split at h <;>
    · have hfirst := h _ List.mem_cons_self
      rw [toNat_ofNat_uint8 (by omega)] at hfirst
      omega

theorem encodeUtf8_append (s t : Str) : encodeUtf8 (s ++ t) = encodeUtf8 s ++ encodeUtf8 t := List.flatMap_append

theorem decodeUtf8_encodeChar (c : Char) (bs : Bytes) :
    decodeUtf8 (encodeChar c ++ bs) = (decodeUtf8 bs).map (c :: ·) := by
  have hmax := toNat_lt c
  unfold encodeChar
  by_cases h1 : c.toNat < 0x80
  · have hhead := toNat_ofNat_uint8 (show c.toNat < 256 by omega)
    simp only [h1, ↓reduceIte, List.cons_append, List.nil_append]
    rw [decodeUtf8.eq_def]
    simp only [hhead, h1, ↓reduceIte, Char.ofNat_toNat]
  · by_cases h2 : c.toNat < 0x800
    · have hhead := toNat_ofNat_uint8 (show 0xC0 + c.toNat / 64 < 256 by omega)
      have hsum : (0xC0 + c.toNat / 64 - 0xC0) * 64 + c.toNat % 64 = c.toNat := by omega
      simp only [h1, h2, ↓reduceIte, List.cons_append, List.nil_append]
      rw [decodeUtf8, hhead, if_neg (by omega), if_neg (by omega), if_pos (by omega)]
      simp only [contBits_ofNat (Nat.mod_lt c.toNat (show 0 < 64 by decide)), Option.bind_eq_bind, Option.bind_some,
        hsum, scalarFrom_toNat (show 0x80 ≤ c.toNat by omega)]
      cases decodeUtf8 bs <;> rfl
    · by_cases h3 : c.toNat < 0x10000
      · have hhead := toNat_ofNat_uint8 (show 0xE0 + c.toNat / 4096 < 256 by omega)
        have hsum : ((0xE0 + c.toNat / 4096 - 0xE0) * 64 + c.toNat / 64 % 64) * 64 + c.toNat % 64 = c.toNat := by omega
        simp only [h1, h2, h3, ↓reduceIte, List.cons_append, List.nil_append]
        rw [decodeUtf8, hhead, if_neg (by omega), if_neg (by omega), if_neg (by omega), if_pos (by omega)]
        simp only [contBits_ofNat (Nat.mod_lt _ (show 0 < 64 by decide)), Option.bind_eq_bind, Option.bind_some, hsum,
          scalarFrom_toNat (show 0x800 ≤ c.toNat by omega)]
        cases decodeUtf8 bs <;> rfl
      · have hhead := toNat_ofNat_uint8 (show 0xF0 + c.toNat / 262144 < 256 by omega)
        have hsum :
            (((0xF0 + c.toNat / 262144 - 0xF0) * 64 + c.toNat / 4096 % 64) * 64 + c.toNat / 64 % 64) * 64 +
              c.toNat % 64 = c.toNat := by omega
        simp only [h1, h2, h3, ↓reduceIte, List.cons_append, List.nil_append]
        rw [decodeUtf8, hhead, if_neg (by omega), if_neg (by omega), if_neg (by omega), if_neg (by omega), if_pos (by omega)]
        simp only [contBits_ofNat (Nat.mod_lt _ (show 0 < 64 by decide)), Option.bind_eq_bind, Option.bind_some, hsum,
          scalarFrom_toNat (show 0x10000 ≤ c.toNat by omega)]
        cases decodeUtf8 bs <;> rfl

theorem decodeUtf8_encodeUtf8 (s : Str) : decodeUtf8 (encodeUtf8 s) = some s := by
  induction s with
  | nil => simp [encodeUtf8, decodeUtf8]
  | cons c s ih =>
      unfold encodeUtf8 at ih ⊢
      rw [List.flatMap_cons, decodeUtf8_encodeChar, ih]
      rfl

theorem encodeUtf8_of_ascii {s : Str} (h : ∀ c ∈ s, c.toNat < 0x80) : encodeUtf8 s = s.map fun c => .ofNat c.toNat := by
  induction s with
  | nil => rfl
  | cons c s ih =>
      rw [List.forall_mem_cons] at h
      unfold encodeUtf8 at ih ⊢
      rw [List.flatMap_cons, ih h.2, encodeChar, if_pos h.1]
      rfl

theorem encodeUtf8_inj {s t : Str} (h : encodeUtf8 s = encodeUtf8 t) : s = t := by
  have hdecode := congrArg decodeUtf8 h
  rwa [decodeUtf8_encodeUtf8, decodeUtf8_encodeUtf8, Option.some.injEq] at hdecode

/-! ## Lossy decoding -/

def replacement : Char := '\uFFFD'

/-- Whether a byte may come second after a first of three or four. -/
def secondByte (first second : Nat) : Bool :=
  if first = 0xE0 then 0xA0 ≤ second && second < 0xC0
  else if first = 0xED then 0x80 ≤ second && second < 0xA0
  else if first = 0xF0 then 0x90 ≤ second && second < 0xC0
  else if first = 0xF4 then 0x80 ≤ second && second < 0x90
  else 0x80 ≤ second && second < 0xC0

/-- Continuation bytes are taken as long as they fit; the part that does not go on is one replacement. -/
def takeLossy (value : Nat) : Nat → Bytes → Char × Bytes
  | 0, bs => (Char.ofNat value, bs)
  | more + 1, b :: bs =>
      match contBits b with
      | some bits => takeLossy (value * 64 + bits) more bs
      | none => (replacement, b :: bs)
  | _ + 1, [] => (replacement, [])

/-- The first character of `from_utf8_lossy` and the bytes after it. -/
def firstLossy (first : UInt8) (bs : Bytes) : Char × Bytes :=
  let a := first.toNat
  if a < 0x80 then (Char.ofNat a, bs)
  else if 0xC2 ≤ a && a < 0xE0 then takeLossy (a - 0xC0) 1 bs
  else if 0xE0 ≤ a && a < 0xF5 && (bs.head?.any fun b => secondByte a b.toNat) then
    if a < 0xF0 then takeLossy (a - 0xE0) 2 bs else takeLossy (a - 0xF0) 3 bs
  else (replacement, bs)

def fromUtf8LossyUpTo : Nat → Bytes → Str
  | 0, _ => []
  | _ + 1, [] => []
  | fuel + 1, b :: bs =>
      let (c, rest) := firstLossy b bs
      c :: fromUtf8LossyUpTo fuel rest

/-- `String::from_utf8_lossy`: every character takes a byte at least. -/
def fromUtf8Lossy (b : Bytes) : Str := fromUtf8LossyUpTo b.length b

example : fromUtf8Lossy [0x68, 0xC3, 0xA9, 0xF0, 0x9F, 0x98, 0x80] = "hé😀".toList := by decide +kernel

example : fromUtf8Lossy [0xF0, 0x9F, 0x98, 0x61, 0xED, 0xA0, 0x80] = "\uFFFDa\uFFFD\uFFFD\uFFFD".toList := by
  decide +kernel

end Text
