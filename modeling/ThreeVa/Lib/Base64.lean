import ThreeVa.Lib.Text

/-!
# Base 64

The standard alphabet with padding. A decoder takes the canonical form only: padding is required, and the bits that the
last symbol leaves over are zero.
-/

namespace Text

def base64Alphabet : Str := "ABCDEFGHIJKLMNOPQRSTUVWXYZabcdefghijklmnopqrstuvwxyz0123456789+/".toList

def base64Value (c : Char) : Option Nat :=
  if 'A' ≤ c ∧ c ≤ 'Z' then some (c.toNat - 65)
  else if 'a' ≤ c ∧ c ≤ 'z' then some (c.toNat - 71)
  else if '0' ≤ c ∧ c ≤ '9' then some (c.toNat + 4)
  else if c = '+' then some 62
  else if c = '/' then some 63
  else none

def decodeBase64 : Str → Option Bytes
  | [] => some []
  | [a, b, '=', '='] => do
      let n := (← base64Value a) * 64 + (← base64Value b)
      if n % 16 = 0 then some [.ofNat (n / 16)] else none
  | [a, b, c, '='] => do
      let n := ((← base64Value a) * 64 + (← base64Value b)) * 64 + (← base64Value c)
      if n % 4 = 0 then some [.ofNat (n / 1024), .ofNat (n / 4 % 256)] else none
  | a :: b :: c :: d :: rest => do
      let n := (((← base64Value a) * 64 + (← base64Value b)) * 64 + (← base64Value c)) * 64 + (← base64Value d)
      return .ofNat (n / 65536) :: .ofNat (n / 256 % 256) :: .ofNat (n % 256) :: (← decodeBase64 rest)
  | _ => none

def base64Symbol (n : Nat) : Char := base64Alphabet.getD (n % 64) '='

def encodeBase64 : Bytes → Str
  | [] => []
  | [a] => [base64Symbol (a.toNat / 4), base64Symbol (a.toNat * 16), '=', '=']
  | [a, b] =>
      let n := a.toNat * 256 + b.toNat
      [base64Symbol (n / 1024), base64Symbol (n / 16), base64Symbol (n * 4), '=']
  | a :: b :: c :: rest =>
      let n := (a.toNat * 256 + b.toNat) * 256 + c.toNat
      base64Symbol (n / 262144) :: base64Symbol (n / 4096) :: base64Symbol (n / 64) :: base64Symbol n ::
        encodeBase64 rest

theorem base64Value_base64Symbol (n : Nat) : base64Value (base64Symbol n) = some (n % 64) := by
  have htable : ∀ k : Fin 64, base64Value (base64Alphabet.getD k '=') = some k.val := by decide +kernel
  exact htable ⟨n % 64, Nat.mod_lt _ (by omega)⟩

theorem base64Symbol_ne (n : Nat) : base64Symbol n ≠ '=' := by
  intro h
  have hvalue := base64Value_base64Symbol n
  rw [h] at hvalue
  exact absurd hvalue (by simp [base64Value])

theorem ofNat_eq_of_toNat {b : UInt8} {n : Nat} (h : n = b.toNat) : UInt8.ofNat n = b := by
  rw [h, UInt8.ofNat_toNat]

theorem decodeBase64_encodeBase64 (b : Bytes) : decodeBase64 (encodeBase64 b) = some b := by
  induction b using encodeBase64.induct with
  | case1 => rfl
  | case2 a =>
      have ha := a.toNat_lt
      simp only [encodeBase64, decodeBase64, base64Value_base64Symbol, Option.bind_eq_bind, Option.bind_some]
      rw [if_pos (by omega), ofNat_eq_of_toNat (b := a) (by omega)]
  | case3 a b =>
      have ha := a.toNat_lt
      have hb := b.toNat_lt
      simp only [encodeBase64]
      rw [decodeBase64]
      · simp only [base64Value_base64Symbol, Option.bind_eq_bind, Option.bind_some]
        rw [if_pos (by omega), ofNat_eq_of_toNat (b := a) (by omega), ofNat_eq_of_toNat (b := b) (by omega)]
      · exact base64Symbol_ne _
  | case4 a b c rest ih =>
      have ha := a.toNat_lt
      have hb := b.toNat_lt
      have hc := c.toNat_lt
      simp only [encodeBase64]
      rw [decodeBase64]
      · simp only [base64Value_base64Symbol, ih, Option.bind_eq_bind, Option.bind_some]
        rw [ofNat_eq_of_toNat (b := a) (by omega), ofNat_eq_of_toNat (b := b) (by omega),
          ofNat_eq_of_toNat (b := c) (by omega)]
        rfl
      · exact fun h => absurd h (base64Symbol_ne _)
      · exact fun h => absurd h (base64Symbol_ne _)

example : decodeBase64 "aMOpIQ==".toList = some [0x68, 0xC3, 0xA9, 0x21] := by decide +kernel

example : encodeBase64 [0x68, 0xC3, 0xA9, 0x21, 0x21] = "aMOpISE=".toList := by decide +kernel

/-- Bits left over by the last symbol. -/
example : decodeBase64 "aB==".toList = none := by decide +kernel

end Text
