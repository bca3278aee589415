import Mathlib.Data.Fintype.Basic
import Mathlib.Data.List.OfFn
import Mathlib.Tactic.IntervalCases
import ThreeVa.Lib.Checked
import ThreeVa.Lib.Text

/-!
# One-time signatures

`crypto/src/lamport.rs`. SHA-256 and the hex codec are parameters: they come from other crates.
-/

namespace ThreeVa.Crypto.Lamport
open Text

inductive CryptoError
  | notAvailable (algorithm : Str)
  | invalidKey (msg : Str)
  | verificationFailed
  | serialisation (msg : Str)
deriving DecidableEq

/-! ## Keys and signatures -/

/-- `N`: the bits of a digest. -/
def bits : Nat := 256

def hashLen : Nat := 32

def skCount : Nat := 2 * bits

/-- `[u8; HASH_LEN]` -/
abbrev Value := {b : Bytes // b.length = hashLen}

/-- A hash function. -/
abbrev Hash := Bytes → Value

@[ext] structure LamportPublicKey where
  data : Fin skCount → Value

@[ext] structure LamportSignature where
  revealed : Fin bits → Value

structure LamportKeypair where
  sk : Fin skCount → Value
  publicKey : LamportPublicKey
  used : Bool

/-- The bit of a digest, the most significant one of a byte first. -/
def bit (digest : Value) (i : Fin bits) : UInt8 :=
  (digest.1.get ⟨i / 8, by rw [digest.2]; exact Nat.div_lt_of_lt_mul i.isLt⟩ >>> (7 - .ofNat (i % 8))) &&& 1

theorem bit_lt (digest : Value) (i : Fin bits) : (bit digest i).toNat < 2 := by
  rw [bit, UInt8.toNat_and]
  exact lt_of_le_of_lt Nat.and_le_right (by decide)

/-- Where the value for a bit of a digest stands. -/
def slot (digest : Value) (i : Fin bits) : Fin skCount :=
  ⟨2 * i + (bit digest i).toNat, by have := bit_lt digest i; have := i.isLt; unfold skCount; omega⟩

section Hash

variable (sha256 : Hash)

namespace LamportKeypair

/-- `generate_with_rng`, with the bytes that the generator gave. -/
def generate (sk : Fin skCount → Value) : LamportKeypair := ⟨sk, ⟨fun i => sha256 (sk i).1⟩, false⟩

def alreadyUsed : CryptoError :=
  .invalidKey "Lamport key pair already used. Generate a new key pair for each message.".toList

def sign (kp : LamportKeypair) (message : Bytes) : LamportKeypair × Except CryptoError LamportSignature :=
  if kp.used then (kp, .error alreadyUsed)
  else ({ kp with used := true }, .ok ⟨fun i => kp.sk (slot (sha256 message) i)⟩)

/-- What a key pair answers when it is asked to sign one message after the other. -/
def signAll : LamportKeypair → List Bytes → List (Except CryptoError LamportSignature)
  | _, [] => []
  | kp, message :: messages => (kp.sign sha256 message).2 :: (kp.sign sha256 message).1.signAll messages

/-- The pair gave this signature of the message when it was asked to sign the messages. -/
def Gave (kp : LamportKeypair) (messages : List Bytes) (message : Bytes) (sig : LamportSignature) : Prop :=
  (message, .ok sig) ∈ messages.zip (kp.signAll sha256 messages)

end LamportKeypair

def LamportPublicKey.verify (pk : LamportPublicKey) (message : Bytes) (sig : LamportSignature) : Except CryptoError Unit :=
  if ∀ i, sha256 (sig.revealed i).1 = pk.data (slot (sha256 message) i) then .ok () else .error .verificationFailed

end Hash

/-! ## On the wire -/

/-- `hex::encode` and `hex::decode` with the text of its error. -/
structure Codec where
  encode : Bytes → Str
  decode : Str → Except Str Bytes

section Hex

variable (hex : Codec) {k : Nat}

/-- `iter().flatten()` -/
def flatten (values : Fin k → Value) : Bytes := (List.ofFn values).flatMap Subtype.val

/-- `chunks(HASH_LEN)` of bytes that are as many as `k` values have. -/
def chunk (bytes : Bytes) (h : bytes.length = k * hashLen) (i : Fin k) : Value :=
  ⟨(bytes.drop (i * hashLen)).take hashLen, by
    have hi : (i + 1) * hashLen ≤ k * hashLen := Nat.mul_le_mul_right _ i.isLt
    rw [Nat.succ_mul] at hi
    rw [List.length_take, List.length_drop, h]
    omega⟩

/-- What the two `from_hex` share. -/
def valuesFromHex (k : Nat) (s : Str) : Except CryptoError (Fin k → Value) :=
  match hex.decode s with
  | .error e => .error (.invalidKey e)
  | .ok bytes =>
      if h : bytes.length = k * hashLen then .ok (chunk bytes h)
      else .error (.invalidKey ("expected ".toList ++ decimal (k * hashLen) ++ " bytes, got ".toList ++ decimal bytes.length))

def LamportKeypair.publicKeyHex (kp : LamportKeypair) : Str := hex.encode (flatten kp.publicKey.data)

def LamportPublicKey.fromHex (s : Str) : Except CryptoError LamportPublicKey := (valuesFromHex hex skCount s).map .mk

def LamportSignature.toHex (sig : LamportSignature) : Str := hex.encode (flatten sig.revealed)

def LamportSignature.fromHex (s : Str) : Except CryptoError LamportSignature := (valuesFromHex hex bits s).map .mk

end Hex

/-!
## What an accepted signature says
-/

/-- A byte is its bits. -/
theorem byte_eq_of_bits {a b : UInt8}
    (h : ∀ k < 8, (a >>> (7 - UInt8.ofNat k)) &&& (1 : UInt8) = (b >>> (7 - UInt8.ofNat k)) &&& (1 : UInt8)) : a = b := by
  have hbit : ∀ (c : UInt8) (k : Nat), k < 8 → ((c >>> (7 - UInt8.ofNat k)) &&& (1 : UInt8)).toNat = c.toNat / 2 ^ (7 - k) % 2 := by
    intro c k hk
    interval_cases k <;> simp [UInt8.toNat_and, UInt8.toNat_shiftRight, Nat.shiftRight_eq_div_pow, Nat.and_one_is_mod]
  refine UInt8.toNat_inj.mp (Nat.eq_of_testBit_eq fun j => ?_)
  by_cases hj : j < 8
  · have hk := congrArg UInt8.toNat (h (7 - j) (by omega))
    rw [hbit _ _ (by omega), hbit _ _ (by omega), Nat.sub_sub_self (by omega)] at hk
    rw [Nat.testBit_eq_decide_div_mod_eq, Nat.testBit_eq_decide_div_mod_eq, hk]
  · have hlarge : ∀ c : UInt8, c.toNat.testBit j = false := fun c =>
      Nat.testBit_lt_two_pow (lt_of_lt_of_le c.toNat_lt (Nat.pow_le_pow_right (by decide) (Nat.le_of_not_lt hj)))
    rw [hlarge, hlarge]

theorem digest_eq_of_bits {a b : Value} (h : ∀ i, bit a i = bit b i) : a = b := by
  refine Subtype.ext (List.ext_getElem (a.2.trans b.2.symm) fun n hn hn' => byte_eq_of_bits fun k hk => ?_)
  rw [a.2] at hn
  have hlt : 8 * n + k < bits := by unfold bits; unfold hashLen at hn; omega
  have hbit := h ⟨8 * n + k, hlt⟩
  have hdiv : (8 * n + k) / 8 = n := by omega
  have hmod : (8 * n + k) % 8 = k := by omega
  simpa only [bit, hdiv, hmod, List.get_eq_getElem] using hbit

theorem slot_inj {a b : Value} {i j : Fin bits} (h : slot a i = slot b j) : i = j ∧ bit a i = bit b j := by
  have hval : 2 * (i : Nat) + (bit a i).toNat = 2 * j + (bit b j).toNat := congrArg Fin.val h
  have ha := bit_lt a i
  have hb := bit_lt b j
  exact ⟨Fin.ext (by omega), UInt8.toNat_inj.mp (by omega)⟩

/-- Digests that select the same values are equal. -/
theorem digest_eq_of_slots {a b : Value} (h : ∀ i, ∃ j, slot a i = slot b j) : a = b := by
  refine digest_eq_of_bits fun i => ?_
  obtain ⟨j, hj⟩ := h i
  obtain ⟨rfl, hbit⟩ := slot_inj hj
  exact hbit

section Hash

variable {sha256 : Hash}

theorem verify_ok {pk : LamportPublicKey} {message : Bytes} {sig : LamportSignature} :
    pk.verify sha256 message sig = .ok () ↔ ∀ i, sha256 (sig.revealed i).1 = pk.data (slot (sha256 message) i) := by
  unfold LamportPublicKey.verify
  split
  · exact iff_of_true rfl ‹_›
  · exact iff_of_false (fun h => nomatch h) ‹_›

theorem signAll_used {kp : LamportKeypair} (h : kp.used = true) (messages : List Bytes) :
    kp.signAll sha256 messages = messages.map fun _ => .error LamportKeypair.alreadyUsed := by
  induction messages with
  | nil => rfl
  | cons message messages ih => simp only [LamportKeypair.signAll, LamportKeypair.sign, h, ↓reduceIte, ih, List.map_cons]

/-- The signature of the first message. -/
def firstSignature (sha256 : Hash) (sk : Fin skCount → Value) (message : Bytes) : LamportSignature :=
  ⟨fun i => sk (slot (sha256 message) i)⟩

theorem signAll_generate (sk : Fin skCount → Value) (message : Bytes) (messages : List Bytes) :
    (LamportKeypair.generate sha256 sk).signAll sha256 (message :: messages) =
      .ok (firstSignature sha256 sk message) :: messages.map fun _ => .error LamportKeypair.alreadyUsed := by
  rw [LamportKeypair.signAll, LamportKeypair.sign, if_neg (by simp [LamportKeypair.generate]), signAll_used rfl]
  rfl

/-- A new pair gives a signature of the first message, and no other. -/
theorem gave_iff {sk : Fin skCount → Value} {messages : List Bytes} {m : Bytes} {sig : LamportSignature} :
    (LamportKeypair.generate sha256 sk).Gave sha256 messages m sig ↔
      messages.head? = some m ∧ sig = firstSignature sha256 sk m := by
  unfold LamportKeypair.Gave
  cases messages with
  | nil => simp
  | cons message messages =>
      have hrefused : (m, Except.ok sig) ∉ messages.zip (messages.map fun _ => Except.error LamportKeypair.alreadyUsed) := by
        intro hmem
        obtain ⟨_, -, h⟩ := List.mem_map.mp (List.of_mem_zip hmem).2
        cases h
      rw [signAll_generate, List.zip_cons_cons, List.mem_cons, or_iff_left hrefused, Prod.mk.injEq, Except.ok.injEq,
        List.head?_cons, Option.some.injEq]
      constructor
      · rintro ⟨rfl, rfl⟩
        exact ⟨rfl, rfl⟩
      · rintro ⟨rfl, rfl⟩
        exact ⟨rfl, rfl⟩

theorem verify_first (sk : Fin skCount → Value) (message : Bytes) :
    (LamportKeypair.generate sha256 sk).publicKey.verify sha256 message (firstSignature sha256 sk message) = .ok () :=
  verify_ok.mpr fun _ => rfl

end Hash

/-! ## Bytes of values -/

section Hex

variable {k : Nat}

theorem flatten_succ (values : Fin (k + 1) → Value) : flatten values = (values 0).1 ++ flatten fun i => values i.succ := by
  rw [flatten, List.ofFn_succ, List.flatMap_cons]
  rfl

theorem length_flatten (values : Fin k → Value) : (flatten values).length = k * hashLen := by
  induction k with
  | zero => rw [Nat.zero_mul]; rfl
  | succ k ih => rw [flatten_succ, List.length_append, ih, (values 0).2, Nat.succ_mul, Nat.add_comm]

theorem take_drop_flatten (values : Fin k → Value) (i : Fin k) :
    ((flatten values).drop (i * hashLen)).take hashLen = (values i).1 := by
  induction k with
  | zero => exact i.elim0
  | succ k ih =>
      rw [flatten_succ]
      cases i using Fin.cases with
      | zero => rw [Fin.val_zero, Nat.zero_mul, List.drop_zero, List.take_left' (values 0).2]
      | succ i =>
          have hlength : (i.succ : Nat) * hashLen = (values 0).1.length + i * hashLen := by
            rw [(values 0).2, Fin.val_succ, Nat.succ_mul, Nat.add_comm]
          rw [hlength, List.drop_length_add_append, ih]

theorem chunk_flatten (values : Fin k → Value) (h : (flatten values).length = k * hashLen) :
    chunk (flatten values) h = values :=
  funext fun i => Subtype.ext (take_drop_flatten values i)

theorem flatten_chunk (bytes : Bytes) (h : bytes.length = k * hashLen) : flatten (chunk bytes h) = bytes := by
  induction k generalizing bytes with
  | zero =>
      obtain rfl := List.eq_nil_of_length_eq_zero (h.trans (Nat.zero_mul _))
      rfl
  | succ k ih =>
      rw [Nat.succ_mul] at h
      have hrest : (bytes.drop hashLen).length = k * hashLen := by rw [List.length_drop, h, Nat.add_sub_cancel]
      rw [flatten_succ]
      have hhead : (chunk bytes (Nat.succ_mul k _ ▸ h) (0 : Fin (k + 1))).1 = bytes.take hashLen := by
        show (bytes.drop (0 * hashLen)).take hashLen = _
        rw [Nat.zero_mul, List.drop_zero]
      have htail : (fun i : Fin k => chunk bytes (Nat.succ_mul k _ ▸ h) i.succ) = chunk (bytes.drop hashLen) hrest := by
        funext i
        refine Subtype.ext ?_
        show (bytes.drop ((i + 1) * hashLen)).take hashLen = ((bytes.drop hashLen).drop (i * hashLen)).take hashLen
        rw [List.drop_drop, Nat.succ_mul, Nat.add_comm]
      rw [hhead, htail, ih _ hrest, List.take_append_drop]

theorem valuesFromHex_ok {hex : Codec} {s : Str} {values : Fin k → Value} :
    valuesFromHex hex k s = .ok values ↔ hex.decode s = .ok (flatten values) := by
  unfold valuesFromHex
  split
  · rename_i e he
    exact iff_of_false (fun h => nomatch h) (fun h => by rw [he] at h; cases h)
  · rename_i bytes hbytes
    rw [hbytes, Except.ok.injEq]
    split
    · rename_i h
      rw [Except.ok.injEq]
      constructor
      · rintro rfl
        exact (flatten_chunk bytes h).symm
      · rintro rfl
        exact chunk_flatten values h
    · rename_i h
      refine iff_of_false (fun h => nomatch h) ?_
      rintro rfl
      exact h (length_flatten values)

end Hex

end ThreeVa.Crypto.Lamport

/-!
What holds of one-time signatures.
-/

namespace ThreeVa.Crypto.Lamport
open Text LamportKeypair

/-- Whatever a key pair was asked to sign: the signatures it gave verify, and where any other is accepted the hash function was
broken. Either the message has the digest of one that was signed, or the signature has a value with the digest of a public
value that is not its secret, or is a secret that no signature revealed. -/
theorem accepted_signatures (sha256 : Hash) (sk : Fin skCount → Value) (messages : List Bytes) :
    (∀ m sig, (generate sha256 sk).Gave sha256 messages m sig →
      (generate sha256 sk).publicKey.verify sha256 m sig = .ok ()) ∧
    ∀ m' sig', (generate sha256 sk).publicKey.verify sha256 m' sig' = .ok () →
      (generate sha256 sk).Gave sha256 messages m' sig' ∨
      (∃ m sig, (generate sha256 sk).Gave sha256 messages m sig ∧ m ≠ m' ∧ sha256 m = sha256 m') ∨
      ∃ i, sha256 (sig'.revealed i).1 = (generate sha256 sk).publicKey.data (slot (sha256 m') i) ∧
        (sig'.revealed i ≠ sk (slot (sha256 m') i) ∨
          ∀ m sig, (generate sha256 sk).Gave sha256 messages m sig → ∀ j, slot (sha256 m) j ≠ slot (sha256 m') i) := by
  refine ⟨fun m sig h => ?_, fun m' sig' haccept => ?_⟩
  · obtain ⟨-, rfl⟩ := gave_iff.mp h
    exact verify_first sk m
  have hvalues := verify_ok.mp haccept
  by_cases hsecret : ∀ i, sig'.revealed i = sk (slot (sha256 m') i)
  · by_cases hknown : ∀ i, ∃ m sig, (generate sha256 sk).Gave sha256 messages m sig ∧
        ∃ j, slot (sha256 m) j = slot (sha256 m') i
    · -- one message was signed, and its digest selects all values of the signature
      obtain ⟨m, sig, hsigned, -⟩ := hknown ⟨0, by decide⟩
      obtain ⟨hhead, -⟩ := gave_iff.mp hsigned
      have hdigest : sha256 m' = sha256 m := by
        refine digest_eq_of_slots fun i => ?_
        obtain ⟨m₁, sig₁, hsigned₁, j, hj⟩ := hknown i
        obtain rfl : m₁ = m := Option.some.inj ((gave_iff.mp hsigned₁).1.symm.trans hhead)
        exact ⟨j, hj.symm⟩
      by_cases hm : m = m'
      · subst hm
        exact .inl (gave_iff.mpr ⟨hhead, LamportSignature.ext (funext hsecret)⟩)
      · exact .inr (.inl ⟨m, sig, hsigned, hm, hdigest.symm⟩)
    · obtain ⟨i, hi⟩ := not_forall.mp hknown
      exact .inr (.inr ⟨i, hvalues i, .inr fun m sig hsigned j hj => hi ⟨m, sig, hsigned, j, hj⟩⟩)
  · obtain ⟨i, hi⟩ := not_forall.mp hsecret
    exact .inr (.inr ⟨i, hvalues i, .inl hi⟩)

/-- With a codec that reads what it writes: a public key and a signature are what they were after they were sent, and a text is
accepted as a key or as a signature exactly if it is read as the bytes of one. -/
theorem wire_format (hex : Codec) (hhex : ∀ bytes, hex.decode (hex.encode bytes) = .ok bytes) :
    (∀ kp : LamportKeypair, LamportPublicKey.fromHex hex (kp.publicKeyHex hex) = .ok kp.publicKey) ∧
    (∀ sig : LamportSignature, LamportSignature.fromHex hex (sig.toHex hex) = .ok sig) ∧
    (∀ s pk, LamportPublicKey.fromHex hex s = .ok pk ↔ hex.decode s = .ok (flatten pk.data)) ∧
    ∀ s sig, LamportSignature.fromHex hex s = .ok sig ↔ hex.decode s = .ok (flatten sig.revealed) := by
  have hkey : ∀ s pk, LamportPublicKey.fromHex hex s = .ok pk ↔ hex.decode s = .ok (flatten pk.data) := by
    intro s pk
    rw [← valuesFromHex_ok, LamportPublicKey.fromHex]
    cases valuesFromHex hex skCount s with
    | error e => exact iff_of_false (fun h => nomatch h) (fun h => nomatch h)
    | ok values => simp [Except.map, LamportPublicKey.ext_iff]
  have hsig : ∀ s sig, LamportSignature.fromHex hex s = .ok sig ↔ hex.decode s = .ok (flatten sig.revealed) := by
    intro s sig
    rw [← valuesFromHex_ok, LamportSignature.fromHex]
    cases valuesFromHex hex bits s with
    | error e => exact iff_of_false (fun h => nomatch h) (fun h => nomatch h)
    | ok values => simp [Except.map, LamportSignature.ext_iff]
  exact ⟨fun kp => (hkey _ _).mpr (hhex _), fun sig => (hsig _ _).mpr (hhex _), hkey, hsig⟩

/-! ## Two digits for a byte -/

def hexDigit (n : Nat) : Char := "0123456789abcdef".toList.getD n '0'

def invalid (c : Char) (position : Nat) : Str := "Invalid character '".toList ++ c :: "' at position ".toList ++ decimal position

def decodePairs : Nat → Str → Except Str Bytes
  | i, a :: b :: rest =>
      match toDigit 16 a, toDigit 16 b with
      | some x, some y => (decodePairs (i + 2) rest).map (.ofNat (16 * x + y) :: ·)
      | none, _ => .error (invalid a i)
      | _, none => .error (invalid b (i + 1))
  | _, _ => .ok []

def hexCodec : Codec where
  encode bytes := bytes.flatMap fun b => [hexDigit (b.toNat / 16), hexDigit (b.toNat % 16)]
  decode s := if s.length % 2 ≠ 0 then .error "Odd number of digits".toList else decodePairs 0 s

theorem toDigit_hexDigit : ∀ n < 16, toDigit 16 (hexDigit n) = some n := by decide

theorem decodePairs_encode (bytes : Bytes) (i : Nat) : decodePairs i (hexCodec.encode bytes) = .ok bytes := by
  induction bytes generalizing i with
  | nil => rfl
  | cons b bytes ih =>
      have hb := b.toNat_lt
      have htail := ih (i + 2)
      show (decodePairs i (hexDigit (b.toNat / 16) :: hexDigit (b.toNat % 16) :: hexCodec.encode bytes)) = _
      rw [decodePairs, toDigit_hexDigit _ (by omega), toDigit_hexDigit _ (by omega)]
      simp only [htail, Except.map, Nat.div_add_mod, UInt8.ofNat_toNat]

def zeros : Value := ⟨List.replicate hashLen 0, List.length_replicate⟩

theorem wire_format_hexCodec :
    let kp := LamportKeypair.generate (fun _ => zeros) fun _ => zeros
    LamportPublicKey.fromHex hexCodec (kp.publicKeyHex hexCodec) = .ok kp.publicKey := by
  have heven : ∀ bytes : Bytes, (hexCodec.encode bytes).length % 2 = 0 := by
    intro bytes
    induction bytes with
    | nil => rfl
    | cons b bytes ih =>
        show ((hexCodec.encode bytes).length + 2) % 2 = 0
        omega
  refine (wire_format hexCodec fun bytes => ?_).1 _
  show (if _ then _ else _) = _
  rw [if_neg (by rw [heven]; decide)]
  exact decodePairs_encode bytes 0

end ThreeVa.Crypto.Lamport
