import Mathlib.Algebra.GroupWithZero.Nat
import ThreeVa.Lib.Text
import Mathlib.Tactic.Ring

/-!
# MQTT packets

`js/src/builtins/mqtt.rs`: how packets are written, how what a read returns is taken apart, and what `publish` sends.
-/

namespace ThreeVa.Js
open Text

structure Packet where
  packetType : UInt8
  data : Bytes
deriving DecidableEq

/-! ## Writing -/

/-- The loop of `encode_remaining_length`, which divides until nothing is left. -/
def encodeLengthUpTo : Nat → Nat → Bytes
  | 0, _ => []
  | fuel + 1, x =>
      if 0 < x / 128 then .ofNat (x % 128 + 128) :: encodeLengthUpTo fuel (x / 128) else [.ofNat (x % 128)]

def encodeRemainingLength (len : Nat) : Bytes := encodeLengthUpTo (len + 1) len

/-- A packet as a broker sends it. -/
def Packet.encode (p : Packet) : Bytes := p.packetType :: encodeRemainingLength p.data.length ++ p.data

/-- What a script passes for the bytes of a packet. -/
inductive SendData
  | uint8Array (bytes : Bytes)
  | array (numbers : List Nat)

/-- The packet that `__mqttSend` writes: only a `Uint8Array` is taken over. -/
def mqttSend (packetType : UInt8) (data : SendData) : Bytes :=
  let data := match data with
    | .uint8Array bytes => bytes
    | .array _ => []
  Packet.encode ⟨packetType, data⟩

/-! ## Reading -/

/-- `remainingLength` after one more byte. From the 148th byte on the multiplier is infinite, and zero times it is not a
number. Sums that the engine rounds lie past the end of any data. -/
def addGroup (k : Nat) (acc : Option Nat) (b : UInt8) : Option Nat :=
  if 147 ≤ k ∧ b.toNat % 128 = 0 then none else acc.map (· + b.toNat % 128 * 128 ^ k)

/-- The length and what follows it, unless the data end before. -/
def readLength (k : Nat) (acc : Option Nat) : Bytes → Option (Option Nat × Bytes)
  | [] => none
  | b :: rest =>
      if 128 ≤ b.toNat then readLength (k + 1) (addGroup k acc b) rest else some (addGroup k acc b, rest)

def handlePacketUpTo : Nat → Bytes → List Packet
  | fuel + 1, packetType :: rest =>
      match readLength 0 (some 0) rest with
      | none => []
      | some (none, _) => [⟨packetType, []⟩]
      | some (some n, rest) => ⟨packetType, rest.take n⟩ :: handlePacketUpTo fuel (rest.drop n)
  | _, _ => []

/-- The packets that `_handlePacket` passes on to `_processPacket`. -/
def handlePacket (data : Bytes) : List Packet := handlePacketUpTo data.length data

/-- The packets of a connection: each read is handled by itself. -/
def dispatched (reads : List Bytes) : List Packet := reads.flatMap handlePacket

/-! ## Messages -/

/-- The code units of a string of the script. -/
abbrev Units := List Nat

/-- A byte as a number; past the end it counts as zero. -/
def byteAt (data : Bytes) (i : Nat) : Nat := (data[i]?.map UInt8.toNat).getD 0

/-- The topic and the payload that `_handlePublish` emits. -/
def handlePublish (data : Bytes) : Option (Units × Units) :=
  let topicLen := byteAt data 0 * 256 + byteAt data 1
  let topic := (List.range topicLen).map fun i => byteAt data (2 + i)
  if 2 + topicLen < data.length then some (topic, (data.drop (2 + topicLen)).map UInt8.toNat) else none

/-- The messages that a read emits. -/
def messages (data : Bytes) : List (Units × Units) :=
  (handlePacket data).filterMap fun p => if p.packetType.toNat / 16 = 3 then handlePublish p.data else none

/-- What may be published: a string, an object with the text that `JSON.stringify` makes of it, or anything else. -/
inductive Payload
  | text (s : Units)
  | object (json : Units)
  | other

def Payload.units : Payload → Units
  | .text s => s
  | .object json => json
  | .other => []

structure PublishOptions where
  qos : Nat
  retain : Bool

/-- What `publish` puts on the wire. -/
def publish (topic : Units) (payload : Payload) (options : PublishOptions) : Bytes :=
  let header := [(if options.retain then 1 else 0) ||| options.qos <<< 1]
  let topicBytes := [topic.length / 256 % 256, topic.length % 256]
  mqttSend 0x30 (.array (header ++ topicBytes ++ topic ++ payload.units))

/-! ## Whole packets -/

/-- Each read ends where a packet ends. -/
def WholePackets (packets : List Packet) (reads : List Bytes) : Prop :=
  ∃ groups : List (List Packet), groups.flatten = packets ∧ reads = groups.map (List.flatMap Packet.encode)

/-!
## Packets in reads

A packet that is dispatched takes at least the bytes that it is written with, so where all packets are dispatched no read
ends inside one.
-/

/-! ## Lengths -/

theorem encodeLengthUpTo_fuel {n m x : Nat} (hn : x < n) (hm : x < m) : encodeLengthUpTo n x = encodeLengthUpTo m x := by
  induction n generalizing m x with
  | zero => omega
  | succ n ih =>
      obtain ⟨m, rfl⟩ := Nat.exists_eq_succ_of_ne_zero (Nat.ne_of_gt (Nat.zero_lt_of_lt hm))
      unfold encodeLengthUpTo
      split
      · rw [ih (m := m) (by omega) (by omega)]
      · rfl

theorem encodeRemainingLength_eq (x : Nat) : encodeRemainingLength x =
    if 0 < x / 128 then .ofNat (x % 128 + 128) :: encodeRemainingLength (x / 128) else [.ofNat (x % 128)] := by
  unfold encodeRemainingLength
  rw [encodeLengthUpTo]
  split
  · rw [encodeLengthUpTo_fuel (m := x / 128 + 1) (by omega) (by omega)]
  · rfl

theorem length_encode_pos (x : Nat) : 0 < (encodeRemainingLength x).length := by
  rw [encodeRemainingLength_eq]
  split <;> simp

theorem length_encode_mono {a b : Nat} (h : a ≤ b) :
    (encodeRemainingLength a).length ≤ (encodeRemainingLength b).length := by
  induction b using Nat.strong_induction_on generalizing a with
  | _ b ih =>
      rw [encodeRemainingLength_eq a, encodeRemainingLength_eq b]
      split
      · have hb : 0 < b / 128 := by omega
        rw [if_pos hb, List.length_cons, List.length_cons]
        exact Nat.succ_le_succ (ih (b / 128) (by omega) (by omega))
      · split <;> simp

/-- A length that is written takes no more bytes than one that is read. -/
theorem length_encode_group (b w : Nat) (hb : b < 128) :
    (encodeRemainingLength (b + 128 * w)).length ≤ 1 + (encodeRemainingLength w).length := by
  rw [encodeRemainingLength_eq]
  split
  · rw [List.length_cons, show (b + 128 * w) / 128 = w by omega]
    omega
  · simp

theorem length_encode_small {b : Nat} (h : b < 128) : (encodeRemainingLength b).length = 1 := by
  rw [encodeRemainingLength_eq, if_neg (by omega)]
  rfl

theorem addGroup_cases (k : Nat) (acc : Option Nat) (b : UInt8) :
    addGroup k acc b = none ∨ addGroup k acc b = acc.map (· + b.toNat % 128 * 128 ^ k) := by
  unfold addGroup
  split
  · exact .inl rfl
  · exact .inr rfl

/-- What is not a number stays so. -/
theorem readLength_nan {data rest : Bytes} {k : Nat} {acc : Option Nat} (h : readLength k none data = some (acc, rest)) :
    acc = none := by
  have hnone : ∀ k (b : UInt8), addGroup k none b = none := fun k b => (addGroup_cases k none b).elim id id
  induction data generalizing k with
  | nil => cases h
  | cons b data ih =>
      rw [readLength, hnone] at h
      split at h
      · exact ih h
      · cases h
        rfl

theorem readLength_spec {data rest : Bytes} {k a v : Nat} (h : readLength k (some a) data = some (some v, rest)) :
    ∃ w, v = a + w * 128 ^ k ∧ (encodeRemainingLength w).length + rest.length ≤ data.length := by
  induction data generalizing k a with
  | nil => cases h
  | cons b data ih =>
      rw [readLength] at h
      rcases addGroup_cases k (some a) b with hnone | hsome
      · rw [hnone] at h
        split at h
        · cases readLength_nan h
        · cases h
      · rw [hsome, Option.map_some] at h
        split at h
        · obtain ⟨w, rfl, hlength⟩ := ih h
          refine ⟨b.toNat % 128 + 128 * w, by ring, ?_⟩
          have hgroup := length_encode_group (b.toNat % 128) w (by omega)
          rw [List.length_cons]
          omega
        · cases h
          refine ⟨b.toNat % 128, rfl, ?_⟩
          rw [length_encode_small (by omega), List.length_cons]
          omega

theorem length_readLength {data rest : Bytes} {k : Nat} {acc acc' : Option Nat}
    (h : readLength k acc data = some (acc', rest)) : rest.length < data.length := by
  induction data generalizing k acc with
  | nil => cases h
  | cons b data ih =>
      rw [readLength] at h
      split at h
      · exact (ih h).trans (Nat.lt_succ_self _)
      · cases h
        exact Nat.lt_succ_self _

theorem toNat_ofNat_small {n : Nat} (h : n < 256) : (UInt8.ofNat n).toNat = n := by
  rw [UInt8.toNat_ofNat']
  exact Nat.mod_eq_of_lt h

/-- A length of fewer than 147 groups is read as it was written. -/
theorem readLength_encode {m x k : Nat} (a : Nat) (rest : Bytes) (hx : x < 128 ^ (m + 1)) (hk : k + m < 147) :
    readLength k (some a) (encodeRemainingLength x ++ rest) = some (some (a + x * 128 ^ k), rest) := by
  induction m generalizing x k a with
  | zero =>
      have hsmall : x < 128 := by simpa using hx
      have hbyte : (UInt8.ofNat (x % 128)).toNat = x := by rw [toNat_ofNat_small (by omega), Nat.mod_eq_of_lt hsmall]
      rw [encodeRemainingLength_eq, if_neg (by omega), List.singleton_append, readLength, if_neg (by omega), addGroup,
        if_neg (by omega), hbyte, Option.map_some, Nat.mod_eq_of_lt hsmall]
  | succ m ih =>
      have hbyte : ∀ b < 256, ∀ a, addGroup k (some a) (.ofNat b) = some (a + b % 128 * 128 ^ k) := by
        intro b hb a
        rw [addGroup, if_neg (by omega), toNat_ofNat_small hb, Option.map_some]
      rw [encodeRemainingLength_eq]
      split
      · have hdiv : x / 128 < 128 ^ (m + 1) := by
          rw [Nat.div_lt_iff_lt_mul (by omega), ← Nat.pow_succ]
          exact hx
        have hsplit : a + (x % 128 + 128) % 128 * 128 ^ k + x / 128 * 128 ^ (k + 1) = a + x * 128 ^ k := by
          rw [Nat.add_mod_right, Nat.mod_mod]
          calc a + x % 128 * 128 ^ k + x / 128 * 128 ^ (k + 1) = a + (128 * (x / 128) + x % 128) * 128 ^ k := by ring
            _ = a + x * 128 ^ k := by rw [Nat.div_add_mod]
        rw [List.cons_append, readLength, if_pos (by rw [toNat_ofNat_small (by omega)]; omega), hbyte _ (by omega),
          ih _ hdiv (by omega), hsplit]
      · rw [List.singleton_append, readLength, if_neg (by rw [toNat_ofNat_small (by omega)]; omega), hbyte _ (by omega),
          Nat.mod_mod, Nat.mod_eq_of_lt (by omega)]

/-! ## Packets -/

theorem length_encode (p : Packet) :
    p.encode.length = 1 + (encodeRemainingLength p.data.length).length + p.data.length := by
  simp only [Packet.encode, List.length_append, List.length_cons]
  omega

def size (packets : List Packet) : Nat := (packets.flatMap Packet.encode).length

theorem size_cons (p : Packet) (packets : List Packet) : size (p :: packets) = p.encode.length + size packets := by
  simp [size]

/-- The packets of a read take no more bytes than it has. -/
theorem size_handlePacketUpTo (fuel : Nat) (data : Bytes) : size (handlePacketUpTo fuel data) ≤ data.length := by
  induction fuel generalizing data with
  | zero => simp [handlePacketUpTo, size]
  | succ fuel ih =>
      cases data with
      | nil => simp [handlePacketUpTo, size]
      | cons packetType rest =>
          rw [handlePacketUpTo]
          cases hread : readLength 0 (some 0) rest with
          | none => simp [size]
          | some r =>
              obtain ⟨length, rest'⟩ := r
              have hlt := length_readLength hread
              cases length with
              | none =>
                  simp only [size_cons, length_encode, List.length_nil, List.length_cons]
                  rw [length_encode_small (by omega)]
                  simp only [size, List.flatMap_nil, List.length_nil]
                  omega
              | some n =>
                  obtain ⟨w, hw, hlength⟩ := readLength_spec hread
                  obtain rfl : n = w := by simpa using hw
                  have hmono := length_encode_mono (show (rest'.take n).length ≤ n by simp)
                  have hrest := ih (rest'.drop n)
                  have hparts : (rest'.take n).length + (rest'.drop n).length = rest'.length := by
                    rw [← List.length_append, List.take_append_drop]
                  simp only [size_cons, length_encode, List.length_cons]
                  omega

theorem handlePacketUpTo_encode {packets : List Packet} (h : ∀ p ∈ packets, p.data.length ≤ 268435455) {fuel : Nat}
    (hfuel : packets.length ≤ fuel) : handlePacketUpTo fuel (packets.flatMap Packet.encode) = packets := by
  induction packets generalizing fuel with
  | nil => cases fuel <;> rfl
  | cons p packets ih =>
      obtain ⟨fuel, rfl⟩ := Nat.exists_eq_succ_of_ne_zero (Nat.ne_of_gt (Nat.zero_lt_of_lt hfuel))
      have hp := h p List.mem_cons_self
      have hread : readLength 0 (some 0) (encodeRemainingLength p.data.length ++
          (p.data ++ packets.flatMap Packet.encode)) = some (some p.data.length, p.data ++ packets.flatMap Packet.encode) := by
        rw [readLength_encode (m := 3) _ _ (by omega) (by omega)]
        simp
      rw [List.flatMap_cons, Packet.encode, List.cons_append, List.cons_append, List.append_assoc, handlePacketUpTo, hread]
      simp only [List.take_left, List.drop_left]
      rw [ih (fun p hp => h p (List.mem_cons_of_mem _ hp)) (Nat.le_of_succ_le_succ hfuel)]

theorem length_le_size (packets : List Packet) : packets.length ≤ size packets := by
  induction packets with
  | nil => simp [size]
  | cons p packets ih =>
      rw [size_cons, length_encode, List.length_cons]
      omega

theorem handlePacket_encode {packets : List Packet} (h : ∀ p ∈ packets, p.data.length ≤ 268435455) :
    handlePacket (packets.flatMap Packet.encode) = packets :=
  handlePacketUpTo_encode h (length_le_size packets)

/-! ## Reads -/

/-- Two ways to cut one list into pieces of the same lengths are the same. -/
theorem eq_of_flatten_eq {α : Type} {l l' : List (List α)} (hflatten : l.flatten = l'.flatten)
    (hlengths : l.map List.length = l'.map List.length) : l = l' := by
  induction l generalizing l' with
  | nil =>
      cases l' with
      | nil => rfl
      | cons a l' => cases hlengths
  | cons a l ih =>
      cases l' with
      | nil => cases hlengths
      | cons b l' =>
          rw [List.map_cons, List.map_cons, List.cons.injEq] at hlengths
          rw [List.flatten_cons, List.flatten_cons] at hflatten
          obtain ⟨rfl, htail⟩ := List.append_inj hflatten hlengths.1
          rw [ih htail hlengths.2]

theorem size_append (l l' : List Packet) : size (l ++ l') = size l + size l' := by simp [size]

theorem size_dispatched (reads : List Bytes) : size (dispatched reads) ≤ reads.flatten.length := by
  induction reads with
  | nil => simp [dispatched, size]
  | cons r reads ih =>
      have hread := size_handlePacketUpTo r.length r
      rw [dispatched, List.flatMap_cons, size_append, List.flatten_cons, List.length_append]
      exact Nat.add_le_add hread ih

/-- Where the packets take all bytes, they take all bytes of each read. -/
theorem size_handlePacket_of_dispatched {reads : List Bytes} (h : reads.flatten.length ≤ size (dispatched reads)) :
    ∀ r ∈ reads, size (handlePacket r) = r.length := by
  induction reads with
  | nil => simp
  | cons r reads ih =>
      have hread : size (handlePacket r) ≤ r.length := size_handlePacketUpTo r.length r
      have hrest := size_dispatched reads
      rw [dispatched, List.flatMap_cons, size_append, List.flatten_cons, List.length_append] at h
      change _ ≤ _ + size (dispatched reads) at h
      intro r' hr'
      rcases List.mem_cons.mp hr' with rfl | hr'
      · omega
      · exact ih (by omega) r' hr'

theorem dispatched_eq_iff {packets : List Packet} {reads : List Bytes} (h : ∀ p ∈ packets, p.data.length ≤ 268435455)
    (hstream : reads.flatten = packets.flatMap Packet.encode) : dispatched reads = packets ↔ WholePackets packets reads := by
  constructor
  · intro hall
    refine ⟨reads.map handlePacket, ?_, ?_⟩
    · rw [← List.flatMap_def]
      exact hall
    · have hsizes : ∀ r ∈ reads, size (handlePacket r) = r.length :=
        size_handlePacket_of_dispatched (by rw [hstream, hall]; exact le_refl _)
      refine eq_of_flatten_eq ?_ ?_
      · rw [hstream, ← hall, dispatched, List.flatMap_assoc, List.flatMap_def, List.map_map]
        rfl
      · rw [List.map_map, List.map_map]
        exact List.map_congr_left fun r hr => (hsizes r hr).symm
  · rintro ⟨groups, rfl, rfl⟩
    rw [dispatched, List.flatMap_map, List.flatten_eq_flatMap]
    refine List.flatMap_congr fun group hgroup => handlePacket_encode fun p hp => ?_
    exact h p (List.mem_flatten_of_mem hgroup hp)

theorem messages_publish (topic : Units) (payload : Payload) (options : PublishOptions) :
    messages (publish topic payload options) = [] := by
  have hsent : publish topic payload options = [(⟨0x30, []⟩ : Packet)].flatMap Packet.encode := by
    simp [publish, mqttSend]
  rw [messages, hsent, handlePacket_encode (by simp)]
  rfl

end ThreeVa.Js
