import ThreeVa.Js.Lemmas.Buffer
import ThreeVa.Js.Readable
import ThreeVa.Lib.HeldBack

/-!
# Text that is decoded in parts
-/

namespace ThreeVa.Js
open Text Buffer

namespace StringDecoder

/-! ## Characters in UTF-8 -/

def Continues (b : UInt8) : Prop := b &&& 0xC0 = 0x80

/-- The bytes of a character: its first byte, and as many continuation bytes as that asks for. -/
structure Spelled (b : UInt8) (after : Bytes) : Prop where
  begins : ¬ Continues b
  continues : ∀ x ∈ after, Continues x
  needs : after = [] ∧ b &&& 0x80 = 0 ∨ b &&& 0x80 ≠ 0 ∧ ¬ b < 0x80 ∧ ∃ bits, TextDecoder.lead b = some (after.length, bits)

theorem continues_ofNat {k : Nat} (h : k < 64) : Continues (.ofNat (0x80 + k)) := by
  have hall : ∀ k < 64, UInt8.ofNat (0x80 + k) &&& 0xC0 = 0x80 := by decide
  exact hall k h

theorem begins_ascii {k : Nat} (h : k < 128) : ¬ Continues (.ofNat k) ∧ UInt8.ofNat k &&& 0x80 = 0 := by
  have hall : ∀ k < 128, UInt8.ofNat k &&& 0xC0 ≠ 0x80 ∧ UInt8.ofNat k &&& 0x80 = 0 := by decide
  exact hall k h

theorem begins_lead {k : Nat} (h : k < 64) : ¬ Continues (.ofNat (0xC0 + k)) ∧ UInt8.ofNat (0xC0 + k) &&& 0x80 ≠ 0 := by
  have hall : ∀ k < 64, UInt8.ofNat (0xC0 + k) &&& 0xC0 ≠ 0x80 ∧ UInt8.ofNat (0xC0 + k) &&& 0x80 ≠ 0 := by decide
  exact hall k h

theorem encodeChar_spelled (c : Char) : ∃ b after, encodeChar c = b :: after ∧ Spelled b after := by
  have hscalar : c.toNat < 0x110000 := toNat_lt c
  unfold encodeChar
  by_cases h1 : c.toNat < 0x80
  · simp only [h1, ↓reduceIte]
    obtain ⟨hbegins, hbit⟩ := begins_ascii h1
    exact ⟨_, _, rfl, hbegins, by simp, .inl ⟨rfl, hbit⟩⟩
  · by_cases h2 : c.toNat < 0x800
    · obtain ⟨hb, hlead⟩ := TextDecoder.lead_two (show c.toNat / 64 < 32 by omega)
      obtain ⟨hbegins, hbit⟩ := begins_lead (show c.toNat / 64 < 64 by omega)
      simp only [h1, h2, ↓reduceIte]
      refine ⟨_, _, rfl, hbegins, ?_, .inr ⟨hbit, hb, _, hlead⟩⟩
      simp only [List.forall_mem_cons, List.not_mem_nil, false_imp_iff, implies_true, and_true]
      exact continues_ofNat (by omega)
    · by_cases h3 : c.toNat < 0x10000
      · obtain ⟨hb, hlead⟩ := TextDecoder.lead_three (show c.toNat / 4096 < 16 by omega)
        obtain ⟨hbegins, hbit⟩ := begins_lead (show 32 + c.toNat / 4096 < 64 by omega)
        rw [← Nat.add_assoc] at hbegins hbit
        simp only [h1, h2, h3, ↓reduceIte]
        refine ⟨_, _, rfl, hbegins, ?_, .inr ⟨hbit, hb, _, hlead⟩⟩
        simp only [List.forall_mem_cons, List.not_mem_nil, false_imp_iff, implies_true, and_true]
        exact ⟨continues_ofNat (by omega), continues_ofNat (by omega)⟩
      · obtain ⟨hb, hlead⟩ := TextDecoder.lead_four (show c.toNat / 262144 < 8 by omega)
        obtain ⟨hbegins, hbit⟩ := begins_lead (show 48 + c.toNat / 262144 < 64 by omega)
        rw [← Nat.add_assoc] at hbegins hbit
        simp only [h1, h2, h3, ↓reduceIte]
        refine ⟨_, _, rfl, hbegins, ?_, .inr ⟨hbit, hb, _, hlead⟩⟩
        simp only [List.forall_mem_cons, List.not_mem_nil, false_imp_iff, implies_true, and_true]
        exact ⟨continues_ofNat (by omega), continues_ofNat (by omega), continues_ofNat (by omega)⟩

/-! ## Where the bytes are cut -/

theorem bytesNeeded_lead {b : UInt8} {need bits : Nat} (h : TextDecoder.lead b = some (need, bits)) :
    bytesNeeded b = need + 1 := by
  unfold TextDecoder.lead at h
  unfold bytesNeeded
  split at h
  · rw [if_pos ‹_›]
    cases h
    rfl
  · rw [if_neg ‹_›]
    split at h
    · rw [if_pos ‹_›]
      cases h
      rfl
    · rw [if_neg ‹_›]
      split at h
      · rw [if_pos ‹_›]
        cases h
        rfl
      · cases h

/-- The loop stops behind the last byte that does not continue. -/
theorem walkBack_append (front : Bytes) {b : UInt8} (hb : ¬ Continues b) {after : Bytes} (hafter : ∀ x ∈ after, Continues x)
    {k : Nat} (hk : k ≤ after.length) : walkBack (front ++ b :: after) (front.length + 1 + k) = front.length + 1 := by
  induction k with
  | zero =>
      have hget : (front ++ b :: after).getD front.length 0 = b := by simp
      rw [Nat.add_zero, walkBack, hget, if_neg (show ¬ b &&& 0xC0 = 0x80 from hb)]
  | succ k ih =>
      have hget : (front ++ b :: after).getD (front.length + 1 + k) 0 = after.get ⟨k, hk⟩ := by
        rw [List.getD_eq_getElem?_getD, List.getElem?_append_right (by omega),
          show front.length + 1 + k - front.length = k + 1 by omega, List.getElem?_cons_succ, List.getElem?_eq_getElem hk,
          Option.getD_some, List.get_eq_getElem]
      have hcont : after.get ⟨k, hk⟩ &&& 0xC0 = 0x80 := hafter _ (List.getElem_mem hk)
      rw [← Nat.add_assoc, walkBack, hget, if_pos hcont, ih (by omega)]

/-- A character at the end is decoded, unless bytes of it are missing. -/
theorem complete_append (front : Bytes) {b : UInt8} {after present : Bytes} (h : Spelled b after) (hpre : present <+: after) :
    complete (front ++ b :: present) = if present = after then (front ++ b :: present).length else front.length := by
  have hlen : (front ++ b :: present).length = front.length + 1 + present.length := by
    rw [List.length_append, List.length_cons]
    omega
  have hwalk : walkBack (front ++ b :: present) (front ++ b :: present).length = front.length + 1 := by
    rw [hlen]
    exact walkBack_append front h.begins (fun x hx => h.continues x (hpre.subset hx)) (Nat.le_refl _)
  have hget : (front ++ b :: present).getD (front.length + 1 - 1) 0 = b := by simp
  have hne : front.length + 1 ≠ 0 := Nat.succ_ne_zero _
  unfold complete
  simp only [hwalk, hget, if_neg hne]
  rcases h.needs with ⟨rfl, hbit⟩ | ⟨hbit, -, bits, hlead⟩
  · have hnil := List.prefix_nil.mp hpre
    subst hnil
    rw [if_neg (not_not.mpr hbit), if_pos rfl]
  · have hneeded := bytesNeeded_lead hlead
    rw [if_pos hbit, if_neg (by omega)]
    by_cases heq : present = after
    · subst heq
      rw [if_neg (by omega), if_pos rfl]
    · have hlt : present.length < after.length :=
        Nat.lt_of_le_of_ne hpre.length_le fun hl => heq (hpre.eq_of_length hl)
      rw [if_pos (by omega), if_neg heq]
      rfl

/-- The beginning of a character, not the whole. -/
def CutOff (part : Bytes) : Prop := ∃ c, part <+: encodeChar c ∧ part ≠ encodeChar c

/-- A text, and perhaps the beginning of one more character. -/
def WellFormed (bytes : Bytes) : Prop := ∃ text part, bytes = encodeUtf8 text ++ part ∧ CutOff part

theorem cutOff_nil : CutOff [] := ⟨'a', List.nil_prefix, by decide⟩

theorem encodeUtf8_concat (text : Str) (c : Char) : encodeUtf8 (text ++ [c]) = encodeUtf8 text ++ encodeChar c := by
  rw [encodeUtf8_append, encodeUtf8, encodeUtf8, List.flatMap_singleton]

theorem complete_encoded (text : Str) {part : Bytes} (hcut : CutOff part) :
    complete (encodeUtf8 text ++ part) = (encodeUtf8 text).length := by
  cases part with
  | nil =>
      rw [List.append_nil]
      rcases List.eq_nil_or_concat text with rfl | ⟨text, c, rfl⟩
      · rfl
      · obtain ⟨b, after, hchar, hspelled⟩ := encodeChar_spelled c
        rw [List.concat_eq_append, encodeUtf8_concat, hchar, complete_append _ hspelled (List.prefix_refl _), if_pos rfl]
  | cons x present =>
      obtain ⟨c, hpre, hne⟩ := hcut
      obtain ⟨b, after, hchar, hspelled⟩ := encodeChar_spelled c
      rw [hchar] at hpre hne
      obtain ⟨rfl, hpre'⟩ := List.cons_prefix_cons.mp hpre
      rw [complete_append _ hspelled hpre', if_neg fun heq => hne (by rw [heq])]

/-! ## The bytes that are left -/

theorem encodeChar_append_inj {c d : Char} {x y : Bytes} (h : encodeChar c ++ x = encodeChar d ++ y) : c = d ∧ x = y := by
  have hshort : ∀ {c d : Char} {x y : Bytes}, encodeChar c ++ x = encodeChar d ++ y →
      (encodeChar c).length ≤ (encodeChar d).length → c = d := by
    intro c d x y h hle
    obtain ⟨z, hz⟩ := List.prefix_of_prefix_length_le ⟨x, rfl⟩ ⟨y, h.symm⟩ hle
    have hd := decodeUtf8_encodeChar d []
    rw [List.append_nil, ← hz, decodeUtf8_encodeChar, decodeUtf8] at hd
    cases hdec : decodeUtf8 z with
    | none => simp [hdec] at hd
    | some text => simp_all
  have heq : c = d := by
    rcases Nat.le_total (encodeChar c).length (encodeChar d).length with hle | hle
    · exact hshort h hle
    · exact (hshort h.symm hle).symm
  subst heq
  exact ⟨rfl, List.append_cancel_left h⟩

/-- No character begins with another. -/
theorem CutOff.not_encoded {part : Bytes} (h : CutOff part) {c : Char} {x : Bytes} : part ≠ encodeChar c ++ x := by
  obtain ⟨d, ⟨y, hpre⟩, hne⟩ := h
  rintro rfl
  rw [List.append_assoc] at hpre
  obtain ⟨rfl, hnil⟩ := encodeChar_append_inj (hpre.trans (List.append_nil _).symm)
  rw [(List.append_eq_nil_iff.mp hnil).1, List.append_nil] at hne
  exact hne rfl

theorem encodeUtf8_cons (c : Char) (text : Str) : encodeUtf8 (c :: text) = encodeChar c ++ encodeUtf8 text := List.flatMap_cons

theorem WellFormed.of_append {text : Str} {bytes : Bytes} (h : WellFormed (encodeUtf8 text ++ bytes)) : WellFormed bytes := by
  induction text with
  | nil => exact h
  | cons c text ih =>
      apply ih
      obtain ⟨text', part, heq, hcut⟩ := h
      rw [encodeUtf8_cons, List.append_assoc] at heq
      cases text' with
      | nil => exact absurd heq.symm hcut.not_encoded
      | cons d text' =>
          rw [encodeUtf8_cons, List.append_assoc] at heq
          exact ⟨text', part, (encodeChar_append_inj heq).2, hcut⟩

theorem WellFormed.of_left {x y : Bytes} (h : WellFormed (x ++ y)) : WellFormed x := by
  obtain ⟨text, part, heq, hcut⟩ := h
  induction text generalizing x with
  | nil =>
      obtain ⟨c, hpre, hne⟩ := hcut
      have hx : x <+: part := ⟨y, heq⟩
      refine ⟨[], x, rfl, c, hx.trans hpre, ?_⟩
      rintro rfl
      exact hne (hpre.eq_of_length_le hx.length_le)
  | cons c text ih =>
      rw [encodeUtf8_cons, List.append_assoc] at heq
      rcases Nat.lt_or_ge x.length (encodeChar c).length with hlt | hge
      · refine ⟨[], x, rfl, c, List.prefix_of_prefix_length_le ⟨y, rfl⟩ ⟨_, heq.symm⟩ (Nat.le_of_lt hlt), ?_⟩
        rintro rfl
        exact absurd hlt (Nat.lt_irrefl _)
      · obtain ⟨x', rfl⟩ := List.prefix_of_prefix_length_le ⟨_, heq.symm⟩ ⟨y, rfl⟩ hge
        rw [List.append_assoc] at heq
        obtain ⟨text', part', heq', hcut'⟩ := ih (List.append_cancel_left heq)
        exact ⟨c :: text', part', by rw [encodeUtf8_cons, heq', List.append_assoc], hcut'⟩

theorem wellFormed_encodeUtf8 (text : Str) : WellFormed (encodeUtf8 text) :=
  ⟨text, [], (List.append_nil _).symm, cutOff_nil⟩

/-! ## What is decoded of a beginning and of the rest -/

theorem decodeWith_eq (bytes : Bytes) :
    ∃ p, TextDecoder.decodeUtf8 false false bytes = .ok p ∧ decodeWith .utf8 bytes = p.1 := by
  obtain ⟨p, hp⟩ := TextDecoder.decodeUtf8_ok false bytes
  refine ⟨p, hp, ?_⟩
  rw [decodeWith, TextDecoder.new, TextDecoder.decode_utf8, List.nil_append, hp]
  rfl

theorem decodeWith_encoded (text : Str) (rest : Bytes) :
    decodeWith .utf8 (encodeUtf8 text ++ rest) = units text ++ decodeWith .utf8 rest := by
  obtain ⟨p, hp, hrest⟩ := decodeWith_eq rest
  obtain ⟨q, hq, hall⟩ := decodeWith_eq (encodeUtf8 text ++ rest)
  rw [TextDecoder.decodeUtf8_encodeUtf8, hp] at hq
  cases hq
  rw [hall, hrest]

/-- The beginning of a character is decoded as U+FFFD. -/
theorem decodeWith_cutOff {part : Bytes} (hcut : CutOff part) :
    decodeWith .utf8 part = if part = [] then [] else [replacement] := by
  cases part with
  | nil => exact decodeWith_utf8 []
  | cons x present =>
      obtain ⟨c, hpre, hne⟩ := hcut
      obtain ⟨b, after, hchar, hspelled⟩ := encodeChar_spelled c
      rw [hchar] at hpre hne
      obtain ⟨rfl, hpre'⟩ := List.cons_prefix_cons.mp hpre
      have hlt : present.length < after.length :=
        Nat.lt_of_le_of_ne hpre'.length_le fun hl => hne (by rw [hpre'.eq_of_length hl])
      obtain ⟨q, hq, hall⟩ := decodeWith_eq (x :: present)
      rw [if_neg (List.cons_ne_nil _ _), hall]
      rcases hspelled.needs with ⟨rfl, -⟩ | ⟨-, hbig, bits, hlead⟩
      · exact absurd hlt (Nat.not_lt_zero _)
      · rw [TextDecoder.decodeUtf8_cons, TextDecoder.next, if_neg hbig, hlead] at hq
        simp only [if_pos hlt] at hq
        cases hq
        rfl

theorem toString_utf8 (bytes : Bytes) : toString bytes utf8 = decodeWith .utf8 bytes := (utf8_selects (by decide)).decodes bytes

theorem cuts_utf8 : HeldBack.Cuts complete (fun bytes => toString bytes utf8) WellFormed where
  split x y h := by
    obtain ⟨text, part, rfl, hcut⟩ := h.of_left
    have hunits : decodeWith .utf8 (encodeUtf8 text) = units text := decodeWith_utf8 text
    simp only [toString_utf8]
    rw [complete_encoded text hcut, List.take_left, List.drop_left, hunits, List.append_assoc, decodeWith_encoded]
  rest x y h := by
    obtain ⟨text, part, rfl, hcut⟩ := h.of_left
    rw [List.append_assoc] at h
    rw [complete_encoded text hcut, List.drop_left]
    exact h.of_append

theorem encodeBase64_append {x : Bytes} (h : x.length % 3 = 0) (y : Bytes) :
    encodeBase64 (x ++ y) = encodeBase64 x ++ encodeBase64 y := by
  induction x using encodeBase64.induct with
  | case1 => rfl
  | case2 a => simp at h
  | case3 a b => simp at h
  | case4 a b c rest ih =>
      have hrest : rest.length % 3 = 0 := by
        simp only [List.length_cons] at h
        omega
      simp only [List.cons_append, encodeBase64, ih hrest]

theorem length_inGroups (buf : Bytes) : (buf.take (inGroups buf)).length % 3 = 0 := by
  rw [List.length_take, inGroups]
  omega

theorem cuts_base64 {encoding : Str} (h : isBase64 encoding = true) :
    HeldBack.Cuts inGroups (fun bytes => toString bytes encoding) fun _ => True where
  split x y _ := by
    have hparts := encodeBase64_append (length_inGroups x) (x.drop (inGroups x) ++ y)
    rw [← List.append_assoc, List.take_append_drop] at hparts
    have hname : encoding = "base64".toList ∨ encoding = "base64url".toList := by
      simpa only [isBase64, Bool.or_eq_true, decide_eq_true_eq] using h
    rcases hname with rfl | rfl
    · simp only [(@base64_selects "base64".toList rfl).decodes, base64Text, hparts, List.map_append]
    · simp only [(@base64url_selects "base64url".toList rfl).decodes, base64urlText, base64Text, toUrlAlphabet, hparts,
        List.map_append, List.filter_append]
  rest _ _ _ := trivial

def bytewise : List Str := ["hex", "latin1", "binary"].map String.toList

theorem cuts_bytewise {encoding : Str} (h : encoding ∈ bytewise) :
    HeldBack.Cuts List.length (fun bytes => toString bytes encoding) fun _ => True := by
  have heach : ∃ f : UInt8 → Units, ∀ bytes, toString bytes encoding = bytes.flatMap f := by
    simp only [bytewise, List.map_cons, List.map_nil, List.mem_cons, List.not_mem_nil, or_false] at h
    rcases h with rfl | rfl | rfl
    · exact ⟨_, fun bytes => (@hex_selects "hex".toList rfl).decodes bytes⟩
    · refine ⟨fun b => [b.toNat], fun bytes => ?_⟩
      rw [(@latin1_selects "latin1".toList (by decide)).decodes, decodeWith_latin1, List.map_eq_flatMap]
    · refine ⟨fun b => [b.toNat], fun bytes => ?_⟩
      rw [(@latin1_selects "binary".toList (by decide)).decodes, decodeWith_latin1, List.map_eq_flatMap]
  obtain ⟨f, hf⟩ := heach
  have hfun : (fun bytes => toString bytes encoding) = List.flatMap f := funext hf
  rw [hfun]
  exact HeldBack.cuts_flatMap _ f

/-! ## Chunks -/

/-- How much of the bytes is decoded at once. -/
def cutOf (encoding : Str) : Bytes → Nat :=
  if encoding = utf8 then complete else if isBase64 encoding then inGroups else List.length

/-- The bytes that may come in any parts. -/
def Divisible (encoding : Str) (bytes : Bytes) : Prop :=
  if encoding = utf8 then WellFormed bytes else isBase64 encoding = true ∨ encoding ∈ bytewise

theorem cuts_cutOf (encoding : Str) :
    HeldBack.Cuts (cutOf encoding) (fun bytes => toString bytes encoding) (Divisible encoding) := by
  unfold cutOf Divisible
  split
  · subst encoding
    exact cuts_utf8
  · split
    · exact (cuts_base64 ‹_›).const _
    · exact HeldBack.Cuts.of_const fun h => cuts_bytewise (h.resolve_left ‹_›)

theorem toString_nil (encoding : Str) : toString [] encoding = [] := by
  simp only [Buffer.toString, decodeBytes]
  split_ifs <;> first | rfl | exact decodeWith_utf8 []

/-- Only UTF-8 and base 64 hold bytes back. -/
def Sound (d : StringDecoder) : Prop := d.encoding = utf8 ∨ isBase64 d.encoding = true ∨ d.incomplete = []

theorem write_bytes {d : StringDecoder} (hd : d.Sound) {buf : Bytes} (hne : buf ≠ []) :
    d.write (.bytes buf) =
      ({ d with incomplete := (d.incomplete ++ buf).drop (cutOf d.encoding (d.incomplete ++ buf)) },
        toString ((d.incomplete ++ buf).take (cutOf d.encoding (d.incomplete ++ buf))) d.encoding) := by
  have hzero : ∀ (n : Nat) (bytes : Bytes) (encoding : Str),
      (if n = 0 then [] else toString (bytes.take n) encoding) = toString (bytes.take n) encoding := by
    intro n bytes encoding
    split
    · rw [‹n = 0›, List.take_zero, toString_nil]
    · rfl
  unfold write cutOf
  simp only [if_neg hne]
  split
  · simp only [hzero, ‹d.encoding = utf8›]
  · split
    · simp only [hzero]
    · obtain hutf8 | hbase | hnil := hd
      · exact absurd hutf8 ‹_›
      · exact absurd hbase ‹_›
      · obtain ⟨encoding, incomplete⟩ := d
        simp only at hnil
        subst hnil
        simp

theorem sound_new (encoding : Str) : (new encoding).Sound := .inr (.inr rfl)

theorem Sound.write {d : StringDecoder} (hd : d.Sound) (chunk : Chunk) : (d.write chunk).1.Sound := by
  cases chunk with
  | text s => exact hd
  | bytes buf =>
      by_cases hne : buf = []
      · subst hne
        exact hd
      · rw [write_bytes hd hne]
        by_cases hutf8 : d.encoding = utf8
        · exact .inl hutf8
        · by_cases hbase : isBase64 d.encoding = true
          · exact .inr (.inl hbase)
          · refine .inr (.inr ?_)
            simp only [cutOf, if_neg hutf8, if_neg hbase, List.drop_length]

theorem Sound.writes {d : StringDecoder} (hd : d.Sound) (chunks : List Chunk) : (d.writes chunks).1.Sound := by
  induction chunks generalizing d with
  | nil => exact hd
  | cons chunk chunks ih => exact ih (hd.write chunk)

theorem writes_bytes {d : StringDecoder} (hd : d.Sound) (chunks : List Bytes) :
    d.writes (chunks.map .bytes) =
      ({ d with incomplete :=
          (HeldBack.run (cutOf d.encoding) (fun bytes => toString bytes d.encoding) d.incomplete (chunks.filter (· ≠ []))).1 },
        (HeldBack.run (cutOf d.encoding) (fun bytes => toString bytes d.encoding) d.incomplete (chunks.filter (· ≠ []))).2) := by
  induction chunks generalizing d with
  | nil => rfl
  | cons buf chunks ih =>
      rw [List.map_cons, StringDecoder.writes]
      by_cases hne : buf = []
      · subst hne
        have hwrite : d.write (.bytes []) = (d, []) := rfl
        rw [hwrite, ih hd]
        rfl
      · have hnext := hd.write (.bytes buf)
        rw [write_bytes hd hne] at hnext ⊢
        rw [ih hnext, List.filter_cons_of_pos (by simpa using hne)]
        rfl

theorem flush_eq {d : StringDecoder} (hd : d.Sound) : d.flush.2 = toString d.incomplete d.encoding := by
  unfold flush
  split
  · rw [‹d.incomplete = []›, toString_nil]
  · simp only
    split
    · rfl
    · obtain hutf8 | hbase | hnil := hd
      · rw [hutf8]
      · exact absurd hbase ‹_›
      · exact absurd hnil ‹_›

theorem writes_concat (d : StringDecoder) (chunks : List Chunk) (chunk : Chunk) :
    d.writes (chunks ++ [chunk]) =
      (((d.writes chunks).1.write chunk).1, (d.writes chunks).2 ++ ((d.writes chunks).1.write chunk).2) := by
  induction chunks generalizing d with
  | nil => simp [StringDecoder.writes]
  | cons first chunks ih => rw [List.cons_append, StringDecoder.writes, ih, StringDecoder.writes, List.append_assoc]

/-- What the writes give, and what is decoded of the bytes held back and of those to come, is what is decoded of all bytes. -/
theorem writes_decode {d : StringDecoder} (hd : d.Sound) {chunks : List Bytes} {more : Bytes}
    (h : Divisible d.encoding (d.incomplete ++ chunks.flatten ++ more)) :
    (d.writes (chunks.map .bytes)).2 ++ toString ((d.writes (chunks.map .bytes)).1.incomplete ++ more) d.encoding =
      toString (d.incomplete ++ chunks.flatten ++ more) d.encoding := by
  rw [← @List.flatten_filter_ne_nil _ _ chunks] at h ⊢
  rw [writes_bytes hd]
  exact HeldBack.run_decode (cuts_cutOf d.encoding) h

theorem Divisible.of_left {encoding : Str} {x y : Bytes} (h : Divisible encoding (x ++ y)) : Divisible encoding x := by
  unfold Divisible at *
  split at h
  · rw [if_pos ‹_›]
    exact h.of_left
  · rw [if_neg ‹_›]
    exact h

/-- The writes give the beginning of what is decoded of all bytes. -/
theorem writes_partial {d : StringDecoder} (hd : d.Sound) {chunks : List Bytes} {more : Bytes}
    (h : Divisible d.encoding (d.incomplete ++ chunks.flatten ++ more)) :
    (d.writes (chunks.map .bytes)).2 <+: toString (d.incomplete ++ chunks.flatten ++ more) d.encoding :=
  ⟨_, writes_decode hd h⟩

theorem writes_flush {d : StringDecoder} (hd : d.Sound) {chunks : List Bytes}
    (h : Divisible d.encoding (d.incomplete ++ chunks.flatten)) :
    (d.writes (chunks.map .bytes)).2 ++ (d.writes (chunks.map .bytes)).1.flush.2 =
      toString (d.incomplete ++ chunks.flatten) d.encoding := by
  have hall := @writes_decode d hd chunks [] (by rwa [List.append_nil])
  have hencoding : (d.writes (chunks.map .bytes)).1.encoding = d.encoding := by rw [writes_bytes hd]
  rw [flush_eq (hd.writes _), hencoding]
  simpa only [List.append_nil] using hall

end StringDecoder

end ThreeVa.Js
