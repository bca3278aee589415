import ThreeVa.Lib.Trim
import ThreeVa.Lib.Utf8

/-!
# HTTP responses

Responses of HTTP/1.1 that say their length, and a parser that takes no liberties with them. It reads what `serialize`
writes of a well-formed message, and nothing but well-formed messages.
-/

namespace Http
open Text

/-! ## Messages -/

/-- A character of a token. -/
def isTchar (b : UInt8) : Bool :=
  b ∈ [0x21, 0x23, 0x24, 0x25, 0x26, 0x27, 0x2A, 0x2B, 0x2D, 0x2E, 0x5E, 0x5F, 0x60, 0x7C, 0x7E] ||
    (0x30 ≤ b && b ≤ 0x39) || (0x41 ≤ b && b ≤ 0x5A) || (0x61 ≤ b && b ≤ 0x7A)

/-- A tab, a space, a printable character or a byte beyond ASCII. -/
def isFieldByte (b : UInt8) : Bool := b = 0x09 || (0x20 ≤ b && b ≠ 0x7F)

def isBlank (b : UInt8) : Bool := b = 0x20 || b = 0x09

def trimBlanks (s : Bytes) : Bytes := (s.dropWhile isBlank).rdropWhile isBlank

def lowerByte (b : UInt8) : UInt8 := if 0x41 ≤ b && b ≤ 0x5A then b + 0x20 else b

structure Message where
  status : Nat
  reason : Bytes
  fields : List (Bytes × Bytes)
  body : Bytes
deriving DecidableEq

def contentLengthName : Bytes := encodeUtf8 "content-length".toList

def transferEncodingName : Bytes := encodeUtf8 "transfer-encoding".toList

/-- The values of the fields of a name, given in lower case. -/
def valuesOf (name : Bytes) (fields : List (Bytes × Bytes)) : List Bytes :=
  (fields.filter fun f => f.1.map lowerByte = name).map Prod.snd

def number (ds : Bytes) : Option Nat :=
  if ds = [] then none else digitsValue 10 0 (ds.map fun b => Char.ofNat b.toNat)

/-- One length, and no transfer coding beside it. -/
def contentLength (fields : List (Bytes × Bytes)) : Option Nat :=
  match valuesOf transferEncodingName fields, valuesOf contentLengthName fields with
  | [], [v] => number v
  | _, _ => none

/-- The statuses whose messages end with the head. -/
def bodyless (status : Nat) : Bool := status / 100 = 1 || status = 204 || status = 304

structure Message.WellFormed (m : Message) : Prop where
  status : 100 ≤ m.status ∧ m.status ≤ 999
  reason : ∀ b ∈ m.reason, isFieldByte b = true
  names : ∀ f ∈ m.fields, f.1 ≠ [] ∧ ∀ b ∈ f.1, isTchar b = true
  values : ∀ f ∈ m.fields, (∀ b ∈ f.2, isFieldByte b = true) ∧ trimBlanks f.2 = f.2
  framed : contentLength m.fields ≠ none
  body : if bodyless m.status then m.body = [] else contentLength m.fields = some m.body.length

/-! ## Writing -/

def crlf : Bytes := [0x0D, 0x0A]

def version : Bytes := encodeUtf8 "HTTP/1.1 ".toList

def statusLine (status : Nat) (reason : Bytes) : Bytes := version ++ encodeUtf8 (decimal status) ++ 0x20 :: reason

def fieldLine (f : Bytes × Bytes) : Bytes := f.1 ++ 0x3A :: 0x20 :: f.2

def serialize (m : Message) : Bytes :=
  (statusLine m.status m.reason :: m.fields.map fieldLine).flatMap (· ++ crlf) ++ crlf ++ m.body

/-! ## Reading -/

/-- The lines up to the first empty one. -/
def headLines (line : Bytes) : Bytes → Option (List Bytes × Bytes)
  | b :: c :: rest =>
      if b = 0x0D ∧ c = 0x0A then
        if line = [] then some ([], rest) else (headLines [] rest).map fun r => (line :: r.1, r.2)
      else headLines (line ++ [b]) (c :: rest)
  | _ => none

def parseStatusLine (line : Bytes) : Option (Nat × Bytes) := do
  let (code, reason) ← splitOnce 0x20 (← stripPrefix version line)
  let status ← number code
  if code.length = 3 ∧ 100 ≤ status ∧ status ≤ 999 ∧ reason.all isFieldByte then some (status, reason) else none

def parseField (line : Bytes) : Option (Bytes × Bytes) := do
  let (name, value) ← splitOnce 0x3A line
  if name ≠ [] ∧ name.all isTchar ∧ value.all isFieldByte then some (name, trimBlanks value) else none

/-- The message at the start, and what follows it. -/
def parse (b : Bytes) : Option (Message × Bytes) :=
  match headLines [] b with
  | some (line :: lines, rest) => do
      let (status, reason) ← parseStatusLine line
      let fields ← lines.mapM parseField
      let length ← contentLength fields
      if bodyless status then some (⟨status, reason, fields, []⟩, rest)
      else if length ≤ rest.length then some (⟨status, reason, fields, rest.take length⟩, rest.drop length)
      else none
  | _ => none

/-! ## What is read is well formed -/

theorem trimBlanks_idem (s : Bytes) : trimBlanks (trimBlanks s) = trimBlanks s := by
  have hfirst : ∀ b ∈ (trimBlanks s).head?, isBlank b = false := by
    intro b hb
    obtain ⟨t, ht⟩ := List.rdropWhile_prefix isBlank (s.dropWhile isBlank)
    have hhead := List.head?_dropWhile_not isBlank s
    rw [← ht, List.head?_append_of_ne_nil _ (by rintro hnil; simp [trimBlanks, hnil] at hb)] at hhead
    rw [trimBlanks] at hb
    rwa [hb] at hhead
  have hlast : ∀ b ∈ (trimBlanks s).getLast?, isBlank b = false := by
    intro b hb
    have hne : trimBlanks s ≠ [] := by rintro hnil; simp [hnil] at hb
    obtain rfl : (trimBlanks s).getLast hne = b := by simpa [List.getLast?_eq_some_getLast hne] using hb
    exact Bool.eq_false_iff.mpr (List.rdropWhile_last_not isBlank (s.dropWhile isBlank) hne)
  rw [trimBlanks, dropWhile_of_first hfirst, rdropWhile_of_last hlast]

theorem mem_trimBlanks {s : Bytes} {b : UInt8} (h : b ∈ trimBlanks s) : b ∈ s :=
  (List.dropWhile_sublist _).subset ((List.rdropWhile_prefix _ _).subset h)

theorem parseField_wellFormed {line : Bytes} {f : Bytes × Bytes} (h : parseField line = some f) :
    (f.1 ≠ [] ∧ ∀ b ∈ f.1, isTchar b = true) ∧ (∀ b ∈ f.2, isFieldByte b = true) ∧ trimBlanks f.2 = f.2 := by
  simp only [parseField, Option.bind_eq_bind, Option.bind_eq_some_iff, Prod.exists, Option.ite_none_right_eq_some,
    Option.some.injEq] at h
  obtain ⟨name, value, -, ⟨hne, hname, hvalue⟩, rfl⟩ := h
  rw [List.all_eq_true] at hname hvalue
  exact ⟨⟨hne, hname⟩, fun b hb => hvalue b (mem_trimBlanks hb), trimBlanks_idem value⟩

theorem parseStatusLine_wellFormed {line reason : Bytes} {status : Nat} (h : parseStatusLine line = some (status, reason)) :
    (100 ≤ status ∧ status ≤ 999) ∧ ∀ b ∈ reason, isFieldByte b = true := by
  simp only [parseStatusLine, Option.bind_eq_bind, Option.bind_eq_some_iff, Prod.exists,
    Option.ite_none_right_eq_some, Option.some.injEq, Prod.mk.injEq] at h
  obtain ⟨_, -, _, _, -, _, -, ⟨-, hleast, hmost, hreason⟩, rfl, rfl⟩ := h
  exact ⟨⟨hleast, hmost⟩, List.all_eq_true.mp hreason⟩

theorem mem_of_mapM {α β : Type} {f : α → Option β} {xs : List α} {ys : List β} (h : xs.mapM f = some ys) {y : β}
    (hy : y ∈ ys) : ∃ x, f x = some y := by
  induction xs generalizing ys with
  | nil =>
      cases h
      cases hy
  | cons x xs ih =>
      simp only [List.mapM_cons, Option.bind_eq_bind, Option.bind_eq_some_iff, Option.pure_def, Option.some.injEq] at h
      obtain ⟨z, hz, zs, hzs, rfl⟩ := h
      rcases List.mem_cons.mp hy with rfl | hy
      · exact ⟨x, hz⟩
      · exact ih hzs hy

theorem wellFormed_of_parse {b rest : Bytes} {m : Message} (h : parse b = some (m, rest)) : m.WellFormed := by
  unfold parse at h
  split at h
  · rename_i line lines after _
    simp only [Option.bind_eq_bind, Option.bind_eq_some_iff, Prod.exists] at h
    obtain ⟨status, reason, hstatus, fields, hfields, n, hn, hmessage⟩ := h
    obtain ⟨hrange, hreason⟩ := parseStatusLine_wellFormed hstatus
    have hfield : ∀ f ∈ fields, _ := fun f hf => parseField_wellFormed (mem_of_mapM hfields hf).choose_spec
    have hparts : m.status = status ∧ m.reason = reason ∧ m.fields = fields ∧
        if bodyless m.status then m.body = [] else contentLength m.fields = some m.body.length := by
      split at hmessage
      · rename_i hless
        simp only [Option.some.injEq, Prod.mk.injEq] at hmessage
        obtain ⟨rfl, -⟩ := hmessage
        exact ⟨rfl, rfl, rfl, by simp [hless]⟩
      · rename_i hless
        simp only [Option.ite_none_right_eq_some, Option.some.injEq, Prod.mk.injEq] at hmessage
        obtain ⟨hlength, rfl, -⟩ := hmessage
        exact ⟨rfl, rfl, rfl, by simp [hless, hn, Nat.min_eq_left hlength]⟩
    obtain ⟨rfl, rfl, rfl, hbody⟩ := hparts
    exact ⟨hrange, hreason, fun f hf => (hfield f hf).1, fun f hf => (hfield f hf).2,
      by simp [hn], hbody⟩
  · cases h

/-! ## What is written is read -/

theorem headLines_cons {line t : Bytes} {b : UInt8} (hb : b ≠ 0x0D) (ht : t ≠ []) :
    headLines line (b :: t) = headLines (line ++ [b]) t := by
  cases t with
  | nil => exact absurd rfl ht
  | cons c t => rw [headLines, if_neg fun h => hb h.1]

theorem headLines_line {line l rest : Bytes} (hl : 0x0D ∉ l) (hne : line ++ l ≠ []) :
    headLines line (l ++ crlf ++ rest) = (headLines [] rest).map fun r => ((line ++ l) :: r.1, r.2) := by
  induction l generalizing line with
  | nil =>
      rw [List.append_nil] at hne ⊢
      simp [crlf, headLines, hne]
  | cons b l ih =>
      rw [List.cons_append, List.cons_append, headLines_cons (fun h => hl (h ▸ List.mem_cons_self)) (by simp [crlf]),
        ih (fun h => hl (List.mem_cons_of_mem _ h)) (by simp)]
      simp

theorem headLines_lines {ls : List Bytes} (hls : ∀ l ∈ ls, l ≠ [] ∧ 0x0D ∉ l) (rest : Bytes) :
    headLines [] (ls.flatMap (· ++ crlf) ++ crlf ++ rest) = some (ls, rest) := by
  induction ls with
  | nil => simp [crlf, headLines]
  | cons l ls ih =>
      rw [List.forall_mem_cons] at hls
      rw [List.flatMap_cons, List.append_assoc, List.append_assoc, headLines_line hls.1.2 (by simpa using hls.1.1),
        ← List.append_assoc, ih hls.2]
      rfl

theorem digit_range {c : Char} {n : Nat} (h : c ∈ decimal n) : 48 ≤ c.toNat ∧ c.toNat ≤ 57 := by
  have hdigit := decimal_isDigit h
  simp only [Char.isDigit, Bool.and_eq_true, decide_eq_true_eq, UInt32.le_iff_toNat_le] at hdigit
  exact hdigit

theorem encodeUtf8_decimal (n : Nat) : encodeUtf8 (decimal n) = (decimal n).map fun c => .ofNat c.toNat :=
  encodeUtf8_of_ascii fun _ hc => by have := digit_range hc; omega

theorem number_decimal (n : Nat) : number (encodeUtf8 (decimal n)) = some n := by
  have hne : decimal n ≠ [] := Nat.toDigits_ne_nil
  have hback : ((decimal n).map fun c => UInt8.ofNat c.toNat).map (fun b => Char.ofNat b.toNat) = decimal n := by
    rw [List.map_map]
    refine (List.map_congr_left fun c hc => ?_).trans (List.map_id _)
    have := digit_range hc
    rw [Function.comp_apply, toNat_ofNat_uint8 (by omega), Char.ofNat_toNat]
    rfl
  rw [number, encodeUtf8_decimal, if_neg (by simpa using hne), hback, digitsValue_ten fun _ => decimal_isDigit]
  simp [decimal, Nat.ofDigitChars_ten_toDigits]

theorem length_decimal {n : Nat} (h : 100 ≤ n ∧ n ≤ 999) : (encodeUtf8 (decimal n)).length = 3 := by
  have hall : ∀ k < 900, (decimal (100 + k)).length = 3 := by decide +kernel
  have hn := hall (n - 100) (by omega)
  rwa [encodeUtf8_decimal, List.length_map, ← Nat.add_sub_of_le h.1]

/-- Only digits are written for a number. -/
theorem not_mem_decimal {n : Nat} {b : UInt8} (hb : b.toNat < 48) : b ∉ encodeUtf8 (decimal n) := by
  rw [encodeUtf8_decimal, List.mem_map]
  rintro ⟨c, hc, rfl⟩
  have := digit_range hc
  rw [toNat_ofNat_uint8 (by omega)] at hb
  omega

theorem parseStatusLine_statusLine {status : Nat} {reason : Bytes} (hstatus : 100 ≤ status ∧ status ≤ 999)
    (hreason : ∀ b ∈ reason, isFieldByte b = true) : parseStatusLine (statusLine status reason) = some (status, reason) := by
  have hcode : (0x20 : UInt8) ∉ encodeUtf8 (decimal status) := not_mem_decimal (by decide)
  have hprefix : stripPrefix version (statusLine status reason) = some (encodeUtf8 (decimal status) ++ 0x20 :: reason) :=
    stripPrefix_eq_some.mpr (by rw [statusLine, List.append_assoc])
  simp only [parseStatusLine, hprefix, splitOnce_append hcode, number_decimal, Option.bind_eq_bind, Option.bind_some]
  rw [if_pos ⟨length_decimal hstatus, hstatus.1, hstatus.2, List.all_eq_true.mpr hreason⟩]

theorem parseField_fieldLine {f : Bytes × Bytes} (hname : f.1 ≠ [] ∧ ∀ b ∈ f.1, isTchar b = true)
    (hvalue : (∀ b ∈ f.2, isFieldByte b = true) ∧ trimBlanks f.2 = f.2) : parseField (fieldLine f) = some f := by
  have hcolon : (0x3A : UInt8) ∉ f.1 := fun h => absurd (hname.2 _ h) (by decide)
  have htrim : trimBlanks (0x20 :: f.2) = f.2 := by
    rw [trimBlanks, List.dropWhile_cons_of_pos (by decide)]
    exact hvalue.2
  simp only [parseField, fieldLine, splitOnce_append hcolon, Option.bind_eq_bind, Option.bind_some]
  rw [if_pos ⟨hname.1, List.all_eq_true.mpr hname.2, by simpa using ⟨by decide, hvalue.1⟩⟩, htrim]

theorem parse_serialize {m : Message} (h : m.WellFormed) (rest : Bytes) : parse (serialize m ++ rest) = some (m, rest) := by
  have hcr : ∀ {s : Bytes}, (∀ b ∈ s, isFieldByte b = true) → 0x0D ∉ s := fun hs hb => absurd (hs _ hb) (by decide)
  have hstatus : statusLine m.status m.reason ≠ [] ∧ 0x0D ∉ statusLine m.status m.reason := by
    have hversion : 0x0D ∉ version := by decide +kernel
    have hcode : (0x0D : UInt8) ∉ encodeUtf8 (decimal m.status) := not_mem_decimal (by decide)
    simp [statusLine, hversion, hcode, hcr h.reason]
  have hfields : ∀ l ∈ m.fields.map fieldLine, l ≠ [] ∧ 0x0D ∉ l := by
    intro l hl
    obtain ⟨f, hf, rfl⟩ := List.mem_map.mp hl
    have hname : 0x0D ∉ f.1 := fun hb => absurd ((h.names f hf).2 _ hb) (by decide)
    simp [fieldLine, hname, hcr (h.values f hf).1]
  have hread : (m.fields.map fieldLine).mapM parseField = some m.fields := by
    have hall : ∀ fs : List (Bytes × Bytes), (∀ f ∈ fs, f ∈ m.fields) → (fs.map fieldLine).mapM parseField = some fs := by
      intro fs hfs
      induction fs with
      | nil => rfl
      | cons f fs ih =>
          rw [List.forall_mem_cons] at hfs
          rw [List.map_cons, List.mapM_cons, parseField_fieldLine (h.names f hfs.1) (h.values f hfs.1), ih hfs.2]
          rfl
    exact hall m.fields fun _ => id
  have hbytes : serialize m ++ rest =
      (statusLine m.status m.reason :: m.fields.map fieldLine).flatMap (· ++ crlf) ++ crlf ++ (m.body ++ rest) := by
    simp [serialize]
  obtain ⟨n, hn⟩ := Option.ne_none_iff_exists'.mp h.framed
  have hbody := h.body
  rw [parse, hbytes, headLines_lines (List.forall_mem_cons.mpr ⟨hstatus, hfields⟩)]
  simp only [parseStatusLine_statusLine h.status h.reason, hread, hn, Option.bind_eq_bind, Option.bind_some]
  split at hbody
  · rename_i hless
    rw [if_pos hless]
    simp [← hbody]
  · rename_i hless
    rw [hn, Option.some.injEq] at hbody
    rw [if_neg hless, if_pos (by simp [hbody]), hbody]
    simp

end Http
