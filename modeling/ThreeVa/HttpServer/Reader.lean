import ThreeVa.Lib.Utf8

/-!
# Reading from a peer

A connection as the parsers of `js/src/builtins/http_server.rs` see it: the bytes that arrive before the
stream ends, and how it ends.
-/

namespace ThreeVa.HttpServer
open Text

/-- Why request parsing gave up. `silent` drops the connection without a response. -/
inductive ParseError
  | respond (status : Nat) (msg : String)
  | silent (msg : String)
deriving DecidableEq

inductive Ending
  | eof
  | failed (msg : String)
  /-- Nothing more arrives before the time limit of the read. -/
  | stalled
deriving DecidableEq

structure Reader where
  bytes : Bytes
  ending : Ending
deriving DecidableEq

/-! ## Lines -/

def newline : UInt8 := 10

/-- A line as it was read: its bytes, line end included, and the text they encode. -/
structure Line where
  raw : Bytes
  text : Str
  decoded : decodeUtf8 raw = some text

/-- `trim_end_matches(['\r', '\n'])`. -/
def trimLineEnd (s : Str) : Str := s.rdropWhile fun c => c = '\r' || c = '\n'

def Line.content (l : Line) : Str := trimLineEnd l.text

def lineOfBytes (raw : Bytes) : Except ParseError Line :=
  match h : decodeUtf8 raw with
  | some text => .ok ⟨raw, text, h⟩
  | none => .error (.silent "stream did not contain valid UTF-8")

/-- `read_line`: up to and with the next line feed, or what is left at the end of the stream. -/
def Reader.readLine (r : Reader) (timeout : String) : Except ParseError (Line × Reader) :=
  match splitOnce newline r.bytes with
  | some (body, rest) => (lineOfBytes (body ++ [newline])).map fun l => (l, { r with bytes := rest })
  | none =>
      match r.ending with
      | .eof => (lineOfBytes r.bytes).map fun l => (l, { r with bytes := [] })
      | .failed msg => .error (.silent msg)
      | .stalled => .error (.silent timeout)

/-! ## Bytes -/

/-- What the reader does not decide, where `n` bytes are still to come: how many of them a read returns,
whether the body deadline has passed, and the receive rate where it is below the minimum. -/
structure Env where
  readSize : (n : Nat) → Nat
  deadlinePassed : (n : Nat) → Bool
  slowRate : (n : Nat) → Option String

/-- `read` into a buffer of `max` bytes: at least one byte when there is one. -/
def Reader.read (r : Reader) (env : Env) (max : Nat) (timeout : String) : Except ParseError (Bytes × Reader) :=
  if r.bytes = [] then
    match r.ending with
    | .eof => .ok ([], r)
    | .failed msg => .error (.silent msg)
    | .stalled => .error (.silent timeout)
  else
    let n := min (Nat.max (env.readSize r.bytes.length) 1) max
    .ok (r.bytes.take n, { r with bytes := r.bytes.drop n })

/-! ## What a line read does -/

def Line.Closed (l : Line) : Prop := ∃ body, newline ∉ body ∧ l.raw = body ++ [newline]

/-- The stream `b` starts with the line and goes on with `rest`. -/
structure LineAt (b : Bytes) (l : Line) (rest : Bytes) : Prop where
  stream : b = l.raw ++ rest
  closed : l.Closed

/-- The stream `b` ends inside the line. -/
structure CutLine (b : Bytes) (l : Line) : Prop where
  stream : l.raw = b
  open_ : newline ∉ b

theorem Line.ext {l l' : Line} (h : l.raw = l'.raw) : l = l' := by
  obtain ⟨raw, text, hd⟩ := l
  obtain ⟨raw', text', hd'⟩ := l'
  dsimp only at h
  subst h
  have htext : text = text' := Option.some.inj (hd.symm.trans hd')
  subst htext
  rfl

theorem Line.text_eq_nil {l : Line} : l.text = [] ↔ l.raw = [] := by
  constructor
  · intro h
    exact decodeUtf8_eq_nil (h ▸ l.decoded)
  · intro h
    have hd := l.decoded
    rw [h] at hd
    exact (Option.some.inj hd).symm

theorem lineOfBytes_ok {raw : Bytes} {l : Line} : lineOfBytes raw = .ok l ↔ l.raw = raw := by
  unfold lineOfBytes
  constructor
  · intro h
    split at h
    · cases h; rfl
    · cases h
  · rintro rfl
    split
    · exact congrArg _ (Line.ext rfl)
    · rename_i hnone
      rw [l.decoded] at hnone
      cases hnone

theorem readLine_ok {r r' : Reader} {timeout : String} {l : Line} :
    r.readLine timeout = .ok (l, r') ↔
      (LineAt r.bytes l r'.bytes ∧ r'.ending = r.ending) ∨
        (CutLine r.bytes l ∧ r.ending = .eof ∧ r' = ⟨[], .eof⟩) := by
  unfold Reader.readLine
  cases hsplit : splitOnce newline r.bytes with
  | some p =>
      obtain ⟨body, rest⟩ := p
      obtain ⟨hb, hbody⟩ := splitOnce_eq_some.mp hsplit
      dsimp only
      constructor
      · intro h
        cases hl : lineOfBytes (body ++ [newline]) with
        | error e => rw [hl] at h; cases h
        | ok l' =>
            rw [hl] at h
            cases h
            have hraw := lineOfBytes_ok.mp hl
            exact .inl ⟨⟨by rw [hraw, hb, List.append_assoc]; rfl, body, hbody, hraw⟩, rfl⟩
      · rintro (⟨⟨hstream, body', hbody', hraw⟩, hending⟩ | ⟨⟨-, hopen⟩, -⟩)
        · have hsame : splitOnce newline r.bytes = some (body', r'.bytes) :=
            splitOnce_eq_some.mpr ⟨by rw [hstream, hraw, List.append_assoc]; rfl, hbody'⟩
          rw [hsplit] at hsame
          obtain ⟨rfl, rfl⟩ := Prod.mk.inj (Option.some.inj hsame)
          rw [lineOfBytes_ok.mpr hraw]
          cases r'
          cases hending
          rfl
        · exact absurd (by simp [hb]) hopen
  | none =>
      have hopen := splitOnce_eq_none.mp hsplit
      have hnot : ∀ rest, ¬ LineAt r.bytes l rest := by
        rintro rest ⟨hstream, body, -, hraw⟩
        exact hopen (by simp [hstream, hraw])
      dsimp only
      cases hending : r.ending with
      | eof =>
          dsimp only
          constructor
          · intro h
            cases hl : lineOfBytes r.bytes with
            | error e => rw [hl] at h; cases h
            | ok l' =>
                rw [hl] at h
                cases h
                exact .inr ⟨⟨lineOfBytes_ok.mp hl, hopen⟩, rfl, rfl⟩
          · rintro (⟨hline, -⟩ | ⟨⟨hraw, -⟩, -, rfl⟩)
            · exact absurd hline (hnot _)
            · rw [lineOfBytes_ok.mpr hraw]
              rfl
      | failed msg => simp [hnot]
      | stalled => simp [hnot]

theorem LineAt.readLine {r : Reader} {l : Line} {rest : Bytes} (h : LineAt r.bytes l rest) (timeout : String) :
    r.readLine timeout = .ok (l, ⟨rest, r.ending⟩) :=
  readLine_ok.mpr (.inl ⟨h, rfl⟩)

theorem CutLine.readLine {r : Reader} {l : Line} (h : CutLine r.bytes l) (hending : r.ending = .eof)
    (timeout : String) : r.readLine timeout = .ok (l, ⟨[], .eof⟩) :=
  readLine_ok.mpr (.inr ⟨h, hending, rfl⟩)

theorem LineAt.text_ne_nil {b rest : Bytes} {l : Line} (h : LineAt b l rest) : l.text ≠ [] := by
  obtain ⟨body, -, hraw⟩ := h.closed
  intro hnil
  rw [Line.text_eq_nil.mp hnil] at hraw
  simp at hraw

theorem LineAt.unique {b rest rest' : Bytes} {l l' : Line} (h : LineAt b l rest) (h' : LineAt b l' rest') :
    l = l' ∧ rest = rest' := by
  obtain ⟨hstream, body, hbody, hraw⟩ := h
  obtain ⟨hstream', body', hbody', hraw'⟩ := h'
  have hsplit : splitOnce newline b = some (body, rest) :=
    splitOnce_eq_some.mpr ⟨by rw [hstream, hraw, List.append_assoc]; rfl, hbody⟩
  have hsplit' : splitOnce newline b = some (body', rest') :=
    splitOnce_eq_some.mpr ⟨by rw [hstream', hraw', List.append_assoc]; rfl, hbody'⟩
  obtain ⟨rfl, rfl⟩ := Prod.mk.inj (Option.some.inj (hsplit.symm.trans hsplit'))
  exact ⟨Line.ext (hraw.trans hraw'.symm), rfl⟩

theorem LineAt.not_cut {b rest : Bytes} {l l' : Line} (h : LineAt b l rest) : ¬ CutLine b l' := by
  obtain ⟨body, -, hraw⟩ := h.closed
  exact fun hcut => hcut.open_ (by simp [h.stream, hraw])

theorem CutLine.unique {b : Bytes} {l l' : Line} (h : CutLine b l) (h' : CutLine b l') : l = l' :=
  Line.ext (h.stream.trans h'.stream.symm)

theorem LineAt.length {b rest : Bytes} {l : Line} (h : LineAt b l rest) : rest.length < b.length := by
  obtain ⟨body, -, hraw⟩ := h.closed
  rw [h.stream, hraw]
  simp only [List.length_append, List.length_singleton]
  omega

theorem readLine_length {r r' : Reader} {timeout : String} {l : Line}
    (h : r.readLine timeout = .ok (l, r')) : r'.bytes.length ≤ r.bytes.length := by
  rcases readLine_ok.mp h with ⟨hline, -⟩ | ⟨-, -, rfl⟩
  · exact hline.length.le
  · simp

theorem readLine_length_lt {r r' : Reader} {timeout : String} {l : Line}
    (h : r.readLine timeout = .ok (l, r')) (hne : l.text ≠ []) : r'.bytes.length < r.bytes.length := by
  rcases readLine_ok.mp h with ⟨hline, -⟩ | ⟨hcut, -, rfl⟩
  · exact hline.length
  · rw [← hcut.stream]
    exact List.length_pos_iff.mpr fun hnil => hne (Line.text_eq_nil.mpr hnil)

end ThreeVa.HttpServer
