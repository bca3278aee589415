import ThreeVa.HttpServer.Body

/-!
# Request heads

`parse_request_head` of `js/src/builtins/http_server.rs`.
-/

-- The equations named in the matches below are for the termination proofs.
set_option linter.unusedVariables false

namespace ThreeVa.HttpServer
open Text

structure ParsedHead where
  method : Str
  path : Str
  headers : List (Str × Str)
  http10 : Bool
  framing : BodyFraming
deriving DecidableEq

structure HeadLimits where
  maxHeaderCount : Nat
  maxHeaderBytes : Nat
  maxBodyBytes : Nat

def HeadLimits.maxBody (limits : HeadLimits) : Nat :=
  if limits.maxBodyBytes = 0 then hardMaxBody else limits.maxBodyBytes

/-! ## The request line -/

theorem Line.text_ne_nil_of_content {l : Line} (h : l.content ≠ []) : l.text ≠ [] := by
  intro hnil
  exact h (by rw [Line.content, hnil]; rfl)

/-- The first line that is not empty, and the bytes read up to its end. -/
def readRequestLine (maxHeaderBytes : Nat) (r : Reader) (skippedBytes : Nat) :
    Except ParseError (Line × Nat × Reader) :=
  match h : r.readLine "timeout: request line not received in time (Slowloris?)" with
  | .error e => .error e
  | .ok (line, r') =>
      if hempty : line.text = [] then .error (.silent "connection closed before request line")
      else if maxHeaderBytes < skippedBytes + line.raw.length then
        .error (.silent ("request line flood: exceeded " ++ toString maxHeaderBytes ++ " bytes"))
      else if line.content = [] then readRequestLine maxHeaderBytes r' (skippedBytes + line.raw.length)
      else .ok (line, skippedBytes + line.raw.length, r')
termination_by r.bytes.length
decreasing_by exact readLine_length_lt h hempty

/-- `splitn(3, ' ')`: method, path and version, with their defaults. -/
def requestParts (s : Str) : Str × Str × Str :=
  match splitOnce ' ' s with
  | none => (s, "/".toList, "HTTP/1.1".toList)
  | some (method, s) =>
      match splitOnce ' ' s with
      | none => (method, s, "HTTP/1.1".toList)
      | some (path, version) => (method, path, version)

/-! ## Header lines -/

def contentLengthName : Str := "content-length".toList

def transferEncodingName : Str := "transfer-encoding".toList

structure HeadState where
  headers : List (Str × Str)
  /-- `content_length`, where `has_content_length`. -/
  contentLength : Option Nat
  transferEncoding : Option Str
deriving DecidableEq

def HeadState.new : HeadState := ⟨[], none, none⟩

def badRequest {α : Type} : Except ParseError α := .error (.respond 400 "Bad Request")

def payloadTooLarge {α : Type} : Except ParseError α := .error (.respond 413 "Payload Too Large")

/-- The lower-case name and the value of a header line. Line folding, a missing colon, and an empty name or one
with white space in it are refused. -/
def headerField (line : Line) : Option (Str × Str) :=
  if line.text.head? = some ' ' ∨ line.text.head? = some '\t' then none
  else
    match splitOnce ':' line.content with
    | none => none
    | some (rawName, rest) =>
        if rawName = [] ∨ ' ' ∈ rawName ∨ '\t' ∈ rawName then none
        else some (toAsciiLowercase rawName, trim rest)

def HeadState.add (maxBody : Nat) (st : HeadState) (name value : Str) : Except ParseError HeadState :=
  if name = contentLengthName then
    if value = [] ∨ ¬ value.all Char.isDigit then badRequest
    else
      match parseUnsigned 10 usizeMax value with
      | none => payloadTooLarge
      | some parsed =>
          if st.contentLength.any (· ≠ parsed) then badRequest
          else if maxBody < parsed then payloadTooLarge
          else
            .ok { st with
              contentLength := some parsed
              headers := st.headers ++ [(name, decimal parsed)] }
  else if name = transferEncodingName then
    let lower := toAsciiLowercase value
    if st.transferEncoding.any (· ≠ lower) then badRequest
    else .ok { st with transferEncoding := some lower, headers := st.headers ++ [(name, value)] }
  else .ok { st with headers := st.headers ++ [(name, value)] }

def addHeader (limits : HeadLimits) (st : HeadState) (line : Line) : Except ParseError HeadState :=
  if limits.maxHeaderCount ≤ st.headers.length then
    .error (.silent ("header flood: more than " ++ toString limits.maxHeaderCount ++ " headers"))
  else
    match headerField line with
    | none => badRequest
    | some (name, value) => st.add limits.maxBody name value

/-- The header loop: up to an empty line. At the end of the stream `read_line` returns an empty one. -/
def readHeaders (limits : HeadLimits) (r : Reader) (st : HeadState) (totalHeaderBytes : Nat) :
    Except ParseError (HeadState × Reader) :=
  match h : r.readLine "timeout: headers not received in time (Slowloris?)" with
  | .error e => .error e
  | .ok (line, r') =>
      if limits.maxHeaderBytes < totalHeaderBytes + line.raw.length then
        .error (.silent ("header flood: exceeded " ++ toString limits.maxHeaderBytes ++ " bytes"))
      else if hempty : line.content = [] then .ok (st, r')
      else
        match addHeader limits st line with
        | .error e => .error e
        | .ok st => readHeaders limits r' st (totalHeaderBytes + line.raw.length)
termination_by r.bytes.length
decreasing_by exact readLine_length_lt h (Line.text_ne_nil_of_content hempty)

/-! ## The head -/

def finalCoding (te : Str) : Str :=
  trim (match rsplitOnce ',' te with
    | some (_, last) => last
    | none => te)

def framingOf (st : HeadState) : Except ParseError BodyFraming :=
  match st.contentLength, st.transferEncoding with
  | some _, some _ => badRequest
  | _, some te =>
      if finalCoding te ≠ "chunked".toList then .error (.respond 501 "Not Implemented") else .ok .chunked
  | some n, none => if 0 < n then .ok (.length n) else .ok .none
  | none, none => .ok .none

def parseRequestHead (limits : HeadLimits) (r : Reader) : Except ParseError (ParsedHead × Reader) := do
  let (line, requestLineLen, r) ← readRequestLine limits.maxHeaderBytes r 0
  let (method, path, version) := requestParts line.content
  let (st, r) ← readHeaders limits r .new requestLineLen
  let framing ← framingOf st
  return ({ method, path, headers := st.headers, http10 := version = "HTTP/1.0".toList, framing }, r)

/-!
## The form of heads and chunked bodies

What a request head and a chunked body are, as relations on byte streams. A line ends with its line feed;
carriage returns before it belong to the line end.
-/

/-! ## Chunked bodies -/

/-- Header lines up to an empty line, `size` bytes in all. Not `closed`: the stream ends before the empty line
does. -/
inductive TrailerSection : (b : Bytes) → (size : Nat) → (closed : Bool) → (rest : Bytes) → Prop
  | close {b rest l} (line : LineAt b l rest) (empty : l.content = []) : TrailerSection b l.raw.length true rest
  | field {b mid rest l n closed} (line : LineAt b l mid) (nonempty : l.content ≠ [])
      (more : TrailerSection mid n closed rest) : TrailerSection b (l.raw.length + n) closed rest
  | cut {b l} (line : CutLine b l) : TrailerSection b l.raw.length false []

/-- Chunks, last chunk and trailer section, where `size` says which number a size field writes. The indices
are the size fields, the chunk data, the size of the trailer section, whether it is closed, and what follows. -/
inductive ChunkedBody (size : Str → Option Nat) :
    (b : Bytes) → (fields : List Str) → (data : Bytes) → (trailers : Nat) → (closed : Bool) → (rest : Bytes) → Prop
  | chunk {b mid rest mid' rest' fields more trailers closed l crlf data}
      (line : LineAt b l mid) (len : size (sizeField l.content) = some data.length) (nonempty : data ≠ [])
      (stream : mid = data ++ rest) (term : LineAt rest crlf mid') (empty : crlf.content = [])
      (next : ChunkedBody size mid' fields more trailers closed rest') :
      ChunkedBody size b (sizeField l.content :: fields) (data ++ more) trailers closed rest'
  | last {b mid rest l trailers closed} (line : LineAt b l mid) (zero : size (sizeField l.content) = some 0)
      (section_ : TrailerSection mid trailers closed rest) :
      ChunkedBody size b [sizeField l.content] [] trailers closed rest
  | cut {b l} (line : CutLine b l) (zero : size (sizeField l.content) = some 0) :
      ChunkedBody size b [sizeField l.content] [] 0 false []

def IsHexSize (field : Str) : Prop := field ≠ [] ∧ ∀ c ∈ field, (toDigit 16 c).isSome

instance (field : Str) : Decidable (IsHexSize field) :=
  @instDecidableAnd _ _ inferInstance (List.decidableBAll _ field)

def hexSize (field : Str) : Option Nat :=
  if IsHexSize field then (digitsValue 16 0 field).filter (· ≤ usizeMax) else none

/-- The stream starts with a chunked body of `data` within the limits, and goes on with `rest`. -/
def WellFormedBody (limits : BodyLimits) (b data rest : Bytes) : Prop :=
  ∃ fields trailers, ChunkedBody hexSize b fields data trailers true rest ∧
    data.length ≤ limits.maxBody ∧ trailers ≤ limits.maxHeaderBytes

/-- The same with the liberties `pump_chunked` allows: a size may carry a sign and white space around it, the
stream may end inside the trailer section, and a sum of sizes that overflows `usize` saturates. -/
def LooseBody (limits : BodyLimits) (r : Reader) (fields : List Str) (data : Bytes) (closed : Bool)
    (rest : Bytes) : Prop :=
  ∃ trailers, ChunkedBody chunkSize r.bytes fields data trailers closed rest ∧
    min data.length usizeMax ≤ limits.maxBody ∧ trailers ≤ limits.maxHeaderBytes ∧
    (closed = true ∨ r.ending = .eof)

/-- A loose body at the start of the stream takes none of the liberties. -/
def StrictlyFramed (limits : BodyLimits) (r : Reader) : Prop :=
  ∀ fields data closed rest, LooseBody limits r fields data closed rest →
    (∀ f ∈ fields, IsHexSize f) ∧ closed = true ∧ data.length ≤ limits.maxBody

/-! ## Heads -/

def rawLines (ls : List Line) : Bytes := (ls.map Line.raw).flatten

/-- The stream starts with a head: empty lines, a request line, header lines and the empty line that ends
them. -/
structure HeadAt (b : Bytes) (skipped : List Line) (request : Line) (headers : List Line) (blank : Line)
    (rest : Bytes) : Prop where
  stream : b = rawLines skipped ++ (request.raw ++ (rawLines headers ++ (blank.raw ++ rest)))
  skipped_empty : ∀ l ∈ skipped, l.Closed ∧ l.content = []
  request_nonempty : request.Closed ∧ request.content ≠ []
  headers_nonempty : ∀ l ∈ headers, l.Closed ∧ l.content ≠ []
  blank_empty : blank.Closed ∧ blank.content = []

def headBytes (skipped : List Line) (request : Line) (headers : List Line) (blank : Line) : Bytes :=
  rawLines skipped ++ (request.raw ++ (rawLines headers ++ blank.raw))

/-- A header line: a name without white space, a colon and a value. The field is read as the name in lower case
and the value without the white space around it. -/
def HeaderLine (l : Line) (field : Str × Str) : Prop :=
  ∃ name value, l.content = name ++ ':' :: value ∧ name ≠ [] ∧ ':' ∉ name ∧ ' ' ∉ name ∧ '\t' ∉ name ∧
    field = (toAsciiLowercase name, trim value)

def fieldValues (name : Str) (fields : List (Str × Str)) : List Str :=
  (fields.filter fun f => f.1 = name).map (·.2)

def DenotesLength (v : Str) (n : Nat) : Prop := v ≠ [] ∧ (∀ c ∈ v, c.isDigit) ∧ digitsValue 10 0 v = some n

/-- The framing the fields say, in whatever order they come. -/
structure FramedBy (maxBody : Nat) (fields : List (Str × Str)) (framing : BodyFraming) : Prop where
  chunked : framing = .chunked ↔ fieldValues transferEncodingName fields ≠ []
  chunked_last : ∀ v ∈ fieldValues transferEncodingName fields, finalCoding (toAsciiLowercase v) = "chunked".toList
  chunked_only : fieldValues transferEncodingName fields ≠ [] → fieldValues contentLengthName fields = []
  length : ∀ n, framing = .length n ↔ fieldValues contentLengthName fields ≠ [] ∧
    (∀ v ∈ fieldValues contentLengthName fields, DenotesLength v n) ∧ 0 < n ∧ n ≤ maxBody

end ThreeVa.HttpServer
