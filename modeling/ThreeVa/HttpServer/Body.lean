import ThreeVa.HttpServer.Reader

/-!
# Request bodies

`pump_body` of `js/src/builtins/http_server.rs`. A pump returns the slices it pushed to its sink, also when it
fails, and the reader it leaves.
-/

-- The equations named in the matches below are for the termination proofs.
set_option linter.unusedVariables false

namespace ThreeVa.HttpServer
open Text

inductive BodyFraming
  | none
  | length (n : Nat)
  | chunked
deriving DecidableEq

def hardMaxBody : Nat := 100 * 1024 * 1024

def bodyReadMax : Nat := 64 * 1024

/-- The slices pushed, and the reader left or the error. -/
abbrev Pumped := List Bytes × Except ParseError Reader

/-! ## A counted number of bytes -/

theorem read_length {r r' : Reader} {env : Env} {max : Nat} {timeout : String} {slice : Bytes}
    (h : r.read env max timeout = .ok (slice, r')) :
    slice ++ r'.bytes = r.bytes ∧ slice.length ≤ max ∧ r'.ending = r.ending := by
  unfold Reader.read at h
  split at h
  · split at h <;> cases h
    simp
  · cases h
    refine ⟨List.take_append_drop _ _, ?_, rfl⟩
    exact (List.length_take_le _ _).trans (Nat.min_le_right _ _)

/-- The read loop of `pump_length`, and of the data of one chunk. -/
def pumpData (env : Env) (minBodyRateBps : Nat) (r : Reader) (remaining : Nat) : Pumped :=
  if remaining = 0 then ([], .ok r)
  else if env.deadlinePassed r.bytes.length then
    ([], .error (.silent "timeout: body deadline exceeded (RUDY?)"))
  else
    match r.read env (min remaining bodyReadMax) "timeout: body stalled (RUDY?)" with
    | .error e => ([], .error e)
    | .ok ([], _) => ([], .error (.silent "connection closed before body complete"))
    | .ok (b :: slice, r') =>
        match if 0 < minBodyRateBps then env.slowRate r'.bytes.length else none with
        | some rate =>
            ([b :: slice], .error (.silent
              ("body rate too low (" ++ rate ++ " B/s < " ++ toString minBodyRateBps ++ " B/s min): RUDY?")))
        | none =>
            let (pushed, res) := pumpData env minBodyRateBps r' (remaining - (b :: slice).length)
            ((b :: slice) :: pushed, res)
termination_by remaining
decreasing_by
  simp only [List.length_cons]
  omega

theorem pumpData_length (env : Env) (minBodyRateBps : Nat) (r : Reader) (remaining : Nat) {pushed : List Bytes}
    {r' : Reader} (h : pumpData env minBodyRateBps r remaining = (pushed, .ok r')) :
    r'.bytes.length ≤ r.bytes.length := by
  fun_induction pumpData env minBodyRateBps r remaining generalizing pushed with
  | case1 => cases h; exact le_rfl
  | case2 | case3 | case4 | case5 => simp at h
  | case6 r remaining hne hdeadline b slice r1 hread hrate pushed' res hrec ih =>
      cases h
      have := (read_length hread).1
      have hle := ih hrec
      rw [← this, List.length_append]
      omega

/-! ## Chunked bodies -/

/-- The size part of a chunk-size line: what stands before the extensions. -/
def sizeField (content : Str) : Str := content.takeWhile (· ≠ ';')

def chunkSize (field : Str) : Option Nat := parseUnsigned 16 usizeMax (trim field)

/-- The trailer section: read until a blank line, discard, bounded. -/
def readTrailers (maxHeaderBytes : Nat) (r : Reader) (trailerBytes : Nat) : Except ParseError Reader :=
  match h : r.readLine "timeout: trailers stalled" with
  | .error e => .error e
  | .ok (line, r') =>
      if hempty : line.text = [] then .ok r'
      else if maxHeaderBytes < trailerBytes + line.raw.length then
        .error (.silent ("trailer flood: exceeded " ++ toString maxHeaderBytes ++ " bytes"))
      else if line.content = [] then .ok r'
      else readTrailers maxHeaderBytes r' (trailerBytes + line.raw.length)
termination_by r.bytes.length
decreasing_by exact readLine_length_lt h hempty

structure BodyLimits where
  maxBody : Nat
  minBodyRateBps : Nat
  maxHeaderBytes : Nat

/-- `pump_chunked`, with `total` bytes of data read so far. -/
def pumpChunked (env : Env) (limits : BodyLimits) (r : Reader) (total : Nat) : Pumped :=
  match hsize : r.readLine "timeout: chunk size line stalled" with
  | .error e => ([], .error e)
  | .ok (sizeLine, r1) =>
      if hempty : sizeLine.text = [] then ([], .error (.silent "connection closed mid-chunked-body"))
      else
        match chunkSize (sizeField sizeLine.content) with
        | none => ([], .error (.respond 400 "Bad Request"))
        | some chunkLen =>
            if limits.maxBody < chunkLen ∨ limits.maxBody < min (total + chunkLen) usizeMax then
              ([], .error (.respond 413 "Payload Too Large"))
            else if chunkLen = 0 then ([], readTrailers limits.maxHeaderBytes r1 0)
            else
              match hdata : pumpData env limits.minBodyRateBps r1 chunkLen with
              | (pushed, .error e) => (pushed, .error e)
              | (pushed, .ok r2) =>
                  match hcrlf : r2.readLine "chunk terminator stalled" with
                  | .error e => (pushed, .error e)
                  | .ok (crlf, r3) =>
                      if crlf.content ≠ [] then (pushed, .error (.respond 400 "Bad Request"))
                      else
                        let (more, res) := pumpChunked env limits r3 (total + chunkLen)
                        (pushed ++ more, res)
termination_by r.bytes.length
decreasing_by
  have h1 := readLine_length_lt hsize hempty
  have h2 := pumpData_length _ _ _ _ hdata
  have h3 := readLine_length hcrlf
  omega

def pumpBody (env : Env) (framing : BodyFraming) (limits : BodyLimits) (r : Reader) : Pumped :=
  let maxBody := if limits.maxBody = 0 then hardMaxBody else limits.maxBody
  match framing with
  | .none => ([], .ok r)
  | .length n => pumpData env limits.minBodyRateBps r n
  | .chunked => pumpChunked env { limits with maxBody } r 0

end ThreeVa.HttpServer
