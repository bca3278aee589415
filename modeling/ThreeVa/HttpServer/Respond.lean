import ThreeVa.HttpServer.Head
import ThreeVa.Lib.Http
import ThreeVa.Lib.Json

/-!
# Writing responses

`__httpRespond` and `__httpRespondBytes` of `js/src/builtins/http_server.rs` up to the bytes they send. The functions of
`serde_json` and the date of the clock are given.
-/

namespace ThreeVa.HttpServer.Respond
open Text

/-! ## Headers of the application -/

/-- `from_str`, and `to_string` of a value that is neither a string nor null. -/
structure SerdeJson where
  fromStr : Str → Option Json
  toText : Json → Str

def SerdeJson.text (serde : SerdeJson) : Json → Str
  | .str s => s
  | .null => []
  | other => serde.toText other

def parseExtraHeaders (serde : SerdeJson) (headersJson : Str) : List (Str × Str) :=
  match (serde.fromStr headersJson).bind Json.asObject with
  | some obj => obj.flatMap fun (k, v) =>
      match v with
      | .arr items => items.map fun i => (k, serde.text i)
      | _ => [(k, serde.text v)]
  | none => []

def isAsciiAlphanumeric (b : UInt8) : Bool :=
  (0x30 ≤ b && b ≤ 0x39) || (0x41 ≤ b && b ≤ 0x5A) || (0x61 ≤ b && b ≤ 0x7A)

def isNameByte (b : UInt8) : Bool := b ∈ encodeUtf8 "!#$%&'*+-.^_`|~".toList || isAsciiAlphanumeric b

def isValidHeaderName (name : Str) : Bool := !name.isEmpty && (encodeUtf8 name).all isNameByte

def isValueByte (b : UInt8) : Bool := b = 0x09 || !(0x00 ≤ b && b ≤ 0x1F) && b ≠ 0x7F

def isValidHeaderValue (value : Str) : Bool := (encodeUtf8 value).all isValueByte

def isStatusByte (b : UInt8) : Bool := b = 0x09 || (0x20 ≤ b && b ≤ 0x7E) || 0x80 ≤ b

def isValidStatusText (value : Str) : Bool := (encodeUtf8 value).all isStatusByte

/-! ## The head -/

structure JsError where
  code : Str
  message : Str
deriving DecidableEq

def invalidChar (where_ : Str) : JsError := ⟨"ERR_INVALID_CHAR".toList, "Invalid character in ".toList ++ where_⟩

def eol : Str := ['\r', '\n']

def headerLine (k v : Str) : Str := k ++ [':', ' '] ++ v ++ eol

def pushHeaders (skipped : List Str) (resp : Str) : List (Str × Str) → Except JsError Str
  | [] => .ok resp
  | (k, v) :: rest =>
      let kl := toLowercase k
      if kl ∈ skipped then pushHeaders skipped resp rest
      else if !isValidHeaderName k || !isValidHeaderValue v then
        .error (invalidChar ("header content [\"".toList ++ kl ++ "\"]".toList))
      else pushHeaders skipped (resp ++ headerLine k v) rest

/-- The text of `fmt_http_date`: printable, and no blank at an end. -/
structure HttpDate where
  text : Str
  printable : ∀ c ∈ text, 0x20 ≤ c.toNat ∧ c.toNat < 0x7F
  tight : Http.trimBlanks (encodeUtf8 text) = encodeUtf8 text

def connectionName : Str := "connection".toList

def dateName : Str := "date".toList

def versionText : Str := "HTTP/1.1 ".toList

def dateField : Str := "Date".toList

def connectionField : Str := "Connection".toList

def keepAliveField : Str := "Keep-Alive".toList

def contentLengthField : Str := "Content-Length".toList

def transferEncodingField : Str := "Transfer-Encoding".toList

def keepAliveName : Str := "keep-alive".toList

def connectionValue (closeAfter : Bool) : Str := if closeAfter then "close".toList else "keep-alive".toList

/-- What the responders do differently. -/
structure Options where
  skipped : List Str
  sendDate : Bool
  sendConnection : Bool
  keepAlive : Str
  framing : Nat

structure Answer where
  status : Nat
  statusText : Str
  headersJson : Str
  closeAfter : Bool
  body : Bytes

def dateHeaders (date : HttpDate) (o : Options) : List (Str × Str) :=
  if o.sendDate then [(dateField, date.text)] else []

/-- `Keep-Alive` is sent with a connection that stays open, unless the application set its own. -/
def advertises (o : Options) (extra : List (Str × Str)) (closeAfter : Bool) : Bool :=
  o.sendConnection && !closeAfter && !o.keepAlive.isEmpty &&
    !extra.any fun (k, _) => eqIgnoreAsciiCase k keepAliveName

def connectionHeaders (o : Options) (extra : List (Str × Str)) (closeAfter : Bool) : List (Str × Str) :=
  (if o.sendConnection then [(connectionField, connectionValue closeAfter)] else []) ++
    if advertises o extra closeAfter then [(keepAliveField, o.keepAlive)] else []

def framingHeaders (framing length : Nat) : List (Str × Str) :=
  match framing with
  | 1 => [(transferEncodingField, "chunked".toList)]
  | 2 => []
  | _ => [(contentLengthField, decimal length)]

def headerLines (headers : List (Str × Str)) : Str := headers.flatMap fun (k, v) => headerLine k v

def respondWith (serde : SerdeJson) (date : HttpDate) (o : Options) (a : Answer) : Except JsError Bytes :=
  if !isValidStatusText a.statusText then .error (invalidChar "statusMessage".toList)
  else do
    let extra := parseExtraHeaders serde a.headersJson
    let resp ← pushHeaders o.skipped (versionText ++ decimal a.status ++ ' ' :: a.statusText ++ eol) extra
    let resp := resp ++ headerLines (dateHeaders date o)
    let resp := resp ++ headerLines (connectionHeaders o extra a.closeAfter)
    let resp := resp ++ headerLines (framingHeaders o.framing a.body.length)
    return encodeUtf8 (resp ++ eol) ++ a.body

/-! ## The responders -/

/-- A call of a responder; the bytes are framed by their length. -/
inductive Call
  | respond (status : Nat) (statusText headersJson body : Str) (closeAfter : Bool)
  | respondBytes (a : Answer) (sendDate sendConnection : Bool) (keepAlive : Str)

def httpRespondOptions : Options where
  skipped := [contentLengthName, connectionName, dateName]
  sendDate := true
  sendConnection := true
  keepAlive := []
  framing := 0

def httpRespond (serde : SerdeJson) (date : HttpDate) (status : Nat) (statusText headersJson body : Str)
    (closeAfter : Bool) : Except JsError Bytes :=
  respondWith serde date httpRespondOptions ⟨status, statusText, headersJson, closeAfter, encodeUtf8 body⟩

def httpRespondBytesOptions (sendDate sendConnection : Bool) (keepAlive : Str) (framing : Nat) : Options where
  skipped := [contentLengthName, connectionName, transferEncodingName, dateName]
  sendDate := sendDate
  sendConnection := sendConnection
  keepAlive := keepAlive
  framing := framing

def httpRespondBytes (serde : SerdeJson) (date : HttpDate) (a : Answer) (sendDate sendConnection : Bool)
    (keepAlive : Str) (framing : Nat) : Except JsError Bytes :=
  respondWith serde date (httpRespondBytesOptions sendDate sendConnection keepAlive framing) a

namespace Call

def run (serde : SerdeJson) (date : HttpDate) : Call → Except JsError Bytes
  | respond status statusText headersJson body closeAfter =>
      httpRespond serde date status statusText headersJson body closeAfter
  | respondBytes a sendDate sendConnection keepAlive =>
      httpRespondBytes serde date a sendDate sendConnection keepAlive 0

def options : Call → Options
  | respond .. => httpRespondOptions
  | respondBytes _ sendDate sendConnection keepAlive => httpRespondBytesOptions sendDate sendConnection keepAlive 0

def answer : Call → Answer
  | respond status statusText headersJson body closeAfter =>
      ⟨status, statusText, headersJson, closeAfter, encodeUtf8 body⟩
  | respondBytes a .. => a

end Call

/-! ## What is meant -/

/-- The headers of the application that are sent. -/
def appHeaders (serde : SerdeJson) (o : Options) (a : Answer) : List (Str × Str) :=
  (parseExtraHeaders serde a.headersJson).filter fun h => toLowercase h.1 ∉ o.skipped

def allHeaders (serde : SerdeJson) (date : HttpDate) (o : Options) (a : Answer) : List (Str × Str) :=
  appHeaders serde o a ++ dateHeaders date o ++
    connectionHeaders o (parseExtraHeaders serde a.headersJson) a.closeAfter ++ framingHeaders o.framing a.body.length

def meant (serde : SerdeJson) (date : HttpDate) (o : Options) (a : Answer) : Http.Message where
  status := a.status
  reason := encodeUtf8 a.statusText
  fields := (allHeaders serde date o a).map fun (k, v) => (encodeUtf8 k, encodeUtf8 v)
  body := a.body

/-- What is sent is one message with nothing after it, the one that is meant. -/
def Call.OneMessage (serde : SerdeJson) (date : HttpDate) (c : Call) : Prop :=
  ∀ bytes, c.run serde date = .ok bytes → Http.parse bytes = some (meant serde date c.options c.answer, [])

structure Accepted (serde : SerdeJson) (o : Options) (a : Answer) : Prop where
  statusText : isValidStatusText a.statusText = true
  headers : ∀ h ∈ appHeaders serde o a, isValidHeaderName h.1 = true ∧ isValidHeaderValue h.2 = true

/-- No blank is trimmed from the value. -/
def Unpadded (value : Str) : Prop := Http.trimBlanks (encodeUtf8 value) = encodeUtf8 value

instance (value : Str) : Decidable (Unpadded value) := inferInstanceAs (Decidable (_ = _))

structure Fits (serde : SerdeJson) (o : Options) (a : Answer) : Prop where
  status : 100 ≤ a.status ∧ a.status ≤ 999
  body : Http.bodyless a.status = true → a.body = []
  unpadded : ∀ h ∈ appHeaders serde o a, Unpadded h.2
  /-- `__httpRespondBytes` skips this header. -/
  coding : transferEncodingName ∈ o.skipped ∨
    ∀ h ∈ appHeaders serde o a, toAsciiLowercase h.1 ≠ transferEncodingName
  keepAlive : advertises o (parseExtraHeaders serde a.headersJson) a.closeAfter = true →
    isValidHeaderValue o.keepAlive = true ∧ Unpadded o.keepAlive

end ThreeVa.HttpServer.Respond
