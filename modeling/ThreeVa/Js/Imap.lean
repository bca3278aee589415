import ThreeVa.Js.Commands
import ThreeVa.Lib.Words

/-!
# Replies of an IMAP server

The read loops of `js/src/builtins/imap.rs`, on what is still unread of a connection that the server closes after it.
What a loop collects and the module then drops is left out.
-/

namespace ThreeVa.Js
open Text

/-- What became of the thread of a command. -/
inductive Ran (α : Type)
  | reading
  | panicked
  | ended (a : α)

def Ran.map {α β : Type} (f : α → β) : Ran α → Ran β
  | .reading => .reading
  | .panicked => .panicked
  | .ended a => .ended (f a)

/-- The value of `tag` and the arguments stand in `ImapCall`; how the reply is read depends on the command only. -/
inductive ImapCommand
  | connect
  | login
  | list
  | status
  | select
  | create
  | delete
  | rename
  | subscribe
  | fetch
  | append
  | copy
  | move
  | store
  | expunge
  | search
  | logout
  | close
deriving DecidableEq

namespace Imap

def u32Max : Nat := 4294967295

/-- `read_line`: the line without carriage returns, and what is unread after it. -/
def readLine : Bytes → Bytes × Bytes
  | [] => ([], [])
  | b :: bs => if b = 10 then ([], bs) else if b = 13 then readLine bs else ((readLine bs).1.cons b, (readLine bs).2)

/-- A loop over lines up to the one that begins with the tag. At the end of the stream every line is empty. -/
def readUntil {σ : Type} (tag : Bytes) (handle : σ → Bytes → Option σ) : Nat → σ → Bytes → Ran (σ × Bytes)
  | 0, _, _ => .reading
  | fuel + 1, s, unread =>
      let (buf, unread) := readLine unread
      if tag <+: buf then .ended (s, unread)
      else
        match handle s buf with
        | none => .panicked
        | some s => readUntil tag handle fuel s unread

def capabilityPrefix : Bytes := encodeUtf8 "* CAPABILITY ".toList

/-- A line of the loop in `establish_connection`. `&buf[14..]` needs one byte more than the text it comes after has. -/
def capability (capabilities : List Str) (buf : Bytes) : Option (List Str) :=
  if capabilityPrefix <+: buf then
    if buf.length < 14 then none else some (splitWhitespace (fromUtf8Lossy (buf.drop 14)))
  else some capabilities

/-! ## FETCH -/

/-- The keys `flags` of `attributes` and `BODY[]` of `bodies` are the only ones that are set. -/
structure FetchMessage where
  seq : Nat
  flags : Option Str
  body : Option Bytes
deriving DecidableEq

structure FetchLoop where
  messages : List FetchMessage
  currentMsg : FetchMessage
  inLiteral : Bool
  literalSize : Nat
  literalBody : Bytes
deriving DecidableEq

namespace FetchLoop

def new : FetchLoop := ⟨[], ⟨0, none, none⟩, false, 0, []⟩

/-- `if current_msg.seq > 0 { fetch_stream.add_message(current_msg.clone()); }` -/
def stored (s : FetchLoop) : List FetchMessage := if s.currentMsg.seq > 0 then s.messages ++ [s.currentMsg] else s.messages

/-- A message begins at every `*` before a number. -/
def begins (s : FetchLoop) : List Str → FetchLoop
  | part :: next :: parts =>
      match if part = ['*'] then parseUnsigned 10 u32Max next else none with
      | some seq => begins { s with messages := s.stored, currentMsg := ⟨seq, none, none⟩ } (next :: parts)
      | none => begins s (next :: parts)
  | _ => s

/-- `line[start + 6..start + end]` where `FLAGS` starts at `start` and the first `)` after it ends there: a panic if the
`)` comes at once, or if a character after `FLAGS` takes more than one byte. -/
def flagsOf (line : Str) : Option (Option Str) :=
  match (splitOnceStr "FLAGS".toList line).bind fun p => splitOnce ')' p.2 with
  | none => some none
  | some ([], _) => none
  | some (c :: flags, _) => if c.utf8Size = 1 then some (some flags) else none

def dataLine (s : FetchLoop) (line : Str) : Option FetchLoop :=
  if "FETCH".toList <:+: line then
    let s := s.begins (splitWhitespace line)
    (flagsOf line).map fun flags =>
      flags.elim s fun flags => { s with currentMsg := { s.currentMsg with flags := some flags } }
  else some s

/-- `line[start + 1..end].parse::<usize>()`, where the line begins with `{`. -/
def sizeOf (line : Str) : Option Nat := (splitOnce '}' line).bind fun p => parseUnsigned 10 usizeMax (p.1.drop 1)

def literalLine (s : FetchLoop) (buf : Bytes) : FetchLoop :=
  let literalBody := s.literalBody ++ buf
  if literalBody.length ≥ s.literalSize then
    { s with
      currentMsg := { s.currentMsg with body := some (literalBody.take s.literalSize) }
      inLiteral := false
      literalBody := [] }
  else { s with literalBody := literalBody }

def handle (s : FetchLoop) (buf : Bytes) : Option FetchLoop :=
  if encodeUtf8 "* ".toList <+: buf ∧ s.inLiteral = false then dataLine s (fromUtf8Lossy buf)
  else if encodeUtf8 ['{'] <+: buf then
    match sizeOf (fromUtf8Lossy buf) with
    | some size => some { s with literalSize := size, inLiteral := true, literalBody := [] }
    | none => some s
  else if s.inLiteral then some (literalLine s buf)
  else some s

end FetchLoop

/-! ## Commands -/

/-- The connection after a command: what is unread, whether it is still registered, and what a fetch has stored. -/
structure Outcome where
  unread : Bytes
  registered : Bool
  messages : List FetchMessage
deriving DecidableEq

/-- Commands that read up to their tag and look at nothing in between, or at nothing that is used. -/
def readsOn (tag : Bytes) (registered : Bool) (fuel : Nat) (unread : Bytes) : Ran Outcome :=
  (readUntil tag (fun _ _ => some ()) fuel () unread).map fun p => ⟨p.2, registered, []⟩

/-- Commands that read one line, whatever it says. -/
def readsOne (unread : Bytes) : Ran Outcome := .ended ⟨(readLine unread).2, true, []⟩

def login (unread : Bytes) : Ran Outcome :=
  let (buf, unread) := readLine unread
  .ended ⟨unread, "OK".toList <:+: fromUtf8Lossy buf, []⟩

def append (unread : Bytes) : Ran Outcome :=
  let (buf, unread) := readLine unread
  if encodeUtf8 ['+'] <+: buf then .ended ⟨(readLine unread).2, true, []⟩ else .ended ⟨unread, true, []⟩

def fetch (tag : Bytes) (fuel : Nat) (unread : Bytes) : Ran Outcome :=
  (readUntil tag FetchLoop.handle fuel .new unread).map fun p => ⟨p.2, true, p.1.stored⟩

/-- The reply to a command read with at most `fuel` lines in its loop. -/
def run (tag : Bytes) (fuel : Nat) (unread : Bytes) : ImapCommand → Ran Outcome
  | .connect => (readUntil tag capability fuel [] unread).map fun p => ⟨p.2, true, []⟩
  | .list | .status | .select | .expunge | .search => readsOn tag true fuel unread
  | .logout => readsOn tag false fuel unread
  | .fetch => fetch tag fuel unread
  | .login => login unread
  | .append => append unread
  | .create | .delete | .rename | .subscribe | .copy | .move | .store | .close => readsOne unread

/-! ## What a server sends -/

/-- The lines of a stream as they are read; the last one has no end. -/
def lines (stream : Bytes) : List Bytes := (stream.filter (· ≠ 13)).splitOn 10

/-- Text of one line. -/
def Plain (s : Bytes) : Prop := 10 ∉ s ∧ 13 ∉ s

def crlf : Bytes := [13, 10]

/-- The size of a counted text, and the text. -/
def writeLiteral (literal : Bytes) : Bytes :=
  encodeUtf8 ('{' :: decimal literal.length ++ ['}']) ++ crlf ++ literal

/-- An untagged response, in which any bytes may stand as counted texts. -/
structure Data where
  text : Bytes
  /-- Each counted text and what comes after it. -/
  literals : List (Bytes × Bytes)
  plain : Plain text
  plain_after : ∀ p ∈ literals, Plain p.2
  after : ∀ p ∈ literals, p.2.head? ≠ some 0x7B
  between : ∀ p ∈ literals.dropLast, p.2 ≠ []

namespace Data

def star : Bytes := encodeUtf8 "* ".toList

def write (d : Data) : Bytes := star ++ d.text ++ d.literals.flatMap (fun p => writeLiteral p.1 ++ p.2) ++ crlf

/-- The data of a message. -/
def IsMessage (d : Data) (seq : Nat) : Prop :=
  0 < seq ∧ seq ≤ u32Max ∧ encodeUtf8 (decimal seq ++ " FETCH ".toList) <+: d.text

end Data

inductive Status
  | ok
  | no
  | bad
deriving DecidableEq

def Status.text : Status → Bytes
  | .ok => encodeUtf8 "OK".toList
  | .no => encodeUtf8 "NO".toList
  | .bad => encodeUtf8 "BAD".toList

/-- A whole response to a command. Where a text is to be sent, the server first asks for it to go on. -/
structure Reply (cmd : ImapCommand) where
  untagged : List Data
  continuation : Option (Bytes × List Data)
  status : Status
  text : Bytes
  plain : Plain text
  plain_continuation : ∀ p ∈ continuation, Plain p.1
  asks : continuation ≠ none → cmd = .append

namespace Reply

variable {cmd : ImapCommand} (reply : Reply cmd)

def data : Bytes := reply.untagged.flatMap Data.write

def taggedLine (tag : Bytes) : Bytes := tag ++ encodeUtf8 [' '] ++ reply.status.text ++ encodeUtf8 [' '] ++ reply.text

def goOn : Bytes :=
  reply.continuation.elim [] fun p => encodeUtf8 "+ ".toList ++ p.1 ++ crlf ++ p.2.flatMap Data.write

def write (tag : Bytes) : Bytes := reply.data ++ (reply.goOn ++ (reply.taggedLine tag ++ crlf))

/-- Only the data of messages has counted texts. -/
def InMessages : Prop := ∀ d ∈ reply.untagged, d.literals ≠ [] → ∃ seq, d.IsMessage seq

end Reply

/-! ## What is asked of a command -/

def tagOf (n : Nat) : Bytes := encodeUtf8 (nextTag n)

/-- The command comes to an end on a stream that is closed after its last byte. -/
def Ends (tag : Bytes) (cmd : ImapCommand) (stream : Bytes) : Prop := ∃ fuel o, run tag fuel stream cmd = .ended o

/-- The response is read to its end and not beyond it, the connection stays registered except after a logout, and every
counted text of a message is stored for the message. -/
def Served {cmd : ImapCommand} (tag : Bytes) (reply : Reply cmd) (next : Bytes) : Prop :=
  ∃ fuel o, run tag fuel (reply.write tag ++ next) cmd = .ended o ∧ o.unread = next ∧
    (o.registered = true ∨ cmd = .logout ∧ reply.status = .ok) ∧
    (cmd = .fetch → ∀ d ∈ reply.untagged, ∀ seq, d.IsMessage seq → ∀ p ∈ d.literals,
      ∃ m ∈ o.messages, m.seq = seq ∧ m.body.getD [] = p.1)

/-! ## Conditions -/

/-- There is a line with the tag, and the lines before it are as asked. -/
def FindsTag (tag : Bytes) (fine : List Bytes → Prop) (stream : Bytes) : Prop :=
  ∃ before line after, lines stream = before ++ line :: after ∧ tag <+: line ∧ (∀ l ∈ before, ¬ tag <+: l) ∧ fine before

/-- After the first `FLAGS`, the first `)` comes at once or after a character of several bytes. -/
def BadFlags (line : Str) : Prop :=
  ∃ a b flags c, splitOnceStr "FLAGS".toList line = some (a, b) ∧ splitOnce ')' b = some (flags, c) ∧
    ∀ ch ∈ flags.head?, ch.utf8Size ≠ 1

/-- A line about a message that names flags so that they cannot be cut out. -/
def BadLine (l : Bytes) : Prop :=
  Data.star <+: l ∧ "FETCH".toList <:+: fromUtf8Lossy l ∧ BadFlags (fromUtf8Lossy l)

/-- How much is still to come of a text that was counted on a line of its own. -/
def owedAfter (owed : Option Nat) (l : Bytes) : Option Nat :=
  if Data.star <+: l ∧ owed = none then none
  else if encodeUtf8 ['{'] <+: l then (FetchLoop.sizeOf (fromUtf8Lossy l)).or owed
  else owed.bind fun size => if l.length ≥ size then none else some (size - l.length)

/-- No bad line stands outside the counted texts. -/
def FlagsReadable (before : List Bytes) : Prop :=
  ∀ pre l post, before = pre ++ l :: post → pre.foldl owedAfter none = none → ¬ BadLine l

def Finds (tag : Bytes) (stream : Bytes) : ImapCommand → Prop
  | .connect => FindsTag tag (capabilityPrefix ∉ ·) stream
  | .list | .status | .select | .expunge | .search | .logout => FindsTag tag (fun _ => True) stream
  | .fetch => FindsTag tag FlagsReadable stream
  | .login | .append | .create | .delete | .rename | .subscribe | .copy | .move | .store | .close => True

/-- No line of the untagged data is taken for the tagged one. -/
def Unmistaken (tag : Bytes) {cmd : ImapCommand} (reply : Reply cmd) : Prop := ∀ l ∈ lines reply.data, ¬ tag <+: l

def Suits (tag : Bytes) {cmd : ImapCommand} (reply : Reply cmd) : Prop :=
  match cmd with
  | .connect => Unmistaken tag reply ∧ capabilityPrefix ∉ lines reply.data
  | .list | .status | .select | .expunge | .search => Unmistaken tag reply
  | .logout => Unmistaken tag reply ∧ reply.status = .ok
  | .fetch =>
      Unmistaken tag reply ∧ (∀ l ∈ lines reply.data, ¬ encodeUtf8 ['{'] <+: l ∧ ¬ BadLine l) ∧
        ∀ d ∈ reply.untagged, ∀ seq, d.IsMessage seq → ∀ p ∈ d.literals, p.1 = []
  | .login => reply.untagged = [] ∧ "OK".toList <:+: fromUtf8Lossy (reply.taggedLine tag)
  | .append => reply.untagged = [] ∧ ∀ p ∈ reply.continuation, p.2 = []
  | .create | .delete | .rename | .subscribe | .copy | .move | .store | .close => reply.untagged = []

end Imap

end ThreeVa.Js
