import ThreeVa.Js.LineReader
import ThreeVa.Lib.Runs

/-!
# The FTP client

`_awaitReply`, `_resolvePending`, `_awaitTransferEnd`, `_sendAwait`, `_handleLine` and the methods over them of
`js/src/builtins/ftp.rs`, with the server, the control stream and the callbacks that were called. Every caller leaves
`multiline` off, so that `_pendingCode` and `_pendingData` are never read.
-/

namespace ThreeVa.Js
open Text

namespace Ftp

/-! ## Replies -/

/-- What a callback is called with: `{ code: code, text: text }`, or the error that is made of it. -/
structure Reply where
  code : Units
  text : Units
deriving DecidableEq

def Reply.isError (r : Reply) : Bool := r.code.head? = some '4'.toNat || r.code.head? = some '5'.toNat

def isDigit (u : Nat) : Bool := '0'.toNat ≤ u && u ≤ '9'.toNat

def isLineTerminator (u : Nat) : Bool := u = lf || u = cr || u = 0x2028 || u = 0x2029

/-- `line.match(/^(\d{3})([ -])(.*)$/)`: the code, whether the separator is a hyphen, and the text. -/
def matchReply (line : Units) : Option (Units × Bool × Units) :=
  match line with
  | a :: b :: c :: sep :: text =>
      if [a, b, c].all isDigit && (sep = ' '.toNat || sep = '-'.toNat) && !text.any isLineTerminator then
        some ([a, b, c], sep = '-'.toNat, text)
      else none
  | _ => none

/-- A reply as a server sends it, with the lines before the last one of a multi-line reply: the text of the first and the
lines between. -/
structure ServerReply where
  code : Str
  before : Option (Str × List Str)
  text : Str
  code_digits : code.length = 3 ∧ ∀ c ∈ code, c.isDigit = true
  /-- The texts are ASCII without line ends. -/
  texts_plain : ∀ t ∈ text :: (before.elim [] fun b => b.1 :: b.2), ∀ c ∈ t, c.toNat < 128 ∧ c ≠ '\r' ∧ c ≠ '\n'
  /-- No line between is the last one. -/
  before_last : ∀ b ∈ before, ∀ l ∈ b.2, ¬ code ++ [' '] <+: l

namespace ServerReply

variable (r : ServerReply)

def lines : List Str :=
  match r.before with
  | none => [r.code ++ ' ' :: r.text]
  | some (first, inner) => (r.code ++ '-' :: first) :: inner ++ [r.code ++ ' ' :: r.text]

/-- What the last line says. -/
def last : Reply := ⟨units r.code, units r.text⟩

def preliminary : Bool := r.code.head? = some '1'

/-- The end of a transfer: `226`, `250` or an error. -/
def endsTransfer : Bool := r.code = "226".toList || r.code = "250".toList || r.last.isError

end ServerReply

/-! ## The client and the server -/

inductive Failure
  | notConnected
  | notSent
  | timedOut
  | closed
  /-- The reply to `PASV` has no address, or the data connection fails. -/
  | noData
deriving DecidableEq

inductive Outcome
  | reply (r : Reply)
  | failed (why : Failure)
deriving DecidableEq

def Outcome.isErr : Outcome → Bool
  | .reply r => r.isError
  | .failed _ => true

/-- The methods: one command (`pwd`, `cwd`, `mkdir`, `rmdir`, `delete`, `site`), `login`, `rename`, and a transfer
(`list`, `get`, `put`, `append`). -/
inductive Method
  | plain (cmd : Units)
  | login (username password : Units)
  | rename (fromPath toPath : Units)
  | transfer (cmd : Units)

/-- What the pending callback does. -/
inductive Cont
  | reply
  | user (password : Units)
  | rnfr (toPath : Units)
  | pasv (cmd : Units)
  | start
  | finish
deriving DecidableEq

structure Waiting where
  call : Nat
  cont : Cont
deriving DecidableEq

/-- What the server owes for a command. -/
inductive Due
  | single
  | transfer
  /-- The preliminary reply was sent. -/
  | final
deriving DecidableEq

structure Owed where
  call : Nat
  cmd : Units
  due : Due
deriving DecidableEq

structure Session where
  connected : Bool
  reader : LineReader
  /-- The lines of the last chunk that the poll has still to handle. -/
  toHandle : List Units
  pending : Option Waiting
  early : Option Reply
  /-- The calls whose data connection is in use. -/
  reading : List Nat
  /-- The timers of `_awaitTransferEnd`. -/
  deferred : List (Nat × Outcome)
  calls : Nat
  /-- The callbacks that were called. -/
  called : List (Nat × Outcome)
  /-- What the server has sent and the client has not read. -/
  wire : Bytes
  owed : List Owed
  /-- The last reply to a command of the call. -/
  answered : Nat → Option Reply

/-- Connected, the greeting handled. -/
def Session.new : Session := ⟨true, .new, [], none, none, [], [], 0, [], [], [], fun _ => none⟩

/-- Whether a command can be written and whether the data connection opens. -/
structure Env where
  sends : Bool
  dataOpens : Bool

namespace Session

variable (s : Session)

def callback (call : Nat) (out : Outcome) : Session := { s with called := s.called ++ [(call, out)] }

/-- `_awaitReply`, with its timer. -/
def awaitReply (call : Nat) (cont : Cont) : Session := { s with pending := some ⟨call, cont⟩ }

def dueOf : Cont → Due
  | .start => .transfer
  | _ => .single

/-- `_sendAwait`: where the command cannot be written, every callback hands the error on. -/
def sendAwait (env : Env) (call : Nat) (cont : Cont) (cmd : Units) : Session :=
  let s := { s with early := none }
  if env.sends then { s.awaitReply call cont with owed := s.owed ++ [⟨call, cmd, dueOf cont⟩] }
  else { s with pending := none }.callback call (.failed .notSent)

/-- The callbacks that the methods pass on. -/
def resume (env : Env) (call : Nat) (cont : Cont) (out : Outcome) : Session :=
  match cont, out with
  | .user password, .reply r =>
      if r.isError ∨ r.code = units "230".toList then s.callback call out
      else s.sendAwait env call .reply (units "PASS ".toList ++ password)
  | .rnfr toPath, .reply r =>
      if r.isError then s.callback call out else s.sendAwait env call .reply (units "RNTO ".toList ++ toPath)
  | .pasv cmd, .reply r =>
      if r.isError then s.callback call out
      else if env.dataOpens then s.sendAwait env call .start cmd
      else s.callback call (.failed .noData)
  | .start, .reply r => if r.isError then s.callback call out else { s with reading := s.reading ++ [call] }
  | _, _ => s.callback call out

/-- `_resolvePending` -/
def resolvePending (env : Env) (out : Outcome) : Session :=
  match s.pending with
  | none => s
  | some w => { s with pending := none }.resume env w.call w.cont out

/-- `_handleLine` -/
def handleLine (env : Env) (line : Units) : Session :=
  match matchReply line with
  | none => s
  | some (code, hyphen, text) =>
      let r : Reply := ⟨code, text⟩
      if s.pending.isNone then
        if code = units "226".toList ∨ code = units "250".toList ∨ r.isError then { s with early := some r } else s
      else if hyphen then s
      else s.resolvePending env (.reply r)

/-- `_awaitTransferEnd` -/
def awaitTransferEnd (call : Nat) : Session :=
  match s.early with
  | some r => { s with early := none, deferred := s.deferred ++ [(call, .reply r)] }
  | none => s.awaitReply call .finish

def call (env : Env) (m : Method) : Session :=
  let id := s.calls
  let s := { s with calls := s.calls + 1 }
  if !s.connected then s.callback id (.failed .notConnected)
  else
    match m with
    | .plain cmd => s.sendAwait env id .reply cmd
    | .login username password => s.sendAwait env id (.user password) (units "USER ".toList ++ username)
    | .rename fromPath toPath => s.sendAwait env id (.rnfr toPath) (units "RNFR ".toList ++ fromPath)
    | .transfer cmd => s.sendAwait env id (.pasv cmd) (units "PASV".toList)

/-- The server answers the first command it owes a reply, with a reply that fits it. -/
def answer (r : ServerReply) : Option Session :=
  match s.owed with
  | [] => none
  | o :: owed =>
      let sent := { s with wire := s.wire ++ sendLines r.lines, answered := Function.update s.answered o.call (some r.last) }
      match o.due with
      | .single => if r.preliminary then none else some { sent with owed := owed }
      | .transfer =>
          if r.preliminary then some { sent with owed := { o with due := .final } :: owed }
          else if r.last.isError then some { sent with owed := owed }
          else none
      | .final => if r.endsTransfer then some { sent with owed := owed } else none

inductive Op
  | call (env : Env) (m : Method)
  | answer (r : ServerReply)
  /-- The poll reads so many bytes. -/
  | read (n : Nat)
  /-- The next line of the chunk is handled. -/
  | handle (env : Env)
  /-- The data connection of a call ends, with an error that its callback gets or without. -/
  | dataEnds (call : Nat) (failed : Bool)
  | later
  | timeout (env : Env)
  /-- The read finds the end of the stream, or fails. -/
  | closed (env : Env)
  | quit

/-- One turn of the client or the server. A poll handles all the lines of a chunk before a timer runs. -/
def step (s : Session) : Op → Option Session
  | .call env m => some (s.call env m)
  | .answer r => s.answer r
  | .read n =>
      if s.connected ∧ s.toHandle = [] ∧ 0 < n ∧ n ≤ s.wire.length then
        match s.reader.feed (s.wire.take n) with
        | (reader, .ok lines) => some { s with reader := reader, toHandle := lines, wire := s.wire.drop n }
        | (_, .error _) => none
      else none
  | .handle env =>
      match s.toHandle with
      | [] => none
      | line :: lines => some ({ s with toHandle := lines }.handleLine env line)
  | .dataEnds call failed =>
      if call ∈ s.reading then
        let s := { s with reading := s.reading.erase call }
        some (if failed then s.callback call (.failed .noData) else s.awaitTransferEnd call)
      else none
  | .later =>
      match s.toHandle, s.deferred with
      | [], (call, out) :: deferred => some ({ s with deferred := deferred }.callback call out)
      | _, _ => none
  | .timeout env => if s.toHandle = [] ∧ s.pending.isSome then some (s.resolvePending env (.failed .timedOut)) else none
  | .closed env =>
      if s.connected ∧ s.toHandle = [] then some ({ s with connected := false }.resolvePending env (.failed .closed))
      else none
  | .quit => some { s with connected := false }

/-! ## Pairing -/

/-- Where each call is: its callback was called or is about to be, its data is read, or it waits. -/
def accounts : List Nat :=
  s.called.map Prod.fst ++ s.deferred.map Prod.fst ++ s.reading ++ s.pending.toList.map Waiting.call

/-- No call is lost or called back twice, and a callback that got a reply got the one to its own last command. -/
def Paired : Prop :=
  (∀ k < s.calls, s.accounts.count k = 1) ∧
    ∀ k r, (k, Outcome.reply r) ∈ s.called → s.answered k = some r ∧ ∀ o ∈ s.owed, o.call ≠ k

/-- Nothing is under way: no command waits, no data is read, and the server owes nothing that was not handled. -/
def Quiet : Prop := s.pending = none ∧ s.reading = [] ∧ s.owed = [] ∧ s.toHandle = [] ∧ s.wire = []

/-- A call comes when nothing is under way, no line inside a reply looks like a last line, and the end of a data
connection is not noticed between the lines of a reply. -/
def Good : Op → Prop
  | .call _ _ => s.connected = true → s.Quiet
  | .answer r => ∀ b ∈ r.before, ∀ l ∈ b.2, ∀ code text, matchReply (units l) ≠ some (code, false, text)
  | .dataEnds _ _ => s.early = none ∨ s.toHandle = [] ∧ s.wire = []
  | _ => True

end Session

end Ftp

end ThreeVa.Js
