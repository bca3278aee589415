import ThreeVa.Lib.CommandLine
import ThreeVa.Lib.Utf8

/-!
# What the mail, chat and file clients send

The command lines of `js/src/builtins/imap.rs`, `pop3.rs`, `irc.rs` and `ftp.rs`, for a client that is connected, beside
the commands of the protocols. A grammar is taken to allow every character but `NUL`, `CR` and `LF` in a free text.
-/

namespace ThreeVa.Js
open Text CommandLine

/-! ## Parameters of the protocols -/

def constant (s : Str) : Kind × Str := (.word [] [] (· = s), s)

/-- `middle` of IRC. -/
def isMiddle (s : Str) : Bool := !s.isEmpty && s.head? ≠ some ':'

def middle : Kind := .word [] [] isMiddle

def isNumber (s : Str) : Bool := !s.isEmpty && s.all Char.isDigit

def number : Kind := .word [] [] isNumber

/-- A sequence set of IMAP: numbers, `*`, and ranges of them. -/
def isSequenceSet (s : Str) : Bool :=
  (s.splitOn ',').all fun range =>
    let ends := range.splitOn ':'
    ends.length ≤ 2 && ends.all fun n => isNumber n || n = ['*']

def sequenceSet : Kind := .word [] [] isSequenceSet

def isAtomChar (c : Char) : Bool :=
  33 ≤ c.toNat && c.toNat ≤ 126 && !(['(', ')', '{', '%', '*', '"', '\\', ']'].contains c)

def isAtom (s : Str) : Bool := !s.isEmpty && s.all isAtomChar

def isFlag (s : Str) : Bool := (s.head? = some '\\' && isAtom (s.drop 1)) || isAtom s

def searchKey : Kind := .word [] [] fun s => isAtom s || isSequenceSet s

/-! ## IMAP -/

inductive StoreOp
  | add
  | remove
  | set

inductive Criterion
  | key (k : Str)
  | pair (k value : Str)

inductive ImapCall
  | login (username password : Str)
  | list (reference mailbox : Str)
  | status (mailbox : Str)
  | select (mailbox : Str) (readOnly : Bool)
  | create (mailbox : Str)
  | delete (mailbox : Str)
  | rename (oldMailbox newMailbox : Str)
  | subscribe (mailbox : Str)
  | fetch (sequence bodies : Str)
  | append (mailbox body : Str)
  | copy (sequence mailbox : Str)
  | move (sequence mailbox : Str)
  | store (op : StoreOp) (sequence : Str) (flags : List Str)
  | search (criteria : List Criterion)

namespace Imap

/-- `format!("A{:04}", self.tag)` -/
def nextTag (tag : Nat) : Str := 'A' :: List.replicate (4 - (decimal tag).length) '0' ++ decimal tag

/-- `a || b` -/
def orElse (s other : Str) : Str := if s = [] then other else s

def flagText (flag : Str) : Str := if flag.head? = some '\\' then flag else '\\' :: flag

def flagStr (flags : List Str) : Str := [' '].intercalate (flags.map flagText)

def storeName : StoreOp → Str
  | .add => "+FLAGS".toList
  | .remove => "-FLAGS".toList
  | .set => "FLAGS".toList

def fetchItems (bodies : Str) : Str :=
  if bodies = [] ∨ bodies = "''".toList then "BODY[]".toList
  else if bodies = "HEADER".toList then "BODY[HEADER]".toList
  else if bodies = "TEXT".toList then "BODY[TEXT]".toList
  else if bodies = "FULL".toList then "BODY[]".toList
  else "BODY[".toList ++ bodies ++ "]".toList

def statusItems : Str := "MESSAGES RECENT UNSEEN UIDNEXT UIDVALIDITY".toList

def critStr (criteria : List Criterion) : Str :=
  criteria.flatMap fun
    | .key k => ' ' :: k
    | .pair k value => ' ' :: k ++ [' '] ++ ['"'] ++ value ++ ['"']

/-- White space of JavaScript. -/
def isJsSpace (c : Char) : Bool := (isWhitespace c && c ≠ '\u0085') || c = '\uFEFF'

def jsTrim (s : Str) : Str := (s.dropWhile isJsSpace).rdropWhile isJsSpace

/-- The command line, without its end. -/
def cmd (tag : Str) : ImapCall → Str
  | .login username password => tag ++ " LOGIN \"".toList ++ username ++ "\" \"".toList ++ password ++ "\"".toList
  | .list reference mailbox =>
      tag ++ " LIST \"".toList ++ reference ++ "\" \"".toList ++ orElse mailbox ['*'] ++ "\"".toList
  | .status mailbox => tag ++ " STATUS \"".toList ++ mailbox ++ "\" (".toList ++ statusItems ++ ")".toList
  | .select mailbox true => tag ++ " EXAMINE \"".toList ++ mailbox ++ "\"".toList
  | .select mailbox false => tag ++ " SELECT \"".toList ++ mailbox ++ "\"".toList
  | .create mailbox => tag ++ " CREATE \"".toList ++ mailbox ++ "\"".toList
  | .delete mailbox => tag ++ " DELETE \"".toList ++ mailbox ++ "\"".toList
  | .rename oldMailbox newMailbox =>
      tag ++ " RENAME \"".toList ++ oldMailbox ++ "\" \"".toList ++ newMailbox ++ "\"".toList
  | .subscribe mailbox => tag ++ " SUBSCRIBE \"".toList ++ mailbox ++ "\"".toList
  | .fetch sequence bodies => tag ++ " FETCH ".toList ++ sequence ++ " (".toList ++ fetchItems bodies ++ ")".toList
  | .append mailbox body =>
      tag ++ " APPEND \"".toList ++ mailbox ++ "\" \x7b".toList ++ decimal (encodeUtf8 body).length ++ "\x7d\r\n".toList
  | .copy sequence mailbox => tag ++ " COPY ".toList ++ sequence ++ " \"".toList ++ mailbox ++ "\"".toList
  | .move sequence mailbox => tag ++ " MOVE ".toList ++ sequence ++ " \"".toList ++ mailbox ++ "\"".toList
  | .store op sequence flags =>
      tag ++ " STORE ".toList ++ sequence ++ " ".toList ++ storeName op ++ " (".toList ++ flagStr flags ++ ")".toList
  | .search criteria => tag ++ " SEARCH ".toList ++ jsTrim (critStr criteria)

/-! ### The grammar -/

def flagsAfter : List Str → List (Kind × Str)
  | [] => []
  | [flag] => [(.word [] [')'] isFlag, flagText flag)]
  | flag :: flags => (.word [] [] isFlag, flagText flag) :: flagsAfter flags

/-- A flag list between parentheses. -/
def flagList : List Str → List (Kind × Str)
  | [] => [constant "()".toList]
  | [flag] => [(.word ['('] [')'] isFlag, flagText flag)]
  | flag :: flags => (.word ['('] [] isFlag, flagText flag) :: flagsAfter flags

def section' (bodies : Str) : Kind × Str :=
  if bodies = [] ∨ bodies = "''".toList then constant "(BODY[])".toList
  else if bodies = "HEADER".toList then constant "(BODY[HEADER])".toList
  else if bodies = "TEXT".toList then constant "(BODY[TEXT])".toList
  else if bodies = "FULL".toList then constant "(BODY[])".toList
  else (.enclosed "(BODY[".toList ']' ")".toList, bodies)

def criterionParams : Criterion → List (Kind × Str)
  | .key k => [(searchKey, k)]
  | .pair k value => [(searchKey, k), (.quoted, value)]

def keyword : ImapCall → Str
  | .login _ _ => " LOGIN".toList
  | .list _ _ => " LIST".toList
  | .status _ => " STATUS".toList
  | .select _ true => " EXAMINE".toList
  | .select _ false => " SELECT".toList
  | .create _ => " CREATE".toList
  | .delete _ => " DELETE".toList
  | .rename _ _ => " RENAME".toList
  | .subscribe _ => " SUBSCRIBE".toList
  | .fetch _ _ => " FETCH".toList
  | .append _ _ => " APPEND".toList
  | .copy _ _ => " COPY".toList
  | .move _ _ => " MOVE".toList
  | .store _ _ _ => " STORE".toList
  | .search _ => " SEARCH".toList

def params : ImapCall → List (Kind × Str)
  | .login username password => [(.quoted, username), (.quoted, password)]
  | .list reference mailbox => [(.quoted, reference), (.quoted, orElse mailbox ['*'])]
  | .status mailbox =>
      [(.quoted, mailbox), constant "(MESSAGES".toList, constant "RECENT".toList, constant "UNSEEN".toList,
        constant "UIDNEXT".toList, constant "UIDVALIDITY)".toList]
  | .select mailbox _ | .create mailbox | .delete mailbox | .subscribe mailbox => [(.quoted, mailbox)]
  | .rename oldMailbox newMailbox => [(.quoted, oldMailbox), (.quoted, newMailbox)]
  | .fetch sequence bodies => [(sequenceSet, sequence), section' bodies]
  | .append mailbox body =>
      [(.quoted, mailbox), constant ('\x7b' :: decimal (encodeUtf8 body).length ++ ['\x7d'])]
  | .copy sequence mailbox | .move sequence mailbox => [(sequenceSet, sequence), (.quoted, mailbox)]
  | .store op sequence flags => (sequenceSet, sequence) :: constant (storeName op) :: flagList flags
  | .search criteria => criteria.flatMap criterionParams

end Imap

/-! ## POP3 -/

inductive Pop3Call
  | user (username : Str)
  | pass (password : Str)
  | list (msgNumber : Str)
  | retr (msgNumber : Str)
  | dele (msgNumber : Str)
  | uidl (msgNumber : Str)

namespace Pop3

def cmd : Pop3Call → Str
  | .user username => "USER ".toList ++ username
  | .pass password => "PASS ".toList ++ password
  | .list msgNumber => "LIST ".toList ++ msgNumber
  | .retr msgNumber => "RETR ".toList ++ msgNumber
  | .dele msgNumber => "DELE ".toList ++ msgNumber
  | .uidl msgNumber => "UIDL ".toList ++ msgNumber

def keyword : Pop3Call → Str
  | .user _ => "USER".toList
  | .pass _ => "PASS".toList
  | .list _ => "LIST".toList
  | .retr _ => "RETR".toList
  | .dele _ => "DELE".toList
  | .uidl _ => "UIDL".toList

def params : Pop3Call → List (Kind × Str)
  | .user text | .pass text => [(.rest, text)]
  | .list msgNumber | .retr msgNumber | .dele msgNumber | .uidl msgNumber => [(number, msgNumber)]

end Pop3

/-! ## IRC -/

inductive IrcCall
  | send (line : Str)
  | pass (password : Str)
  | nick (newnick : Str)
  | user (username mode realname : Str)
  | join (channel : Str) (key : Option Str)
  | part (channel : Str) (reason : Option Str)
  | privmsg (target text : Str)
  | notice (target text : Str)
  | kick (channel nick : Str) (reason : Option Str)
  | mode (target mode : Str)
  | quit (reason : Option Str)

namespace Irc
open Imap (orElse)

def cmd : IrcCall → Str
  | .send line => line
  | .pass password => "PASS ".toList ++ password
  | .nick newnick => "NICK ".toList ++ newnick
  | .user username mode realname =>
      "USER ".toList ++ username ++ " ".toList ++ orElse mode ['0'] ++ " * :".toList ++ orElse realname username
  | .join channel key => "JOIN ".toList ++ channel ++ key.elim [] fun key => " ".toList ++ key
  | .part channel reason => "PART ".toList ++ channel ++ reason.elim [] fun reason => " :".toList ++ reason
  | .privmsg target text => "PRIVMSG ".toList ++ target ++ " :".toList ++ text
  | .notice target text => "NOTICE ".toList ++ target ++ " :".toList ++ text
  | .kick channel nick reason =>
      "KICK ".toList ++ channel ++ " ".toList ++ nick ++ reason.elim [] fun reason => " :".toList ++ reason
  | .mode target mode => "MODE ".toList ++ target ++ if mode = [] then [] else " ".toList ++ mode
  | .quit reason => "QUIT".toList ++ reason.elim [] fun reason => " :".toList ++ reason

def keyword : IrcCall → Str
  | .send line => line
  | .pass _ => "PASS".toList
  | .nick _ => "NICK".toList
  | .user _ _ _ => "USER".toList
  | .join _ _ => "JOIN".toList
  | .part _ _ => "PART".toList
  | .privmsg _ _ => "PRIVMSG".toList
  | .notice _ _ => "NOTICE".toList
  | .kick _ _ _ => "KICK".toList
  | .mode _ _ => "MODE".toList
  | .quit _ => "QUIT".toList

def params : IrcCall → List (Kind × Str)
  | .send _ => []
  | .pass text | .nick text => [(middle, text)]
  | .user username mode realname =>
      [(middle, username), (middle, orElse mode ['0']), constant ['*'], (.trailing, orElse realname username)]
  | .join channel key => (middle, channel) :: (key.map fun key => (middle, key)).toList
  | .part channel reason => (middle, channel) :: (reason.map fun reason => (Kind.trailing, reason)).toList
  | .privmsg target text | .notice target text => [(middle, target), (.trailing, text)]
  | .kick channel nick reason =>
      (middle, channel) :: (middle, nick) :: (reason.map fun reason => (Kind.trailing, reason)).toList
  | .mode target mode => (middle, target) :: if mode = [] then [] else [(middle, mode)]
  | .quit reason => (reason.map fun reason => (Kind.trailing, reason)).toList

end Irc

/-! ## FTP -/

inductive FtpCall
  | user (username : Str)
  | pass (password : Str)
  | cwd (path : Str)
  | mkdir (path : Str)
  | rmdir (path : Str)
  | list (path : Str)
  | get (remotePath : Str)
  | put (remotePath : Str)
  | append (remotePath : Str)
  | delete (path : Str)
  | renameFrom (fromPath : Str)
  | renameTo (toPath : Str)
  | site (command : Str)

namespace Ftp

def cmd : FtpCall → Str
  | .user username => "USER ".toList ++ username
  | .pass password => "PASS ".toList ++ password
  | .cwd path => "CWD ".toList ++ path
  | .mkdir path => "MKD ".toList ++ path
  | .rmdir path => "RMD ".toList ++ path
  | .list path => "LIST".toList ++ if path = [] then [] else ' ' :: path
  | .get remotePath => "RETR ".toList ++ remotePath
  | .put remotePath => "STOR".toList ++ ' ' :: remotePath
  | .append remotePath => "APPE".toList ++ ' ' :: remotePath
  | .delete path => "DELE ".toList ++ path
  | .renameFrom fromPath => "RNFR ".toList ++ fromPath
  | .renameTo toPath => "RNTO ".toList ++ toPath
  | .site command => "SITE ".toList ++ command

def keyword : FtpCall → Str
  | .user _ => "USER".toList
  | .pass _ => "PASS".toList
  | .cwd _ => "CWD".toList
  | .mkdir _ => "MKD".toList
  | .rmdir _ => "RMD".toList
  | .list _ => "LIST".toList
  | .get _ => "RETR".toList
  | .put _ => "STOR".toList
  | .append _ => "APPE".toList
  | .delete _ => "DELE".toList
  | .renameFrom _ => "RNFR".toList
  | .renameTo _ => "RNTO".toList
  | .site _ => "SITE".toList

def params : FtpCall → List (Kind × Str)
  | .list path => if path = [] then [] else [(.rest, path)]
  | .user text | .pass text | .cwd text | .mkdir text | .rmdir text | .get text | .put text | .append text | .delete text
  | .renameFrom text | .renameTo text | .site text => [(.rest, text)]

end Ftp

/-! ## Calls -/

/-- One command of a call; for IMAP with the number of its tag. -/
inductive Call
  | imap (tag : Nat) (call : ImapCall)
  | pop3 (call : Pop3Call)
  | irc (call : IrcCall)
  | ftp (call : FtpCall)

namespace Call

def cmd : Call → Str
  | .imap tag call => Imap.cmd (Imap.nextTag tag) call
  | .pop3 call => Pop3.cmd call
  | .irc call => Irc.cmd call
  | .ftp call => Ftp.cmd call

/-- What is written to the connection. -/
def sent (call : Call) : Str := call.cmd ++ "\r\n".toList

def keyword : Call → Str
  | .imap tag call => Imap.nextTag tag ++ Imap.keyword call
  | .pop3 call => Pop3.keyword call
  | .irc call => Irc.keyword call
  | .ftp call => Ftp.keyword call

def params : Call → List (Kind × Str)
  | .imap _ call => Imap.params call
  | .pop3 call => Pop3.params call
  | .irc call => Irc.params call
  | .ftp call => Ftp.params call

/-- Of each kind that a call uses: its constant texts have no end of a line, and those of a word no space. -/
def Fine (kind : Kind) : Prop := kind.Spaceless ∧ Unbroken kind.constants

theorem fine_quoted : Fine .quoted := ⟨trivial, by simp [Unbroken, Kind.constants]⟩

theorem fine_trailing : Fine .trailing := ⟨trivial, by simp [Unbroken, Kind.constants]⟩

theorem fine_rest : Fine .rest := ⟨trivial, by simp [Unbroken, Kind.constants]⟩

theorem fine_word (ok : Str → Bool) : Fine (.word [] [] ok) :=
  ⟨by simp [Kind.Spaceless], by simp [Unbroken, Kind.constants]⟩

theorem fine_section (bodies : Str) : Fine (Imap.section' bodies).1 := by
  unfold Imap.section'
  repeat' split
  all_goals exact ⟨by simp [Kind.Spaceless, constant], by simp [Unbroken, Kind.constants, constant]⟩

theorem fine_flagsAfter (flags : List Str) : ∀ p ∈ Imap.flagsAfter flags, Fine p.1 ∧ p.1.open' = false := by
  fun_induction Imap.flagsAfter flags with
  | case1 => simp
  | case2 flag => simpa using ⟨⟨by simp [Kind.Spaceless], by simp [Unbroken, Kind.constants]⟩, rfl⟩
  | case3 flag flags _ ih => exact List.forall_mem_cons.mpr ⟨⟨fine_word _, rfl⟩, ih⟩

theorem fine_flagList (flags : List Str) : ∀ p ∈ Imap.flagList flags, Fine p.1 ∧ p.1.open' = false := by
  unfold Imap.flagList
  split
  · simpa using ⟨fine_word _, rfl⟩
  · simpa using ⟨⟨by simp [Kind.Spaceless], by simp [Unbroken, Kind.constants]⟩, rfl⟩
  · exact List.forall_mem_cons.mpr
      ⟨⟨⟨by simp [Kind.Spaceless], by simp [Unbroken, Kind.constants]⟩, rfl⟩, fine_flagsAfter _⟩

theorem fine_criteria (criteria : List Criterion) :
    ∀ p ∈ criteria.flatMap Imap.criterionParams, Fine p.1 ∧ p.1.open' = false := by
  intro p hp
  obtain ⟨criterion, -, hp⟩ := List.mem_flatMap.mp hp
  cases criterion with
  | key k =>
      rw [List.mem_singleton.mp hp]
      exact ⟨fine_word _, rfl⟩
  | pair k value =>
      rcases List.mem_pair.mp hp with rfl | rfl
      · exact ⟨fine_word _, rfl⟩
      · exact ⟨fine_quoted, rfl⟩

theorem fine (call : Call) : ∀ p ∈ call.params, Fine p.1 := by
  cases call with
  | imap tag call =>
      cases call with
      | store op sequence flags =>
          exact List.forall_mem_cons.mpr ⟨fine_word _, List.forall_mem_cons.mpr
            ⟨fine_word _, fun p hp => (fine_flagList flags p hp).1⟩⟩
      | search criteria => exact fun p hp => (fine_criteria criteria p hp).1
      | fetch sequence bodies =>
          exact List.forall_mem_cons.mpr ⟨fine_word _, List.forall_mem_cons.mpr ⟨fine_section bodies, by simp⟩⟩
      | _ => simp [params, Imap.params, constant, sequenceSet, fine_quoted, fine_word]
  | pop3 call => cases call <;> simp [params, Pop3.params, number, fine_rest, fine_word]
  | irc call =>
      cases call with
      | join channel key => cases key <;> simp [params, Irc.params, middle, fine_word]
      | part channel reason => cases reason <;> simp [params, Irc.params, middle, fine_word, fine_trailing]
      | kick channel nick reason => cases reason <;> simp [params, Irc.params, middle, fine_word, fine_trailing]
      | quit reason => cases reason <;> simp [params, Irc.params, fine_trailing]
      | mode target mode => by_cases h : mode = [] <;> simp [params, Irc.params, middle, fine_word, h]
      | _ => simp [params, Irc.params, middle, constant, fine_word, fine_trailing]
  | ftp call =>
      cases call with
      | list path => by_cases h : path = [] <;> simp [params, Ftp.params, fine_rest, h]
      | _ => simp [params, Ftp.params, fine_rest]

theorem open_last (call : Call) : ∀ p ∈ call.params.dropLast, p.1.open' = false := by
  cases call with
  | imap tag call =>
      cases call with
      | store op sequence flags =>
          intro p hp
          have hmem := List.mem_of_mem_dropLast hp
          simp only [params, Imap.params, List.mem_cons] at hmem
          rcases hmem with rfl | rfl | hmem
          · rfl
          · rfl
          · exact (fine_flagList flags p hmem).2
      | search criteria => exact fun p hp => (fine_criteria criteria p (List.mem_of_mem_dropLast hp)).2
      | _ => simp [params, Imap.params, constant, sequenceSet, Kind.open']
  | pop3 call => cases call <;> simp [params, Pop3.params]
  | irc call =>
      cases call with
      | join channel key => cases key <;> simp [params, Irc.params, middle, Kind.open']
      | part channel reason => cases reason <;> simp [params, Irc.params, middle, Kind.open']
      | kick channel nick reason => cases reason <;> simp [params, Irc.params, middle, Kind.open']
      | quit reason => cases reason <;> simp [params, Irc.params]
      | mode target mode => by_cases h : mode = [] <;> simp [params, Irc.params, middle, Kind.open', h]
      | _ => simp [params, Irc.params, middle, constant, Kind.open']
  | ftp call =>
      cases call with
      | list path => by_cases h : path = [] <;> simp [params, Ftp.params, h]
      | _ => simp [params, Ftp.params]

/-- The command that the call is for. -/
def command (call : Call) : Command where
  keyword := call.keyword
  params := call.params
  spaceless p hp := (call.fine p hp).1
  constants p hp := (call.fine p hp).2
  open_last := call.open_last

/-- One line is sent, and it is the command of the call with the texts it was given. -/
def SendsOne (call : Call) : Prop := call.command.IsSent call.sent

/-- The grammar of the protocol allows every text as it is written. Nothing is allowed to `append`, which ends its line
twice, and a search needs a criterion. -/
def Clean : Call → Prop
  | .imap _ (.append _ _) => False
  | .imap tag (.search criteria) => criteria ≠ [] ∧ (command (.imap tag (.search criteria))).Clean
  | call => call.command.Clean

end Call

end ThreeVa.Js
