import ThreeVa.Js.LineReader
import Mathlib.Data.Set.List

/-!
# The POP3 client

`_startPoll`, `_handleLine`, `_resolvePending` and `retr` of `js/src/builtins/pop3.rs`: a client that is connected, with the
handlers and callbacks it calls as events.
-/

namespace ThreeVa.Js
open Text

namespace Pop3

inductive Event
  | raw (line : Units)
  | response (line : Units)
  | error (line : Units)
  | sent (command : Units)
  /-- The callback of a command, with the text of its error, if any, and its data. -/
  | callback (err : Option Units) (data : Option Units)
deriving DecidableEq

/-- The pending command. -/
structure Pending where
  cmd : Option Units
  hasCallback : Bool
  data : Option Units
  multiline : Bool
  events : List Event
deriving DecidableEq

namespace Pending

variable (p : Pending)

def emit (e : Event) : Pending := { p with events := p.events ++ [e] }

def resolve (err data : Option Units) : Pending :=
  let cleared := { p with cmd := none, hasCallback := false, data := none, multiline := false }
  if p.hasCallback then cleared.emit (.callback err data) else cleared

/-- `_handleLine` -/
def handleLine (line : Units) : Pending :=
  let p := p.emit (.raw line)
  if units "+OK".toList <+: line ∨ units "+ ".toList <+: line then
    let p := p.emit (.response line)
    if p.cmd.isSome ∧ !p.multiline then p.resolve none (some line) else p
  else if units "-ERR".toList <+: line then
    let p := p.emit (.error line)
    if p.cmd.isSome then p.resolve (some line) none else p
  else if p.cmd.isSome ∧ p.multiline then
    if line = units ['.'] then p.resolve none (some (p.data.getD []))
    else
      let body := if units ['.', '.'] <+: line then line.drop 1 else line
      { p with data := some (p.data.getD [] ++ body ++ [lf]) }
  else p

def retr (msgNumber : Units) : Pending :=
  { p with cmd := some (units "RETR".toList), hasCallback := true, data := some [], multiline := true }.emit
    (.sent (units "RETR ".toList ++ msgNumber))

end Pending

structure Client where
  connected : Bool
  reader : LineReader
  pending : Pending

/-- What `__pop3Read` returns. It returns its errors and does not throw them. -/
inductive Read
  | data (bytes : Bytes)
  | error (message : Str)

/-- `new Uint8Array(chunk)`: an error has no elements. -/
def Read.bytes : Read → Bytes
  | data bytes => bytes
  | error _ => []

namespace Client

variable (c : Client)

/-- One poll. -/
def poll (read : Read) : Client :=
  if !c.connected then c
  else
    match c.reader.feed read.bytes with
    | (reader, .ok lines) => { c with reader := reader, pending := lines.foldl Pending.handleLine c.pending }
    | (reader, .error message) =>
        { connected := false, reader := reader, pending := c.pending.emit (.error (units message)) }

def polls (reads : List Read) : Client := reads.foldl poll c

def retr (msgNumber : Units) : Client := { c with pending := c.pending.retr msgNumber }

/-- Connected, with no command pending and nothing read that was not handled. -/
def idle : Client := ⟨true, .new, ⟨none, false, none, false, []⟩⟩

def callbacks : List (Option Units × Option Units) :=
  c.pending.events.filterMap fun
    | .callback err data => some (err, data)
    | _ => none

end Client

/-! ## The server -/

/-- A line that starts with a dot gets one more. -/
def stuff {α : Type} [DecidableEq α] (dot : α) (line : List α) : List α := if line.head? = some dot then dot :: line else line

/-- The answer to `RETR`: a status line that starts with `+OK`, the message, and the terminator. -/
def answer (status : Str) (lines : List Bytes) : Bytes :=
  encodeUtf8 ("+OK".toList ++ status) ++ crlf ++ (lines.flatMap fun line => stuff 46 line ++ crlf) ++ [46] ++ crlf

def dataOf (reads : List Read) : Bytes := reads.flatMap Read.bytes

/-- The callback is called once, with the lines of the message. -/
def Delivered (lines : List Bytes) (c : Client) : Prop :=
  ∃ texts : List Str, lines = texts.map encodeUtf8 ∧
    c.callbacks = [(none, some (texts.flatMap fun text => units text ++ [lf]))]

/-- When the reads give the whole answer, the message is delivered; when they fail before, an event or the callback says
so. -/
def Reported (c : Client) (status : Str) (lines : List Bytes) (reads : List Read) : Prop :=
  (dataOf reads = answer status lines → Delivered lines (c.polls reads)) ∧
    (dataOf reads ≠ answer status lines →
      ∃ messages : List Str, (c.polls (reads ++ messages.map .error)).pending.events ≠ (c.polls reads).pending.events)

/-- The line is a text, not empty, and does not look like a status line. -/
def Deliverable (line : Bytes) : Prop :=
  ∃ text : Str, line = encodeUtf8 text ∧ text ≠ [] ∧ ¬ "+OK".toList <+: text ∧ ¬ "+ ".toList <+: text ∧
    ¬ "-ERR".toList <+: text

end Pop3

end ThreeVa.Js

/-!
## What the POP3 client makes of a stream
-/

namespace ThreeVa.Js
open Text

namespace Pop3

/-! ## One line -/

section HandleLine

variable {p : Pending} {line data : Units} {calls : List (Option Units × Option Units)}

def callbacksOf (events : List Event) : List (Option Units × Option Units) :=
  events.filterMap fun
    | .callback err data => some (err, data)
    | _ => none

/-- A command with a multi-line answer waits, with what it has so far. -/
def Waiting (data : Units) (p : Pending) : Prop :=
  p.cmd.isSome = true ∧ p.hasCallback = true ∧ p.multiline = true ∧ p.data.getD [] = data ∧ callbacksOf p.events = []

def Done (calls : List (Option Units × Option Units)) (p : Pending) : Prop := p.cmd = none ∧ callbacksOf p.events = calls

/-- The line is taken for a positive status line. -/
def OkLike (line : Units) : Prop := units "+OK".toList <+: line ∨ units "+ ".toList <+: line

def ErrLike (line : Units) : Prop := units "-ERR".toList <+: line

instance : DecidablePred OkLike := fun _ => inferInstanceAs (Decidable (_ ∨ _))

instance : DecidablePred ErrLike := fun _ => inferInstanceAs (Decidable (_ <+: _))

theorem callbacksOf_append (events : List Event) (e : Event) :
    callbacksOf (events ++ [e]) = callbacksOf events ++ callbacksOf [e] := by simp [callbacksOf]

theorem not_okLike_of_errLike (h : ErrLike line) : ¬ OkLike line := by
  obtain ⟨rest, rfl⟩ := h
  rintro (⟨other, hother⟩ | ⟨other, hother⟩)
  · exact absurd (List.cons.inj hother).1 (by decide)
  · exact absurd (List.cons.inj hother).1 (by decide)

/-- The line without the dot it was stuffed with. -/
def unstuff (line : Units) : Units := if units ['.', '.'] <+: line then line.drop 1 else line

theorem handleLine_ok (h : OkLike line) :
    p.handleLine line =
      if p.cmd.isSome ∧ !p.multiline then ((p.emit (.raw line)).emit (.response line)).resolve none (some line)
      else (p.emit (.raw line)).emit (.response line) :=
  if_pos h

theorem handleLine_err (h : ErrLike line) :
    p.handleLine line =
      if p.cmd.isSome then ((p.emit (.raw line)).emit (.error line)).resolve (some line) none
      else (p.emit (.raw line)).emit (.error line) :=
  (if_neg (not_okLike_of_errLike h)).trans (if_pos h)

theorem handleLine_other (hok : ¬ OkLike line) (herr : ¬ ErrLike line) :
    p.handleLine line =
      if p.cmd.isSome ∧ p.multiline then
        if line = units ['.'] then (p.emit (.raw line)).resolve none (some (p.data.getD []))
        else { p.emit (.raw line) with data := some (p.data.getD [] ++ unstuff line ++ [lf]) }
      else p.emit (.raw line) :=
  (if_neg hok).trans (if_neg herr)

theorem Waiting.ok (hp : Waiting data p) (hline : OkLike line) : Waiting data (p.handleLine line) := by
  obtain ⟨hcmd, hcall, hmulti, hdata, hevents⟩ := hp
  rw [handleLine_ok hline, if_neg (by simp [hmulti])]
  refine ⟨hcmd, hcall, hmulti, hdata, ?_⟩
  simp only [Pending.emit]
  rw [callbacksOf_append, callbacksOf_append, hevents]
  rfl

theorem Waiting.err (hp : Waiting data p) (hline : ErrLike line) : Done [(some line, none)] (p.handleLine line) := by
  obtain ⟨hcmd, hcall, -, -, hevents⟩ := hp
  rw [handleLine_err hline, if_pos hcmd]
  simp only [Pending.emit, Pending.resolve, hcall, ↓reduceIte]
  refine ⟨rfl, ?_⟩
  rw [callbacksOf_append, callbacksOf_append, callbacksOf_append, hevents]
  rfl

theorem Waiting.body (hp : Waiting data p) (hok : ¬ OkLike line) (herr : ¬ ErrLike line) (hend : line ≠ units ['.']) :
    Waiting (data ++ unstuff line ++ [lf]) (p.handleLine line) := by
  obtain ⟨hcmd, hcall, hmulti, hdata, hevents⟩ := hp
  rw [handleLine_other hok herr, if_pos ⟨hcmd, hmulti⟩, if_neg hend]
  refine ⟨hcmd, hcall, hmulti, ?_, ?_⟩
  · rw [hdata]
    rfl
  · simp only [Pending.emit]
    rw [callbacksOf_append, hevents]
    rfl

theorem Waiting.terminator (hp : Waiting data p) : Done [(none, some data)] (p.handleLine (units ['.'])) := by
  obtain ⟨hcmd, hcall, hmulti, hdata, hevents⟩ := hp
  have hok : ¬ OkLike (units ['.']) := by decide
  have herr : ¬ ErrLike (units ['.']) := by decide
  rw [handleLine_other hok herr, if_pos ⟨hcmd, hmulti⟩, if_pos rfl]
  simp only [Pending.emit, Pending.resolve, hcall, ↓reduceIte, hdata]
  refine ⟨rfl, ?_⟩
  rw [callbacksOf_append, callbacksOf_append, hevents]
  rfl

/-- Once the command is resolved no line calls the callback again. -/
theorem Done.handleLine (hp : Done calls p) (line : Units) : Done calls (p.handleLine line) := by
  obtain ⟨hcmd, hevents⟩ := hp
  have hnone : ¬ p.cmd.isSome = true := by simp [hcmd]
  by_cases hok : OkLike line
  · rw [handleLine_ok hok, if_neg fun h => hnone h.1]
    refine ⟨hcmd, ?_⟩
    simp only [Pending.emit]
    rw [callbacksOf_append, callbacksOf_append, hevents, List.append_assoc]
    exact List.append_nil _
  · by_cases herr : ErrLike line
    · rw [handleLine_err herr, if_neg hnone]
      refine ⟨hcmd, ?_⟩
      simp only [Pending.emit]
      rw [callbacksOf_append, callbacksOf_append, hevents, List.append_assoc]
      exact List.append_nil _
    · rw [handleLine_other hok herr, if_neg fun h => hnone h.1]
      refine ⟨hcmd, ?_⟩
      simp only [Pending.emit]
      rw [callbacksOf_append, hevents]
      exact List.append_nil _

theorem Done.foldl (hp : Done calls p) (lines : List Units) : Done calls (lines.foldl Pending.handleLine p) := by
  induction lines generalizing p with
  | nil => exact hp
  | cons line lines ih => exact ih (hp.handleLine line)

end HandleLine

/-! ## The lines of a message -/

section Message

variable {body data : Units} {p : Pending}

def Kept (body : Units) : Prop := body ≠ [] ∧ ¬ OkLike body

instance : DecidablePred Kept := fun _ => inferInstanceAs (Decidable (_ ∧ _))

theorem stuff_dot (rest : Units) : stuff 46 (46 :: rest) = 46 :: 46 :: rest := rfl

theorem stuff_of_head {α : Type} [DecidableEq α] {dot : α} {line : List α} (h : line.head? ≠ some dot) :
    stuff dot line = line := if_neg h

/-- A stuffed line is no terminator, and is taken for a status line as it would be without the dot. -/
theorem okLike_stuff : OkLike (stuff 46 body) ↔ OkLike body := by
  by_cases h : body.head? = some 46
  · obtain ⟨rest, rfl⟩ := List.head?_eq_some_iff.mp h
    constructor
    · rintro (⟨other, hother⟩ | ⟨other, hother⟩)
      · exact absurd (List.cons.inj hother).1 (by decide)
      · exact absurd (List.cons.inj hother).1 (by decide)
    · rintro (⟨other, hother⟩ | ⟨other, hother⟩)
      · exact absurd (List.cons.inj hother).1 (by decide)
      · exact absurd (List.cons.inj hother).1 (by decide)
  · rw [stuff_of_head h]

theorem errLike_stuff : ErrLike (stuff 46 body) ↔ ErrLike body := by
  by_cases h : body.head? = some 46
  · obtain ⟨rest, rfl⟩ := List.head?_eq_some_iff.mp h
    constructor
    · rintro ⟨other, hother⟩
      exact absurd (List.cons.inj hother).1 (by decide)
    · rintro ⟨other, hother⟩
      exact absurd (List.cons.inj hother).1 (by decide)
  · rw [stuff_of_head h]

theorem unstuff_stuff (body : Units) : unstuff (stuff 46 body) = body := by
  unfold unstuff
  by_cases h : body.head? = some 46
  · obtain ⟨rest, rfl⟩ := List.head?_eq_some_iff.mp h
    rw [stuff_dot, if_pos ⟨rest, rfl⟩]
    rfl
  · rw [stuff_of_head h, if_neg]
    rintro ⟨rest, rfl⟩
    exact h rfl

theorem stuff_ne_dot (body : Units) : stuff 46 body ≠ units ['.'] := by
  by_cases h : body.head? = some 46
  · obtain ⟨rest, rfl⟩ := List.head?_eq_some_iff.mp h
    rw [stuff_dot]
    intro heq
    exact absurd (List.cons.inj heq).2 (by simp)
  · rw [stuff_of_head h]
    rintro rfl
    exact h rfl

theorem stuff_eq_nil : stuff 46 body = [] ↔ body = [] := by
  cases body with
  | nil => simp [stuff]
  | cons c rest =>
      unfold stuff
      split <;> simp

/-- What the lines that are not dropped add to the message. -/
def textOf (bodies : List Units) : Units := (bodies.filter Kept).flatMap (· ++ [lf])

theorem textOf_cons (body : Units) (bodies : List Units) :
    textOf (body :: bodies) = (if Kept body then body ++ [lf] else []) ++ textOf bodies := by
  unfold textOf
  by_cases h : Kept body
  · rw [List.filter_cons_of_pos (by simpa using h), List.flatMap_cons, if_pos h]
  · rw [List.filter_cons_of_neg (by simpa using h), if_neg h, List.nil_append]

/-- The bodies up to the terminator: the callback gets the ones that are kept, unless one looks like an error. -/
theorem foldl_bodies (hp : Waiting data p) (bodies : List Units) :
    let handled := ((bodies.map (stuff 46)).filter (· ≠ [])).foldl Pending.handleLine p
    ((∀ body ∈ bodies, ¬ ErrLike body) → Waiting (data ++ textOf bodies) handled) ∧
      ((∃ body ∈ bodies, ErrLike body) → ∃ line, Done [(some line, none)] handled) := by
  induction bodies generalizing p data with
  | nil => exact ⟨fun _ => by simpa [textOf] using hp, fun ⟨body, hbody, _⟩ => absurd hbody List.not_mem_nil⟩
  | cons body bodies ih =>
      intro handled
      by_cases hne : body = []
      · subst hne
        have hkept : ¬ Kept ([] : Units) := fun h => h.1 rfl
        have herr : ¬ ErrLike [] := by decide
        have hhandled : handled = ((bodies.map (stuff 46)).filter (· ≠ [])).foldl Pending.handleLine p := rfl
        rw [textOf_cons, if_neg hkept, List.nil_append, List.forall_mem_cons, hhandled]
        simp only [List.mem_cons, exists_eq_or_imp, herr, not_false_eq_true, true_and, false_or]
        exact ih hp
      · have hhandled : handled =
            ((bodies.map (stuff 46)).filter (· ≠ [])).foldl Pending.handleLine (p.handleLine (stuff 46 body)) := by
          show (((body :: bodies).map (stuff 46)).filter (· ≠ [])).foldl Pending.handleLine p = _
          rw [List.map_cons, List.filter_cons_of_pos (by simpa [stuff_eq_nil] using hne), List.foldl_cons]
        rw [hhandled, List.forall_mem_cons]
        simp only [List.mem_cons, exists_eq_or_imp]
        by_cases herr : ErrLike body
        · have hdone := hp.err (errLike_stuff.mpr herr)
          exact ⟨fun h => absurd herr h.1, fun _ => ⟨_, hdone.foldl _⟩⟩
        · by_cases hok : OkLike body
          · have hkept : ¬ Kept body := fun h => h.2 hok
            rw [textOf_cons, if_neg hkept, List.nil_append]
            have hrest := ih (hp.ok (okLike_stuff.mpr hok))
            exact ⟨fun h => hrest.1 h.2, fun h => hrest.2 (h.resolve_left herr)⟩
          · have hkept : Kept body := ⟨hne, hok⟩
            have hwait := hp.body (mt okLike_stuff.mp hok) (mt errLike_stuff.mp herr) (stuff_ne_dot body)
            rw [unstuff_stuff] at hwait
            have hrest := ih hwait
            rw [textOf_cons, if_pos hkept, ← List.append_assoc, ← List.append_assoc]
            exact ⟨fun h => hrest.1 h.2, fun h => hrest.2 (h.resolve_left herr)⟩

end Message

/-! ## The stream -/

section Stream

variable {p : Pending} {data : Bytes} {c : Client}

/-- The client after the data, with `p` pending before it. -/
def Seen (p : Pending) (data : Bytes) (c : Client) : Prop :=
  ∃ reader lines, LineReader.new.feed data = (reader, .ok lines) ∧ reader.Plain ∧ c.connected = true ∧
    c.reader = reader ∧ c.pending = lines.foldl Pending.handleLine p

/-- One poll takes in what was read, and a failed one nothing. -/
theorem Seen.poll (h : Seen p data c) (read : Read) : Seen p (data ++ read.bytes) (c.poll read) := by
  obtain ⟨reader, lines, hfeed, -, hconn, rfl, hpending⟩ := h
  obtain ⟨reader', lines', reader'', lines'', hdata, hplain', hread, hplain, hall⟩ :=
    LineReader.feed_append LineReader.plain_new data read.bytes
  obtain ⟨rfl, hlines⟩ := Prod.mk.inj (hfeed.symm.trans hdata)
  obtain rfl := Except.ok.inj hlines
  refine ⟨reader'', lines ++ lines'', hall, hplain, ?_⟩
  unfold Client.poll
  simp only [hconn, hread, Bool.not_true, Bool.false_eq_true, ↓reduceIte]
  exact ⟨trivial, trivial, by rw [hpending, List.foldl_append]⟩

theorem Seen.polls (h : Seen p data c) (reads : List Read) : Seen p (data ++ dataOf reads) (c.polls reads) := by
  induction reads generalizing data c with
  | nil => simpa [dataOf, Client.polls] using h
  | cons read reads ih =>
      have hrest := ih (h.poll read)
      rw [List.append_assoc] at hrest
      exact hrest

/-- What is pending depends on the data alone, however it was cut into reads. -/
theorem Seen.pending_eq {c' : Client} (h : Seen p data c) (h' : Seen p data c') : c.pending = c'.pending := by
  obtain ⟨reader, lines, hfeed, -, -, -, hpending⟩ := h
  obtain ⟨reader', lines', hfeed', -, -, -, hpending'⟩ := h'
  obtain rfl := Except.ok.inj (Prod.mk.inj (hfeed.symm.trans hfeed')).2
  rw [hpending, hpending']

theorem seen_idle (msgNumber : Units) : Seen (Client.idle.retr msgNumber).pending [] (Client.idle.retr msgNumber) :=
  ⟨_, _, LineReader.new_feed_nil, LineReader.plain_new, rfl, rfl, rfl⟩

theorem waiting_idle (msgNumber : Units) : Waiting [] (Client.idle.retr msgNumber).pending :=
  ⟨rfl, rfl, rfl, rfl, rfl⟩

theorem polls_append (c : Client) (reads more : List Read) : c.polls (reads ++ more) = (c.polls reads).polls more :=
  List.foldl_append

theorem dataOf_errors (messages : List Str) : dataOf (messages.map .error) = [] := by
  unfold dataOf
  rw [List.flatMap_map]
  exact List.flatMap_eq_nil_iff.mpr fun _ _ => rfl

/-- Reads that fail, also because the server closed the connection, leave no trace. -/
theorem polls_errors (h : Seen p data c) (reads : List Read) (messages : List Str) :
    (c.polls (reads ++ messages.map .error)).pending = (c.polls reads).pending := by
  have hfailed := (h.polls reads).polls (messages.map .error)
  rw [dataOf_errors, List.append_nil] at hfailed
  rw [polls_append]
  exact hfailed.pending_eq (h.polls reads)

end Stream

/-! ## The whole answer -/

section Answer

variable {text status : Str} {texts : List Str} {reads : List Read} {c : Client}

theorem head_encodeUtf8 : (encodeUtf8 text).head? = some 46 ↔ text.head? = some '.' := by
  cases text with
  | nil => simp [encodeUtf8]
  | cons c text =>
      rw [encodeUtf8, List.flatMap_cons, List.head?_append_of_ne_nil _ (encodeChar_ne_nil c), List.head?_cons,
        Option.some_inj]
      constructor
      · intro h
        exact Char.toNat_inj.mp (toNat_of_mem_encodeChar (by decide) (List.mem_of_head? h))
      · rintro rfl
        rfl

theorem head_units : (units text).head? = some 46 ↔ text.head? = some '.' := by
  rw [← List.singleton_prefix_iff_head?_eq_some, ← List.singleton_prefix_iff_head?_eq_some]
  exact units_prefix_iff (s := ['.']) (by simp)

theorem encodeUtf8_stuff (text : Str) : stuff 46 (encodeUtf8 text) = encodeUtf8 (stuff '.' text) := by
  unfold stuff
  simp only [head_encodeUtf8]
  split <;> rfl

theorem units_stuff (text : Str) : units (stuff '.' text) = stuff 46 (units text) := by
  unfold stuff
  simp only [head_units]
  split <;> rfl

/-- The lines of the answer. -/
def answerLines (status : Str) (texts : List Str) : List Str :=
  ("+OK".toList ++ status) :: texts.map (stuff '.') ++ [['.']]

theorem answer_eq (status : Str) (texts : List Str) :
    answer status (texts.map encodeUtf8) = sendLines (answerLines status texts) := by
  have hflat : ((texts.map encodeUtf8).flatMap fun line => stuff 46 line ++ crlf) = sendLines (texts.map (stuff '.')) := by
    unfold sendLines
    rw [List.flatMap_map, List.flatMap_map]
    exact List.flatMap_congr fun text _ => congrArg (· ++ crlf) (encodeUtf8_stuff text)
  rw [answer, hflat, answerLines, sendLines, sendLines, List.cons_append, List.flatMap_cons, List.flatMap_append,
    List.append_assoc, List.append_assoc]
  rfl

theorem lf_not_mem_stuff (h : '\n' ∉ text) : '\n' ∉ stuff '.' text := by
  unfold stuff
  split
  · simpa using h
  · exact h

/-- The lines of the answer, as the client handles them. -/
theorem feed_answer (hstatus : '\n' ∉ status) (htexts : ∀ text ∈ texts, '\n' ∉ text) :
    ∃ reader, LineReader.new.feed (answer status (texts.map encodeUtf8)) =
      (reader, .ok
        (units ("+OK".toList ++ status) :: ((texts.map units).map (stuff 46)).filter (· ≠ []) ++ [units ['.']])) := by
  have hlf : ∀ line ∈ answerLines status texts, '\n' ∉ line := by
    intro line hline
    rcases List.mem_append.mp hline with hline | hline
    · rcases List.mem_cons.mp hline with rfl | hline
      · simpa using hstatus
      · obtain ⟨text, htext, rfl⟩ := List.mem_map.mp hline
        exact lf_not_mem_stuff (htexts text htext)
    · rw [List.mem_singleton.mp hline]
      decide
  obtain ⟨reader, hfeed, -, -⟩ := LineReader.feed_sendLines LineReader.plain_new LineReader.atLine_new hlf
  have hne : units ("+OK".toList ++ status) ≠ [] := by
    rw [units_append]
    exact List.append_ne_nil_of_left_ne_nil (by decide) _
  have hstuff : (texts.map (stuff '.')).map units = (texts.map units).map (stuff 46) := by
    rw [List.map_map, List.map_map]
    exact List.map_congr_left fun text _ => units_stuff text
  refine ⟨reader, ?_⟩
  rw [answer_eq, hfeed, answerLines, List.map_append, List.map_cons, hstuff, List.filter_append,
    List.filter_cons_of_pos (by simpa using hne)]
  rfl

/-- The callback gets the lines that are kept, unless a line looks like an error. -/
theorem callbacks_answer (msgNumber : Units) (hstatus : '\n' ∉ status) (htexts : ∀ text ∈ texts, '\n' ∉ text)
    (hreads : dataOf reads = answer status (texts.map encodeUtf8)) :
    ((∀ text ∈ texts, ¬ ErrLike (units text)) →
        ((Client.idle.retr msgNumber).polls reads).callbacks = [(none, some (textOf (texts.map units)))]) ∧
      ((∃ text ∈ texts, ErrLike (units text)) →
        ∃ line, ((Client.idle.retr msgNumber).polls reads).callbacks = [(some line, none)]) := by
  obtain ⟨reader, hanswer⟩ := feed_answer hstatus htexts
  obtain ⟨reader', lines, hfeed, -, -, -, hpending⟩ := (seen_idle msgNumber).polls reads
  rw [List.nil_append, hreads, hanswer] at hfeed
  rw [← Except.ok.inj (Prod.mk.inj hfeed).2, List.foldl_append, List.foldl_cons] at hpending
  have hok : OkLike (units ("+OK".toList ++ status)) := by
    rw [units_append]
    exact .inl (List.prefix_append _ _)
  have hbodies := foldl_bodies ((waiting_idle msgNumber).ok hok) (texts.map units)
  rw [List.forall_mem_map] at hbodies
  simp only [List.mem_map, exists_exists_and_eq_and] at hbodies
  show (_ → callbacksOf _ = _) ∧ (_ → ∃ line, callbacksOf _ = _)
  rw [hpending]
  refine ⟨fun h => (hbodies.1 h).terminator.2, fun h => ?_⟩
  obtain ⟨line, hdone⟩ := hbodies.2 h
  exact ⟨line, (hdone.handleLine _).2⟩

end Answer

/-! ## Messages that are delivered -/

section Delivered

variable {status : Str} {lines : List Bytes} {texts : List Str} {reads : List Read}

theorem encodeUtf8_injective : Function.Injective encodeUtf8 := by
  intro s t h
  have hs := decodeUtf8_encodeUtf8 s
  rw [h, decodeUtf8_encodeUtf8 t] at hs
  exact (Option.some.inj hs).symm

theorem deliverable_iff (text : Str) :
    Deliverable (encodeUtf8 text) ↔ Kept (units text) ∧ ¬ ErrLike (units text) := by
  have hok : units "+OK".toList <+: units text ↔ "+OK".toList <+: text := units_prefix_iff (by simp)
  have hplus : units "+ ".toList <+: units text ↔ "+ ".toList <+: text := units_prefix_iff (by simp)
  have herr : ErrLike (units text) ↔ "-ERR".toList <+: text := units_prefix_iff (by simp)
  have hne : units text = [] ↔ text = [] := by
    cases text with
    | nil => simp [units]
    | cons c text =>
        obtain ⟨u, rest, hhead, -⟩ := head_fromCodePoint c.toNat
        rw [units_cons, hhead]
        simp
  rw [Kept, OkLike, hok, hplus, herr, Ne, hne, not_or]
  constructor
  · rintro ⟨text', heq, h⟩
    obtain rfl := encodeUtf8_injective heq
    exact ⟨⟨h.1, h.2.1, h.2.2.1⟩, h.2.2.2⟩
  · rintro ⟨⟨h1, h2, h3⟩, h4⟩
    exact ⟨text, rfl, h1, h2, h3, h4⟩

theorem lf_not_mem_text {text : Str} (h : 10 ∉ encodeUtf8 text) : '\n' ∉ text :=
  fun hmem => h (List.mem_flatMap.mpr ⟨'\n', hmem, by decide⟩)

/-- A line that is dropped is missed: each line has one line feed. -/
theorem textOf_eq_iff {bodies : List Units} (h : ∀ body ∈ bodies, lf ∉ body) :
    textOf bodies = bodies.flatMap (· ++ [lf]) ↔ ∀ body ∈ bodies, Kept body := by
  have hcount : ∀ bodies : List Units, (∀ body ∈ bodies, lf ∉ body) →
      (bodies.flatMap (· ++ [lf])).count lf = bodies.length := by
    intro bodies hbodies
    induction bodies with
    | nil => rfl
    | cons body bodies ih =>
        rw [List.flatMap_cons, List.count_append, ih fun x hx => hbodies x (List.mem_cons_of_mem _ hx), List.count_append,
          List.count_eq_zero_of_not_mem (hbodies body List.mem_cons_self), List.count_singleton_self, List.length_cons]
        omega
  constructor
  · intro heq body hbody
    have hlen : (bodies.filter Kept).length = bodies.length := by
      rw [← hcount bodies h, ← heq, ← hcount (bodies.filter Kept) fun x hx => h x (List.mem_filter.mp hx).1]
      rfl
    simpa using List.length_filter_eq_length_iff.mp hlen body hbody
  · intro hkept
    unfold textOf
    rw [List.filter_eq_self.mpr fun body hbody => decide_eq_true (hkept body hbody)]

theorem delivered_iff (msgNumber : Units) (hstatus : '\n' ∉ status) (hlines : ∀ line ∈ lines, 10 ∉ line)
    (hreads : dataOf reads = answer status lines) :
    Delivered lines ((Client.idle.retr msgNumber).polls reads) ↔ ∀ line ∈ lines, Deliverable line := by
  have htext : ∀ {texts : List Str}, lines = texts.map encodeUtf8 → ∀ text ∈ texts, '\n' ∉ text := by
    rintro texts rfl text htext
    exact lf_not_mem_text (hlines _ (List.mem_map_of_mem htext))
  have hunits : ∀ {texts : List Str}, lines = texts.map encodeUtf8 → ∀ body ∈ texts.map units, lf ∉ body := by
    intro texts heq body hbody
    obtain ⟨text, hmem, rfl⟩ := List.mem_map.mp hbody
    exact LineReader.lf_not_mem_units (htext heq text hmem)
  have hflat : ∀ texts : List Str, (texts.flatMap fun text => units text ++ [lf]) = (texts.map units).flatMap (· ++ [lf]) :=
    fun texts => by rw [List.flatMap_map]
  constructor
  · rintro ⟨texts, rfl, hcalls⟩
    obtain ⟨hgood, hbad⟩ := callbacks_answer msgNumber hstatus (htext rfl) hreads
    have herr : ∀ text ∈ texts, ¬ ErrLike (units text) := by
      intro text hmem herr
      obtain ⟨line, hline⟩ := hbad ⟨text, hmem, herr⟩
      rw [hcalls] at hline
      simp at hline
    rw [hgood herr, hflat, List.cons.injEq, Prod.mk.injEq, Option.some.injEq] at hcalls
    have hkept := (textOf_eq_iff (hunits rfl)).mp hcalls.1.2
    intro line hline
    obtain ⟨text, hmem, rfl⟩ := List.mem_map.mp hline
    exact (deliverable_iff text).mpr ⟨hkept _ (List.mem_map_of_mem hmem), herr text hmem⟩
  · intro h
    have hrange : lines ∈ Set.range (List.map encodeUtf8) := by
      rw [Set.range_list_map]
      intro line hline
      obtain ⟨text, rfl, -⟩ := h line hline
      exact ⟨text, rfl⟩
    obtain ⟨texts, rfl⟩ := hrange
    have hboth : ∀ text ∈ texts, Kept (units text) ∧ ¬ ErrLike (units text) :=
      fun text hmem => (deliverable_iff text).mp (h _ (List.mem_map_of_mem hmem))
    refine ⟨texts, rfl, ?_⟩
    rw [(callbacks_answer msgNumber hstatus (htext rfl) hreads).1 fun text hmem => (hboth text hmem).2, hflat,
      (textOf_eq_iff (hunits rfl)).mpr]
    rw [List.forall_mem_map]
    exact fun text hmem => (hboth text hmem).1

end Delivered

end Pop3

end ThreeVa.Js
