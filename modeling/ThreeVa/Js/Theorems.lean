import ThreeVa.Js.Lemmas.Buffer
import ThreeVa.Js.Lemmas.Commands
import ThreeVa.Js.Dgram
import ThreeVa.Js.Exports
import ThreeVa.Js.Lemmas.Ftp
import ThreeVa.Js.Lemmas.Imap
import ThreeVa.Js.Mqtt
import ThreeVa.Js.Lemmas.IllFormed
import ThreeVa.Js.LineReader
import ThreeVa.Js.Pop3
import ThreeVa.Js.Lemmas.SourceMaps
import ThreeVa.Js.Lemmas.TextDecoder
import ThreeVa.Js.Lemmas.Timers
import ThreeVa.Js.Transpiler
import ThreeVa.Js.Lemmas.WebSocket
import ThreeVa.Js.WorkerThreads

/-!
What holds of the parts of the runtime that a script uses.
-/

namespace ThreeVa.Js
open Text

/-! ## Timers -/

/-- In a run in which every delay is counted as it is written, no timer is armed anew once its callback was collected or
started, and timers that fall due together were armed in that order, all promises are kept. -/
theorem timers_lawful (ops : List Runtime.Op) (t : Traced) (hrun : Runs.exec Traced.step .new ops = some t)
    (hgood : Runs.Along Traced.step Traced.Good .new ops) : t.Lawful :=
  (Runs.exec_invariant (fun _ _ _ h hgood hstep => Traced.Inv.step h hgood hstep) Traced.inv_new hgood hrun).lawful

instance (a b : Instant × TimerId) : Decidable (Earlier a b) := inferInstanceAs (Decidable (_ ∨ _))

instance (t : Traced) : (op : Runtime.Op) → Decidable (t.Good op)
  | .set _ _ _ _ => inferInstanceAs (Decidable (_ ∧ _))
  | .clear (.number _) => inferInstanceAs (Decidable (_ ∨ _))
  | .refresh _ _ => inferInstanceAs (Decidable (_ ∧ ∀ _ ∈ _, ∀ _ ∈ _, _))
  | .poll => inferInstanceAs (Decidable (∀ _ ∈ _, ∀ _ ∈ _, _))
  | .tick _ | .clear .null | .clear (.handle _) | .setRef _ _ | .fire => .isTrue trivial

namespace Runtime.Op

def after (ms : Nat) : Runtime.Op := .tick (fromMillis ms)

def timeout (fn : Fn) (ms : Int) : Runtime.Op := .set [] fn (.finite ms) false

end Runtime.Op

open Runtime.Op (after timeout)

/-- The state after a run. -/
def ran (ops : List Runtime.Op) : Traced := (Runs.exec Traced.step .new ops).getD .new

theorem exec_ran {ops : List Runtime.Op} (h : (Runs.exec Traced.step .new ops).isSome = true) :
    Runs.exec Traced.step .new ops = some (ran ops) := by
  obtain ⟨t, ht⟩ := Option.isSome_iff_exists.mp h
  rw [ran, ht, Option.getD_some]

/-- An interval that is armed anew, and two timeouts; the callback of one clears the other, which was collected with it. -/
def cleared : List Runtime.Op :=
  [.set [] 0 (.finite 3) true, .refresh [] 0, timeout 1 5, timeout 2 5, after 10, .poll, .fire, .fire,
    .clear (.handle 2), .fire]

theorem cleared_lawful : (ran cleared).Lawful ∧ ((ran cleared).history.armings 4).map Arming.starts = some [] :=
  ⟨timers_lawful cleared _ (exec_ran (by decide)) (by decide), by decide⟩

/-- A timeout that a poll found due and that never ran. -/
theorem not_lawful_of_missed {t : Traced} {id : TimerId}
    (h : (t.history.armings id).any (fun a => !a.repeats && a.polled && !a.dead && a.starts.isEmpty) = true)
    (hsettled : t.runtime.batch.isEmpty = true) : ¬ t.Lawful := by
  intro hlawful
  obtain ⟨a, ha, hmissed⟩ := (Option.any_eq_true _ _).mp h
  simp only [Bool.and_eq_true, Bool.not_eq_true', List.isEmpty_iff] at hmissed
  obtain ⟨⟨⟨hrepeats, hpolled⟩, hlive⟩, hnone⟩ := hmissed
  have hruns := (hlawful.each id a ha).runs hsettled hrepeats hpolled hlive
  simp [hnone] at hruns

/-- A delay below zero, two timers that fall due together in the other order, a timer armed anew after it has fired, and
one that is armed anew and cleared after it was collected. -/
def negative : List Runtime.Op := [timeout 0 (-1), after 1000, .poll]

def overtaken : List Runtime.Op := [timeout 0 10, timeout 1 5, after 20, .poll, .fire, .fire]

def rearmed : List Runtime.Op := [timeout 0 5, after 10, .poll, .fire, .refresh [] 0, after 10, .poll, .fire]

def revived : List Runtime.Op :=
  [timeout 0 5, timeout 1 5, after 10, .poll, .fire, .refresh [] 1, .clear (.handle 1), .fire]

theorem promises_broken :
    ¬ (ran negative).Lawful ∧ ¬ (ran overtaken).Lawful ∧ ¬ (ran rearmed).Lawful ∧ ¬ (ran revived).Lawful ∧
      ∀ ops ∈ [negative, overtaken, rearmed, revived], (Runs.exec Traced.step .new ops).isSome = true := by
  refine ⟨@not_lawful_of_missed _ 1 (by decide) (by decide), fun h => ?_,
    @not_lawful_of_missed _ 2 (by decide) (by decide), fun h => ?_, by decide⟩
  · exact absurd h.ordered (by decide)
  · have hstart : ((ran revived).history.armings 2).any (fun a => a.starts.any Start.dead) = true := by decide
    obtain ⟨a, ha, hdead⟩ := (Option.any_eq_true _ _).mp hstart
    obtain ⟨st, hst, hdead⟩ := List.any_eq_true.mp hdead
    rw [(h.each 2 a ha).notDead st hst] at hdead
    cases hdead

/-! ## MQTT -/

/-- A stream of packets is dispatched as it was sent exactly where each read ends at the end of a packet; a length is read
back as it was written; nothing that is published can be read back. -/
theorem mqtt_framing (packets : List Packet) (reads : List Bytes) (hsmall : ∀ p ∈ packets, p.data.length ≤ 268435455)
    (hstream : reads.flatten = packets.flatMap Packet.encode) :
    (dispatched reads = packets ↔ WholePackets packets reads) ∧
      (∀ (n : Nat) (rest : Bytes), n < 2 ^ 64 →
        readLength 0 (some 0) (encodeRemainingLength n ++ rest) = some (some n, rest)) ∧
      ∀ (topic : Units) (payload : Payload) (options : PublishOptions),
        (topic, payload.units) ∉ messages (publish topic payload options) := by
  refine ⟨dispatched_eq_iff hsmall hstream, fun n rest hn => ?_, fun topic payload options => ?_⟩
  · rw [readLength_encode (m := 9) _ _ (by omega) (by omega)]
    simp
  · rw [messages_publish]
    exact List.not_mem_nil

/-- A SUBACK and a message `a` with the payload `b`. -/
def sentPackets : List Packet := [⟨0x90, [0, 1, 0]⟩, ⟨0x30, [0, 1, 97, 98]⟩]

theorem two_packets_in_one_read :
    dispatched [sentPackets.flatMap Packet.encode] = sentPackets ∧
      messages (sentPackets.flatMap Packet.encode) = [([97], [98])] :=
  ⟨(mqtt_framing sentPackets [sentPackets.flatMap Packet.encode] (by decide) (by decide)).1.mpr ⟨[sentPackets], rfl, rfl⟩,
    by decide⟩

/-- The first read ends inside the second packet; `publish` sends an empty packet. -/
theorem packet_cut_and_publish_empty :
    dispatched [[0x90, 3, 0, 1, 0, 0x30, 4, 0, 1], [97, 98]] = [⟨0x90, [0, 1, 0]⟩, ⟨0x30, [0, 1]⟩, ⟨97, []⟩] ∧
      [[0x90, 3, 0, 1, 0, 0x30, 4, 0, 1], [97, 98]].flatten = sentPackets.flatMap Packet.encode ∧
      (¬ ∀ (packets : List Packet) (reads : List Bytes), (∀ p ∈ packets, p.data.length ≤ 268435455) →
        reads.flatten = packets.flatMap Packet.encode → dispatched reads = packets) ∧
      publish [97] (.text [98]) ⟨0, false⟩ = [0x30, 0] ∧ messages [0x30, 0] = [] := by
  have hread : dispatched [[0x90, 3, 0, 1, 0, 0x30, 4, 0, 1], [97, 98]] =
      [⟨0x90, [0, 1, 0]⟩, ⟨0x30, [0, 1]⟩, ⟨97, []⟩] := by decide
  have hstream : [[0x90, 3, 0, 1, 0, 0x30, 4, 0, 1], [97, 98]].flatten = sentPackets.flatMap Packet.encode := by decide
  refine ⟨hread, hstream, fun hall => ?_, by decide, by decide⟩
  have hsame := hall sentPackets _ (by decide) hstream
  rw [hread] at hsame
  exact absurd hsame (by decide)

/-! ## UDP -/

/-- A grant for one host only. -/
def oneHost : Permissions.PermissionState := Permissions.PermissionState.new.grant (.network "api.example.com".toList)

/-- A call of the root script on an empty file system. -/
def bareCall : Dgram.Call where
  env := ⟨.ofNodes [] Permissions.FileSystem.no_nodes, some [], Permissions.PathEnv.empty_cwd⟩
  stdin := .notTerminal
  scope := ⟨[], none, [], false⟩

/-- However a text is cut, decoding the parts with `stream` and flushing gives the string of one call, or throws like it. -/
theorem decode_chunk_independent (encoding : Encoding) (fatal : Bool) (chunks : List Bytes) :
    TextDecoder.decodeChunks (.new encoding fatal) chunks =
      ((TextDecoder.new encoding fatal).decode chunks.flatten false).2 :=
  TextDecoder.decodeChunks_eq encoding fatal chunks

/-- The bytes are decoded as the standard says exactly if they do not begin with a byte order mark and nothing of their
ill-formed subparts is lost or doubled that is not made up for. -/
theorem decode_asStandard_iff (bytes : Bytes) :
    TextDecoder.AsStandard bytes ↔
      ¬TextDecoder.byteOrderMark <+: bytes ∧ TextDecoder.Even (utf8Pieces bytes) := by
  refine ⟨fun h => (TextDecoder.lossy_iff bytes).mp h.lossy, fun h => ?_⟩
  refine ⟨(TextDecoder.lossy_iff bytes).mpr h, TextDecoder.throws_iff bytes, fun fatal text henc _ => ?_⟩
  rw [← henc]
  exact TextDecoder.decode_encoded fatal text

/-- The letter after a sequence that lacks two bytes is lost, and an ill-formed subpart of two bytes is doubled. -/
theorem truncated_prefix_loses :
    ((TextDecoder.new .utf8 false).decode [0xE2, 0x41] false).2 = .ok [0xFFFD] ∧
      TextDecoder.standardDecode [0xE2, 0x41] = [0xFFFD, 0x41] ∧
      ((TextDecoder.new .utf8 false).decode [0xE2, 0x82, 0x41] false).2 = .ok [0xFFFD, 0xFFFD, 0x41] ∧
      TextDecoder.standardDecode [0xE2, 0x82, 0x41] = [0xFFFD, 0x41] ∧ ¬∀ bytes, TextDecoder.AsStandard bytes := by
  have hlost : ((TextDecoder.new .utf8 false).decode [0xE2, 0x41] false).2 = .ok [0xFFFD] := by
    rw [TextDecoder.new, TextDecoder.decode_utf8, List.nil_append, TextDecoder.decodeUtf8_cons]
    rfl
  have hdoubled : ((TextDecoder.new .utf8 false).decode [0xE2, 0x82, 0x41] false).2 = .ok [0xFFFD, 0xFFFD, 0x41] := by
    rw [TextDecoder.new, TextDecoder.decode_utf8, List.nil_append, TextDecoder.decodeUtf8_cons]
    show Except.map _ (Except.map _ (TextDecoder.decodeUtf8 false false [0x82, 0x41])) = _
    rw [TextDecoder.decodeUtf8_cons]
    show Except.map _ (Except.map _ (Except.map _ (TextDecoder.decodeUtf8 false false [0x41]))) = _
    rw [TextDecoder.decodeUtf8_cons]
    show Except.map _ (Except.map _ (Except.map _ (Except.map _ (TextDecoder.decodeUtf8 false false [])))) = _
    rw [TextDecoder.decodeUtf8_nil]
    rfl
  refine ⟨hlost, by decide, hdoubled, by decide, fun hall => ?_⟩
  have hstandard := (hall [0xE2, 0x41]).lossy
  rw [hlost] at hstandard
  exact absurd (Except.ok.inj hstandard) (by decide)

/-! ## POP3 -/

/-- A message is delivered, however its answer is cut into reads, exactly if each line is a text, not empty, and does not
look like a status line. A connection that fails before is never reported. -/
theorem retr_reported_iff (msgNumber : Units) (status : Str) (lines : List Bytes) (reads : List Pop3.Read)
    (hstatus : '\n' ∉ status) (hlines : ∀ line ∈ lines, 10 ∉ line) :
    Pop3.Reported (Pop3.Client.idle.retr msgNumber) status lines reads ↔
      Pop3.dataOf reads = Pop3.answer status lines ∧ ∀ line ∈ lines, Pop3.Deliverable line := by
  constructor
  · rintro ⟨hwhole, hfailed⟩
    by_cases hreads : Pop3.dataOf reads = Pop3.answer status lines
    · exact ⟨hreads, (Pop3.delivered_iff msgNumber hstatus hlines hreads).mp (hwhole hreads)⟩
    · obtain ⟨messages, hevents⟩ := hfailed hreads
      rw [Pop3.polls_errors (Pop3.seen_idle msgNumber)] at hevents
      exact absurd rfl hevents
  · rintro ⟨hreads, hlines'⟩
    exact ⟨fun _ => (Pop3.delivered_iff msgNumber hstatus hlines hreads).mpr hlines', fun h => absurd hreads h⟩

/-- A message of one line, cut inside the line. -/
theorem hello_reported :
    Pop3.Reported (Pop3.Client.idle.retr ['1'.toNat]) [] [[104, 105]]
      [.data [43, 79, 75, 13, 10, 104], .error "no data available".toList, .data [105, 13, 10, 46, 13, 10]] := by
  refine (retr_reported_iff ['1'.toNat] [] [[104, 105]] _ (by decide) (by decide)).mpr ⟨by decide, ?_⟩
  intro line hline
  rw [List.mem_singleton.mp hline]
  exact ⟨"hi".toList, by decide, by decide, by decide, by decide, by decide⟩

/-- An empty line is lost, a line of the message that starts with `-ERR` is an error, and when the connection is closed
nothing is called. -/
theorem retr_not_reported :
    ¬ Pop3.Reported (Pop3.Client.idle.retr ['1'.toNat]) [] [[]] [.data (Pop3.answer [] [[]])] ∧
      ¬ Pop3.Reported (Pop3.Client.idle.retr ['1'.toNat]) [] [encodeUtf8 "-ERR".toList]
          [.data (Pop3.answer [] [encodeUtf8 "-ERR".toList])] ∧
      ¬ Pop3.Reported (Pop3.Client.idle.retr ['1'.toNat]) [] [] [.data (encodeUtf8 "+OK\r\n".toList)] := by
  have hdata : ∀ bytes, Pop3.dataOf [.data bytes] = bytes := fun bytes => List.append_nil bytes
  have hlost : ∀ text : Str, '\n' ∉ text → ¬ Pop3.Deliverable (encodeUtf8 text) →
      ¬ Pop3.Reported (Pop3.Client.idle.retr ['1'.toNat]) [] [encodeUtf8 text]
        [.data (Pop3.answer [] [encodeUtf8 text])] := by
    intro text hlf hbad h
    have hmem : ∀ line ∈ [encodeUtf8 text], 10 ∉ line := by
      rintro line hline hten
      rw [List.mem_singleton.mp hline] at hten
      obtain ⟨c, hc, hbyte⟩ := List.mem_flatMap.mp hten
      have heq : c = '\n' := Char.toNat_inj.mp (toNat_of_mem_encodeChar (by decide) hbyte)
      exact hlf (heq ▸ hc)
    exact hbad ((Pop3.delivered_iff _ (by decide) hmem (hdata _)).mp (h.1 (hdata _)) _ (by simp))
  refine ⟨hlost [] (by decide) ?_, hlost "-ERR".toList (by decide) ?_, fun h => ?_⟩
  · rw [Pop3.deliverable_iff]
    exact fun h => h.1.1 rfl
  · rw [Pop3.deliverable_iff]
    exact fun h => h.2 (by decide)
  · obtain ⟨messages, hevents⟩ := h.2 (by rw [hdata]; decide)
    rw [Pop3.polls_errors (Pop3.seen_idle _)] at hevents
    exact absurd rfl hevents

/-! ## FTP -/

/-- In every run in which calls do not overlap, no line inside a reply looks like a last line, and the end of a data
connection is not noticed between the lines of a reply, each call is in one place, and a callback that got a reply got its
own. What waits is called back when its time is up. -/
theorem ftp_replies_paired (ops : List Ftp.Session.Op) (s : Ftp.Session)
    (hgood : Runs.Along Ftp.Session.step Ftp.Session.Good .new ops) (hrun : Runs.exec Ftp.Session.step .new ops = some s) :
    s.Paired ∧ ∀ env w, s.pending = some w → s.toHandle = [] →
      ∃ s', s.step (.timeout env) = some s' ∧ s'.called = s.called ++ [(w.call, .failed .timedOut)] := by
  refine ⟨Ftp.Session.Inv.paired (Runs.exec_invariant (fun _ _ _ h hgood hstep => Ftp.Session.inv_step h hgood hstep)
    Ftp.Session.inv_new hgood hrun), fun env w hpending hhandle => ?_⟩
  refine ⟨_, if_pos ⟨hhandle, by rw [hpending]; rfl⟩, ?_⟩
  rw [Ftp.Session.resolvePending, hpending]
  simp only [Ftp.Session.resume_failed]
  rfl

def ready : Ftp.Env := ⟨true, true⟩

/-- A multi-line reply with a line that starts with another code. -/
def features : Ftp.ServerReply :=
  ⟨"211".toList, some ("Features".toList, ["226 too".toList]), "End".toList, by simp, by simp, by simp⟩

def done : Ftp.ServerReply := ⟨"200".toList, none, "Done".toList, by simp, by simp, by simp⟩

/-- One command, its reply read in two parts. -/
def oneCommand : List Ftp.Session.Op :=
  [.call ready (.plain (units "NOOP".toList)), .answer done, .read 4, .read 6, .handle ready]

theorem oneCommand_paired : ∃ s, Runs.exec Ftp.Session.step .new oneCommand = some s ∧ s.Paired ∧
    ∀ env w, s.pending = some w → s.toHandle = [] →
      ∃ s', s.step (.timeout env) = some s' ∧ s'.called = s.called ++ [(w.call, .failed .timedOut)] := by
  have hgood : Runs.Along Ftp.Session.step Ftp.Session.Good .new oneCommand := by
    refine ⟨fun _ => ⟨rfl, rfl, rfl, rfl, rfl⟩, fun _ _ => ⟨fun b hb => by simp [done] at hb, fun _ _ => ?_⟩⟩
    exact ⟨trivial, fun _ _ => ⟨trivial, fun _ _ => ⟨trivial, fun _ _ => trivial⟩⟩⟩
  have hruns : (Runs.exec Ftp.Session.step .new oneCommand).isSome = true := by decide +kernel
  obtain ⟨s, hs⟩ := Option.isSome_iff_exists.mp hruns
  exact ⟨s, hs, ftp_replies_paired oneCommand s hgood hs⟩

def overlapping : List Ftp.Session.Op :=
  [.call ready (.plain (units "PWD".toList)), .call ready (.plain (units "NOOP".toList))]

def codeInside : List Ftp.Session.Op :=
  [.call ready (.plain (units "SITE FEAT".toList)), .answer features, .read 32, .handle ready, .handle ready]

def lateReply : List Ftp.Session.Op :=
  [.call ready (.plain (units "PWD".toList)), .timeout ready, .call ready (.plain (units "NOOP".toList)), .answer done,
    .read 10, .handle ready]

/-- A call that comes before the reply to another one takes its place; a line inside a reply is taken for its end; and a
reply that comes after its time is up reaches the next call. -/
theorem ftp_replies_shifted :
    (∃ s, Runs.exec Ftp.Session.step .new overlapping = some s ∧ ¬ s.Paired) ∧
      (∃ s, Runs.exec Ftp.Session.step .new codeInside = some s ∧ ¬ s.Paired) ∧
      ∃ s, Runs.exec Ftp.Session.step .new lateReply = some s ∧ ¬ s.Paired := by
  refine ⟨?_, ?_, ?_⟩
  · have hlost : (Runs.exec Ftp.Session.step .new overlapping).any
        (fun s => decide (0 < s.calls ∧ s.accounts.count 0 = 0)) = true := by decide +kernel
    obtain ⟨s, hs, hfacts⟩ := (Option.any_eq_true _ _).mp hlost
    obtain ⟨hcalls, hcount⟩ := of_decide_eq_true hfacts
    refine ⟨s, hs, fun h => ?_⟩
    rw [h.1 0 hcalls] at hcount
    cases hcount
  · have hwrong : (Runs.exec Ftp.Session.step .new codeInside).any
        (fun s => decide (s.called = [(0, .reply ⟨units "226".toList, units "too".toList⟩)] ∧
          s.answered 0 = some features.last)) = true := by decide +kernel
    obtain ⟨s, hs, hfacts⟩ := (Option.any_eq_true _ _).mp hwrong
    obtain ⟨hcalled, hans⟩ := of_decide_eq_true hfacts
    refine ⟨s, hs, fun h => ?_⟩
    obtain ⟨hright, -⟩ := h.2 0 _ (by rw [hcalled]; exact List.mem_cons_self)
    rw [hans] at hright
    exact absurd hright (by decide +kernel)
  · have hwrong : (Runs.exec Ftp.Session.step .new lateReply).any
        (fun s => decide ((1, Ftp.Outcome.reply done.last) ∈ s.called ∧ s.answered 1 = none)) = true := by decide +kernel
    obtain ⟨s, hs, hfacts⟩ := (Option.any_eq_true _ _).mp hwrong
    obtain ⟨hcalled, hans⟩ := of_decide_eq_true hfacts
    refine ⟨s, hs, fun h => ?_⟩
    obtain ⟨hright, -⟩ := h.2 1 _ hcalled
    rw [hans] at hright
    cases hright

/-! ## Commands with the texts of a script -/

/-- A text that ends its line. -/
def talkative : Call := .irc (.privmsg "#a".toList "x\r\nQUIT".toList)

/-- A password with a quote. -/
def quoting : Call := .imap 1 (.login "a".toList "p\"".toList)

namespace Imap

/-- On a stream that is closed a command comes to an end exactly if a line has its tag and no line before it panics. A
whole reply is served if it suits the loop that reads it; where only messages have counted texts, no other reply is. -/
theorem replies_paired (n : Nat) (cmd : ImapCommand) :
    (∀ stream, Ends (tagOf n) cmd stream ↔ Finds (tagOf n) stream cmd) ∧
      ∀ (reply : Reply cmd) (next : Bytes), (Suits (tagOf n) reply → Served (tagOf n) reply next) ∧
        ((cmd = .fetch → reply.InMessages) → Served (tagOf n) reply next → Suits (tagOf n) reply) := by
  refine ⟨ends_iff n cmd, fun reply next => ?_⟩
  by_cases hfetch : cmd = .fetch
  · subst hfetch
    exact ⟨Reply.served_of_suits reply n, fun hmessages => Reply.suits_of_served reply n (hmessages rfl)⟩
  · have hiff := served_iff reply n next hfetch
    exact ⟨hiff.mpr, fun _ => hiff.mp⟩

/-- A message of three bytes. -/
def message : Data where
  text := encodeUtf8 "1 FETCH (BODY[] ".toList
  literals := [(encodeUtf8 "abc".toList, encodeUtf8 [')'])]
  plain := ⟨by decide, by decide⟩
  plain_after p hp := by
    rw [List.mem_singleton.mp hp]
    exact ⟨by decide, by decide⟩
  after p hp := by
    rw [List.mem_singleton.mp hp]
    decide
  between p hp := by cases hp

/-- A reply without a text. -/
def reply (cmd : ImapCommand) (untagged : List Data) (status : Status) : Reply cmd where
  untagged := untagged
  continuation := none
  status := status
  text := []
  plain := ⟨List.not_mem_nil, List.not_mem_nil⟩
  plain_continuation p hp := by cases hp
  asks h := absurd rfl h

theorem listed_served : Served (tagOf 2) (reply .list [message] .ok) [] :=
  ((replies_paired 2 .list).2 (reply .list [message] .ok) []).1
    (show ∀ l ∈ lines (reply .list [message] .ok).data, ¬ tagOf 2 <+: l by decide)

/-- A list is read for ever once the stream is closed, a line that names no capability panics, a message is not stored, a
refused login loses the connection, and data before the end of a creation are left for the next command. -/
theorem replies_not_paired :
    ¬ Ends (tagOf 2) .list [] ∧ ¬ Ends (tagOf 1) .connect (capabilityPrefix ++ crlf ++ tagOf 1) ∧
      ¬ Served (tagOf 2) (reply .fetch [message] .ok) [] ∧ ¬ Served (tagOf 2) (reply .login [] .no) [] ∧
        ¬ Served (tagOf 2) (reply .create [message] .ok) [] := by
  refine ⟨fun h => ?_, fun h => ?_, fun h => ?_, fun h => ?_, fun h => ?_⟩
  · obtain ⟨before, line, after, hlines, hline, -⟩ := (ends_iff 2 .list []).mp h
    have hmem : line ∈ lines [] := hlines ▸ by simp
    rw [lines_nil, List.mem_singleton] at hmem
    exact tagOf_ne_nil 2 (List.prefix_nil.mp (hmem ▸ hline))
  · obtain ⟨before, line, after, hlines, hline, -, hfine⟩ := (ends_iff 1 .connect _).mp h
    rw [show lines (capabilityPrefix ++ crlf ++ tagOf 1) = [capabilityPrefix, tagOf 1] by decide] at hlines
    cases before with
    | nil =>
        rw [← (List.cons.inj hlines).1] at hline
        exact absurd hline (by decide)
    | cons l before => exact hfine ((List.cons.inj hlines).1 ▸ List.mem_cons_self)
  · have hmessages : (reply .fetch [message] .ok).InMessages := by
      intro d hd _
      rw [List.mem_singleton.mp hd]
      exact ⟨1, by decide, by decide, by decide⟩
    obtain ⟨-, -, hempty⟩ := Reply.suits_of_served _ 2 hmessages h
    exact absurd (hempty message List.mem_cons_self 1 ⟨by decide, by decide, by decide⟩ _ List.mem_cons_self)
      (by decide)
  · exact absurd ((served_iff (reply .login [] .no) 2 [] (by simp)).mp h).2 (by decide)
  · exact absurd ((served_iff (reply .create [message] .ok) 2 [] (by simp)).mp h) (List.cons_ne_nil _ _)

end Imap

/-! ## Worker messages -/

/-- In every interleaving the messages are kept in every state that is reached exactly if the parent posts only where there
is room, messages are taken only while somebody listens, and no handler of the worker throws. -/
theorem worker_messages_kept (isJson : Str → Bool) (ops : List Workers.Op) (t : Workers)
    (hrun : Runs.exec (Workers.step isJson) .new ops = some t) :
    Runs.Along (Workers.step isJson) Workers.Good .new ops ↔
      ∀ pre, pre <+: ops → ∀ s, Runs.exec (Workers.step isJson) .new pre = some s → s.Kept :=
  Runs.along_iff_reached (show ∀ s, Workers.Kept s → Workers.Kept s from fun _ h => h)
    (fun _ _ _ h _ hgood hstep => h.step hgood hstep) (fun _ _ _ h _ hbad hstep => h.not_step hbad hstep)
    ⟨rfl, rfl⟩ (Runs.along_true _ _) hrun

/-- Every text is JSON. -/
def plainJson : Str → Bool := fun _ => true

/-- A message in each direction. -/
def exchanged : List Workers.Op :=
  [.listenInWorker true, .postToWorker (some ['1']), .postToParent (some ['2']), .workerRecv, .workerReturns,
    .listenInParent true, .parentRecv]

theorem exchanged_kept : ∃ s, Runs.exec (Workers.step plainJson) .new exchanged = some s ∧ s.Kept := by
  have hrun : Runs.exec (Workers.step plainJson) .new exchanged =
      some ⟨⟨[], true, [['1']], [['1']]⟩, ⟨[], true, [['2']], [['2']]⟩, none⟩ := by decide
  refine ⟨_, hrun, (worker_messages_kept plainJson exchanged _ hrun).mp ?_ exchanged (List.prefix_refl _) _ hrun⟩
  simp [exchanged, Runs.Along, Workers.step, Workers.Good, Workers.new, Direction.new, Workers.postToWorker,
    Workers.workerSend, Workers.capacity, Direction.push, Direction.post, Workers.postToParent]

/-- The 257th message that waits is dropped, a handler that throws is called again, and nobody keeps what is taken before
a handler is registered. -/
theorem worker_messages_lost :
    ((Runs.exec (Workers.step plainJson) .new (List.replicate 257 (.postToWorker (some ['1'])))).any fun s =>
        decide (s.toWorker.queue.length = 256 ∧ s.toWorker.sent.length = 257 ∧ ¬ s.Kept)) = true ∧
      ((Runs.exec (Workers.step plainJson) .new
          [.listenInWorker true, .postToWorker (some ['1']), .workerRecv, .workerThrows]).any fun s =>
        decide (s.toWorker.sent = [['1']] ∧ s.toWorker.handed = [['1'], ['1']] ∧ ¬ s.Kept)) = true ∧
      ((Runs.exec (Workers.step plainJson) .new [.postToWorker (some ['1']), .workerRecv]).any fun s =>
        decide (s.toWorker.queue = [] ∧ s.toWorker.handed = [] ∧ ¬ s.Kept)) = true := by
  decide +kernel

/-! ## The text passes of the transpiler -/

/-- The pieces are the whole source, and outside the constructs a pass writes the bytes of the source exactly if they are
all ASCII; the import pass looks at no byte of a text without `import(`. -/
theorem passes_transparent_iff (source : Str) :
    ((flowPieces source).flatMap Piece.source = encodeUtf8 source ∧
      (importPieces source).flatMap Piece.source = encodeUtf8 source) ∧
    (encodeUtf8 (stripFlow source) = (flowPieces source).flatMap Piece.wanted ↔
      ∀ b, .kept b ∈ flowPieces source → b.toNat < 0x80) ∧
    (encodeUtf8 (rewriteImports source) = (importPieces source).flatMap Piece.wanted ↔
      ("import(".toList <:+: source → ∀ b, .kept b ∈ importPieces source → b.toNat < 0x80)) := by
  refine ⟨⟨flowPieces_source source, importPieces_source source⟩, ?_, ?_⟩
  · rw [stripFlow, runPass_eq_shown]
    exact encode_shown_iff (flowPieces source)
  · unfold rewriteImports importPieces
    by_cases himport : "import(".toList <:+: source
    · simp only [himport, ↓reduceIte, forall_const]
      rw [runPass_eq_shown]
      exact encode_shown_iff _
    · simp only [himport, ↓reduceIte, false_implies, iff_true]
      exact (flatMap_kept_wanted _).symm

theorem passes_garble_accents :
    stripFlow "// @flow\n'é';".toList = "// \n'Ã©';".toList ∧
      rewriteImports "import('é')".toList = "__importAsync('Ã©')".toList ∧
      ¬ ∀ source, encodeUtf8 (stripFlow source) = (flowPieces source).flatMap Piece.wanted ∧
        encodeUtf8 (rewriteImports source) = (importPieces source).flatMap Piece.wanted := by
  refine ⟨by decide, by decide, fun hall => ?_⟩
  have h := hall "import('é')".toList
  revert h
  decide

/-! ## Stored source maps -/

namespace SourceMaps

/-- The mappings are written without an underflow exactly if positions only go up on each line, no number is read as it was
written, and the only position that is ever answered is the first of the source. -/
theorem stored_map_iff (checks : Bool) {tokens : List Token} (h : Generated tokens) :
    ((∃ mappings, encodeMappings true tokens = .ok mappings) ↔ NeverBack tokens) ∧
    (∀ n : Int, n.natAbs < 2 ^ 31 →
      decodeVlq checks (encodeUtf8 (encodeVlq n)) ≠ .ok (n, (encodeUtf8 (encodeVlq n)).length)) ∧
    ∀ mappings, encodeMappings checks tokens = .ok mappings →
      ∀ t ∈ tokens, t.sourceId.isSome = true → ∀ (file other : Str) (names : List Str) (line : UInt32),
        line.toNat = t.dstLine.toNat + 1 →
        (applySourceMapJson checks (storedMap file names mappings) other line t.dstCol =
            .ok (some (file, t.srcLine + 1, t.srcCol + 1)) ↔ FoundAtOrigin tokens t) := by
  refine ⟨?_, fun n hn heq => ?_, fun mappings hmappings t ht _ file other names line hline => ?_⟩
  · constructor
    · rintro ⟨mappings, hmappings⟩
      exact ((encodeMappings_eq h).mp hmappings).1 rfl
    · intro hback
      exact ⟨_, (encodeMappings_eq h).mpr ⟨fun _ => hback, rfl⟩⟩
  · obtain ⟨m, i, hread, hlt⟩ := decodeVlq_encodeVlq checks hn
    have hbytes := length_le_encodeUtf8 (encodeVlq n)
    rw [hread, Except.ok.injEq, Prod.mk.injEq] at heq
    omega
  · obtain ⟨-, rfl⟩ := (encodeMappings_eq h).mp hmappings
    rw [applySourceMapJson_spec checks file names (lists_generatedLines h (List.ne_nil_of_mem ht)), Prod.mk.injEq, hline]
    simp only [UInt32.add_eq_right, List.getElem?_map, Option.map_eq_some_iff]
    constructor
    · rintro ⟨⟨hrow, hcol⟩, k, ns, hk, ⟨tokensOfLine, hget, rfl⟩, hreach⟩
      obtain rfl : k = t.dstLine.toNat := by omega
      exact ⟨hrow, hcol, tokensOfLine, hget, hreach⟩
    · rintro ⟨hrow, hcol, tokensOfLine, hget, hreach⟩
      exact ⟨⟨hrow, hcol⟩, _, _, rfl, ⟨tokensOfLine, hget, rfl⟩, hreach⟩

theorem stored_map_of_two :
    let tokens : List Token := [⟨0, 0, some 0, 0, 0⟩, ⟨0, 4, some 0, 0, 4⟩]
    ((∃ mappings, encodeMappings true tokens = .ok mappings) ↔ NeverBack tokens) ∧
    (∀ n : Int, n.natAbs < 2 ^ 31 →
      decodeVlq true (encodeUtf8 (encodeVlq n)) ≠ .ok (n, (encodeUtf8 (encodeVlq n)).length)) ∧
    ∀ mappings, encodeMappings true tokens = .ok mappings →
      ∀ t ∈ tokens, t.sourceId.isSome = true → ∀ (file other : Str) (names : List Str) (line : UInt32),
        line.toNat = t.dstLine.toNat + 1 →
        (applySourceMapJson true (storedMap file names mappings) other line t.dstCol =
            .ok (some (file, t.srcLine + 1, t.srcCol + 1)) ↔ FoundAtOrigin tokens t) :=
  stored_map_iff true (by unfold Generated; decide)

/-- The second of two tokens is not found, a column that goes down panics, and zero is not read back. -/
theorem second_token_lost :
    let tokens : List Token := [⟨0, 0, some 0, 0, 0⟩, ⟨0, 4, some 0, 0, 4⟩]
    let down : List Token := [⟨0, 0, some 0, 0, 5⟩, ⟨0, 4, some 0, 1, 0⟩]
    (encodeMappings true down).toOption = none ∧
    ((encodeMappings true tokens).toOption.bind fun mappings =>
      (applySourceMapJson true (storedMap "a.js".toList [] mappings) "a.js".toList 1 4).toOption) = some none ∧
    (decodeVlq true (encodeUtf8 (encodeVlq 0))).toOption = some (0, 0) ∧ (encodeUtf8 (encodeVlq 0)).length = 1 ∧
    ¬ ∀ tokens, Generated tokens → ∃ mappings, encodeMappings true tokens = .ok mappings ∧
      ∀ t ∈ tokens, t.sourceId.isSome = true → ∀ (file other : Str) (names : List Str) (line : UInt32),
        line.toNat = t.dstLine.toNat + 1 →
        applySourceMapJson true (storedMap file names mappings) other line t.dstCol =
          .ok (some (file, t.srcLine + 1, t.srcCol + 1)) := by
  have hdown : (encodeMappings true [⟨0, 0, some 0, 0, 5⟩, ⟨0, 4, some 0, 1, 0⟩]).toOption = none := by decide +kernel
  refine ⟨hdown, by decide +kernel, by decide +kernel, by decide +kernel, fun hall => ?_⟩
  obtain ⟨mappings, hmappings, -⟩ := hall [⟨0, 0, some 0, 0, 5⟩, ⟨0, 4, some 0, 1, 0⟩] (by unfold Generated; decide)
  rw [hmappings] at hdown
  cases hdown

end SourceMaps

/-! ## Codecs of buffers -/

namespace Buffer

/-- Every name stands for a codec that gives back what its encoding represents, except those of UTF-16 on a surrogate
without its other half. Five names are onto the byte strings, and every number is read as it was written. -/
theorem codecs_inverse_iff (enc : Str) (hname : isEncoding enc = true) :
    (∀ s, Represents enc s → (Inverse enc s ↔ (Utf16Name enc → ∃ text, units text = s))) ∧
      (BytesName enc → ∀ bytes, fromString (toString bytes enc) enc = bytes) ∧
      ∀ (f : Format) (b : Bytes) (o : Nat) (v : Int), o + f.width ≤ b.length → f.InRange v →
        f.read (f.write b v o).1 o = v := by
  refine ⟨fun s hs => ?_, fromString_toString, fun f b o v h hv => read_write f h hv⟩
  by_cases hutf16 : Utf16Name enc
  · rw [utf16_inverse_iff hname hutf16 hs]
    exact ⟨fun h _ => h, fun h => h hutf16⟩
  · exact ⟨fun _ h => absurd h hutf16, fun _ => inverse_of_represents hname hutf16 hs⟩

theorem accented_bytes : fromString (units "hé".toList) "UCS-2".toList = [0x68, 0xC3, 0xA9] ∧
    Inverse "UCS-2".toList (units "hé".toList) :=
  ⟨by decide +kernel, ((codecs_inverse_iff "UCS-2".toList (by decide)).1 (units "hé".toList) (by
    rw [Represents, if_pos (by decide)]
    decide)).mpr fun _ => ⟨_, rfl⟩⟩

theorem lone_surrogate_replaced : isEncoding "utf16le".toList = true ∧ Represents "utf16le".toList [0xD800] ∧
    toString (fromString [0xD800] "utf16le".toList) "utf16le".toList = [0xFFFD] ∧
    ¬ ∀ enc s, isEncoding enc = true → Represents enc s → Inverse enc s := by
  have hrepresents : Represents "utf16le".toList [0xD800] := by
    rw [Represents, if_pos (by decide)]
    decide
  have hback : toString (fromString [0xD800] "utf16le".toList) "utf16le".toList = [0xFFFD] := by decide +kernel
  refine ⟨by decide, hrepresents, hback, fun hall => ?_⟩
  have hinverse := (hall "utf16le".toList [0xD800] (by decide) hrepresents).back
  rw [hback] at hinverse
  revert hinverse
  decide

end Buffer

/-! ## The pool of sockets -/

namespace WebSocket

variable {ω : Type}

/-- For any threads and sockets: unless a script replaces the constructor of errors by one that calls the natives, no
thread asks for the lock that it holds, every call goes on to its end, and `__wsRecv` keeps the pool, exactly if no call
reads a close frame or an error. -/
theorem pool_lawful_iff (pool : Pool ω) (nextId : Id) (run : List (Thread × Action ω)) (s : State ω)
    (hunnested : Runs.Along State.step State.Unnested (.start pool nextId) run)
    (hrun : Runs.exec State.step (.start pool nextId) run = some s) :
    Runs.Along State.step Ordinary (.start pool nextId) run ↔
      ∀ pre, pre <+: run → ∀ s', Runs.exec State.step (.start pool nextId) pre = some s' → Lawful s' :=
  ordinary_iff_lawful hunnested hrun

instance (s : State ω) : (x : Thread × Action ω) → Decidable (State.Unnested s x)
  | (_, .call _) => inferInstanceAs (Decidable (_ = []))
  | (_, .connected _) | (_, .refused _) | (_, .acquire) | (_, .sent _) | (_, .read _) | (_, .collect _) | (_, .wake _)
  | (_, .leave) => .isTrue trivial

instance (s : State ω) (x : Thread × Action ω) : Decidable (Ordinary s x) := inferInstanceAs (Decidable (_ = true))

/-- A socket, and a call that waits for a frame on it. -/
def listening : List (Thread × Action Unit) :=
  [(0, .call .wsConnect), (0, .connected ()), (0, .acquire), (0, .leave), (0, .call (.wsRecv 0)), (0, .acquire)]

/-- Another thread shuts the pool down while the first one reads. -/
def shutDown : List (Thread × Action Unit) :=
  listening ++ [(1, .call .drainWsPool), (0, .read (.ok .ping)), (0, .read (.ok (.text ['a']))), (1, .acquire),
    (1, .collect [0]), (1, .wake false), (1, .acquire), (1, .leave), (1, .wake false), (1, .acquire), (1, .leave)]

def closedByPeer : List (Thread × Action Unit) := listening ++ [(0, .read (.ok .close))]

theorem shutDown_lawful : ∃ s, Runs.exec State.step (.start .empty 0) shutDown = some s ∧ Lawful s := by
  obtain ⟨s, hs⟩ := Option.isSome_iff_exists.mp
    (show (Runs.exec State.step (.start .empty 0) shutDown).isSome = true by decide)
  have hlawful := (pool_lawful_iff .empty 0 shutDown s (by decide) hs).mp (by decide +kernel)
  exact ⟨s, hs, hlawful shutDown (List.prefix_refl _) s hs⟩

theorem closedByPeer_locked : Runs.Along State.step State.Unnested (.start .empty 0) closedByPeer ∧
    (∃ s, Runs.exec State.step (.start .empty 0) closedByPeer = some s ∧ s.Locking 0 ∧ s.holder = some 0) ∧
    ¬ ∀ (pool : Pool Unit) nextId run s, Runs.Along State.step State.Unnested (.start pool nextId) run →
      Runs.exec State.step (.start pool nextId) run = some s → Lawful s := by
  have hunnested : Runs.Along State.step State.Unnested (.start .empty 0) closedByPeer := by decide
  have hlocked : ∃ s, Runs.exec State.step (.start .empty 0) closedByPeer = some s ∧ s.Locking 0 ∧ s.holder = some 0 :=
    ⟨_, rfl, ⟨_, _, rfl⟩, rfl⟩
  refine ⟨hunnested, hlocked, fun hall => ?_⟩
  obtain ⟨s, hs, hlocking, hholder⟩ := hlocked
  exact (hall .empty 0 closedByPeer s hunnested hs).free 0 hlocking hholder

end WebSocket

/-! ## Exports patterns -/

namespace Exports

/-- The best key decides in every order of the keys exactly if no other key gets a path instead of it; every `*` of a
target that is a string stands for the part that was matched. -/
theorem exports_pattern_iff (isFile : Str → Bool) (exports : Entries Str Json) (subpath pkgDir : Str) :
    (FollowsNode isFile exports subpath pkgDir ↔ BestDecides isFile exports subpath pkgDir) ∧
      ∀ middle s, ∃ extension ∈ [[], ".json".toList], substituteExportsWildcard isFile middle pkgDir (.str s) =
        some (join pkgDir (trimDotSlash (middle.intercalate (s.splitOn '*'))) ++ extension) := by
  refine ⟨followsNode_iff, fun middle s => ?_⟩
  rw [← replaceStar_eq, substituteExportsWildcard]
  unfold substituteString
  simp only
  split
  · exact ⟨[], by simp, by rw [List.append_nil]⟩
  · split
    · exact ⟨_, by simp, rfl⟩
    · exact ⟨[], by simp, by rw [List.append_nil]⟩

def privateFeatures : Entries Str Json :=
  ⟨[("./features/*".toList, Json.text "./src/*.js"), ("./features/private/*".toList, .null)], by decide⟩

def prefixOnly : Entries Str Json := ⟨[("./a*".toList, Json.text "./src/a*.js")], by decide⟩

theorem private_subpath_resolved :
    resolveExportsPattern (fun _ => true) privateFeatures "./features/private/x".toList "/p".toList =
        some (some "/p/src/private/x.js".toList) ∧
      resolveExportsPattern (fun _ => true) prefixOnly "./a".toList "/p".toList = some (some "/p/src/a.js".toList) ∧
      ¬ ∀ isFile exports subpath pkgDir, FollowsNode isFile exports subpath pkgDir := by
  have hresolve : resolveExportsPattern (fun _ => true) privateFeatures "./features/private/x".toList "/p".toList =
      some (some "/p/src/private/x.js".toList) := by decide
  refine ⟨hresolve, by decide, fun hall => ?_⟩
  have hbest : BestMatch privateFeatures "./features/private/x".toList "./features/private/*".toList ['x'] .null := by
    refine ⟨by simp [privateFeatures], ⟨"./features/private/".toList, [], by decide, by decide, by decide, by decide⟩, ?_⟩
    intro key' middle' target' hmem hmatch
    simp only [privateFeatures, List.mem_cons, List.not_mem_nil, or_false, Prod.mk.injEq] at hmem
    rcases hmem with ⟨rfl, -⟩ | ⟨rfl, -⟩
    · exact .inl (by decide)
    · exact .inr (by decide)
  have hnone := (hall (fun _ => true) privateFeatures _ "/p".toList).best _ _ _ hbest
  rw [hresolve] at hnone
  cases hnone

end Exports

end ThreeVa.Js
