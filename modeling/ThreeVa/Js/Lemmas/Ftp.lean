import ThreeVa.Js.Ftp
import ThreeVa.Js.LineReader

/-!
# Which command a reply reaches
-/

namespace ThreeVa.Js
open Text

namespace Ftp

/-! ## Lines of a reply -/

section Lines

variable {line : Str} {text : Str} {code : Str}

theorem units_ascii (h : ∀ c ∈ line, c.toNat < 128) : units line = line.map Char.toNat := by
  induction line with
  | nil => rfl
  | cons c line ih =>
      have hc := h c List.mem_cons_self
      rw [units_cons, TextDecoder.fromCodePoint, if_pos (by omega), ih fun x hx => h x (List.mem_cons_of_mem _ hx)]
      rfl

theorem toNat_of_isDigit {c : Char} (h : c.isDigit = true) : 48 ≤ c.toNat ∧ c.toNat ≤ 57 := by
  simp only [Char.isDigit, Bool.and_eq_true, decide_eq_true_eq] at h
  exact ⟨UInt32.le_iff_toNat_le.mp h.1, UInt32.le_iff_toNat_le.mp h.2⟩

/-- A line that starts with a code and a separator is recognised. -/
theorem matchReply_line {sep : Char} (hcode : code.length = 3 ∧ ∀ c ∈ code, c.isDigit = true)
    (htext : ∀ c ∈ text, c.toNat < 128 ∧ c ≠ '\r' ∧ c ≠ '\n') (hsep : sep = ' ' ∨ sep = '-') :
    matchReply (units (code ++ sep :: text)) = some (units code, decide (sep = '-'), units text) := by
  obtain ⟨a, b, c, rfl⟩ : ∃ a b c, code = [a, b, c] := by
    match code, hcode.1 with
    | [a, b, c], _ => exact ⟨a, b, c, rfl⟩
  have hdigit : ∀ x ∈ [a, b, c], 48 ≤ x.toNat ∧ x.toNat ≤ 57 := fun x hx => toNat_of_isDigit (hcode.2 x hx)
  have hunits : units [a, b, c] = [a.toNat, b.toNat, c.toNat] :=
    units_ascii fun x hx => by
      have := hdigit x hx
      omega
  have htexts : units text = text.map Char.toNat := units_ascii fun x hx => (htext x hx).1
  have hsepUnits : units [sep] = [sep.toNat] := by
    rcases hsep with rfl | rfl <;> rfl
  have hline : units ([a, b, c] ++ sep :: text) = a.toNat :: b.toNat :: c.toNat :: sep.toNat :: units text := by
    show units ([a, b, c] ++ ([sep] ++ text)) = _
    rw [units_append, units_append, hunits, hsepUnits]
    rfl
  have hdigits : [a.toNat, b.toNat, c.toNat].all isDigit = true := by
    rw [List.all_eq_true]
    intro u hu
    obtain ⟨x, hx, rfl⟩ := List.mem_map.mp (show u ∈ [a, b, c].map Char.toNat from hu)
    have := hdigit x hx
    simpa [isDigit] using this
  have hends : (units text).any isLineTerminator = false := by
    rw [htexts, List.any_eq_false]
    intro u hu
    obtain ⟨x, hx, rfl⟩ := List.mem_map.mp hu
    obtain ⟨hascii, hcr, hlf⟩ := htext x hx
    have hcr' : x.toNat ≠ cr := fun h => hcr (Char.toNat_inj.mp h)
    have hlf' : x.toNat ≠ lf := fun h => hlf (Char.toNat_inj.mp h)
    simp [isLineTerminator, hcr', hlf']
    omega
  rw [hline, matchReply, hdigits, hends, hunits]
  rcases hsep with rfl | rfl <;> rfl

end Lines

namespace ServerReply

variable (r : ServerReply)

/-- The lines of the reply that are handled. -/
def heard : List Units := (r.lines.map units).filter (· ≠ [])

/-- No line before the last one looks like a last line. -/
def Clear : Prop := ∀ b ∈ r.before, ∀ l ∈ b.2, ∀ code text, matchReply (units l) ≠ some (code, false, text)

def lastLine : Units := units (r.code ++ ' ' :: r.text)

theorem matchReply_lastLine : matchReply r.lastLine = some (r.last.code, false, r.last.text) :=
  matchReply_line r.code_digits (r.texts_plain _ List.mem_cons_self) (.inl rfl)

theorem lastLine_ne_nil : r.lastLine ≠ [] := by
  intro h
  have := r.matchReply_lastLine
  rw [h] at this
  cases this

/-- The last line, after lines none of which looks like it. -/
theorem heard_eq (hclear : r.Clear) :
    ∃ init, r.heard = init ++ [r.lastLine] ∧ (∀ l ∈ init, ∀ code text, matchReply l ≠ some (code, false, text)) ∧
      (init = [] ∨ ∃ first rest, init = units (r.code ++ '-' :: first) :: rest ∧
        matchReply (units (r.code ++ '-' :: first)) = some (r.last.code, true, units first)) := by
  have hlast := r.lastLine_ne_nil
  unfold heard lines
  cases hbefore : r.before with
  | none =>
      refine ⟨[], ?_, fun l hl => absurd hl List.not_mem_nil, .inl rfl⟩
      show [r.lastLine].filter _ = _
      rw [List.filter_cons_of_pos (by simpa using hlast)]
      rfl
  | some b =>
      obtain ⟨first, inner⟩ := b
      have hfirst : matchReply (units (r.code ++ '-' :: first)) = some (r.last.code, true, units first) := by
        have htexts := r.texts_plain first (by rw [hbefore]; exact List.mem_cons_of_mem _ List.mem_cons_self)
        exact matchReply_line r.code_digits htexts (.inr rfl)
      have hne : units (r.code ++ '-' :: first) ≠ [] := by
        intro h
        rw [h] at hfirst
        cases hfirst
      refine ⟨units (r.code ++ '-' :: first) :: (inner.map units).filter (· ≠ []), ?_, ?_, .inr ⟨_, _, rfl, hfirst⟩⟩
      · simp only [List.map_append, List.map_cons, List.map_nil, List.filter_append]
        rw [List.filter_cons_of_pos (by simpa using hne)]
        show _ ++ [r.lastLine].filter _ = _
        rw [List.filter_cons_of_pos (by simpa using hlast)]
        rfl
      · intro l hl code text
        rcases List.mem_cons.mp hl with rfl | hl
        · rw [hfirst]
          simp
        · obtain ⟨t, ht, rfl⟩ := List.mem_map.mp (List.mem_filter.mp hl).1
          exact hclear _ hbefore t ht code text

theorem lf_not_mem_lines : ∀ line ∈ r.lines, '\n' ∉ line := by
  have hcode : '\n' ∉ r.code := fun h => absurd (r.code_digits.2 _ h) (by decide)
  have htext : ∀ t ∈ r.text :: (r.before.elim [] fun b => b.1 :: b.2), '\n' ∉ t :=
    fun t ht h => (r.texts_plain t ht _ h).2.2 rfl
  have hjoin : ∀ sep t, sep ≠ '\n' → '\n' ∉ t → '\n' ∉ r.code ++ sep :: t := by
    intro sep t hsep ht h
    rcases List.mem_append.mp h with h | h
    · exact hcode h
    · rcases List.mem_cons.mp h with h | h
      · exact hsep h.symm
      · exact ht h
  intro line hline
  unfold lines at hline
  cases hbefore : r.before with
  | none =>
      simp only [hbefore, List.mem_singleton] at hline
      exact hline ▸ hjoin _ _ (by decide) (htext _ List.mem_cons_self)
  | some b =>
      rw [hbefore] at htext
      simp only [hbefore, List.cons_append, List.mem_cons, List.mem_append, List.not_mem_nil, or_false] at hline
      rcases hline with rfl | hline | rfl
      · exact hjoin _ _ (by decide) (htext _ (by simp))
      · exact htext _ (by simp [hline])
      · exact hjoin _ _ (by decide) (htext _ List.mem_cons_self)

end ServerReply

namespace Session

variable {s s' : Session} {lines : List Units}

/-! ## The control stream -/

/-- The lines that the client has still to handle: of the last chunk, and of what it has not read. -/
def Streams (s : Session) (lines : List Units) : Prop :=
  s.reader.Reached ∧ ∃ reader ls, s.reader.feed s.wire = (reader, .ok ls) ∧ reader.Plain ∧ reader.AtLine ∧
    lines = s.toHandle ++ ls

theorem streams_new : Streams .new [] :=
  ⟨LineReader.reached_new, _, _, LineReader.new_feed_nil, LineReader.plain_new, LineReader.atLine_new, rfl⟩

theorem Streams.congr (h : Streams s lines) (hreader : s'.reader = s.reader) (hhandle : s'.toHandle = s.toHandle)
    (hwire : s'.wire = s.wire) : Streams s' lines := by
  unfold Streams at h ⊢
  rwa [hreader, hhandle, hwire]

theorem Streams.answer (h : Streams s lines) (r : ServerReply) :
    Streams { s with wire := s.wire ++ sendLines r.lines } (lines ++ r.heard) := by
  obtain ⟨hreached, reader, ls, hfeed, hplain, hline, rfl⟩ := h
  obtain ⟨_, _, reader', ls', hfeed', -, hmore, -, hall⟩ :=
    LineReader.feed_append hreached.plain s.wire (sendLines r.lines)
  obtain ⟨rfl, hls⟩ := Prod.mk.inj (hfeed.symm.trans hfeed')
  obtain rfl := Except.ok.inj hls
  obtain ⟨reader'', hsend, hplain'', hline''⟩ := LineReader.feed_sendLines hplain hline r.lf_not_mem_lines
  obtain ⟨rfl, hls'⟩ := Prod.mk.inj (hmore.symm.trans hsend)
  obtain rfl := Except.ok.inj hls'
  exact ⟨hreached, _, _, hall, hplain'', hline'', List.append_assoc ..⟩

/-- Reading a part of the stream, cut anywhere, changes nothing of what is to be handled. -/
theorem Streams.read (h : Streams s lines) (hdone : s.toHandle = []) {n : Nat} {reader : LineReader} {ls : List Units}
    (hread : s.reader.feed (s.wire.take n) = (reader, .ok ls)) :
    Streams { s with reader := reader, toHandle := ls, wire := s.wire.drop n } lines := by
  obtain ⟨hreached, reader', ls', hfeed, hplain, hline, rfl⟩ := h
  obtain ⟨_, _, hread', hreached'⟩ := hreached.feed (s.wire.take n)
  obtain ⟨rfl, -⟩ := Prod.mk.inj (hread.symm.trans hread')
  obtain ⟨_, _, _, rest, hfirst, -, hrest, -, hall⟩ :=
    LineReader.feed_append hreached.plain (s.wire.take n) (s.wire.drop n)
  obtain ⟨rfl, hls⟩ := Prod.mk.inj (hread.symm.trans hfirst)
  obtain rfl := Except.ok.inj hls
  rw [List.take_append_drop] at hall
  obtain ⟨rfl, hls'⟩ := Prod.mk.inj (hfeed.symm.trans hall)
  obtain rfl := Except.ok.inj hls'
  exact ⟨hreached', _, rest, hrest, hplain, hline, by rw [hdone]; rfl⟩

theorem Streams.handle {line : Units} {rest : List Units} (h : Streams s lines) (hhandle : s.toHandle = line :: rest) :
    ∃ lines', lines = line :: lines' ∧ Streams { s with toHandle := rest } lines' := by
  obtain ⟨hreached, reader, ls, hfeed, hplain, hline, rfl⟩ := h
  exact ⟨rest ++ ls, by rw [hhandle]; rfl, hreached, _, _, hfeed, hplain, hline, rfl⟩

theorem Streams.nil (h : Streams s lines) (hhandle : s.toHandle = []) (hwire : s.wire = []) : lines = [] := by
  obtain ⟨hreached, reader, ls, hfeed, -, -, rfl⟩ := h
  rw [hwire, hreached.feed_nil] at hfeed
  rw [hhandle, ← Except.ok.inj (Prod.mk.inj hfeed).2]
  rfl

/-! ## What a callback does -/

/-- It hands its outcome or a failure on, or it sends the next command, or it reads the data. -/
inductive Resumed (s : Session) (call : Nat) (cont : Cont) (out : Outcome) : Session → Prop
  | handed (early : Option Reply) (out' : Outcome) (hout : out' = out ∨ ∃ why, out' = .failed why) :
      Resumed s call cont out { s with early := early, called := s.called ++ [(call, out')] }
  | sent (cont' : Cont) (cmd : Units) (hstart : cont ≠ .start) (hfinish : cont' ≠ .finish) :
      Resumed s call cont out
        { s with early := none, pending := some ⟨call, cont'⟩, owed := s.owed ++ [⟨call, cmd, dueOf cont'⟩] }
  | reads (hstart : cont = .start) (hok : out.isErr = false) :
      Resumed s call cont out { s with reading := s.reading ++ [call] }

section Resume

variable {env : Env} {call : Nat} {cont cont' : Cont} {out out' : Outcome} {cmd : Units}

theorem callback_resumed (hout : out' = out ∨ ∃ why, out' = .failed why) :
    Resumed s call cont out (s.callback call out') := .handed s.early out' hout

theorem sendAwait_resumed (hs : s.pending = none) (hstart : cont ≠ .start) (hfinish : cont' ≠ .finish) :
    Resumed s call cont out (s.sendAwait env call cont' cmd) := by
  unfold sendAwait
  split
  · exact .sent cont' cmd hstart hfinish
  · have heq : ({ s with early := none, pending := none } : Session) = { s with early := none } := by rw [← hs]
    show Resumed s call cont out ({ s with early := none, pending := none }.callback call (.failed .notSent))
    rw [heq]
    exact .handed none (.failed .notSent) (.inr ⟨_, rfl⟩)

theorem resume_resumed (env : Env) (call : Nat) (cont : Cont) (out : Outcome) (hs : s.pending = none) :
    Resumed s call cont out (s.resume env call cont out) := by
  cases out with
  | failed why => cases cont <;> exact callback_resumed (.inl rfl)
  | reply r =>
      cases cont with
      | reply => exact callback_resumed (.inl rfl)
      | finish => exact callback_resumed (.inl rfl)
      | user password =>
          simp only [resume]
          split
          · exact callback_resumed (.inl rfl)
          · exact sendAwait_resumed hs (by simp) (by simp)
      | rnfr toPath =>
          simp only [resume]
          split
          · exact callback_resumed (.inl rfl)
          · exact sendAwait_resumed hs (by simp) (by simp)
      | pasv cmd =>
          simp only [resume]
          split
          · exact callback_resumed (.inl rfl)
          · split
            · exact sendAwait_resumed hs (by simp) (by simp)
            · exact callback_resumed (.inr ⟨_, rfl⟩)
      | start =>
          simp only [resume]
          split
          · exact callback_resumed (.inl rfl)
          · rename_i hok
            exact .reads rfl (by simpa [Outcome.isErr] using hok)

/-- A failure is handed on by every callback. -/
theorem resume_failed (s : Session) (env : Env) (call : Nat) (cont : Cont) (why : Failure) :
    s.resume env call cont (.failed why) = s.callback call (.failed why) := by
  cases cont <;> rfl

/-- The callback of a start that fails is called. -/
theorem resume_start_error {r : Reply} (h : r.isError = true) :
    s.resume env call .start (.reply r) = s.callback call (.reply r) := if_pos h

end Resume

/-! ## Where a command is -/

/-- What the server owes once a command with this callback was sent. -/
def expects : Cont → Due
  | .start => .transfer
  | .finish => .final
  | _ => .single

theorem dueOf_eq {cont : Cont} (h : cont ≠ .finish) : dueOf cont = expects cont := by
  cases cont <;> first | rfl | exact absurd rfl h

def Fits (r : ServerReply) : Due → Prop
  | .single => True
  | .transfer => r.last.isError = true
  | .final => r.endsTransfer = true

/-- The rest of a reply, with its last line. -/
def Rest (r : ServerReply) (lines : List Units) : Prop := r.Clear ∧ lines ≠ [] ∧ lines <:+ r.heard

/-- Nothing of the reply was handled. -/
inductive Fresh (s : Session) (call : Nat) (due : Due) : List Units → Prop
  | owed (cmd : Units) (howed : s.owed = [⟨call, cmd, due⟩]) : Fresh s call due []
  | sent (r : ServerReply) (howed : s.owed = []) (hans : s.answered call = some r.last) (hfits : Fits r due)
      (hclear : r.Clear) : Fresh s call due r.heard

/-- Where the only command under way is, with the lines that are still to be handled. -/
inductive Phase (s : Session) (lines : List Units) : Prop
  /-- Nothing waits; what comes is the reply to a command that was given up. -/
  | free (hpending : s.pending = none) (hreading : s.reading = [])
  | asked (call : Nat) (cont : Cont) (hpending : s.pending = some ⟨call, cont⟩) (hreading : s.reading = [])
      (hearly : s.early = none) (hfresh : Fresh s call (expects cont) lines)
  /-- A part of the reply was handled. -/
  | told (call : Nat) (cont : Cont) (r : ServerReply) (hpending : s.pending = some ⟨call, cont⟩)
      (hreading : s.reading = []) (hearly : s.early = none) (howed : s.owed = []) (hans : s.answered call = some r.last)
      (hfits : Fits r (expects cont)) (hrest : Rest r lines)
  /-- The preliminary reply comes, and what the server owes after it. -/
  | started (call : Nat) (r : ServerReply) (ls after : List Units) (hpending : s.pending = some ⟨call, .start⟩)
      (hreading : s.reading = []) (hearly : s.early = none) (hpre : r.preliminary = true) (hrest : Rest r ls)
      (hfresh : Fresh s call .final after) (hlines : lines = ls ++ after)
  | reads (call : Nat) (hpending : s.pending = none) (hreading : s.reading = [call]) (hearly : s.early = none)
      (hfresh : Fresh s call .final lines)
  /-- The data is still read, and the first lines of the final reply were handled. -/
  | between (call : Nat) (r : ServerReply) (hpending : s.pending = none) (hreading : s.reading = [call])
      (hearly : s.early ≠ none) (howed : s.owed = []) (hans : s.answered call = some r.last) (hends : r.endsTransfer = true)
      (hrest : Rest r lines)
  | ended (call : Nat) (r : ServerReply) (hpending : s.pending = none) (hreading : s.reading = [call])
      (hearly : s.early = some r.last) (howed : s.owed = []) (hans : s.answered call = some r.last) (hlines : lines = [])

theorem Fresh.congr {call : Nat} {due : Due} (h : Fresh s call due lines) (howed : s'.owed = s.owed)
    (hans : s'.answered = s.answered) : Fresh s' call due lines := by
  cases h with
  | owed cmd ho => exact .owed cmd (howed.trans ho)
  | sent r ho ha hfits hclear => exact .sent r (howed.trans ho) (by rw [hans, ha]) hfits hclear

theorem Phase.congr (h : Phase s lines) (hpending : s'.pending = s.pending) (hreading : s'.reading = s.reading)
    (hearly : s'.early = s.early) (howed : s'.owed = s.owed) (hans : s'.answered = s.answered) : Phase s' lines := by
  cases h with
  | free hp hr => exact .free (hpending.trans hp) (hreading.trans hr)
  | asked call cont hp hr he hfresh =>
      exact .asked call cont (hpending.trans hp) (hreading.trans hr) (hearly.trans he) (hfresh.congr howed hans)
  | told call cont r hp hr he ho ha hfits hrest =>
      exact .told call cont r (hpending.trans hp) (hreading.trans hr) (hearly.trans he) (howed.trans ho) (by rw [hans, ha])
        hfits hrest
  | started call r ls after hp hr he hpre hrest hfresh hlines =>
      exact .started call r ls after (hpending.trans hp) (hreading.trans hr) (hearly.trans he) hpre hrest
        (hfresh.congr howed hans) hlines
  | reads call hp hr he hfresh =>
      exact .reads call (hpending.trans hp) (hreading.trans hr) (hearly.trans he) (hfresh.congr howed hans)
  | between call r hp hr he ho ha hends hrest =>
      exact .between call r (hpending.trans hp) (hreading.trans hr) (hearly ▸ he) (howed.trans ho) (by rw [hans, ha]) hends
        hrest
  | ended call r hp hr he ho ha hlines =>
      exact .ended call r (hpending.trans hp) (hreading.trans hr) (hearly.trans he) (howed.trans ho) (by rw [hans, ha])
        hlines

/-- Replies are handed to the call they are for, and nothing more is owed to it. -/
def Right (s : Session) : Prop :=
  ∀ k r, (k, Outcome.reply r) ∈ s.called ++ s.deferred → s.answered k = some r ∧ ∀ o ∈ s.owed, o.call ≠ k

/-- Each call is in one place. -/
def Accounted (s : Session) : Prop := ∀ k, s.accounts.count k = if k < s.calls then 1 else 0

def Inv (s : Session) : Prop := ∃ lines, Streams s lines ∧ Phase s lines ∧ Right s ∧ Accounted s

theorem Inv.paired (h : Inv s) : s.Paired := by
  obtain ⟨lines, -, -, hright, hcount⟩ := h
  exact ⟨fun k hk => by rw [hcount k, if_pos hk], fun k r hmem => hright k r (List.mem_append_left _ hmem)⟩

/-- Whether the client is connected is no part of it. -/
theorem Inv.disconnect (h : Inv s) : Inv { s with connected := false } := by
  obtain ⟨lines, hstreams, hphase, hright, hacc⟩ := h
  exact ⟨lines, hstreams.congr rfl rfl rfl, hphase.congr rfl rfl rfl rfl rfl, hright, hacc⟩

theorem inv_new : Inv .new :=
  ⟨[], streams_new, .free rfl rfl, fun _ _ h => absurd h List.not_mem_nil, fun _ => rfl⟩

/-! ## Lines that come -/

section Rest

variable {r : ServerReply} {line : Units} {rest : List Units}

theorem rest_heard (hclear : r.Clear) : Rest r r.heard := by
  obtain ⟨init, hinit, -⟩ := r.heard_eq hclear
  exact ⟨hclear, by rw [hinit]; simp, List.suffix_refl _⟩

/-- A line of a reply is the last one, or it does not look like it. -/
theorem Rest.cons (h : Rest r (line :: rest)) :
    line = r.lastLine ∧ rest = [] ∨ (∀ code text, matchReply line ≠ some (code, false, text)) ∧ Rest r rest := by
  obtain ⟨hclear, -, hsuffix⟩ := h
  obtain ⟨init, hinit, hlines, -⟩ := r.heard_eq hclear
  obtain ⟨pre, hpre⟩ := hsuffix
  rw [hinit] at hpre
  rcases List.eq_nil_or_concat' rest with rfl | ⟨rest', last, rfl⟩
  · exact .inl ⟨List.singleton_inj.mp (List.append_inj' hpre rfl).2, rfl⟩
  · rw [← List.cons_append, ← List.append_assoc] at hpre
    obtain ⟨hinit', hlast⟩ := List.append_inj' hpre rfl
    refine .inr ⟨hlines line ?_, hclear, by simp, ⟨pre ++ [line], ?_⟩⟩
    · rw [← hinit']
      simp
    · rw [hinit, ← hinit', ← hlast]
      simp

theorem Fresh.eq_nil_or {call : Nat} {due : Due} (h : Fresh s call due lines) :
    lines = [] ∨ ∃ r, s.owed = [] ∧ s.answered call = some r.last ∧ Fits r due ∧ r.Clear ∧ lines = r.heard := by
  cases h with
  | owed => exact .inl rfl
  | sent r howed hans hfits hclear => exact .inr ⟨r, howed, hans, hfits, hclear, rfl⟩

/-- A line that does not look like a last line is passed over while a command waits. -/
theorem handleLine_passed (env : Env) (hpending : s.pending.isSome = true)
    (hline : ∀ code text, matchReply line ≠ some (code, false, text)) : s.handleLine env line = s := by
  unfold handleLine
  cases hmatch : matchReply line with
  | none => rfl
  | some m =>
      obtain ⟨code, hyphen, text⟩ := m
      cases hyphen with
      | false => exact absurd hmatch (hline code text)
      | true => simp [Option.isNone_eq_false_iff.mpr hpending]

theorem handleLine_last (env : Env) {w : Waiting} (hpending : s.pending = some w) (r : ServerReply) :
    s.handleLine env r.lastLine = { s with pending := none }.resume env w.call w.cont (.reply r.last) := by
  unfold handleLine
  simp only [r.matchReply_lastLine, hpending, Option.isNone_some, Bool.false_eq_true, ↓reduceIte, resolvePending]

/-- While no command waits a line can only be kept for a transfer that ends later. -/
theorem handleLine_free (env : Env) (hpending : s.pending = none) (line : Units) :
    ∃ early, s.handleLine env line = { s with early := early } ∧ (s.early ≠ none → early ≠ none) := by
  unfold handleLine
  cases matchReply line with
  | none => exact ⟨s.early, rfl, id⟩
  | some m =>
      obtain ⟨code, hyphen, text⟩ := m
      simp only [hpending, Option.isNone_none, ↓reduceIte]
      split
      · exact ⟨_, rfl, fun _ => by simp⟩
      · exact ⟨s.early, by rw [← hpending], id⟩

theorem endsTransfer_kept {r : ServerReply} (h : r.endsTransfer = true) (text : Units) :
    r.last.code = units "226".toList ∨ r.last.code = units "250".toList ∨ Reply.isError ⟨r.last.code, text⟩ = true := by
  simp only [ServerReply.endsTransfer, Bool.or_eq_true, decide_eq_true_eq] at h
  rcases h with (h | h) | h
  · exact .inl (congrArg units h)
  · exact .inr (.inl (congrArg units h))
  · exact .inr (.inr h)

/-- A line with the code of the end of a transfer is kept. -/
theorem handleLine_kept (env : Env) (hpending : s.pending = none) {r : ServerReply} (hends : r.endsTransfer = true)
    {hyphen : Bool} {text : Units} (hline : matchReply line = some (r.last.code, hyphen, text)) :
    s.handleLine env line = { s with early := some ⟨r.last.code, text⟩ } := by
  unfold handleLine
  simp only [hline, hpending, Option.isNone_none, ↓reduceIte]
  rw [if_pos (endsTransfer_kept hends text), ← hpending]

end Rest

/-! ## Steps -/

section Steps

variable {call : Nat} {cont : Cont} {out : Outcome} {env : Env}

theorem Right.congr (h : Right s) (hcalled : ∀ k r, (k, Outcome.reply r) ∈ s'.called ++ s'.deferred →
    (k, Outcome.reply r) ∈ s.called ++ s.deferred) (hans : s'.answered = s.answered)
    (howed : ∀ o ∈ s'.owed, o ∈ s.owed) : Right s' := by
  intro k r hmem
  obtain ⟨hk, ho⟩ := h k r (hcalled k r hmem)
  exact ⟨by rw [hans, hk], fun o hmem => ho o (howed o hmem)⟩

/-- A call that waits has not been called back. -/
theorem Accounted.not_called (h : Accounted s) (hpending : s.pending = some ⟨call, cont⟩) :
    ∀ out, (call, out) ∉ s.called ++ s.deferred := by
  intro out hmem
  have hcount := h call
  have hpos : 0 < ((s.called ++ s.deferred).map Prod.fst).count call :=
    List.count_pos_iff.mpr (List.mem_map.mpr ⟨_, hmem, rfl⟩)
  simp only [accounts, hpending, Option.toList_some, List.map_cons, List.map_nil, List.count_append,
    List.count_singleton_self, List.map_append] at hcount hpos
  split at hcount <;> omega

theorem Accounted.lt (h : Accounted s) (hpending : s.pending = some ⟨call, cont⟩) : call < s.calls := by
  have hcount := h call
  simp only [accounts, hpending, Option.toList_some, List.map_cons, List.map_nil, List.count_append,
    List.count_singleton_self] at hcount
  by_contra hlt
  rw [if_neg hlt] at hcount
  omega

theorem Accounted.handed (h : Accounted s) (hpending : s.pending = some ⟨call, cont⟩) (early : Option Reply)
    (out : Outcome) :
    Accounted { s with pending := none, early := early, called := s.called ++ [(call, out)] } := by
  intro k
  have hcount := h k
  simp only [accounts, hpending, Option.toList_some, Option.toList_none, List.map_cons, List.map_nil, List.count_append,
    List.map_append, List.count_nil] at hcount ⊢
  omega

theorem Accounted.moved (h : Accounted s) (hpending : s.pending = some ⟨call, cont⟩) (cont' : Cont) (early : Option Reply)
    (owed : List Owed) :
    Accounted { s with early := early, pending := some ⟨call, cont'⟩, owed := owed } := by
  intro k
  have hcount := h k
  simp only [accounts, hpending, Option.toList_some, List.map_cons, List.map_nil, List.count_append] at hcount ⊢
  exact hcount

theorem Accounted.read (h : Accounted s) (hpending : s.pending = some ⟨call, cont⟩) :
    Accounted { s with pending := none, reading := s.reading ++ [call] } := by
  intro k
  have hcount := h k
  simp only [accounts, hpending, Option.toList_some, Option.toList_none, List.map_cons, List.map_nil, List.count_append,
    List.count_nil] at hcount ⊢
  omega

/-- The last line of the reply to the command that waits was handled. -/
theorem inv_told {r : ServerReply} (env : Env) (hstreams : Streams s []) (hpending : s.pending = some ⟨call, cont⟩)
    (hreading : s.reading = []) (howed : s.owed = []) (hans : s.answered call = some r.last)
    (hfits : Fits r (expects cont)) (hright : Right s) (hacc : Accounted s) :
    Inv ({ s with pending := none }.resume env call cont (.reply r.last)) := by
  have hres := resume_resumed (s := { s with pending := none }) env call cont (.reply r.last) rfl
  generalize resume _ _ _ _ _ = s' at hres
  cases hres with
  | handed early out' hout =>
      refine ⟨[], hstreams.congr rfl rfl rfl, .free rfl hreading, ?_, hacc.handed hpending early out'⟩
      intro k r' hmem
      rcases List.mem_append.mp hmem with hmem | hmem
      · rcases List.mem_append.mp hmem with hmem | hmem
        · exact hright k r' (List.mem_append_left _ hmem)
        · obtain ⟨rfl, rfl⟩ := Prod.mk.inj (List.mem_singleton.mp hmem)
          rcases hout with hout | ⟨why, hout⟩
          · obtain rfl := Outcome.reply.inj hout
            exact ⟨hans, by simp [howed]⟩
          · cases hout
      · exact hright k r' (List.mem_append_right _ hmem)
  | sent cont' cmd hstart hfinish =>
      refine ⟨[], hstreams.congr rfl rfl rfl,
        .asked call cont' rfl hreading rfl (.owed cmd ?_), ?_, hacc.moved hpending cont' none _⟩
      · show s.owed ++ _ = _
        rw [howed, dueOf_eq hfinish]
        rfl
      · intro k r' hmem
        obtain ⟨hk, -⟩ := hright k r' hmem
        refine ⟨hk, fun o ho => ?_⟩
        change o ∈ s.owed ++ _ at ho
        rw [howed] at ho
        rw [List.mem_singleton.mp ho]
        rintro rfl
        exact hacc.not_called hpending _ hmem
  | reads hstart hok =>
      subst hstart
      rw [Outcome.isErr, show r.last.isError = true from hfits] at hok
      cases hok

theorem isError_of_preliminary {r : ServerReply} (h : r.preliminary = true) : r.last.isError = false := by
  simp only [ServerReply.preliminary, decide_eq_true_eq] at h
  obtain ⟨rest, hcode⟩ := List.head?_eq_some_iff.mp h
  have hhead : r.last.code.head? = some 49 := by
    show (units r.code).head? = _
    rw [hcode]
    rfl
  simp [Reply.isError, hhead]

/-- The last line of the preliminary reply was handled. -/
theorem inv_started {r : ServerReply} (env : Env) (hstreams : Streams s lines) (hpending : s.pending = some ⟨call, .start⟩)
    (hreading : s.reading = []) (hearly : s.early = none) (hpre : r.preliminary = true)
    (hfresh : Fresh s call .final lines) (hright : Right s) (hacc : Accounted s) :
    Inv ({ s with pending := none }.resume env call .start (.reply r.last)) := by
  have hresume : { s with pending := none }.resume env call .start (.reply r.last) =
      { s with pending := none, reading := s.reading ++ [call] } :=
    if_neg (by simp [isError_of_preliminary hpre])
  rw [hresume]
  refine ⟨lines, hstreams.congr rfl rfl rfl, .reads call rfl ?_ hearly (hfresh.congr rfl rfl), hright, hacc.read hpending⟩
  show s.reading ++ [call] = _
  rw [hreading]
  rfl

/-- The line is handled of a reply to a command that waits. -/
theorem inv_handle_told {r : ServerReply} {line : Units} (env : Env) (hstreams : Streams s lines)
    (hpending : s.pending = some ⟨call, cont⟩) (hreading : s.reading = []) (hearly : s.early = none) (howed : s.owed = [])
    (hans : s.answered call = some r.last) (hfits : Fits r (expects cont)) (hrest : Rest r (line :: lines))
    (hright : Right s) (hacc : Accounted s) : Inv (s.handleLine env line) := by
  rcases hrest.cons with ⟨rfl, rfl⟩ | ⟨hline, hrest⟩
  · rw [handleLine_last env hpending]
    exact inv_told env hstreams hpending hreading howed hans hfits hright hacc
  · rw [handleLine_passed env (by rw [hpending]; rfl) hline]
    exact ⟨lines, hstreams, .told call cont r hpending hreading hearly howed hans hfits hrest, hright, hacc⟩

/-- The first line of the reply that ends a transfer is handled before the data has ended. -/
theorem inv_handle_kept {r : ServerReply} {line : Units} (env : Env) (hstreams : Streams s lines)
    (hpending : s.pending = none) (hreading : s.reading = [call]) (howed : s.owed = [])
    (hans : s.answered call = some r.last) (hends : r.endsTransfer = true) (hclear : r.Clear)
    (hlines : line :: lines = r.heard) (hright : Right s) (hacc : Accounted s) : Inv (s.handleLine env line) := by
  obtain ⟨init, hinit, hquiet, hfirst⟩ := r.heard_eq hclear
  rcases hfirst with rfl | ⟨first, rest, rfl, hmatch⟩
  · rw [hinit] at hlines
    obtain ⟨rfl, rfl⟩ := List.cons.inj hlines
    rw [handleLine_kept env hpending hends r.matchReply_lastLine]
    exact ⟨[], hstreams.congr rfl rfl rfl, .ended call r hpending hreading rfl howed hans rfl, hright, hacc⟩
  · rw [hinit, List.cons_append] at hlines
    obtain ⟨rfl, rfl⟩ := List.cons.inj hlines
    rw [handleLine_kept env hpending hends hmatch]
    refine ⟨_, hstreams.congr rfl rfl rfl,
      .between call r hpending hreading (by simp) howed hans hends ⟨hclear, by simp, ?_⟩, hright, hacc⟩
    rw [hinit]
    exact List.suffix_cons _ _

/-- A later line of it. -/
theorem inv_handle_between {r : ServerReply} {line : Units} (env : Env) (hstreams : Streams s lines)
    (hpending : s.pending = none) (hreading : s.reading = [call]) (hearly : s.early ≠ none) (howed : s.owed = [])
    (hans : s.answered call = some r.last) (hends : r.endsTransfer = true) (hrest : Rest r (line :: lines))
    (hright : Right s) (hacc : Accounted s) : Inv (s.handleLine env line) := by
  rcases hrest.cons with ⟨rfl, rfl⟩ | ⟨-, hrest⟩
  · rw [handleLine_kept env hpending hends r.matchReply_lastLine]
    exact ⟨[], hstreams.congr rfl rfl rfl, .ended call r hpending hreading rfl howed hans rfl, hright, hacc⟩
  · obtain ⟨early, heq, hkeep⟩ := handleLine_free env hpending line
    rw [heq]
    exact ⟨lines, hstreams.congr rfl rfl rfl,
      .between call r hpending hreading (hkeep hearly) howed hans hends hrest, hright, hacc⟩

/-- A line of the preliminary reply is handled. -/
theorem inv_handle_started {r : ServerReply} {line : Units} {ls : List Units} (env : Env)
    (hstreams : Streams s (ls ++ lines)) (hpending : s.pending = some ⟨call, .start⟩) (hreading : s.reading = [])
    (hearly : s.early = none) (hpre : r.preliminary = true) (hrest : Rest r (line :: ls)) (hfresh : Fresh s call .final lines)
    (hright : Right s) (hacc : Accounted s) : Inv (s.handleLine env line) := by
  rcases hrest.cons with ⟨rfl, rfl⟩ | ⟨hline, hrest⟩
  · rw [handleLine_last env hpending]
    exact inv_started env hstreams hpending hreading hearly hpre hfresh hright hacc
  · rw [handleLine_passed env (by rw [hpending]; rfl) hline]
    exact ⟨_, hstreams, .started call r ls lines hpending hreading hearly hpre hrest hfresh rfl, hright, hacc⟩

theorem inv_handle {line : Units} {rest : List Units} (env : Env) (h : Inv s) (hhandle : s.toHandle = line :: rest) :
    Inv ({ s with toHandle := rest }.handleLine env line) := by
  obtain ⟨_, hall, hphase, hright, hacc⟩ := h
  obtain ⟨lines, rfl, hstreams⟩ := hall.handle hhandle
  cases hphase with
  | free hpending hreading =>
      obtain ⟨early, heq, -⟩ := handleLine_free (s := { s with toHandle := rest }) env hpending line
      rw [heq]
      exact ⟨lines, hstreams.congr rfl rfl rfl, .free hpending hreading, hright, hacc⟩
  | asked call cont hpending hreading hearly hfresh =>
      obtain hnil | ⟨r, howed, hans, hfits, hclear, hlines⟩ := hfresh.eq_nil_or
      · cases hnil
      · exact inv_handle_told env hstreams hpending hreading hearly howed hans hfits (hlines ▸ rest_heard hclear) hright hacc
  | told call cont r hpending hreading hearly howed hans hfits hrest =>
      exact inv_handle_told env hstreams hpending hreading hearly howed hans hfits hrest hright hacc
  | started call r ls after hpending hreading hearly hpre hrest hfresh hlines =>
      cases ls with
      | nil => exact absurd rfl hrest.2.1
      | cons line' ls =>
          obtain ⟨rfl, rfl⟩ := List.cons.inj hlines
          exact inv_handle_started env hstreams hpending hreading hearly hpre hrest (hfresh.congr rfl rfl) hright hacc
  | reads call hpending hreading hearly hfresh =>
      obtain hnil | ⟨r, howed, hans, hends, hclear, hlines⟩ := hfresh.eq_nil_or
      · cases hnil
      · exact inv_handle_kept env hstreams hpending hreading howed hans hends hclear hlines hright hacc
  | between call r hpending hreading hearly howed hans hends hrest =>
      exact inv_handle_between env hstreams hpending hreading hearly howed hans hends hrest hright hacc
  | ended call r hpending hreading hearly howed hans hlines => cases hlines

/-- The callback of the command that waits gets a failure. -/
theorem inv_failed (env : Env) (why : Failure) (h : Inv s) : Inv (s.resolvePending env (.failed why)) := by
  unfold resolvePending
  cases hpending : s.pending with
  | none => exact h
  | some w =>
      obtain ⟨lines, hstreams, hphase, hright, hacc⟩ := h
      obtain ⟨call, cont⟩ := w
      simp only [resume_failed]
      have hreading : s.reading = [] := by
        cases hphase <;> simp_all
      refine ⟨lines, hstreams.congr rfl rfl rfl, .free rfl hreading, ?_, hacc.handed hpending s.early _⟩
      refine hright.congr (fun k r hmem => ?_) rfl fun o ho => ho
      simp only [callback, List.mem_append, List.mem_singleton, Prod.mk.injEq, reduceCtorEq, and_false, or_false] at hmem
      exact List.mem_append.mpr hmem

/-! ## The server answers -/

theorem Right.answered (h : Right s) {o : Owed} (ho : o ∈ s.owed) (r : Reply) {owed : List Owed}
    (howed : ∀ o' ∈ owed, ∃ o ∈ s.owed, o'.call = o.call) (wire : Bytes) :
    Right { s with wire := wire, answered := Function.update s.answered o.call (some r), owed := owed } := by
  intro k r' hmem
  obtain ⟨hk, hnot⟩ := h k r' hmem
  refine ⟨?_, fun o' ho' heq => ?_⟩
  · show Function.update s.answered o.call (some r) k = _
    rw [Function.update_of_ne (fun heq => hnot o ho heq.symm), hk]
  · obtain ⟨o'', ho'', hcall⟩ := howed o' ho'
    exact hnot o'' ho'' (hcall.symm.trans heq)

/-- A server answers the first command it owes a reply: with the reply it owes, or with a preliminary one. -/
theorem answer_cases {r : ServerReply} (h : s.answer r = some s') :
    ∃ o owed owed', s.owed = o :: owed ∧
      s' = { s with
        wire := s.wire ++ sendLines r.lines
        answered := Function.update s.answered o.call (some r.last)
        owed := owed' } ∧
      (Fits r o.due ∧ owed' = owed ∨
        o.due = .transfer ∧ r.preliminary = true ∧ owed' = { o with due := .final } :: owed) := by
  unfold answer at h
  cases howed : s.owed with
  | nil =>
      rw [howed] at h
      cases h
  | cons o owed =>
      simp only [howed] at h
      cases hdue : o.due with
      | single =>
          simp only [hdue] at h
          split at h
          · cases h
          · obtain rfl := Option.some.inj h
            exact ⟨o, owed, owed, rfl, rfl, .inl ⟨hdue ▸ trivial, rfl⟩⟩
      | transfer =>
          simp only [hdue] at h
          split at h
          · rename_i hpre
            obtain rfl := Option.some.inj h
            exact ⟨o, owed, _, rfl, rfl, .inr ⟨hdue, hpre, rfl⟩⟩
          · split at h
            · rename_i herr
              obtain rfl := Option.some.inj h
              exact ⟨o, owed, owed, rfl, rfl, .inl ⟨hdue ▸ herr, rfl⟩⟩
            · cases h
      | final =>
          simp only [hdue] at h
          split at h
          · rename_i hends
            obtain rfl := Option.some.inj h
            exact ⟨o, owed, owed, rfl, rfl, .inl ⟨hdue ▸ hends, rfl⟩⟩
          · cases h

theorem Fresh.owes {due : Due} {o : Owed} {owed : List Owed} (h : Fresh s call due lines) (howed : s.owed = o :: owed) :
    lines = [] ∧ o.call = call ∧ o.due = due ∧ owed = [] := by
  cases h with
  | owed cmd ho =>
      rw [ho] at howed
      obtain ⟨rfl, rfl⟩ := List.cons.inj howed
      exact ⟨rfl, rfl, rfl, rfl⟩
  | sent r ho =>
      rw [ho] at howed
      cases howed

theorem inv_answer {r : ServerReply} (h : Inv s) (hclear : r.Clear) (hanswer : s.answer r = some s') : Inv s' := by
  obtain ⟨lines, hstreams, hphase, hright, hacc⟩ := h
  obtain ⟨o, owed, owed', howed, rfl, hcases⟩ := answer_cases hanswer
  have hcalls : ∀ o' ∈ owed', ∃ o ∈ s.owed, o'.call = o.call := by
    intro o' ho'
    rw [howed]
    rcases hcases with ⟨-, rfl⟩ | ⟨-, -, rfl⟩
    · exact ⟨o', List.mem_cons_of_mem _ ho', rfl⟩
    · rcases List.mem_cons.mp ho' with rfl | ho'
      · exact ⟨o, List.mem_cons_self, rfl⟩
      · exact ⟨o', List.mem_cons_of_mem _ ho', rfl⟩
  have hright' := hright.answered (howed ▸ List.mem_cons_self) r.last hcalls (s.wire ++ sendLines r.lines)
  refine ⟨lines ++ r.heard, (hstreams.answer r).congr rfl rfl rfl, ?_, hright', hacc⟩
  have hself : Function.update s.answered o.call (some r.last) o.call = some r.last := Function.update_self ..
  cases hphase with
  | free hpending hreading => exact .free hpending hreading
  | asked call cont hpending hreading hearly hfresh =>
      obtain ⟨rfl, rfl, hdue, rfl⟩ := hfresh.owes howed
      rw [List.nil_append]
      rcases hcases with ⟨hfits, rfl⟩ | ⟨hdue', hpre, rfl⟩
      · exact .asked o.call cont hpending hreading hearly (.sent r rfl hself (hdue ▸ hfits) hclear)
      · have hstart : cont = .start := by
          rw [hdue'] at hdue
          cases cont <;> first | rfl | cases hdue
        subst hstart
        exact .started o.call r r.heard [] hpending hreading hearly hpre (rest_heard hclear) (.owed o.cmd rfl)
          (List.append_nil _).symm
  | told call cont r' hpending hreading hearly howed' => simp [howed'] at howed
  | started call r' ls after hpending hreading hearly hpre hrest hfresh hlines =>
      obtain ⟨rfl, rfl, hdue, rfl⟩ := hfresh.owes howed
      subst hlines
      rcases hcases with ⟨hfits, rfl⟩ | ⟨hdue', -, -⟩
      · exact .started o.call r' ls r.heard hpending hreading hearly hpre hrest (.sent r rfl hself (hdue ▸ hfits) hclear)
          (by rw [List.append_nil])
      · rw [hdue'] at hdue
        cases hdue
  | reads call hpending hreading hearly hfresh =>
      obtain ⟨rfl, rfl, hdue, rfl⟩ := hfresh.owes howed
      rcases hcases with ⟨hfits, rfl⟩ | ⟨hdue', -, -⟩
      · exact .reads o.call hpending hreading hearly (.sent r rfl hself (hdue ▸ hfits) hclear)
      · rw [hdue'] at hdue
        cases hdue
  | between call r' hpending hreading hearly howed' => simp [howed'] at howed
  | ended call r' hpending hreading hearly howed' => simp [howed'] at howed

/-! ## Calls and data -/

theorem Phase.reading_eq (h : Phase s lines) (hmem : call ∈ s.reading) : s.reading = [call] ∧ s.pending = none := by
  cases h with
  | free hpending hreading | asked _ _ hpending hreading | told _ _ _ hpending hreading
  | started _ _ _ _ hpending hreading =>
      rw [hreading] at hmem
      cases hmem
  | reads _ hpending hreading | between _ _ hpending hreading | ended _ _ hpending hreading =>
      rw [hreading] at hmem
      rw [hreading, List.mem_singleton.mp hmem]
      exact ⟨rfl, hpending⟩

theorem inv_dataFails (h : Inv s) (hmem : call ∈ s.reading) :
    Inv ({ s with reading := s.reading.erase call }.callback call (.failed .noData)) := by
  obtain ⟨lines, hstreams, hphase, hright, hacc⟩ := h
  obtain ⟨hreading, hpending⟩ := hphase.reading_eq hmem
  have herase : s.reading.erase call = [] := by simp [hreading]
  refine ⟨lines, hstreams.congr rfl rfl rfl, .free hpending herase, ?_, fun k => ?_⟩
  · refine hright.congr (fun k r hmem => ?_) rfl fun o ho => ho
    simp only [callback, List.mem_append, List.mem_singleton, Prod.mk.injEq, reduceCtorEq, and_false, or_false] at hmem
    exact List.mem_append.mpr hmem
  · have hcount := hacc k
    simp only [accounts, callback, hreading, List.erase_cons_head, List.map_append, List.map_cons, List.map_nil,
      List.count_append, List.count_nil] at hcount ⊢
    omega

theorem inv_awaitTransferEnd (h : Inv s) (hgood : s.early = none ∨ s.toHandle = [] ∧ s.wire = []) (hmem : call ∈ s.reading) :
    Inv ({ s with reading := s.reading.erase call }.awaitTransferEnd call) := by
  obtain ⟨lines, hstreams, hphase, hright, hacc⟩ := h
  obtain ⟨hreading, hpending⟩ := hphase.reading_eq hmem
  have herase : s.reading.erase call = [] := by simp [hreading]
  unfold awaitTransferEnd
  cases hearly : s.early with
  | none =>
      -- the final reply is still to come
      have hfresh : Fresh s call .final lines := by
        cases hphase <;> simp_all
      simp only [awaitReply]
      refine ⟨lines, hstreams.congr rfl rfl rfl,
        .asked call .finish rfl herase rfl (hfresh.congr rfl rfl), hright, fun k => ?_⟩
      have hcount := hacc k
      simp only [accounts, hreading, hpending, List.erase_cons_head, Option.toList_some, Option.toList_none, List.map_cons,
        List.map_nil, List.count_append, List.count_nil] at hcount ⊢
      omega
  | some r =>
      -- it was kept, and all its lines were handled
      obtain ⟨hans, howed⟩ : s.answered call = some r ∧ s.owed = [] := by
        rcases hgood with hgood | ⟨hhandle, hwire⟩
        · rw [hearly] at hgood
          cases hgood
        · have hnil := hstreams.nil hhandle hwire
          cases hphase with
          | free _ hread | asked _ _ _ hread | told _ _ _ _ hread | started _ _ _ _ _ hread =>
              rw [hreading] at hread
              cases hread
          | reads _ _ _ hnone =>
              rw [hearly] at hnone
              cases hnone
          | between _ _ _ _ _ _ _ _ hrest => exact absurd hnil hrest.2.1
          | ended call' r' _ hread hsome howed hans =>
              rw [hreading] at hread
              obtain rfl := List.singleton_inj.mp hread
              rw [hearly] at hsome
              obtain rfl := Option.some.inj hsome
              exact ⟨hans, howed⟩
      refine ⟨lines, hstreams.congr rfl rfl rfl, .free hpending herase, ?_, fun k => ?_⟩
      · intro k r' hmem
        rw [← List.append_assoc] at hmem
        rcases List.mem_append.mp hmem with hmem | hmem
        · exact hright k r' hmem
        · obtain ⟨rfl, heq⟩ := Prod.mk.inj (List.mem_singleton.mp hmem)
          obtain rfl := Outcome.reply.inj heq
          exact ⟨hans, by simp [howed]⟩
      · have hcount := hacc k
        simp only [accounts, hreading, List.erase_cons_head, List.map_append, List.map_cons, List.map_nil,
          List.count_append, List.count_nil] at hcount ⊢
        omega

/-- A new call is not accounted for yet. -/
theorem Accounted.new (h : Accounted s) : s.accounts.count s.calls = 0 := by
  rw [h, if_neg (Nat.lt_irrefl _)]

theorem Accounted.called (h : Accounted s) (early : Option Reply) (out : Outcome) :
    Accounted { s with calls := s.calls + 1, early := early, called := s.called ++ [(s.calls, out)] } := by
  intro k
  have hcount := h k
  have hnew := h.new
  have hlt : k < s.calls + 1 ↔ k < s.calls ∨ k = s.calls := Nat.lt_succ_iff_lt_or_eq
  simp only [accounts, List.map_append, List.map_cons, List.map_nil, List.count_append, hlt] at hcount hnew ⊢
  by_cases hk : k = s.calls
  · subst hk
    simp only [List.count_singleton_self, or_true, ↓reduceIte]
    omega
  · rw [List.count_singleton, if_neg (by simpa using fun h => hk h.symm)]
    simp only [hk, or_false]
    omega

theorem Accounted.asked (h : Accounted s) (hpending : s.pending = none) (cont : Cont) (owed : List Owed) :
    Accounted { s with calls := s.calls + 1, early := none, pending := some ⟨s.calls, cont⟩, owed := owed } := by
  intro k
  have hcount := h k
  have hnew := h.new
  have hlt : k < s.calls + 1 ↔ k < s.calls ∨ k = s.calls := Nat.lt_succ_iff_lt_or_eq
  simp only [accounts, hpending, Option.toList_some, Option.toList_none, List.map_cons, List.map_nil, List.count_append,
    List.count_nil, hlt] at hcount hnew ⊢
  by_cases hk : k = s.calls
  · subst hk
    simp only [List.count_singleton_self, or_true, ↓reduceIte]
    omega
  · rw [List.count_singleton, if_neg (by simpa using fun h => hk h.symm)]
    simp only [hk, or_false]
    omega

/-- A call is made while nothing is under way. -/
theorem inv_sendAwait (h : Inv s) (hquiet : s.Quiet) (env : Env) (hcont : cont ≠ .finish) (cmd : Units) :
    Inv ({ s with calls := s.calls + 1 }.sendAwait env s.calls cont cmd) := by
  obtain ⟨lines, hstreams, -, hright, hacc⟩ := h
  obtain ⟨hpending, hreading, howed, hhandle, hwire⟩ := hquiet
  obtain rfl := hstreams.nil hhandle hwire
  have hnew : ∀ out, (s.calls, out) ∉ s.called ++ s.deferred := by
    intro out hmem
    have hzero := hacc.new
    have hpos : 0 < ((s.called ++ s.deferred).map Prod.fst).count s.calls :=
      List.count_pos_iff.mpr (List.mem_map.mpr ⟨_, hmem, rfl⟩)
    simp only [accounts, List.count_append, List.map_append] at hzero hpos
    omega
  unfold sendAwait
  split
  · refine ⟨[], hstreams.congr rfl rfl rfl, .asked s.calls cont rfl hreading rfl (.owed cmd ?_), ?_,
      hacc.asked hpending cont _⟩
    · show s.owed ++ _ = _
      rw [howed, dueOf_eq hcont]
      rfl
    · intro k r hmem
      refine ⟨(hright k r hmem).1, fun o ho => ?_⟩
      change o ∈ s.owed ++ _ at ho
      rw [howed] at ho
      rw [List.mem_singleton.mp ho]
      rintro rfl
      exact hnew _ hmem
  · have hacc' := hacc.called none (.failed .notSent)
    refine ⟨[], hstreams.congr rfl rfl rfl, .free rfl hreading, ?_, fun k => ?_⟩
    · refine hright.congr (fun k r hmem => ?_) rfl fun o ho => ho
      simp only [callback, List.mem_append, List.mem_singleton, Prod.mk.injEq, reduceCtorEq, and_false, or_false] at hmem
      exact List.mem_append.mpr hmem
    · have hcount := hacc' k
      simp only [accounts, hpending, callback] at hcount ⊢
      exact hcount

theorem inv_call (h : Inv s) (hgood : s.connected = true → s.Quiet) (env : Env) (m : Method) : Inv (s.call env m) := by
  unfold call
  by_cases hconn : s.connected = true
  · simp only [hconn, Bool.not_true, Bool.false_eq_true, ↓reduceIte]
    have hsend := fun cont (hcont : cont ≠ Cont.finish) cmd => inv_sendAwait h (hgood hconn) env hcont cmd
    rw [hconn] at hsend
    cases m with
    | plain cmd => exact hsend _ (by simp) _
    | login username password => exact hsend _ (by simp) _
    | rename fromPath toPath => exact hsend _ (by simp) _
    | transfer cmd => exact hsend _ (by simp) _
  · simp only [Bool.not_eq_true] at hconn
    simp only [hconn, Bool.not_false, ↓reduceIte]
    obtain ⟨lines, hstreams, hphase, hright, hacc⟩ := h
    refine ⟨lines, hstreams.congr rfl rfl rfl, hphase.congr rfl rfl rfl rfl rfl, ?_, fun k => ?_⟩
    · refine hright.congr (fun k r hmem => ?_) rfl fun o ho => ho
      simp only [callback, List.mem_append, List.mem_singleton, Prod.mk.injEq, reduceCtorEq, and_false, or_false] at hmem
      exact List.mem_append.mpr hmem
    · exact hacc.called s.early (.failed .notConnected) k

theorem inv_step {op : Op} (h : Inv s) (hgood : s.Good op) (hstep : s.step op = some s') : Inv s' := by
  cases op with
  | call env m =>
      obtain rfl := Option.some.inj hstep
      exact inv_call h hgood env m
  | answer r => exact inv_answer h hgood hstep
  | read n =>
      simp only [step] at hstep
      split at hstep
      · rename_i hread
        split at hstep
        · rename_i reader ls hfeed
          obtain rfl := Option.some.inj hstep
          obtain ⟨lines, hstreams, hphase, hright, hacc⟩ := h
          exact ⟨lines, hstreams.read hread.2.1 hfeed, hphase.congr rfl rfl rfl rfl rfl, hright, hacc⟩
        · cases hstep
      · cases hstep
  | handle env =>
      simp only [step] at hstep
      split at hstep
      · cases hstep
      · rename_i line lines hhandle
        obtain rfl := Option.some.inj hstep
        exact inv_handle env h hhandle
  | dataEnds call failed =>
      simp only [step] at hstep
      split at hstep
      · rename_i hmem
        obtain rfl := Option.some.inj hstep
        cases failed with
        | false => exact inv_awaitTransferEnd h hgood hmem
        | true => exact inv_dataFails h hmem
      · cases hstep
  | later =>
      simp only [step] at hstep
      split at hstep
      · rename_i call out deferred hhandle hdeferred
        obtain rfl := Option.some.inj hstep
        obtain ⟨lines, hstreams, hphase, hright, hacc⟩ := h
        refine ⟨lines, hstreams.congr rfl rfl rfl, hphase.congr rfl rfl rfl rfl rfl, ?_, fun k => ?_⟩
        · refine hright.congr (fun k r hmem => ?_) rfl fun o ho => ho
          rw [hdeferred]
          simpa [callback, or_assoc] using hmem
        · refine Eq.trans ?_ (hacc k)
          simp only [accounts, callback, hdeferred, List.map_append, List.map_cons, List.map_nil, List.count_append,
            List.count_cons, List.count_nil]
          omega
      · cases hstep
  | timeout env =>
      simp only [step] at hstep
      split at hstep
      · obtain rfl := Option.some.inj hstep
        exact inv_failed env .timedOut h
      · cases hstep
  | closed env =>
      simp only [step] at hstep
      split at hstep
      · obtain rfl := Option.some.inj hstep
        exact inv_failed env .closed (h.disconnect)
      · cases hstep
  | quit =>
      obtain rfl := Option.some.inj hstep
      exact h.disconnect

end Steps

end Session

end Ftp

end ThreeVa.Js
