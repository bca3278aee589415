import ThreeVa.Js.EventSource
import ThreeVa.Lib.Words

/-!
# Events that are read and delivered

What a server sends is read as the events that it sent, and a source holds what is not yet delivered of them.
-/

namespace ThreeVa.Js.EventSource
open Text

/-! ## Lines of a response -/

theorem rawLines_append {line : Bytes} (h : newline ∉ line) (rest : Bytes) :
    rawLines (line ++ newline :: rest) = (line ++ [newline]) :: rawLines rest := by
  induction line with
  | nil => simp [rawLines]
  | cons b line ih =>
      rw [List.mem_cons, not_or] at h
      obtain ⟨hb, hline⟩ := h
      rw [List.cons_append, rawLines, if_neg (Ne.symm hb), ih hline]
      rfl

theorem newline_not_mem {s : Str} (h : '\n' ∉ s) : newline ∉ encodeUtf8 s := by
  intro hmem
  obtain ⟨c, hc, hbyte⟩ := List.mem_flatMap.mp hmem
  have hnat : c.toNat = '\n'.toNat := toNat_of_mem_encodeChar (by decide) hbyte
  exact h (Char.toNat_inj.mp hnat ▸ hc)

/-- What stands before the line feed of a line. -/
def lineCr (crlf : Bool) : Str := if crlf then ['\r'] else []

theorem lineEnd_eq (crlf : Bool) : lineEnd crlf = lineCr crlf ++ ['\n'] := by cases crlf <;> rfl

theorem stripEnd_lineEnd {line : Str} (h : '\r' ∉ line) (crlf : Bool) : stripEnd (line ++ lineEnd crlf) = line := by
  have hlast : line.getLast? ≠ some '\r' := fun hlast => h (List.mem_of_getLast? hlast)
  cases crlf with
  | false => simp [stripEnd, lineEnd, hlast]
  | true =>
      have hassoc : line ++ lineEnd true = line ++ ['\r'] ++ ['\n'] := by simp [lineEnd]
      rw [hassoc, stripEnd, List.getLast?_concat, if_pos rfl, List.dropLast_concat, List.getLast?_concat, if_pos rfl,
        List.dropLast_concat]

/-- Written lines are the lines that are read. -/
theorem readerLines_write (crlf : Bool) {lines : List Str} (h : ∀ line ∈ lines, '\n' ∉ line ∧ '\r' ∉ line) :
    readerLines (encodeUtf8 (lines.flatMap fun line => line ++ lineEnd crlf)) = lines.map some := by
  induction lines with
  | nil => rfl
  | cons line lines ih =>
      obtain ⟨hfeed, hcr⟩ := h line List.mem_cons_self
      have hbody : '\n' ∉ line ++ lineCr crlf := by
        rw [List.mem_append, not_or]
        exact ⟨hfeed, by cases crlf <;> decide⟩
      have hsplit : encodeUtf8 ((line :: lines).flatMap fun line => line ++ lineEnd crlf) =
          encodeUtf8 (line ++ lineCr crlf) ++ newline :: encodeUtf8 (lines.flatMap fun line => line ++ lineEnd crlf) := by
        rw [List.flatMap_cons, encodeUtf8_append, lineEnd_eq, ← List.append_assoc, encodeUtf8_append, List.append_assoc]
        rfl
      have hraw : encodeUtf8 (line ++ lineCr crlf) ++ [newline] = encodeUtf8 (line ++ lineEnd crlf) := by
        rw [lineEnd_eq, ← List.append_assoc, encodeUtf8_append _ ['\n']]
        rfl
      rw [readerLines, hsplit, rawLines_append (newline_not_mem hbody), List.map_cons, hraw, decodeUtf8_encodeUtf8,
        Option.map_some, stripEnd_lineEnd hcr, List.map_cons]
      exact congrArg _ (ih fun l hl => h l (List.mem_cons_of_mem _ hl))

/-! ## Fields -/

theorem value_space (v : Str) : value (' ' :: v) = v := by simp [value]

theorem flatMap_splitOn {α : Type} [DecidableEq α] (c : α) (s : List α) :
    ((s.splitOn c).flatMap fun part => part ++ [c]) = s ++ [c] := by
  induction s with
  | nil => simp
  | cons x s ih =>
      rw [List.splitOn_cons_eq_if_modifyHead]
      split
      · rename_i hx
        rw [List.flatMap_cons, ih, eq_of_beq hx]
        rfl
      · cases hparts : s.splitOn c with
        | nil => exact absurd hparts (List.splitOn_ne_nil c s)
        | cons part parts =>
            rw [hparts] at ih
            rw [List.modifyHead_cons, List.flatMap_cons]
            exact congrArg (x :: ·) ih

namespace Parser

variable {p : Parser} {rest : List (Option Str)}

theorem line_data (p : Parser) (v : Str) : p.line ("data: ".toList ++ v) = ({ p with dataBuf := p.dataBuf ++ v ++ ['\n'] }, none) := by
  have hstrip : stripPrefix "data:".toList ("data: ".toList ++ v) = some (' ' :: v) := stripPrefix_eq_some.mpr rfl
  rw [line, if_neg (by simp)]
  simp only [hstrip, value_space]

theorem line_event (p : Parser) (v : Str) : p.line ("event: ".toList ++ v) = ({ p with eventType := v }, none) := by
  have hdata : stripPrefix "data:".toList ("event: ".toList ++ v) = none := by simp [stripPrefix, List.cons_prefix_cons]
  have hstrip : stripPrefix "event:".toList ("event: ".toList ++ v) = some (' ' :: v) := stripPrefix_eq_some.mpr rfl
  rw [line, if_neg (by simp)]
  simp only [hdata, hstrip, value_space]

theorem line_id (p : Parser) (v : Str) : p.line ("id: ".toList ++ v) = ({ p with lastId := v }, none) := by
  have hdata : stripPrefix "data:".toList ("id: ".toList ++ v) = none := by simp [stripPrefix, List.cons_prefix_cons]
  have hevent : stripPrefix "event:".toList ("id: ".toList ++ v) = none := by simp [stripPrefix, List.cons_prefix_cons]
  have hstrip : stripPrefix "id:".toList ("id: ".toList ++ v) = some (' ' :: v) := stripPrefix_eq_some.mpr rfl
  rw [line, if_neg (by simp)]
  simp only [hdata, hevent, hstrip, value_space]

theorem line_comment (p : Parser) (v : Str) : p.line (':' :: v) = (p, none) := by
  have hdata : stripPrefix "data:".toList (':' :: v) = none := by simp [stripPrefix, List.cons_prefix_cons]
  have hevent : stripPrefix "event:".toList (':' :: v) = none := by simp [stripPrefix, List.cons_prefix_cons]
  have hid : stripPrefix "id:".toList (':' :: v) = none := by simp [stripPrefix, List.cons_prefix_cons]
  rw [line, if_neg (by simp)]
  simp only [hdata, hevent, hid]

theorem line_end (p : Parser) : p.line [] = ({ p with dataBuf := [], eventType := message },
    if p.dataBuf = [] then none
    else some ⟨p.eventType, if p.dataBuf.getLast? = some '\n' then p.dataBuf.dropLast else p.dataBuf, p.lastId⟩) := by
  rw [line, if_pos rfl]

/-- Lines of data are collected. -/
theorem events_data (p : Parser) (parts : List Str) (rest : List (Option Str)) :
    p.events ((parts.map ("data: ".toList ++ ·)).map some ++ rest) =
      events { p with dataBuf := p.dataBuf ++ parts.flatMap fun part => part ++ ['\n'] } rest := by
  induction parts generalizing p with
  | nil => simp
  | cons part parts ih =>
      rw [List.map_cons, List.map_cons, List.cons_append, events, line_data, Option.toList_none, List.nil_append, ih]
      simp

theorem events_optional {f : Str → Str} {g : Parser → Str → Parser} (hline : ∀ p v, line p (f v) = (g p v, none)) (p : Parser)
    (v : Option Str) (rest : List (Option Str)) :
    p.events (((v.map f).toList).map some ++ rest) = (v.elim p (g p)).events rest := by
  cases v with
  | none => rfl
  | some v =>
      show (p.line (f v)).2.toList ++ (p.line (f v)).1.events rest = _
      rw [hline]
      rfl

end Parser

/-! ## What is read of what is sent -/

/-- The id after an item. -/
def Item.last (id : Str) : Item → Str
  | comment _ => id
  | message m => (m.id.map Subtype.val).getD id

theorem received_cons (id : Str) (i : Item) (items : List Item) :
    received id (i :: items) = received id [i] ++ received (i.last id) items := by
  cases i <;> rfl

theorem Item.lines_clean (i : Item) : ∀ line ∈ i.lines, '\n' ∉ line ∧ '\r' ∉ line := by
  have hwith : ∀ {name v : Str}, '\n' ∉ name ∧ '\r' ∉ name → '\n' ∉ v ∧ '\r' ∉ v → '\n' ∉ name ++ v ∧ '\r' ∉ name ++ v := by
    rintro name v ⟨hname, hname'⟩ ⟨hv, hv'⟩
    simp [hname, hname', hv, hv']
  have hempty : '\n' ∉ ([] : Str) ∧ '\r' ∉ ([] : Str) := by decide
  intro line hline
  cases i with
  | comment text =>
      rcases List.mem_cons.mp hline with rfl | hline
      · exact @hwith [':'] text.1 (by decide) text.2
      · exact List.mem_singleton.mp hline ▸ hempty
  | message m =>
      rw [Item.lines, List.mem_append, List.mem_append, List.mem_append, Option.mem_toList, Option.mem_toList] at hline
      rcases hline with ((hline | hline) | hline) | hline
      · obtain ⟨t, -, rfl⟩ := Option.map_eq_some_iff.mp hline
        exact hwith (by decide) t.2
      · obtain ⟨t, -, rfl⟩ := Option.map_eq_some_iff.mp hline
        exact hwith (by decide) t.2
      · obtain ⟨part, hpart, rfl⟩ := List.mem_map.mp hline
        rw [List.splitOn_eq_splitOnP] at hpart
        obtain ⟨hpart', hfeed⟩ := mem_splitOnP hpart
        exact hwith (by decide) ⟨fun hmem => absurd (hfeed _ hmem) (by decide), fun hmem => m.data.2 (hpart'.subset hmem)⟩
      · exact List.mem_singleton.mp hline ▸ hempty

theorem events_item (i : Item) (id : Str) (rest : List (Option Str)) :
    Parser.events ⟨[], message, id⟩ (i.lines.map some ++ rest) =
      received id [i] ++ Parser.events ⟨[], message, i.last id⟩ rest := by
  cases i with
  | comment text =>
      show ((Parser.line _ (':' :: text.1)).2.toList ++ ((Parser.line _ (':' :: text.1)).1.events (some [] :: rest))) = _
      rw [Parser.line_comment, Parser.events, Parser.line_end]
      rfl
  | message m =>
      obtain ⟨type, i, data⟩ := m
      have htype := Parser.events_optional Parser.line_event
      have hid := Parser.events_optional Parser.line_id
      have hcomp : ∀ (f : Str → Str) (v : Option LineText), (v.map fun t => f t.1) = (v.map Subtype.val).map f := by
        intro f v
        cases v <;> rfl
      rw [Item.lines, hcomp ("event: ".toList ++ ·), hcomp ("id: ".toList ++ ·)]
      simp only [List.map_append, List.append_assoc]
      rw [htype, hid, Parser.events_data, flatMap_splitOn]
      cases type <;> cases i <;> simp [Parser.events, Parser.line_end, received, Item.last]

theorem events_items (items : List Item) (id : Str) :
    Parser.events ⟨[], message, id⟩ ((items.flatMap Item.lines).map some) = received id items := by
  induction items generalizing id with
  | nil => rfl
  | cons i items ih => rw [List.flatMap_cons, List.map_append, events_item, ih, received_cons id i items]

/-- What a server sends is read as the events that it sends. -/
theorem events_writeItems (crlf : Bool) (items : List Item) :
    Parser.new.events (readerLines (writeItems crlf items)) = received [] items := by
  have hclean : ∀ line ∈ items.flatMap Item.lines, '\n' ∉ line ∧ '\r' ∉ line := by
    intro line hline
    obtain ⟨i, -, hi⟩ := List.mem_flatMap.mp hline
    exact i.lines_clean line hi
  rw [writeItems, readerLines_write crlf hclean]
  exact events_items items []

/-! ## One source -/

/-- The events that the thread has still to read. -/
def Thread.pending (reply : Reply) : Thread → List SseEvent
  | connecting => reply.events
  | reading parser unread => parser.events unread
  | ended => []

namespace Source

variable {s : Source} {reply : Reply} {quiet whole : Prop}

/-- All events of the reply are taken over, waiting, to be read or lost, in that order. Handlers were called with those that
were taken over: with all of them if no handler throws (`quiet`). None is lost if the source is not closed and the connection
does not fail (`whole`). -/
structure Holds (reply : Reply) (quiet whole : Prop) (s : Source) : Prop where
  accounted : ∃ taken lost, taken ++ s.queue ++ s.thread.pending reply ++ lost = reply.events ∧
    s.delivered.Sublist taken ∧ (quiet → s.delivered = taken) ∧ (whole → lost = [])
  opened : whole → s.closed = false

/-- The acts that keep it: the server gives this reply. -/
def Fits (reply : Reply) (quiet whole : Prop) : Act → Prop
  | .respond answer => answer = reply.answer
  | .next => True
  | .broken => ¬ whole
  | .poll throws => quiet → throws = none
  | .close => ¬ whole

theorem holds_new : Holds reply quiet whole new where
  accounted := ⟨[], [], by simp [new, Thread.pending], .slnil, fun _ => rfl, fun _ => rfl⟩
  opened := fun _ => rfl

/-- The thread gives up: what is pending is lost. -/
theorem Holds.lose (h : s.Holds reply quiet whole) (hlost : s.thread.pending reply ≠ [] → ¬ whole) :
    Holds reply quiet whole { s with thread := .ended } := by
  obtain ⟨taken, lost, hall, hsub, hquiet, hwhole⟩ := h.accounted
  refine ⟨⟨taken, s.thread.pending reply ++ lost, ?_, hsub, hquiet, fun hw => ?_⟩, h.opened⟩
  · simpa [Thread.pending] using hall
  · have hpending : s.thread.pending reply = [] := by_contra fun hne => hlost hne hw
    rw [hpending, hwhole hw, List.nil_append]

/-- The thread goes on, and what it was to read is waiting or still to be read. -/
theorem Holds.advance (h : s.Holds reply quiet whole) {thread : Thread} {more : List SseEvent}
    (hmore : more ++ thread.pending reply = s.thread.pending reply) :
    Holds reply quiet whole { s with thread := thread, queue := s.queue ++ more } := by
  obtain ⟨taken, lost, hall, hrest⟩ := h.accounted
  refine ⟨⟨taken, lost, ?_, hrest⟩, h.opened⟩
  rw [← hall, ← hmore]
  simp

theorem Holds.step (h : s.Holds reply quiet whole) {act : Act} (hfits : Fits reply quiet whole act) :
    (s.step act).Holds reply quiet whole := by
  cases act with
  | respond answer =>
      obtain rfl : answer = reply.answer := hfits
      simp only [Source.step]
      split
      · rename_i body hthread hbody
        cases reply with
        | refused error => cases hbody
        | stream crlf items =>
            obtain rfl := Except.ok.inj hbody
            have hread : [] ++ Thread.pending (.stream crlf items) (.reading .new (readerLines (writeItems crlf items))) =
                s.thread.pending (.stream crlf items) := by
              rw [hthread]
              exact events_writeItems crlf items
            simpa using h.advance hread
      · rename_i e hthread he
        cases reply with
        | refused error =>
            obtain rfl := Except.error.inj he
            exact h.advance (by rw [hthread]; rfl)
        | stream crlf items => cases he
      · exact h
  | next =>
      simp only [Source.step]
      split
      · rename_i p line unread hthread
        split
        · rename_i hclosed
          exact h.lose fun _ hw => by simp [h.opened hw] at hclosed
        · exact h.advance (by rw [hthread]; rfl)
      · rename_i p unread hother hthread
        refine h.lose fun hne => absurd ?_ hne
        -- an end of the lines or a line that is not UTF-8 yields nothing
        rw [hthread, Thread.pending]
        cases unread with
        | nil => rfl
        | cons line unread =>
            cases line with
            | none => rfl
            | some line => exact (hother line unread rfl).elim
      · exact h
  | broken =>
      simp only [Source.step]
      split
      · exact h.lose fun _ => hfits
      · exact h
  | poll throws =>
      simp only [Source.step]
      split
      · exact h
      · obtain ⟨taken, lost, hall, hsub, hquiet, hwhole⟩ := h.accounted
        refine ⟨⟨taken ++ s.queue, lost, by simpa using hall, ?_, fun hq => ?_, hwhole⟩, h.opened⟩
        · cases throws with
          | none => exact hsub.append (List.Sublist.refl _)
          | some n => exact hsub.append (List.take_sublist _ _)
        · rw [hfits hq]
          exact congrArg (· ++ s.queue) (hquiet hq)
  | close =>
      obtain ⟨taken, lost, hall, hsub, hquiet, hwhole⟩ := h.accounted
      exact ⟨⟨taken, lost, hall, hsub, hquiet, hwhole⟩, fun hw => (hfits hw).elim⟩

theorem step_closed (h : s.closed = true) (act : Act) : (s.step act).closed = true ∧ (s.step act).delivered = s.delivered := by
  cases act with
  | poll throws => rw [Source.step, if_pos h]; exact ⟨h, rfl⟩
  | respond answer => simp only [Source.step]; split <;> exact ⟨h, rfl⟩
  | next =>
      simp only [Source.step]
      split
      · rw [if_pos h]
        exact ⟨h, rfl⟩
      all_goals exact ⟨h, rfl⟩
  | broken => simp only [Source.step]; split <;> exact ⟨h, rfl⟩
  | close => exact ⟨rfl, rfl⟩

end Source

/-! ## All sources -/

namespace Sources

variable {x y : Sources} {id : Nat} {reply : Reply} {quiet whole : Prop}

/-- The acts of other sources are free. -/
def Fits (id : Nat) (reply : Reply) (quiet whole : Prop) : Op → Prop
  | .create => True
  | .act i act => i = id → Source.Fits reply quiet whole act

theorem step_act {i : Nat} {act : Act} (h : x.step (.act i act) = some y) :
    ∃ s, x.source i = some s ∧ y.source = Function.update x.source i (some (s.step act)) := by
  obtain ⟨s, hs, rfl⟩ := Option.map_eq_some_iff.mp h
  exact ⟨s, hs, rfl⟩

theorem step_create (h : x.step .create = some y) :
    y.counter = x.counter + 1 ∧ y.source = Function.update x.source (x.counter + 1) (some .new) := by
  rw [step] at h
  split at h
  · cases h
    exact ⟨rfl, rfl⟩
  · cases h

/-- The source of an id holds what the server of that id replied. -/
def Holds (id : Nat) (reply : Reply) (quiet whole : Prop) (x : Sources) : Prop :=
  ∀ s ∈ x.source id, s.Holds reply quiet whole

theorem holds_step (h : x.Holds id reply quiet whole) {op : Op} (hfits : Fits id reply quiet whole op)
    (hstep : x.step op = some y) : y.Holds id reply quiet whole := by
  intro s hs
  cases op with
  | create =>
      rw [(step_create hstep).2] at hs
      by_cases hid : id = x.counter + 1
      · subst hid
        rw [Function.update_self] at hs
        exact Option.some.inj hs ▸ Source.holds_new
      · rw [Function.update_of_ne hid] at hs
        exact h s hs
  | act i act =>
      obtain ⟨s', hs', hy⟩ := step_act hstep
      rw [hy] at hs
      by_cases hid : id = i
      · subst hid
        rw [Function.update_self] at hs
        exact Option.some.inj hs ▸ (h s' hs').step (hfits rfl)
      · rw [Function.update_of_ne hid] at hs
        exact h s hs

theorem holds_run {ops : List Op} (hfits : ∀ op ∈ ops, Fits id reply quiet whole op)
    (hrun : Runs.exec step new ops = some x) : x.Holds id reply quiet whole :=
  Runs.exec_invariant (fun _ _ _ h hfits hstep => holds_step h hfits hstep) (fun _ hs => by cases hs)
    (Runs.along_of_forall hfits new) hrun

end Sources

end ThreeVa.Js.EventSource
