import ThreeVa.Js.TextDecoder
import ThreeVa.Lib.Utf8
import ThreeVa.Js.Lemmas.TextDecoder
import ThreeVa.Lib.Lines

/-!
# Lines of a connection

What the `_startPoll` functions of `js/src/builtins/pop3.rs` and `ftp.rs` share: each chunk goes through one long-lived
decoder, and the lines that it completes are handled.
-/

namespace ThreeVa.Js
open Text

def lf : Nat := 10

def cr : Nat := 13

/-- `line.replace(/\r$/, '')` -/
def stripCr (line : Units) : Units := if line.getLast? = some cr then line.dropLast else line

structure LineReader where
  decoder : TextDecoder
  lineBuffer : Units

namespace LineReader

def new : LineReader := ⟨.new .utf8 false, []⟩

/-- The lines of a chunk that are not empty, or what the decoder throws. -/
def feed (r : LineReader) (chunk : Bytes) : LineReader × Except Str (List Units) :=
  match r.decoder.decode chunk true with
  | (decoder, .ok text) =>
      let lines := (r.lineBuffer ++ text).splitOn lf
      (⟨decoder, lines.getLastD []⟩, .ok ((lines.dropLast.map stripCr).filter (· ≠ [])))
  | (decoder, .error message) => ({ r with decoder := decoder }, .error message)

end LineReader

/-! ## Lines that are sent -/

def crlf : Bytes := [13, 10]

/-- Each line with its end. -/
def sendLines (lines : List Str) : Bytes := lines.flatMap fun line => encodeUtf8 line ++ crlf

end ThreeVa.Js

/-!
## Reading lines in chunks
-/

namespace ThreeVa.Js
open Text

namespace LineReader

/-- The lines of a text that are handled. -/
def handled (text : Units) : List Units := ((text.splitOn lf).dropLast.map stripCr).filter (· ≠ [])

theorem handled_append (text more : Units) :
    handled (text ++ more) = handled text ++ handled ((text.splitOn lf).getLastD [] ++ more) := by
  have hne := List.splitOn_ne_nil lf ((text.splitOn lf).getLastD [] ++ more)
  unfold handled
  rw [splitOn_append text, List.dropLast_append_of_ne_nil hne, List.map_append, List.filter_append]

theorem getLastD_splitOn_append (text more : Units) :
    ((text ++ more).splitOn lf).getLastD [] = (((text.splitOn lf).getLastD [] ++ more).splitOn lf).getLastD [] := by
  have hne := List.splitOn_ne_nil lf ((text.splitOn lf).getLastD [] ++ more)
  rw [splitOn_append text]
  simp only [List.getLastD_eq_getLast?] at hne ⊢
  rw [List.getLast?_append_of_ne_nil _ hne]

/-- The decoder is the one the clients make, which throws nothing. -/
def Plain (r : LineReader) : Prop := r.decoder.encoding = .utf8 ∧ r.decoder.fatal = false

theorem plain_new : Plain new := ⟨rfl, rfl⟩

theorem new_feed_nil : new.feed [] = (new, .ok []) := by
  rw [feed, TextDecoder.decode, if_neg (by decide)]
  simp only [new, TextDecoder.new, List.append_nil, TextDecoder.decodeUtf8_nil]
  rfl

variable {r : LineReader}

theorem feed_plain (hr : r.Plain) (chunk : Bytes) :
    ∃ text held, TextDecoder.decodeUtf8 false true (r.decoder.pending ++ chunk) = .ok (text, held) ∧
      r.feed chunk =
        (⟨⟨.utf8, false, held⟩, ((r.lineBuffer ++ text).splitOn lf).getLastD []⟩, .ok (handled (r.lineBuffer ++ text))) := by
  obtain ⟨decoder, buffer⟩ := r
  obtain ⟨encoding, fatal, pending⟩ := decoder
  obtain ⟨rfl, rfl⟩ := hr
  obtain ⟨⟨text, held⟩, hdecode⟩ := TextDecoder.decodeUtf8_ok true (pending ++ chunk)
  refine ⟨text, held, hdecode, ?_⟩
  rw [feed, TextDecoder.decode, if_neg (by simp)]
  simp only [hdecode]
  rfl

/-- A chunk is read like its two parts, wherever it is cut. -/
theorem feed_append (hr : r.Plain) (left right : Bytes) :
    ∃ r' lines r'' lines', r.feed left = (r', .ok lines) ∧ r'.Plain ∧ r'.feed right = (r'', .ok lines') ∧ r''.Plain ∧
      r.feed (left ++ right) = (r'', .ok (lines ++ lines')) := by
  obtain ⟨text, held, hdecode, hfeed⟩ := feed_plain hr left
  have hr' : Plain ⟨⟨.utf8, false, held⟩, ((r.lineBuffer ++ text).splitOn lf).getLastD []⟩ := ⟨rfl, rfl⟩
  obtain ⟨text', held', hdecode', hfeed'⟩ := feed_plain hr' right
  refine ⟨_, _, _, _, hfeed, hr', hfeed', ⟨rfl, rfl⟩, ?_⟩
  obtain ⟨all, heldAll, hdecodeAll, hfeedAll⟩ := feed_plain hr (left ++ right)
  rw [← List.append_assoc, TextDecoder.decodeUtf8_append, hdecode] at hdecodeAll
  change (TextDecoder.decodeUtf8 false true (held ++ right)).map _ = _ at hdecodeAll
  rw [hdecode'] at hdecodeAll
  obtain ⟨rfl, rfl⟩ := Prod.mk.inj (Except.ok.inj hdecodeAll)
  rw [hfeedAll, ← List.append_assoc, handled_append, getLastD_splitOn_append]

/-- The reader of a connection from which some bytes were read. -/
def Reached (r : LineReader) : Prop := ∃ data lines, new.feed data = (r, .ok lines)

theorem reached_new : Reached new := ⟨[], [], new_feed_nil⟩

theorem Reached.feed (hr : r.Reached) (chunk : Bytes) :
    ∃ r' lines, r.feed chunk = (r', .ok lines) ∧ r'.Reached := by
  obtain ⟨data, lines, hdata⟩ := hr
  obtain ⟨r', lines', r'', lines'', hleft, -, hchunk, -, hall⟩ := feed_append plain_new data chunk
  obtain ⟨rfl, -⟩ := Prod.mk.inj (hdata.symm.trans hleft)
  exact ⟨r'', lines'', hchunk, _, _, hall⟩

theorem Reached.plain (hr : r.Reached) : r.Plain := by
  obtain ⟨data, lines, hdata⟩ := hr
  obtain ⟨text, held, -, hfeed⟩ := feed_plain plain_new data
  obtain ⟨rfl, -⟩ := Prod.mk.inj (hdata.symm.trans hfeed)
  exact ⟨rfl, rfl⟩

theorem Reached.feed_nil (hr : r.Reached) : r.feed [] = (r, .ok []) := by
  obtain ⟨data, lines, hdata⟩ := hr
  obtain ⟨r', lines', r'', lines'', hleft, -, hchunk, -, hall⟩ := feed_append plain_new data []
  obtain ⟨rfl, -⟩ := Prod.mk.inj (hdata.symm.trans hleft)
  rw [List.append_nil, hleft, Prod.mk.injEq, Except.ok.injEq] at hall
  rw [hchunk, ← hall.1, List.self_eq_append_right.mp hall.2]

/-! ## Whole lines -/

/-- Nothing is held back. -/
def AtLine (r : LineReader) : Prop := r.decoder.pending = [] ∧ r.lineBuffer = []

theorem atLine_new : AtLine new := ⟨rfl, rfl⟩

theorem lf_not_mem_units {text : Str} (h : '\n' ∉ text) : lf ∉ units text := by
  intro hmem
  obtain ⟨c, hc, hcode⟩ := mem_units (by decide) hmem
  have heq : c = '\n' := Char.toNat_inj.mp hcode
  exact h (heq ▸ hc)

theorem stripCr_append (line : Units) : stripCr (line ++ [cr]) = line := by simp [stripCr]

theorem splitOn_lines {lines : List Str} (h : ∀ line ∈ lines, '\n' ∉ line) :
    (lines.flatMap fun line => units line ++ [cr, lf]).splitOn lf = (lines.map fun line => units line ++ [cr]) ++ [[]] := by
  induction lines with
  | nil => rfl
  | cons line lines ih =>
      have hline : lf ∉ units line ++ [cr] := by
        have := lf_not_mem_units (h line List.mem_cons_self)
        simpa [cr, lf] using this
      have hcons : ((line :: lines).flatMap fun line => units line ++ [cr, lf]) =
          (units line ++ [cr]) ++ lf :: (lines.flatMap fun line => units line ++ [cr, lf]) := by simp
      rw [hcons, List.splitOn_append_cons_self_of_not_mem hline, ih fun x hx => h x (List.mem_cons_of_mem _ hx)]
      rfl

/-- Lines that were sent are read, but for the empty ones, and nothing is held back after them. -/
theorem feed_sendLines (hr : r.Plain) (hline : r.AtLine) {lines : List Str} (h : ∀ line ∈ lines, '\n' ∉ line) :
    ∃ r', r.feed (sendLines lines) = (r', .ok ((lines.map units).filter (· ≠ []))) ∧ r'.Plain ∧ r'.AtLine := by
  have hdecode : TextDecoder.decodeUtf8 false true (r.decoder.pending ++ sendLines lines) =
      .ok (lines.flatMap fun line => units line ++ [cr, lf], []) := by
    have hsend : sendLines lines = encodeUtf8 (lines.flatMap fun line => line ++ "\r\n".toList) := by
      unfold sendLines encodeUtf8
      rw [List.flatMap_assoc]
      refine List.flatMap_congr fun line _ => ?_
      rw [List.flatMap_append]
      rfl
    have hunits : units (lines.flatMap fun line => line ++ "\r\n".toList) =
        lines.flatMap fun line => units line ++ [cr, lf] := by
      unfold units
      rw [List.flatMap_assoc]
      exact List.flatMap_congr fun line _ => List.flatMap_append ..
    rw [hline.1, List.nil_append, hsend, ← List.append_nil (encodeUtf8 _), TextDecoder.decodeUtf8_encodeUtf8,
      TextDecoder.decodeUtf8_nil, ← hunits]
    exact congrArg (fun text => Except.ok (text, [])) (List.append_nil _)
  obtain ⟨text, held, hdecode', hfeed⟩ := feed_plain hr (sendLines lines)
  rw [hdecode] at hdecode'
  obtain ⟨rfl, rfl⟩ := Prod.mk.inj (Except.ok.inj hdecode')
  rw [hline.2, List.nil_append, handled, splitOn_lines h, List.dropLast_concat, List.map_map] at hfeed
  have hstrip : (stripCr ∘ fun line => units line ++ [cr]) = units := funext fun line => stripCr_append (units line)
  rw [hstrip] at hfeed
  exact ⟨_, hfeed, ⟨rfl, rfl⟩, rfl, by simp⟩

end LineReader

end ThreeVa.Js
