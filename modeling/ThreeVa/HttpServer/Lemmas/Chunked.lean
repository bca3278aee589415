import ThreeVa.HttpServer.Head

/-! `pump_chunked` reads the loose form of a chunked body. -/

namespace ThreeVa.HttpServer
open Text

/-! ## Sizes -/

theorem isWhitespace_of_toDigit {c : Char} (h : (toDigit 16 c).isSome) : isWhitespace c = false := by
  have hrange : ('0' ≤ c ∧ c ≤ '9') ∨ ('a' ≤ c ∧ c ≤ 'z') ∨ ('A' ≤ c ∧ c ≤ 'Z') := by
    unfold toDigit at h
    split at h
    · exact .inl ‹_›
    · split at h
      · exact .inr (.inl ‹_›)
      · split at h
        · exact .inr (.inr ‹_›)
        · simp at h
  have hnat : ∀ a b : Char, a ≤ b → a.toNat ≤ b.toNat := fun a b hab => UInt32.le_iff_toNat_le.mp (Char.le_def.mp hab)
  have hbound : 48 ≤ c.toNat ∧ c.toNat ≤ 122 := by
    rcases hrange with ⟨h1, h2⟩ | ⟨h1, h2⟩ | ⟨h1, h2⟩ <;>
      exact ⟨le_trans (by decide) (hnat _ _ h1), le_trans (hnat _ _ h2) (by decide)⟩
  simp only [isWhitespace, Bool.or_eq_false_iff, Bool.and_eq_false_iff, decide_eq_false_iff_not]
  omega

theorem trim_of_hex {f : Str} (h : ∀ c ∈ f, (toDigit 16 c).isSome) : trim f = f := by
  have hws : ∀ c ∈ f, isWhitespace c = false := fun c hc => isWhitespace_of_toDigit (h c hc)
  have hdrop : f.dropWhile isWhitespace = f := by
    cases f with
    | nil => rfl
    | cons c cs => rw [List.dropWhile_cons_of_neg (by simp [hws c (by simp)])]
  rw [trim, hdrop, List.rdropWhile_eq_self_iff]
  intro hne
  simp [hws _ (List.getLast_mem hne)]

/-- Plain sizes are the sizes without a sign and without white space around them. -/
theorem hexSize_eq_some {f : Str} {n : Nat} : hexSize f = some n ↔ IsHexSize f ∧ chunkSize f = some n := by
  unfold hexSize
  split
  · rename_i hhex
    have hplus : '+' ∉ f := fun hmem => by simpa [toDigit] using hhex.2 '+' hmem
    rw [chunkSize, trim_of_hex hhex.2, parseUnsigned_of_head hhex.1 hplus]
    simp [hhex]
  · simp [*]

theorem chunkSize_le {f : Str} {n : Nat} (h : chunkSize f = some n) : n ≤ usizeMax := by
  unfold chunkSize parseUnsigned at h
  split at h <;> simp only [Option.filter_eq_some_iff, reduceCtorEq, decide_eq_true_eq] at h
  · exact h.2
  · exact h.2

/-! ## Uniqueness -/

theorem TrailerSection.unique {b rest rest' : Bytes} {n n' : Nat} {closed closed' : Bool}
    (h : TrailerSection b n closed rest) (h' : TrailerSection b n' closed' rest') :
    n = n' ∧ closed = closed' ∧ rest = rest' := by
  induction h generalizing n' closed' with
  | close line empty =>
      cases h' with
      | close line' _ =>
          obtain ⟨rfl, rfl⟩ := line.unique line'
          exact ⟨rfl, rfl, rfl⟩
      | field line' nonempty _ =>
          obtain ⟨rfl, rfl⟩ := line.unique line'
          exact absurd empty nonempty
      | cut line' => exact absurd line' line.not_cut
  | field line nonempty _ ih =>
      cases h' with
      | close line' empty =>
          obtain ⟨rfl, rfl⟩ := line.unique line'
          exact absurd empty nonempty
      | field line' _ more' =>
          obtain ⟨rfl, rfl⟩ := line.unique line'
          obtain ⟨rfl, rfl, rfl⟩ := ih more'
          exact ⟨rfl, rfl, rfl⟩
      | cut line' => exact absurd line' line.not_cut
  | cut line =>
      cases h' with
      | close line' _ => exact absurd line line'.not_cut
      | field line' _ _ => exact absurd line line'.not_cut
      | cut line' =>
          obtain rfl := line.unique line'
          exact ⟨rfl, rfl, rfl⟩

section Unique

variable {size : Str → Option Nat}

theorem ChunkedBody.unique {b data data' rest rest' : Bytes} {fields fields' : List Str} {n n' : Nat}
    {closed closed' : Bool} (h : ChunkedBody size b fields data n closed rest)
    (h' : ChunkedBody size b fields' data' n' closed' rest') :
    fields = fields' ∧ data = data' ∧ n = n' ∧ closed = closed' ∧ rest = rest' := by
  induction h generalizing fields' data' n' closed' with
  | chunk line len nonempty stream term empty _ ih =>
      cases h' with
      | chunk line' len' nonempty' stream' term' empty' next' =>
          obtain ⟨rfl, rfl⟩ := line.unique line'
          have hlen := Option.some.inj (len.symm.trans len')
          obtain ⟨rfl, rfl⟩ := List.append_inj (stream.symm.trans stream') hlen
          obtain ⟨rfl, rfl⟩ := term.unique term'
          obtain ⟨rfl, rfl, rfl, rfl, rfl⟩ := ih next'
          exact ⟨rfl, rfl, rfl, rfl, rfl⟩
      | last line' zero _ =>
          obtain ⟨rfl, rfl⟩ := line.unique line'
          rw [len] at zero
          simp [nonempty] at zero
      | cut line' _ => exact absurd line' line.not_cut
  | last line zero trailers =>
      cases h' with
      | chunk line' len' nonempty' _ _ _ _ =>
          obtain ⟨rfl, rfl⟩ := line.unique line'
          rw [zero] at len'
          simp [eq_comm, nonempty'] at len'
      | last line' _ trailers' =>
          obtain ⟨rfl, rfl⟩ := line.unique line'
          obtain ⟨rfl, rfl, rfl⟩ := trailers.unique trailers'
          exact ⟨rfl, rfl, rfl, rfl, rfl⟩
      | cut line' _ => exact absurd line' line.not_cut
  | cut line _ =>
      cases h' with
      | chunk line' _ _ _ _ _ _ => exact absurd line line'.not_cut
      | last line' _ _ => exact absurd line line'.not_cut
      | cut line' _ =>
          obtain rfl := line.unique line'
          exact ⟨rfl, rfl, rfl, rfl, rfl⟩

end Unique

theorem chunkedBody_hexSize_iff {b data rest : Bytes} {fields : List Str} {n : Nat} {closed : Bool} :
    ChunkedBody hexSize b fields data n closed rest ↔
      ChunkedBody chunkSize b fields data n closed rest ∧ ∀ f ∈ fields, IsHexSize f := by
  constructor
  · intro h
    induction h with
    | chunk line len nonempty stream term empty _ ih =>
        obtain ⟨hhex, hlen⟩ := hexSize_eq_some.mp len
        exact ⟨.chunk line hlen nonempty stream term empty ih.1, by simpa using ⟨hhex, ih.2⟩⟩
    | last line zero trailers =>
        obtain ⟨hhex, hzero⟩ := hexSize_eq_some.mp zero
        exact ⟨.last line hzero trailers, by simpa using hhex⟩
    | cut line zero =>
        obtain ⟨hhex, hzero⟩ := hexSize_eq_some.mp zero
        exact ⟨.cut line hzero, by simpa using hhex⟩
  · rintro ⟨h, hhex⟩
    induction h with
    | chunk line len nonempty stream term empty _ ih =>
        rw [List.forall_mem_cons] at hhex
        exact .chunk line (hexSize_eq_some.mpr ⟨hhex.1, len⟩) nonempty stream term empty (ih hhex.2)
    | last line zero trailers =>
        exact .last line (hexSize_eq_some.mpr ⟨hhex _ (by simp), zero⟩) trailers
    | cut line zero => exact .cut line (hexSize_eq_some.mpr ⟨hhex _ (by simp), zero⟩)

/-! ## The trailer loop -/

theorem readTrailers_step {maxHeaderBytes used : Nat} {r r1 : Reader} {line : Line}
    (hread : r.readLine "timeout: trailers stalled" = .ok (line, r1)) :
    readTrailers maxHeaderBytes r used =
      if line.text = [] then .ok r1
      else if maxHeaderBytes < used + line.raw.length then
        .error (.silent ("trailer flood: exceeded " ++ toString maxHeaderBytes ++ " bytes"))
      else if line.content = [] then .ok r1
      else readTrailers maxHeaderBytes r1 (used + line.raw.length) := by
  rw [readTrailers]
  split
  · rename_i hread'
    rw [hread] at hread'
    cases hread'
  · rename_i hread'
    rw [hread] at hread'
    cases hread'
    rfl

theorem readTrailers_eof (maxHeaderBytes used : Nat) :
    readTrailers maxHeaderBytes ⟨[], .eof⟩ used = .ok ⟨[], .eof⟩ := by
  have hcut : CutLine [] ⟨[], [], rfl⟩ := ⟨rfl, by simp⟩
  rw [readTrailers_step (CutLine.readLine (r := ⟨[], .eof⟩) hcut rfl _), if_pos rfl]

theorem trailerSection_of_readTrailers {maxHeaderBytes : Nat} {r r' : Reader} {used : Nat}
    (hused : used ≤ maxHeaderBytes) (h : readTrailers maxHeaderBytes r used = .ok r') :
    r'.ending = r.ending ∧ ∃ n closed, TrailerSection r.bytes n closed r'.bytes ∧ used + n ≤ maxHeaderBytes ∧
      (closed = true ∨ r.ending = .eof) := by
  fun_induction readTrailers maxHeaderBytes r used with
  | case1 => cases h
  | case2 r used line r1 hread hempty =>
      -- Nothing was left of the stream.
      cases h
      rcases readLine_ok.mp hread with ⟨hline, -⟩ | ⟨hcut, hending, rfl⟩
      · exact absurd hempty hline.text_ne_nil
      · refine ⟨hending.symm, _, _, .cut hcut, ?_, .inr hending⟩
        rw [Line.text_eq_nil.mp hempty]
        exact hused
  | case3 => cases h
  | case4 r used line r1 hread hne hfits hcontent =>
      cases h
      rcases readLine_ok.mp hread with ⟨hline, hending⟩ | ⟨hcut, hending, rfl⟩
      · exact ⟨hending, _, _, .close hline hcontent, by omega, .inl rfl⟩
      · exact ⟨hending.symm, _, _, .cut hcut, by omega, .inr hending⟩
  | case5 r used line r1 hread hne hfits hcontent ih =>
      rcases readLine_ok.mp hread with ⟨hline, hending⟩ | ⟨hcut, hending, rfl⟩
      · obtain ⟨hending1, n, closed, hsection, hbudget, hclosed⟩ := ih (by omega) h
        exact ⟨hending1.trans hending, _, _, .field hline hcontent hsection, by omega, hending ▸ hclosed⟩
      · -- The stream ends inside this line, and the next read finds the end.
        rw [readTrailers_eof] at h
        cases h
        exact ⟨hending.symm, _, _, .cut hcut, by omega, .inr hending⟩

theorem readTrailers_of_trailerSection {maxHeaderBytes : Nat} {ending : Ending} {b rest : Bytes} {used n : Nat}
    {closed : Bool} (hsection : TrailerSection b n closed rest) (hbudget : used + n ≤ maxHeaderBytes)
    (hclosed : closed = true ∨ ending = .eof) :
    readTrailers maxHeaderBytes ⟨b, ending⟩ used = .ok ⟨rest, ending⟩ := by
  induction hsection generalizing used with
  | close line empty =>
      rw [readTrailers_step (line.readLine (r := ⟨_, ending⟩) _), if_neg line.text_ne_nil, if_neg (by omega),
        if_pos empty]
  | field line nonempty _ ih =>
      rw [readTrailers_step (line.readLine (r := ⟨_, ending⟩) _), if_neg line.text_ne_nil, if_neg (by omega),
        if_neg nonempty]
      exact ih (by omega) hclosed
  | cut line =>
      obtain rfl : ending = .eof := by simpa using hclosed
      rw [readTrailers_step (line.readLine (r := ⟨_, .eof⟩) rfl _)]
      split
      · rfl
      · rw [if_neg (by omega)]
        split
        · rfl
        · exact readTrailers_eof _ _

/-! ## Chunk data -/

/-- No deadline passes and no receive rate is too low. -/
structure Env.Quiet (env : Env) : Prop where
  deadline : ∀ n, env.deadlinePassed n = false
  rate : ∀ n, env.slowRate n = none

theorem pumpData_ok {env : Env} {rate : Nat} {r r' : Reader} {n : Nat} {pushed : List Bytes}
    (h : pumpData env rate r n = (pushed, .ok r')) :
    r.bytes = pushed.flatten ++ r'.bytes ∧ pushed.flatten.length = n ∧ r'.ending = r.ending := by
  fun_induction pumpData env rate r n generalizing pushed with
  | case1 => cases h; simp
  | case2 | case3 | case4 | case5 => simp at h
  | case6 r n hne hdeadline b slice r1 hread hrate pushed' res hrec ih =>
      cases h
      obtain ⟨hstream, hlen, hending⟩ := read_length hread
      obtain ⟨hmore, hcount, hending'⟩ := ih hrec
      refine ⟨?_, ?_, hending'.trans hending⟩
      · rw [← hstream, hmore, List.flatten_cons, List.append_assoc]
      · rw [List.flatten_cons, List.length_append, hcount]
        omega

theorem read_nonempty {r : Reader} (env : Env) {max : Nat} (timeout : String) (hne : r.bytes ≠ []) (hmax : 0 < max) :
    ∃ b slice r', r.read env max timeout = .ok (b :: slice, r') := by
  rw [Reader.read, if_neg hne]
  obtain ⟨b, bs, hb⟩ := List.exists_cons_of_ne_nil hne
  have hpos : min (Nat.max (env.readSize r.bytes.length) 1) max =
      (min (Nat.max (env.readSize r.bytes.length) 1) max - 1) + 1 := by
    have : 1 ≤ Nat.max (env.readSize r.bytes.length) 1 := Nat.le_max_right _ _
    omega
  rw [hpos]
  dsimp only
  rw [hb, List.take_succ_cons]
  exact ⟨b, _, _, rfl⟩

theorem pumpData_complete {env : Env} (hquiet : env.Quiet) (rate : Nat) (r : Reader) (n : Nat)
    (hn : n ≤ r.bytes.length) : ∃ pushed r', pumpData env rate r n = (pushed, .ok r') := by
  fun_induction pumpData env rate r n with
  | case1 => exact ⟨_, _, rfl⟩
  | case2 r n hne hdeadline => simp [hquiet.deadline] at hdeadline
  | case3 r n hne hdeadline e hread =>
      obtain ⟨b, slice, r1, hok⟩ := read_nonempty env "timeout: body stalled (RUDY?)"
        (List.ne_nil_of_length_pos (by omega) : r.bytes ≠ []) (by simp [bodyReadMax]; omega : 0 < min n bodyReadMax)
      rw [hok] at hread
      cases hread
  | case4 r n hne hdeadline r1 hread =>
      obtain ⟨b, slice, r1, hok⟩ := read_nonempty env "timeout: body stalled (RUDY?)"
        (List.ne_nil_of_length_pos (by omega) : r.bytes ≠ []) (by simp [bodyReadMax]; omega : 0 < min n bodyReadMax)
      rw [hok] at hread
      cases hread
  | case5 r n hne hdeadline b slice r1 hread rate hrate => simp [hquiet.rate] at hrate
  | case6 r n hne hdeadline b slice r1 hread hrate pushed' res hrec ih =>
      obtain ⟨hstream, -, -⟩ := read_length hread
      have hlen := congrArg List.length hstream
      rw [List.length_append] at hlen
      obtain ⟨pushed'', r', hok⟩ := ih (by omega)
      rw [hrec] at hok
      cases hok
      exact ⟨_, _, rfl⟩

/-! ## The chunk loop -/

section Loop

variable {env : Env} {limits : BodyLimits} {r r1 r2 r3 : Reader} {total n : Nat} {sizeLine crlf : Line}

def Fits (limits : BodyLimits) (total n : Nat) : Prop :=
  n ≤ limits.maxBody ∧ min (total + n) usizeMax ≤ limits.maxBody

theorem pumpChunked_last (hsize : r.readLine "timeout: chunk size line stalled" = .ok (sizeLine, r1))
    (hne : sizeLine.text ≠ []) (hzero : chunkSize (sizeField sizeLine.content) = some 0)
    (hfits : Fits limits total 0) :
    pumpChunked env limits r total = ([], readTrailers limits.maxHeaderBytes r1 0) := by
  obtain ⟨h1, h2⟩ := hfits
  rw [pumpChunked]
  split
  · rename_i hread
    rw [hsize] at hread
    cases hread
  · rename_i hread
    rw [hsize] at hread
    cases hread
    rw [dif_neg hne]
    simp only [hzero]
    rw [if_neg (by omega), if_pos trivial]

theorem pumpChunked_chunk (hsize : r.readLine "timeout: chunk size line stalled" = .ok (sizeLine, r1))
    (hne : sizeLine.text ≠ []) (hlen : chunkSize (sizeField sizeLine.content) = some n)
    (hfits : Fits limits total n) (hn : n ≠ 0) {pushed : List Bytes}
    (hdata : pumpData env limits.minBodyRateBps r1 n = (pushed, .ok r2))
    (hcrlf : r2.readLine "chunk terminator stalled" = .ok (crlf, r3)) (hempty : crlf.content = []) :
    pumpChunked env limits r total =
      (pushed ++ (pumpChunked env limits r3 (total + n)).1, (pumpChunked env limits r3 (total + n)).2) := by
  obtain ⟨h1, h2⟩ := hfits
  rw [pumpChunked]
  split
  · rename_i hread
    rw [hsize] at hread
    cases hread
  · rename_i hread
    rw [hsize] at hread
    cases hread
    rw [dif_neg hne]
    simp only [hlen]
    rw [if_neg (by omega), if_neg hn]
    split
    · rename_i hdata'
      rw [hdata] at hdata'
      cases hdata'
    · rename_i hdata'
      rw [hdata] at hdata'
      cases hdata'
      split
      · rename_i hcrlf'
        rw [hcrlf] at hcrlf'
        cases hcrlf'
      · rename_i hcrlf'
        rw [hcrlf] at hcrlf'
        cases hcrlf'
        rw [if_neg (by simp [hempty])]

end Loop

theorem text_ne_nil_of_chunkSize {l : Line} {n : Nat} (h : chunkSize (sizeField l.content) = some n) : l.text ≠ [] := by
  intro hnil
  rw [Line.content, hnil] at h
  cases h

theorem not_chunkedBody_nil {fields : List Str} {data rest : Bytes} {n : Nat} {closed : Bool} :
    ¬ ChunkedBody chunkSize [] fields data n closed rest := by
  intro h
  cases h with
  | chunk line _ _ _ _ _ _ => simpa using line.length
  | last line _ _ => simpa using line.length
  | cut line zero => exact text_ne_nil_of_chunkSize zero (Line.text_eq_nil.mpr line.stream)

theorem chunkedBody_of_pumpChunked {env : Env} {limits : BodyLimits} {r r' : Reader} {total : Nat}
    {pushed : List Bytes} (h : pumpChunked env limits r total = (pushed, .ok r')) :
    r'.ending = r.ending ∧ ∃ fields n closed,
      ChunkedBody chunkSize r.bytes fields pushed.flatten n closed r'.bytes ∧
      min (total + pushed.flatten.length) usizeMax ≤ limits.maxBody ∧ n ≤ limits.maxHeaderBytes ∧
      (closed = true ∨ r.ending = .eof) := by
  fun_induction pumpChunked env limits r total generalizing pushed with
  | case1 | case2 | case3 | case4 | case6 | case7 | case8 => simp at h
  | case5 r total sizeLine r1 hsize hne hzero hlimit =>
      obtain ⟨rfl, hres⟩ := Prod.mk.inj h
      rcases readLine_ok.mp hsize with ⟨hline, hending⟩ | ⟨hcut, hending, rfl⟩
      · obtain ⟨hending1, n, closed, hsection, hbudget, hclosed⟩ := trailerSection_of_readTrailers (Nat.zero_le _) hres
        exact ⟨hending1.trans hending, _, n, closed, .last hline hzero hsection, by simp; omega, by omega,
          hending ▸ hclosed⟩
      · rw [readTrailers_eof] at hres
        cases hres
        exact ⟨hending.symm, _, 0, false, .cut hcut hzero, by simp; omega, Nat.zero_le _, .inr hending⟩
  | case9 r total sizeLine r1 hsize hne n hlen hlimit hn pushed' r2 hdata crlf r3 hcrlf hempty more res hrec ih =>
      obtain ⟨rfl, rfl⟩ := Prod.mk.inj h
      obtain ⟨hending4, fields, m, closed, hbody, hmax, hbudget, hclosed⟩ := ih hrec
      obtain ⟨hstream, hcount, hending2⟩ := pumpData_ok hdata
      have hdatane : pushed'.flatten ≠ [] := by
        intro hnil
        rw [hnil] at hcount
        exact hn hcount.symm
      rcases readLine_ok.mp hsize with ⟨hline, hending1⟩ | ⟨-, -, rfl⟩
      · rcases readLine_ok.mp hcrlf with ⟨hterm, hending3⟩ | ⟨-, -, rfl⟩
        · have hendings : r3.ending = r.ending := hending3.trans (hending2.trans hending1)
          refine ⟨hending4.trans hendings, sizeField sizeLine.content :: fields, m, closed, ?_, ?_, hbudget,
            hendings ▸ hclosed⟩
          · rw [List.flatten_append]
            exact .chunk hline (by rw [hlen, hcount]) hdatane hstream hterm (by simpa using hempty) hbody
          · rw [List.flatten_append, List.length_append, hcount]
            omega
        · exact absurd hbody not_chunkedBody_nil
      · simp at hstream
        exact absurd (by simpa using hstream.1) hdatane

theorem pumpChunked_of_chunkedBody {env : Env} (hquiet : env.Quiet) (limits : BodyLimits) (ending : Ending)
    (total : Nat) {n : Nat} {b data rest : Bytes} {fields : List Str} {closed : Bool}
    (hbody : ChunkedBody chunkSize b fields data n closed rest)
    (hmax : min (total + data.length) usizeMax ≤ limits.maxBody) (hbudget : n ≤ limits.maxHeaderBytes)
    (hclosed : closed = true ∨ ending = .eof) :
    ∃ pushed, pumpChunked env limits ⟨b, ending⟩ total = (pushed, .ok ⟨rest, ending⟩) ∧ pushed.flatten = data := by
  induction hbody generalizing total with
  | @chunk b mid rest mid' rest' fields more n closed l crlf data line len nonempty stream term empty _ ih =>
      rw [List.length_append] at hmax
      have hn : data.length ≠ 0 := by simpa using nonempty
      obtain ⟨pushed, r2, hdata⟩ := pumpData_complete hquiet limits.minBodyRateBps ⟨mid, ending⟩ data.length
        (by simp [stream])
      obtain ⟨hstream, hcount, hending⟩ := pumpData_ok hdata
      obtain ⟨hpushed, hrest⟩ := List.append_inj (hstream.symm.trans stream) hcount
      obtain ⟨bytes, ending2⟩ := r2
      dsimp only at hrest hending
      subst hrest hending
      obtain ⟨pushed', hnext, hmore⟩ := ih (total + data.length) (by omega) hbudget hclosed
      refine ⟨pushed ++ pushed', ?_, by rw [List.flatten_append, hpushed, hmore]⟩
      rw [pumpChunked_chunk (line.readLine (r := ⟨b, _⟩) _) line.text_ne_nil len ⟨?_, by omega⟩ hn hdata
        (term.readLine (r := ⟨_, _⟩) _) empty, hnext]
      have := chunkSize_le len
      omega
  | last line zero trailers =>
      rw [pumpChunked_last (line.readLine (r := ⟨_, ending⟩) _) line.text_ne_nil zero
          ⟨Nat.zero_le _, by simpa using hmax⟩,
        readTrailers_of_trailerSection trailers (by omega) hclosed]
      exact ⟨[], rfl, rfl⟩
  | cut line zero =>
      obtain rfl : ending = .eof := by simpa using hclosed
      rw [pumpChunked_last (line.readLine (r := ⟨_, .eof⟩) rfl _) (text_ne_nil_of_chunkSize zero) zero
          ⟨Nat.zero_le _, by simpa using hmax⟩, readTrailers_eof]
      exact ⟨[], rfl, rfl⟩

/-- With no timeout firing, `pump_chunked` returns exactly on the loose bodies. -/
theorem pumpChunked_ok_iff {env : Env} (hquiet : env.Quiet) (limits : BodyLimits) (r : Reader) (data rest : Bytes) :
    (∃ pushed r', pumpChunked env limits r 0 = (pushed, .ok r') ∧ pushed.flatten = data ∧ r'.bytes = rest) ↔
      ∃ fields closed, LooseBody limits r fields data closed rest := by
  constructor
  · rintro ⟨pushed, r', hok, rfl, rfl⟩
    obtain ⟨-, fields, n, closed, hbody, hmax, hbudget, hclosed⟩ := chunkedBody_of_pumpChunked hok
    exact ⟨fields, closed, n, hbody, by simpa using hmax, hbudget, hclosed⟩
  · rintro ⟨fields, closed, n, hbody, hmax, hbudget, hclosed⟩
    obtain ⟨pushed, hok, hdata⟩ := pumpChunked_of_chunkedBody hquiet _ _ 0 hbody (by simpa using hmax) hbudget
      hclosed
    exact ⟨pushed, _, hok, hdata, rfl⟩

theorem LooseBody.unique {limits : BodyLimits} {r : Reader} {fields fields' : List Str} {data data' : Bytes}
    {closed closed' : Bool} {rest rest' : Bytes} (h : LooseBody limits r fields data closed rest)
    (h' : LooseBody limits r fields' data' closed' rest') :
    fields = fields' ∧ data = data' ∧ closed = closed' ∧ rest = rest' := by
  obtain ⟨n, hbody, -⟩ := h
  obtain ⟨n', hbody', -⟩ := h'
  obtain ⟨hfields, hdata, -, hclosed, hrest⟩ := hbody.unique hbody'
  exact ⟨hfields, hdata, hclosed, hrest⟩

/-- The well-formed bodies are the loose ones that take no liberty. -/
theorem wellFormedBody_iff {limits : BodyLimits} {r : Reader} {data rest : Bytes} :
    WellFormedBody limits r.bytes data rest ↔
      ∃ fields, LooseBody limits r fields data true rest ∧ (∀ f ∈ fields, IsHexSize f) ∧
        data.length ≤ limits.maxBody := by
  constructor
  · rintro ⟨fields, n, hbody, hmax, hbudget⟩
    obtain ⟨hloose, hhex⟩ := chunkedBody_hexSize_iff.mp hbody
    exact ⟨fields, ⟨n, hloose, by omega, hbudget, .inl rfl⟩, hhex, hmax⟩
  · rintro ⟨fields, ⟨n, hloose, -, hbudget, -⟩, hhex, hmax⟩
    exact ⟨fields, n, chunkedBody_hexSize_iff.mpr ⟨hloose, hhex⟩, hmax, hbudget⟩

end ThreeVa.HttpServer
