import ThreeVa.HttpServer.Head
import Mathlib.Data.List.Perm.Basic

/-! `parse_request_head` on a stream that starts with a complete head. -/

namespace ThreeVa.HttpServer
open Text

@[simp] theorem rawLines_nil : rawLines [] = [] := rfl

@[simp] theorem rawLines_cons (l : Line) (ls : List Line) : rawLines (l :: ls) = l.raw ++ rawLines ls := rfl

/-! ## The two loops -/

theorem readRequestLine_step {maxHeaderBytes n : Nat} {r r1 : Reader} {line : Line}
    (hread : r.readLine "timeout: request line not received in time (Slowloris?)" = .ok (line, r1)) :
    readRequestLine maxHeaderBytes r n =
      if line.text = [] then .error (.silent "connection closed before request line")
      else if maxHeaderBytes < n + line.raw.length then
        .error (.silent ("request line flood: exceeded " ++ toString maxHeaderBytes ++ " bytes"))
      else if line.content = [] then readRequestLine maxHeaderBytes r1 (n + line.raw.length)
      else .ok (line, n + line.raw.length, r1) := by
  rw [readRequestLine]
  split
  · rename_i hread'
    rw [hread] at hread'
    cases hread'
  · rename_i hread'
    rw [hread] at hread'
    cases hread'
    rfl

theorem readHeaders_step {limits : HeadLimits} {st : HeadState} {n : Nat} {r r1 : Reader} {line : Line}
    (hread : r.readLine "timeout: headers not received in time (Slowloris?)" = .ok (line, r1)) :
    readHeaders limits r st n =
      if limits.maxHeaderBytes < n + line.raw.length then
        .error (.silent ("header flood: exceeded " ++ toString limits.maxHeaderBytes ++ " bytes"))
      else if line.content = [] then .ok (st, r1)
      else
        match addHeader limits st line with
        | .error e => .error e
        | .ok st => readHeaders limits r1 st (n + line.raw.length) := by
  rw [readHeaders]
  split
  · rename_i hread'
    rw [hread] at hread'
    cases hread'
  · rename_i hread'
    rw [hread] at hread'
    cases hread'
    rfl

theorem readRequestLine_ok_iff (maxHeaderBytes : Nat) (ending : Ending) {skipped : List Line} {request : Line}
    (hskipped : ∀ l ∈ skipped, l.Closed ∧ l.content = []) (hrequest : request.Closed ∧ request.content ≠ [])
    (rest : Bytes) (n : Nat) {line : Line} {n' : Nat} {r' : Reader} :
    readRequestLine maxHeaderBytes ⟨rawLines skipped ++ (request.raw ++ rest), ending⟩ n = .ok (line, n', r') ↔
      n + (rawLines skipped).length + request.raw.length ≤ maxHeaderBytes ∧ line = request ∧
        n' = n + (rawLines skipped).length + request.raw.length ∧ r' = ⟨rest, ending⟩ := by
  induction skipped generalizing n with
  | nil =>
      have hline : LineAt (request.raw ++ rest) request rest := ⟨rfl, hrequest.1⟩
      rw [rawLines_nil, List.nil_append, readRequestLine_step (hline.readLine (r := ⟨_, ending⟩) _),
        if_neg (Line.text_ne_nil_of_content hrequest.2)]
      split
      · simp only [List.length_nil, reduceCtorEq, false_iff]
        omega
      · rw [if_neg hrequest.2]
        simp only [Except.ok.injEq, Prod.mk.injEq, List.length_nil, Nat.add_zero, eq_comm]
        constructor
        · rintro ⟨rfl, rfl, rfl⟩
          exact ⟨by omega, rfl, rfl, rfl⟩
        · rintro ⟨-, rfl, rfl, rfl⟩
          exact ⟨rfl, rfl, rfl⟩
  | cons l skipped ih =>
      obtain ⟨hclosed, hempty⟩ := hskipped l (by simp)
      have hline : LineAt (l.raw ++ (rawLines skipped ++ (request.raw ++ rest))) l
          (rawLines skipped ++ (request.raw ++ rest)) := ⟨rfl, hclosed⟩
      rw [rawLines_cons, List.append_assoc, readRequestLine_step (hline.readLine (r := ⟨_, ending⟩) _),
        if_neg hline.text_ne_nil]
      split
      · simp only [List.length_append, reduceCtorEq, false_iff]
        omega
      · rw [ih (fun x hx => hskipped x (by simp [hx]))]
        simp only [List.length_append, Nat.add_assoc]

theorem readHeaders_ok_iff (limits : HeadLimits) (ending : Ending) {headers : List Line} {blank : Line}
    (hheaders : ∀ l ∈ headers, l.Closed ∧ l.content ≠ []) (hblank : blank.Closed ∧ blank.content = [])
    (rest : Bytes) (st : HeadState) (n : Nat) {st' : HeadState} {r' : Reader} :
    readHeaders limits ⟨rawLines headers ++ (blank.raw ++ rest), ending⟩ st n = .ok (st', r') ↔
      n + (rawLines headers).length + blank.raw.length ≤ limits.maxHeaderBytes ∧
        headers.foldlM (addHeader limits) st = .ok st' ∧ r' = ⟨rest, ending⟩ := by
  induction headers generalizing n st with
  | nil =>
      have hline : LineAt (blank.raw ++ rest) blank rest := ⟨rfl, hblank.1⟩
      rw [rawLines_nil, List.nil_append, readHeaders_step (hline.readLine (r := ⟨_, ending⟩) _)]
      split
      · simp only [List.length_nil, reduceCtorEq, false_iff]
        omega
      · rw [if_pos hblank.2]
        simp only [Except.ok.injEq, Prod.mk.injEq, List.length_nil, Nat.add_zero, List.foldlM_nil, pure, Except.pure]
        constructor
        · rintro ⟨rfl, rfl⟩
          exact ⟨by omega, rfl, rfl⟩
        · rintro ⟨-, rfl, rfl⟩
          exact ⟨rfl, rfl⟩
  | cons l headers ih =>
      obtain ⟨hclosed, hnonempty⟩ := hheaders l (by simp)
      have hline : LineAt (l.raw ++ (rawLines headers ++ (blank.raw ++ rest))) l
          (rawLines headers ++ (blank.raw ++ rest)) := ⟨rfl, hclosed⟩
      rw [rawLines_cons, List.append_assoc, readHeaders_step (hline.readLine (r := ⟨_, ending⟩) _)]
      split
      · simp only [List.length_append, reduceCtorEq, false_iff]
        omega
      · rw [List.foldlM_cons]
        cases hadd : addHeader limits st l with
        | error e => simp [bind, Except.bind]
        | ok st1 =>
            dsimp only [bind, Except.bind]
            rw [ih (fun x hx => hheaders x (by simp [hx]))]
            simp only [List.length_append, Nat.add_assoc]

/-! ## One header line -/

theorem content_head {l : Line} {c : Char} {cs : Str} (h : l.content = c :: cs) : l.text.head? = some c := by
  obtain ⟨t, ht⟩ : l.content <+: l.text := List.rdropWhile_prefix _ _
  rw [← ht, h]
  rfl

theorem headerField_eq_some {l : Line} {field : Str × Str} : headerField l = some field ↔ HeaderLine l field := by
  unfold headerField
  constructor
  · intro h
    split at h
    · cases h
    · split at h
      · cases h
      · rename_i name value hsplit
        obtain ⟨hcontent, hcolon⟩ := splitOnce_eq_some.mp hsplit
        split at h
        · cases h
        · rename_i hname
          rw [not_or, not_or] at hname
          exact ⟨name, value, hcontent, hname.1, hcolon, hname.2.1, hname.2.2, (Option.some.inj h).symm⟩
  · rintro ⟨name, value, hcontent, hne, hcolon, hsp, htab, rfl⟩
    obtain ⟨c, cs, rfl⟩ := List.exists_cons_of_ne_nil hne
    have hhead := content_head (l := l) (by rw [hcontent]; rfl)
    rw [if_neg]
    · rw [hcontent, splitOnce_append hcolon]
      simp [hne, hsp, htab]
    · rw [hhead]
      simp only [List.mem_cons, not_or] at hsp htab
      rintro (h | h)
      · exact hsp.1 (Option.some.inj h).symm
      · exact htab.1 (Option.some.inj h).symm

/-! ## Values that have to agree -/

/-- `P` reads every value as the same thing, `final`, which also agrees with what was read before. -/
structure Agree {α : Type} (P : Str → α → Prop) (prev : Option α) (vals : List Str) (final : Option α) : Prop where
  read : ∀ v ∈ vals, ∃ a, P v a ∧ final = some a
  kept : ∀ a, prev = some a → final = some a
  nothing : prev = none → vals = [] → final = none

section Agree

variable {α : Type} {P : Str → α → Prop} {prev final : Option α} {v : Str} {vs ws : List Str}

theorem agree_nil : Agree P prev [] final ↔ final = prev := by
  constructor
  · intro h
    cases hp : prev with
    | none => exact h.nothing hp rfl
    | some a => exact h.kept a hp
  · rintro rfl
    exact ⟨by simp, fun _ h => h, fun h _ => h⟩

theorem agree_cons :
    Agree P prev (v :: vs) final ↔ ∃ a, P v a ∧ (∀ b, prev = some b → b = a) ∧ Agree P (some a) vs final := by
  constructor
  · intro h
    obtain ⟨a, ha, hfinal⟩ := h.read v (by simp)
    refine ⟨a, ha, fun b hb => ?_, fun w hw => h.read w (by simp [hw]), fun b hb => by rw [hfinal, hb], by simp⟩
    exact Option.some.inj ((h.kept b hb).symm.trans hfinal)
  · rintro ⟨a, ha, hprev, h⟩
    have hfinal := h.kept a rfl
    refine ⟨fun w hw => ?_, fun b hb => by rw [hfinal, hprev b hb], by simp⟩
    rcases List.mem_cons.mp hw with rfl | hw
    · exact ⟨a, ha, hfinal⟩
    · exact h.read w hw

theorem Agree.eq_none_iff (h : Agree P none vs final) : final = none ↔ vs = [] := by
  constructor
  · intro hnone
    rw [List.eq_nil_iff_forall_not_mem]
    intro v hv
    obtain ⟨a, -, ha⟩ := h.read v hv
    rw [hnone] at ha
    cases ha
  · exact h.nothing rfl

theorem Agree.perm (h : Agree P prev vs final) (hperm : vs.Perm ws) : Agree P prev ws final :=
  ⟨fun w hw => h.read w (hperm.mem_iff.mpr hw), h.kept,
    fun hprev hnil => h.nothing hprev (List.Perm.nil_eq (hnil ▸ hperm.symm)).symm⟩

end Agree

/-! ## The accumulated fields -/

def LengthWithin (maxBody : Nat) (v : Str) (n : Nat) : Prop := DenotesLength v n ∧ n ≤ maxBody ∧ n ≤ usizeMax

theorem parseUnsigned_digits {v : Str} (hne : v ≠ []) (hdigits : ∀ c ∈ v, c.isDigit) :
    parseUnsigned 10 usizeMax v = (digitsValue 10 0 v).filter (· ≤ usizeMax) :=
  parseUnsigned_of_head hne fun hplus => by simpa using hdigits '+' hplus

theorem add_contentLength {maxBody : Nat} {st st' : HeadState} {value : Str} :
    st.add maxBody contentLengthName value = .ok st' ↔
      ∃ n, LengthWithin maxBody value n ∧ (∀ m, st.contentLength = some m → m = n) ∧
        st' = { st with contentLength := some n, headers := st.headers ++ [(contentLengthName, decimal n)] } := by
  rw [HeadState.add, if_pos rfl]
  by_cases hvalue : value = [] ∨ ¬ value.all Char.isDigit
  · rw [if_pos hvalue]
    simp only [badRequest, reduceCtorEq, false_iff, not_exists, not_and]
    rintro n ⟨⟨hne, hdigits, -⟩, -⟩
    exact absurd hvalue (by simpa [hne] using hdigits)
  · rw [if_neg hvalue]
    have hdigits : ∀ c ∈ value, c.isDigit := by simpa using (not_or.mp hvalue).2
    rw [parseUnsigned_digits (not_or.mp hvalue).1 hdigits]
    have hdenotes : ∀ n, DenotesLength value n ↔ digitsValue 10 0 value = some n :=
      fun n => ⟨fun h => h.2.2, fun h => ⟨(not_or.mp hvalue).1, hdigits, h⟩⟩
    have hwithin : ∀ n, LengthWithin maxBody value n ↔ digitsValue 10 0 value = some n ∧ n ≤ maxBody ∧ n ≤ usizeMax :=
      fun n => and_congr_left fun _ => hdenotes n
    simp only [hwithin]
    cases hparse : digitsValue 10 0 value with
    | none => simp [payloadTooLarge]
    | some n =>
        simp only [Option.filter_some, Option.some.injEq, decide_eq_true_eq]
        by_cases hmax : n ≤ usizeMax
        · rw [if_pos hmax]
          dsimp only
          by_cases hagree : ∀ m, st.contentLength = some m → m = n
          · rw [if_neg (by cases hcl : st.contentLength <;> simp_all)]
            by_cases hbody : n ≤ maxBody
            · rw [if_neg (by omega)]
              simp only [Except.ok.injEq]
              constructor
              · rintro rfl
                exact ⟨n, ⟨rfl, hbody, hmax⟩, hagree, rfl⟩
              · rintro ⟨_, ⟨rfl, -, -⟩, -, rfl⟩
                rfl
            · rw [if_pos (by omega)]
              simp only [payloadTooLarge, reduceCtorEq, false_iff, not_exists]
              rintro _ ⟨⟨rfl, h, -⟩, -⟩
              exact hbody h
          · rw [if_pos (by cases hcl : st.contentLength <;> simp_all)]
            simp only [badRequest, reduceCtorEq, false_iff, not_exists]
            rintro _ ⟨⟨rfl, -, -⟩, h, -⟩
            exact hagree h
        · rw [if_neg hmax]
          simp only [payloadTooLarge, reduceCtorEq, false_iff, not_exists]
          rintro _ ⟨⟨rfl, -, h⟩, -⟩
          exact hmax h

theorem add_transferEncoding {maxBody : Nat} {st st' : HeadState} {value : Str} :
    st.add maxBody transferEncodingName value = .ok st' ↔
      (∀ t, st.transferEncoding = some t → t = toAsciiLowercase value) ∧
        st' = { st with
          transferEncoding := some (toAsciiLowercase value)
          headers := st.headers ++ [(transferEncodingName, value)] } := by
  rw [HeadState.add, if_neg (by decide), if_pos rfl]
  cases hte : st.transferEncoding with
  | none => simp [eq_comm]
  | some t =>
      by_cases ht : t = toAsciiLowercase value
      · simp [ht, eq_comm]
      · simp [ht, badRequest]

theorem add_other {maxBody : Nat} {st : HeadState} {name value : Str} (hcl : name ≠ contentLengthName)
    (hte : name ≠ transferEncodingName) :
    st.add maxBody name value = .ok { st with headers := st.headers ++ [(name, value)] } := by
  rw [HeadState.add, if_neg hcl, if_neg hte]

theorem addHeader_ok_iff {limits : HeadLimits} {st st' : HeadState} {l : Line} :
    addHeader limits st l = .ok st' ↔
      st.headers.length < limits.maxHeaderCount ∧
        ∃ field, HeaderLine l field ∧ st.add limits.maxBody field.1 field.2 = .ok st' := by
  unfold addHeader
  split
  · simp only [reduceCtorEq, false_iff, not_and]
    omega
  · rename_i hcount
    simp only [← headerField_eq_some]
    cases hfield : headerField l with
    | none => simp [badRequest]
    | some field => simp; omega

@[simp] theorem fieldValues_nil (name : Str) : fieldValues name [] = [] := rfl

theorem fieldValues_cons (name n v : Str) (fs : List (Str × Str)) :
    fieldValues name ((n, v) :: fs) = if n = name then v :: fieldValues name fs else fieldValues name fs := by
  unfold fieldValues
  by_cases h : n = name <;> simp [h]

/-- What the header lines make of the framing state: the two framing headers agree with themselves. -/
structure Collected (maxBody : Nat) (st : HeadState) (fields : List (Str × Str)) (cl : Option Nat)
    (te : Option Str) : Prop where
  contentLength : Agree (LengthWithin maxBody) st.contentLength (fieldValues contentLengthName fields) cl
  transferEncoding : Agree (fun v t => t = toAsciiLowercase v) st.transferEncoding
    (fieldValues transferEncodingName fields) te

theorem collected_cons {maxBody : Nat} {st : HeadState} {f : Str × Str} {fs : List (Str × Str)} {cl : Option Nat}
    {te : Option Str} :
    Collected maxBody st (f :: fs) cl te ↔
      ∃ st1, st.add maxBody f.1 f.2 = .ok st1 ∧ Collected maxBody st1 fs cl te := by
  obtain ⟨name, value⟩ := f
  dsimp only
  by_cases hcl : name = contentLengthName
  · subst hcl
    simp only [add_contentLength]
    constructor
    · rintro ⟨h1, h2⟩
      rw [fieldValues_cons, if_pos rfl, agree_cons] at h1
      rw [fieldValues_cons, if_neg (by decide)] at h2
      obtain ⟨n, hn, hprev, h1⟩ := h1
      exact ⟨_, ⟨n, hn, hprev, rfl⟩, h1, h2⟩
    · rintro ⟨st1, ⟨n, hn, hprev, rfl⟩, h1, h2⟩
      refine ⟨?_, ?_⟩
      · rw [fieldValues_cons, if_pos rfl, agree_cons]
        exact ⟨n, hn, hprev, h1⟩
      · rw [fieldValues_cons, if_neg (by decide)]
        exact h2
  · by_cases hte : name = transferEncodingName
    · subst hte
      simp only [add_transferEncoding]
      constructor
      · rintro ⟨h1, h2⟩
        rw [fieldValues_cons, if_neg (by decide)] at h1
        rw [fieldValues_cons, if_pos rfl, agree_cons] at h2
        obtain ⟨t, rfl, hprev, h2⟩ := h2
        exact ⟨_, ⟨hprev, rfl⟩, h1, h2⟩
      · rintro ⟨st1, ⟨hprev, rfl⟩, h1, h2⟩
        refine ⟨?_, ?_⟩
        · rw [fieldValues_cons, if_neg (by decide)]
          exact h1
        · rw [fieldValues_cons, if_pos rfl, agree_cons]
          exact ⟨_, rfl, hprev, h2⟩
    · rw [add_other hcl hte]
      constructor
      · rintro ⟨h1, h2⟩
        rw [fieldValues_cons, if_neg hcl] at h1
        rw [fieldValues_cons, if_neg hte] at h2
        exact ⟨_, rfl, h1, h2⟩
      · rintro ⟨st1, hst1, h1, h2⟩
        cases hst1
        refine ⟨?_, ?_⟩
        · rw [fieldValues_cons, if_neg hcl]
          exact h1
        · rw [fieldValues_cons, if_neg hte]
          exact h2

theorem add_headers {maxBody : Nat} {st st' : HeadState} {name value : Str}
    (h : st.add maxBody name value = .ok st') : st'.headers.length = st.headers.length + 1 := by
  by_cases hcl : name = contentLengthName
  · subst hcl
    obtain ⟨n, -, -, rfl⟩ := add_contentLength.mp h
    simp
  · by_cases hte : name = transferEncodingName
    · subst hte
      obtain ⟨-, rfl⟩ := add_transferEncoding.mp h
      simp
    · rw [add_other hcl hte] at h
      cases h
      simp

/-- The header loop over the lines: no condition depends on their order. -/
theorem foldlM_addHeader_iff {limits : HeadLimits} {headers : List Line} {st : HeadState} {cl : Option Nat}
    {te : Option Str} (hcount : st.headers.length ≤ limits.maxHeaderCount) :
    (∃ st', headers.foldlM (addHeader limits) st = .ok st' ∧ st'.contentLength = cl ∧ st'.transferEncoding = te) ↔
      st.headers.length + headers.length ≤ limits.maxHeaderCount ∧
        ∃ fields, List.Forall₂ HeaderLine headers fields ∧ Collected limits.maxBody st fields cl te := by
  induction headers generalizing st with
  | nil =>
      simp only [List.foldlM_nil, pure, Except.pure, Except.ok.injEq, List.length_nil, Nat.add_zero, hcount, true_and]
      constructor
      · rintro ⟨_, rfl, rfl, rfl⟩
        exact ⟨[], .nil, agree_nil.mpr rfl, agree_nil.mpr rfl⟩
      · rintro ⟨fields, hlines, h1, h2⟩
        cases hlines
        exact ⟨st, rfl, (agree_nil.mp h1).symm, (agree_nil.mp h2).symm⟩
  | cons l headers ih =>
      rw [List.foldlM_cons]
      constructor
      · rintro ⟨st', hfold, hcl, hte⟩
        cases hadd : addHeader limits st l with
        | error e => rw [hadd] at hfold; cases hfold
        | ok st1 =>
            rw [hadd] at hfold
            obtain ⟨hlt, f, hline, hst1⟩ := addHeader_ok_iff.mp hadd
            have hlen := add_headers hst1
            obtain ⟨hle, fields, hlines, hcollected⟩ := (ih (by omega)).mp ⟨st', hfold, hcl, hte⟩
            refine ⟨by rw [List.length_cons]; omega, f :: fields, .cons hline hlines, ?_⟩
            exact collected_cons.mpr ⟨st1, hst1, hcollected⟩
      · rintro ⟨hle, fields, hlines, hcollected⟩
        rw [List.length_cons] at hle
        cases hlines with
        | cons hline hlines =>
            obtain ⟨st1, hst1, hcollected⟩ := collected_cons.mp hcollected
            have hlen := add_headers hst1
            obtain ⟨st', hfold, hcl, hte⟩ := (ih (by omega)).mpr ⟨by omega, _, hlines, hcollected⟩
            refine ⟨st', ?_, hcl, hte⟩
            rw [addHeader_ok_iff.mpr ⟨by omega, _, hline, hst1⟩]
            exact hfold

/-! ## The head -/

section Parse

variable {limits : HeadLimits} {ending : Ending} {b rest : Bytes} {skipped headers : List Line}
  {request blank : Line} {st : HeadState} {framing : BodyFraming}

theorem length_headBytes : (headBytes skipped request headers blank).length =
    (rawLines skipped).length + request.raw.length + (rawLines headers).length + blank.raw.length := by
  simp only [headBytes, List.length_append]
  omega

theorem parseRequestHead_sound (hhead : HeadAt b skipped request headers blank rest) {head : ParsedHead}
    {r' : Reader} (h : parseRequestHead limits ⟨b, ending⟩ = .ok (head, r')) :
    (headBytes skipped request headers blank).length ≤ limits.maxHeaderBytes ∧ r' = ⟨rest, ending⟩ ∧
      ∃ st, headers.foldlM (addHeader limits) .new = .ok st ∧ framingOf st = .ok head.framing := by
  rw [parseRequestHead, hhead.stream] at h
  cases hline : readRequestLine limits.maxHeaderBytes
      ⟨rawLines skipped ++ (request.raw ++ (rawLines headers ++ (blank.raw ++ rest))), ending⟩ 0 with
  | error e => rw [hline] at h; cases h
  | ok p =>
      obtain ⟨line, n, r1⟩ := p
      obtain ⟨-, rfl, rfl, rfl⟩ := (readRequestLine_ok_iff _ _ hhead.skipped_empty hhead.request_nonempty _ 0).mp hline
      rw [hline] at h
      dsimp only [bind, Except.bind] at h
      cases hheaders : readHeaders limits ⟨rawLines headers ++ (blank.raw ++ rest), ending⟩ .new
          (0 + (rawLines skipped).length + line.raw.length) with
      | error e => rw [hheaders] at h; cases h
      | ok p =>
          obtain ⟨st, r2⟩ := p
          obtain ⟨hsize, hfold, rfl⟩ :=
            (readHeaders_ok_iff _ _ hhead.headers_nonempty hhead.blank_empty rest _ _).mp hheaders
          rw [hheaders] at h
          dsimp only at h
          cases hframing : framingOf st with
          | error e => rw [hframing] at h; cases h
          | ok framing =>
              rw [hframing] at h
              cases h
              exact ⟨by rw [length_headBytes]; omega, rfl, st, hfold, hframing⟩

theorem parseRequestHead_complete (limits : HeadLimits) (ending : Ending)
    (hhead : HeadAt b skipped request headers blank rest)
    (hsize : (headBytes skipped request headers blank).length ≤ limits.maxHeaderBytes)
    (hfold : headers.foldlM (addHeader limits) .new = .ok st) (hframing : framingOf st = .ok framing) :
    ∃ head, parseRequestHead limits ⟨b, ending⟩ = .ok (head, ⟨rest, ending⟩) ∧ head.framing = framing := by
  rw [length_headBytes] at hsize
  have hline := (readRequestLine_ok_iff limits.maxHeaderBytes ending
    hhead.skipped_empty hhead.request_nonempty (rawLines headers ++ (blank.raw ++ rest)) 0).mpr
    ⟨by omega, rfl, rfl, rfl⟩
  have hheaders := (readHeaders_ok_iff limits ending hhead.headers_nonempty hhead.blank_empty
    rest .new (0 + (rawLines skipped).length + request.raw.length)).mpr ⟨by omega, hfold, rfl⟩
  rw [parseRequestHead, hhead.stream, hline]
  dsimp only [bind, Except.bind]
  rw [hheaders]
  dsimp only
  rw [hframing]
  exact ⟨_, rfl, rfl⟩

end Parse

/-! ## Streams that do not end with the head -/

theorem readRequestLine_lines {maxHeaderBytes n n' : Nat} {r r' : Reader} {request : Line}
    (h : readRequestLine maxHeaderBytes r n = .ok (request, n', r')) (hending : r.ending ≠ .eof) :
    r'.ending = r.ending ∧ ∃ skipped, r.bytes = rawLines skipped ++ (request.raw ++ r'.bytes) ∧
      (∀ l ∈ skipped, l.Closed ∧ l.content = []) ∧ request.Closed ∧ request.content ≠ [] := by
  fun_induction readRequestLine maxHeaderBytes r n with
  | case1 | case2 | case3 => cases h
  | case4 r n line r1 hread hne hfits hempty ih =>
      rcases readLine_ok.mp hread with ⟨hline, hending1⟩ | ⟨-, heof, -⟩
      · obtain ⟨hending', skipped, hstream, hskipped, hrequest⟩ := ih h (hending1 ▸ hending)
        refine ⟨hending'.trans hending1, line :: skipped, ?_, ?_, hrequest⟩
        · rw [hline.stream, hstream, rawLines_cons, List.append_assoc]
        · rw [List.forall_mem_cons]
          exact ⟨⟨hline.closed, hempty⟩, hskipped⟩
      · exact absurd heof hending
  | case5 r n line r1 hread hne hfits hcontent =>
      cases h
      rcases readLine_ok.mp hread with ⟨hline, hending1⟩ | ⟨-, heof, -⟩
      · exact ⟨hending1, [], hline.stream, by simp, hline.closed, hcontent⟩
      · exact absurd heof hending

theorem readHeaders_lines {limits : HeadLimits} {st st' : HeadState} {n : Nat} {r r' : Reader}
    (h : readHeaders limits r st n = .ok (st', r')) (hending : r.ending ≠ .eof) :
    r'.ending = r.ending ∧
      ∃ (headers : List Line) (blank : Line), r.bytes = rawLines headers ++ (blank.raw ++ r'.bytes) ∧
      (∀ l ∈ headers, l.Closed ∧ l.content ≠ []) ∧ blank.Closed ∧ blank.content = [] := by
  fun_induction readHeaders limits r st n with
  | case1 | case2 | case4 => cases h
  | case3 r st n line r1 hread hfits hempty =>
      cases h
      rcases readLine_ok.mp hread with ⟨hline, hending1⟩ | ⟨-, heof, -⟩
      · exact ⟨hending1, [], line, hline.stream, by simp, hline.closed, hempty⟩
      · exact absurd heof hending
  | case5 r st n line r1 hread hfits hcontent st1 hadd ih =>
      rcases readLine_ok.mp hread with ⟨hline, hending1⟩ | ⟨-, heof, -⟩
      · obtain ⟨hending', headers, blank, hstream, hheaders, hblank⟩ := ih h (hending1 ▸ hending)
        refine ⟨hending'.trans hending1, line :: headers, blank, ?_, ?_, hblank⟩
        · rw [hline.stream, hstream, rawLines_cons, List.append_assoc]
        · rw [List.forall_mem_cons]
          exact ⟨⟨hline.closed, hcontent⟩, hheaders⟩
      · exact absurd heof hending

/-- What is accepted before the stream has ended is a complete head. -/
theorem headAt_of_parseRequestHead {limits : HeadLimits} {r r' : Reader} {head : ParsedHead}
    (h : parseRequestHead limits r = .ok (head, r')) (hending : r.ending ≠ .eof) :
    ∃ skipped request headers blank, HeadAt r.bytes skipped request headers blank r'.bytes := by
  rw [parseRequestHead] at h
  cases hline : readRequestLine limits.maxHeaderBytes r 0 with
  | error e => rw [hline] at h; cases h
  | ok p =>
      obtain ⟨request, n, r1⟩ := p
      rw [hline] at h
      dsimp only [bind, Except.bind] at h
      cases hheaders : readHeaders limits r1 .new n with
      | error e => rw [hheaders] at h; cases h
      | ok p =>
          obtain ⟨st, r2⟩ := p
          rw [hheaders] at h
          dsimp only at h
          cases hframing : framingOf st with
          | error e => rw [hframing] at h; cases h
          | ok framing =>
              rw [hframing] at h
              cases h
              obtain ⟨hending1, skipped, hstream, hskipped, hrequest⟩ := readRequestLine_lines hline hending
              obtain ⟨-, headers, blank, hstream1, hnonempty, hblank⟩ :=
                readHeaders_lines hheaders (hending1 ▸ hending)
              exact ⟨skipped, request, headers, blank, by rw [hstream, hstream1], hskipped, hrequest, hnonempty, hblank⟩

/-! ## Framing -/

theorem framedBy_of_transferEncoding {maxBody : Nat} {fields : List (Str × Str)} {te : Str}
    (hcollected : Collected maxBody .new fields none (some te)) (hfinal : finalCoding te = "chunked".toList) :
    FramedBy maxBody fields .chunked := by
  obtain ⟨hcl, hte⟩ := hcollected
  have hnocl := hcl.eq_none_iff.mp rfl
  have hsomete : fieldValues transferEncodingName fields ≠ [] := by
    rw [Ne, ← hte.eq_none_iff]
    simp
  refine ⟨by simp [hsomete], fun v hv => ?_, fun _ => hnocl, fun n => by simp [hnocl]⟩
  obtain ⟨t, rfl, ht⟩ := hte.read v hv
  rw [Option.some.injEq] at ht
  rw [← ht]
  exact hfinal

theorem framedBy_of_contentLength {maxBody n : Nat} {fields : List (Str × Str)}
    (hcollected : Collected maxBody .new fields (some n) none) :
    FramedBy maxBody fields (if 0 < n then .length n else .none) := by
  obtain ⟨hcl, hte⟩ := hcollected
  have hnote := hte.eq_none_iff.mp rfl
  have hsomecl : fieldValues contentLengthName fields ≠ [] := by
    rw [Ne, ← hcl.eq_none_iff]
    simp
  have hread : ∀ v ∈ fieldValues contentLengthName fields, LengthWithin maxBody v n := by
    intro v hv
    obtain ⟨m, hm, hmn⟩ := hcl.read v hv
    rw [Option.some.injEq] at hmn
    exact hmn ▸ hm
  obtain ⟨v, hv⟩ := List.exists_mem_of_ne_nil _ hsomecl
  have honly : ∀ m, (∀ v ∈ fieldValues contentLengthName fields, DenotesLength v m) → m = n := by
    intro m hm
    exact Option.some.inj ((hm v hv).2.2.symm.trans (hread v hv).1.2.2)
  refine ⟨by split <;> simp [hnote], by simp [hnote], by simp [hnote], fun m => ?_⟩
  split
  · rename_i hpos
    constructor
    · intro hm
      cases hm
      exact ⟨hsomecl, fun v hv => (hread v hv).1, hpos, (hread v hv).2.1⟩
    · rintro ⟨-, hm, -, -⟩
      rw [honly m hm]
  · rename_i hzero
    simp only [reduceCtorEq, false_iff]
    rintro ⟨-, hm, hpos, -⟩
    rw [honly m hm] at hpos
    exact hzero hpos

theorem framedBy_of_collected {maxBody : Nat} {fields : List (Str × Str)} {st : HeadState} {framing : BodyFraming}
    (hcollected : Collected maxBody .new fields st.contentLength st.transferEncoding)
    (hframing : framingOf st = .ok framing) : FramedBy maxBody fields framing := by
  unfold framingOf at hframing
  cases hcl : st.contentLength with
  | none =>
      cases hte : st.transferEncoding with
      | none =>
          rw [hcl, hte] at hcollected hframing
          cases hframing
          have hnote := hcollected.2.eq_none_iff.mp rfl
          have hnocl := hcollected.1.eq_none_iff.mp rfl
          exact ⟨by simp [hnote], by simp [hnote], by simp [hnote], fun m => by simp [hnocl]⟩
      | some te =>
          rw [hcl, hte] at hcollected hframing
          dsimp only at hframing
          split at hframing
          · cases hframing
          · rename_i hfinal
            cases hframing
            exact framedBy_of_transferEncoding hcollected (by simpa using hfinal)
  | some n =>
      cases hte : st.transferEncoding with
      | none =>
          rw [hcl, hte] at hcollected hframing
          have hframed := framedBy_of_contentLength hcollected
          dsimp only at hframing
          split at hframing
          · rename_i hpos
            cases hframing
            rwa [if_pos hpos] at hframed
          · rename_i hzero
            cases hframing
            rwa [if_neg hzero] at hframed
      | some te =>
          rw [hcl, hte] at hframing
          cases hframing

theorem Collected.perm {maxBody : Nat} {st : HeadState} {fields fields' : List (Str × Str)} {cl : Option Nat}
    {te : Option Str} (h : Collected maxBody st fields cl te) (hperm : fields.Perm fields') :
    Collected maxBody st fields' cl te :=
  ⟨h.contentLength.perm ((hperm.filter _).map _), h.transferEncoding.perm ((hperm.filter _).map _)⟩

theorem HeadAt.perm {b rest : Bytes} {skipped headers headers' : List Line} {request blank : Line}
    (h : HeadAt b skipped request headers blank rest) (hperm : headers.Perm headers') :
    HeadAt (headBytes skipped request headers' blank ++ rest) skipped request headers' blank rest :=
  ⟨by simp [headBytes], h.skipped_empty, h.request_nonempty,
    fun l hl => h.headers_nonempty l (hperm.mem_iff.mpr hl), h.blank_empty⟩

theorem length_rawLines_perm {headers headers' : List Line} (hperm : headers.Perm headers') :
    (rawLines headers).length = (rawLines headers').length := by
  exact (hperm.map Line.raw).flatten.length_eq

theorem parseRequestHead_perm {limits : HeadLimits} {ending : Ending} {b rest : Bytes}
    {skipped headers headers' : List Line} {request blank : Line}
    (hhead : HeadAt b skipped request headers blank rest) {head : ParsedHead} {r' : Reader}
    (h : parseRequestHead limits ⟨b, ending⟩ = .ok (head, r')) (hperm : headers.Perm headers') :
    ∃ head', parseRequestHead limits ⟨headBytes skipped request headers' blank ++ rest, ending⟩ =
        .ok (head', ⟨rest, ending⟩) ∧ head'.framing = head.framing := by
  obtain ⟨hsize, -, st, hfold, hframing⟩ := parseRequestHead_sound hhead h
  obtain ⟨hcount, fields, hlines, hcollected⟩ := (foldlM_addHeader_iff (Nat.zero_le _)).mp ⟨st, hfold, rfl, rfl⟩
  obtain ⟨fields', hlines', hperm'⟩ := List.perm_comp_forall₂ hperm.symm hlines
  obtain ⟨st', hfold', hcl, hte⟩ := (foldlM_addHeader_iff (Nat.zero_le _)).mpr
    ⟨by rw [← hperm.length_eq]; exact hcount, fields', hlines', hcollected.perm hperm'.symm⟩
  apply parseRequestHead_complete _ _ (hhead.perm hperm) ?_ hfold' ?_
  · rw [length_headBytes, ← length_rawLines_perm hperm, ← length_headBytes]
    exact hsize
  · rw [← hframing, framingOf, framingOf, hcl, hte]

end ThreeVa.HttpServer
