import ThreeVa.Js.Imap
import ThreeVa.Lib.Lines
import ThreeVa.Lib.Words

/-!
# Reading the replies of an IMAP server
-/

namespace ThreeVa.Js.Imap
open Text

/-! ## Lines -/

/-- Nothing, or lines that each have an end. -/
def Whole (u : Bytes) : Prop := u = [] ∨ u.getLast? = some 10

variable {u v s : Bytes} {tag : Bytes}

theorem whole_append (hu : Whole u) (hv : Whole v) : Whole (u ++ v) := by
  rcases hv with rfl | hv
  · rwa [List.append_nil]
  · exact .inr (by rw [List.getLast?_append, hv]; rfl)

theorem whole_crlf (s : Bytes) : Whole (s ++ crlf) := by
  right
  rw [crlf, show s ++ [13, 10] = s ++ [13] ++ [10] by simp]
  exact List.getLast?_concat

theorem whole_flatMap {α : Type} {f : α → Bytes} (as : List α) (h : ∀ a, Whole (f a)) : Whole (as.flatMap f) := by
  induction as with
  | nil => exact .inl rfl
  | cons a as ih => exact whole_append (h a) ih

theorem readLine_cons (b : UInt8) (bs : Bytes) :
    readLine (b :: bs) =
      if b = 10 then ([], bs) else if b = 13 then readLine bs else ((readLine bs).1.cons b, (readLine bs).2) := rfl

theorem lines_nil : lines [] = [[]] := rfl

theorem lines_lf (bs : Bytes) : lines (10 :: bs) = [] :: lines bs := by
  rw [lines, List.filter_cons_of_pos (by decide), List.splitOn_cons_eq_if_modifyHead]
  rfl

theorem lines_cr (bs : Bytes) : lines (13 :: bs) = lines bs := by
  rw [lines, List.filter_cons_of_neg (by decide)]
  rfl

theorem lines_cons {b : UInt8} (h10 : b ≠ 10) (h13 : b ≠ 13) (bs : Bytes) :
    lines (b :: bs) = (lines bs).modifyHead (List.cons b) := by
  rw [lines, List.filter_cons_of_pos (by simpa using h13), List.splitOn_cons_eq_if_modifyHead, if_neg (by simpa using h10)]
  rfl

theorem lines_ne_nil (s : Bytes) : lines s ≠ [] := List.splitOn_ne_nil _ _

/-- The first line that is read of whole lines. -/
theorem readLine_whole (hu : Whole u) (hne : u ≠ []) :
    ∃ l u', lines u = l :: lines u' ∧ Whole u' ∧ u'.length < u.length ∧ ∀ v, readLine (u ++ v) = (l, u' ++ v) := by
  induction u with
  | nil => exact absurd rfl hne
  | cons b u ih =>
      have hlast : u ≠ [] → Whole u := fun hu' => by
        rcases hu with hu | hu
        · cases hu
        · rw [List.getLast?_cons_of_ne_nil hu'] at hu
          exact .inr hu
      by_cases h10 : b = 10
      · subst h10
        refine ⟨[], u, lines_lf u, ?_, by simp, fun v => rfl⟩
        by_cases hu' : u = []
        · exact .inl hu'
        · exact hlast hu'
      · have hu' : u ≠ [] := by
          rintro rfl
          rcases hu with hu | hu
          · cases hu
          · exact h10 (Option.some.inj hu)
        obtain ⟨l, u', hlines, hwhole, hlen, hread⟩ := ih (hlast hu') hu'
        have hlt : u'.length < (b :: u).length := by rw [List.length_cons]; omega
        by_cases h13 : b = 13
        · subst h13
          refine ⟨l, u', by rw [lines_cr, hlines], hwhole, hlt, fun v => ?_⟩
          rw [List.cons_append, readLine_cons, if_neg (by decide), if_pos rfl, hread]
        · refine ⟨b :: l, u', by rw [lines_cons h10 h13, hlines]; rfl, hwhole, hlt, fun v => ?_⟩
          rw [List.cons_append, readLine_cons, if_neg h10, if_neg h13, hread]

/-- What is read of any stream: its first line, or all that is left. -/
theorem readLine_lines (s : Bytes) :
    (lines s = (readLine s).1 :: lines (readLine s).2 ∧ (readLine s).2.length < s.length) ∨
      (lines s = [(readLine s).1] ∧ (readLine s).2 = []) := by
  induction s with
  | nil => exact .inr ⟨rfl, rfl⟩
  | cons b s ih =>
      rw [readLine_cons]
      by_cases h10 : b = 10
      · subst h10
        rw [if_pos rfl]
        exact .inl ⟨lines_lf s, by simp⟩
      · rw [if_neg h10]
        by_cases h13 : b = 13
        · subst h13
          rw [if_pos rfl, lines_cr]
          exact ih.imp (fun h => ⟨h.1, by rw [List.length_cons]; omega⟩) id
        · rw [if_neg h13, lines_cons h10 h13]
          rcases ih with ⟨hlines, hlen⟩ | ⟨hlines, hleft⟩
          · exact .inl ⟨by rw [hlines]; rfl, Nat.lt_succ_of_lt hlen⟩
          · exact .inr ⟨by rw [hlines]; rfl, hleft⟩

theorem readLine_plain (hs : Plain s) (v : Bytes) : readLine (s ++ crlf ++ v) = (s, v) := by
  induction s with
  | nil => rfl
  | cons b s ih =>
      have hb : b ≠ 10 ∧ b ≠ 13 := ⟨fun h => hs.1 (h ▸ List.mem_cons_self), fun h => hs.2 (h ▸ List.mem_cons_self)⟩
      have hrest := ih ⟨fun h => hs.1 (List.mem_cons_of_mem _ h), fun h => hs.2 (List.mem_cons_of_mem _ h)⟩
      rw [List.cons_append, List.cons_append, readLine_cons, if_neg hb.1, if_neg hb.2, hrest]

theorem length_readLine (s : Bytes) : (readLine s).2.length ≤ s.length := by
  rcases readLine_lines s with h | h
  · exact h.2.le
  · simp [h.2]

/-- A line has neither of the bytes that end one. -/
theorem plain_readLine (s : Bytes) : Plain (readLine s).1 := by
  induction s with
  | nil => exact ⟨List.not_mem_nil, List.not_mem_nil⟩
  | cons b s ih =>
      rw [readLine_cons]
      split
      · exact ⟨List.not_mem_nil, List.not_mem_nil⟩
      · rename_i h10
        split
        · exact ih
        · rename_i h13
          exact ⟨by simp [Ne.symm h10, ih.1], by simp [Ne.symm h13, ih.2]⟩

/-! ## Loops up to the tag -/

section Loop

variable {σ : Type} {handle : σ → Bytes → Option σ} {st : σ} {out : σ × Bytes}

/-- The loop comes to an end. -/
def Ended (tag : Bytes) (handle : σ → Bytes → Option σ) (st : σ) (unread : Bytes) (out : σ × Bytes) : Prop :=
  ∃ fuel, readUntil tag handle fuel st unread = .ended out

theorem readUntil_succ (fuel : Nat) (st : σ) (unread : Bytes) :
    readUntil tag handle (fuel + 1) st unread =
      if tag <+: (readLine unread).1 then .ended (st, (readLine unread).2)
      else
        match handle st (readLine unread).1 with
        | none => .panicked
        | some st' => readUntil tag handle fuel st' (readLine unread).2 := rfl

theorem ended_iff {unread : Bytes} :
    Ended tag handle st unread out ↔
      if tag <+: (readLine unread).1 then out = (st, (readLine unread).2)
      else ∃ st', handle st (readLine unread).1 = some st' ∧ Ended tag handle st' (readLine unread).2 out := by
  constructor
  · rintro ⟨fuel, hfuel⟩
    cases fuel with
    | zero => cases hfuel
    | succ fuel =>
        rw [readUntil_succ] at hfuel
        split at hfuel
        · rename_i htag
          rw [if_pos htag]
          cases hfuel
          rfl
        · rename_i htag
          rw [if_neg htag]
          cases hhandle : handle st (readLine unread).1 with
          | none => rw [hhandle] at hfuel; cases hfuel
          | some st' =>
              rw [hhandle] at hfuel
              exact ⟨st', rfl, fuel, hfuel⟩
  · intro h
    split at h
    · rename_i htag
      exact ⟨1, by rw [readUntil_succ, if_pos htag, h]⟩
    · rename_i htag
      obtain ⟨st', hhandle, fuel, hfuel⟩ := h
      exact ⟨fuel + 1, by rw [readUntil_succ, if_neg htag, hhandle]; exact hfuel⟩

/-- Nothing ends a loop after the end of the stream. -/
theorem not_ended_nil (htag : tag ≠ []) : ¬ Ended tag handle st [] out := by
  rintro ⟨fuel, hfuel⟩
  induction fuel generalizing st with
  | zero => cases hfuel
  | succ fuel ih =>
      have hstart : ¬ tag <+: (readLine []).1 := fun h => htag (List.prefix_nil.mp h)
      rw [readUntil_succ, if_neg hstart] at hfuel
      split at hfuel
      · cases hfuel
      · exact ih hfuel

/-- A loop comes to an end exactly if there is a line with the tag and what comes before it is handled. -/
theorem ended_iff_lines (htag : tag ≠ []) (unread : Bytes) (st : σ) :
    (∃ out, Ended tag handle st unread out) ↔
      ∃ before line after, lines unread = before ++ line :: after ∧ tag <+: line ∧ (∀ l ∈ before, ¬ tag <+: l) ∧
        (before.foldlM handle st).isSome = true := by
  induction hlen : unread.length using Nat.strongRecOn generalizing unread st with
  | _ len ih =>
      by_cases hstart : tag <+: (readLine unread).1
      · have hnow : ∃ out, Ended tag handle st unread out :=
          ⟨(st, (readLine unread).2), ended_iff.mpr (by rw [if_pos hstart])⟩
        refine iff_of_true hnow ?_
        rcases readLine_lines unread with ⟨hlines, -⟩ | ⟨hlines, -⟩
        · exact ⟨[], _, _, hlines, hstart, by simp, rfl⟩
        · exact ⟨[], _, [], hlines, hstart, by simp, rfl⟩
      · have hstep (out : σ × Bytes) : Ended tag handle st unread out ↔ _ := ended_iff
        simp only [hstep, if_neg hstart]
        rcases readLine_lines unread with ⟨hlines, hlt⟩ | ⟨hlines, hleft⟩
        · have hrest := fun st' => ih _ (hlen ▸ hlt) (readLine unread).2 st' rfl
          constructor
          · rintro ⟨out, st', hhandle, hended⟩
            obtain ⟨before, line, after, hafter, hline, hno, hfold⟩ := (hrest st').mp ⟨out, hended⟩
            refine ⟨(readLine unread).1 :: before, line, after, by rw [hlines, hafter]; rfl, hline,
              List.forall_mem_cons.mpr ⟨hstart, hno⟩, ?_⟩
            rw [List.foldlM_cons, hhandle]
            exact hfold
          · rintro ⟨before, line, after, hsame, hline, hno, hfold⟩
            cases before with
            | nil =>
                rw [hlines] at hsame
                exact absurd ((List.cons.inj hsame).1 ▸ hline) hstart
            | cons l before =>
                rw [hlines] at hsame
                obtain ⟨rfl, htail⟩ := List.cons.inj hsame
                rw [List.foldlM_cons] at hfold
                cases hhandle : handle st (readLine unread).1 with
                | none => rw [hhandle] at hfold; cases hfold
                | some st' =>
                    rw [hhandle] at hfold
                    obtain ⟨out, hended⟩ := (hrest st').mpr ⟨before, line, after, htail, hline,
                      fun l hl => hno l (List.mem_cons_of_mem _ hl), hfold⟩
                    exact ⟨out, st', rfl, hended⟩
        · constructor
          · rintro ⟨out, st', -, hended⟩
            rw [hleft] at hended
            exact absurd hended (not_ended_nil htag)
          · rintro ⟨before, line, after, hsame, hline, -, -⟩
            rw [hlines] at hsame
            obtain ⟨rfl, rfl⟩ : before = [] ∧ line = (readLine unread).1 := by
              cases before with
              | nil => exact ⟨rfl, (List.cons.inj hsame).1.symm⟩
              | cons l before => exact absurd (List.cons.inj hsame).2 (by simp)
            exact absurd hline hstart

/-- Whole lines without the tag are all read. -/
theorem ended_append (hu : Whole u) (hno : ∀ l ∈ lines u, ¬ tag <+: l) (v : Bytes) :
    Ended tag handle st (u ++ v) out ↔ ∃ st', (lines u).dropLast.foldlM handle st = some st' ∧ Ended tag handle st' v out := by
  induction hlen : u.length using Nat.strongRecOn generalizing u st with
  | _ len ih =>
      by_cases hne : u = []
      · subst hne
        simp [lines_nil]
      · obtain ⟨l, u', hlines, hwhole, hlt, hread⟩ := readLine_whole hu hne
        rw [hlines] at hno
        have hrest (st' : σ) : Ended tag handle st' (u' ++ v) out ↔
            ∃ st'', (lines u').dropLast.foldlM handle st' = some st'' ∧ Ended tag handle st'' v out :=
          ih _ (hlen ▸ hlt) hwhole (fun l hl => hno l (List.mem_cons_of_mem _ hl)) rfl
        rw [ended_iff, hread, if_neg (hno l List.mem_cons_self), hlines, List.dropLast_cons_of_ne_nil (lines_ne_nil u'),
          List.foldlM_cons]
        simp only [hrest]
        cases handle st l with
        | none => simp
        | some st' => simp

/-- Where a line begins with the tag too early, not all is read that stands before the rest. -/
theorem length_of_early (hu : Whole u) (hearly : ∃ l ∈ lines u, tag <+: l) (htag : tag ≠ [])
    (hended : Ended tag handle st (u ++ v) out) : v.length ≤ out.2.length := by
  induction hlen : u.length using Nat.strongRecOn generalizing u st with
  | _ len ih =>
      by_cases hne : u = []
      · subst hne
        obtain ⟨l, hl, hstart⟩ := hearly
        rw [lines_nil, List.mem_singleton] at hl
        exact absurd (List.prefix_nil.mp (hl ▸ hstart)) htag
      · obtain ⟨l, u', hlines, hwhole, hlt, hread⟩ := readLine_whole hu hne
        rw [ended_iff, hread] at hended
        split at hended
        · rw [hended, List.length_append]
          omega
        · rename_i hstart
          obtain ⟨st', -, hended⟩ := hended
          refine ih _ (hlen ▸ hlt) hwhole ?_ hended rfl
          obtain ⟨l', hl', hstart'⟩ := hearly
          rw [hlines] at hl'
          rcases List.mem_cons.mp hl' with rfl | hl'
          · exact absurd hstart' hstart
          · exact ⟨l', hl', hstart'⟩

end Loop

/-! ## What panics -/

theorem foldlM_skip (ls : List Bytes) : ls.foldlM (fun _ _ => some ()) () = some () := by
  induction ls with
  | nil => rfl
  | cons l ls ih => rw [List.foldlM_cons]; exact ih

theorem capability_eq_none {capabilities : List Str} {l : Bytes} :
    capability capabilities l = none ↔ l = capabilityPrefix := by
  have hlen : capabilityPrefix.length = 13 := by decide +kernel
  unfold capability
  constructor
  · intro h
    split at h
    · rename_i hstart
      split at h
      · obtain ⟨more, rfl⟩ := hstart
        have hmore : more = [] := by
          rw [← List.length_eq_zero_iff]
          rename_i hlt
          rw [List.length_append] at hlt
          omega
        rw [hmore, List.append_nil]
      · cases h
    · cases h
  · rintro rfl
    rw [if_pos (List.prefix_refl _), if_pos (by omega)]

theorem foldlM_capability (ls : List Bytes) (capabilities : List Str) :
    (ls.foldlM capability capabilities).isSome = true ↔ capabilityPrefix ∉ ls := by
  induction ls generalizing capabilities with
  | nil => simp
  | cons l ls ih =>
      rw [List.foldlM_cons, List.mem_cons, not_or]
      cases hl : capability capabilities l with
      | none => simp [capability_eq_none.mp hl]
      | some capabilities' =>
          have hne : capabilityPrefix ≠ l := fun h => by
            rw [capability_eq_none.mpr h.symm] at hl
            cases hl
          exact (ih capabilities').trans (by simp [hne])

namespace FetchLoop

variable {st st' : FetchLoop} {l : Bytes}

theorem flagsOf_eq_none {line : Str} : flagsOf line = none ↔ BadFlags line := by
  unfold flagsOf BadFlags
  constructor
  · intro h
    split at h
    · cases h
    · rename_i p hsplit
      obtain ⟨q, hq, hp⟩ := Option.bind_eq_some_iff.mp hsplit
      exact ⟨q.1, q.2, [], p, hq, hp, by simp⟩
    · rename_i c flags p hsplit
      split at h
      · cases h
      · rename_i hsize
        obtain ⟨q, hq, hp⟩ := Option.bind_eq_some_iff.mp hsplit
        exact ⟨q.1, q.2, c :: flags, p, hq, hp, by simpa using hsize⟩
  · rintro ⟨a, b, flags, c, hflags, hparen, hhead⟩
    rw [hflags, Option.bind_some, hparen]
    cases flags with
    | nil => rfl
    | cons ch flags => exact if_neg (hhead ch rfl)

/-- What is still to come of the counted text. -/
def owes (st : FetchLoop) : Option Nat :=
  if st.inLiteral = true then some (st.literalSize - st.literalBody.length) else none

theorem begins_literal (st : FetchLoop) (parts : List Str) :
    (st.begins parts).inLiteral = st.inLiteral ∧ (st.begins parts).literalSize = st.literalSize ∧
      (st.begins parts).literalBody = st.literalBody := by
  fun_induction begins st parts with
  | case1 _ _ _ _ _ _ ih => exact ih
  | case2 _ _ _ _ _ ih => exact ih
  | case3 => exact ⟨rfl, rfl, rfl⟩

theorem owes_eq_none : owes st = none ↔ st.inLiteral = false := by
  unfold owes
  cases st.inLiteral <;> simp

theorem dataLine_eq_some {line : Str} (h : dataLine st line = some st') :
    st'.inLiteral = st.inLiteral ∧ st'.literalSize = st.literalSize ∧ st'.literalBody = st.literalBody := by
  unfold dataLine at h
  split at h
  · obtain ⟨flags, -, rfl⟩ := Option.map_eq_some_iff.mp h
    cases flags <;> exact begins_literal st _
  · obtain rfl := Option.some.inj h
    exact ⟨rfl, rfl, rfl⟩

theorem dataLine_eq_none {line : Str} : dataLine st line = none ↔ "FETCH".toList <:+: line ∧ BadFlags line := by
  unfold dataLine
  split
  · rename_i hfetch
    rw [Option.map_eq_none_iff, flagsOf_eq_none]
    exact (and_iff_right hfetch).symm
  · rename_i hfetch
    exact iff_of_false (by simp) fun h => hfetch h.1

theorem literalLine_of_full (h : (st.literalBody ++ l).length ≥ st.literalSize) :
    st.literalLine l =
      { st with
        currentMsg := { st.currentMsg with body := some ((st.literalBody ++ l).take st.literalSize) }
        inLiteral := false
        literalBody := [] } := if_pos h

theorem literalLine_of_open (h : ¬ (st.literalBody ++ l).length ≥ st.literalSize) :
    st.literalLine l = { st with literalBody := st.literalBody ++ l } := if_neg h

/-- What is still to come after a line. -/
theorem owes_handle (h : handle st l = some st') : owes st' = owedAfter (owes st) l := by
  unfold handle at h
  unfold owedAfter
  have hsame : (Data.star <+: l ∧ owes st = none) ↔ Data.star <+: l ∧ st.inLiteral = false := by rw [owes_eq_none]
  split at h
  · rename_i hdata
    rw [if_pos (hsame.mpr hdata), owes_eq_none, (dataLine_eq_some h).1]
    exact hdata.2
  · rename_i hdata
    rw [if_neg (mt hsame.mp hdata)]
    split at h
    · rename_i hbrace
      rw [if_pos hbrace]
      split at h
      · rename_i size hsize
        obtain rfl := Option.some.inj h
        rw [hsize]
        rfl
      · rename_i hsize
        obtain rfl := Option.some.inj h
        rw [hsize, Option.none_or]
    · rename_i hbrace
      rw [if_neg hbrace]
      split at h
      · rename_i hliteral
        obtain rfl := Option.some.inj h
        rw [show owes st = some (st.literalSize - st.literalBody.length) from if_pos hliteral, Option.bind_some]
        by_cases hfull : (st.literalBody ++ l).length ≥ st.literalSize
        · rw [literalLine_of_full hfull]
          rw [List.length_append] at hfull
          exact (if_pos (by omega)).symm
        · rw [literalLine_of_open hfull, owes, if_pos hliteral]
          rw [List.length_append] at hfull
          rw [if_neg (by omega)]
          show some (st.literalSize - (st.literalBody ++ l).length) = _
          rw [List.length_append, Nat.sub_add_eq]
      · rename_i hliteral
        obtain rfl := Option.some.inj h
        rw [show owes st = none from if_neg hliteral]
        rfl

theorem handle_eq_none : handle st l = none ↔ owes st = none ∧ BadLine l := by
  rw [owes_eq_none]
  unfold handle BadLine
  split
  · rename_i hdata
    rw [dataLine_eq_none]
    exact ⟨fun h => ⟨hdata.2, hdata.1, h⟩, fun h => h.2.2⟩
  · rename_i hdata
    refine iff_of_false ?_ fun h => hdata ⟨h.2.1, h.1⟩
    split
    · split <;> simp
    · split <;> simp

theorem foldlM_handle (ls : List Bytes) (st : FetchLoop) :
    (ls.foldlM handle st).isSome = true ↔
      ∀ pre l post, ls = pre ++ l :: post → pre.foldl owedAfter (owes st) = none → ¬ BadLine l := by
  induction ls generalizing st with
  | nil => simp
  | cons l ls ih =>
      rw [List.foldlM_cons]
      cases hl : handle st l with
      | none =>
          have hbad := handle_eq_none.mp hl
          exact iff_of_false (by simp) fun h => h [] l ls rfl hbad.1 hbad.2
      | some st' =>
          refine (ih st').trans ⟨fun h pre l' post hsame howed => ?_, fun h pre l' post hsame howed => ?_⟩
          · cases pre with
            | nil =>
                obtain ⟨rfl, -⟩ := List.cons.inj hsame
                intro hbad
                rw [handle_eq_none.mpr ⟨howed, hbad⟩] at hl
                cases hl
            | cons x pre =>
                obtain ⟨rfl, htail⟩ := List.cons.inj hsame
                rw [List.foldl_cons, ← owes_handle hl] at howed
                exact h pre l' post htail howed
          · refine h (l :: pre) l' post (by rw [hsame]; rfl) ?_
            rw [List.foldl_cons, ← owes_handle hl]
            exact howed

end FetchLoop

/-! ## Streams that are closed -/

theorem Ran.map_eq_ended {α β : Type} {f : α → β} {r : Ran α} {b : β} : r.map f = .ended b ↔ ∃ a, r = .ended a ∧ f a = b := by
  cases r <;> simp [Ran.map]

theorem tagOf_cons (n : Nat) : ∃ ds : Str, (∀ c ∈ ds, c.isDigit = true) ∧ tagOf n = 65 :: encodeUtf8 ds := by
  refine ⟨List.replicate (4 - (decimal n).length) '0' ++ decimal n, fun c hc => ?_, rfl⟩
  rcases List.mem_append.mp hc with hc | hc
  · rw [List.eq_of_mem_replicate hc]
    rfl
  · exact decimal_isDigit hc

theorem tagOf_ne_nil (n : Nat) : tagOf n ≠ [] := by
  obtain ⟨ds, -, hds⟩ := tagOf_cons n
  rw [hds]
  simp

section Ends

variable {σ : Type} {handle : σ → Bytes → Option σ} {st : σ} {f : σ × Bytes → Outcome}

theorem ends_loop (htag : tag ≠ []) {fine : List Bytes → Prop}
    (hfine : ∀ before, (before.foldlM handle st).isSome = true ↔ fine before) (stream : Bytes) :
    (∃ fuel o, (readUntil tag handle fuel st stream).map f = .ended o) ↔ FindsTag tag fine stream := by
  have hended : (∃ fuel o, (readUntil tag handle fuel st stream).map f = .ended o) ↔
      ∃ out, Ended tag handle st stream out := by
    simp only [Ran.map_eq_ended]
    exact ⟨fun ⟨fuel, _, out, h, _⟩ => ⟨out, fuel, h⟩, fun ⟨out, fuel, h⟩ => ⟨fuel, _, out, h, rfl⟩⟩
  rw [hended, ended_iff_lines htag]
  simp only [hfine, FindsTag]

end Ends

theorem ends_iff (n : Nat) (cmd : ImapCommand) (stream : Bytes) :
    Ends (tagOf n) cmd stream ↔ Finds (tagOf n) stream cmd := by
  have htag := tagOf_ne_nil n
  have hskip : ∀ before : List Bytes, (before.foldlM (fun _ _ => some ()) ()).isSome = true ↔ True :=
    fun before => by rw [foldlM_skip]; simp
  cases cmd with
  | connect => exact ends_loop htag (fun before => foldlM_capability before []) stream
  | list | status | select | expunge | search | logout => exact ends_loop htag hskip stream
  | fetch => exact ends_loop htag (fun before => FetchLoop.foldlM_handle before .new) stream
  | append =>
      refine iff_of_true ⟨0, ?_⟩ trivial
      show ∃ o, (if encodeUtf8 ['+'] <+: (readLine stream).1 then _ else _) = Ran.ended o
      split <;> exact ⟨_, rfl⟩
  | login | create | delete | rename | subscribe | copy | move | store | close => exact iff_of_true ⟨0, _, rfl⟩ trivial

/-! ## Replies -/

theorem lines_whole (hu : Whole u) : lines u = (lines u).dropLast ++ [[]] := by
  rcases hu with rfl | hu
  · rfl
  · obtain ⟨w, rfl⟩ := List.getLast?_eq_some_iff.mp hu
    have hsplit : lines (w ++ [10]) = lines w ++ [[]] := by
      rw [lines, List.filter_append]
      exact List.splitOn_append_cons_self _ _
    rw [hsplit, List.dropLast_concat]

theorem forall_lines_whole (hu : Whole u) {p : Bytes → Prop} (hnil : p []) :
    (∀ l ∈ (lines u).dropLast, p l) ↔ ∀ l ∈ lines u, p l := by
  rw [lines_whole hu, List.dropLast_concat, List.forall_mem_append]
  simp [hnil]

theorem plain_append (hs : Plain s) (hv : Plain v) : Plain (s ++ v) := by
  simp [Plain, hs.1, hs.2, hv.1, hv.2]

theorem plain_encodeUtf8 {text : Str} (h : ∀ c ∈ text, c ≠ '\n' ∧ c ≠ '\r') : Plain (encodeUtf8 text) := by
  have hchar : ∀ b : UInt8, b.toNat < 0x80 → b ∈ encodeUtf8 text → ∃ c ∈ text, c.toNat = b.toNat := by
    intro b hb hmem
    obtain ⟨c, hc, hbc⟩ := List.mem_flatMap.mp hmem
    exact ⟨c, hc, toNat_of_mem_encodeChar hb hbc⟩
  constructor
  · intro hmem
    obtain ⟨c, hc, hcode⟩ := hchar 10 (by decide) hmem
    exact (h c hc).1 (Char.toNat_inj.mp hcode)
  · intro hmem
    obtain ⟨c, hc, hcode⟩ := hchar 13 (by decide) hmem
    exact (h c hc).2 (Char.toNat_inj.mp hcode)

theorem plain_tagOf (n : Nat) : Plain (tagOf n) := by
  refine plain_encodeUtf8 fun c hc => ?_
  have hdigit : ∀ c : Char, c.isDigit = true → c ≠ '\n' ∧ c ≠ '\r' := by
    intro c hc
    exact ⟨fun h => by rw [h] at hc; exact absurd hc (by decide), fun h => by rw [h] at hc; exact absurd hc (by decide)⟩
  rcases List.mem_append.mp hc with hc | hc
  · rcases List.mem_cons.mp hc with rfl | hc
    · exact ⟨by decide, by decide⟩
    · rw [List.eq_of_mem_replicate hc]
      exact ⟨by decide, by decide⟩
  · exact hdigit c (decimal_isDigit hc)

namespace Data

variable (d : Data)

theorem whole_write : Whole d.write := whole_crlf _

theorem write_cons : ∃ bs, d.write = 42 :: bs := ⟨_, rfl⟩

end Data

namespace Reply

variable {cmd : ImapCommand} (reply : Reply cmd) {next : Bytes}

theorem whole_data : Whole reply.data := whole_flatMap _ Data.whole_write

theorem data_eq_nil : reply.data = [] ↔ reply.untagged = [] := by
  rw [data, List.flatMap_eq_nil_iff]
  constructor
  · intro h
    refine List.eq_nil_iff_forall_not_mem.mpr fun d hd => ?_
    obtain ⟨bs, hbs⟩ := d.write_cons
    rw [h d hd] at hbs
    cases hbs
  · intro h d hd
    rw [h] at hd
    cases hd

theorem plain_taggedLine (n : Nat) : Plain (reply.taggedLine (tagOf n)) := by
  have hspace : Plain (encodeUtf8 [' ']) := plain_encodeUtf8 (by simp)
  have hstatus : Plain reply.status.text := by
    cases reply.status <;> exact plain_encodeUtf8 (by simp)
  exact plain_append (plain_append (plain_append (plain_append (plain_tagOf n) hspace) hstatus) hspace) reply.plain

theorem prefix_taggedLine (tag : Bytes) : tag <+: reply.taggedLine tag := by
  simp only [taggedLine, List.append_assoc]
  exact List.prefix_append _ _

theorem goOn_eq_nil (h : cmd ≠ .append) : reply.goOn = [] := by
  have hnone : reply.continuation = none := by
    cases hc : reply.continuation with
    | none => rfl
    | some p => exact absurd (reply.asks (by simp [hc])) h
  rw [goOn, hnone]
  rfl

theorem write_eq (h : cmd ≠ .append) (tag : Bytes) :
    reply.write tag ++ next = reply.data ++ (reply.taggedLine tag ++ crlf ++ next) := by
  rw [write, goOn_eq_nil reply h]
  simp

/-- A reply that a loop reads. -/
theorem served_loop {σ : Type} {handle : σ → Bytes → Option σ} {st : σ} {f : σ × Bytes → Outcome}
    (hf : ∀ p, (f p).unread = p.2) {P : Outcome → Prop} (happend : cmd ≠ .append) (n : Nat) :
    (∃ fuel o, (readUntil (tagOf n) handle fuel st (reply.write (tagOf n) ++ next)).map f = .ended o ∧ o.unread = next ∧ P o) ↔
      Unmistaken (tagOf n) reply ∧
        ∃ st', (lines reply.data).dropLast.foldlM handle st = some st' ∧ P (f (st', next)) := by
  have htagged : ∀ st' out, Ended (tagOf n) handle st' (reply.taggedLine (tagOf n) ++ crlf ++ next) out ↔
      out = (st', next) := by
    intro st' out
    rw [ended_iff, readLine_plain (reply.plain_taggedLine n), if_pos (reply.prefix_taggedLine _)]
  rw [reply.write_eq happend]
  constructor
  · rintro ⟨fuel, o, hrun, hunread, hP⟩
    obtain ⟨out, hout, rfl⟩ := Ran.map_eq_ended.mp hrun
    rw [hf] at hunread
    have hclear : Unmistaken (tagOf n) reply := by
      by_contra hmistaken
      simp only [Unmistaken, not_forall, not_not] at hmistaken
      obtain ⟨l, hl, hstart⟩ := hmistaken
      have hlen := length_of_early reply.whole_data ⟨l, hl, hstart⟩ (tagOf_ne_nil n) ⟨fuel, hout⟩
      rw [hunread, List.length_append, List.length_append] at hlen
      exact absurd hlen (by simp only [crlf, List.length_cons, List.length_nil]; omega)
    obtain ⟨st', hfold, hended⟩ := (ended_append reply.whole_data hclear _).mp ⟨fuel, hout⟩
    obtain rfl := (htagged st' out).mp hended
    exact ⟨hclear, st', hfold, hP⟩
  · rintro ⟨hclear, st', hfold, hP⟩
    obtain ⟨fuel, hfuel⟩ := (ended_append reply.whole_data hclear _).mpr ⟨st', hfold, (htagged st' _).mpr rfl⟩
    exact ⟨fuel, f (st', next), by rw [hfuel]; rfl, hf _, hP⟩

/-- The line after untagged data is read next exactly if there are no such data. -/
theorem readLine_data (ds : List Data) {line : Bytes} (hline : Plain line) :
    (readLine (ds.flatMap Data.write ++ (line ++ crlf ++ next))).2 = next ↔ ds = [] := by
  constructor
  · intro h
    by_contra hne
    obtain ⟨d, ds', rfl⟩ := List.exists_cons_of_ne_nil hne
    obtain ⟨bs, hbs⟩ := d.write_cons
    have hdata : (d :: ds').flatMap Data.write ≠ [] := by
      rw [List.flatMap_cons, hbs]
      simp
    obtain ⟨l, u', -, -, -, hread⟩ := readLine_whole (whole_flatMap _ Data.whole_write) hdata
    rw [hread] at h
    have hlen := congrArg List.length h
    simp only [List.length_append, crlf, List.length_cons, List.length_nil] at hlen
    omega
  · rintro rfl
    rw [List.flatMap_nil, List.nil_append, readLine_plain hline]

/-- What is asked besides that the reply is read to its end. -/
def Kept (cmd : ImapCommand) (reply : Reply cmd) (o : Outcome) : Prop :=
  (o.registered = true ∨ cmd = .logout ∧ reply.status = .ok) ∧
    (cmd = .fetch → ∀ d ∈ reply.untagged, ∀ seq, d.IsMessage seq → ∀ p ∈ d.literals,
      ∃ m ∈ o.messages, m.seq = seq ∧ m.body.getD [] = p.1)

theorem kept_of_registered (hfetch : cmd ≠ .fetch) {o : Outcome} (h : o.registered = true) : Kept cmd reply o :=
  ⟨.inl h, fun heq => absurd heq hfetch⟩

theorem served_readsOn (happend : cmd ≠ .append) (registered : Bool) (n : Nat) :
    (∃ fuel o, readsOn (tagOf n) registered fuel (reply.write (tagOf n) ++ next) = .ended o ∧ o.unread = next ∧
        Kept cmd reply o) ↔
      Unmistaken (tagOf n) reply ∧ Kept cmd reply ⟨next, registered, []⟩ := by
  refine (served_loop reply (fun _ => rfl) happend n).trans (and_congr_right fun _ => ?_)
  rw [foldlM_skip]
  exact ⟨fun ⟨_, _, h⟩ => h, fun h => ⟨(), rfl, h⟩⟩

theorem served_connect (reply : Reply .connect) (n : Nat) :
    Served (tagOf n) reply next ↔ Suits (tagOf n) reply := by
  refine (served_loop reply (P := Kept .connect reply) (fun _ => rfl) (by simp) n).trans (and_congr_right fun _ => ?_)
  have hnil : capabilityPrefix ≠ [] := by decide +kernel
  have hmem : capabilityPrefix ∉ (lines reply.data).dropLast ↔ capabilityPrefix ∉ lines reply.data := by
    rw [lines_whole reply.whole_data, List.dropLast_concat, List.mem_append, List.mem_singleton, not_or]
    exact (and_iff_left hnil).symm
  rw [← hmem, ← foldlM_capability _ [], Option.isSome_iff_exists]
  exact exists_congr fun st' => and_iff_left (kept_of_registered reply (by simp) rfl)

/-- A reply of which one line is read and looked at. -/
theorem served_readsOne (hfetch : cmd ≠ .fetch) (happend : cmd ≠ .append) (n : Nat) {r : Bytes → Bool}
    (hlogout : cmd ≠ .logout) :
    (∃ (_ : Nat) (o : Outcome),
        Ran.ended ⟨(readLine (reply.write (tagOf n) ++ next)).2, r (readLine (reply.write (tagOf n) ++ next)).1, []⟩ =
          Ran.ended o ∧ o.unread = next ∧ Kept cmd reply o) ↔
      reply.untagged = [] ∧ r (reply.taggedLine (tagOf n)) = true := by
  have hline : reply.untagged = [] →
      readLine (reply.write (tagOf n) ++ next) = (reply.taggedLine (tagOf n), next) := by
    intro h
    rw [reply.write_eq happend, (data_eq_nil reply).mpr h, List.nil_append, readLine_plain (reply.plain_taggedLine n)]
  constructor
  · rintro ⟨-, o, ho, hunread, hkept, -⟩
    obtain rfl := Ran.ended.inj ho
    have hnone : reply.untagged = [] := by
      rw [reply.write_eq happend] at hunread
      exact (readLine_data _ (reply.plain_taggedLine n)).mp hunread
    refine ⟨hnone, ?_⟩
    rw [hline hnone] at hkept
    exact hkept.resolve_right fun h => hlogout h.1
  · rintro ⟨hnone, hr⟩
    refine ⟨0, _, rfl, ?_⟩
    rw [hline hnone]
    exact ⟨rfl, kept_of_registered reply hfetch hr⟩

/-- What is unread after an `append`. -/
def leftByAppend (s : Bytes) : Bytes :=
  if encodeUtf8 ['+'] <+: (readLine s).1 then (readLine (readLine s).2).2 else (readLine s).2

theorem append_eq (s : Bytes) : append s = .ended ⟨leftByAppend s, true, []⟩ := by
  rw [append, leftByAppend]
  show (if encodeUtf8 ['+'] <+: (readLine s).1 then _ else _) = _
  split <;> rfl

/-- A text to be appended is asked for before the tagged line, or it is refused. -/
theorem served_append (reply : Reply .append) (n : Nat) : Served (tagOf n) reply next ↔ Suits (tagOf n) reply := by
  have htagged := reply.plain_taggedLine n
  have hserved : Served (tagOf n) reply next ↔ leftByAppend (reply.write (tagOf n) ++ next) = next := by
    constructor
    · rintro ⟨fuel, o, ho, hunread, -⟩
      obtain rfl := Ran.ended.inj ((append_eq _).symm.trans ho)
      exact hunread
    · exact fun h => ⟨0, _, append_eq _, h, kept_of_registered reply (by simp) rfl⟩
  rw [hserved]
  show _ ↔ reply.untagged = [] ∧ ∀ p ∈ reply.continuation, p.2 = []
  by_cases hdata : reply.untagged = []
  · rw [and_iff_right hdata, write, (data_eq_nil reply).mpr hdata, List.nil_append, goOn]
    cases hc : reply.continuation with
    | none =>
        obtain ⟨ds, -, hds⟩ := tagOf_cons n
        have hplus : ¬ encodeUtf8 ['+'] <+: reply.taggedLine (tagOf n) := by
          rw [show encodeUtf8 ['+'] = [43] from rfl, taggedLine, hds]
          simp [List.cons_prefix_cons]
        refine iff_of_true ?_ (by simp)
        rw [leftByAppend, Option.elim_none, List.nil_append, readLine_plain htagged, if_neg hplus]
    | some p =>
        have hplain : Plain (encodeUtf8 "+ ".toList ++ p.1) :=
          plain_append (plain_encodeUtf8 (by simp)) (reply.plain_continuation p hc)
        have hread : readLine (encodeUtf8 "+ ".toList ++ p.1 ++ crlf ++ p.2.flatMap Data.write ++
            (reply.taggedLine (tagOf n) ++ crlf) ++ next) =
              (encodeUtf8 "+ ".toList ++ p.1,
                p.2.flatMap Data.write ++ (reply.taggedLine (tagOf n) ++ crlf ++ next)) := by
          rw [← readLine_plain hplain]
          simp
        have hplus : encodeUtf8 ['+'] <+: encodeUtf8 "+ ".toList ++ p.1 := ⟨encodeUtf8 [' '] ++ p.1, rfl⟩
        rw [leftByAppend, Option.elim_some, hread, if_pos hplus, readLine_data p.2 htagged]
        simp
  · refine iff_of_false (fun h => ?_) fun h => hdata h.1
    have hne := (data_eq_nil reply).not.mpr hdata
    obtain ⟨l, u', -, -, -, hread⟩ := readLine_whole reply.whole_data hne
    have hstar : ¬ encodeUtf8 ['+'] <+: l := by
      obtain ⟨d, ds, hds⟩ := List.exists_cons_of_ne_nil hdata
      have hl : l = (readLine (reply.data ++ [])).1 := by rw [hread]
      rw [hl, data, hds]
      exact fun hstart => absurd (List.cons_prefix_cons.mp hstart).1 (by decide)
    rw [write, List.append_assoc, leftByAppend, hread, if_neg hstar] at h
    have hlen := congrArg List.length h
    simp only [List.length_append, crlf, List.length_cons, List.length_nil] at hlen
    omega

end Reply

/-! ## Braces at the start of a line -/

def brace : UInt8 := 123

/-- A brace stands at the start, or after a byte that is dropped from a line or ends it. -/
def opens (fresh : Bool) : Bytes → Bool
  | [] => false
  | b :: bs => (fresh && b == brace) || opens (b == 10 || b == 13) bs

/-- Whether what comes after a text is at the start. -/
def freshAfter (fresh : Bool) (s : Bytes) : Bool := s.getLast?.elim fresh fun b => b == 10 || b == 13

/-- What a body can be that is stored. -/
structure Smooth (b : Bytes) : Prop where
  plain : Plain b
  head : b.head? ≠ some brace

section Opens

variable {fresh : Bool} {s t : Bytes}

theorem opens_cons (fresh : Bool) (b : UInt8) (bs : Bytes) :
    opens fresh (b :: bs) = ((fresh && b == brace) || opens (b == 10 || b == 13) bs) := rfl

theorem opens_true_of (h : opens fresh s = true) : opens true s = true := by
  cases s with
  | nil => cases h
  | cons b bs =>
      rw [opens_cons, Bool.or_eq_true] at h ⊢
      exact h.imp_left fun h => by
        rw [Bool.and_eq_true] at h
        rw [h.2]
        rfl

theorem opens_append (fresh : Bool) (s t : Bytes) :
    opens fresh (s ++ t) = (opens fresh s || opens (freshAfter fresh s) t) := by
  induction s generalizing fresh with
  | nil => rfl
  | cons b s ih =>
      have hlast : freshAfter fresh (b :: s) = freshAfter (b == 10 || b == 13) s := by
        cases s with
        | nil => rfl
        | cons b' s => rw [freshAfter, freshAfter, List.getLast?_cons_cons, List.getLast?_eq_some_getLast (by simp)]; rfl
      rw [List.cons_append, opens_cons, opens_cons, ih, hlast, Bool.or_assoc]

theorem opens_plain (h : Plain s) (hopen : opens fresh s = true) : fresh = true ∧ s.head? = some brace := by
  induction s generalizing fresh with
  | nil => cases hopen
  | cons b s ih =>
      have hb : (b == 10 || b == 13) = false := by
        rw [Bool.or_eq_false_iff, beq_eq_false_iff_ne, beq_eq_false_iff_ne]
        exact ⟨fun heq => h.1 (heq ▸ List.mem_cons_self), fun heq => h.2 (heq ▸ List.mem_cons_self)⟩
      rw [opens_cons, hb, Bool.or_eq_true, Bool.and_eq_true] at hopen
      rcases hopen with hopen | hopen
      · exact ⟨hopen.1, by rw [List.head?_cons, eq_of_beq hopen.2]⟩
      · have hfalse := (ih ⟨fun hmem => h.1 (List.mem_cons_of_mem _ hmem), fun hmem => h.2 (List.mem_cons_of_mem _ hmem)⟩
          hopen).1
        cases hfalse

theorem freshAfter_plain (h : Plain s) (hne : s ≠ []) : freshAfter fresh s = false := by
  rw [freshAfter, List.getLast?_eq_some_getLast hne]
  have hlast := List.getLast_mem hne
  show (s.getLast hne == 10 || s.getLast hne == 13) = false
  rw [Bool.or_eq_false_iff, beq_eq_false_iff_ne, beq_eq_false_iff_ne]
  exact ⟨fun heq => h.1 (heq ▸ hlast), fun heq => h.2 (heq ▸ hlast)⟩

theorem not_smooth_of_opens (h : opens fresh s = true) : ¬ Smooth s := fun hs => hs.head (opens_plain hs.plain h).2

/-- A line that begins with a brace. -/
theorem opens_of_line (s : Bytes) :
    (∀ l ∈ lines s, [brace] <+: l → opens true s = true) ∧ (∀ l ∈ (lines s).tail, [brace] <+: l → opens false s = true) := by
  induction s with
  | nil =>
      rw [lines_nil]
      simp
  | cons b s ih =>
      by_cases h10 : b = 10
      · subst h10
        rw [lines_lf]
        refine ⟨fun l hl hbrace => ?_, fun l hl hbrace => ih.1 l hl hbrace⟩
        rcases List.mem_cons.mp hl with rfl | hl
        · exact absurd (List.prefix_nil.mp hbrace) (by simp)
        · exact ih.1 l hl hbrace
      · by_cases h13 : b = 13
        · subst h13
          rw [lines_cr]
          exact ⟨fun l hl hbrace => ih.1 l hl hbrace, fun l hl hbrace => ih.1 l (List.mem_of_mem_tail hl) hbrace⟩
        · have hb : (b == 10 || b == 13) = false := by simp [h10, h13]
          obtain ⟨l0, ls, hlines⟩ := List.exists_cons_of_ne_nil (lines_ne_nil s)
          rw [lines_cons h10 h13, hlines, opens_cons, opens_cons, hb]
          rw [hlines] at ih
          refine ⟨fun l hl hbrace => ?_, fun l hl hbrace => ?_⟩
          · rcases List.mem_cons.mp hl with rfl | hl
            · rw [← (List.cons_prefix_cons.mp hbrace).1]
              rfl
            · rw [ih.2 l hl hbrace, Bool.or_true]
          · rw [ih.2 l hl hbrace, Bool.or_true]

end Opens

namespace Data

theorem plain_size (literal : Bytes) : Plain (encodeUtf8 ('\x7b' :: decimal literal.length ++ ['\x7d'])) := by
  refine plain_encodeUtf8 fun c hc => ?_
  rcases List.mem_append.mp hc with hc | hc
  · rcases List.mem_cons.mp hc with rfl | hc
    · exact ⟨by decide, by decide⟩
    · have hdigit := decimal_isDigit hc
      exact ⟨fun h => by rw [h] at hdigit; exact absurd hdigit (by decide),
        fun h => by rw [h] at hdigit; exact absurd hdigit (by decide)⟩
  · rw [List.mem_singleton.mp hc]
    exact ⟨by decide, by decide⟩

/-- Where a line begins with a brace among counted texts, one of these is not smooth. -/
theorem opens_literals (ls : List (Bytes × Bytes)) (hplain : ∀ p ∈ ls, Plain p.2) (hafter : ∀ p ∈ ls, p.2.head? ≠ some brace)
    (hbetween : ∀ p ∈ ls.dropLast, p.2 ≠ [])
    (h : opens false (ls.flatMap (fun p => writeLiteral p.1 ++ p.2) ++ crlf) = true) : ∃ p ∈ ls, ¬ Smooth p.1 := by
  induction ls with
  | nil => cases h
  | cons p ls ih =>
      by_contra hsmooth
      simp only [not_exists, not_and, not_not] at hsmooth
      rw [List.flatMap_cons, writeLiteral] at h
      simp only [List.append_assoc] at h
      rw [opens_append, Bool.or_eq_true] at h
      rcases h with h | h
      · cases (opens_plain (plain_size p.1) h).1
      · have hrest : opens true (p.1 ++ (p.2 ++ (ls.flatMap (fun p => writeLiteral p.1 ++ p.2) ++ crlf))) = true := by
          simpa [crlf, opens_cons, brace, writeLiteral] using h
        rw [opens_append, opens_append, Bool.or_eq_true, Bool.or_eq_true] at hrest
        rcases hrest with hliteral | htext | hrest
        · exact not_smooth_of_opens hliteral (hsmooth p List.mem_cons_self)
        · exact hafter p List.mem_cons_self (opens_plain (hplain p List.mem_cons_self) htext).2
        · cases ls with
          | nil =>
              have hend : ∀ fresh, opens fresh crlf = false := by decide
              rw [List.flatMap_nil, List.nil_append, hend] at hrest
              cases hrest
          | cons q ls =>
              have hne : p.2 ≠ [] := hbetween p (by simp)
              rw [freshAfter_plain (hplain p List.mem_cons_self) hne] at hrest
              obtain ⟨q', hq', hbad⟩ := ih (fun q hq => hplain q (List.mem_cons_of_mem _ hq))
                (fun q hq => hafter q (List.mem_cons_of_mem _ hq))
                (fun q' hq' => hbetween q' (by rw [List.dropLast_cons_cons]; exact List.mem_cons_of_mem _ hq')) hrest
              exact hbad (hsmooth q' (List.mem_cons_of_mem _ hq'))

theorem star_eq : star = [42, 32] := by decide +kernel

theorem opens_write (d : Data) (h : opens true d.write = true) : ∃ p ∈ d.literals, ¬ Smooth p.1 := by
  have hstar : Plain (star ++ d.text) := plain_append (plain_encodeUtf8 (by simp)) d.plain
  rw [write, List.append_assoc, opens_append, Bool.or_eq_true] at h
  rcases h with h | h
  · cases (opens_plain hstar h).2
  · rw [freshAfter_plain hstar (by rw [star_eq]; simp)] at h
    exact opens_literals d.literals d.plain_after d.after d.between h

theorem opens_flatMap (ds : List Data) (h : opens true (ds.flatMap write) = true) : ∃ d ∈ ds, ∃ p ∈ d.literals, ¬ Smooth p.1 := by
  induction ds with
  | nil => cases h
  | cons d ds ih =>
      rw [List.flatMap_cons, opens_append, Bool.or_eq_true] at h
      rcases h with h | h
      · exact ⟨d, List.mem_cons_self, d.opens_write h⟩
      · obtain ⟨d', hd', hp⟩ := ih (opens_true_of h)
        exact ⟨d', List.mem_cons_of_mem _ hd', hp⟩

end Data

/-! ## Bodies -/

theorem brace_eq : encodeUtf8 ['{'] = [brace] := by decide +kernel

theorem plain_of_mem_lines {l : Bytes} (h : l ∈ lines s) : Plain l := by
  rw [lines, List.splitOn_eq_splitOnP] at h
  obtain ⟨hsub, hsep⟩ := mem_splitOnP h
  refine ⟨fun hmem => by simpa using hsep 10 hmem, fun hmem => ?_⟩
  simpa using hsub.subset hmem

theorem smooth_nil : Smooth [] := ⟨⟨List.not_mem_nil, List.not_mem_nil⟩, by simp⟩

theorem Smooth.take {b : Bytes} (h : Smooth b) (n : Nat) : Smooth (b.take n) where
  plain := ⟨fun hmem => h.plain.1 (List.mem_of_mem_take hmem), fun hmem => h.plain.2 (List.mem_of_mem_take hmem)⟩
  head := by
    cases n with
    | zero => simp
    | succ n =>
        cases b with
        | nil => simp
        | cons x b => exact h.head

theorem Smooth.append {b l : Bytes} (h : Smooth b) (hl : Plain l) (hbrace : ¬ encodeUtf8 ['{'] <+: l) : Smooth (b ++ l) where
  plain := plain_append h.plain hl
  head := by
    cases b with
    | nil =>
        rw [brace_eq, List.singleton_prefix_iff_head?_eq_some] at hbrace
        exact hbrace
    | cons x b => exact h.head

namespace FetchLoop

variable {st st' : FetchLoop} {l : Bytes}

/-- All messages, the last of them still open. -/
def all (st : FetchLoop) : List FetchMessage := st.messages ++ [st.currentMsg]

theorem mem_stored {m : FetchMessage} (h : m ∈ st.all) (hseq : 0 < m.seq) : m ∈ st.stored := by
  unfold stored
  rcases List.mem_append.mp h with h | h
  · split
    · exact List.mem_append_left _ h
    · exact h
  · obtain rfl := List.mem_singleton.mp h
    rw [if_pos hseq]
    exact List.mem_append_right _ h

theorem stored_subset {m : FetchMessage} (h : m ∈ st.stored) : m ∈ st.all := by
  unfold stored at h
  split at h
  · exact h
  · exact List.mem_append_left _ h

/-- A property of every body. -/
def Bodies (P : Option Bytes → Prop) (st : FetchLoop) : Prop := ∀ m ∈ st.all, P m.body

variable {P : Option Bytes → Prop}

theorem Bodies.begins (hnone : P none) (h : st.Bodies P) (parts : List Str) : (st.begins parts).Bodies P := by
  fun_induction FetchLoop.begins st parts with
  | case1 st _ _ _ seq _ ih =>
      refine ih fun m hm => ?_
      rcases List.mem_append.mp hm with hm | hm
      · exact h m (stored_subset hm)
      · rw [List.mem_singleton.mp hm]
        exact hnone
  | case2 _ _ _ _ _ ih => exact ih h
  | case3 => exact h

theorem Bodies.of_current {c : FetchMessage} (h : st.Bodies P) (hc : P c.body) : Bodies P { st with currentMsg := c } := by
  intro m hm
  rcases List.mem_append.mp hm with hm | hm
  · exact h m (List.mem_append_left _ hm)
  · rw [List.mem_singleton.mp hm]
    exact hc

theorem Bodies.dataLine {line : Str} (hnone : P none) (h : st.Bodies P) (hline : dataLine st line = some st') : st'.Bodies P := by
  unfold FetchLoop.dataLine at hline
  split at hline
  · obtain ⟨flags, -, rfl⟩ := Option.map_eq_some_iff.mp hline
    have hbegins := h.begins hnone (splitWhitespace line)
    cases flags with
    | none => exact hbegins
    | some flags =>
        have hcurrent : P (st.begins (splitWhitespace line)).currentMsg.body :=
          hbegins _ (List.mem_append_right _ (List.mem_singleton_self _))
        exact hbegins.of_current hcurrent
  · obtain rfl := Option.some.inj hline
    exact h

/-- No body is stored, and none is under way. -/
structure Quiet (st : FetchLoop) : Prop where
  bodies : st.Bodies (· = none)
  outside : st.inLiteral = false

theorem Quiet.handle (h : st.Quiet) (hbrace : ¬ encodeUtf8 ['{'] <+: l) (hl : handle st l = some st') : st'.Quiet := by
  unfold FetchLoop.handle at hl
  split at hl
  · exact ⟨h.bodies.dataLine rfl hl, by rw [(dataLine_eq_some hl).1, h.outside]⟩
  · rw [h.outside] at hl
    obtain rfl := Option.some.inj hl
    exact h

/-- Every body that is stored or under way is smooth. -/
structure SmoothBodies (st : FetchLoop) : Prop where
  bodies : st.Bodies fun body => ∀ b ∈ body, Smooth b
  underWay : Smooth st.literalBody

theorem SmoothBodies.handle (h : st.SmoothBodies) (hplain : Plain l) (hl : handle st l = some st') : st'.SmoothBodies := by
  unfold FetchLoop.handle at hl
  split at hl
  · refine ⟨h.bodies.dataLine (by simp) hl, ?_⟩
    rw [(dataLine_eq_some hl).2.2]
    exact h.underWay
  · split at hl
    · split at hl
      · obtain rfl := Option.some.inj hl
        exact ⟨h.bodies, smooth_nil⟩
      · obtain rfl := Option.some.inj hl
        exact h
    · rename_i hbrace
      split at hl
      · obtain rfl := Option.some.inj hl
        have hbody := h.underWay.append hplain hbrace
        by_cases hfull : (st.literalBody ++ l).length ≥ st.literalSize
        · rw [literalLine_of_full hfull]
          refine ⟨fun m hm => ?_, smooth_nil⟩
          rcases List.mem_append.mp hm with hm | hm
          · exact h.bodies m (List.mem_append_left _ hm)
          · rw [List.mem_singleton.mp hm]
            intro b hb
            obtain rfl := Option.some.inj hb
            exact hbody.take _
        · rw [literalLine_of_open hfull]
          exact ⟨h.bodies, hbody⟩
      · obtain rfl := Option.some.inj hl
        exact h

theorem quiet_new : new.Quiet := ⟨by simp [Bodies, all, new], rfl⟩

theorem smoothBodies_new : new.SmoothBodies := ⟨by simp [Bodies, all, new], smooth_nil⟩

/-! ### Messages that began -/

/-- A message with the number. -/
def Has (st : FetchLoop) (seq : Nat) : Prop := ∃ m ∈ st.all, m.seq = seq

variable {seq : Nat}

theorem Has.of_same (h : st.Has seq) (hsame : st'.all.map FetchMessage.seq = st.all.map FetchMessage.seq) : st'.Has seq := by
  obtain ⟨m, hm, rfl⟩ := h
  obtain ⟨m', hm', hseq⟩ := List.mem_map.mp (hsame ▸ List.mem_map_of_mem hm)
  exact ⟨m', hm', hseq⟩

theorem Has.begins (h : st.Has seq) (hseq : 0 < seq) (parts : List Str) : (st.begins parts).Has seq := by
  fun_induction FetchLoop.begins st parts with
  | case1 st _ _ _ seq' _ ih =>
      obtain ⟨m, hm, rfl⟩ := h
      exact ih ⟨m, List.mem_append_left _ (mem_stored hm hseq), rfl⟩
  | case2 _ _ _ _ _ ih => exact ih h
  | case3 => exact h

theorem all_current (st : FetchLoop) (c : FetchMessage) (hc : c.seq = st.currentMsg.seq) :
    ({ st with currentMsg := c } : FetchLoop).all.map FetchMessage.seq = st.all.map FetchMessage.seq := by
  simp [all, hc]

theorem Has.dataLine {line : Str} (h : st.Has seq ∨ ("FETCH".toList <:+: line ∧ (st.begins (splitWhitespace line)).Has seq))
    (hseq : 0 < seq) (hline : dataLine st line = some st') : st'.Has seq := by
  unfold FetchLoop.dataLine at hline
  split at hline
  · obtain ⟨flags, -, rfl⟩ := Option.map_eq_some_iff.mp hline
    have hbegins : (st.begins (splitWhitespace line)).Has seq := h.elim (fun h => h.begins hseq _) fun h => h.2
    cases flags with
    | none => exact hbegins
    | some flags => exact hbegins.of_same (all_current _ _ rfl)
  · rename_i hfetch
    obtain rfl := Option.some.inj hline
    exact h.resolve_right fun h => hfetch h.1

theorem Has.handle (h : st.Has seq) (hseq : 0 < seq) (hl : handle st l = some st') : st'.Has seq := by
  unfold FetchLoop.handle at hl
  split at hl
  · exact Has.dataLine (.inl h) hseq hl
  · split at hl
    · split at hl <;> obtain rfl := Option.some.inj hl <;> exact h
    · split at hl
      · obtain rfl := Option.some.inj hl
        by_cases hfull : (st.literalBody ++ l).length ≥ st.literalSize
        · rw [literalLine_of_full hfull]
          exact h.of_same (all_current st _ rfl)
        · rw [literalLine_of_open hfull]
          exact h
      · obtain rfl := Option.some.inj hl
        exact h

end FetchLoop

/-! ## Lines about messages -/

theorem fromUtf8Lossy_append {text : Str} (h : ∀ c ∈ text, c.toNat < 0x80) (bs : Bytes) :
    fromUtf8Lossy (encodeUtf8 text ++ bs) = text ++ fromUtf8Lossy bs := by
  induction text with
  | nil => rfl
  | cons c text ih =>
      have hc := h c List.mem_cons_self
      have hchar : encodeUtf8 (c :: text) ++ bs = UInt8.ofNat c.toNat :: (encodeUtf8 text ++ bs) := by
        rw [encodeUtf8, List.flatMap_cons, encodeChar, if_pos hc]
        rfl
      have hfirst : firstLossy (.ofNat c.toNat) (encodeUtf8 text ++ bs) = (c, encodeUtf8 text ++ bs) := by
        rw [firstLossy]
        simp only [toNat_ofNat_uint8 (show c.toNat < 256 by omega), hc, if_true, Char.ofNat_toNat]
      rw [hchar, fromUtf8Lossy, List.length_cons, fromUtf8LossyUpTo, hfirst]
      exact congrArg (c :: ·) (ih fun c hc => h c (List.mem_cons_of_mem _ hc))

/-- A line that begins like the data of a message. -/
theorem begins_message {st : FetchLoop} {seq : Nat} (hseq : 0 < seq ∧ seq ≤ u32Max) (more : Str) :
    (st.begins (splitWhitespace ("* ".toList ++ decimal seq ++ " FETCH ".toList ++ more))).Has seq := by
  have hword : ∀ c ∈ decimal seq, isWhitespace c = false := by
    intro c hc
    have hdigit := decimal_isDigit hc
    simp only [Char.isDigit, Bool.and_eq_true, decide_eq_true_eq, UInt32.le_iff_toNat_le] at hdigit
    have h0 : (48 : Nat) ≤ c.toNat := hdigit.1
    have h9 : c.toNat ≤ 57 := hdigit.2
    simp only [isWhitespace, Bool.or_eq_false_iff, Bool.and_eq_false_iff, decide_eq_false_iff_not]
    omega
  have hwords : splitWhitespace ("* ".toList ++ decimal seq ++ " FETCH ".toList ++ more) =
      ['*'] :: decimal seq :: splitWhitespace ("FETCH ".toList ++ more) := by
    have hne : decimal seq ≠ [] := Nat.toDigits_ne_nil
    rw [show "* ".toList ++ decimal seq ++ " FETCH ".toList ++ more =
        ['*'] ++ ' ' :: (decimal seq ++ ' ' :: ("FETCH ".toList ++ more)) by simp,
      splitWhitespace_append_cons _ _ (by decide), splitWhitespace_append_cons _ _ (by decide),
      splitWhitespace_word hne hword, splitWhitespace_word (by simp) (List.forall_mem_singleton.mpr rfl)]
    rfl
  have hstep : st.begins (['*'] :: decimal seq :: splitWhitespace ("FETCH ".toList ++ more)) =
      FetchLoop.begins { st with messages := st.stored, currentMsg := ⟨seq, none, none⟩ }
        (decimal seq :: splitWhitespace ("FETCH ".toList ++ more)) := by
    rw [FetchLoop.begins, if_pos rfl, parseUnsigned_decimal hseq.2]
  rw [hwords, hstep]
  refine FetchLoop.Has.begins ⟨⟨seq, none, none⟩, ?_, rfl⟩ hseq.1 _
  exact List.mem_append_right _ (List.mem_singleton_self _)

theorem ascii_star : ∀ c ∈ "* ".toList, c.toNat < 0x80 := by simp

theorem ascii_fetch : ∀ c ∈ " FETCH ".toList, c.toNat < 0x80 := by simp

/-- What the line of a message starts. -/
theorem has_handle {st st' : FetchLoop} {l : Bytes} {seq : Nat} (hseq : 0 < seq ∧ seq ≤ u32Max) (houtside : st.inLiteral = false)
    (hl : Data.star ++ encodeUtf8 (decimal seq ++ " FETCH ".toList) <+: l) (hstep : st.handle l = some st') : st'.Has seq := by
  obtain ⟨more, rfl⟩ := hl
  have hascii : ∀ c ∈ "* ".toList ++ decimal seq ++ " FETCH ".toList, c.toNat < 0x80 := by
    intro c hc
    rcases List.mem_append.mp hc with hc | hc
    · rcases List.mem_append.mp hc with hc | hc
      · exact ascii_star c hc
      · have hdigit := decimal_isDigit hc
        simp only [Char.isDigit, Bool.and_eq_true, decide_eq_true_eq, UInt32.le_iff_toNat_le] at hdigit
        have h9 : c.toNat ≤ 57 := hdigit.2
        omega
    · exact ascii_fetch c hc
  have hline : fromUtf8Lossy (Data.star ++ encodeUtf8 (decimal seq ++ " FETCH ".toList) ++ more) =
      "* ".toList ++ decimal seq ++ " FETCH ".toList ++ fromUtf8Lossy more := by
    rw [← fromUtf8Lossy_append hascii, Data.star]
    simp [encodeUtf8]
  have hstar : encodeUtf8 "* ".toList <+: Data.star ++ encodeUtf8 (decimal seq ++ " FETCH ".toList) ++ more := by
    rw [List.append_assoc]
    exact List.prefix_append _ _
  rw [FetchLoop.handle, if_pos ⟨hstar, houtside⟩, hline] at hstep
  refine FetchLoop.Has.dataLine (.inr ⟨?_, begins_message hseq _⟩) hseq.1 hstep
  exact ⟨"* ".toList ++ decimal seq ++ [' '], ' ' :: fromUtf8Lossy more, by simp⟩

/-! ## Fetching -/

theorem lines_prefix (hs : Plain s) (t : Bytes) : ∃ l ls, lines (s ++ t) = l :: ls ∧ s <+: l := by
  induction s with
  | nil =>
      obtain ⟨l, ls, hlines⟩ := List.exists_cons_of_ne_nil (lines_ne_nil t)
      exact ⟨l, ls, hlines, List.nil_prefix⟩
  | cons b s ih =>
      have hb : b ≠ 10 ∧ b ≠ 13 := ⟨fun h => hs.1 (h ▸ List.mem_cons_self), fun h => hs.2 (h ▸ List.mem_cons_self)⟩
      obtain ⟨l, ls, hlines, hstart⟩ := ih ⟨fun h => hs.1 (List.mem_cons_of_mem _ h), fun h => hs.2 (List.mem_cons_of_mem _ h)⟩
      exact ⟨b :: l, ls, by rw [List.cons_append, lines_cons hb.1 hb.2, hlines]; rfl, List.cons_prefix_cons.mpr ⟨rfl, hstart⟩⟩

theorem lines_append (hu : Whole u) (v : Bytes) : lines (u ++ v) = (lines u).dropLast ++ lines v := by
  rcases hu with rfl | hu
  · rfl
  · obtain ⟨w, rfl⟩ := List.getLast?_eq_some_iff.mp hu
    have hsplit : ∀ v, lines (w ++ [10] ++ v) = lines w ++ lines v := by
      intro v
      rw [lines, List.append_assoc, List.filter_append]
      exact List.splitOn_append_cons_self _ _
    have hself := hsplit []
    rw [List.append_nil, lines_nil] at hself
    rw [hsplit, hself, List.dropLast_concat]

namespace Reply

variable {cmd : ImapCommand} (reply : Reply cmd) {next : Bytes} {l : Bytes}

/-- The first line of the data. -/
theorem line_of_data {d : Data} (hd : d ∈ reply.untagged) : ∃ l ∈ (lines reply.data).dropLast, Data.star ++ d.text <+: l := by
  have hmem : ∀ ds : List Data, d ∈ ds → ∃ l ∈ lines (ds.flatMap Data.write), Data.star ++ d.text <+: l := by
    intro ds hds
    induction ds with
    | nil => cases hds
    | cons d' ds ih =>
        rw [List.flatMap_cons]
        rcases List.mem_cons.mp hds with rfl | hds
        · have hplain : Plain (Data.star ++ d.text) := plain_append (plain_encodeUtf8 (by simp)) d.plain
          obtain ⟨l, ls, hlines, hstart⟩ := lines_prefix hplain
            (d.literals.flatMap (fun p => writeLiteral p.1 ++ p.2) ++ crlf ++ ds.flatMap Data.write)
          refine ⟨l, ?_, hstart⟩
          rw [Data.write, show Data.star ++ d.text ++ d.literals.flatMap (fun p => writeLiteral p.1 ++ p.2) ++ crlf ++
            ds.flatMap Data.write = Data.star ++ d.text ++ (d.literals.flatMap (fun p => writeLiteral p.1 ++ p.2) ++ crlf ++
              ds.flatMap Data.write) by simp, hlines]
          exact List.mem_cons_self
        · obtain ⟨l, hl, hstart⟩ := ih hds
          refine ⟨l, ?_, hstart⟩
          rw [lines_append d'.whole_write]
          exact List.mem_append_right _ hl
  obtain ⟨l, hl, hstart⟩ := hmem reply.untagged hd
  refine ⟨l, ?_, hstart⟩
  rw [← data, lines_whole reply.whole_data] at hl
  refine (List.mem_append.mp hl).resolve_right fun hnil => ?_
  rw [List.mem_singleton.mp hnil, Data.star_eq] at hstart
  exact absurd (List.prefix_nil.mp hstart) (by simp)

variable {st st' : FetchLoop}

theorem quiet_fold {ls : List Bytes} (h : st.Quiet) (hbrace : ∀ l ∈ ls, ¬ encodeUtf8 ['{'] <+: l)
    (hfold : ls.foldlM FetchLoop.handle st = some st') : st'.Quiet := by
  induction ls generalizing st with
  | nil => exact Option.some.inj hfold ▸ h
  | cons l ls ih =>
      rw [List.foldlM_cons, Option.bind_eq_bind, Option.bind_eq_some_iff] at hfold
      obtain ⟨st1, hl, hfold⟩ := hfold
      exact ih (h.handle (hbrace l List.mem_cons_self) hl) (fun l hl => hbrace l (List.mem_cons_of_mem _ hl)) hfold

theorem smooth_fold {ls : List Bytes} (h : st.SmoothBodies) (hplain : ∀ l ∈ ls, Plain l)
    (hfold : ls.foldlM FetchLoop.handle st = some st') : st'.SmoothBodies := by
  induction ls generalizing st with
  | nil => exact Option.some.inj hfold ▸ h
  | cons l ls ih =>
      rw [List.foldlM_cons, Option.bind_eq_bind, Option.bind_eq_some_iff] at hfold
      obtain ⟨st1, hl, hfold⟩ := hfold
      exact ih (h.handle (hplain l List.mem_cons_self) hl) (fun l hl => hplain l (List.mem_cons_of_mem _ hl)) hfold

theorem has_fold {ls : List Bytes} {seq : Nat} (h : st.Has seq) (hseq : 0 < seq)
    (hfold : ls.foldlM FetchLoop.handle st = some st') : st'.Has seq := by
  induction ls generalizing st with
  | nil => exact Option.some.inj hfold ▸ h
  | cons l ls ih =>
      rw [List.foldlM_cons, Option.bind_eq_bind, Option.bind_eq_some_iff] at hfold
      obtain ⟨st1, hl, hfold⟩ := hfold
      exact ih (h.handle hseq hl) hfold

/-- A message that is announced on one of the lines is there after them. -/
theorem has_of_line {ls : List Bytes} {seq : Nat} (hseq : 0 < seq ∧ seq ≤ u32Max) (h : st.Quiet)
    (hbrace : ∀ l ∈ ls, ¬ encodeUtf8 ['{'] <+: l) (hl : l ∈ ls)
    (hstart : Data.star ++ encodeUtf8 (decimal seq ++ " FETCH ".toList) <+: l)
    (hfold : ls.foldlM FetchLoop.handle st = some st') : st'.Has seq := by
  obtain ⟨before, after, rfl⟩ := List.append_of_mem hl
  rw [List.foldlM_append, Option.bind_eq_bind, Option.bind_eq_some_iff] at hfold
  obtain ⟨st1, hbefore, hfold⟩ := hfold
  rw [List.foldlM_cons, Option.bind_eq_bind, Option.bind_eq_some_iff] at hfold
  obtain ⟨st2, hstep, hafter⟩ := hfold
  have hquiet := quiet_fold h (fun l hl => hbrace l (List.mem_append_left _ hl)) hbefore
  exact has_fold (has_handle hseq hquiet.outside hstart hstep) hseq.1 hafter

/-- Without counted texts on lines of their own nothing is still to come of one. -/
theorem foldl_owedAfter {ls : List Bytes} (h : ∀ l ∈ ls, ¬ encodeUtf8 ['{'] <+: l) : ls.foldl owedAfter none = none := by
  induction ls with
  | nil => rfl
  | cons l ls ih =>
      have hl : owedAfter none l = none := by
        unfold owedAfter
        split
        · rfl
        · rw [if_neg (h l List.mem_cons_self)]
          rfl
      rw [List.foldl_cons, hl]
      exact ih fun l hl => h l (List.mem_cons_of_mem _ hl)

theorem served_fetch_iff (reply : Reply .fetch) (n : Nat) :
    Served (tagOf n) reply next ↔
      Unmistaken (tagOf n) reply ∧
        ∃ st', (lines reply.data).dropLast.foldlM FetchLoop.handle .new = some st' ∧
          Kept .fetch reply ⟨next, true, st'.stored⟩ :=
  served_loop reply (P := Kept .fetch reply) (fun _ => rfl) (by simp) n

/-- Messages with nothing in them are fetched. -/
theorem served_of_suits (reply : Reply .fetch) (n : Nat) (h : Suits (tagOf n) reply) : Served (tagOf n) reply next := by
  obtain ⟨hclear, hlines, hempty⟩ := h
  have hbrace : ∀ l ∈ (lines reply.data).dropLast, ¬ encodeUtf8 ['{'] <+: l :=
    fun l hl => (hlines l (List.mem_of_mem_dropLast hl)).1
  have hsome : ((lines reply.data).dropLast.foldlM FetchLoop.handle .new).isSome = true := by
    refine (FetchLoop.foldlM_handle _ _).mpr fun pre l post hsame _ => (hlines l ?_).2
    exact List.mem_of_mem_dropLast (hsame ▸ by simp)
  obtain ⟨st', hfold⟩ := Option.isSome_iff_exists.mp hsome
  refine (served_fetch_iff reply n).mpr ⟨hclear, st', hfold, .inl rfl, fun _ d hd seq hmessage p hp => ?_⟩
  have hquiet := quiet_fold FetchLoop.quiet_new hbrace hfold
  obtain ⟨l, hl, hstart⟩ := reply.line_of_data hd
  have hhas := has_of_line ⟨hmessage.1, hmessage.2.1⟩ FetchLoop.quiet_new hbrace hl
    (((List.prefix_append_right_inj _).mpr hmessage.2.2).trans hstart) hfold
  obtain ⟨m, hm, rfl⟩ := hhas
  refine ⟨m, FetchLoop.mem_stored hm hmessage.1, rfl, ?_⟩
  rw [hquiet.bodies m hm, hempty d hd m.seq hmessage p hp]
  rfl

/-- No counted text of a message is stored. -/
theorem suits_of_served (reply : Reply .fetch) (n : Nat) (hmessages : reply.InMessages)
    (h : Served (tagOf n) reply next) : Suits (tagOf n) reply := by
  obtain ⟨hclear, st', hfold, -, hstored⟩ := (served_fetch_iff reply n).mp h
  have hsmooth := smooth_fold FetchLoop.smoothBodies_new
    (fun l hl => plain_of_mem_lines (List.mem_of_mem_dropLast hl)) hfold
  -- a text that is stored is smooth, or there is nothing in it
  have htext : ∀ d ∈ reply.untagged, ∀ seq, d.IsMessage seq → ∀ p ∈ d.literals, Smooth p.1 := by
    intro d hd seq hmessage p hp
    obtain ⟨m, hm, -, hbody⟩ := hstored rfl d hd seq hmessage p hp
    rw [← hbody]
    cases hb : m.body with
    | none => exact smooth_nil
    | some b => exact hsmooth.bodies m (FetchLoop.stored_subset hm) b hb
  have hbrace : ∀ l ∈ lines reply.data, ¬ encodeUtf8 ['{'] <+: l := by
    intro l hl hstart
    rw [brace_eq] at hstart
    obtain ⟨d, hd, p, hp, hbad⟩ := Data.opens_flatMap _ ((opens_of_line reply.data).1 l hl hstart)
    obtain ⟨seq, hmessage⟩ := hmessages d hd (List.ne_nil_of_mem hp)
    exact hbad (htext d hd seq hmessage p hp)
  have hbrace' : ∀ l ∈ (lines reply.data).dropLast, ¬ encodeUtf8 ['{'] <+: l :=
    fun l hl => hbrace l (List.mem_of_mem_dropLast hl)
  refine ⟨hclear, fun l hl => ⟨hbrace l hl, ?_⟩, fun d hd seq hmessage p hp => ?_⟩
  · have hnil : ¬ BadLine [] := fun hbad => by
      rw [BadLine, Data.star_eq] at hbad
      exact absurd (List.prefix_nil.mp hbad.1) (by simp)
    refine (forall_lines_whole (p := fun l => ¬ BadLine l) reply.whole_data hnil).mp (fun l hl => ?_) l hl
    obtain ⟨before, after, hsame⟩ := List.append_of_mem hl
    have hread := (FetchLoop.foldlM_handle _ _).mp (Option.isSome_iff_exists.mpr ⟨st', hfold⟩)
    refine hread before l after hsame (foldl_owedAfter fun l hl => hbrace' l ?_)
    rw [hsame]
    exact List.mem_append_left _ hl
  · obtain ⟨m, hm, -, hbody⟩ := hstored rfl d hd seq hmessage p hp
    have hquiet := quiet_fold FetchLoop.quiet_new hbrace' hfold
    rw [← hbody, hquiet.bodies m (FetchLoop.stored_subset hm)]
    rfl

end Reply

theorem served_iff {cmd : ImapCommand} (reply : Reply cmd) (n : Nat) (next : Bytes) (hfetch : cmd ≠ .fetch) :
    Served (tagOf n) reply next ↔ Suits (tagOf n) reply := by
  have hregistered : Reply.Kept cmd reply ⟨next, true, []⟩ := Reply.kept_of_registered reply hfetch rfl
  cases cmd with
  | fetch => exact absurd rfl hfetch
  | connect => exact Reply.served_connect reply n
  | append => exact Reply.served_append reply n
  | list | status | select | expunge | search =>
      exact (Reply.served_readsOn reply (by simp) true n).trans (and_iff_left hregistered)
  | logout =>
      refine (Reply.served_readsOn reply (by simp) false n).trans (and_congr_right fun _ => ?_)
      exact ⟨fun h => (h.1.resolve_left (by simp)).2, fun h => ⟨.inr ⟨rfl, h⟩, by simp⟩⟩
  | login =>
      refine (Reply.served_readsOne reply (by simp) (by simp) n (by simp)
        (r := fun line => "OK".toList <:+: fromUtf8Lossy line)).trans (and_congr_right fun _ => ?_)
      exact decide_eq_true_iff
  | create | delete | rename | subscribe | copy | move | store | close =>
      exact (Reply.served_readsOne reply (by simp) (by simp) n (by simp) (r := fun _ => true)).trans (and_iff_left rfl)

end ThreeVa.Js.Imap
