import ThreeVa.Js.Lemmas.StringDecoder
import ThreeVa.Lib.Runs

/-!
# Readable streams

Chunks are handed on in order: those received, then those of the buffer. While `_flushIfFlowing` does not run, a stream that
someone listens to has an empty buffer.
-/

namespace ThreeVa.Js
open Text

namespace Readable

/-! ## The calls that run -/

/-- Whatever changes the buffer or ends the stream is followed by `_maybeEnd`. -/
def Followed : List Op → Prop
  | [] => True
  | op :: ops => (op = .flush ∨ op = .takeAll ∨ op = .markEnded → .maybeEnd ∈ ops) ∧ Followed ops

theorem followed_append {ops ops' : List Op} (h : Followed ops) (h' : Followed ops') : Followed (ops ++ ops') := by
  induction ops with
  | nil => exact h'
  | cons op ops ih => exact ⟨fun hop => List.mem_append_left _ (h.1 hop), ih h.2⟩

/-- What holds of a stream where `ops` are to be done. -/
structure Ordered (s : Readable) (ops : List Op) : Prop where
  followed : Followed ops
  order : (s.received ++ s.buffer).Sublist s.handed
  exact : s.dropped = [] → s.received ++ s.buffer = s.handed
  idle : .flush ∉ ops → s.emits = true → s.buffer = []
  once : s.ends = if s.endEmitted then 1 else 0
  done : s.endEmitted = true → s.ended = true ∧ s.buffer = []
  due : s.ended = true → s.buffer = [] → s.endEmitted = true ∨ .maybeEnd ∈ ops
  closes : s.ended = true ∨ .markEnded ∈ ops → s.closed = true

theorem Ordered.emitted {s : Readable} {ops : List Op} (h : s.Ordered ops) (hends : s.ends = 1) : s.endEmitted = true := by
  by_contra hnot
  have honce := h.once
  rw [if_neg hnot] at honce
  omega

theorem Ordered.drop {s : Readable} {op : Op} {ops : List Op} (h : s.Ordered (op :: ops)) (hflush : op ≠ .flush)
    (hend : op ≠ .maybeEnd) : s.Ordered ops where
  followed := h.followed.2
  order := h.order
  exact := h.exact
  idle hmem := h.idle fun hop => (List.mem_cons.mp hop).elim (fun heq => hflush heq.symm) hmem
  once := h.once
  done := h.done
  due hended hbuffer := (h.due hended hbuffer).imp_right fun hmem =>
    (List.mem_cons.mp hmem).resolve_left fun heq => hend heq.symm
  closes hany := h.closes (hany.imp_right fun hmem => List.mem_cons_of_mem _ hmem)

theorem Ordered.script {s : Readable} {ops : List Op} (h : s.Ordered ops) : s.Ordered (.script :: ops) where
  followed := ⟨by simp, h.followed⟩
  order := h.order
  exact := h.exact
  idle hmem := h.idle fun hop => hmem (List.mem_cons_of_mem _ hop)
  once := h.once
  done := h.done
  due hended hbuffer := (h.due hended hbuffer).imp_right (List.mem_cons_of_mem _)
  closes hany := h.closes (hany.imp_right fun hmem => (List.mem_cons.mp hmem).resolve_left (by simp))

/-- What the invariant is about, but for the listeners. -/
def traffic (s : Readable) : List Chunk × List Chunk × List Chunk × List Chunk × Nat × Bool × Bool × Bool :=
  (s.received, s.buffer, s.handed, s.dropped, s.ends, s.endEmitted, s.ended, s.closed)

theorem Ordered.same {s t : Readable} {ops : List Op} (h : s.Ordered ops) (hsame : t.traffic = s.traffic)
    (hemits : t.emits = true → s.emits = true) : t.Ordered ops := by
  simp only [traffic, Prod.mk.injEq] at hsame
  obtain ⟨hreceived, hbuffer, hhanded, hdropped, hends, hemitted, hended, hclosed⟩ := hsame
  constructor
  · exact h.followed
  · rw [hreceived, hbuffer, hhanded]
    exact h.order
  · rw [hreceived, hbuffer, hhanded, hdropped]
    exact h.exact
  · rw [hbuffer]
    exact fun hmem hemit => h.idle hmem (hemits hemit)
  · rw [hends, hemitted]
    exact h.once
  · rw [hemitted, hended, hbuffer]
    exact h.done
  · rw [hended, hbuffer, hemitted]
    exact h.due
  · rw [hended, hclosed]
    exact h.closes

theorem proceed_ordered {s : Readable} {ops : List Op} (h : s.Ordered ops) : (s.proceed ops).Ordered (s.proceed ops).stack := by
  induction ops generalizing s with
  | nil => exact h.same rfl id
  | cons op ops ih =>
      cases op with
      | script => exact h.same rfl id
      | emitReadable => exact ((h.drop (by simp) (by simp)).script).same rfl id
      | startRead => exact ((h.drop (by simp) (by simp)).script).same rfl id
      | scheduleResume =>
          refine ih ?_
          split
          · exact h.drop (by simp) (by simp)
          · exact (h.drop (by simp) (by simp)).same rfl id
      | takeAll =>
          have hdrop := h.drop (by simp) (by simp)
          refine ih ⟨hdrop.followed, by simpa using h.order, fun hd => by simpa using h.exact hd, fun _ _ => rfl, h.once,
            fun he => ⟨(h.done he).1, rfl⟩, fun _ _ => .inr (h.followed.1 (by simp)), hdrop.closes⟩
      | markEnded =>
          have hdrop := h.drop (by simp) (by simp)
          exact ih ⟨hdrop.followed, h.order, h.exact, hdrop.idle, h.once, fun he => ⟨rfl, (h.done he).2⟩,
            fun _ _ => .inr (h.followed.1 (by simp)), fun _ => h.closes (.inr (List.mem_cons_self))⟩
      | maybeEnd =>
          rw [proceed]
          split
          · rename_i hend
            obtain ⟨hended, hemitted, hbuffer⟩ := hend
            refine ⟨⟨by simp, by simp, h.followed.2⟩, h.order, h.exact, fun _ _ => hbuffer, ?_, fun _ => ⟨hended, hbuffer⟩,
              fun _ _ => .inl rfl, fun _ => h.closes (.inl hended)⟩
            have honce := h.once
            rw [if_neg hemitted] at honce
            simp [honce]
          · rename_i hend
            refine ih ⟨h.followed.2, h.order, h.exact, fun hmem => h.idle (by simpa using hmem), h.once, h.done, ?_,
              fun hany => h.closes (hany.imp_right fun hmem => List.mem_cons_of_mem _ hmem)⟩
            intro hended hbuffer
            left
            by_contra hemitted
            exact hend ⟨hended, hemitted, hbuffer⟩
      | flush =>
          have hmaybe : .maybeEnd ∈ ops := h.followed.1 (by simp)
          have hstops : (s.emits = true → s.buffer = []) → s.Ordered ops := fun hidle =>
            ⟨h.followed.2, h.order, h.exact, fun _ => hidle, h.once, h.done, fun _ _ => .inr hmaybe,
              fun hany => h.closes (hany.imp_right fun hmem => List.mem_cons_of_mem _ hmem)⟩
          rw [proceed]
          cases hbuffer : s.buffer with
          | nil => exact ih (hstops fun _ => hbuffer)
          | cons chunk rest =>
              simp only
              split
              · -- the next chunk is handed to the listeners
                have hall : (s.received ++ [chunk]) ++ rest = s.received ++ s.buffer := by simp [hbuffer]
                refine ⟨⟨by simp, h.followed⟩, by rw [hall]; exact h.order, fun hd => by rw [hall]; exact h.exact hd,
                  fun hmem => absurd (by simp) hmem, h.once, fun he => ?_, fun _ _ => .inr (by simp [hmaybe]),
                  fun hany => h.closes (hany.imp_right fun hmem => by simpa using hmem)⟩
                have hempty := (h.done he).2
                rw [hbuffer] at hempty
                cases hempty
              · exact ih (hstops fun hemits => absurd hemits ‹_›)

theorem call_ordered {s : Readable} {ops : List Op} (h : s.Ordered (ops ++ s.stack)) : (s.call ops).Ordered (s.call ops).stack :=
  proceed_ordered h

/-! ## Events -/

/-- `push` is not called within the loop of `_flushIfFlowing`, and not after `push(null)`. -/
def Orderly (s : Readable) : Event → Prop
  | .push _ | .pushNull => .flush ∉ s.stack ∧ s.closed = false
  | _ => True

instance (s : Readable) : (e : Event) → Decidable (Orderly s e)
  | .push _ | .pushNull => inferInstanceAs (Decidable (.flush ∉ s.stack ∧ s.closed = false))
  | .onData | .next | .removeListener | .pause | .resume | .resumeTimer | .read | .setEncoding _ | .returned => .isTrue trivial

/-- A chunk is handed on, to the listeners or to the buffer. -/
theorem Ordered.add {s t : Readable} {ops : List Op} {chunk : Chunk} (h : s.Ordered s.stack) (hopen : s.closed = false)
    (hops : Followed ops) (hhanded : t.handed = s.handed ++ [chunk])
    (hall : t.received ++ t.buffer = s.received ++ s.buffer ++ [chunk]) (hidle : t.emits = true → t.buffer = [])
    (hsame : (t.dropped, t.ends, t.endEmitted, t.ended, t.stack) = (s.dropped, s.ends, s.endEmitted, s.ended, s.stack))
    (hclosed : .markEnded ∈ ops → t.closed = true) : t.Ordered (ops ++ t.stack) := by
  simp only [Prod.mk.injEq] at hsame
  obtain ⟨hdropped, hends, hemitted, hended, hstack⟩ := hsame
  have hnot : s.ended ≠ true := fun he => by simp [h.closes (.inl he)] at hopen
  constructor
  · rw [hstack]
    exact followed_append hops h.followed
  · rw [hall, hhanded]
    exact h.order.append_right _
  · rw [hall, hhanded, hdropped]
    exact fun hd => by rw [h.exact hd]
  · exact fun _ => hidle
  · rw [hends, hemitted]
    exact h.once
  · rw [hemitted]
    exact fun he => absurd (h.done he).1 hnot
  · rw [hended]
    exact fun he => absurd he hnot
  · rw [hended, hstack]
    rintro (he | hmem)
    · exact absurd he hnot
    · rcases List.mem_append.mp hmem with hmem | hmem
      · exact hclosed hmem
      · simp [h.closes (.inr hmem)] at hopen

theorem push_ordered {s : Readable} (h : s.Ordered s.stack) (hflush : .flush ∉ s.stack) (hopen : s.closed = false)
    (raw : Chunk) : (s.push raw).Ordered (s.push raw).stack := by
  simp only [push]
  split
  · rename_i hemits
    refine call_ordered (@Ordered.add s _ _ (decoded s.decoder raw).2 h hopen ⟨by simp, trivial⟩ rfl ?_ ?_ rfl (by simp))
    · simp [h.idle hflush hemits]
    · exact fun _ => h.idle hflush hemits
  · rename_i hemits
    split
    · -- the chunk is thrown away
      refine call_ordered ⟨h.followed, h.order.trans (List.sublist_append_left _ _), ?_, h.idle, h.once, h.done, h.due, h.closes⟩
      intro hd
      simp at hd
    · exact call_ordered (@Ordered.add s _ _ (decoded s.decoder raw).2 h hopen ⟨by simp, trivial⟩ rfl (by simp [store])
        (fun he => absurd he hemits) rfl (by simp))

theorem pushNull_ordered {s : Readable} (h : s.Ordered s.stack) (hflush : .flush ∉ s.stack) (hopen : s.closed = false) :
    s.pushNull.Ordered s.pushNull.stack := by
  have hfollowed : Followed [.markEnded, .flush, .maybeEnd, .emitReadable] := by simp [Followed]
  simp only [pushNull]
  split
  · refine call_ordered ⟨followed_append hfollowed h.followed, h.order, h.exact, fun hmem => absurd (by simp) hmem, h.once,
      h.done, fun _ _ => .inr (by simp), fun _ => rfl⟩
  · split
    · rename_i hemits
      refine call_ordered (@Ordered.add s _ (.script :: _) _ h hopen ⟨by simp, hfollowed⟩ rfl ?_ ?_ rfl fun _ => rfl)
      · simp [h.idle hflush hemits]
      · exact fun _ => h.idle hflush hemits
    · rename_i hemits
      exact call_ordered (h.add hopen hfollowed rfl (by simp [store]) (fun he => absurd he hemits) rfl fun _ => rfl)

/-- A call begins that changes nothing yet, or only who is called. -/
theorem Ordered.enter {s t : Readable} {ops : List Op} (h : s.Ordered s.stack) (hops : Followed ops) (hmark : .markEnded ∉ ops)
    (hidle : .flush ∉ ops → t.emits = true → s.emits = true) (hsame : t.traffic = s.traffic) (hstack : t.stack = s.stack) :
    t.Ordered (ops ++ t.stack) := by
  simp only [traffic, Prod.mk.injEq] at hsame
  obtain ⟨hreceived, hbuffer, hhanded, hdropped, hends, hemitted, hended, hclosed⟩ := hsame
  constructor
  · rw [hstack]
    exact followed_append hops h.followed
  · rw [hreceived, hbuffer, hhanded]
    exact h.order
  · rw [hreceived, hbuffer, hhanded, hdropped]
    exact h.exact
  · rw [hstack, hbuffer, List.mem_append, not_or]
    exact fun hmem hemits => h.idle hmem.2 (hidle hmem.1 hemits)
  · rw [hends, hemitted]
    exact h.once
  · rw [hemitted, hended, hbuffer]
    exact h.done
  · rw [hended, hbuffer, hemitted, hstack]
    exact fun he hb => (h.due he hb).imp_right (List.mem_append_right _)
  · rw [hended, hstack, hclosed, List.mem_append]
    exact fun hany => h.closes (hany.imp_right fun hmem => hmem.resolve_left hmark)

theorem onData_ordered {s : Readable} (h : s.Ordered s.stack) : s.onData.Ordered s.onData.stack :=
  call_ordered (h.enter (by simp [Followed]) (by simp) (fun hmem => absurd (by simp) hmem) rfl rfl)

theorem next_ordered {s : Readable} (h : s.Ordered s.stack) : s.next.Ordered s.next.stack := by
  unfold next
  split
  · rename_i chunk rest hbuffer
    have hall : (s.received ++ [chunk]) ++ rest = s.received ++ s.buffer := by simp [hbuffer]
    have hne : s.buffer ≠ [] := by simp [hbuffer]
    refine call_ordered ⟨⟨by simp, h.followed⟩, by rw [hall]; exact h.order, fun hd => by rw [hall]; exact h.exact hd,
      fun hmem hemits => absurd (h.idle (fun hop => hmem (List.mem_cons_of_mem _ hop)) hemits) hne, h.once,
      fun he => absurd (h.done he).2 hne, fun _ _ => .inr (by simp), ?_⟩
    exact fun hany => h.closes (hany.imp_right fun hmem => by simpa using hmem)
  · split
    · exact h
    · exact onData_ordered h

theorem resume_ordered {s : Readable} (h : s.Ordered s.stack) : s.resume.Ordered s.resume.stack := by
  have hfollowed : Followed [.flush, .maybeEnd, .startRead] := by simp [Followed]
  simp only [resume]
  split
  · -- nobody listens, and the buffer is thrown away
    have hsub : (s.received ++ []).Sublist s.handed := by
      rw [List.append_nil]
      exact (List.sublist_append_left _ _).trans h.order
    refine call_ordered ⟨followed_append hfollowed h.followed, hsub, ?_, fun hmem => absurd (by simp) hmem, h.once,
      fun he => ⟨(h.done he).1, rfl⟩, fun _ _ => .inr (by simp), ?_⟩
    · intro hd
      obtain ⟨hd, hbuffer⟩ := List.append_eq_nil_iff.mp hd
      rw [← hbuffer]
      exact h.exact hd
    · exact fun hany => h.closes (hany.imp_right fun hmem => by simpa using hmem)
  · exact call_ordered (h.enter hfollowed (by simp) (fun hmem => absurd (by simp) hmem) rfl rfl)

theorem read_ordered {s : Readable} (h : s.Ordered s.stack) {ops : List Op} (hops : ops = [] ∨ ops = [.startRead]) :
    (s.call (ops ++ [.takeAll, .maybeEnd])).Ordered (s.call (ops ++ [.takeAll, .maybeEnd])).stack := by
  rcases hops with rfl | rfl <;> exact call_ordered (h.enter (by simp [Followed]) (by simp) (fun _ => id) rfl rfl)

theorem step_ordered {s t : Readable} {e : Event} (h : s.Ordered s.stack) (horderly : Orderly s e) (hstep : step s e = some t) :
    t.Ordered t.stack := by
  cases e with
  | push chunk =>
      cases hstep
      exact push_ordered h horderly.1 horderly.2 chunk
  | pushNull =>
      cases hstep
      exact pushNull_ordered h horderly.1 horderly.2
  | onData =>
      cases hstep
      exact onData_ordered h
  | next =>
      cases hstep
      exact next_ordered h
  | removeListener =>
      cases hstep
      refine h.same rfl fun hemits => ?_
      simp only [emits, Bool.and_eq_true, decide_eq_true_eq] at hemits ⊢
      exact ⟨hemits.1, by omega⟩
  | pause =>
      cases hstep
      exact h.same rfl fun hemits => by simp [emits] at hemits
  | resume =>
      cases hstep
      exact resume_ordered h
  | resumeTimer =>
      rw [step] at hstep
      split at hstep
      · cases hstep
        exact resume_ordered (h.same rfl id)
      · cases hstep
  | read =>
      cases hstep
      refine read_ordered h ?_
      split
      · exact .inl rfl
      · exact .inr rfl
  | setEncoding encoding =>
      cases hstep
      exact h.same rfl id
  | returned =>
      rw [step] at hstep
      split at hstep
      · rename_i ops hstack
        cases hstep
        rw [hstack] at h
        exact proceed_ordered (h.drop (by simp) (by simp))
      · cases hstep

theorem new_ordered (encoding : Str) : (new encoding).Ordered [] :=
  ⟨trivial, .slnil, fun _ => rfl, fun _ _ => rfl, rfl, by simp [new], by simp [new], by simp [new]⟩

theorem run_ordered {encoding : Str} {events : List Event} {s : Readable}
    (hrun : Runs.exec step (new encoding) events = some s) (horderly : Runs.Along step Orderly (new encoding) events) :
    s.Ordered s.stack :=
  @Runs.exec_invariant _ _ step Orderly (fun s => s.Ordered s.stack) (fun _ _ _ h hC hstep => step_ordered h hC hstep) _ _ _
    (new_ordered encoding) horderly hrun

/-! ## What is thrown away -/

/-- What the calls that run do not change. -/
def settings (s : Readable) : Option StringDecoder × List Chunk × List Chunk × Bool × List Chunk × Bool :=
  (s.decoder, s.pushed, s.handed, s.closed, s.dropped, s.discard)

theorem proceed_settings (s : Readable) (ops : List Op) : (s.proceed ops).settings = s.settings := by
  induction ops generalizing s with
  | nil => rfl
  | cons op ops ih =>
      cases op with
      | script | emitReadable | startRead => rfl
      | takeAll | markEnded => exact ih _
      | scheduleResume =>
          rw [proceed, ih]
          split <;> rfl
      | maybeEnd =>
          rw [proceed]
          split
          · rfl
          · exact ih s
      | flush =>
          rw [proceed]
          split
          · split
            · rfl
            · exact ih s
          · exact ih s

theorem call_settings (s : Readable) (ops : List Op) : (s.call ops).settings = s.settings := proceed_settings s _

/-- The stream is resumed only where someone listens. -/
def Attended (s : Readable) : Event → Prop
  | .resume | .resumeTimer => 0 < s.listeners
  | _ => True

instance (s : Readable) : (e : Event) → Decidable (Attended s e)
  | .resume | .resumeTimer => inferInstanceAs (Decidable (0 < s.listeners))
  | .push _ | .pushNull | .onData | .next | .removeListener | .pause | .read | .setEncoding _ | .returned => .isTrue trivial

/-- Nothing was thrown away, and nothing will be. -/
def Kept (s : Readable) : Prop := s.dropped = [] ∧ s.discard = false

theorem kept_of_settings {s t : Readable} (h : s.settings = t.settings) (ht : t.Kept) : s.Kept := by
  simp only [settings, Prod.mk.injEq] at h
  obtain ⟨-, -, -, -, hdropped, hdiscard⟩ := h
  exact ⟨hdropped.trans ht.1, hdiscard.trans ht.2⟩

theorem step_kept {s t : Readable} {e : Event} (h : s.Kept) (hattended : Attended s e) (hstep : step s e = some t) : t.Kept := by
  cases e with
  | push raw =>
      cases hstep
      simp only [push]
      split
      · exact kept_of_settings (call_settings _ _) h
      · split
        · rename_i hdiscard
          simp [h.2] at hdiscard
        · exact kept_of_settings (call_settings _ _) h
  | pushNull =>
      cases hstep
      simp only [pushNull]
      split
      · exact kept_of_settings (call_settings _ _) h
      · split <;> exact kept_of_settings (call_settings _ _) h
  | onData =>
      cases hstep
      exact kept_of_settings (call_settings _ _) ⟨h.1, rfl⟩
  | next =>
      cases hstep
      unfold next
      split
      · exact kept_of_settings (call_settings _ _) h
      · split
        · exact h
        · exact kept_of_settings (call_settings _ _) ⟨h.1, rfl⟩
  | removeListener | pause | setEncoding =>
      cases hstep
      exact h
  | resume =>
      cases hstep
      have hsome : s.listeners ≠ 0 := Nat.ne_of_gt hattended
      simp only [resume, if_neg hsome]
      exact kept_of_settings (call_settings _ _) h
  | resumeTimer =>
      rw [step] at hstep
      split at hstep
      · cases hstep
        have hsome : s.listeners ≠ 0 := Nat.ne_of_gt hattended
        simp only [resume, if_neg hsome]
        exact kept_of_settings (call_settings _ _) h
      · cases hstep
  | read =>
      cases hstep
      exact kept_of_settings (call_settings _ _) h
  | returned =>
      rw [step] at hstep
      split at hstep
      · cases hstep
        exact kept_of_settings (proceed_settings _ _) h
      · cases hstep

/-! ## What is handed on -/

/-- What `push` makes of some chunks, one after the other. -/
def decodedAll : Option StringDecoder → List Chunk → Option StringDecoder × List Chunk
  | d, [] => (d, [])
  | d, raw :: raws =>
      ((decodedAll (decoded d raw).1 raws).1, (decoded d raw).2 :: (decodedAll (decoded d raw).1 raws).2)

/-- What `push(null)` hands on. -/
def tail (d : Option StringDecoder) : List Chunk :=
  let text := (d.map fun d => d.flush.2).getD []
  if text = [] then [] else [.text text]

/-- What is handed on of the chunks that were pushed, and of `null` if it was. -/
def handedOn (d : Option StringDecoder) (pushed : List Chunk) (closed : Bool) : List Chunk :=
  (decodedAll d pushed).2 ++ if closed then tail (decodedAll d pushed).1 else []

theorem decodedAll_concat (d : Option StringDecoder) (raws : List Chunk) (raw : Chunk) :
    decodedAll d (raws ++ [raw]) =
      ((decoded (decodedAll d raws).1 raw).1, (decodedAll d raws).2 ++ [(decoded (decodedAll d raws).1 raw).2]) := by
  induction raws generalizing d with
  | nil => rfl
  | cons first raws ih => rw [List.cons_append, decodedAll, ih, decodedAll, List.cons_append]

/-- A stream hands on what the decoder it began with makes of what was pushed. -/
def Decodes (d : Option StringDecoder) (s : Readable) : Prop :=
  s.handed = handedOn d s.pushed s.closed ∧ (s.closed = false → s.decoder = (decodedAll d s.pushed).1)

theorem decodes_of_settings {d : Option StringDecoder} {s t : Readable} (h : s.settings = t.settings) (ht : t.Decodes d) :
    s.Decodes d := by
  simp only [settings, Prod.mk.injEq] at h
  obtain ⟨hdecoder, hpushed, hhanded, hclosed, -, -⟩ := h
  unfold Decodes
  rw [hdecoder, hpushed, hhanded, hclosed]
  exact ht

/-- As for `Orderly`, and the encoding is not changed. -/
def Steady (s : Readable) : Event → Prop
  | .setEncoding _ => False
  | e => Orderly s e

instance (s : Readable) : (e : Event) → Decidable (Steady s e)
  | .setEncoding _ => .isFalse id
  | .push c => inferInstanceAs (Decidable (Orderly s (.push c)))
  | .pushNull => inferInstanceAs (Decidable (Orderly s .pushNull))
  | .onData | .next | .removeListener | .pause | .resume | .resumeTimer | .read | .returned => .isTrue trivial

theorem Steady.orderly {s : Readable} {e : Event} (h : Steady s e) : Orderly s e := by
  cases e with
  | setEncoding _ => exact absurd h id
  | _ => exact h

theorem push_decodes {d : Option StringDecoder} {s : Readable} (h : s.Decodes d) (hopen : s.closed = false) (raw : Chunk) :
    (s.push raw).Decodes d := by
  obtain ⟨hhanded, hdecoder⟩ := h
  have ht : ∀ t : Readable, t.closed = s.closed → t.pushed = s.pushed ++ [raw] → t.decoder = (decoded s.decoder raw).1 →
      t.handed = s.handed ++ [(decoded s.decoder raw).2] → t.Decodes d := by
    intro t hclosed hpushed hnext hmore
    constructor
    · simp [hmore, hhanded, hpushed, hclosed, hopen, handedOn, decodedAll_concat, hdecoder hopen]
    · intro _
      rw [hnext, hpushed, decodedAll_concat, hdecoder hopen]
  simp only [push]
  split
  · exact decodes_of_settings (call_settings _ _) (ht _ rfl rfl rfl rfl)
  · split
    · exact decodes_of_settings (call_settings _ _) (ht _ rfl rfl rfl rfl)
    · exact decodes_of_settings (call_settings _ _) (ht _ rfl rfl rfl rfl)

theorem pushNull_decodes {d : Option StringDecoder} {s : Readable} (h : s.Decodes d) (hopen : s.closed = false) :
    s.pushNull.Decodes d := by
  obtain ⟨hhanded, hdecoder⟩ := h
  rw [hopen, handedOn, if_neg (by simp), List.append_nil] at hhanded
  have ht : ∀ t : Readable, t.closed = true → t.pushed = s.pushed → t.handed = s.handed ++ tail s.decoder → t.Decodes d := by
    intro t hclosed hpushed hmore
    refine ⟨?_, fun hopen => by simp [hclosed] at hopen⟩
    rw [hmore, hhanded, hpushed, handedOn, if_pos hclosed, hdecoder hopen]
  simp only [pushNull]
  split
  · rename_i htail
    exact decodes_of_settings (call_settings _ _) (ht _ rfl rfl (by simp [tail, htail]))
  · rename_i htail
    split
    · exact decodes_of_settings (call_settings _ _) (ht _ rfl rfl (by simp [tail, htail]))
    · exact decodes_of_settings (call_settings _ _) (ht _ rfl rfl (by simp [tail, htail, store]))

theorem step_decodes {d : Option StringDecoder} {s t : Readable} {e : Event} (h : s.Decodes d) (hsteady : Steady s e)
    (hstep : step s e = some t) : t.Decodes d := by
  cases e with
  | push raw =>
      cases hstep
      exact push_decodes h hsteady.2 raw
  | pushNull =>
      cases hstep
      exact pushNull_decodes h hsteady.2
  | onData =>
      cases hstep
      exact decodes_of_settings (call_settings _ _) h
  | next =>
      cases hstep
      unfold next
      split
      · exact decodes_of_settings (call_settings _ _) h
      · split
        · exact h
        · exact decodes_of_settings (call_settings _ _) h
  | removeListener | pause =>
      cases hstep
      exact h
  | resume =>
      cases hstep
      simp only [resume]
      split <;> exact decodes_of_settings (call_settings _ _) h
  | resumeTimer =>
      rw [step] at hstep
      split at hstep
      · cases hstep
        simp only [resume]
        split <;> exact decodes_of_settings (call_settings _ _) h
      · cases hstep
  | read =>
      cases hstep
      exact decodes_of_settings (call_settings _ _) h
  | setEncoding _ => exact absurd hsteady id
  | returned =>
      rw [step] at hstep
      split at hstep
      · cases hstep
        exact decodes_of_settings (proceed_settings _ _) h
      · cases hstep

theorem run_decodes {encoding : Str} {events : List Event} {s : Readable}
    (hrun : Runs.exec step (new encoding) events = some s) (hsteady : Runs.Along step Steady (new encoding) events) :
    s.Decodes (decoderFor encoding) :=
  @Runs.exec_invariant _ _ step Steady (Decodes (decoderFor encoding)) (fun _ _ _ h hC hstep => step_decodes h hC hstep) _ _ _
    ⟨rfl, fun _ => rfl⟩ hsteady hrun

/-! ## Text -/

def str : Chunk → Units
  | .text s => s
  | .bytes _ => []

/-- The strings of some chunks, joined. -/
def joined (chunks : List Chunk) : Units := chunks.flatMap str

theorem joined_append (chunks chunks' : List Chunk) : joined (chunks ++ chunks') = joined chunks ++ joined chunks' :=
  List.flatMap_append

theorem decodedAll_some (d : StringDecoder) (raws : List Chunk) :
    (decodedAll (some d) raws).1 = some (d.writes raws).1 ∧ joined (decodedAll (some d) raws).2 = (d.writes raws).2 := by
  induction raws generalizing d with
  | nil => exact ⟨rfl, rfl⟩
  | cons raw raws ih =>
      have hdecoded : decoded (some d) raw = (some (d.write raw).1, .text (d.write raw).2) := by cases raw <;> rfl
      obtain ⟨hdecoder, htext⟩ := ih (d.write raw).1
      rw [decodedAll, hdecoded]
      refine ⟨hdecoder, ?_⟩
      rw [joined, List.flatMap_cons]
      exact congrArg ((d.write raw).2 ++ ·) htext

theorem joined_handedOn (d : StringDecoder) (pushed : List Chunk) (closed : Bool) :
    joined (handedOn (some d) pushed closed) =
      (d.writes pushed).2 ++ if closed then (d.writes pushed).1.flush.2 else [] := by
  obtain ⟨hdecoder, htext⟩ := decodedAll_some d pushed
  have htail : joined (tail (some (d.writes pushed).1)) = (d.writes pushed).1.flush.2 := by
    simp only [tail, Option.map_some, Option.getD_some]
    split
    · rename_i hnil
      rw [hnil]
      rfl
    · exact List.append_nil _
  rw [handedOn, joined, List.flatMap_append, ← joined, htext, hdecoder]
  congr 1
  split
  · exact htail
  · rfl

/-- The text that was received, where nothing was thrown away and `more` are the bytes to come. -/
theorem Ordered.text {s : Readable} {ops : List Op} {encoding : Str} {chunks : List Bytes} {more : Bytes} (h : s.Ordered ops)
    (hdecodes : s.Decodes (some (.new encoding))) (hdropped : s.dropped = []) (hpushed : s.pushed = chunks.map .bytes)
    (hmore : s.closed = true → more = [])
    (hdiv : StringDecoder.Divisible (StringDecoder.new encoding).encoding (chunks.flatten ++ more)) :
    joined s.received <+: Buffer.toString (chunks.flatten ++ more) (StringDecoder.new encoding).encoding ∧
      (s.ends = 1 → s.closed = true ∧ joined s.received = Buffer.toString chunks.flatten (StringDecoder.new encoding).encoding) := by
  have hsound := StringDecoder.sound_new encoding
  have htext := congrArg joined ((h.exact hdropped).trans hdecodes.1)
  rw [joined_append, joined_handedOn, hpushed] at htext
  have hclosing : s.closed = true → joined s.received ++ joined s.buffer =
      Buffer.toString chunks.flatten (StringDecoder.new encoding).encoding := fun hclosed => by
    rw [htext, if_pos hclosed]
    exact StringDecoder.writes_flush hsound hdiv.of_left
  constructor
  · by_cases hclosed : s.closed = true
    · rw [hmore hclosed, List.append_nil]
      exact ⟨_, hclosing hclosed⟩
    · rw [if_neg hclosed, List.append_nil] at htext
      exact (htext ▸ List.prefix_append _ _ : joined s.received <+: _).trans (StringDecoder.writes_partial hsound hdiv)
  · intro hends
    obtain ⟨hended, hbuffer⟩ := h.done (h.emitted hends)
    have hall := hclosing (h.closes (.inl hended))
    rw [hbuffer] at hall
    exact ⟨h.closes (.inl hended), (List.append_nil _).symm.trans hall⟩

end Readable

end ThreeVa.Js
