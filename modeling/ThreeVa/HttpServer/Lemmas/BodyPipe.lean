import ThreeVa.Lib.Runs
import ThreeVa.HttpServer.BodyPipe
import ThreeVa.HttpServer.Lemmas.Chunked

/-! What a pipe delivers: the slices of the pump, in order, and its end only after the last of them. -/

namespace ThreeVa.HttpServer
open Text Runs

/-! ## The log -/

def ofRef (ref : Nat) (p : Poll) : Bool := p.found = some ref

theorem given_append (sel : Poll → Bool) (log log' : List Poll) :
    given sel (log ++ log') = given sel log ++ given sel log' := by
  simp [given]

theorem given_singleton (sel : Poll → Bool) (p : Poll) :
    given sel [p] = if sel p then p.result.bytes else [] := by
  by_cases h : sel p <;> simp [given, h]

def NoError (ref : Nat) (log : List Poll) : Prop := ∀ p ∈ log, ofRef ref p = true → ∀ msg, p.result ≠ .error msg

theorem NoError.of_append {ref : Nat} {log : List Poll} {p : Poll} (h : NoError ref (log ++ [p])) : NoError ref log :=
  fun q hq => h q (by simp [hq])

theorem NoError.concat {ref : Nat} {log : List Poll} (h : NoError ref log) {p : Poll}
    (hp : ofRef ref p = true → ∀ msg, p.result ≠ .error msg) : NoError ref (log ++ [p]) := by
  intro q hq hof
  rcases List.mem_append.mp hq with hq | hq
  · exact h q hq hof
  · rw [List.mem_singleton.mp hq] at hof ⊢
    exact hp hof

/-- A poll of a longer log is the last one or stood in the log before. -/
theorem append_singleton_split {α : Type} {log pre post : List α} {p q : α} (h : log ++ [q] = pre ++ p :: post) :
    (pre = log ∧ p = q) ∨ ∃ post', log = pre ++ p :: post' := by
  rcases List.eq_nil_or_concat post with rfl | ⟨post', x, rfl⟩
  · obtain ⟨hpre, hp⟩ := List.append_inj' h rfl
    exact .inl ⟨hpre.symm, (List.singleton_inj.mp hp).symm⟩
  · have h' : log ++ [q] = (pre ++ p :: post') ++ [x] := by rw [h]; simp
    exact .inr ⟨post', (List.append_inj' h' rfl).1⟩

/-! ## The invariant of one transfer -/

/-- What was read from the pipe and what waits in it is what the pump has pushed; the marks at its end are made
when everything is pushed. -/
structure TransferOk (log : List Poll) (ref : Nat) (t : Transfer) : Prop where
  outcome : t.outcome = t.source.pump.2
  sent : ∃ sent, t.source.pump.1 = sent ++ t.pending ∧ given (ofRef ref) log ++ t.state.queue.flatten = sent.flatten
  chunks : ∀ c ∈ t.state.queue, c ≠ []
  running : t.state.eof = false → t.state.error = none ∧ t.state.released = false ∧ NoError ref log
  done : t.state.eof = true → t.pending = [] ∧ (t.state.error = none → NoError ref log → ∃ r, t.outcome = .ok r)
  complete : ∀ pre p post, log = pre ++ p :: post → ofRef ref p = true → p.result = .eof → NoError ref pre →
    DecodedBody t.source (given (ofRef ref) pre)

theorem decodedBody_of_pump {src : Source} {pushed : List Bytes} {r : Reader} (h : src.pump = (pushed, .ok r)) :
    DecodedBody src pushed.flatten := by
  unfold Source.pump pumpBody at h
  unfold DecodedBody
  cases hframing : src.framing with
  | none =>
      rw [hframing] at h
      cases h
      rfl
  | length n =>
      rw [hframing] at h
      obtain ⟨hstream, hlen, -⟩ := pumpData_ok h
      exact ⟨hlen, _, hstream.symm⟩
  | chunked =>
      rw [hframing] at h
      obtain ⟨-, fields, n, closed, hbody, hmax, hbudget, hclosed⟩ := chunkedBody_of_pumpChunked h
      exact ⟨fields, closed, _, n, hbody, by simpa using hmax, hbudget, hclosed⟩

section Transfer

variable {log : List Poll} {ref : Nat} {t : Transfer}

theorem transferOk_new (hfresh : ∀ p ∈ log, ofRef ref p = false) (id : Nat) (src : Source) :
    TransferOk log ref (.new id src) where
  outcome := rfl
  sent := by
    have hgiven : given (ofRef ref) log = [] := by
      rw [given, List.filter_eq_nil_iff.mpr (by simpa using hfresh)]
      rfl
    exact ⟨[], by simp [Transfer.new], by simp [hgiven, Transfer.new, BodyState.new]⟩
  chunks := by simp [Transfer.new, BodyState.new]
  running _ := ⟨rfl, rfl, fun p hp hof => by simp [hfresh p hp] at hof⟩
  done h := by simp [Transfer.new, BodyState.new] at h
  complete pre p post hlog hof := by
    have := hfresh p (by simp [hlog])
    simp [this] at hof

theorem TransferOk.push (h : TransferOk log ref t) {chunk : Bytes} {pending : List Bytes}
    (hpending : t.pending = chunk :: pending) {state : BodyState} (hpush : t.state.push chunk = some state) :
    TransferOk log ref { t with pending, state } := by
  -- The pump is not done, so the pipe has neither an end nor an error.
  have heof : t.state.eof = false := by
    cases he : t.state.eof with
    | false => rfl
    | true => simp [(h.done he).1] at hpending
  obtain ⟨herror, hreleased, hnoerr⟩ := h.running heof
  obtain ⟨sent, hpump, hsent⟩ := h.sent
  have hpump' : t.source.pump.1 = (sent ++ [chunk]) ++ pending := by rw [hpump, hpending]; simp
  unfold BodyState.push at hpush
  split at hpush
  · rename_i hempty
    cases hpush
    exact ⟨h.outcome, ⟨sent ++ [chunk], hpump', by simp [hsent, hempty]⟩, h.chunks, h.running,
      fun he => by simp [heof] at he, h.complete⟩
  · rename_i hne
    rw [hreleased] at hpush
    split at hpush
    · simp at *
    · split at hpush
      · cases hpush
        refine ⟨h.outcome, ⟨sent ++ [chunk], hpump', ?_⟩, ?_, fun _ => ⟨herror, rfl, hnoerr⟩,
          fun he => by simp [heof] at he, h.complete⟩
        · rw [List.flatten_append, ← List.append_assoc, hsent, List.flatten_append]
        · intro c hc
          rcases List.mem_append.mp hc with hc | hc
          · exact h.chunks c hc
          · exact List.mem_singleton.mp hc ▸ hne
      · cases hpush

theorem TransferOk.finish (h : TransferOk log ref t) (hpending : t.pending = []) {r : Reader}
    (hok : t.outcome = .ok r) : TransferOk log ref { t with state := t.state.finish } :=
  ⟨h.outcome, h.sent, h.chunks, fun he => by simp [BodyState.finish] at he, fun _ => ⟨hpending, fun _ _ => ⟨r, hok⟩⟩,
    h.complete⟩

theorem TransferOk.fail (h : TransferOk log ref t) (hpending : t.pending = []) (msg : String) :
    TransferOk log ref { t with state := t.state.fail msg } :=
  ⟨h.outcome, h.sent, h.chunks, fun he => by simp [BodyState.fail] at he,
    fun _ => ⟨hpending, fun he => by simp [BodyState.fail] at he⟩, h.complete⟩

theorem TransferOk.complete_concat (h : TransferOk log ref t) {p : Poll}
    (hp : ofRef ref p = true → p.result = .eof → NoError ref log → DecodedBody t.source (given (ofRef ref) log)) :
    ∀ pre q post, log ++ [p] = pre ++ q :: post → ofRef ref q = true → q.result = .eof → NoError ref pre →
      DecodedBody t.source (given (ofRef ref) pre) := by
  intro pre q post hlog hof heof hpre
  rcases append_singleton_split hlog with ⟨rfl, rfl⟩ | ⟨post', hlog⟩
  · exact hp hof heof hpre
  · exact h.complete pre q post' hlog hof heof hpre

theorem TransferOk.other (h : TransferOk log ref t) {p : Poll} (hp : ofRef ref p = false) :
    TransferOk (log ++ [p]) ref t := by
  have hgiven : ∀ l, given (ofRef ref) (l ++ [p]) = given (ofRef ref) l := by
    intro l
    rw [given_append, given_singleton, hp]
    simp
  refine ⟨h.outcome, by rw [hgiven]; exact h.sent, h.chunks, fun he => ?_, fun he => ⟨(h.done he).1, ?_⟩,
    h.complete_concat fun hof => by simp [hp] at hof⟩
  · obtain ⟨herror, hreleased, hlog⟩ := h.running he
    exact ⟨herror, hreleased, hlog.concat fun hof => by simp [hp] at hof⟩
  · exact fun herror hlog => (h.done he).2 herror hlog.of_append

theorem read_cases (st : BodyState) (hchunks : ∀ c ∈ st.queue, c ≠ []) (max : Nat) :
    (∃ out queue, st.read max = (.data out, { st with queue, queued := st.queued - out.length }) ∧
        out ++ queue.flatten = st.queue.flatten ∧ ∀ c ∈ queue, c ≠ []) ∨
      (st.queue = [] ∧ ∃ msg, st.error = some msg ∧
        st.read max = (.error msg, { st with error := none, released := true })) ∨
      (st.queue = [] ∧ st.error = none ∧ st.eof = true ∧ st.read max = (.eof, { st with released := true })) ∨
      (st.queue = [] ∧ st.error = none ∧ st.eof = false ∧ st.read max = (.eagain, st)) := by
  unfold BodyState.read
  cases hqueue : st.queue with
  | nil =>
      cases herror : st.error with
      | some msg => exact .inr (.inl ⟨rfl, msg, rfl, rfl⟩)
      | none =>
          cases heof : st.eof with
          | true => exact .inr (.inr (.inl ⟨rfl, rfl, rfl, by simp⟩))
          | false => exact .inr (.inr (.inr ⟨rfl, rfl, rfl, by simp⟩))
  | cons front queue =>
      rw [hqueue, List.forall_mem_cons] at hchunks
      cases front with
      | nil => exact absurd rfl hchunks.1
      | cons b front =>
          refine .inl ?_
          dsimp only
          split
          · exact ⟨_, _, rfl, rfl, hchunks.2⟩
          · rename_i hlong
            refine ⟨_, _, rfl, by rw [List.flatten_cons, ← List.append_assoc, List.take_append_drop]; rfl, ?_⟩
            rw [List.forall_mem_cons]
            refine ⟨?_, hchunks.2⟩
            intro hnil
            rw [List.drop_eq_nil_iff] at hnil
            exact hlong hnil

theorem TransferOk.read (h : TransferOk log ref t) (id max : Nat) :
    TransferOk (log ++ [⟨id, some ref, (t.state.read max).1⟩]) ref { t with state := (t.state.read max).2 } := by
  obtain ⟨sent, hpump, hsent⟩ := h.sent
  have hself : ∀ result, ofRef ref ⟨id, some ref, result⟩ = true := fun result => by simp [ofRef]
  have hgiven : ∀ result, given (ofRef ref) (log ++ [⟨id, some ref, result⟩]) =
      given (ofRef ref) log ++ result.bytes := by
    intro result
    rw [given_append, given_singleton, hself]
    rfl
  rcases read_cases t.state h.chunks max with
    ⟨out, queue, hread, hflat, hchunks⟩ | ⟨hqueue, msg, herror, hread⟩ | ⟨hqueue, herror, heof, hread⟩ |
      ⟨hqueue, herror, heof, hread⟩ <;> rw [hread]
  · refine ⟨h.outcome, ⟨sent, hpump, ?_⟩, hchunks, fun he => ?_, fun he => ⟨(h.done he).1, fun he' hlog => ?_⟩,
      h.complete_concat (by simp)⟩
    · rw [hgiven, List.append_assoc]
      show given (ofRef ref) log ++ (out ++ queue.flatten) = _
      rw [hflat, hsent]
    · obtain ⟨herror, hreleased, hlog⟩ := h.running he
      exact ⟨herror, hreleased, hlog.concat (by simp)⟩
    · exact (h.done he).2 he' hlog.of_append
  · refine ⟨h.outcome, ⟨sent, hpump, ?_⟩, h.chunks, fun he => ?_, fun he => ⟨(h.done he).1, fun _ hlog => ?_⟩,
      h.complete_concat (by simp)⟩
    · rw [hgiven]
      simpa [BodyRead.bytes] using hsent
    · rw [(h.running he).1] at herror
      cases herror
    · exact absurd rfl (hlog ⟨id, some ref, .error msg⟩ (by simp) (hself _) msg)
  · refine ⟨h.outcome, ⟨sent, hpump, ?_⟩, h.chunks, fun he => ?_, fun he => ⟨(h.done he).1, fun he' hlog => ?_⟩,
      h.complete_concat fun _ _ hlog => ?_⟩
    · rw [hgiven]
      simpa [BodyRead.bytes] using hsent
    · rw [heof] at he
      cases he
    · exact (h.done heof).2 herror hlog.of_append
    · -- The queue is empty and the pump has pushed everything, without an error.
      obtain ⟨hpending, hok⟩ := h.done heof
      obtain ⟨r, hr⟩ := hok herror hlog
      have hall : t.source.pump = (sent, .ok r) := by
        rw [← hr, h.outcome]
        exact Prod.ext (by rw [hpump, hpending, List.append_nil]) rfl
      have hdata : given (ofRef ref) log = sent.flatten := by simpa [hqueue] using hsent
      rw [hdata]
      exact decodedBody_of_pump hall
  · refine ⟨h.outcome, ⟨sent, hpump, ?_⟩, h.chunks, fun he => ?_, fun he => ?_, h.complete_concat (by simp)⟩
    · rw [hgiven]
      simpa [BodyRead.bytes] using hsent
    · obtain ⟨herror, hreleased, hlog⟩ := h.running he
      exact ⟨herror, hreleased, hlog.concat (by simp)⟩
    · rw [heof] at he
      cases he

end Transfer

/-! ## Every transfer, in every run -/

structure BodiesInv (s : Bodies) : Prop where
  transfers : ∀ ref t, s.transfers[ref]? = some t → TransferOk s.log ref t
  log : ∀ p ∈ s.log, ∀ ref, p.found = some ref → ref < s.transfers.length

theorem bodiesInv_new : BodiesInv .new := ⟨by simp [Bodies.new], by simp [Bodies.new]⟩

section Preservation

variable {s : Bodies}

/-- Tasks, registry and polls in progress are no part of the invariant. -/
theorem BodiesInv.congr {s' : Bodies} (h : BodiesInv s) (htransfers : s'.transfers = s.transfers)
    (hlog : s'.log = s.log) : BodiesInv s' :=
  ⟨by rw [htransfers, hlog]; exact h.transfers, by rw [htransfers, hlog]; exact h.log⟩

theorem BodiesInv.setTransfer (h : BodiesInv s) {ref : Nat} {t : Transfer} (ht : TransferOk s.log ref t) :
    BodiesInv (s.setTransfer ref t) := by
  refine ⟨fun ref' u hu => ?_, by simpa [Bodies.setTransfer] using h.log⟩
  simp only [Bodies.setTransfer, List.getElem?_set] at hu
  split at hu
  · rename_i heq
    subst heq
    split at hu
    · cases hu
      exact ht
    · cases hu
  · exact h.transfers ref' u hu

theorem BodiesInv.start (h : BodiesInv s) (src : Source) :
    BodiesInv { s with transfers := s.transfers ++ [.new s.nextId src] } := by
  refine ⟨fun ref t ht => ?_, fun p hp ref hfound => ?_⟩
  · rw [List.getElem?_append] at ht
    split at ht
    · exact h.transfers ref t ht
    · rename_i hlen
      obtain ⟨hlt, rfl⟩ := List.getElem?_eq_some_iff.mp ht
      obtain rfl : ref = s.transfers.length := by simp at hlt; omega
      simp only [Nat.sub_self, List.getElem_cons_zero]
      apply transferOk_new (fun p hp => ?_) _ _
      by_contra hof
      simp only [ofRef, Bool.not_eq_false, decide_eq_true_eq] at hof
      exact absurd (h.log p hp _ hof) (by omega)
  · have := h.log p hp ref hfound
    simp only [List.length_append, List.length_singleton]
    omega

theorem BodiesInv.read (h : BodiesInv s) {ref : Nat} {t : Transfer} (hget : s.transfers[ref]? = some t)
    (id max : Nat) :
    BodiesInv { s.setTransfer ref { t with state := (t.state.read max).2 } with
      log := s.log ++ [⟨id, some ref, (t.state.read max).1⟩] } := by
  have ht := (h.transfers ref t hget).read id max
  have hlt := (List.getElem?_eq_some_iff.mp hget).1
  refine ⟨fun ref' u hu => ?_, fun p hp ref' hfound => ?_⟩
  · simp only [Bodies.setTransfer, List.getElem?_set] at hu
    split at hu
    · rename_i heq
      subst heq
      cases hu
      exact ht
    · rename_i hne
      exact (h.transfers ref' u hu).other (by simp [ofRef, hne])
  · simp only [Bodies.setTransfer, List.length_set]
    rcases List.mem_append.mp hp with hp | hp
    · exact h.log p hp ref' hfound
    · rw [List.mem_singleton.mp hp] at hfound
      cases hfound
      exact hlt

theorem BodiesInv.unregistered (h : BodiesInv s) (id : Nat) (result : BodyRead) :
    BodiesInv { s with log := s.log ++ [⟨id, none, result⟩] } := by
  refine ⟨fun ref t ht => (h.transfers ref t ht).other (by simp [ofRef]), fun p hp ref hfound => ?_⟩
  rcases List.mem_append.mp hp with hp | hp
  · exact h.log p hp ref hfound
  · rw [List.mem_singleton.mp hp] at hfound
    cases hfound

theorem taskStep_inv {s' : Bodies} {c : Nat} {t : Task} {e : BodyEvent} (h : BodiesInv s)
    (hstep : taskStep s c t e = some s') : BodiesInv s' := by
  cases e with
  | dropLast _ =>
      simp only [taskStep] at hstep
      split at hstep
      · cases hstep
        exact h.congr rfl rfl
      · cases hstep
  | start _ src =>
      simp only [taskStep] at hstep
      split at hstep
      · split at hstep
        · cases hstep
        · cases hstep
          exact (h.start src).congr rfl rfl
      · cases hstep
  | push _ =>
      simp only [taskStep] at hstep
      split at hstep
      · split at hstep
        · rename_i tr hget
          split at hstep
          · rename_i hpending
            obtain ⟨state, hpush, rfl⟩ := Option.map_eq_some_iff.mp hstep
            exact h.setTransfer ((h.transfers _ tr hget).push hpending hpush)
          · cases hstep
        · cases hstep
      · cases hstep
  | complete _ =>
      simp only [taskStep] at hstep
      split at hstep
      · split at hstep
        · rename_i tr hget
          split at hstep
          · rename_i hpending houtcome
            cases hstep
            exact (h.setTransfer ((h.transfers _ tr hget).finish hpending houtcome)).congr rfl rfl
          · rename_i hpending houtcome
            cases hstep
            exact (h.setTransfer ((h.transfers _ tr hget).fail hpending _)).congr rfl rfl
          · cases hstep
        · cases hstep
      · cases hstep
  | abandon _ =>
      simp only [taskStep] at hstep
      split at hstep
      · cases hstep
        exact h.congr rfl rfl
      · cases hstep
  | respond _ keepAlive =>
      simp only [taskStep] at hstep
      split at hstep
      · cases hstep
        exact h.congr rfl rfl
      · cases hstep
  | exit _ =>
      simp only [taskStep] at hstep
      split at hstep
      · split at hstep <;> cases hstep <;> exact h.congr rfl rfl
      · split at hstep <;> cases hstep <;> exact h.congr rfl rfl
      · cases hstep
  | connect | lookup _ _ | read | remove => simp [taskStep] at hstep

theorem pollStep_inv {s' : Bodies} {e : BodyEvent} (h : BodiesInv s) (hstep : pollStep s e = some s') :
    BodiesInv s' := by
  cases e with
  | lookup id max =>
      simp only [pollStep] at hstep
      split at hstep
      · split at hstep
        · cases hstep
          exact h.congr rfl rfl
        · cases hstep
          exact h.unregistered id .eof
      · cases hstep
  | read =>
      simp only [pollStep] at hstep
      split at hstep
      · split at hstep
        · rename_i hget
          cases hstep
          exact (h.read hget _ _).congr rfl rfl
        · cases hstep
      · cases hstep
  | remove =>
      simp only [pollStep] at hstep
      split at hstep
      · cases hstep
        exact h.congr rfl rfl
      · cases hstep
  | connect | dropLast _ | start _ _ | push _ | complete _ | abandon _ | respond _ _ | exit _ =>
      simp [pollStep] at hstep

end Preservation

theorem bodyStep_inv (s : Bodies) (e : BodyEvent) (s' : Bodies) (h : BodiesInv s) (hstep : bodyStep s e = some s') :
    BodiesInv s' := by
  unfold bodyStep at hstep
  split at hstep
  · cases hstep
    exact h.congr rfl rfl
  · exact pollStep_inv h hstep
  · exact pollStep_inv h hstep
  · exact pollStep_inv h hstep
  · split at hstep
    · split at hstep
      · exact taskStep_inv h hstep
      · cases hstep
    · cases hstep

end ThreeVa.HttpServer
