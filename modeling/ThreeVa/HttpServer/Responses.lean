import ThreeVa.HttpServer.BodyPipe

/-!
# Responses on their way to the socket

The channel from JS to the task of a connection, as `handle_connection` and `wait_final` of
`js/src/builtins/http_server.rs` read it: during the body, one message at a time, or batched with what is already
queued.
-/

-- The equation named in `waitFinal` is for the termination proof.
set_option linter.unusedVariables false

namespace ThreeVa.HttpServer
open Text

structure PendingResponse where
  connId : Nat
  bytes : Bytes
  informational : Bool
  closeAfter : Bool
deriving DecidableEq

/-- A message, and whether it is in the channel already when `try_recv` asks for it. -/
structure Arrival where
  msg : PendingResponse
  queued : Bool
deriving DecidableEq

/-! ## Waiting for the final response -/

/-- How the inner loop of `wait_final` ends, with the batch it collected. -/
inductive Coalesced
  | final (batch : Bytes) (resp : PendingResponse)
  | empty (batch : Bytes) (rest : List Arrival)
deriving DecidableEq

def coalesce (batch : Bytes) (close : Bool) : List Arrival → Coalesced
  | [] => .empty batch []
  | next :: rest =>
      if next.queued then
        if next.msg.informational then coalesce (batch ++ next.msg.bytes) (close || next.msg.closeAfter) rest
        else .final batch { next.msg with closeAfter := next.msg.closeAfter || close }
      else .empty batch (next :: rest)

theorem coalesce_length {batch batch' : Bytes} {close : Bool} {as rest : List Arrival}
    (h : coalesce batch close as = .empty batch' rest) : rest.length ≤ as.length := by
  fun_induction coalesce batch close as with
  | case1 =>
      cases h
      exact le_rfl
  | case2 batch close next as hqueued hinfo ih => exact (ih h).trans (Nat.le_succ _)
  | case3 => cases h
  | case4 =>
      cases h
      exact le_rfl

/-- `wait_final`: what it writes, and the final response. There is none when the messages run out: the wait is over
then. -/
def waitFinal (as : List Arrival) : Bytes × Option PendingResponse :=
  match as with
  | [] => ([], none)
  | r :: rest =>
      if r.msg.informational then
        match hbatch : coalesce r.msg.bytes r.msg.closeAfter rest with
        | .final batch next => (batch, some next)
        | .empty batch rest' =>
            let (more, resp) := waitFinal rest'
            (batch ++ more, resp)
      else ([], some r.msg)
termination_by as.length
decreasing_by exact Nat.lt_succ_of_le (coalesce_length hbatch)

/-! ## One request -/

/-- The messages received while the body is read: what is written for them, and the final response if it is among
them. -/
def bodyPhase : List PendingResponse → Bytes × Option PendingResponse
  | [] => ([], none)
  | r :: rest =>
      if r.informational then
        let (more, resp) := bodyPhase rest
        (r.bytes ++ more, resp)
      else ([], some r)

/-- The request on a connection: whether it asks to close it, whether it has a body, how the body ends where it is
read to its end, and whether its time is over by then. -/
structure Requested where
  connId : Nat
  closeAfter : Bool
  hasBody : Bool
  bodyErr : Option ParseError
  late : Bool

structure Answered where
  written : Bytes
  closed : Bool
deriving DecidableEq

def errorAnswer (status : Nat) (msg : String) : Bytes :=
  encodeUtf8 (s!"HTTP/1.1 {status} {msg}\r\nContent-Length: {msg.utf8ByteSize}\r\n".toList ++
    s!"Connection: close\r\n\r\n{msg}".toList)

def timeoutAnswer : Bytes := encodeUtf8 "HTTP/1.1 408 Request Timeout\r\nConnection: close\r\n\r\n".toList

def bodyTimedOut : Option ParseError → Bool
  | some (.silent m) => "timeout:".toList.isPrefixOf m.toList
  | _ => false

/-- From the start of the body phase to the close decision. -/
def exchange (req : Requested) (during : List PendingResponse) (after : List Arrival) : Answered :=
  let (written, early) := if req.hasBody then bodyPhase during else ([], none)
  let bodyDone := early.isNone
  let bodyErr := if req.hasBody && bodyDone then req.bodyErr else none
  let (more, resp) :=
    match early, bodyErr with
    | some r, _ => ([], some r)
    | none, some _ => ([], none)
    | none, none => waitFinal after
  let written := written ++ more
  match bodyErr with
  | some (.respond status msg) => ⟨written ++ errorAnswer status msg, true⟩
  | _ =>
      if bodyTimedOut bodyErr || (!bodyDone || bodyErr.isSome) && req.late then ⟨written ++ timeoutAnswer, true⟩
      else
        match resp with
        | some r =>
            if r.connId = req.connId then
              ⟨written ++ r.bytes, req.closeAfter || r.closeAfter || !bodyDone || bodyErr.isSome⟩
            else ⟨written, true⟩
        | none => ⟨written, true⟩

/-! ## What is sent, and when it arrives -/

/-- The messages JS sends for one request. -/
structure Reply (connId : Nat) where
  infos : List PendingResponse
  final : PendingResponse
  infos_informational : ∀ r ∈ infos, r.informational = true
  final_last : final.informational = false
  infos_own : ∀ r ∈ infos, r.connId = connId
  final_own : final.connId = connId

def Reply.messages {connId : Nat} (r : Reply connId) : List PendingResponse := r.infos ++ [r.final]

/-- When the messages arrive: while the body is read, or after it. The body has no error, and a body that is not
read to its end is given up before its time is over. -/
structure Timing (req : Requested) (msgs : List PendingResponse) where
  during : List PendingResponse
  after : List Arrival
  all : during ++ after.map Arrival.msg = msgs
  body : req.hasBody = false → during = []
  sound : req.bodyErr = none
  inTime : after = [] → req.late = false

def allBytes (msgs : List PendingResponse) : Bytes := (msgs.map PendingResponse.bytes).flatten

def anyCloses (msgs : List PendingResponse) : Bool := msgs.any PendingResponse.closeAfter

/-- The body is not read to its end: the whole reply is there before. -/
def Timing.abandoned {req : Requested} {msgs : List PendingResponse} (t : Timing req msgs) : Bool := t.after.isEmpty

/-- The messages from the last one that `recv` gave. -/
def lastBatch : List Arrival → List Arrival
  | [] => []
  | r :: rest => if rest.all Arrival.queued then r :: rest else lastBatch rest

def Timing.kept {req : Requested} {msgs : List PendingResponse} (t : Timing req msgs) : List PendingResponse :=
  (lastBatch t.after).map Arrival.msg

/-- The messages are written one after the other, and the connection closes if the request or one of them asks for
it, or its body was abandoned. -/
structure TimingFree {req : Requested} {msgs : List PendingResponse} (t : Timing req msgs) : Prop where
  written : (exchange req t.during t.after).written = allBytes msgs
  closed : (exchange req t.during t.after).closed = (req.closeAfter || t.abandoned || anyCloses msgs)

/-- Where a message asks to close, so does one that arrives with the final response, or the connection closes
anyway. -/
def CloseInTime {req : Requested} {msgs : List PendingResponse} (t : Timing req msgs) : Prop :=
  req.closeAfter = true ∨ t.abandoned = true ∨ (anyCloses msgs = true → anyCloses t.kept = true)

end ThreeVa.HttpServer

/-! What `wait_final` and the body phase make of a reply, for every way it arrives. -/

namespace ThreeVa.HttpServer
open Text

/-! ## Messages -/

@[simp] theorem allBytes_nil : allBytes [] = [] := rfl

@[simp] theorem allBytes_cons (r : PendingResponse) (rs : List PendingResponse) :
    allBytes (r :: rs) = r.bytes ++ allBytes rs := by
  simp [allBytes]

@[simp] theorem allBytes_append (rs rs' : List PendingResponse) : allBytes (rs ++ rs') = allBytes rs ++ allBytes rs' := by
  simp [allBytes]

@[simp] theorem anyCloses_nil : anyCloses [] = false := rfl

@[simp] theorem anyCloses_cons (r : PendingResponse) (rs : List PendingResponse) :
    anyCloses (r :: rs) = (r.closeAfter || anyCloses rs) := by
  simp [anyCloses]

@[simp] theorem anyCloses_append (rs rs' : List PendingResponse) :
    anyCloses (rs ++ rs') = (anyCloses rs || anyCloses rs') := by
  simp [anyCloses]

/-- The arrivals of some informational messages and the final one after them. -/
inductive Arrivals (final : PendingResponse) : List PendingResponse → List Arrival → Prop
  | final {queued} (h : final.informational = false) : Arrivals final [] [⟨final, queued⟩]
  | info {r infos queued as} (h : r.informational = true) (rest : Arrivals final infos as) :
      Arrivals final (r :: infos) (⟨r, queued⟩ :: as)

theorem Arrivals.of_map {final : PendingResponse} (hfinal : final.informational = false) {infos : List PendingResponse}
    (hinfos : ∀ r ∈ infos, r.informational = true) {as : List Arrival}
    (has : as.map Arrival.msg = infos ++ [final]) : Arrivals final infos as := by
  induction infos generalizing as with
  | nil =>
      obtain ⟨a, rfl, ha⟩ := List.map_eq_singleton_iff.mp has
      exact ha ▸ .final (ha ▸ hfinal)
  | cons r infos ih =>
      obtain ⟨a, as, rfl, ha, has⟩ := List.map_eq_cons_iff.mp has
      exact ha ▸ .info (ha ▸ hinfos r List.mem_cons_self) (ih (fun r hr => hinfos r (List.mem_cons_of_mem _ hr)) has)

theorem Arrivals.map_msg {final : PendingResponse} {infos : List PendingResponse} {as : List Arrival}
    (h : Arrivals final infos as) : as.map Arrival.msg = infos ++ [final] := by
  induction h with
  | final => rfl
  | info _ _ ih => simp [ih]

/-! ## Batches -/

/-- With everything in the channel, the batch takes it all. -/
theorem coalesce_final {final : PendingResponse} {infos : List PendingResponse} {as : List Arrival}
    (h : Arrivals final infos as) (hall : as.all Arrival.queued = true) (batch : Bytes) (close : Bool) :
    coalesce batch close as = .final (batch ++ allBytes infos)
      { final with closeAfter := close || anyCloses (infos ++ [final]) } := by
  induction h generalizing batch close with
  | final hfinal =>
      simp only [List.all_cons, List.all_nil, Bool.and_true] at hall
      simp [coalesce, hall, hfinal, Bool.or_comm]
  | info hinfo rest ih =>
      simp only [List.all_cons, Bool.and_eq_true] at hall
      obtain ⟨hq, hrest⟩ := hall
      rw [coalesce, if_pos hq, if_pos hinfo, ih hrest]
      simp [Bool.or_assoc]

/-- Otherwise it ends where the channel is empty: some messages are in it, and the last batch is still to come. -/
theorem coalesce_empty {final : PendingResponse} {infos : List PendingResponse} {as : List Arrival}
    (h : Arrivals final infos as) (hall : as.all Arrival.queued = false) (batch : Bytes) (close : Bool) :
    ∃ taken infos' rest, coalesce batch close as = .empty (batch ++ allBytes taken) rest ∧
      infos = taken ++ infos' ∧ Arrivals final infos' rest ∧ lastBatch rest = lastBatch as := by
  induction h generalizing batch close with
  | @final queued hfinal =>
      simp only [List.all_cons, List.all_nil, Bool.and_true] at hall
      exact ⟨[], [], _, by simp [coalesce, hall], rfl, .final hfinal, rfl⟩
  | @info r infos queued as hinfo rest ih =>
      by_cases hq : queued = true
      · simp only [List.all_cons, hq, Bool.true_and] at hall
        obtain ⟨taken, infos', rest', hco, hinfos, har, hlast⟩ := ih hall (batch ++ r.bytes) (close || r.closeAfter)
        refine ⟨r :: taken, infos', rest', ?_, by rw [hinfos]; rfl, har, ?_⟩
        · rw [coalesce, if_pos hq, if_pos hinfo, hco]
          simp
        · rw [hlast, lastBatch, if_neg (by simp [hall])]
      · exact ⟨[], r :: infos, _, by simp [coalesce, hq], rfl, .info hinfo rest, rfl⟩

/-- `wait_final` writes the informational messages and returns the final one, with what the last batch asks for. -/
theorem waitFinal_eq {final : PendingResponse} {infos : List PendingResponse} {as : List Arrival}
    (h : Arrivals final infos as) :
    waitFinal as = (allBytes infos, some { final with closeAfter := anyCloses ((lastBatch as).map Arrival.msg) }) := by
  induction hn : as.length using Nat.strongRecOn generalizing infos as with
  | _ n ih =>
      cases h with
      | final hfinal =>
          rw [waitFinal, if_neg (by simp [hfinal])]
          simp [lastBatch]
      | @info r infos queued as hinfo rest =>
          rw [waitFinal, if_pos hinfo]
          cases hall : as.all Arrival.queued with
          | true =>
              rw [lastBatch, if_pos hall, List.map_cons, rest.map_msg]
              split
              · rename_i batch next hco
                rw [coalesce_final rest hall] at hco
                cases hco
                simp
              · rename_i hco
                rw [coalesce_final rest hall] at hco
                cases hco
          | false =>
              obtain ⟨taken, infos', rest', hco, hinfos, har, hlast⟩ := coalesce_empty rest hall r.bytes r.closeAfter
              have hlt : rest'.length < n := by
                rw [← hn]
                exact Nat.lt_succ_of_le (coalesce_length hco)
              rw [lastBatch, if_neg (by simp [hall]), ← hlast]
              split
              · rename_i hco'
                rw [hco] at hco'
                cases hco'
              · rename_i hco'
                rw [hco] at hco'
                cases hco'
                rw [ih _ hlt har rfl]
                simp [hinfos]

theorem lastBatch_subset (as : List Arrival) : lastBatch as ⊆ as := by
  induction as with
  | nil => exact List.Subset.refl _
  | cons a as ih =>
      rw [lastBatch]
      split
      · exact List.Subset.refl _
      · exact List.Subset.trans ih (List.subset_cons_self a as)

/-! ## The body phase -/

theorem bodyPhase_infos {infos : List PendingResponse} (h : ∀ r ∈ infos, r.informational = true) :
    bodyPhase infos = (allBytes infos, none) := by
  induction infos with
  | nil => rfl
  | cons r infos ih =>
      rw [bodyPhase, if_pos (h r List.mem_cons_self), ih fun r hr => h r (List.mem_cons_of_mem _ hr)]
      simp

theorem bodyPhase_final {infos : List PendingResponse} (h : ∀ r ∈ infos, r.informational = true)
    {final : PendingResponse} (hfinal : final.informational = false) :
    bodyPhase (infos ++ [final]) = (allBytes infos, some final) := by
  induction infos with
  | nil => simp [bodyPhase, hfinal]
  | cons r infos ih =>
      rw [List.cons_append, bodyPhase, if_pos (h r List.mem_cons_self), ih fun r hr => h r (List.mem_cons_of_mem _ hr)]
      simp

/-! ## One request -/

/-- The final response is there before the body is read to its end. -/
theorem exchange_abandoned {req : Requested} (r : Reply req.connId) (hbody : req.hasBody = true)
    (hlate : req.late = false) :
    exchange req r.messages [] = ⟨allBytes r.messages, true⟩ := by
  simp [exchange, hbody, hlate, Reply.messages, bodyPhase_final r.infos_informational r.final_last, bodyTimedOut,
    r.final_own]

/-- The final response comes after the body. -/
theorem exchange_after {req : Requested} {final : PendingResponse} {before infos : List PendingResponse}
    {as : List Arrival} (hbefore : ∀ r ∈ before, r.informational = true) (hbody : req.hasBody = false → before = [])
    (herr : req.bodyErr = none) (hown : final.connId = req.connId) (h : Arrivals final infos as) :
    exchange req before as = ⟨allBytes (before ++ infos ++ [final]),
      req.closeAfter || anyCloses ((lastBatch as).map Arrival.msg)⟩ := by
  cases hb : req.hasBody with
  | true => simp [exchange, hb, bodyPhase_infos hbefore, herr, bodyTimedOut, waitFinal_eq h, hown]
  | false => simp [exchange, hb, hbody hb, bodyTimedOut, waitFinal_eq h, hown]

theorem Timing.during_body {req : Requested} {r : Reply req.connId} (t : Timing req r.messages) (h : t.after = []) :
    req.hasBody = true ∧ t.during = r.messages := by
  have hall : t.during = r.messages := by simpa [h] using t.all
  refine ⟨?_, hall⟩
  by_contra hbody
  simp [t.body (by simpa using hbody), Reply.messages] at hall

/-- What arrives after the body ends with the final response. -/
theorem Timing.split {req : Requested} {r : Reply req.connId} (t : Timing req r.messages) (h : t.after ≠ []) :
    ∃ infos, r.infos = t.during ++ infos ∧ Arrivals r.final infos t.after := by
  obtain ⟨as, a, has⟩ := List.eq_nil_or_concat t.after |>.resolve_left h
  have hall := t.all
  rw [has, List.concat_eq_append, List.map_append, List.map_singleton, ← List.append_assoc] at hall
  obtain ⟨hinfos, hfinal⟩ := List.append_inj' hall rfl
  refine ⟨as.map Arrival.msg, hinfos.symm, .of_map r.final_last (fun m hm => ?_) ?_⟩
  · exact r.infos_informational m (hinfos ▸ List.mem_append_right _ hm)
  · rw [has, List.concat_eq_append, List.map_append, List.map_singleton, List.singleton_inj.mp hfinal]

/-- The bytes are always those of the messages; of the flags, those of the last batch count. -/
theorem exchange_eq {req : Requested} (r : Reply req.connId) (t : Timing req r.messages) :
    exchange req t.during t.after = ⟨allBytes r.messages, req.closeAfter || t.abandoned || anyCloses t.kept⟩ := by
  by_cases hafter : t.after = []
  · obtain ⟨hbody, hduring⟩ := t.during_body hafter
    rw [hafter, hduring, exchange_abandoned r hbody (t.inTime hafter)]
    simp [Timing.abandoned, hafter]
  · obtain ⟨infos, hinfos, har⟩ := t.split hafter
    have hbefore : ∀ m ∈ t.during, m.informational = true := fun m hm =>
      r.infos_informational m (hinfos ▸ List.mem_append_left _ hm)
    have hstay : t.abandoned = false := by simpa [Timing.abandoned] using hafter
    rw [exchange_after hbefore t.body t.sound r.final_own har, hstay]
    simp [Timing.kept, Reply.messages, hinfos]

theorem Timing.kept_subset {req : Requested} {msgs : List PendingResponse} (t : Timing req msgs) : t.kept ⊆ msgs := by
  intro m hm
  rw [← t.all]
  exact List.mem_append_right _ (List.map_subset _ (lastBatch_subset t.after) hm)

theorem anyCloses_mono {rs rs' : List PendingResponse} (h : rs ⊆ rs') (hrs : anyCloses rs = true) :
    anyCloses rs' = true := by
  obtain ⟨m, hm, hclose⟩ := List.any_eq_true.mp hrs
  exact List.any_eq_true.mpr ⟨m, h hm, hclose⟩

end ThreeVa.HttpServer
