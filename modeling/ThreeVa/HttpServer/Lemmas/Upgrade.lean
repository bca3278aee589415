import ThreeVa.Lib.Runs
import ThreeVa.HttpServer.Upgrade

/-! What passes through an upgraded socket: an invariant of its two sides, and the steps that keep it. -/

namespace ThreeVa.HttpServer
open Text Runs

/-! ## What went through -/

@[simp] theorem returned_concat (reads : List JsResult) (r : JsResult) :
    returned (reads ++ [r]) = returned reads ++ r.data := by
  simp [returned]

@[simp] theorem queuedData_nil : queuedData [] = [] := rfl

@[simp] theorem queuedData_cons (r : UpgradeRead) (q : List UpgradeRead) :
    queuedData (r :: q) = r.bytes ++ queuedData q := rfl

@[simp] theorem queuedData_concat (q : List UpgradeRead) (r : UpgradeRead) :
    queuedData (q ++ [r]) = queuedData q ++ r.bytes := by
  simp [queuedData]

@[simp] theorem accepted_concat (writes : List (Bytes × JsResult)) (w : Bytes × JsResult) :
    accepted (writes ++ [w]) = accepted writes ++ if w.2 = .undefined then w.1 else [] := by
  simp [accepted]

def Told (reads : List JsResult) : Prop := ∃ r ∈ reads, r.isEof = true

theorem told_concat {reads : List JsResult} {r : JsResult} :
    Told (reads ++ [r]) ↔ Told reads ∨ r.isEof = true := by
  simp [Told, or_and_right, exists_or]

def EofLast (reads : List JsResult) : Prop := reads.Pairwise fun r r' => r.isEof = true → r'.isEof = true

theorem EofLast.concat {reads : List JsResult} (h : EofLast reads) {r : JsResult}
    (hr : Told reads → r.isEof = true) : EofLast (reads ++ [r]) := by
  apply List.pairwise_append.mpr ⟨h, List.pairwise_singleton _ _, fun a ha b hb heof => ?_⟩
  rw [List.mem_singleton.mp hb]
  exact hr ⟨a, ha, heof⟩

theorem JsResult.data_of_isEof {r : JsResult} (h : r.isEof = true) : r.data = [] := by
  cases r with
  | bytes b => simp [isEof] at h
  | undefined => rfl
  | err code msg => rfl

theorem returned_eq_nil {reads : List JsResult} (h : ∀ r ∈ reads, r.isEof = true) : returned reads = [] :=
  List.flatMap_eq_nil_iff.mpr fun r hr => JsResult.data_of_isEof (h r hr)

theorem EofLast.split {reads pre post : List JsResult} {r : JsResult} (h : EofLast reads)
    (hreads : reads = pre ++ r :: post) (hr : r.isEof = true) :
    returned reads = returned pre ∧ ∀ r' ∈ post, r'.isEof = true := by
  rw [hreads] at h
  have hpost : ∀ r' ∈ post, r'.isEof = true := fun r' hr' =>
    (List.pairwise_cons.mp (List.pairwise_append.mp h).2.1).1 r' hr' hr
  refine ⟨?_, hpost⟩
  have htail : returned (r :: post) = [] := returned_eq_nil (by simpa using ⟨hr, hpost⟩)
  rw [hreads, returned, List.flatMap_append]
  exact (congrArg _ htail).trans (List.append_nil _)

/-! ## The read queue -/

/-- The queue holds chunks that are not empty and behind them, if `marked`, the end marker. -/
inductive Filled : Bool → List UpgradeRead → Prop
  | nil : Filled false []
  | marker : Filled true [.eof]
  | data {marked : Bool} {b : Bytes} {q : List UpgradeRead} : b ≠ [] → Filled marked q → Filled marked (.data b :: q)

namespace Filled

variable {marked : Bool} {q : List UpgradeRead}

theorem pushData (h : Filled marked q) (hm : marked = false) {b : Bytes} (hb : b ≠ []) :
    Filled false (q ++ [.data b]) := by
  induction h with
  | nil => exact .data hb .nil
  | marker => cases hm
  | data hb' _ ih => exact .data hb' (ih hm)

theorem pushEof (h : Filled marked q) (hm : marked = false) : Filled true (q ++ [.eof]) := by
  induction h with
  | nil => exact .marker
  | marker => cases hm
  | data hb' _ ih => exact .data hb' (ih hm)

end Filled

/-! ## The invariant -/

def Driver.stopped : Driver → Bool
  | .failing | .closing | .leaving | .gone => true
  | _ => false

def Driver.Filing : Driver → Prop
  | .filing b => b ≠ []
  | _ => True

def NativeCall.settles : NativeCall → Bool
  | .settling _ => true
  | _ => false

structure ReadSide (s : Upgrade) : Prop where
  delivered : returned s.reads ++ s.call.taken ++ queuedData s.conn.readQ ++ s.driver.filed = s.received
  /-- The marker is pushed last, and taken by a read that then returns the end of stream. -/
  queue : ∃ marked, Filled marked s.conn.readQ ∧ (marked = true → s.driver.finished = true) ∧
    (s.driver.finished = true → marked = false → s.conn.readQ = [] ∧ Told s.reads)
  told : Told s.reads → s.driver.finished = true ∧ queuedData s.conn.readQ = [] ∧ s.call.settles = false
  eofLast : EofLast s.reads
  filing : s.driver.Filing
  counted : s.conn.readBytes = (s.call.taken ++ queuedData s.conn.readQ ++ s.driver.filed).length

structure WriteSide (s : Upgrade) : Prop where
  written : s.written <+: accepted s.writes
  waiting : s.broken = false → s.written ++ s.driver.unsent ++ s.conn.writeQ.flatten = accepted s.writes
  flushed : s.broken = false → s.driver.finished = true → s.written = accepted s.writes
  counted : s.conn.writeBytes = s.driver.inFlight + s.conn.writeQ.flatten.length + s.call.reserved.length

structure Control (s : Upgrade) : Prop where
  registered : s.registered = false → s.driver.finished = true
  closed : s.conn.closed = true → s.driver.finished = true
  aborted : s.conn.aborted = false
  /-- A driver that failed has yet to push its marker. -/
  failing : s.driver.stopped = true → s.driver.finished = false → s.broken = true
  broken : s.broken = true → s.driver.stopped = true

structure UpgradeInv (s : Upgrade) : Prop where
  read : ReadSide s
  write : WriteSide s
  control : Control s

theorem upgradeInv_new : UpgradeInv .new where
  read := ⟨rfl, ⟨false, .nil, nofun, nofun⟩, by simp [Told, Upgrade.new], .nil, trivial, rfl⟩
  write := ⟨List.prefix_rfl, fun _ => rfl, fun _ _ => rfl, rfl⟩
  control := ⟨nofun, nofun, rfl, nofun, nofun⟩

theorem Driver.filed_of_finished {d : Driver} (h : d.finished = true) : d.filed = [] := by
  cases d <;> first | rfl | cases h

theorem NativeCall.taken_of_settles {c : NativeCall} (h : c.settles = false) : c.taken = [] := by
  cases c <;> first | rfl | cases h

theorem UpgradeInv.losesNothing {s : Upgrade} (h : UpgradeInv s) : LosesNothing s where
  reads := h.read.delivered
  eof := by
    intro pre r post hreads hr
    obtain ⟨hpre, hpost⟩ := h.read.eofLast.split hreads hr
    obtain ⟨hfinished, hq, hcall⟩ := h.read.told ⟨r, by simp [hreads], hr⟩
    refine ⟨?_, hpost⟩
    rw [← h.read.delivered, NativeCall.taken_of_settles hcall, hq, Driver.filed_of_finished hfinished, hpre]
    simp
  written := h.write.written
  waiting := h.write.waiting
  flushed := h.write.flushed
  readBytes := h.read.counted
  writeBytes := h.write.counted

/-! ## The driver -/

theorem ReadSide.unmarked {s : Upgrade} (h : ReadSide s) (hdriver : s.driver.finished = false) :
    Filled false s.conn.readQ ∧ ¬ Told s.reads := by
  obtain ⟨marked, hfilled, hmarked, -⟩ := h.queue
  have hm : marked = false := by
    cases marked with
    | false => rfl
    | true => exact absurd (hmarked rfl) (by simp [hdriver])
  exact ⟨hm ▸ hfilled, fun htold => by simp [(h.told htold).1] at hdriver⟩

theorem ReadSide.pushEof {s : Upgrade} (h : ReadSide s) (hdriver : s.driver.finished = false)
    (hfiled : s.driver.filed = []) {d : Driver} (hd : d.finished = true) :
    ReadSide { s with conn := s.conn.pushEof, driver := d } := by
  obtain ⟨hfilled, htold⟩ := h.unmarked hdriver
  have hfiled' := Driver.filed_of_finished hd
  refine ⟨?_, ⟨true, hfilled.pushEof rfl, fun _ => hd, fun _ hm => by cases hm⟩, fun ht => absurd ht htold, h.eofLast,
    ?_, ?_⟩
  · rw [← h.delivered, hfiled]
    simp [UpgradeConn.pushEof, UpgradeRead.bytes, hfiled']
  · cases d <;> trivial
  · simpa [UpgradeConn.pushEof, UpgradeRead.bytes, hfiled', hfiled] using h.counted

theorem ReadSide.pushData {s : Upgrade} (h : ReadSide s) {b : Bytes} (hdriver : s.driver = .filing b) :
    ReadSide { s with conn := s.conn.pushData b, driver := .top } := by
  obtain ⟨hfilled, htold⟩ := h.unmarked (by rw [hdriver]; rfl)
  have hb : b ≠ [] := by
    have := h.filing
    rwa [hdriver] at this
  refine ⟨?_, ⟨false, hfilled.pushData rfl hb, nofun, nofun⟩, fun ht => absurd ht htold, h.eofLast, trivial, ?_⟩
  · rw [← h.delivered, hdriver]
    simp [UpgradeConn.pushData, UpgradeRead.bytes, Driver.filed]
  · rw [show (s.conn.pushData b).readBytes = s.conn.readBytes from rfl, h.counted, hdriver]
    simp [UpgradeConn.pushData, UpgradeRead.bytes, Driver.filed]

theorem Control.unbroken {s : Upgrade} (h : Control s) (hdriver : s.driver.stopped = false) : s.broken = false := by
  cases hb : s.broken with
  | false => rfl
  | true => simp [h.broken hb] at hdriver

theorem advance_inv {s s' : Upgrade} (h : UpgradeInv s) (hstep : s.advance = some s') : UpgradeInv s' := by
  obtain ⟨conn, registered, driver, call, received, written, broken, reads, writes⟩ := s
  obtain ⟨hread, hwrite, hcontrol⟩ := h
  cases driver with
  | top =>
      have haborted : conn.aborted = false := hcontrol.aborted
      simp only [Upgrade.advance, haborted, Bool.false_eq_true, if_false, Option.some.injEq] at hstep
      subst hstep
      exact ⟨{ hread with }, { hwrite with }, { hcontrol with }⟩
  | flushing =>
      simp only [Upgrade.advance] at hstep
      split at hstep
      · rename_i bytes writeQ hq
        simp only [Option.some.injEq] at hstep
        subst hstep
        refine ⟨{ hread with }, ⟨hwrite.written, fun hb => ?_, nofun, ?_⟩, { hcontrol with }⟩
        · rw [← hwrite.waiting hb]
          simp [Driver.unsent, hq]
        · have hcounted := hwrite.counted
          simp only [Driver.inFlight, hq, List.flatten_cons, List.length_append] at hcounted ⊢
          omega
      · simp only [Option.some.injEq] at hstep
        subst hstep
        exact ⟨{ hread with }, { hwrite with }, { hcontrol with }⟩
  | writing len rest => cases hstep
  | failing =>
      simp only [Upgrade.advance, Option.some.injEq] at hstep
      subst hstep
      have hbroken : broken = true := hcontrol.failing rfl rfl
      refine ⟨hread.pushEof rfl rfl rfl, { hwrite with flushed := fun hb => ?_ }, ?_⟩
      · simp [hbroken] at hb
      · exact ⟨fun _ => rfl, fun _ => rfl, hcontrol.aborted, nofun, fun _ => rfl⟩
  | closing =>
      simp only [Upgrade.advance, Option.some.injEq] at hstep
      subst hstep
      exact ⟨{ hread with }, { hwrite with }, { hcontrol with closed := fun _ => rfl, failing := nofun }⟩
  | checking =>
      have hclosed : conn.closed = false := by
        cases hc : conn.closed with
        | false => rfl
        | true => cases hcontrol.closed hc
      simp only [Upgrade.advance, hclosed, Bool.false_eq_true, if_false, Option.some.injEq] at hstep
      subst hstep
      exact ⟨{ hread with }, { hwrite with }, { hcontrol with }⟩
  | measuring =>
      simp only [Upgrade.advance, Option.some.injEq] at hstep
      subst hstep
      exact ⟨{ hread with }, { hwrite with }, { hcontrol with }⟩
  | selecting paused => cases hstep
  | filing b =>
      simp only [Upgrade.advance, Option.some.injEq] at hstep
      subst hstep
      exact ⟨hread.pushData rfl, { hwrite with }, { hcontrol with }⟩
  | leaving =>
      simp only [Upgrade.advance, Option.some.injEq] at hstep
      subst hstep
      exact ⟨{ hread with }, { hwrite with }, { hcontrol with registered := fun _ => rfl }⟩
  | gone => cases hstep

theorem WriteSide.sends {s : Upgrade} (h : WriteSide s) (hbroken : s.broken = false) {len : Nat} {rest : Bytes}
    (hdriver : s.driver = .writing len rest) (n : Nat) :
    WriteSide { s with written := s.written ++ rest.take n, driver := .writing len (rest.drop n) } := by
  have hsent : s.written ++ rest.take n ++ rest.drop n ++ s.conn.writeQ.flatten = accepted s.writes := by
    rw [← h.waiting hbroken, hdriver]
    simp [Driver.unsent]
  refine ⟨⟨rest.drop n ++ s.conn.writeQ.flatten, ?_⟩, fun _ => hsent, nofun, ?_⟩
  · rw [← List.append_assoc]
    exact hsent
  · rw [h.counted, hdriver]
    rfl

/-- The counter without the chunk that was being written, sent or not. -/
theorem WriteSide.discounted {s : Upgrade} (h : WriteSide s) {len : Nat} {rest : Bytes}
    (hdriver : s.driver = .writing len rest) :
    s.conn.writeBytes - len = 0 + s.conn.writeQ.flatten.length + s.call.reserved.length := by
  have hcounted := h.counted
  rw [hdriver] at hcounted
  simp only [Driver.inFlight] at hcounted
  omega

theorem ReadSide.receives {s : Upgrade} (h : ReadSide s) {paused : Bool} (hdriver : s.driver = .selecting paused)
    {bytes : Bytes} (hbytes : bytes ≠ []) :
    ReadSide { s with
      conn := { s.conn with readBytes := s.conn.readBytes + bytes.length }
      received := s.received ++ bytes
      driver := .filing bytes } := by
  have hdelivered := h.delivered
  have hqueue := h.queue
  have htold := h.told
  have hcounted := h.counted
  rw [hdriver] at hdelivered hqueue htold hcounted
  refine ⟨?_, hqueue, htold, h.eofLast, hbytes, ?_⟩
  · rw [← hdelivered]
    simp [Driver.filed]
  · simp only [Driver.filed, List.length_append, List.length_nil] at hcounted ⊢
    omega

theorem driverEvent_inv {s s' : Upgrade} {e : UpgradeEvent} (h : UpgradeInv s) (hclear : clearOfExit s e = true)
    (hstep : s.driverEvent e = some s') : UpgradeInv s' := by
  obtain ⟨conn, registered, driver, call, received, written, broken, reads, writes⟩ := s
  obtain ⟨hread, hwrite, hcontrol⟩ := h
  unfold Upgrade.driverEvent at hstep
  split at hstep
  · rename_i len rest n hd
    cases hd
    split at hstep
    · cases hstep
      exact ⟨{ hread with }, hwrite.sends (hcontrol.unbroken rfl) rfl n, { hcontrol with }⟩
    · cases hstep
  · rename_i len hd
    cases hd
    cases hstep
    exact ⟨{ hread with }, { hwrite with counted := hwrite.discounted rfl }, { hcontrol with }⟩
  · -- the write failed: what was written stays a prefix, and no more is promised
    rename_i len rest hd
    cases hd
    cases hstep
    exact ⟨{ hread with }, ⟨hwrite.written, nofun, nofun, hwrite.discounted rfl⟩,
      { hcontrol with failing := fun _ _ => rfl, broken := fun _ => rfl }⟩
  · rename_i paused hd
    cases hd
    split at hstep
    · cases hstep
      exact ⟨{ hread with }, { hwrite with }, { hcontrol with }⟩
    · cases hstep
  · rename_i hd
    cases hd
    split at hstep
    · cases hstep
      exact ⟨{ hread with }, { hwrite with }, { hcontrol with }⟩
    · cases hstep
  · rename_i bytes hd
    cases hd
    split at hstep
    · rename_i hbytes
      cases hstep
      exact ⟨hread.receives rfl hbytes.1, { hwrite with }, { hcontrol with }⟩
    · cases hstep
  · -- the stream ends, with nothing left to write
    rename_i hd
    cases hd
    cases hstep
    have hq : conn.writeQ.flatten = [] := of_decide_eq_true hclear
    refine ⟨hread.pushEof rfl rfl rfl, { hwrite with flushed := fun hb _ => ?_ },
      ⟨fun _ => rfl, fun _ => rfl, hcontrol.aborted, nofun, fun _ => rfl⟩⟩
    rw [← hwrite.waiting hb, hq]
    simp [Driver.unsent]
  · cases hstep

/-! ## The application -/

theorem ReadSide.returns {s : Upgrade} (h : ReadSide s) {r : JsResult} (hr : r.isEof = false)
    (hdata : r.data = s.call.taken) (htold : ¬ Told s.reads) {conn : UpgradeConn} (hq : conn.readQ = s.conn.readQ)
    (hbytes : conn.readBytes = s.conn.readBytes - r.data.length) : ReadSide ({ s with conn }.readReturns r) := by
  have htold' : ¬ Told (s.reads ++ [r]) := by simp [told_concat, htold, hr]
  obtain ⟨marked, hfilled, hmarked, hunmarked⟩ := h.queue
  refine ⟨?_, ⟨marked, hq ▸ hfilled, hmarked, fun hf hm => absurd (hunmarked hf hm).2 htold⟩,
    fun ht => absurd ht htold', h.eofLast.concat fun ht => absurd ht htold, h.filing, ?_⟩
  · simp only [Upgrade.readReturns, returned_concat, hdata, hq, NativeCall.taken, List.append_nil]
    exact h.delivered
  · have hcounted := h.counted
    rw [← hdata, List.append_assoc, List.length_append] at hcounted
    simp only [Upgrade.readReturns, NativeCall.taken, hq, List.nil_append]
    omega

/-- A read returns the end of stream, when all is delivered; it may have taken the marker. -/
theorem ReadSide.returnsEof {s : Upgrade} (h : ReadSide s) {r : JsResult} (hr : r.isEof = true)
    (hcall : s.call.taken = []) (hfinished : s.driver.finished = true) (hdata : queuedData s.conn.readQ = [])
    {conn : UpgradeConn} (hq : conn.readQ = s.conn.readQ ∨ conn.readQ = [])
    (hbytes : conn.readBytes = s.conn.readBytes) : ReadSide ({ s with conn }.readReturns r) := by
  have htold : Told (s.reads ++ [r]) := told_concat.mpr (.inr hr)
  have hdata' : queuedData conn.readQ = [] := by
    rcases hq with hq | hq
    · rw [hq, hdata]
    · rw [hq, queuedData_nil]
  refine ⟨?_, ?_, fun _ => ⟨hfinished, hdata', rfl⟩, h.eofLast.concat fun _ => hr, h.filing, ?_⟩
  · have hdelivered := h.delivered
    rw [hcall, hdata] at hdelivered
    simpa [Upgrade.readReturns, NativeCall.taken, hdata', JsResult.data_of_isEof hr] using hdelivered
  · rcases hq with hq | hq
    · obtain ⟨marked, hfilled, hmarked, hunmarked⟩ := h.queue
      exact ⟨marked, hq ▸ hfilled, hmarked, fun hf hm => ⟨hq.trans (hunmarked hf hm).1, htold⟩⟩
    · have hfilled : Filled false conn.readQ := hq ▸ .nil
      exact ⟨false, hfilled, nofun, fun _ _ => ⟨hq, htold⟩⟩
  · have hcounted := h.counted
    rw [hcall, hdata] at hcounted
    simpa [Upgrade.readReturns, NativeCall.taken, hdata', hbytes] using hcounted

theorem ReadSide.takes {s : Upgrade} (h : ReadSide s) (hcall : s.call.taken = []) {b taken rest : Bytes}
    {q : List UpgradeRead} (hq : s.conn.readQ = .data b :: q) (hb : b = taken ++ rest) {conn : UpgradeConn}
    (hconn : conn.readQ = if rest = [] then q else .data rest :: q) (hbytes : conn.readBytes = s.conn.readBytes) :
    ReadSide { s with conn, call := .settling taken } := by
  obtain ⟨marked, hfilled, hmarked, hunmarked⟩ := h.queue
  rw [hq] at hfilled
  cases hfilled with
  | data hne hfilled =>
      have htold : ¬ Told s.reads := fun ht => by
        have := (h.told ht).2.1
        rw [hq] at this
        exact hne (List.append_eq_nil_iff.mp this).1
      have hdata : queuedData s.conn.readQ = taken ++ queuedData conn.readQ := by
        rw [hq, hconn]
        split
        · rename_i hrest
          simp [UpgradeRead.bytes, hb, hrest]
        · simp [UpgradeRead.bytes, hb]
      have hfilled' : Filled marked conn.readQ := by
        rw [hconn]
        split
        · exact hfilled
        · rename_i hrest
          exact .data hrest hfilled
      refine ⟨?_, ⟨marked, hfilled', hmarked, fun hf hm => ?_⟩, fun ht => absurd ht htold, h.eofLast, h.filing, ?_⟩
      · have hdelivered := h.delivered
        rw [hcall, hdata] at hdelivered
        simpa [NativeCall.taken] using hdelivered
      · have := (hunmarked hf hm).1
        simp [hq] at this
      · have hcounted := h.counted
        rw [hcall, hdata] at hcounted
        simpa [NativeCall.taken, hbytes] using hcounted

theorem take_inv {s s' : Upgrade} {max : Nat} (h : UpgradeInv s) (hcall : s.call = .reading max)
    (hclear : clearOfExit s .proceed = true) (hstep : s.proceed = some s') : UpgradeInv s' := by
  obtain ⟨conn, registered, driver, call, received, written, broken, reads, writes⟩ := s
  cases hcall
  obtain ⟨hread, hwrite, hcontrol⟩ := h
  simp only [Upgrade.proceed, UpgradeConn.takeUpgradeRead] at hstep
  cases hq : conn.readQ with
  | nil =>
      rw [hq] at hstep
      cases hclosed : conn.closed with
      | true =>
          simp only [hclosed, if_true] at hstep
          cases hstep
          exact ⟨hread.returnsEof rfl rfl (hcontrol.closed hclosed) (by simp [hq]) (.inl rfl) rfl, { hwrite with },
            { hcontrol with }⟩
      | false =>
          simp only [hclosed, Bool.false_eq_true, if_false] at hstep
          cases hstep
          have htold : ¬ Told reads := fun ht => by
            have hfinished : driver.finished = true := (hread.told ht).1
            simp [clearOfExit, hq, hclosed, hfinished] at hclear
          exact ⟨hread.returns rfl rfl htold rfl rfl, { hwrite with }, { hcontrol with }⟩
  | cons r q =>
      rw [hq] at hstep
      cases r with
      | data b =>
          by_cases hmax : b.length > max
          · simp only [if_pos hmax] at hstep
            cases hstep
            have hrest : b.drop max ≠ [] := by simpa using hmax
            exact ⟨hread.takes rfl hq (List.take_append_drop max b).symm (if_neg hrest).symm rfl, { hwrite with },
              { hcontrol with }⟩
          · simp only [if_neg hmax] at hstep
            cases hstep
            exact ⟨hread.takes rfl hq (List.append_nil b).symm (if_pos rfl).symm rfl, { hwrite with },
              { hcontrol with }⟩
      | eof =>
          cases hstep
          obtain ⟨marked, hfilled, hmarked, -⟩ := hread.queue
          rw [hq] at hfilled
          cases hfilled with
          | marker =>
              exact ⟨hread.returnsEof rfl rfl (hmarked rfl) (by simp [hq, UpgradeRead.bytes]) (.inr rfl) rfl,
                { hwrite with }, { hcontrol with }⟩

theorem WriteSide.refuses {s : Upgrade} (h : WriteSide s) (hcall : s.call.reserved = []) (bytes : Bytes)
    (code msg : String) : WriteSide (s.writeReturns bytes (.err code msg)) := by
  have haccepted : accepted (s.writes ++ [(bytes, .err code msg)]) = accepted s.writes := by simp
  refine ⟨haccepted ▸ h.written, fun hb => (h.waiting hb).trans haccepted.symm,
    fun hb hf => (h.flushed hb hf).trans haccepted.symm, ?_⟩
  have hcounted := h.counted
  rw [hcall] at hcounted
  exact hcounted

/-- A write is queued while the driver still takes it, or when nothing can be written any more. -/
theorem WriteSide.accepts {s : Upgrade} (h : WriteSide s) {bytes : Bytes} (hcall : s.call = .queueing bytes)
    (hclear : bytes = [] ∨ s.broken = true ∨ s.driver.finished = false) :
    WriteSide ({ s with conn := s.conn.pushWrite bytes }.writeReturns bytes .undefined) := by
  have haccepted : accepted (s.writes ++ [(bytes, .undefined)]) = accepted s.writes ++ bytes := by simp
  refine ⟨?_, fun hb => ?_, fun hb hf => ?_, ?_⟩
  · exact haccepted ▸ h.written.trans (List.prefix_append _ _)
  · apply Eq.trans ?_ haccepted.symm
    rw [← h.waiting hb]
    simp [Upgrade.writeReturns, UpgradeConn.pushWrite]
  · apply Eq.trans ?_ haccepted.symm
    have hbroken : s.broken = false := hb
    have hfinished : s.driver.finished = true := hf
    have hbytes : bytes = [] := by simpa [hbroken, hfinished] using hclear
    rw [hbytes, List.append_nil]
    exact h.flushed hb hf
  · have hcounted := h.counted
    rw [hcall] at hcounted
    simp only [NativeCall.reserved] at hcounted
    simp only [Upgrade.writeReturns, UpgradeConn.pushWrite, NativeCall.reserved, List.flatten_append,
      List.flatten_singleton, List.length_append, List.length_nil]
    omega

theorem proceed_inv {s s' : Upgrade} (h : UpgradeInv s) (hopen : staysOpen s .proceed = true)
    (hclear : clearOfExit s .proceed = true) (hstep : s.proceed = some s') : UpgradeInv s' := by
  cases hcall : s.call with
  | idle => simp [Upgrade.proceed, hcall] at hstep
  | reading max => exact take_inv h hcall hclear hstep
  | settling b =>
      obtain ⟨conn, registered, driver, call, received, written, broken, reads, writes⟩ := s
      cases hcall
      cases hstep
      obtain ⟨hread, hwrite, hcontrol⟩ := h
      have htold : ¬ Told reads := fun ht => by cases (hread.told ht).2.2
      exact ⟨hread.returns rfl rfl htold rfl rfl, { hwrite with }, { hcontrol with }⟩
  | writing b =>
      obtain ⟨conn, registered, driver, call, received, written, broken, reads, writes⟩ := s
      cases hcall
      obtain ⟨hread, hwrite, hcontrol⟩ := h
      simp only [Upgrade.proceed] at hstep
      split at hstep
      · cases hstep
        exact ⟨{ hread with }, hwrite.refuses rfl b _ _, { hcontrol with }⟩
      · cases hstep
        exact ⟨{ hread with }, { hwrite with }, { hcontrol with }⟩
  | counting b =>
      obtain ⟨conn, registered, driver, call, received, written, broken, reads, writes⟩ := s
      cases hcall
      obtain ⟨hread, hwrite, hcontrol⟩ := h
      have hlimit : ¬ conn.writeBytes + b.length > upgradeWriteHardLimit := by simpa [staysOpen] using hopen
      simp only [Upgrade.proceed, UpgradeConn.countWrite, if_neg hlimit] at hstep
      cases hstep
      refine ⟨{ hread with }, { hwrite with counted := ?_ }, { hcontrol with }⟩
      have hcounted := hwrite.counted
      simp only [NativeCall.reserved, List.length_nil] at hcounted ⊢
      omega
  | queueing b =>
      obtain ⟨conn, registered, driver, call, received, written, broken, reads, writes⟩ := s
      cases hcall
      cases hstep
      obtain ⟨hread, hwrite, hcontrol⟩ := h
      have hclear' : b = [] ∨ broken = true ∨ driver.finished = false := by
        simpa [clearOfExit, or_assoc] using hclear
      exact ⟨{ hread with }, hwrite.accepts rfl hclear', { hcontrol with }⟩

theorem jsCalls_inv {s s' : Upgrade} {e : UpgradeEvent} (h : UpgradeInv s) (hopen : staysOpen s e = true)
    (hclear : clearOfExit s e = true) (hstep : s.jsCalls e = some s') : UpgradeInv s' := by
  obtain ⟨conn, registered, driver, call, received, written, broken, reads, writes⟩ := s
  obtain ⟨hread, hwrite, hcontrol⟩ := h
  unfold Upgrade.jsCalls at hstep
  split at hstep
  · rename_i max hcall
    cases hcall
    split at hstep
    · cases hstep
      exact ⟨{ hread with }, { hwrite with }, { hcontrol with }⟩
    · rename_i hreg
      cases hstep
      have hreg : registered = false := by simpa using hreg
      have hdata : queuedData conn.readQ = [] := by simpa [clearOfExit, hreg] using hclear
      exact ⟨hread.returnsEof rfl rfl (hcontrol.registered hreg) hdata (.inl rfl) rfl, { hwrite with },
        { hcontrol with }⟩
  · rename_i bytes hcall
    cases hcall
    split at hstep
    · cases hstep
      exact ⟨{ hread with }, { hwrite with }, { hcontrol with }⟩
    · cases hstep
      exact ⟨{ hread with }, hwrite.refuses rfl bytes _ _, { hcontrol with }⟩
  · simp [staysOpen] at hopen
  · cases hstep

/-- A step that neither closes the socket nor runs into the driver's way out keeps the invariant. -/
theorem upgradeStep_inv {s s' : Upgrade} {e : UpgradeEvent} (h : UpgradeInv s) (hopen : staysOpen s e = true)
    (hclear : clearOfExit s e = true) (hstep : upgradeStep s e = some s') : UpgradeInv s' := by
  unfold upgradeStep at hstep
  split at hstep
  · exact advance_inv h hstep
  · exact proceed_inv h hopen hclear hstep
  · exact jsCalls_inv h hopen hclear hstep
  · exact jsCalls_inv h hopen hclear hstep
  · exact jsCalls_inv h hopen hclear hstep
  · exact driverEvent_inv h hclear hstep

/-! ## The steps that break it -/

/-- The registry entry is removed while data is queued: the read reports the end before it. -/
theorem unregistered_read_breaks {s : Upgrade} (h : UpgradeInv s) (hcall : s.call = .idle)
    (hdata : queuedData s.conn.readQ ≠ []) {r : JsResult} (hr : r.isEof = true) :
    ¬ LosesNothing (s.readReturns r) := by
  intro hnew
  have hall : returned s.reads = s.received := (hnew.eof s.reads r [] rfl hr).1
  have hdelivered := h.read.delivered
  rw [hcall, ← hall, List.append_assoc, List.append_assoc, List.append_right_eq_self] at hdelivered
  exact hdata (List.append_eq_nil_iff.mp (List.append_eq_nil_iff.mp hdelivered).2).1

/-- The end marker is taken and `closed` is not set: the read finds an empty queue and no longer reports the end. -/
theorem empty_read_breaks {s : Upgrade} (h : UpgradeInv s) (hq : s.conn.readQ = [])
    (hfinished : s.driver.finished = true) {r : JsResult} (hr : r.isEof = false) :
    ¬ LosesNothing (s.readReturns r) := by
  intro hnew
  have htold : Told s.reads := by
    obtain ⟨marked, hfilled, -, hunmarked⟩ := h.read.queue
    rw [hq] at hfilled
    cases hfilled with
    | nil => exact (hunmarked hfinished rfl).2
  obtain ⟨r', hmem, hr'⟩ := htold
  obtain ⟨pre, post, hreads⟩ := List.append_of_mem hmem
  have hforever := (hnew.eof pre r' (post ++ [r]) (by simp [Upgrade.readReturns, hreads]) hr').2 r (by simp)
  simp [hr] at hforever

/-- A write is accepted when the driver is done: it is never written. -/
theorem late_write_breaks {s : Upgrade} (h : UpgradeInv s) {bytes : Bytes} (hbytes : bytes ≠ [])
    (hbroken : s.broken = false) (hfinished : s.driver.finished = true) :
    ¬ LosesNothing ({ s with conn := s.conn.pushWrite bytes }.writeReturns bytes .undefined) := by
  intro hnew
  have hflushed : s.written = accepted (s.writes ++ [(bytes, .undefined)]) := hnew.flushed hbroken hfinished
  rw [accepted_concat, ← h.write.flushed hbroken hfinished] at hflushed
  exact hbytes (List.append_right_eq_self.mp hflushed.symm)

theorem readEnd_eq {s s' : Upgrade} (hstep : upgradeStep s .readEnd = some s') :
    s.driver = .selecting false ∧ s' = { s with conn := s.conn.pushEof, driver := .leaving } := by
  simp only [upgradeStep, Upgrade.driverEvent] at hstep
  split at hstep
  case h_7 hdriver _ => exact ⟨hdriver, (Option.some.inj hstep).symm⟩
  all_goals simp_all

/-- The stream ends while a write is queued: the driver leaves without it. -/
theorem readEnd_breaks {s : Upgrade} (h : UpgradeInv s) {paused : Bool} (hdriver : s.driver = .selecting paused)
    (hq : s.conn.writeQ.flatten ≠ []) : ¬ LosesNothing { s with conn := s.conn.pushEof, driver := .leaving } := by
  intro hnew
  have hbroken := h.control.unbroken (by rw [hdriver]; rfl)
  have hflushed : s.written = accepted s.writes := hnew.flushed hbroken rfl
  have hwaiting := h.write.waiting hbroken
  rw [← hflushed, List.append_assoc, List.append_right_eq_self] at hwaiting
  exact hq (List.append_eq_nil_iff.mp hwaiting).2

theorem upgradeStep_breaks {s s' : Upgrade} {e : UpgradeEvent} (h : UpgradeInv s) (hclear : clearOfExit s e = false)
    (hstep : upgradeStep s e = some s') : ¬ LosesNothing s' := by
  unfold clearOfExit at hclear
  split at hclear
  · rename_i max
    rw [Bool.or_eq_false_iff, decide_eq_false_iff_not] at hclear
    cases hcall : s.call with
    | idle =>
        simp only [upgradeStep, Upgrade.jsCalls, hcall, hclear.1, Bool.false_eq_true, if_false] at hstep
        cases hstep
        exact unregistered_read_breaks h hcall hclear.2 rfl
    | _ => simp [upgradeStep, Upgrade.jsCalls, hcall] at hstep
  · rename_i max hcall
    simp only [ne_eq, decide_not, Bool.or_eq_false_iff, Bool.not_eq_false', decide_eq_true_eq] at hclear
    obtain ⟨⟨hq, hclosed⟩, hfinished⟩ := hclear
    simp only [upgradeStep, Upgrade.proceed, hcall, UpgradeConn.takeUpgradeRead, hq, hclosed, Bool.false_eq_true,
      if_false] at hstep
    cases hstep
    exact empty_read_breaks h hq hfinished rfl
  · rename_i bytes hcall
    simp only [Bool.or_eq_false_iff, decide_eq_false_iff_not, Bool.not_eq_false'] at hclear
    obtain ⟨⟨hbytes, hbroken⟩, hfinished⟩ := hclear
    simp only [upgradeStep, Upgrade.proceed, hcall] at hstep
    cases hstep
    exact late_write_breaks h hbytes hbroken hfinished
  · rw [decide_eq_false_iff_not] at hclear
    obtain ⟨hdriver, rfl⟩ := readEnd_eq hstep
    exact readEnd_breaks h hdriver hclear
  · cases hclear

end ThreeVa.HttpServer
