import ThreeVa.HttpServer.Lemmas.Accounting

/-! The invariant of the connection caps: a connection counts from the check that lets it in. -/

namespace ThreeVa.HttpServer
open Text ThreeVa.Firewall Runs

/-! ## What a registration and a release add -/

theorem Slot.register_total (fw : Firewall) (slot : Slot) : (slot.register fw).connTotal ≤ fw.connTotal + 1 := by
  cases slot <;> simp only [Slot.register, Firewall.onConnect, Firewall.onConnectUnattributed] <;> split <;> simp

theorem Slot.register_count (fw : Firewall) (slot : Slot) (ip : IpAddr) :
    (slot.register fw).connCount ip ≤ fw.connCount ip + if slot = .attributed ip then 1 else 0 := by
  cases slot with
  | attributed a =>
      simp only [Slot.register, Firewall.onConnect, Slot.attributed.injEq]
      split
      · simp
      · by_cases ha : ip = a
        · subst ha
          simp [Firewall.connCount]
        · simp [Firewall.connCount, Function.update_of_ne ha]
  | unattributed =>
      simp only [Slot.register, Firewall.onConnectUnattributed, reduceCtorEq, ↓reduceIte, Nat.add_zero]
      split <;> simp [Firewall.connCount]

theorem Slot.release_total (fw : Firewall) (slot : Slot) : (slot.release fw).connTotal ≤ fw.connTotal := by
  cases slot <;> simp only [Slot.release, Firewall.onDisconnect, Firewall.onDisconnectUnattributed] <;>
    split <;> simp

theorem Slot.release_count (fw : Firewall) (slot : Slot) (ip : IpAddr) :
    (slot.release fw).connCount ip ≤ fw.connCount ip := by
  cases slot with
  | attributed a =>
      simp only [Slot.release, Firewall.onDisconnect]
      split
      · simp
      · cases hentry : fw.connPerIp a with
        | none => simp [Firewall.connCount]
        | some n =>
            by_cases ha : ip = a
            · subst ha
              simp only [Firewall.connCount, Function.update_self, hentry, Option.getD_some]
              split <;> simp
            · simp [Firewall.connCount, Function.update_of_ne ha]
  | unattributed =>
      simp only [Slot.release, Firewall.onDisconnectUnattributed]
      split <;> simp [Firewall.connCount]

/-! ## The invariant -/

/-- The registered and the admitted connections together stay within the caps. -/
structure WithinCaps (config : FirewallConfig) (s : Server) : Prop where
  sameConfig : s.fw.config = config
  total : s.fw.connTotal + s.conns.countP (·.awaits.isSome) ≤ config.maxConnectionsTotal
  perIp : ∀ ip, s.fw.connCount ip + s.conns.countP (fun c => c.awaits = some (.attributed ip)) ≤
    config.maxConnectionsPerIp

theorem withinCaps_new (config : FirewallConfig) : WithinCaps config (Server.new config) :=
  ⟨rfl, by simp [Server.new, Firewall.new], fun ip => by simp [Server.new, Firewall.new, Firewall.connCount]⟩

section Preservation

variable {config : FirewallConfig} {s : Server} {i : Nat} {c c' : Conn}

theorem WithinCaps.same (h : WithinCaps config s) {fw' : Firewall} (hfw : SameCounters s.fw fw') :
    WithinCaps config { s with fw := fw' } := by
  refine ⟨hfw.config.trans h.sameConfig, hfw.connTotal ▸ h.total, fun ip => ?_⟩
  simpa [Firewall.connCount, hfw.connPerIp] using h.perIp ip

theorem WithinCaps.move (h : WithinCaps config s) (hi : s.conns[i]? = some c) (hc' : c'.awaits = none) :
    WithinCaps config (s.setConn i c') := by
  refine ⟨h.sameConfig, ?_, fun ip => ?_⟩
  · have hset := countP_set_add c' (fun c => c.awaits.isSome) hi
    have htotal := h.total
    simp only [hc', Option.isSome_none, Bool.false_eq_true, ↓reduceIte] at hset
    simp only [Server.setConn]
    omega
  · have hset := countP_set_add c' (fun c => decide (c.awaits = some (.attributed ip))) hi
    have hperIp := h.perIp ip
    simp only [hc', reduceCtorEq, decide_false, Bool.false_eq_true, ↓reduceIte] at hset
    simp only [Server.setConn]
    omega

/-- The registration takes over the place its check took. -/
theorem WithinCaps.register (h : WithinCaps config s) (hi : s.conns[i]? = some c) {slot : Slot}
    (hc : c.awaits = some slot) (hc' : c'.awaits = none) : WithinCaps config (s.register i c' slot) := by
  have hopened : ({ c' with opened := c'.opened ++ [slot] } : Conn).awaits = none := hc'
  refine ⟨(slot.register_config s.fw).trans h.sameConfig, ?_, fun ip => ?_⟩
  · have hset := countP_set_add { c' with opened := c'.opened ++ [slot] } (fun c => c.awaits.isSome) hi
    have hregister := slot.register_total s.fw
    have htotal := h.total
    simp only [hopened, hc, Option.isSome_none, Option.isSome_some, Bool.false_eq_true, ↓reduceIte] at hset
    simp only [Server.register, Server.setConn]
    omega
  · have hset := countP_set_add { c' with opened := c'.opened ++ [slot] }
      (fun c => decide (c.awaits = some (.attributed ip))) hi
    have hregister := slot.register_count s.fw ip
    have hperIp := h.perIp ip
    simp only [hopened, hc, reduceCtorEq, decide_false, Bool.false_eq_true, ↓reduceIte, Option.some.injEq,
      decide_eq_true_eq] at hset
    simp only [Server.register, Server.setConn]
    omega

theorem WithinCaps.release (h : WithinCaps config s) (hi : s.conns[i]? = some c) (slot : Slot) :
    WithinCaps config (s.release i c slot) := by
  have hmove := h.move hi
    (show ({ c with stage := .ended, released := c.released ++ [slot] } : Conn).awaits = none from rfl)
  refine ⟨(slot.release_config s.fw).trans h.sameConfig, ?_, fun ip => ?_⟩
  · exact (Nat.add_le_add_right (slot.release_total s.fw) _).trans hmove.total
  · exact (Nat.add_le_add_right (slot.release_count s.fw ip) _).trans (hmove.perIp ip)

/-- A check that finds room takes its place. -/
theorem WithinCaps.admit (h : WithinCaps config s) {slot : Slot} (hroom : hasRoom s slot = true)
    {conns : List Conn} (htotal : conns.countP (·.awaits.isSome) ≤ s.conns.countP (·.awaits.isSome) + 1)
    (hperIp : ∀ ip, conns.countP (fun c => c.awaits = some (.attributed ip)) ≤
      s.conns.countP (fun c => c.awaits = some (.attributed ip)) + if slot = .attributed ip then 1 else 0) :
    WithinCaps config { s with conns := conns } := by
  simp only [hasRoom, h.sameConfig, Bool.and_eq_true, decide_eq_true_eq] at hroom
  obtain ⟨hall, hone⟩ := hroom
  refine ⟨h.sameConfig, ?_, fun ip => ?_⟩
  · dsimp only
    omega
  · have hcount := hperIp ip
    have hwithin := h.perIp ip
    dsimp only
    split at hcount
    · rename_i hslot
      subst hslot
      simp only [decide_eq_true_eq] at hone
      omega
    · omega

theorem WithinCaps.admit_set (h : WithinCaps config s) (hi : s.conns[i]? = some c) {slot : Slot}
    (hc' : c'.awaits = some slot) (hroom : hasRoom s slot = true) : WithinCaps config (s.setConn i c') := by
  apply h.admit hroom
  · have hset := countP_set_add c' (fun c => c.awaits.isSome) hi
    simp only [hc', Option.isSome_some, ↓reduceIte] at hset
    omega
  · intro ip
    have hset := countP_set_add c' (fun c => decide (c.awaits = some (.attributed ip))) hi
    simp only [hc', Option.some.injEq, decide_eq_true_eq] at hset
    omega

/-! ## Each step -/

theorem withinCaps_accept (h : WithinCaps config s) (peer : IpAddr) (tls : Bool) (now : Instant)
    (hroom : admitsWithRoom s (.accept peer tls now) = true) : WithinCaps config (accept s peer tls now) := by
  simp only [accept]
  cases hproxy : s.fw.isTrustedProxy peer with
  | true =>
      have hawaits : (Conn.new true peer tls).awaits = none := by cases tls <;> rfl
      simp only [↓reduceIte]
      split
      · refine ⟨h.sameConfig, ?_, fun ip => ?_⟩
        · simpa [List.countP_append, hawaits] using h.total
        · simpa [List.countP_append, hawaits] using h.perIp ip
      · exact h
  | false =>
      have hawaits : (Conn.new false peer tls).awaits = some (.attributed peer) := rfl
      simp only [Bool.false_eq_true, ↓reduceIte]
      split
      · rename_i hallowed
        simp only [admitsWithRoom, admits, hproxy, hallowed, Bool.not_false, Bool.and_self, ↓reduceIte,
          Option.all_some] at hroom
        apply h.admit hroom
        · simp [List.countP_append, hawaits]
        · intro ip
          simp [List.countP_append, hawaits, List.countP_cons]
      · exact h

theorem withinCaps_request (h : WithinCaps config s) (hi : s.conns[i]? = some c) {headers : Headers}
    {now : Instant} (hroom : admitsWithRoom s (.request i headers now) = true) {s' : Server}
    (hstep : connStep s i c (.request i headers now) = some s') : WithinCaps config s' := by
  simp only [connStep] at hstep
  split at hstep
  · rename_i hstage
    cases hstep
    rcases afterRequest_cases s.fw c headers now with hafter | hafter | ⟨slot, hafter, -⟩ <;> rw [hafter]
    · exact h.move hi rfl
    · exact h.move hi rfl
    · simp only [admitsWithRoom, admits, hi, hstage, hafter, Option.all_some] at hroom
      exact h.admit_set hi rfl hroom
  · simp at hstep

/-- Every other event of a connection registers what it awaits, releases a slot or only moves on. -/
theorem withinCaps_connStep (h : WithinCaps config s) (hi : s.conns[i]? = some c) {e : Event}
    (he : ∀ headers now, e ≠ .request i headers now) (hconn : e.conn = some i) {s' : Server}
    (hstep : connStep s i c e = some s') : WithinCaps config s' := by
  cases e with
  | register j =>
      simp only [connStep] at hstep
      split at hstep
      · rename_i hstage
        cases hstep
        apply h.register hi
        · simp [Conn.awaits, hstage]
        · cases htls : c.tls <;> simp [Conn.awaits, afterAccept]
      · rename_i slot headers hstage
        cases hstep
        apply h.register hi
        · simp [Conn.awaits, hstage]
        · rfl
      · simp at hstep
  | handshake j ok =>
      simp only [connStep] at hstep
      split at hstep
      · split at hstep
        · cases hstep
          exact h.move hi rfl
        · split at hstep
          · cases hstep
            exact h.release hi _
          · cases hstep
            exact h.move hi rfl
      · simp at hstep
  | request j headers now =>
      cases hconn
      exact absurd rfl (he headers now)
  | check j now =>
      simp only [connStep] at hstep
      split at hstep
      · cases hstep
        apply WithinCaps.same (s := s.setConn i _) ?_ (checkRequest_counters s.fw _ now)
        apply h.move hi
        split <;> rfl
      · simp at hstep
  | dispatch j =>
      simp only [connStep] at hstep
      split at hstep
      · split at hstep
        · cases hstep
          exact h.move hi rfl
        · cases hstep
          exact h.move hi rfl
      · simp at hstep
  | leave j =>
      simp only [connStep] at hstep
      split at hstep
      · cases hstep
        exact h.move hi rfl
      · simp at hstep
  | finish j =>
      simp only [connStep] at hstep
      split at hstep
      · split at hstep
        · cases hstep
          exact h.release hi _
        · split at hstep
          · cases hstep
            exact h.release hi _
          · cases hstep
            exact h.move hi rfl
      · simp at hstep
  | driverExit j =>
      simp only [connStep] at hstep
      split at hstep
      · cases hstep
        exact h.release hi _
      · simp at hstep
  | accept _ _ _ => simp [Event.conn] at hconn
  | cleanup _ => simp [Event.conn] at hconn
  | blockIp _ _ _ => simp [Event.conn] at hconn
  | unblockIp _ => simp [Event.conn] at hconn

end Preservation

theorem step_withinCaps {config : FirewallConfig} (s : Server) (e : Event) (s' : Server) (h : WithinCaps config s)
    (hroom : admitsWithRoom s e = true) (hstep : step s e = some s') : WithinCaps config s' := by
  cases step_cases hstep with
  | accepted peer tls now => exact withinCaps_accept h peer tls now hroom
  | outside hsame => exact h.same hsame
  | @connection _ i c _ hconn hi hstep =>
      by_cases he : ∃ headers now, e = .request i headers now
      · obtain ⟨headers, now, rfl⟩ := he
        exact withinCaps_request h hi hroom hstep
      · exact withinCaps_connStep h hi (fun headers now heq => he ⟨headers, now, heq⟩) hconn hstep

end ThreeVa.HttpServer
