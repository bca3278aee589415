import ThreeVa.Lib.Runs
import ThreeVa.HttpServer.Accounting

/-! The invariant of the connection accounting: each connection holds the slot its own variables name. -/

namespace ThreeVa.HttpServer
open Text ThreeVa.Firewall Runs

/-! ## The counters under each firewall call -/

structure SameCounters (fw fw' : Firewall) : Prop where
  config : fw'.config = fw.config
  connPerIp : fw'.connPerIp = fw.connPerIp
  connTotal : fw'.connTotal = fw.connTotal

theorem SameCounters.refl (fw : Firewall) : SameCounters fw fw := ⟨rfl, rfl, rfl⟩

theorem recordAutoBlock_counters (fw : Firewall) (ip : IpAddr) (now : Instant) :
    SameCounters fw (fw.recordAutoBlock ip now).2 := ⟨rfl, rfl, rfl⟩

theorem takeToken_counters (fw : Firewall) (ip : IpAddr) (now : Instant) :
    SameCounters fw (fw.takeToken ip now).2.2 := ⟨rfl, rfl, rfl⟩

theorem checkRequest_counters (fw : Firewall) (ip : IpAddr) (now : Instant) :
    SameCounters fw (fw.checkRequest ip now).2 := by
  unfold Firewall.checkRequest
  split
  · exact .refl fw
  · split
    · exact .refl fw
    · have ht := takeToken_counters fw ip now
      dsimp only
      split
      · exact ht
      · split
        · exact ht
        · split
          · have hr := recordAutoBlock_counters (fw.takeToken ip now).2.2 ip now
            exact ⟨hr.config.trans ht.config, hr.connPerIp.trans ht.connPerIp, hr.connTotal.trans ht.connTotal⟩
          · exact ht

theorem Slot.register_config (fw : Firewall) (slot : Slot) : (slot.register fw).config = fw.config := by
  cases slot <;> simp only [Slot.register, Firewall.onConnect, Firewall.onConnectUnattributed] <;> split <;> rfl

theorem Slot.release_config (fw : Firewall) (slot : Slot) : (slot.release fw).config = fw.config := by
  cases slot <;> simp only [Slot.release, Firewall.onDisconnect, Firewall.onDisconnectUnattributed] <;>
    split <;> rfl

/-! ## Slots held -/

/-- The slot the accounting variables of the request loop name. -/
def Conn.accounted (c : Conn) : Option Slot :=
  match c.accountIp with
  | some ip => some (.attributed ip)
  | none => if c.accountGlobalOnly then some .unattributed else none

/-- The slot released from the stage on, where the request loop would release `accounted`. -/
def Stage.slot (accounted : Option Slot) : Stage → Option Slot
  | .accepting | .ended => none
  | .upgraded ip => some (.attributed ip)
  | _ => accounted

/-- The slot the connection will release when it ends. -/
def Conn.held (c : Conn) : Option Slot := c.stage.slot c.accounted

/-- The counters are what the connections hold. -/
structure Balanced (fw : Firewall) (conns : List Conn) : Prop where
  total : fw.connTotal = conns.countP fun c => c.held.isSome
  perIp : ∀ ip, fw.connCount ip = conns.countP fun c => c.held = some (.attributed ip)
  nonzero : ∀ ip, fw.connPerIp ip ≠ some 0

theorem countP_set_add {α : Type} {l : List α} {i : Nat} {a : α} (b : α) (p : α → Bool) (h : l[i]? = some a) :
    (l.set i b).countP p + (if p a then 1 else 0) = l.countP p + (if p b then 1 else 0) := by
  obtain ⟨hi, rfl⟩ := List.getElem?_eq_some_iff.mp h
  rw [List.countP_set hi]
  by_cases hp : p l[i]
  · have := List.countP_pos_iff.mpr ⟨l[i], List.getElem_mem hi, hp⟩
    simp only [hp, ↓reduceIte]
    omega
  · simp [hp]

section Balance

variable {fw fw' : Firewall} {conns : List Conn} {i : Nat} {c c' : Conn}

theorem Balanced.same (h : Balanced fw conns) (hfw : SameCounters fw fw') : Balanced fw' conns := by
  refine ⟨hfw.connTotal ▸ h.total, fun ip => ?_, hfw.connPerIp ▸ h.nonzero⟩
  simpa [Firewall.connCount, hfw.connPerIp] using h.perIp ip

theorem Balanced.move (h : Balanced fw conns) (hi : conns[i]? = some c) (hheld : c'.held = c.held) :
    Balanced fw (conns.set i c') := by
  have key : ∀ p : Option Slot → Bool,
      (conns.set i c').countP (fun c => p c.held) = conns.countP fun c => p c.held := by
    intro p
    have := countP_set_add c' (fun c => p c.held) hi
    simp only [hheld] at this
    omega
  exact ⟨h.total.trans (key Option.isSome).symm,
    fun ip => (h.perIp ip).trans (key fun o => o = some (.attributed ip)).symm, h.nonzero⟩

theorem Balanced.opens (h : Balanced fw conns) (henabled : fw.config.enabled = true) (hi : conns[i]? = some c)
    (hc : c.held = none) {slot : Slot} (hc' : c'.held = some slot) :
    Balanced (slot.register fw) (conns.set i c') := by
  have hall := countP_set_add c' (fun c => c.held.isSome) hi
  have hip := fun ip => countP_set_add c' (fun c => decide (c.held = some (.attributed ip))) hi
  simp only [hc, hc', Option.isSome_none, Option.isSome_some, ↓reduceIte, Bool.false_eq_true] at hall
  simp only [hc, hc', Option.some.injEq, reduceCtorEq, decide_false, Bool.false_eq_true, ↓reduceIte,
    decide_eq_true_eq] at hip
  have htotal := h.total
  cases slot with
  | attributed a =>
      simp only [Slot.register, Firewall.onConnect, henabled, Bool.not_true, Bool.false_eq_true, ↓reduceIte]
      refine ⟨by dsimp only; omega, fun ip => ?_, fun ip => ?_⟩
      · have hcount := h.perIp ip
        have := hip ip
        by_cases ha : ip = a
        · subst ha
          simp only [Firewall.connCount, Function.update_self, Option.getD_some, ↓reduceIte] at *
          omega
        · simp only [Firewall.connCount, Function.update_of_ne ha, Slot.attributed.injEq, Ne.symm ha,
            ↓reduceIte] at *
          omega
      · by_cases ha : ip = a
        · subst ha; simp
        · simpa [Function.update_of_ne ha] using h.nonzero ip
  | unattributed =>
      simp only [Slot.register, Firewall.onConnectUnattributed, henabled, Bool.not_true, Bool.false_eq_true,
        ↓reduceIte]
      refine ⟨by dsimp only; omega, fun ip => ?_, h.nonzero⟩
      have hcount := h.perIp ip
      have := hip ip
      simp only [Firewall.connCount, reduceCtorEq, ↓reduceIte] at *
      omega

theorem Balanced.closes (h : Balanced fw conns) (henabled : fw.config.enabled = true) (hi : conns[i]? = some c)
    {slot : Slot} (hc : c.held = some slot) (hc' : c'.held = none) :
    Balanced (slot.release fw) (conns.set i c') := by
  have hall := countP_set_add c' (fun c => c.held.isSome) hi
  have hip := fun ip => countP_set_add c' (fun c => decide (c.held = some (.attributed ip))) hi
  simp only [hc, hc', Option.isSome_none, Option.isSome_some, ↓reduceIte, Bool.false_eq_true] at hall
  simp only [hc, hc', Option.some.injEq, reduceCtorEq, decide_false, Bool.false_eq_true, ↓reduceIte,
    decide_eq_true_eq] at hip
  have htotal := h.total
  cases slot with
  | attributed a =>
      simp only [Slot.release, Firewall.onDisconnect, henabled, Bool.not_true, Bool.false_eq_true, ↓reduceIte]
      have hcounta := h.perIp a
      have hipa := hip a
      cases hentry : fw.connPerIp a with
      | none =>
          -- The connection itself is counted under `a`, so the entry is there.
          simp only [Firewall.connCount, hentry, Option.getD_none, ↓reduceIte] at hcounta hipa
          omega
      | some n =>
          simp only [Firewall.connCount, hentry, Option.getD_some, ↓reduceIte] at hcounta hipa
          refine ⟨by dsimp only; omega, fun ip => ?_, fun ip => ?_⟩
          · have hcount := h.perIp ip
            have := hip ip
            by_cases ha : ip = a
            · subst ha
              simp only [Firewall.connCount, Function.update_self]
              split
              · simp only [Option.getD_none]; omega
              · simp only [Option.getD_some]; omega
            · simp only [Firewall.connCount, Function.update_of_ne ha, Slot.attributed.injEq, Ne.symm ha,
                ↓reduceIte] at *
              omega
          · by_cases ha : ip = a
            · subst ha
              simp only [Function.update_self]
              split
              · simp
              · simpa using ‹_›
            · simpa [Function.update_of_ne ha] using h.nonzero ip
  | unattributed =>
      simp only [Slot.release, Firewall.onDisconnectUnattributed, henabled, Bool.not_true, Bool.false_eq_true,
        ↓reduceIte]
      refine ⟨by dsimp only; omega, fun ip => ?_, h.nonzero⟩
      have hcount := h.perIp ip
      have := hip ip
      simp only [Firewall.connCount, reduceCtorEq, ↓reduceIte] at *
      omega

end Balance

/-! ## The invariant -/

/-- The log of an open connection is the slot it holds, and of an ended one it is matched. `proxy` says which
peers are trusted. -/
structure ConnOk (proxy : IpAddr → Bool) (c : Conn) : Prop where
  holds : c.stage ≠ .ended → c.opened = c.held.toList ∧ c.released = []
  matched : c.stage = .ended → c.released = c.opened
  exclusive : c.accountIp.isSome = true → c.accountGlobalOnly = false
  fresh : c.stage = .accepting ∨ c.stage = .handshaking →
    c.accountGlobalOnly = false ∧ c.accountIp = if proxy c.peer then none else some c.peer
  direct : c.stage = .accepting → proxy c.peer = false
  pending : ∀ slot headers, c.stage = .registering slot headers → c.accountIp = none

structure Inv (config : FirewallConfig) (s : Server) : Prop where
  config : s.fw.config = config
  conns : ∀ c ∈ s.conns, ConnOk s.fw.isTrustedProxy c
  balanced : Balanced s.fw s.conns

theorem inv_new (config : FirewallConfig) : Inv config (Server.new config) :=
  ⟨rfl, by simp [Server.new], ⟨rfl, fun _ => rfl, fun _ => by simp [Server.new, Firewall.new]⟩⟩

theorem isTrustedProxy_congr {fw fw' : Firewall} (h : fw'.config = fw.config) :
    fw'.isTrustedProxy = fw.isTrustedProxy := by
  funext ip
  simp only [Firewall.isTrustedProxy, Firewall.trustedRules, h]

section Preservation

variable {config : FirewallConfig} {s : Server} {i : Nat} {c : Conn}

theorem Inv.same (h : Inv config s) {fw' : Firewall} (hfw : SameCounters s.fw fw') :
    Inv config { s with fw := fw' } :=
  ⟨hfw.config.trans h.config, by simpa only [isTrustedProxy_congr hfw.config] using h.conns, h.balanced.same hfw⟩

theorem Inv.get (h : Inv config s) (hi : s.conns[i]? = some c) : ConnOk s.fw.isTrustedProxy c :=
  h.conns c (List.mem_of_getElem? hi)

/-- A step of the task that neither registers nor releases. -/
theorem Inv.move (h : Inv config s) (hi : s.conns[i]? = some c) {c' : Conn}
    (hc' : ConnOk s.fw.isTrustedProxy c') (hheld : c'.held = c.held) : Inv config (s.setConn i c') := by
  refine ⟨h.config, fun d hd => ?_, h.balanced.move hi hheld⟩
  rcases List.mem_or_eq_of_mem_set hd with hd | rfl
  · exact h.conns d hd
  · exact hc'

theorem Inv.register (h : Inv config s) (henabled : config.enabled = true) (hi : s.conns[i]? = some c)
    (hc : c.held = none) {c' : Conn} {slot : Slot} (hheld : c'.held = some slot)
    (hok : ConnOk s.fw.isTrustedProxy { c' with opened := c'.opened ++ [slot] }) :
    Inv config (s.register i c' slot) := by
  refine ⟨(slot.register_config s.fw).trans h.config, fun d hd => ?_, ?_⟩
  · rw [Server.register, isTrustedProxy_congr (slot.register_config s.fw)]
    rcases List.mem_or_eq_of_mem_set hd with hd | rfl
    · exact h.conns d hd
    · exact hok
  · exact h.balanced.opens (h.config ▸ henabled) hi hc hheld

theorem Inv.release (h : Inv config s) (henabled : config.enabled = true) (hi : s.conns[i]? = some c)
    {slot : Slot} (hopen : c.stage ≠ .ended) (hheld : c.held = some slot) : Inv config (s.release i c slot) := by
  have hc := h.get hi
  obtain ⟨hopened, hreleased⟩ := hc.holds hopen
  refine ⟨(slot.release_config s.fw).trans h.config, fun d hd => ?_, ?_⟩
  · rw [Server.release, isTrustedProxy_congr (slot.release_config s.fw)]
    rcases List.mem_or_eq_of_mem_set hd with hd | rfl
    · exact h.conns d hd
    · exact ⟨by simp, fun _ => by simp [hopened, hreleased, hheld], hc.exclusive, by simp, by simp, by simp⟩
  · exact h.balanced.closes (h.config ▸ henabled) hi hheld rfl

/-- Within the request loop, and into the driver, only the stage changes. -/
theorem Inv.toStage (h : Inv config s) (hi : s.conns[i]? = some c) {stage : Stage} (hopen : c.stage ≠ .ended)
    (hheld : stage.slot c.accounted = c.held)
    (hstage : stage ≠ .ended ∧ stage ≠ .accepting ∧ stage ≠ .handshaking)
    (hpending : ∀ slot headers, stage = .registering slot headers → c.accountIp = none) :
    Inv config (s.setConn i { c with stage := stage }) := by
  have hc := h.get hi
  obtain ⟨hended, haccepting, hhandshaking⟩ := hstage
  refine h.move hi ⟨fun _ => ?_, fun he => absurd he hended, hc.exclusive, ?_, fun ha => absurd ha haccepting,
    hpending⟩ hheld
  · obtain ⟨hopened, hreleased⟩ := hc.holds hopen
    exact ⟨hopened.trans (congrArg Option.toList hheld.symm), hreleased⟩
  · rintro (ha | hs)
    · exact absurd ha haccepting
    · exact absurd hs hhandshaking

theorem Inv.end_without_slot (h : Inv config s) (hi : s.conns[i]? = some c) (hopen : c.stage ≠ .ended)
    (hheld : c.held = none) : Inv config (s.setConn i { c with stage := .ended }) := by
  have hc := h.get hi
  obtain ⟨hopened, hreleased⟩ := hc.holds hopen
  exact h.move hi ⟨by simp, fun _ => by simp [hopened, hreleased, hheld], hc.exclusive, by simp, by simp, by simp⟩
    hheld.symm

/-! ## Each event -/

theorem inv_register (h : Inv config s) (henabled : config.enabled = true) (hi : s.conns[i]? = some c)
    (hone : ∀ slot headers, c.stage = .registering slot headers → c.accountGlobalOnly = false) {s' : Server}
    (hstep : connStep s i c (.register i) = some s') : Inv config s' := by
  have hc := h.get hi
  simp only [connStep] at hstep
  split at hstep
  · -- The accept loop counts a direct peer.
    rename_i hstage
    cases hstep
    obtain ⟨hglobal, hip⟩ := hc.fresh (.inl hstage)
    rw [hc.direct hstage] at hip
    have hheld : c.held = none := by simp [Conn.held, hstage, Stage.slot]
    obtain ⟨hopened, hreleased⟩ := hc.holds (by simp [hstage])
    have hafter : ({ c with stage := afterAccept c.tls } : Conn).held = some (.attributed c.peer) := by
      cases htls : c.tls <;> simp [Conn.held, Stage.slot, afterAccept, Conn.accounted, hip]
    refine h.register henabled hi hheld hafter ⟨fun _ => ?_, fun he => ?_, hc.exclusive, fun _ => ?_, ?_, ?_⟩
    · exact ⟨by rw [hopened, hheld]; exact congrArg Option.toList hafter.symm, hreleased⟩
    · cases htls : c.tls <;> simp [afterAccept, htls] at he
    · exact ⟨hglobal, by simp [hip, hc.direct hstage]⟩
    · cases htls : c.tls <;> simp [afterAccept]
    · cases htls : c.tls <;> simp [afterAccept]
  · -- The request loop counts the first request of a proxied connection.
    rename_i slot headers hstage
    cases hstep
    have hip := hc.pending slot headers hstage
    have hglobal := hone slot headers hstage
    have hheld : c.held = none := by simp [Conn.held, hstage, Stage.slot, Conn.accounted, hip, hglobal]
    obtain ⟨hopened, hreleased⟩ := hc.holds (by simp [hstage])
    have hafter : ({ c.account slot with stage := .checking headers } : Conn).held = some slot := by
      cases slot <;> simp [Conn.held, Stage.slot, Conn.account, Conn.accounted, hip]
    refine h.register henabled hi hheld hafter ⟨fun _ => ?_, by simp, ?_, by simp, by simp, by simp⟩
    · refine ⟨?_, by cases slot <;> exact hreleased⟩
      have hlog : (c.account slot).opened = [] := by cases slot <;> simp [Conn.account, hopened, hheld]
      rw [hlog]
      exact congrArg Option.toList hafter.symm
    · cases slot <;> simp [Conn.account, hip, hglobal]
  · simp at hstep

theorem inv_handshake (h : Inv config s) (henabled : config.enabled = true) (hi : s.conns[i]? = some c)
    {ok : Bool} {s' : Server} (hstep : connStep s i c (.handshake i ok) = some s') : Inv config s' := by
  have hc := h.get hi
  simp only [connStep] at hstep
  split at hstep
  · rename_i hstage
    obtain ⟨hglobal, hip⟩ := hc.fresh (.inr hstage)
    have hopen : c.stage ≠ .ended := by simp [hstage]
    split at hstep
    · cases hstep
      exact h.toStage hi hopen (by simp [Conn.held, hstage, Stage.slot]) (by simp) (by simp)
    · -- Only a direct peer was counted by the accept loop.
      split at hstep
      · rename_i hproxy
        cases hstep
        apply h.release henabled hi hopen ?_
        simp only [Bool.not_eq_eq_eq_not, Bool.not_true] at hproxy
        simp [Conn.held, hstage, Stage.slot, Conn.accounted, hip, hproxy]
      · rename_i hproxy
        cases hstep
        apply h.end_without_slot hi hopen ?_
        simp only [Bool.not_eq_eq_eq_not, Bool.not_true, Bool.not_eq_false] at hproxy
        simp [Conn.held, hstage, Stage.slot, Conn.accounted, hip, hproxy, hglobal]
  · simp at hstep

theorem afterRequest_cases (fw : Firewall) (c : Conn) (headers : Headers) (now : Instant) :
    afterRequest fw c headers now = .checking headers ∨ afterRequest fw c headers now = .leaving ∨
      ∃ slot, afterRequest fw c headers now = .registering slot headers ∧ c.accountIp = none := by
  unfold afterRequest
  cases c.accountIp with
  | some ip => exact .inl rfl
  | none =>
      dsimp only
      split_ifs
      · exact .inr (.inr ⟨_, rfl, rfl⟩)
      · exact .inr (.inl rfl)
      · exact .inr (.inr ⟨_, rfl, rfl⟩)
      · exact .inr (.inl rfl)

theorem inv_request (h : Inv config s) (hi : s.conns[i]? = some c) {headers : Headers} {now : Instant}
    {s' : Server} (hstep : connStep s i c (.request i headers now) = some s') : Inv config s' := by
  simp only [connStep] at hstep
  split at hstep
  · rename_i hstage
    cases hstep
    have hopen : c.stage ≠ .ended := by simp [hstage]
    rcases afterRequest_cases s.fw c headers now with hafter | hafter | ⟨slot, hafter, hip⟩ <;> rw [hafter]
    · exact h.toStage hi hopen (by simp [Conn.held, hstage, Stage.slot]) (by simp) (by simp)
    · exact h.toStage hi hopen (by simp [Conn.held, hstage, Stage.slot]) (by simp) (by simp)
    · exact h.toStage hi hopen (by simp [Conn.held, hstage, Stage.slot]) (by simp) (fun _ _ _ => hip)
  · simp at hstep

theorem inv_check (h : Inv config s) (hi : s.conns[i]? = some c) {now : Instant} {s' : Server}
    (hstep : connStep s i c (.check i now) = some s') : Inv config s' := by
  simp only [connStep] at hstep
  split at hstep
  · rename_i headers hstage
    cases hstep
    have hopen : c.stage ≠ .ended := by simp [hstage]
    apply Inv.same (s := s.setConn i _) ?_ (checkRequest_counters s.fw _ now)
    split
    · exact h.toStage hi hopen (by simp [Conn.held, hstage, Stage.slot]) (by simp) (by simp)
    · exact h.toStage hi hopen (by simp [Conn.held, hstage, Stage.slot]) (by simp) (by simp)
  · simp at hstep

theorem inv_dispatch (h : Inv config s) (hi : s.conns[i]? = some c)
    (hone : ∀ headers, c.stage = .admitted headers → isUpgradeRequest headers = true → c.accountIp.isSome = true)
    {s' : Server} (hstep : connStep s i c (.dispatch i) = some s') : Inv config s' := by
  simp only [connStep] at hstep
  split at hstep
  · rename_i headers hstage
    have hopen : c.stage ≠ .ended := by simp [hstage]
    split at hstep
    · rename_i hupgrade
      cases hstep
      obtain ⟨ip, hip⟩ := Option.isSome_iff_exists.mp (hone headers hstage hupgrade)
      exact h.toStage hi hopen (by simp [Conn.held, hstage, Stage.slot, Conn.accounted, hip]) (by simp) (by simp)
    · cases hstep
      exact h.toStage hi hopen (by simp [Conn.held, hstage, Stage.slot]) (by simp) (by simp)
  · simp at hstep

theorem inv_leave (h : Inv config s) (hi : s.conns[i]? = some c) {s' : Server}
    (hstep : connStep s i c (.leave i) = some s') : Inv config s' := by
  simp only [connStep] at hstep
  split at hstep
  · rename_i hstage
    cases hstep
    exact h.toStage hi (by simp [hstage]) (by simp [Conn.held, hstage, Stage.slot]) (by simp) (by simp)
  · simp at hstep

theorem inv_finish (h : Inv config s) (henabled : config.enabled = true) (hi : s.conns[i]? = some c)
    {s' : Server} (hstep : connStep s i c (.finish i) = some s') : Inv config s' := by
  simp only [connStep] at hstep
  split at hstep
  · rename_i hstage
    have hopen : c.stage ≠ .ended := by simp [hstage]
    split at hstep
    · rename_i ip hip
      cases hstep
      exact h.release henabled hi hopen (by simp [Conn.held, hstage, Stage.slot, Conn.accounted, hip])
    · rename_i hip
      split at hstep
      · rename_i hglobal
        cases hstep
        exact h.release henabled hi hopen (by simp [Conn.held, hstage, Stage.slot, Conn.accounted, hip, hglobal])
      · rename_i hglobal
        cases hstep
        exact h.end_without_slot hi hopen (by simp [Conn.held, hstage, Stage.slot, Conn.accounted, hip, hglobal])
  · simp at hstep

theorem inv_driverExit (h : Inv config s) (henabled : config.enabled = true) (hi : s.conns[i]? = some c)
    {s' : Server} (hstep : connStep s i c (.driverExit i) = some s') : Inv config s' := by
  simp only [connStep] at hstep
  split at hstep
  · rename_i ip hstage
    cases hstep
    exact h.release henabled hi (by simp [hstage]) (by simp [Conn.held, hstage, Stage.slot])
  · simp at hstep

theorem Conn.held_new (proxy : Bool) (peer : IpAddr) (tls : Bool) : (Conn.new proxy peer tls).held = none := by
  cases proxy <;> cases tls <;> rfl

theorem connOk_new {proxy : IpAddr → Bool} (peer : IpAddr) (tls : Bool) :
    ConnOk proxy (.new (proxy peer) peer tls) where
  holds _ := ⟨by rw [Conn.held_new]; rfl, rfl⟩
  matched _ := rfl
  exclusive _ := rfl
  fresh _ := ⟨rfl, rfl⟩
  direct h := by cases hp : proxy peer <;> cases tls <;> simp_all [Conn.new, afterAccept]
  pending slot headers h := by cases hp : proxy peer <;> cases tls <;> simp_all [Conn.new, afterAccept]

theorem inv_accept (h : Inv config s) (peer : IpAddr) (tls : Bool) (now : Instant) :
    Inv config (accept s peer tls now) := by
  simp only [accept]
  generalize (if s.fw.isTrustedProxy peer then _ else _ : FirewallDecision) = decision
  cases decision.isAllowed with
  | false => exact h
  | true =>
      have hheld := Conn.held_new (s.fw.isTrustedProxy peer) peer tls
      refine ⟨h.config, fun d hd => ?_, ?_, fun ip => ?_, h.balanced.nonzero⟩
      · rcases List.mem_append.mp hd with hd | hd
        · exact h.conns d hd
        · rw [List.mem_singleton.mp hd]
          exact connOk_new peer tls
      · simpa [List.countP_append, hheld] using h.balanced.total
      · simpa [List.countP_append, hheld] using h.balanced.perIp ip

end Preservation

theorem oneSlot_register {s : Server} {i : Nat} {c : Conn} (hi : s.conns[i]? = some c)
    (h : oneSlot s (.register i) = true) {slot : Slot} {headers : Headers}
    (hstage : c.stage = .registering slot headers) : c.accountGlobalOnly = false := by
  cases c
  subst hstage
  simpa [oneSlot, hi] using h

theorem oneSlot_dispatch {s : Server} {i : Nat} {c : Conn} (hi : s.conns[i]? = some c)
    (h : oneSlot s (.dispatch i) = true) {headers : Headers} (hstage : c.stage = .admitted headers)
    (hupgrade : isUpgradeRequest headers = true) : c.accountIp.isSome = true := by
  cases c
  subst hstage
  simpa [oneSlot, hi, hupgrade] using h

/-- What an event does: it accepts a connection, changes the firewall from outside, or is a step of a connection. -/
inductive Stepped (s : Server) : Event → Server → Prop
  | accepted (peer : IpAddr) (tls : Bool) (now : Instant) : Stepped s (.accept peer tls now) (accept s peer tls now)
  | outside {e : Event} {fw' : Firewall} (h : SameCounters s.fw fw') : Stepped s e { s with fw := fw' }
  | connection {e : Event} {i : Nat} {c : Conn} {s' : Server} (hconn : e.conn = some i) (hi : s.conns[i]? = some c)
      (hstep : connStep s i c e = some s') : Stepped s e s'

theorem step_cases {s s' : Server} {e : Event} (hstep : step s e = some s') : Stepped s e s' := by
  unfold step at hstep
  split at hstep
  · cases hstep
    exact .accepted _ _ _
  · cases hstep
    exact .outside ⟨rfl, rfl, rfl⟩
  · cases hstep
    exact .outside ⟨rfl, rfl, rfl⟩
  · cases hstep
    exact .outside ⟨rfl, rfl, rfl⟩
  · split at hstep
    · split at hstep
      · exact .connection ‹_› ‹_› hstep
      · cases hstep
    · cases hstep

theorem step_inv {config : FirewallConfig} (henabled : config.enabled = true) (s : Server) (e : Event) (s' : Server)
    (h : Inv config s) (hone : oneSlot s e = true) (hstep : step s e = some s') : Inv config s' := by
  cases step_cases hstep with
  | accepted peer tls now => exact inv_accept h peer tls now
  | outside hsame => exact h.same hsame
  | connection hconn hi hstep =>
      cases e with
      | register j =>
          cases hconn
          exact inv_register h henabled hi (fun _ _ => oneSlot_register hi hone) hstep
      | handshake j ok => cases hconn; exact inv_handshake h henabled hi hstep
      | request j headers now => cases hconn; exact inv_request h hi hstep
      | check j now => cases hconn; exact inv_check h hi hstep
      | dispatch j =>
          cases hconn
          exact inv_dispatch h hi (fun _ => oneSlot_dispatch hi hone) hstep
      | leave j => cases hconn; exact inv_leave h hi hstep
      | finish j => cases hconn; exact inv_finish h henabled hi hstep
      | driverExit j => cases hconn; exact inv_driverExit h henabled hi hstep
      | accept _ _ _ => simp [Event.conn] at hconn
      | cleanup _ => simp [Event.conn] at hconn
      | blockIp _ _ _ => simp [Event.conn] at hconn
      | unblockIp _ => simp [Event.conn] at hconn

theorem exec_inv {config : FirewallConfig} (henabled : config.enabled = true) {es : List Event} {s : Server}
    (hone : Along step (oneSlot · ·) (Server.new config) es) (hrun : exec step (Server.new config) es = some s) :
    Inv config s :=
  exec_invariant (step_inv henabled) (inv_new config) hone hrun

/-! ## What the logs say -/

theorem ConnOk.registered_iff {proxy : IpAddr → Bool} {c : Conn} (h : ConnOk proxy c) :
    c.registered = c.held.isSome := by
  unfold Conn.registered Conn.isOpen
  by_cases hended : c.stage = .ended
  · simp [hended, Conn.held, Stage.slot]
  · rw [(h.holds hended).1]
    cases c.held <;> simp [hended]

theorem ConnOk.attributedTo_iff {proxy : IpAddr → Bool} {c : Conn} (h : ConnOk proxy c) (ip : IpAddr) :
    c.attributedTo ip = decide (c.held = some (.attributed ip)) := by
  unfold Conn.attributedTo Conn.isOpen
  by_cases hended : c.stage = .ended
  · simp [hended, Conn.held, Stage.slot]
  · rw [(h.holds hended).1]
    cases c.held <;> simp [hended, eq_comm]

end ThreeVa.HttpServer
