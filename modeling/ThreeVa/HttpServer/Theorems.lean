import ThreeVa.Firewall.Lemmas.Forwarded
import ThreeVa.HttpServer.Lemmas.Accounting
import ThreeVa.HttpServer.Lemmas.BodyPipe
import ThreeVa.HttpServer.Lemmas.Caps
import ThreeVa.HttpServer.Lemmas.Chunked
import ThreeVa.HttpServer.Lemmas.Head
import ThreeVa.HttpServer.Lemmas.Respond
import ThreeVa.HttpServer.Responses
import ThreeVa.HttpServer.Lemmas.Upgrade
import ThreeVa.HttpServer.Limits

/-! What holds of the HTTP server over all its runs and inputs. -/

namespace ThreeVa.HttpServer
open Text ThreeVa.Firewall Runs

/-! ## Connection slots -/

/-- The calls made for each connection are matched and the counters count the open connections. -/
structure SlotsBalanced (s : Server) : Prop where
  matched : ∀ c ∈ s.conns, if c.isOpen then c.released = [] else c.released.Perm c.opened
  total : s.fw.connTotal = s.conns.countP Conn.registered
  perIp : ∀ ip, s.fw.connCount ip = s.conns.countP (Conn.attributedTo ip)
  drained : (∀ c ∈ s.conns, c.isOpen = false) → s.fw.connTotal = 0 ∧ ∀ ip, s.fw.connPerIp ip = none

theorem Inv.slotsBalanced {config : FirewallConfig} {s : Server} (h : Inv config s) : SlotsBalanced s := by
  have htotal : s.fw.connTotal = s.conns.countP Conn.registered := by
    rw [h.balanced.total]
    exact List.countP_congr fun c hc => by rw [(h.conns c hc).registered_iff]
  have hperIp : ∀ ip, s.fw.connCount ip = s.conns.countP (Conn.attributedTo ip) := by
    intro ip
    rw [h.balanced.perIp ip]
    exact List.countP_congr fun c hc => by rw [(h.conns c hc).attributedTo_iff]
  refine ⟨fun c hc => ?_, htotal, hperIp, fun hall => ⟨?_, fun ip => ?_⟩⟩
  · have hok := h.conns c hc
    split
    · rename_i hopen
      exact (hok.holds (by simpa [Conn.isOpen] using hopen)).2
    · rename_i hended
      rw [hok.matched (by simpa [Conn.isOpen] using hended)]
  · rw [htotal, List.countP_eq_zero]
    intro c hc
    simp [Conn.registered, hall c hc]
  · have hzero : s.fw.connCount ip = 0 := by
      rw [hperIp, List.countP_eq_zero]
      intro c hc
      simp [Conn.attributedTo, hall c hc]
    cases hentry : s.fw.connPerIp ip with
    | none => rfl
    | some n =>
        rw [Firewall.connCount, hentry, Option.getD_some] at hzero
        exact absurd (hzero ▸ hentry) (h.balanced.nonzero ip)

/-- In every run in which no connection is registered on top of the global slot and no unattributed one is
upgraded, the slots are balanced in every state reached. -/
theorem slots_balanced_of_oneSlot (config : FirewallConfig) (henabled : config.enabled = true) (es : List Event)
    (s : Server) (hone : Along step (oneSlot · ·) (Server.new config) es)
    (hrun : exec step (Server.new config) es = some s) : SlotsBalanced s :=
  (exec_inv henabled hone hrun).slotsBalanced

def proxied : FirewallConfig := { trustedProxies := ["127.0.0.1".toList] }

def loopback : IpAddr := .v4 0x7f000001#32

def forwarded : Headers := [(xForwardedFor, "203.0.113.9".toList)]

/-- A proxied client sends one request, and a direct TLS peer fails its handshake. -/
def balancedRun : List Event :=
  [.accept loopback false 0, .accept (.v4 0xC0000201#32) true 0, .register 1, .request 0 forwarded 1, .register 0,
    .check 0 1, .dispatch 0, .handshake 1 false, .leave 0, .finish 0]

theorem slots_balanced_two_connections :
    ∃ s, exec step (Server.new proxied) balancedRun = some s ∧ s.conns.length = 2 ∧ SlotsBalanced s := by
  have hrun : (exec step (Server.new proxied) balancedRun).map (·.conns.length) = some 2 := by decide +kernel
  obtain ⟨s, hs, hlen⟩ := Option.map_eq_some_iff.mp hrun
  exact ⟨s, hs, hlen, slots_balanced_of_oneSlot proxied rfl balancedRun s (by decide +kernel) hs⟩

/-- The proxy sends two requests without `X-Forwarded-For` on one connection. -/
def leakingRun : List Event :=
  [.accept loopback false 0, .request 0 [] 1, .register 0, .check 0 1, .dispatch 0, .request 0 [] 2, .register 0,
    .check 0 2, .dispatch 0, .leave 0, .finish 0]

theorem second_request_leaks_slot :
    ∃ s, exec step (Server.new proxied) leakingRun = some s ∧ (∀ c ∈ s.conns, c.isOpen = false) ∧
      s.fw.connTotal = 1 ∧ ¬ SlotsBalanced s := by
  have hrun : (exec step (Server.new proxied) leakingRun).map (fun s => (s.conns.map Conn.isOpen, s.fw.connTotal)) =
      some ([false], 1) := by decide +kernel
  obtain ⟨s, hs, hend⟩ := Option.map_eq_some_iff.mp hrun
  obtain ⟨hopen, htotal⟩ := Prod.mk.inj hend
  have hall : ∀ c ∈ s.conns, c.isOpen = false := by
    intro c hc
    have := List.mem_map_of_mem (f := Conn.isOpen) hc
    simpa [hopen] using this
  refine ⟨s, hs, hall, htotal, fun h => ?_⟩
  have := (h.drained hall).1
  omega

/-! ## Connection caps -/

structure CapsRespected (s : Server) : Prop where
  total : s.fw.connTotal ≤ s.fw.config.maxConnectionsTotal
  perIp : ∀ ip n, s.fw.connPerIp ip = some n → n ≤ s.fw.config.maxConnectionsPerIp

theorem WithinCaps.capsRespected {config : FirewallConfig} {s : Server} (h : WithinCaps config s) :
    CapsRespected s := by
  refine ⟨?_, fun ip n hn => ?_⟩
  · rw [h.sameConfig]
    exact (Nat.le_add_right _ _).trans h.total
  · have hcount : s.fw.connCount ip = n := by simp [Firewall.connCount, hn]
    rw [h.sameConfig, ← hcount]
    exact (Nat.le_add_right _ _).trans (h.perIp ip)

/-- In every run whose checks let a connection in only while there is room beside those already let in, the
caps hold in every state reached. -/
theorem caps_respected_of_room (config : FirewallConfig) (es : List Event) (s : Server)
    (hroom : Along step (admitsWithRoom · ·) (Server.new config) es)
    (hrun : exec step (Server.new config) es = some s) : CapsRespected s :=
  (exec_invariant step_withinCaps (withinCaps_new config) hroom hrun).capsRespected

def oneConnection : FirewallConfig := { maxConnectionsPerIp := 1, maxConnectionsTotal := 1 }

theorem caps_respected_one_after_the_other :
    ∃ s, exec step (Server.new oneConnection)
        [.accept loopback false 0, .register 0, .accept loopback false 1, .leave 0, .finish 0,
          .accept loopback false 2, .register 1] = some s ∧ s.fw.connTotal = 1 ∧ CapsRespected s := by
  have hrun : (exec step (Server.new oneConnection)
      [.accept loopback false 0, .register 0, .accept loopback false 1, .leave 0, .finish 0,
        .accept loopback false 2, .register 1]).map (·.fw.connTotal) = some 1 := by decide
  obtain ⟨s, hs, htotal⟩ := Option.map_eq_some_iff.mp hrun
  exact ⟨s, hs, htotal, caps_respected_of_room oneConnection _ s (by decide) hs⟩

/-- Two listeners accept a connection of the same address: both checks pass before either registers. -/
theorem two_listeners_exceed_caps :
    ¬ ∀ (config : FirewallConfig) (es : List Event) (s : Server), config.enabled = true →
      exec step (Server.new config) es = some s → CapsRespected s := by
  intro hcaps
  have hrun : (exec step (Server.new oneConnection)
      [.accept loopback false 0, .accept loopback false 0, .register 0, .register 1]).map
        (fun s => (s.fw.connTotal, s.fw.connPerIp loopback, s.fw.config.maxConnectionsTotal)) =
      some (2, some 2, 1) := by decide
  obtain ⟨s, hs, hend⟩ := Option.map_eq_some_iff.mp hrun
  obtain ⟨htotal, hrest⟩ := Prod.mk.inj hend
  have := (hcaps oneConnection _ s rfl hs).total
  rw [htotal, (Prod.mk.inj hrest).2] at this
  omega

/-! ## The client behind a proxy -/

def xffValues (headers : Headers) : List Str := (headers.filter fun h => h.1 = xForwardedFor).map (·.2)

theorem headerValue_xff (headers : Headers) : headerValue xForwardedFor headers = (xffValues headers).head? := by
  rw [headerValue, xffValues, List.head?_map, List.head?_filter]

theorem reqIp_eq {fw : Firewall} {peer : IpAddr} (hpeer : fw.isTrustedProxy peer = true) (headers : Headers) :
    reqIp (some fw) peer headers =
      ((xffValues headers).head?.bind fun xff => resolveForwardedFor peer xff fw.trustedRules).getD peer := by
  have hrules : fw.trustedRules ≠ [] := by
    intro hempty
    simp [Firewall.isTrustedProxy, trustedBy, hempty] at hpeer
  rw [reqIp, headerValue_xff]
  cases (xffValues headers).head? with
  | none => rfl
  | some xff => simp [Firewall.clientIpFromXff, hrules]

/-- Behind a trusted peer the last entry that is not a trusted hop decides: as an address it is the client,
whatever stands left of it; malformed, the left-most entry is, as it is when there is no such entry. A request
with one `X-Forwarded-For` line is accounted to the address resolved from it. -/
theorem client_decided_by_last_untrusted_hop :
    (∀ trusted peer xff, trustedBy trusted peer = true →
      ((∀ x ∈ xffEntries xff, TrustedEntry trusted x) ∨
        ∃ left e s, xffEntries xff = left ++ e :: s ∧ (∀ x ∈ s, TrustedEntry trusted x) ∧
          ¬ TrustedEntry trusted e) ∧
      (∀ left e s, xffEntries xff = left ++ e :: s → (∀ x ∈ s, TrustedEntry trusted x) →
        ¬ TrustedEntry trusted e →
          (∀ a, parseIp e = some a → resolveForwardedFor peer xff trusted = some a) ∧
          (parseIp e = none → resolveForwardedFor peer xff trusted = (xffEntries xff).head?.bind parseIp)) ∧
      ((∀ x ∈ xffEntries xff, TrustedEntry trusted x) →
        ∃ a, (xffEntries xff).head?.bind parseIp = some a ∧ resolveForwardedFor peer xff trusted = some a)) ∧
    (∀ (fw : Firewall) peer headers, fw.isTrustedProxy peer = true →
      (∀ xff, xffValues headers = [xff] →
        reqIp (some fw) peer headers = (resolveForwardedFor peer xff fw.trustedRules).getD peer) ∧
      (xffValues headers = [] → reqIp (some fw) peer headers = peer)) := by
  refine ⟨fun trusted peer xff hpeer => ⟨exists_last_untrusted _, fun left e s hentries hs he => ?_, fun hall => ?_⟩,
    fun fw peer headers hpeer => ⟨fun xff hxff => ?_, fun hnone => ?_⟩⟩
  · have hresolve := resolveForwardedFor_hop hpeer hentries hs he
    exact ⟨fun a ha => by rw [hresolve, ha, Option.some_or], fun hnone => by rw [hresolve, hnone, Option.none_or]⟩
  · rw [resolveForwardedFor_all_trusted hpeer hall]
    have hne : xffEntries xff ≠ [] := by simp [xffEntries]
    obtain ⟨e, s, hentries⟩ := List.exists_cons_of_ne_nil hne
    obtain ⟨a, ha, -⟩ := hall e (by simp [hentries])
    exact ⟨a, by simp [hentries, ha], by simp [hentries, ha]⟩
  · rw [reqIp_eq hpeer, hxff]; rfl
  · rw [reqIp_eq hpeer, hnone]; rfl

/-- A spoofed left-most entry is not read. -/
theorem client_decided_by_last_untrusted_hop_spoofed :
    reqIp (some (Firewall.new proxied)) loopback [(xForwardedFor, "9.9.9.9, 203.0.113.9".toList)] =
      .v4 0xCB007109#32 := by
  have hparse : parseIp "203.0.113.9".toList = some (.v4 0xCB007109#32) := by decide
  have huntrusted : ¬ TrustedEntry (Firewall.new proxied).trustedRules "203.0.113.9".toList := by
    rintro ⟨a, ha, htrusted⟩
    rw [hparse, Option.some.injEq] at ha
    subst ha
    revert htrusted
    decide
  have hpeer : (Firewall.new proxied).isTrustedProxy loopback = true := by decide
  have hresolve := ((client_decided_by_last_untrusted_hop.1 _ loopback "9.9.9.9, 203.0.113.9".toList hpeer).2.1
    ["9.9.9.9".toList] "203.0.113.9".toList [] (by decide) (by simp) huntrusted).1 _ hparse
  rw [(client_decided_by_last_untrusted_hop.2 _ loopback _ hpeer).1 _ rfl, hresolve]
  rfl

/-- Past a malformed last entry the address is read from the part the client wrote. -/
theorem malformed_hop_reads_leftmost :
    ∃ trusted peer xff xff', trustedBy trusted peer = true ∧
      xffEntries xff = ["1.1.1.1".toList, "junk".toList] ∧ xffEntries xff' = ["2.2.2.2".toList, "junk".toList] ∧
      ¬ TrustedEntry trusted "junk".toList ∧
      resolveForwardedFor peer xff trusted ≠ resolveForwardedFor peer xff' trusted := by
  refine ⟨(Firewall.new proxied).trustedRules, loopback, "1.1.1.1, junk".toList, "2.2.2.2, junk".toList,
    by decide, by decide, by decide, ?_, by decide⟩
  rintro ⟨a, ha, -⟩
  have hjunk : parseIp "junk".toList = none := by decide
  rw [hjunk] at ha
  cases ha

/-! ## Chunked bodies -/

/-- `pump_chunked` succeeds exactly on the well-formed bodies, pushes their data and stops behind them. -/
def ReadsChunkedBody (env : Env) (limits : BodyLimits) (r : Reader) : Prop :=
  ∀ data rest,
    (∃ pushed r', pumpChunked env limits r 0 = (pushed, .ok r') ∧ pushed.flatten = data ∧ r'.bytes = rest) ↔
      WellFormedBody limits r.bytes data rest

def eager : Env := ⟨id, fun _ => false, fun _ => none⟩

theorem eager_quiet : eager.Quiet := ⟨fun _ => rfl, fun _ => rfl⟩

def defaultLimits : BodyLimits := ⟨hardMaxBody, 100, 16384⟩

def asciiBytes (s : String) : Bytes := s.toList.map fun c => UInt8.ofNat c.toNat

def asciiLine (s : String) (text : Str) (hd : decodeUtf8 (asciiBytes s) = some text) : Line := ⟨asciiBytes s, text, hd⟩

def oneChunk : Reader := ⟨asciiBytes "3\r\nabc\r\n0\r\n\r\nGET", .eof⟩

theorem oneChunk_loose :
    LooseBody defaultLimits oneChunk [['3'], ['0']] (asciiBytes "abc") true (asciiBytes "GET") := by
  have hsize : LineAt oneChunk.bytes (asciiLine "3\r\n" "3\r\n".toList (by decide))
      (asciiBytes "abc\r\n0\r\n\r\nGET") := ⟨by decide, asciiBytes "3\r", by decide, by decide⟩
  have hterm : LineAt (asciiBytes "\r\n0\r\n\r\nGET") (asciiLine "\r\n" "\r\n".toList (by decide))
      (asciiBytes "0\r\n\r\nGET") := ⟨by decide, asciiBytes "\r", by decide, by decide⟩
  have hlast : LineAt (asciiBytes "0\r\n\r\nGET") (asciiLine "0\r\n" "0\r\n".toList (by decide))
      (asciiBytes "\r\nGET") := ⟨by decide, asciiBytes "0\r", by decide, by decide⟩
  have hclose : LineAt (asciiBytes "\r\nGET") (asciiLine "\r\n" "\r\n".toList (by decide))
      (asciiBytes "GET") := ⟨by decide, asciiBytes "\r", by decide, by decide⟩
  have hbody : ChunkedBody chunkSize oneChunk.bytes [['3'], ['0']] (asciiBytes "abc" ++ []) _ true (asciiBytes "GET") :=
    .chunk hsize (by decide) (by decide) (by decide) hterm (by decide)
      (.last hlast (by decide) (.close hclose (by decide)))
  exact ⟨_, hbody, by decide, by decide, .inl rfl⟩

def cutTrailers : Reader := ⟨asciiBytes "0\r\n", .eof⟩

/-- What is accepted, unless the peer closes inside the head: empty lines, a request line, header lines and the
empty line that ends them, within the header budget and framed in one way, whatever the order of the header
lines. -/
theorem accepted_head_complete_and_framed (limits : HeadLimits) (r r' : Reader) (head : ParsedHead)
    (hok : parseRequestHead limits r = .ok (head, r'))
    (hwhole : r.ending ≠ .eof ∨
      ∃ skipped request headers blank rest, HeadAt r.bytes skipped request headers blank rest) :
    ∃ skipped request headers blank, HeadAt r.bytes skipped request headers blank r'.bytes ∧
      (headBytes skipped request headers blank).length ≤ limits.maxHeaderBytes ∧
      (∃ fields, List.Forall₂ HeaderLine headers fields ∧ FramedBy limits.maxBody fields head.framing) ∧
      ∀ headers', headers.Perm headers' → ∃ head',
        parseRequestHead limits ⟨headBytes skipped request headers' blank ++ r'.bytes, r.ending⟩ = .ok (head', r') ∧
          head'.framing = head.framing := by
  obtain ⟨skipped, request, headers, blank, rest, hhead⟩ :
      ∃ skipped request headers blank rest, HeadAt r.bytes skipped request headers blank rest := by
    rcases hwhole with hending | hwhole
    · obtain ⟨skipped, request, headers, blank, hhead⟩ := headAt_of_parseRequestHead hok hending
      exact ⟨skipped, request, headers, blank, _, hhead⟩
    · exact hwhole
  obtain ⟨hsize, rfl, st, hfold, hframing⟩ := parseRequestHead_sound hhead
    (show parseRequestHead limits ⟨r.bytes, r.ending⟩ = _ from hok)
  obtain ⟨-, fields, hlines, hcollected⟩ := (foldlM_addHeader_iff (Nat.zero_le _)).mp ⟨st, hfold, rfl, rfl⟩
  exact ⟨skipped, request, headers, blank, hhead, hsize,
    ⟨fields, hlines, framedBy_of_collected hcollected hframing⟩,
    fun headers' hperm => parseRequestHead_perm hhead hok hperm⟩

def defaultHeadLimits : HeadLimits := ⟨100, 16384, 0⟩

def getLine : Line := asciiLine "GET / HTTP/1.1\r\n" "GET / HTTP/1.1\r\n".toList (by decide +kernel)

def lengthLine : Line := asciiLine "Content-Length: 5\r\n" "Content-Length: 5\r\n".toList (by decide +kernel)

def emptyLine : Line := asciiLine "\r\n" "\r\n".toList (by decide)

theorem accepted_head_with_length :
    ∃ skipped request headers blank head,
      parseRequestHead defaultHeadLimits ⟨asciiBytes "GET / HTTP/1.1\r\nContent-Length: 5\r\n\r\nhello", .eof⟩ =
        .ok (head, ⟨asciiBytes "hello", .eof⟩) ∧
      HeadAt (asciiBytes "GET / HTTP/1.1\r\nContent-Length: 5\r\n\r\nhello") skipped request headers blank
        (asciiBytes "hello") ∧
      head.framing = .length 5 := by
  have hhead : HeadAt (asciiBytes "GET / HTTP/1.1\r\nContent-Length: 5\r\n\r\nhello") [] getLine [lengthLine]
      emptyLine (asciiBytes "hello") := by
    refine ⟨by decide +kernel, by simp, ⟨⟨asciiBytes "GET / HTTP/1.1\r", by decide +kernel, by decide +kernel⟩,
      by decide +kernel⟩, ?_, ⟨asciiBytes "\r", by decide +kernel, by decide +kernel⟩, by decide +kernel⟩
    rw [List.forall_mem_singleton]
    exact ⟨⟨asciiBytes "Content-Length: 5\r", by decide +kernel, by decide +kernel⟩, by decide +kernel⟩
  have hfold : [lengthLine].foldlM (addHeader defaultHeadLimits) .new =
      .ok ⟨[(contentLengthName, ['5'])], some 5, none⟩ := by decide +kernel
  obtain ⟨head, hok, hframing⟩ := parseRequestHead_complete defaultHeadLimits .eof hhead (by decide +kernel) hfold rfl
  obtain ⟨skipped, request, headers, blank, hhead', -, -, -⟩ := accepted_head_complete_and_framed defaultHeadLimits
    ⟨_, .eof⟩ _ head hok (.inr ⟨_, _, _, _, _, hhead⟩)
  exact ⟨skipped, request, headers, blank, head, hok, hhead', hframing⟩

/-- An empty line before the request line is consumed with the head. -/
theorem accepted_head_starts_with_empty_line :
    (∃ head, parseRequestHead defaultHeadLimits ⟨asciiBytes "\r\nGET / HTTP/1.1\r\n\r\n", .eof⟩ =
        .ok (head, ⟨[], .eof⟩)) ∧
      ∀ request headers blank rest,
        ¬ HeadAt (asciiBytes "\r\nGET / HTTP/1.1\r\n\r\n") [] request headers blank rest := by
  constructor
  · have hhead : HeadAt (asciiBytes "\r\nGET / HTTP/1.1\r\n\r\n") [emptyLine] getLine [] emptyLine [] := by
      have hempty : emptyLine.Closed ∧ emptyLine.content = [] :=
        ⟨⟨asciiBytes "\r", by decide, by decide⟩, by decide⟩
      exact ⟨by decide, by simpa using hempty,
        ⟨⟨asciiBytes "GET / HTTP/1.1\r", by decide, by decide⟩, by decide⟩, by simp, hempty⟩
    obtain ⟨head, hok, -⟩ := parseRequestHead_complete defaultHeadLimits .eof hhead (by decide) rfl rfl
    exact ⟨head, hok⟩
  · intro request headers blank rest h
    have hfirst : LineAt (asciiBytes "\r\nGET / HTTP/1.1\r\n\r\n") emptyLine (asciiBytes "GET / HTTP/1.1\r\n\r\n") :=
      ⟨by decide, asciiBytes "\r", by decide, by decide⟩
    have hrequest : LineAt (asciiBytes "\r\nGET / HTTP/1.1\r\n\r\n") request _ := ⟨h.stream, h.request_nonempty.1⟩
    obtain ⟨rfl, -⟩ := hfirst.unique hrequest
    exact h.request_nonempty.2 (by decide)

/-! ## Body pipes -/

/-- In every run of connections and polls, a poll that finds its pipe registered and returns the end of the body,
with no error returned from that pipe before, returns it after exactly the full decoded body. -/
theorem registered_eof_complete (es : List BodyEvent) (s : Bodies) (hrun : exec bodyStep .new es = some s)
    (pre post : List Poll) (p : Poll) (hlog : s.log = pre ++ p :: post) (ref : Nat) (hfound : p.found = some ref)
    (heof : p.result = .eof) (hnoerr : ∀ q ∈ pre, q.found = some ref → ∀ msg, q.result ≠ .error msg) :
    ∃ t, s.transfers[ref]? = some t ∧ DecodedBody t.source (given (fun q => q.found = some ref) pre) := by
  have hinv := exec_preserves bodyStep_inv bodiesInv_new hrun
  have hlt := hinv.log p (by simp [hlog]) ref hfound
  have hget := List.getElem?_eq_getElem hlt
  exact ⟨_, hget, (hinv.transfers ref _ hget).complete pre p post hlog (by simpa [ofRef] using hfound) heof
    fun q hq hof => hnoerr q hq (by simpa [ofRef] using hof)⟩

def hello : Source := ⟨eager, .length 5, defaultLimits, ⟨asciiBytes "hello", .eof⟩⟩

def wholeUpload : List BodyEvent :=
  [.connect, .start 0 hello, .push 0, .complete 0, .lookup 1 65536, .read, .lookup 1 65536, .read, .remove]

theorem registered_eof_complete_whole_upload :
    ∃ s t, exec bodyStep .new wholeUpload = some s ∧ s.transfers[0]? = some t ∧
      DecodedBody t.source (asciiBytes "hello") := by
  have hrun : (exec bodyStep .new wholeUpload).map (·.log) =
      some ([⟨1, some 0, .data (asciiBytes "hello")⟩] ++ ⟨1, some 0, .eof⟩ :: []) := by decide +kernel
  obtain ⟨s, hs, hlog⟩ := Option.map_eq_some_iff.mp hrun
  obtain ⟨t, ht, hbody⟩ := registered_eof_complete wholeUpload s hs _ _ _ hlog 0 rfl rfl (by simp)
  exact ⟨s, t, hs, ht, hbody⟩

/-- The response comes first: the body is abandoned, the connection ends, and the id is polled after that. -/
def abandonedUpload : List BodyEvent := [.connect, .start 0 hello, .abandon 0, .exit 0, .lookup 1 65536]

/-- The poll reports a clean end of body, and nothing of the body was given. -/
theorem abandoned_upload_reads_as_complete :
    ∃ s t, exec bodyStep .new abandonedUpload = some s ∧ s.log = [] ++ ⟨1, none, .eof⟩ :: [] ∧
      s.transfers = [t] ∧ t.id = 1 ∧ DecodedBody t.source (asciiBytes "hello") ∧
      ¬ DecodedBody t.source (given (fun q => q.id = 1) []) := by
  refine ⟨_, .new 1 hello, rfl, rfl, rfl, rfl, ⟨rfl, ⟨[], rfl⟩⟩, ?_⟩
  rintro ⟨hlen, -⟩
  cases hlen

/-! ## Upgraded sockets -/

/-- A run in which JS does not close the socket and the write limit is not hit loses nothing in any state it reaches,
exactly if no step of it runs into the driver's way out. -/
theorem upgrade_loses_nothing_iff_clearOfExit (es : List UpgradeEvent) (s : Upgrade)
    (hrun : exec upgradeStep .new es = some s) (hopen : Along upgradeStep (staysOpen · ·) .new es) :
    Along upgradeStep (clearOfExit · ·) .new es ↔
      ∀ pre, pre <+: es → ∀ s', exec upgradeStep .new pre = some s' → LosesNothing s' :=
  along_iff_reached (fun _ => UpgradeInv.losesNothing) (fun _ _ _ => upgradeStep_inv)
    (fun _ _ _ h _ hclear hstep => upgradeStep_breaks h (by simpa using hclear) hstep) upgradeInv_new hopen hrun

/-- The driver passes once through its loop, to the `select!`. -/
def loopOnce : List UpgradeEvent := [.advance, .advance, .advance, .advance]

/-- The peer sends two bytes; JS reads them one by one and writes them back, the peer ends the stream, and JS reads
its end before and after the driver is gone. -/
def echoed : List UpgradeEvent :=
  [loopOnce, [.read [104, 105], .advance], loopOnce, [.upgradeRead (some 1), .proceed, .proceed],
    [.upgradeRead none, .proceed, .proceed, .upgradeWrite [104, 105], .proceed, .proceed, .proceed, .woken],
    [.advance, .advance, .sent 1, .sent 1, .wrote, .advance, .advance, .advance, .readEnd],
    [.upgradeRead none, .proceed, .advance, .upgradeRead none]].flatten

theorem upgrade_loses_nothing_echoed :
    ∃ s, exec upgradeStep .new echoed = some s ∧ LosesNothing s ∧ s.written = [104, 105] ∧
      s.reads = [.bytes [104], .bytes [105], .err "EOF" "connection closed", .err "EOF" "upgrade socket closed"] := by
  have hrun : (exec upgradeStep .new echoed).map (fun s => (s.written, s.reads)) = some ([104, 105],
      [.bytes [104], .bytes [105], .err "EOF" "connection closed", .err "EOF" "upgrade socket closed"]) := by
    decide
  obtain ⟨s, hs, heq⟩ := Option.map_eq_some_iff.mp hrun
  obtain ⟨hwritten, hreads⟩ := Prod.mk.inj heq
  exact ⟨s, hs, (upgrade_loses_nothing_iff_clearOfExit echoed s hs (by decide)).mp (by decide) echoed
    List.prefix_rfl s hs, hwritten, hreads⟩

/-- The peer sends two bytes and ends the stream before JS reads; the driver is gone by then. -/
def sentAndGone : List UpgradeEvent :=
  [loopOnce, [.read [104, 105], .advance], loopOnce, [.readEnd, .advance, .upgradeRead none]].flatten

/-- The read reports the end of the stream; the two bytes stay in the queue. -/
theorem unread_data_lost_at_exit :
    ∃ s, exec upgradeStep .new sentAndGone = some s ∧ Along upgradeStep (staysOpen · ·) .new sentAndGone ∧
      s.received = [104, 105] ∧ s.reads = [.err "EOF" "upgrade socket closed"] ∧
      s.conn.readQ = [.data [104, 105], .eof] ∧ ¬ LosesNothing s := by
  have hrun : (exec upgradeStep .new sentAndGone).map (fun s => (s.received, s.reads, s.conn.readQ)) =
      some ([104, 105], [.err "EOF" "upgrade socket closed"], [.data [104, 105], .eof]) := by decide
  obtain ⟨s, hs, heq⟩ := Option.map_eq_some_iff.mp hrun
  simp only [Prod.mk.injEq] at heq
  obtain ⟨hreceived, hreads, hq⟩ := heq
  refine ⟨s, hs, by decide, hreceived, hreads, hq, fun h => ?_⟩
  have hall := (h.eof [] _ [] hreads rfl).1
  simp [hreceived, returned] at hall

/-! ## Responses -/

/-- Whenever the messages of a reply arrive, they are written one after the other; the connection is closed as they
ask exactly if no request to close is lost before the last batch. -/
theorem timing_free_iff_closeInTime {req : Requested} (r : Reply req.connId) (t : Timing req r.messages) :
    TimingFree t ↔ CloseInTime t := by
  have heq := exchange_eq r t
  constructor
  · intro h
    have hclosed := h.closed
    rw [heq] at hclosed
    by_contra hnot
    simp only [CloseInTime, not_or, Bool.not_eq_true] at hnot
    obtain ⟨hreq, habandoned, hlost⟩ := hnot
    simp only [hreq, habandoned, Bool.false_or] at hclosed
    exact hlost fun hany => hclosed.trans hany
  · intro h
    refine ⟨by rw [heq], ?_⟩
    rw [heq]
    obtain hreq | habandoned | hkept := h
    · simp [hreq]
    · simp [habandoned]
    · have hsame : anyCloses t.kept = anyCloses r.messages :=
        Bool.eq_iff_iff.mpr ⟨anyCloses_mono t.kept_subset, hkept⟩
      rw [hsame]

def bodyless : Requested := ⟨1, false, false, none, false⟩

/-- A head that asks to close, and the end of the body, which does not. -/
def closingReply : Reply bodyless.connId :=
  { infos := [⟨1, [72], true, true⟩], final := ⟨1, [48], false, false⟩, infos_informational := by decide, final_last := rfl,
    infos_own := by decide, final_own := rfl }

/-- The end is queued when the head is taken, or comes one moment later. -/
def closingReplyAt (queued : Bool) : Timing bodyless closingReply.messages :=
  ⟨[], [⟨⟨1, [72], true, true⟩, false⟩, ⟨⟨1, [48], false, false⟩, queued⟩], rfl, fun _ => rfl, rfl, fun _ => rfl⟩

theorem close_depends_on_timing :
    TimingFree (closingReplyAt true) ∧ ¬ TimingFree (closingReplyAt false) ∧
      (exchange bodyless (closingReplyAt false).during (closingReplyAt false).after).closed = false := by
  have heq : ∀ queued, (exchange bodyless (closingReplyAt queued).during (closingReplyAt queued).after).closed =
      queued := by
    intro queued
    rw [exchange_eq closingReply]
    cases queued <;> rfl
  refine ⟨⟨by rw [exchange_eq closingReply], by rw [heq]; rfl⟩, fun h => ?_, heq false⟩
  have hclosed := h.closed
  rw [heq] at hclosed
  cases hclosed

/-! ## Framing of responses -/

section Respond

open Respond

/-- What a responder sends for an accepted answer is one message, the one meant, exactly if the answer fits: the status
has three digits and allows the body, no value is padded with blanks, `__httpRespond` is given no transfer coding and
`__httpRespondBytes` a valid `Keep-Alive`. -/
theorem oneMessage_iff_fits (serde : SerdeJson) (date : HttpDate) (c : Respond.Call) :
    c.OneMessage serde date ↔ (Accepted serde c.options c.answer → Respond.Fits serde c.options c.answer) := by
  have hframing : c.options.framing = 0 := by cases c <;> rfl
  have hskip : contentLengthName ∈ c.options.skipped := by cases c <;> exact List.mem_cons_self
  rw [oneMessage_iff_wellFormed]
  exact forall_congr' fun haccepted => wellFormed_iff_fits haccepted hframing hskip

/-- Reads one object. -/
def codingSerde : SerdeJson where
  fromStr := fun s =>
    if s = "\x7b\"Transfer-Encoding\":\"chunked\"\x7d".toList then
      some (.obj [(transferEncodingField, .str "chunked".toList)])
    else if s = "\x7b\x7d".toList then some (.obj [])
    else none
  toText := Json.render

def someDate : HttpDate where
  text := "Sun, 06 Nov 1994 08:49:37 GMT".toList
  printable := by simp
  tight := by decide

/-- A transfer coding beside the length, a body after a 204, and a `Keep-Alive` that ends the head. -/
theorem framings_broken :
    ((Respond.Call.respond 200 "OK".toList "\x7b\"Transfer-Encoding\":\"chunked\"\x7d".toList "hi".toList false).run
        codingSerde someDate).toOption.map Http.parse = some none ∧
      (((Respond.Call.respondBytes ⟨204, [], "\x7b\x7d".toList, false, [0x78]⟩ false true []).run codingSerde
        someDate).toOption.bind Http.parse).map Prod.snd = some [0x78] ∧
      (((Respond.Call.respondBytes ⟨304, [], "\x7b\x7d".toList, false, []⟩ false true ['1', '\r', '\n', 'a', ':', 'b']).run
        codingSerde someDate).toOption.bind Http.parse).map (fun r => r.1.fields.length) = some 4 ∧
      ¬ ∀ (serde : SerdeJson) (date : HttpDate) (c : Respond.Call), c.OneMessage serde date := by
  have hrefused : ((Respond.Call.respond 200 "OK".toList "\x7b\"Transfer-Encoding\":\"chunked\"\x7d".toList "hi".toList
      false).run codingSerde someDate).toOption.map Http.parse = some none := by decide
  refine ⟨hrefused, by decide, by decide, fun hall => ?_⟩
  obtain ⟨bytes, hsome, hparse⟩ := Option.map_eq_some_iff.mp hrefused
  cases hrun : (Respond.Call.respond 200 "OK".toList "\x7b\"Transfer-Encoding\":\"chunked\"\x7d".toList "hi".toList
      false).run codingSerde someDate with
  | error e =>
      rw [hrun] at hsome
      cases hsome
  | ok sent =>
      rw [hrun] at hsome
      cases hsome
      rw [hall codingSerde someDate _ _ hrun] at hparse
      cases hparse

end Respond

/-! ## Time limits -/

/-- The body of a request runs under the minimum of the limits that are on exactly if no request timeout is set, or
it is not over when the body begins and the firewall has a limit of its own. -/
theorem limits_compose_iff_apart (bodyTimeout : Nat) (app : ServerTimeouts) (started spent : Nat) :
    LimitsCompose bodyTimeout app started spent ↔ LimitsApart bodyTimeout app spent := by
  refine ⟨fun h => ?_, limitsCompose_apart started⟩
  by_contra hnot
  obtain ⟨hset, hoff⟩ := bodyLimit_not_apart started hnot
  exact h.bounded hset hoff

/-- The firewall is off and the application allows five seconds: the body may take for ever. -/
theorem request_timeout_lost : ¬ LimitsCompose 0 ⟨0, 5000, 0⟩ 0 20 ∧ bodyLimit 0 ⟨0, 5000, 0⟩ 0 20 = ⊤ := by
  have hoff : bodyLimit 0 ⟨0, 5000, 0⟩ 0 20 = ⊤ := rfl
  exact ⟨fun h => h.bounded (by decide) hoff, hoff⟩

end ThreeVa.HttpServer
