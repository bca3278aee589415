import ThreeVa.Firewall.Addr
import ThreeVa.Permissions.Capability
import ThreeVa.Lib.Lines
import ThreeVa.Permissions.Host

/-!
# Addresses a name resolves to

`vetted_addrs` and `addr_denied` of `permissions/src/capability.rs`, with the text the standard library writes for an
address.
-/

namespace ThreeVa.Permissions
open Text Firewall

/-! ## The text of an address -/

def hexText (n : Nat) : Str := Nat.toDigits 16 n

def ipv4Text (a : BitVec 32) : Str :=
  ['.'].intercalate
    [decimal (a.toNat / 16777216), decimal (a.toNat / 65536 % 256), decimal (a.toNat / 256 % 256),
      decimal (a.toNat % 256)]

/-- `::ffff:a.b.c.d`. -/
def toIpv6Mapped (a : BitVec 32) : BitVec 128 := BitVec.ofNat 128 (65535 * 4294967296 + a.toNat)

def toIpv4Mapped (a : BitVec 128) : Option (BitVec 32) :=
  if a.toNat / 4294967296 = 65535 then some (BitVec.ofNat 32 a.toNat) else none

def segments (a : BitVec 128) : List Nat := (List.range 8).map fun i => (a >>> (112 - 16 * i)).toNat % 65536

structure Span where
  start : Nat
  len : Nat

/-- The longest run of zeros, the first one of that length. -/
def longestZeros (segs : List Nat) : Span :=
  (segs.zipIdx.foldl (fun (longest, current) (seg, i) =>
    if seg = 0 then
      let current : Span := ⟨if current.len = 0 then i else current.start, current.len + 1⟩
      (if current.len > longest.len then current else longest, current)
    else (longest, ⟨0, 0⟩)) ((⟨0, 0⟩, ⟨0, 0⟩) : Span × Span)).1

def fmtSubslice (chunk : List Nat) : Str := [':'].intercalate (chunk.map hexText)

def ipv6Text (a : BitVec 128) : Str :=
  match toIpv4Mapped a with
  | some v4 => "::ffff:".toList ++ ipv4Text v4
  | none =>
      let zeroes := longestZeros (segments a)
      if zeroes.len > 1 then
        fmtSubslice ((segments a).take zeroes.start) ++ [':', ':'] ++
          fmtSubslice ((segments a).drop (zeroes.start + zeroes.len))
      else fmtSubslice (segments a)

def ipText : IpAddr → Str
  | .v4 a => ipv4Text a
  | .v6 a => ipv6Text a

/-! ## Vetting -/

structure SocketAddr where
  ip : IpAddr
  port : Nat
deriving DecidableEq

def addrDenied (env : PathEnv) (sc : ScopeState) (st : PermissionState) (addr : SocketAddr) : Bool :=
  let ip := ipText addr.ip
  let caps := [Capability.network ip, .network (authority ip addr.port)]
  let hit := fun set => caps.any (matchesAny env set)
  if hit st.denied then true
  else st.scopedDenied ≠ ∅ && sc.denyScopes.any fun s => (st.scopedDenied.lookup s).any hit

def trimBrackets (host : Str) : Str := (host.dropWhile (· = '[')).rdropWhile (· = ']')

/-- `resolve` is the resolver of the system; it gives every address the port. -/
def vettedAddrs (env : PathEnv) (sc : ScopeState) (st : PermissionState) (resolve : Str → Except Str (List IpAddr))
    (host : Str) (port : Nat) : Except Str (List SocketAddr) := do
  let ips ← resolve (trimBrackets host)
  let all := ips.map fun ip => SocketAddr.mk ip port
  let allowed := all.filter fun addr => !addrDenied env sc st addr
  if allowed = [] ∧ all ≠ [] then
    throw ("every address ".toList ++ host ++ " resolves to is denied by a deny-net rule".toList)
  return allowed

/-! ## What a deny rule says -/

/-- The address and the port a rule names, if its host part is an address in any spelling. -/
def ruleAddr (d : Str) : Option (IpAddr × Option Nat) :=
  (parseIp (patternText d).host).bind fun ip =>
    match (patternText d).port with
    | .absent => some (ip, none)
    | .written text => (parseUnsigned 10 u16Max text).map fun port => (ip, some port)
    | .garbled => none

/-- The address is the one named, or the IPv4-mapped form of it. -/
def Designates (addr : IpAddr) : IpAddr → Prop
  | .v4 a => addr = .v4 a ∨ addr = .v6 (toIpv6Mapped a)
  | .v6 a => addr = .v6 a

/-- Under every rule set that denies `d`, which names this address and maybe a port, no vetted address is the one
named. -/
def FiltersRule (d : Str) (ip : IpAddr) (named : Option Nat) : Prop :=
  ∀ (env : PathEnv) (sc : ScopeState) (st : PermissionState), Capability.network d ∈ st.denied →
    ∀ (resolve : Str → Except Str (List IpAddr)) (host : Str) (port : Nat), port ≤ u16Max →
      ∀ addrs, vettedAddrs env sc st resolve host port = .ok addrs →
        ∀ addr ∈ addrs, ¬ (Designates addr.ip ip ∧ ∀ p ∈ named, addr.port = p)

/-- The host part is an IPv6 address as the standard library writes it. -/
def CanonicalIpv6 (d : Str) (ip : IpAddr) : Prop := ∃ a, ip = .v6 a ∧ (patternText d).host = ipv6Text a

/-!
## Which spelling of an address a deny rule needs
-/

/-! ## The text of an address -/

/-- The characters of an address. -/
def IsAddrChar (c : Char) : Prop := c.isAlphanum = true ∨ c = '.' ∨ c = ':'

theorem bracket_not_mem {s : Str} (h : ∀ c ∈ s, IsAddrChar c) : '[' ∉ s ∧ ']' ∉ s :=
  ⟨fun hm => absurd (h _ hm) (by simp [IsAddrChar]), fun hm => absurd (h _ hm) (by simp [IsAddrChar])⟩

theorem isAddrChar_decimal {n : Nat} {c : Char} (h : c ∈ decimal n) : IsAddrChar c := by
  have := decimal_isDigit h
  simp [IsAddrChar, Char.isAlphanum, this]

theorem digitChar_isAlphanum : ∀ n < 16, (Nat.digitChar n).isAlphanum = true := by decide

theorem isAddrChar_hexText {n : Nat} {c : Char} (h : c ∈ hexText n) : IsAddrChar c := by
  induction n using Nat.strongRecOn with
  | _ n ih =>
      rw [hexText, Nat.toDigits_eq_if (by decide)] at h
      split at h
      · rename_i hlt
        rw [List.mem_singleton.mp h]
        exact .inl (digitChar_isAlphanum n hlt)
      · rcases List.mem_append.mp h with h | h
        · exact ih (n / 16) (by omega) h
        · rw [List.mem_singleton.mp h]
          exact .inl (digitChar_isAlphanum _ (Nat.mod_lt n (by decide)))

theorem mem_ipv4Text {a : BitVec 32} {c : Char} (h : c ∈ ipv4Text a) : c = '.' ∨ ∃ n, c ∈ decimal n := by
  rcases mem_intercalate h with hc | ⟨l, hl, hc⟩
  · exact .inl hc
  · simp only [List.mem_cons, List.not_mem_nil, or_false] at hl
    rcases hl with rfl | rfl | rfl | rfl <;> exact .inr ⟨_, hc⟩

theorem isDnsName_ipv4Text (a : BitVec 32) : IsDnsName (ipv4Text a) := by
  have hchars : ∀ c ∈ ipv4Text a, c = '.' ∨ ∃ n, c ∈ decimal n := fun c hc => mem_ipv4Text hc
  have hno : ∀ c : Char, c ≠ '.' → c.isDigit = false → c ∉ ipv4Text a := by
    intro c hdot hdigit hm
    rcases hchars c hm with h | ⟨n, h⟩
    · exact hdot h
    · simp [decimal_isDigit h] at hdigit
  refine ⟨?_, hno _ (by decide) (by decide), hno _ (by decide) (by decide), hno _ (by decide) (by decide)⟩
  simp [ipv4Text, List.intercalate]

theorem isAddrChar_fmtSubslice {chunk : List Nat} {c : Char} (h : c ∈ fmtSubslice chunk) : IsAddrChar c := by
  rcases mem_intercalate h with rfl | ⟨l, hl, hc⟩
  · exact .inr (.inr rfl)
  · obtain ⟨n, -, rfl⟩ := List.mem_map.mp hl
    exact isAddrChar_hexText hc

theorem count_colon_fmtSubslice (chunk : List Nat) : chunk.length ≤ (fmtSubslice chunk).count ':' + 1 := by
  induction chunk with
  | nil => simp
  | cons n chunk ih =>
      cases chunk with
      | nil => simp
      | cons m chunk =>
          have htail : fmtSubslice (n :: m :: chunk) = hexText n ++ ':' :: fmtSubslice (m :: chunk) := by
            simp [fmtSubslice, List.intercalate]
          rw [htail, List.count_append, List.count_cons_self]
          simp only [List.length_cons] at ih ⊢
          omega

theorem isAddrChar_ipv6Text {a : BitVec 128} {c : Char} (h : c ∈ ipv6Text a) : IsAddrChar c := by
  unfold ipv6Text at h
  cases hm : toIpv4Mapped a with
  | some v4 =>
      simp only [hm, List.mem_append] at h
      rcases h with h | h
      · have : ∀ c ∈ "::ffff:".toList, c.isAlphanum = true ∨ c = '.' ∨ c = ':' := by simp
        exact this c h
      · rcases mem_ipv4Text h with rfl | ⟨n, hn⟩
        · exact .inr (.inl rfl)
        · exact isAddrChar_decimal hn
  | none =>
      simp only [hm] at h
      split at h
      · simp only [List.mem_append, List.mem_cons, List.not_mem_nil, or_false, or_self] at h
        rcases h with (h | rfl) | h
        · exact isAddrChar_fmtSubslice h
        · exact .inr (.inr rfl)
        · exact isAddrChar_fmtSubslice h
      · exact isAddrChar_fmtSubslice h

theorem isIpv6Literal_ipv6Text (a : BitVec 128) : IsIpv6Literal (ipv6Text a) := by
  refine ⟨?_, bracket_not_mem fun c hc => isAddrChar_ipv6Text hc⟩
  unfold ipv6Text
  cases toIpv4Mapped a with
  | some v4 =>
      have : "::ffff:".toList.count ':' = 3 := by decide
      simp only [List.count_append, this]
      omega
  | none =>
      simp only
      split
      · simp only [List.count_append]
        have : [':', ':'].count ':' = 2 := by decide
        omega
      · have := count_colon_fmtSubslice (segments a)
        simp only [segments, List.length_map, List.length_range] at this ⊢
        omega

theorem isHost_ipText (ip : IpAddr) : IsHost (ipText ip) (ipText ip) := by
  cases ip with
  | v4 a => exact .dns (isDnsName_ipv4Text a)
  | v6 a => exact .bare (isIpv6Literal_ipv6Text a)

theorem toIpv4Mapped_toIpv6Mapped (a : BitVec 32) : toIpv4Mapped (toIpv6Mapped a) = some a := by
  have hlt := a.isLt
  have hval : (toIpv6Mapped a).toNat = 65535 * 4294967296 + a.toNat := by
    rw [toIpv6Mapped, BitVec.toNat_ofNat, Nat.mod_eq_of_lt (by omega)]
  rw [toIpv4Mapped, hval, if_pos (by omega)]
  congr 1
  apply BitVec.eq_of_toNat_eq
  rw [BitVec.toNat_ofNat]
  omega

theorem ipv6Text_toIpv6Mapped (a : BitVec 32) : ipv6Text (toIpv6Mapped a) = "::ffff:".toList ++ ipv4Text a := by
  rw [ipv6Text, toIpv4Mapped_toIpv6Mapped]

/-! ## What the parser refuses -/

theorem readNumber_of_head {radix maxDigits max : Nat} {zeros : Bool} {c : Char} {s : Str}
    (h : toDigit radix c = none) : readNumber radix maxDigits max zeros (c :: s) = none := by
  simp [readNumber, h]

theorem readIpv4Addr_of_head {c : Char} {s : Str} (h : toDigit 10 c = none) : readIpv4Addr (c :: s) = none := by
  simp [readIpv4Addr, readSeparated, readNumber_of_head h]

theorem parseIp_nil : parseIp [] = none := by decide

theorem parseIp_star (s : Str) : parseIp ('*' :: s) = none := by
  have h10 : toDigit 10 '*' = none := by decide
  have h16 : toDigit 16 '*' = none := by decide
  simp [parseIp, readIpv4Addr_of_head h10, readIpv6Addr, readGroups, readSeparated, readNumber_of_head h16, stripPrefix]

/-- What starts with a colon is no IPv4 address. -/
theorem parseIp_colon_ne_v4 (s : Str) (a : BitVec 32) : parseIp (':' :: s) ≠ some (.v4 a) := by
  have h10 : toDigit 10 ':' = none := by decide
  intro h
  simp only [parseIp, readIpv4Addr_of_head h10] at h
  obtain ⟨p, hp, h⟩ := Option.bind_eq_some_iff.mp h
  obtain ⟨q, -, rfl⟩ := Option.map_eq_some_iff.mp hp
  split at h <;> cases h

/-! ## Rules that name an address -/

section Rule

variable {d : Str} {ip : IpAddr} {named : Option Nat} (hd : ruleAddr d = some (ip, named))

include hd

theorem parseIp_of_ruleAddr : parseIp (patternText d).host = some ip := by
  obtain ⟨ip', hip, hport⟩ := Option.bind_eq_some_iff.mp hd
  cases hp : (patternText d).port with
  | absent =>
      simp only [hp, Option.some.injEq, Prod.mk.injEq] at hport
      rw [hip, hport.1]
  | written text =>
      simp only [hp] at hport
      obtain ⟨port, -, heq⟩ := Option.map_eq_some_iff.mp hport
      rw [hip, (Prod.mk.inj heq).1]
  | garbled => simp [hp] at hport

theorem covers_of_ruleAddr (port : Nat) : (patternText d).port.Covers port ↔ ∀ p ∈ named, port = p := by
  obtain ⟨ip', -, hport⟩ := Option.bind_eq_some_iff.mp hd
  cases hp : (patternText d).port with
  | absent =>
      simp only [hp, Option.some.injEq, Prod.mk.injEq] at hport
      simp [← hport.2, PortText.Covers]
  | written text =>
      simp only [hp] at hport
      obtain ⟨q, hq, heq⟩ := Option.map_eq_some_iff.mp hport
      simp [← (Prod.mk.inj heq).2, PortText.Covers, hq, eq_comm]
  | garbled => simp [hp] at hport

theorem host_ne_star (s : Str) : (patternText d).host ≠ '*' :: s := by
  intro h
  have := parseIp_of_ruleAddr hd
  rw [h, parseIp_star] at this
  cases this

theorem rule_ne_star : d ≠ ['*'] := by
  rintro rfl
  exact host_ne_star hd [] (by decide)

theorem hostCovers_iff_eq (host : Str) : HostCovers (patternText d).host host ↔ (patternText d).host = host := by
  refine ⟨?_, .inl⟩
  rintro (h | ⟨front, suffix, h, -⟩)
  · exact h
  · exact absurd h (host_ne_star hd _)

theorem portTextIgnored_eq_false : portTextIgnored d = false := by
  obtain ⟨ip', -, hport⟩ := Option.bind_eq_some_iff.mp hd
  unfold patternText at hport
  unfold portTextIgnored
  cases hb : (stripPrefix ['['] d).bind (splitOnce ']') with
  | some p =>
      obtain ⟨host, after⟩ := p
      cases after with
      | nil => rfl
      | cons c after =>
          by_cases hc : c = ':'
          · simp [hc]
          · simp [hb, hc] at hport
  | none =>
      by_cases hcount : d.count ':' > 1
      · simp only [Bool.and_eq_false_iff, decide_eq_false_iff_not]
        exact .inl (by omega)
      · cases hr : rsplitOnce ':' d with
        | none => simp
        | some p =>
            cases hport2 : p.2 with
            | nil => simp [hb, hcount, hr, hport2, parseUnsigned] at hport
            | cons c cs => simp [hport2]

theorem splitHostPort_of_ruleAddr : (splitHostPort d).1 = (patternText d).host := by
  have hip := parseIp_of_ruleAddr hd
  unfold patternText at hip ⊢
  unfold splitHostPort
  cases hb : (stripPrefix ['['] d).bind (splitOnce ']') with
  | some p =>
      obtain ⟨host, after⟩ := p
      cases after with
      | nil => simp
      | cons c after => by_cases hc : c = ':' <;> simp [hc]
  | none =>
      by_cases hcount : d.count ':' > 1
      · simp [splitPlainHostPort, hcount]
      · cases hr : rsplitOnce ':' d with
        | none => simp [splitPlainHostPort, hcount, hr]
        | some p =>
            have hne : p.1 ≠ [] := by
              intro hnil
              simp only [hb, hcount, hr, hnil, ↓reduceIte, parseIp_nil] at hip
              cases hip
            simp [splitPlainHostPort, hcount, hr, hne]

theorem hostMatches_authority_iff {port : Nat} (hp : port ≤ u16Max) (addr : IpAddr) :
    hostMatches d (authority (ipText addr) port) = true ↔
      (patternText d).host = ipText addr ∧ ∀ p ∈ named, port = p := by
  have hexact := (patternExact_iff (g := d) (isHost_ipText addr) hp).mpr (by simp [portTextIgnored_eq_false hd])
  rw [PatternExact] at hexact
  rw [hexact, PatternCovers, hostCovers_iff_eq hd, covers_of_ruleAddr hd]
  simp [rule_ne_star hd]

theorem host_eq_of_hostMatches {addr : IpAddr} (h : hostMatches d (ipText addr) = true) :
    (patternText d).host = ipText addr := by
  have hsplit : splitHostPort (ipText addr) = (ipText addr, none) := by
    have hopen : stripPrefix ['['] (ipText addr) = none := by
      cases hs : stripPrefix ['['] (ipText addr) with
      | none => rfl
      | some rest =>
          have := (isHost_ipText addr).no_bracket
          rw [stripPrefix_eq_some.mp hs] at this
          simp at this
    rw [splitHostPort, hopen, Option.bind_none]
    cases addr with
    | v4 a =>
        have hc := (isDnsName_ipv4Text a).2.1
        have hr : rsplitOnce ':' (ipv4Text a) = none := by
          rw [rsplitOnce, Option.map_eq_none_iff, splitOnce_eq_none]
          simpa using hc
        simp [splitPlainHostPort, ipText, hr]
    | v6 a => simp [splitPlainHostPort, ipText, (isIpv6Literal_ipv6Text a).1]
  simp only [hostMatches, rule_ne_star hd, ↓reduceIte, hsplit] at h
  split at h
  · cases h
  · split at h
    · cases h
    · rw [splitHostPort_of_ruleAddr hd, hostPartMatches_iff, hostCovers_iff_eq hd] at h
      exact h

end Rule

/-! ## Vetting -/

variable {env : PathEnv} {sc : ScopeState} {st : PermissionState} {resolve : Str → Except Str (List IpAddr)}
  {host : Str} {port : Nat}

theorem addrDenied_of_denied {d : Str} {addr : SocketAddr} (hd : .network d ∈ st.denied)
    (h : hostMatches d (authority (ipText addr.ip) addr.port) = true) : addrDenied env sc st addr = true := by
  have hhit : matchesAny env st.denied (.network (authority (ipText addr.ip) addr.port)) = true :=
    decide_eq_true ⟨_, hd, h⟩
  simp [addrDenied, hhit]

/-- An address is returned exactly if the resolver gave it and no rule names it. -/
theorem mem_vettedAddrs {addrs : List SocketAddr} (h : vettedAddrs env sc st resolve host port = .ok addrs)
    (addr : SocketAddr) : addr ∈ addrs ↔
      (∃ ips, resolve (trimBrackets host) = .ok ips ∧ ∃ ip ∈ ips, ⟨ip, port⟩ = addr) ∧
        addrDenied env sc st addr = false := by
  unfold vettedAddrs at h
  cases hr : resolve (trimBrackets host) with
  | error e => simp [hr, bind, Except.bind] at h
  | ok ips =>
      simp only [hr, bind, Except.bind] at h
      split at h
      · cases h
      · obtain rfl := Except.ok.inj h
        simp only [List.mem_filter, List.mem_map, Bool.not_eq_true', Except.ok.injEq, exists_eq_left']

/-- The rule as the only one. -/
def onlyRule (d : Str) : PermissionState := PermissionState.new.deny (.network d)

theorem addrDenied_onlyRule {d : Str} {addr : SocketAddr} (h1 : hostMatches d (ipText addr.ip) = false)
    (h2 : hostMatches d (authority (ipText addr.ip) addr.port) = false) :
    addrDenied env sc (onlyRule d) addr = false := by
  simp [addrDenied, matchesAny, onlyRule, PermissionState.deny, PermissionState.new, capsMatch, h1, h2]

/-- An address whose text is not the host part of the only rule is returned. -/
theorem vettedAddrs_onlyRule {d : Str} {ip : IpAddr} {named : Option Nat} (hd : ruleAddr d = some (ip, named))
    (env : PathEnv) (sc : ScopeState) {port : Nat} (hp : port ≤ u16Max) {addr : IpAddr}
    (hne : (patternText d).host ≠ ipText addr) (host : Str) :
    vettedAddrs env sc (onlyRule d) (fun _ => .ok [addr]) host port = .ok [⟨addr, port⟩] := by
  have h1 : hostMatches d (ipText addr) = false := by
    rw [← Bool.not_eq_true]
    exact fun h => hne (host_eq_of_hostMatches hd h)
  have h2 : hostMatches d (authority (ipText addr) port) = false := by
    rw [← Bool.not_eq_true, hostMatches_authority_iff hd hp]
    exact fun h => hne h.1
  have hdenied : addrDenied env sc (onlyRule d) ⟨addr, port⟩ = false := addrDenied_onlyRule h1 h2
  simp [vettedAddrs, bind, Except.bind, hdenied, pure, Except.pure]

theorem named_le {d : Str} {ip : IpAddr} {named : Option Nat} (hd : ruleAddr d = some (ip, named)) :
    ∀ p ∈ named, p ≤ u16Max := by
  intro p hp
  obtain ⟨ip', -, hport⟩ := Option.bind_eq_some_iff.mp hd
  cases htext : (patternText d).port with
  | absent =>
      simp only [htext, Option.some.injEq, Prod.mk.injEq] at hport
      rw [← hport.2] at hp
      cases hp
  | written text =>
      simp only [htext] at hport
      obtain ⟨q, hq, heq⟩ := Option.map_eq_some_iff.mp hport
      rw [← (Prod.mk.inj heq).2, Option.mem_some_iff] at hp
      exact hp ▸ parseUnsigned_le hq
  | garbled => simp [htext] at hport

/-- A designated address that the text of the rule does not spell gets through. -/
theorem not_filtersRule {d : Str} {ip : IpAddr} {named : Option Nat} (hd : ruleAddr d = some (ip, named))
    (env : PathEnv) (sc : ScopeState) {addr : IpAddr} (hdes : Designates addr ip)
    (hne : (patternText d).host ≠ ipText addr) : ¬ FiltersRule d ip named := by
  intro hfilters
  have hport : named.getD 0 ≤ u16Max := by
    cases hnamed : named with
    | none => exact Nat.zero_le _
    | some p => exact named_le hd p hnamed
  refine hfilters env sc (onlyRule d) (by simp [onlyRule, PermissionState.deny, PermissionState.new])
    (fun _ => .ok [addr]) [] (named.getD 0) hport _ (vettedAddrs_onlyRule hd env sc hport hne []) ⟨addr, named.getD 0⟩
    List.mem_cons_self ⟨hdes, ?_⟩
  intro p hp
  rw [Option.mem_def] at hp
  rw [hp, Option.getD_some]

theorem filtersRule_iff {d : Str} {ip : IpAddr} {named : Option Nat} (hd : ruleAddr d = some (ip, named))
    (env : PathEnv) (sc : ScopeState) : FiltersRule d ip named ↔ CanonicalIpv6 d ip := by
  constructor
  · intro hfilters
    cases ip with
    | v4 a =>
        refine absurd hfilters (not_filtersRule hd env sc (.inr rfl) ?_)
        intro heq
        have hparse := parseIp_of_ruleAddr hd
        rw [heq, ipText, ipv6Text_toIpv6Mapped] at hparse
        exact parseIp_colon_ne_v4 _ a hparse
    | v6 a =>
        by_contra hcanon
        refine not_filtersRule hd env sc rfl ?_ hfilters
        exact fun heq => hcanon ⟨a, rfl, heq⟩
  · rintro ⟨a, rfl, hhost⟩ env sc st hdenied resolve host port hp addrs hok addr haddr ⟨hdes, hport⟩
    obtain ⟨⟨ips, -, ip, -, rfl⟩, hallowed⟩ := (mem_vettedAddrs hok addr).mp haddr
    obtain rfl : ip = .v6 a := hdes
    have hmatch := (hostMatches_authority_iff hd hp (.v6 a)).mpr ⟨hhost, hport⟩
    have hdenies : addrDenied env sc st ⟨.v6 a, port⟩ = true := addrDenied_of_denied hdenied hmatch
    rw [hdenies] at hallowed
    cases hallowed

end ThreeVa.Permissions
