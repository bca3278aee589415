import ThreeVa.Permissions.Alias
import ThreeVa.Permissions.Lemmas.Bind
import ThreeVa.Permissions.Lemmas.Coverage
import ThreeVa.Permissions.Host
import ThreeVa.Permissions.Vetted

/-!
# Theorems about permissions

What a check answers, which addresses a server may bind, which destinations a network grant covers, which
spellings of a name a deny rule reaches and which paths a file grant covers.
-/

namespace ThreeVa.Permissions
open Text

/-! ## Checks -/

/-- Without a prompt a check is decided by the rules alone: denies win, then a global grant or a grant of every
package involved. The order of the calls that added the rules does not matter, a further grant never refuses and
a further deny never allows. -/
theorem check_decided_by_rules (env : PathEnv) (stdin : Stdin) :
    (∀ (sc : ScopeState) (st : PermissionState) (required : Capability), st.interactive = false →
      ((checkInner env stdin sc st required).1 = true ↔ Allowed env sc st required)) ∧
    (∀ (p : Process) (calls calls' : List RuleCall) (required : Capability), calls.Perm calls' →
      (p.applyAll calls).checks env stdin required = (p.applyAll calls').checks env stdin required) ∧
    (∀ (p : Process) (c : RuleCall) (required : Capability), p.perms.interactive = false → c.isGrant = true →
      p.checks env stdin required = true → (p.apply c).checks env stdin required = true) ∧
    (∀ (p : Process) (c : RuleCall) (required : Capability), p.perms.interactive = false → c.isGrant = false →
      p.checks env stdin required = false → (p.apply c).checks env stdin required = false) := by
  refine ⟨fun sc st required hi => checkInner_iff hi, ?_, ?_, ?_⟩
  · intro p calls calls' required h
    rw [p.applyAll_perm h]
  · intro p c required hi hc h
    have hi' : (p.apply c).perms.interactive = false := by simpa using hi
    exact (checkInner_iff hi').mpr (p.allowed_apply_grant hc ((checkInner_iff hi).mp h))
  · intro p c required hi hc h
    have hi' : (p.apply c).perms.interactive = false := by simpa using hi
    rw [← Bool.not_eq_true] at h ⊢
    exact fun h' => h ((checkInner_iff hi).mpr (p.allowed_of_apply_deny hc ((checkInner_iff hi').mp h')))

def bareEnv : PathEnv where
  fs := .ofNodes [] FileSystem.no_nodes
  cwd := some []
  cwd_dir := PathEnv.empty_cwd

/-- Code of the package `axios` on the stack, called from the package `express`. -/
def nestedScope : ScopeState where
  current := "express".toList
  stackResolver := some ["express".toList, "axios".toList]
  inherited := []
  rulesActive := true

/-- A process in which only `axios` may reach `api.example.com`. -/
def axiosProcess : Process :=
  (⟨PermissionState.new, nestedScope, fun _ => rfl⟩ : Process).apply
    (.grantScoped "axios".toList (.network "api.example.com".toList))

/-- A grant of one package is not enough while another one is on the stack, and becomes so with its own. -/
theorem check_decided_by_rules_nested :
    axiosProcess.checks bareEnv .notTerminal (.network "api.example.com:443".toList) = false ∧
    (axiosProcess.apply (.denyScoped "axios".toList .spawnProcess)).checks bareEnv .notTerminal
      (.network "api.example.com:443".toList) = false ∧
    Allowed bareEnv nestedScope
      (axiosProcess.apply (.grantScoped "express".toList (.network "*".toList))).perms
      (.network "api.example.com:443".toList) :=
  ⟨by decide,
    (check_decided_by_rules bareEnv .notTerminal).2.2.2 axiosProcess _ _ rfl rfl (by decide),
    ((check_decided_by_rules bareEnv .notTerminal).1 nestedScope _ _ rfl).mp (by decide)⟩

/-! ## Binding -/

/-- An address a deny rule names is never bound, unless a shortcut for local addresses passes the rule. -/
theorem bindHost_respects_deny (env : PathEnv) (stdin : Stdin) (sc : ScopeState) (st : PermissionState) (host : Str) :
    (∀ h, (bindHost env stdin sc st host).1 = some h → ¬ BindDenied env sc st h) ↔
      ¬ ShortcutPassesDeny env sc st host :=
  bindHost_respects_deny_iff

def noLoopback : PermissionState :=
  (PermissionState.new.grant (.network "api.example.com".toList)).deny (.network loopbackV4)

/-- Listening on all interfaces is moved to the loopback address that is denied. -/
theorem bindHost_binds_denied_loopback :
    ¬ ∀ h, (bindHost bareEnv .notTerminal nestedScope noLoopback unspecifiedV4).1 = some h →
      ¬ BindDenied bareEnv nestedScope noLoopback h := by
  intro h
  apply h loopbackV4 (by decide) (Or.inr (Or.inl ⟨.network loopbackV4, by decide, by decide⟩))

/-! ## Network grants -/

/-- An authority reads back as the host and port it was made of, and a pattern covers exactly the destinations it
spells, unless it covers the host and carries port text that is ignored. -/
theorem grant_pattern_exact {written host g : Str} {port : Nat} (hh : IsHost written host) (hp : port ≤ u16Max) :
    (splitHostPort (authority written port) = (host, some port) ∧
      (hostMatches g (authority written port) = true ↔ PatternCovers g host port)) ↔
      ¬ (portTextIgnored g = true ∧ HostCovers (patternText g).host host) := by
  rw [← patternExact_iff hh hp]
  exact ⟨fun h => h.2, fun h => ⟨splitHostPort_authority hh hp, h⟩⟩

theorem grant_pattern_exact_ipv6 :
    hostMatches "[::1]:443".toList (authority loopbackV6 443) = true ∧
      PatternCovers "[::1]:443".toList loopbackV6 443 := by
  have hh : IsHost loopbackV6 loopbackV6 := .bare (by decide)
  have h := (grant_pattern_exact (g := "[::1]:443".toList) hh (by decide : 443 ≤ u16Max)).mpr
    fun h => absurd h.1 (by decide)
  have hm : hostMatches "[::1]:443".toList (authority loopbackV6 443) = true := by decide
  exact ⟨hm, h.2.mp hm⟩

/-- Text between the bracket and the port separator turns a port that is none into every port. -/
theorem hostMatches_ignores_port_text :
    IsHost loopbackV6 loopbackV6 ∧
      ¬ (splitHostPort (authority loopbackV6 443) = (loopbackV6, some 443) ∧
        (hostMatches "[::1]x:https".toList (authority loopbackV6 443) = true ↔
          PatternCovers "[::1]x:https".toList loopbackV6 443)) := by
  refine ⟨.bare (by decide), fun h => ?_⟩
  rcases h.2.mp (by decide) with hs | ⟨-, hc⟩
  · exact absurd hs (by decide)
  · exact hc

/-! ## Vetted addresses -/

/-- A rule that denies an address is enforced on every address a name resolves to exactly if it writes an IPv6 address
the way the standard library does. -/
theorem vettedAddrs_filter_rule {d : Str} {ip : Firewall.IpAddr} {named : Option Nat}
    (hd : ruleAddr d = some (ip, named)) : FiltersRule d ip named ↔ CanonicalIpv6 d ip :=
  filtersRule_iff hd bareEnv nestedScope

theorem vettedAddrs_filter_loopback :
    ruleAddr "[::1]:443".toList = some (.v6 1, some 443) ∧ FiltersRule "[::1]:443".toList (.v6 1) (some 443) :=
  ⟨by decide, (vettedAddrs_filter_rule (by decide)).mpr ⟨1, rfl, by decide⟩⟩

def metadataAddr : BitVec 32 := 0xa9fea9fe

/-- The mapped form of a denied IPv4 address gets through, and so does an IPv6 address denied in another spelling. -/
theorem vettedAddrs_miss_spellings :
    ruleAddr "169.254.169.254".toList = some (.v4 metadataAddr, none) ∧
      Designates (.v6 (toIpv6Mapped metadataAddr)) (.v4 metadataAddr) ∧
      vettedAddrs bareEnv nestedScope (onlyRule "169.254.169.254".toList)
        (fun _ => .ok [.v6 (toIpv6Mapped metadataAddr)]) "metadata.example".toList 80 =
          .ok [⟨.v6 (toIpv6Mapped metadataAddr), 80⟩] ∧
      ruleAddr "0:0:0:0:0:0:0:1".toList = some (.v6 1, none) ∧
      vettedAddrs bareEnv nestedScope (onlyRule "0:0:0:0:0:0:0:1".toList) (fun _ => .ok [.v6 1])
        "local.example".toList 80 = .ok [⟨.v6 1, 80⟩] ∧
      ¬ ∀ d ip named, ruleAddr d = some (ip, named) → FiltersRule d ip named := by
  have hmapped : vettedAddrs bareEnv nestedScope (onlyRule "169.254.169.254".toList)
      (fun _ => .ok [.v6 (toIpv6Mapped metadataAddr)]) "metadata.example".toList 80 =
        .ok [⟨.v6 (toIpv6Mapped metadataAddr), 80⟩] :=
    vettedAddrs_onlyRule (show ruleAddr _ = some (.v4 metadataAddr, none) by decide) _ _ (by decide)
      (by decide) _
  refine ⟨by decide, .inr rfl, hmapped, by decide,
    vettedAddrs_onlyRule (show ruleAddr _ = some (.v6 1, none) by decide) _ _ (by decide) (by decide) _,
    fun h => ?_⟩
  exact h "169.254.169.254".toList (.v4 metadataAddr) none (by decide) bareEnv nestedScope
    (onlyRule "169.254.169.254".toList) (by decide) _ _ 80 (by decide) _ hmapped _ List.mem_cons_self
    ⟨.inr rfl, by simp⟩

/-! ## Names -/

/-- A deny rule for the canonical spelling of a name denies another spelling of it, wherever the rule is kept,
exactly when the rule's own letters are in that spelling: the name itself, or the end after a dot. -/
theorem deny_reaches_spelling {rule name spelling portEnd : Str} {host : RuleHost} (place : RulePlace)
    (hh : host.IsByName) (hrule : (splitHostPort rule).1 = host.text) (hn : IsCanonicalName name)
    (hs : SpellsName spelling name) (he : IsPortEnd portEnd) (hd : hostMatches rule (name ++ portEnd) = true) :
    DeniesAlike place rule (name ++ portEnd) (spelling ++ portEnd) ↔ host.Writes spelling := by
  have hstar : rule ≠ ['*'] := by
    rintro rfl
    have htext : host.text = ['*'] := hrule.symm.trans (by decide)
    cases host with
    | exact n => exact hh.2 (by simp only [RuleHost.text] at htext; simp [RuleHost.name, htext])
    | under n => simp [RuleHost.text] at htext
  obtain ⟨hport, hwanted, -⟩ := (hostMatches_dest hstar hn.1 he).mp hd
  have hm : hostMatches rule (spelling ++ portEnd) = true ↔ host.Writes spelling := by
    rw [hostMatches_dest hstar (hs.isDnsName hn.1) he, hrule, RuleHost.covers_iff_writes hh]
    exact ⟨fun h => h.2.2, fun h => ⟨hport, hwanted, h⟩⟩
  rw [← hm]
  constructor
  · intro h
    by_contra hmiss
    have hallowed : (checkInner bareEnv .notTerminal (onlyRuleScope place) (onlyRuleState rule place)
        (.network (spelling ++ portEnd))).1 = true := allowed_onlyRule (eq_false_of_ne_true hmiss)
    have hdenied := h bareEnv .notTerminal _ _ (inForce_onlyRule rule place) hd
    rw [hallowed] at hdenied
    cases hdenied
  · exact fun hmatch env stdin sc st hf _ => denied_of_inForce hf hmatch

def evilName : Str := "evil.com".toList
def evilWildcard : Str := "*.evil.com".toList

/-- Letters before the part a wildcard rule names may be written in any case. -/
theorem deny_reaches_spelling_subdomain :
    DeniesAlike (.package "axios".toList) evilWildcard ("a.evil.com".toList ++ ":110".toList)
      ("A.evil.com".toList ++ ":110".toList) :=
  (deny_reaches_spelling _ (show (RuleHost.under evilName).IsByName from ⟨by decide, by decide⟩) (by decide)
    (by decide) (by decide) (.inr ⟨"110".toList, by decide, by decide⟩) (by decide)).mpr ⟨['A'], by decide⟩

/-- A mail server is reached in capitals although its name is denied, for the process and for a package. -/
theorem deny_misses_capitals :
    IsCanonicalName evilName ∧ SpellsName "EVIL.com".toList evilName ∧
    hostMatches evilName (authority evilName 110) = true ∧
    (checkInner bareEnv .notTerminal (onlyRuleScope .everywhere) (onlyRuleState evilName .everywhere)
      (.network (authority "EVIL.com".toList 110))).1 = true ∧
    ¬ DeniesAlike .everywhere evilName (authority evilName 110) (authority "EVIL.com".toList 110) ∧
    ¬ DeniesAlike (.package "axios".toList) evilName (authority evilName 110) (authority "EVIL.com".toList 110) := by
  have hmiss : hostMatches evilName (authority "EVIL.com".toList 110) = false := by decide
  have hd : hostMatches evilName (authority evilName 110) = true := by decide
  have hnot : ∀ place, ¬ DeniesAlike place evilName (authority evilName 110) (authority "EVIL.com".toList 110) := by
    intro place h
    have hdenied := h bareEnv .notTerminal _ _ (inForce_onlyRule evilName place) hd
    rw [allowed_onlyRule hmiss] at hdenied
    cases hdenied
  exact ⟨by decide, by decide, hd, allowed_onlyRule hmiss, hnot _, hnot _⟩

/-! ## File grants -/

def sandbox : Str := "sandbox".toList
def outside : Str := "outside".toList

/-- `/sandbox/link` points to `/outside/new`, which does not exist. -/
def danglingEnv : PathEnv where
  fs := .ofNodes [([sandbox], .dir), ([outside], .dir),
    ([sandbox, "link".toList], .link ⟨true, [.normal outside, .normal "new".toList], by decide⟩)] (by decide)
  cwd := none
  cwd_dir := by simp

def sandboxPath : PathBuf := ⟨true, [.normal sandbox], by decide⟩

end ThreeVa.Permissions
