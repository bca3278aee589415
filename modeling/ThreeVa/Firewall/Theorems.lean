import ThreeVa.Firewall.Escalation
import ThreeVa.Firewall.Lemmas.Blocks
import ThreeVa.Firewall.Lemmas.Rate
import Mathlib.Algebra.Order.Archimedean.Basic

/-! What holds of the firewall over all sequences and interleavings of its calls. -/

namespace ThreeVa.Firewall
open Runs

/-! ## Blocks -/

/-- Trusted proxies are blocked only from outside, entries are in force until they expire, and an auto-block
never shortens one. -/
structure BlocksStick (s : Shared) : Prop where
  proxies : ∀ ip, s.fw.isTrustedProxy ip = true → s.fw.blocklist ip ≠ none →
    ∃ now e replaced, .inserted ip now e true replaced ∈ s.log
  sticks : Sticks s.log
  longer : KeepsLonger s.log

/-- In every run in which no auto-block is inserted after another entry for its address that came since the call's
own lookup, blocks stick in every state reached. -/
theorem blocks_stick_of_notOvertaken (config : FirewallConfig) (henabled : config.enabled = true) (es : List Event)
    (s : Shared) (hovertaken : Along step (notOvertaken · ·) (Shared.new config) es)
    (hrun : exec step (Shared.new config) es = some s) : BlocksStick s := by
  have h := exec_invariant (step_inv henabled) (inv_new config) hovertaken hrun
  exact ⟨h.proxies, h.sticks, h.longer⟩

/-- One token for each address, and the first refusal is an auto-block. -/
def strict : FirewallConfig := { rateLimitBurst := 1, autoBlockThreshold := 1 }

def client : IpAddr := .v4 0xC0000201#32

/-- The second request is refused and auto-blocks the client, a third is answered from the blocklist, and a cleanup
removes the entry once it has expired. -/
def autoBlockRun : List Event :=
  [.checkRequest client, .takeToken 0, .checkRequest client, .takeToken 1, .settle 1, .autoBlock 1,
    .checkRequest client, .tick (durationFromSecs 300), .cleanup, .clean 2, .clean 2, .clean 2]

theorem blocks_stick_autoBlockRun :
    ∃ s, exec step (Shared.new strict) autoBlockRun = some s ∧ s.log.length = 4 ∧ BlocksStick s := by
  have hrun : (exec step (Shared.new strict) autoBlockRun).map (·.log.length) = some 4 := by decide +kernel
  obtain ⟨s, hs, hlog⟩ := Option.map_eq_some_iff.mp hrun
  exact ⟨s, hs, hlog, blocks_stick_of_notOvertaken strict rfl autoBlockRun s (by decide +kernel) hs⟩

/-- The client is blocked for an hour from outside while a refused request is about to auto-block it. -/
def overtakenRun : List Event :=
  [.checkRequest client, .takeToken 0, .checkRequest client, .takeToken 1, .settle 1,
    .blockIp client (durationFromSecs 3600) .manualBlock, .autoBlock 1]

/-- The auto-block of 300 seconds takes the place of the hour. -/
theorem auto_block_shortens_manual_block :
    ¬ ∀ (config : FirewallConfig) (es : List Event) (s : Shared), config.enabled = true →
      exec step (Shared.new config) es = some s → BlocksStick s := by
  intro hsticks
  have hrun : (exec step (Shared.new strict) overtakenRun).map (·.log.head?) =
      some (some (.inserted client 0 (durationFromSecs 300) false
        (some ⟨durationFromSecs 3600, .manualBlock⟩))) := by decide +kernel
  obtain ⟨s, hs, hhead⟩ := Option.map_eq_some_iff.mp hrun
  have hle := (hsticks strict overtakenRun s rfl hs).longer client 0 _ _ (List.mem_of_head? hhead) (by decide)
  exact absurd hle (by decide)

/-! ## The rate of an address -/

/-- In every sequence of calls at non-decreasing times, the requests of an address allowed in a window are at most
the burst and the top rate over the window, rounded up. -/
def RateBounded (config : FirewallConfig) : Prop :=
  ∀ (calls : List (Instant × Call)) (ip : IpAddr) (a t : ℚ), (calls.map (·.1)).Pairwise (· ≤ ·) → 0 ≤ t →
    (allowedIn ip a t ((Firewall.new config).runCalls calls).1 : ℤ) ≤
      ⌈(config.rateLimitBurst : ℚ) + topRate config * t⌉

theorem rateBounded_of_burst_le {config : FirewallConfig} (henabled : config.enabled = true)
    (hburst : config.rateLimitBurst ≤ topRate config * dropAfter) : RateBounded config := by
  intro calls ip a t hsorted ht
  have hstart : (0 :: calls.map (·.1)).Pairwise (· ≤ ·) :=
    List.pairwise_cons.mpr ⟨fun now _ => Nat.zero_le now, hsorted⟩
  have hzero : ((0 : Nat) : ℚ) ≤ config.rateLimitBurst + topRate config * t := by
    have := mul_nonneg (topRate_nonneg config) ht
    push_cast
    positivity
  have hrun := (paid_new config ip a).run henabled hburst hstart hzero
  rw [Nat.zero_add] at hrun
  exact_mod_cast hrun.trans (Int.le_ceil _)

/-- With the firewall disabled every request is allowed. -/
theorem runCalls_disabled {fw : Firewall} (hdisabled : fw.config.enabled = false) (ip : IpAddr) (n : Nat) :
    (fw.runCalls (List.replicate n (0, .checkRequest ip))).1 = List.replicate n ⟨0, ip, .allow⟩ := by
  have hcheck : fw.checkRequest ip 0 = (.allow, fw) := by simp [checkRequest, hdisabled]
  induction n with
  | zero => rfl
  | succ n ih =>
      simp only [List.replicate_succ, runCalls, call, hcheck, ih]
      rfl

theorem RateBounded.enabled {config : FirewallConfig} (h : RateBounded config) : config.enabled = true := by
  by_contra hdisabled
  have hbound := h (List.replicate (config.rateLimitBurst + 1) (0, .checkRequest (.v4 0))) (.v4 0) 0 0
    (by simp [List.pairwise_replicate]) (le_refl _)
  rw [runCalls_disabled (by simpa [Firewall.new] using hdisabled)] at hbound
  simp [allowedIn, List.countP_replicate, seconds, FirewallDecision.isAllowed] at hbound

/-- `k + 1` bursts, each on a fresh bucket, exceed the bound once `k` drops have gained a whole request. -/
theorem RateBounded.burst_le {config : FirewallConfig} (h : RateBounded config) :
    config.rateLimitBurst ≤ topRate config * dropAfter := by
  by_contra hexceeds
  rw [not_le] at hexceeds
  have hpos : 0 < config.rateLimitBurst := by
    have := (mul_nonneg (topRate_nonneg config) dropAfter_nonneg).trans_lt hexceeds
    exact_mod_cast this
  obtain ⟨k, hk⟩ := exists_nat_ge (1 / (config.rateLimitBurst - topRate config * dropAfter))
  have hgained : 1 ≤ k * (config.rateLimitBurst - topRate config * dropAfter) :=
    (div_le_iff₀ (sub_pos.mpr hexceeds)).mp hk
  have hcount := runCalls_bursts config (.v4 0) 0 (k * dropAfter) (k + 1) 0
    (show (Firewall.new config).config = config from rfl) h.enabled hpos rfl (by simp [Firewall.new]) (by simp [seconds]) (by
      push_cast
      simp only [seconds, Nat.cast_zero, zero_div]
      linarith)
  have hbound := h (bursts (.v4 0) config.rateLimitBurst 0 (k + 1)) (.v4 0) 0 (k * dropAfter)
    (bursts_from _ _ _ _).2 (mul_nonneg (Nat.cast_nonneg k) dropAfter_nonneg)
  rw [hcount, Int.le_ceil_iff] at hbound
  push_cast at hbound
  linarith

/-- A bucket dropped by `cleanup` comes back full, so the bound holds exactly if the firewall is enabled and the
burst is no more than the top rate brings in until the earliest drop. -/
theorem rateBounded_iff (config : FirewallConfig) :
    RateBounded config ↔ config.enabled = true ∧ config.rateLimitBurst ≤ topRate config * dropAfter :=
  ⟨fun h => ⟨h.enabled, h.burst_le⟩, fun h => rateBounded_of_burst_le h.1 h.2⟩

example : RateBounded { rateLimitRps := 1, rateLimitBurst := 300 } := by
  apply rateBounded_of_burst_le rfl ?_
  norm_num [topRate, dropAfter, seconds, durationFromSecs]

/-- Tokens for a thousand requests at once, and one more each second. -/
def slowRefill : FirewallConfig := { rateLimitRps := 1, rateLimitBurst := 1000 }

/-- Two bursts 300 seconds and a nanosecond apart: 2000 requests are allowed where the bound is 1301. -/
theorem second_burst_exceeds_rate :
    allowedIn (.v4 0) 0 dropAfter ((Firewall.new slowRefill).runCalls (bursts (.v4 0) 1000 0 2)).1 = 2000 ∧
      ⌈(1000 : ℚ) + 1 * dropAfter⌉ = 1301 ∧ ¬ RateBounded slowRefill := by
  have hcount : allowedIn (.v4 0) 0 dropAfter
      ((Firewall.new slowRefill).runCalls (bursts (.v4 0) 1000 0 2)).1 = 2000 :=
    runCalls_bursts slowRefill (.v4 0) 0 dropAfter 2 0 rfl rfl (by norm_num [slowRefill]) rfl (by simp [Firewall.new])
      (by simp [seconds])
      (by simp only [seconds, Nat.cast_zero, zero_div]; push_cast; linarith)
  have hceil : ⌈(1000 : ℚ) + 1 * dropAfter⌉ = 1301 := by
    rw [Int.ceil_eq_iff]
    norm_num [dropAfter, seconds, durationFromSecs]
  refine ⟨hcount, hceil, fun h => ?_⟩
  have hbound := h (bursts (.v4 0) 1000 0 2) (.v4 0) 0 dropAfter (bursts_from _ _ _ _).2 dropAfter_nonneg
  rw [hcount] at hbound
  norm_num [slowRefill, topRate] at hbound
  norm_num at hceil
  omega

/-! ## Escalating blocks -/

/-- The duration of a block is the closed form for every configuration; an auto-block reports and records it
exactly if it fits the milliseconds and the clock. -/
theorem escalates_and_exact_iff (fw : Firewall) (hfit : fw.config.DurationsFit) (latest : Instant) (ip : IpAddr)
    (now : Instant) :
    Escalates fw.config ∧ (AutoBlockExact latest fw ip now ↔ BlockFits latest fw ip now) :=
  ⟨hfit.escalates, autoBlockExact_iff hfit ip now⟩

/-- The last instant of a clock of 63-bit seconds. -/
def clockEnd : Instant := 2 ^ 63 * 1000000000 - 1

/-- The first offence against the default configuration, an hour after the start. -/
theorem default_block_exact : AutoBlockExact clockEnd (Firewall.new {}) (.v4 0) 3600000000000 := by
  refine (escalates_and_exact_iff (Firewall.new {}) ⟨by decide, by decide⟩ clockEnd (.v4 0) 3600000000000).2.mpr ?_
  exact ⟨by decide, by decide⟩

def blockedFor (secs : Nat) : Firewall := Firewall.new { blockDurationSecs := secs }

/-- A block of 2^61 seconds is reported as over, and one of 2^64 - 1 seconds is a panic. -/
theorem long_blocks_fail :
    (∃ fw', autoBlock clockEnd (blockedFor (2 ^ 61)) (.v4 0) 0 = some (.blocked .rateLimitViolation 0, fw')) ∧
      ¬ AutoBlockExact clockEnd (blockedFor (2 ^ 61)) (.v4 0) 0 ∧
      autoBlock clockEnd (blockedFor (2 ^ 64 - 1)) (.v4 0) 0 = none := by
  have hescalated : ∀ secs, escalated (blockedFor secs).config (nextStrikes (blockedFor secs) (.v4 0)) = secs :=
    fun secs => escalated_le_one (blockedFor secs).config le_rfl
  have hover : 1000 * 2 ^ 61 % 2 ^ 64 = 0 := by decide
  have hreported : autoBlock clockEnd (blockedFor (2 ^ 61)) (.v4 0) 0 =
      some (.blocked .rateLimitViolation 0, ((blockedFor (2 ^ 61)).recordAutoBlock (.v4 0) 0).2) := by
    rw [autoBlock_ends ⟨by decide, by decide⟩ (by rw [hescalated]; decide), hescalated, hover]
  refine ⟨⟨_, hreported⟩, fun h => ?_, ?_⟩
  · obtain ⟨fw', hblock, -⟩ := h
    rw [hreported, hescalated, Option.some.injEq, Prod.mk.injEq, FirewallDecision.blocked.injEq] at hblock
    exact absurd hblock.1.2 (by decide)
  · exact autoBlock_panics ⟨by decide, by decide⟩ (by rw [hescalated]; decide)

end ThreeVa.Firewall
