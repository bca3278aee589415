import ThreeVa.Firewall.Tasks

/-!
# Escalating blocks

How long an auto-block lasts, and the auto-block of `check_request` where the clock has a last instant: `latest` is
the last one an `Instant` can hold, and adding a duration beyond it panics while the blocklist is locked.
-/

namespace ThreeVa.Firewall

/-! ## The duration of a block -/

/-- The duration in unbounded arithmetic. -/
def escalated (config : FirewallConfig) (strikes : Nat) : Nat :=
  min (max config.maxBlockDurationSecs config.blockDurationSecs)
    (config.blockDurationSecs * max config.blockEscalationFactor 1 ^ (min strikes maxStrikes - 1))

/-- The durations of a configuration are `u64`. -/
structure FirewallConfig.DurationsFit (config : FirewallConfig) : Prop where
  base : config.blockDurationSecs < 2 ^ 64
  cap : config.maxBlockDurationSecs < 2 ^ 64

theorem escalate_eq {factor cap : Nat} (hfactor : 1 ≤ factor) (hcap : cap < 2 ^ 64) (left : Nat) {dur : Nat}
    (hdur : dur ≤ cap) : escalate factor cap left dur = min cap (dur * factor ^ left) := by
  induction left generalizing dur with
  | zero => simp [escalate, hdur]
  | succ left ih =>
      -- The cap is a `u64`, so the saturation is below it or the cap decides.
      have hsat : min (min (dur * factor) (2 ^ 64 - 1)) cap = min cap (dur * factor) := by omega
      have hpow : dur * factor ^ (left + 1) = dur * factor * factor ^ left := by rw [pow_succ']; ring
      rw [escalate, hsat, hpow]
      by_cases hreached : cap ≤ dur * factor
      · have hbeyond : cap ≤ dur * factor * factor ^ left :=
          hreached.trans (Nat.le_mul_of_pos_right _ (Nat.pow_pos hfactor))
        simp [hreached, hbeyond]
      · rw [Nat.min_eq_right (by omega), if_neg hreached, ih (by omega)]

theorem blockDurationSecsFor_eq {config : FirewallConfig} (h : config.DurationsFit) (strikes : Nat) :
    blockDurationSecsFor config strikes = escalated config strikes :=
  escalate_eq (le_max_right _ _) (max_lt h.cap h.base) _ (le_max_right _ _)

theorem escalated_le_one (config : FirewallConfig) {strikes : Nat} (h : strikes ≤ 1) :
    escalated config strikes = config.blockDurationSecs := by
  have hzero : min strikes maxStrikes - 1 = 0 := by omega
  rw [escalated, hzero, pow_zero, mul_one]
  exact min_eq_right (le_max_right _ _)

theorem escalated_mono (config : FirewallConfig) : Monotone (escalated config) := by
  intro strikes strikes' hle
  have hexp : min strikes maxStrikes - 1 ≤ min strikes' maxStrikes - 1 := by omega
  exact min_le_min_left _ (Nat.mul_le_mul_left _ (Nat.pow_le_pow_right (lt_max_of_lt_right Nat.one_pos) hexp))

theorem base_le_escalated (config : FirewallConfig) (strikes : Nat) :
    config.blockDurationSecs ≤ escalated config strikes := by
  rw [← escalated_le_one config (Nat.zero_le 1)]
  exact escalated_mono config (Nat.zero_le strikes)

/-- The duration is the closed form, grows with the strikes and is never below the base. -/
structure Escalates (config : FirewallConfig) : Prop where
  closed : ∀ strikes, blockDurationSecsFor config strikes = escalated config strikes
  first : ∀ strikes ≤ 1, blockDurationSecsFor config strikes = config.blockDurationSecs
  monotone : Monotone (blockDurationSecsFor config)
  base : ∀ strikes, config.blockDurationSecs ≤ blockDurationSecsFor config strikes

theorem FirewallConfig.DurationsFit.escalates {config : FirewallConfig} (h : config.DurationsFit) :
    Escalates config := by
  have hclosed := blockDurationSecsFor_eq h
  refine ⟨hclosed, fun strikes hle => ?_, fun strikes strikes' hle => ?_, fun strikes => ?_⟩
  · rw [hclosed, escalated_le_one config hle]
  · rw [hclosed, hclosed]
    exact escalated_mono config hle
  · rw [hclosed]
    exact base_le_escalated config strikes

/-! ## The auto-block of a request -/

/-- `now + duration`; `none` is a panic. -/
def addDuration (latest now duration : Nat) : Option Instant :=
  if now + duration ≤ latest then some (now + duration) else none

/-- `block_ip`, on a clock that ends. -/
def blockIpWithin (latest : Instant) (fw : Firewall) (ip : IpAddr) (now duration : Nat) (reason : BlockReason) :
    Option Firewall :=
  (addDuration latest now duration).map fun expires =>
    { fw with blocklist := Function.update fw.blocklist ip (some ⟨expires, reason⟩) }

/-- The auto-block in `check_request`: the decision and the firewall it leaves. -/
def autoBlock (latest : Instant) (fw : Firewall) (ip : IpAddr) (now : Instant) :
    Option (FirewallDecision × Firewall) :=
  let (durationSecs, fw) := fw.strike ip now
  (blockIpWithin latest fw ip now (durationFromSecs durationSecs) .rateLimitViolation).map fun fw =>
    (.blocked .rateLimitViolation (durationSecs * 1000 % 2 ^ 64), fw)

/-- Short of a panic it is the auto-block of the firewall above. -/
theorem autoBlock_eq (latest : Instant) (fw : Firewall) (ip : IpAddr) (now : Instant) :
    autoBlock latest fw ip now =
      let r := fw.recordAutoBlock ip now
      if now + durationFromSecs r.1 ≤ latest then some (.blocked .rateLimitViolation (r.1 * 1000 % 2 ^ 64), r.2)
      else none := by
  rw [recordAutoBlock_eq]
  dsimp only [autoBlock, blockIpWithin, addDuration]
  split <;> rfl

def nextStrikes (fw : Firewall) (ip : IpAddr) : Nat := min (((fw.strikes ip).map (·.count)).getD 0 + 1) maxStrikes

/-- The auto-block comes to an end, and reports and records the duration as it is. -/
def AutoBlockExact (latest : Instant) (fw : Firewall) (ip : IpAddr) (now : Instant) : Prop :=
  ∃ fw', autoBlock latest fw ip now =
      some (.blocked .rateLimitViolation (1000 * escalated fw.config (nextStrikes fw ip)), fw') ∧
    fw'.blocklist ip =
      some ⟨now + durationFromSecs (escalated fw.config (nextStrikes fw ip)), .rateLimitViolation⟩

/-- The duration in milliseconds is a `u64`, and the clock reaches the end of the block. -/
def BlockFits (latest : Instant) (fw : Firewall) (ip : IpAddr) (now : Instant) : Prop :=
  1000 * escalated fw.config (nextStrikes fw ip) < 2 ^ 64 ∧
    now + durationFromSecs (escalated fw.config (nextStrikes fw ip)) ≤ latest

theorem recordAutoBlock_fst {fw : Firewall} (h : fw.config.DurationsFit) (ip : IpAddr) (now : Instant) :
    (fw.recordAutoBlock ip now).1 = escalated fw.config (nextStrikes fw ip) :=
  blockDurationSecsFor_eq h _

/-- The auto-block comes to an end where the clock reaches the end of the block. -/
theorem autoBlock_ends {latest : Instant} {fw : Firewall} (h : fw.config.DurationsFit) {ip : IpAddr} {now : Instant}
    (hend : now + durationFromSecs (escalated fw.config (nextStrikes fw ip)) ≤ latest) :
    autoBlock latest fw ip now =
      some (.blocked .rateLimitViolation (1000 * escalated fw.config (nextStrikes fw ip) % 2 ^ 64),
        (fw.recordAutoBlock ip now).2) := by
  rw [autoBlock_eq]
  dsimp only
  rw [recordAutoBlock_fst h, if_pos hend, Nat.mul_comm 1000]

/-- A duration beyond the clock: the auto-block panics. -/
theorem autoBlock_panics {latest : Instant} {fw : Firewall} (h : fw.config.DurationsFit) {ip : IpAddr} {now : Instant}
    (hend : latest < now + durationFromSecs (escalated fw.config (nextStrikes fw ip))) :
    autoBlock latest fw ip now = none := by
  rw [autoBlock_eq]
  dsimp only
  rw [recordAutoBlock_fst h, if_neg (Nat.not_le.mpr hend)]

theorem autoBlockExact_iff {latest : Instant} {fw : Firewall} (h : fw.config.DurationsFit) (ip : IpAddr)
    (now : Instant) : AutoBlockExact latest fw ip now ↔ BlockFits latest fw ip now := by
  constructor
  · rintro ⟨fw', hblock, -⟩
    by_cases hend : now + durationFromSecs (escalated fw.config (nextStrikes fw ip)) ≤ latest
    · rw [autoBlock_ends h hend, Option.some.injEq, Prod.mk.injEq, FirewallDecision.blocked.injEq] at hblock
      have hms := hblock.1.2
      exact ⟨hms ▸ Nat.mod_lt _ (by decide), hend⟩
    · rw [autoBlock_panics h (Nat.not_le.mp hend)] at hblock
      cases hblock
  · rintro ⟨hms, hend⟩
    refine ⟨(fw.recordAutoBlock ip now).2, ?_, ?_⟩
    · rw [autoBlock_ends h hend, Nat.mod_eq_of_lt hms]
    · rw [← recordAutoBlock_fst h ip now]
      exact Function.update_self ..

end ThreeVa.Firewall
