import ThreeVa.Firewall.State
import Mathlib.Tactic.Linarith
import Mathlib.Tactic.Positivity
import Mathlib.Tactic.NormNum

/-! The requests a bucket has paid for in a window, over all calls. -/

namespace ThreeVa.Firewall

/-! ## Rates and times -/

theorem computeEffectiveRps_nonneg (rps : Nat) (ewma : Option ℚ) (adaptive : Bool) :
    0 ≤ computeEffectiveRps rps ewma adaptive := by
  have hbase : (0 : ℚ) ≤ rps := Nat.cast_nonneg rps
  unfold computeEffectiveRps
  cases adaptive with
  | false => simp
  | true =>
      simp only [Bool.not_true, Bool.false_eq_true, ↓reduceIte, adaptiveMaxRateMultiplier]
      exact le_min (le_max_of_le_right hbase) (by positivity)

/-- Whatever the history in the moving average, the rate stays within the top rate. -/
theorem computeEffectiveRps_le (config : FirewallConfig) (ewma : Option ℚ) :
    computeEffectiveRps config.rateLimitRps ewma config.adaptiveRateLimit ≤ topRate config := by
  unfold computeEffectiveRps topRate
  cases config.adaptiveRateLimit with
  | false => simp
  | true => simp

theorem topRate_nonneg (config : FirewallConfig) : 0 ≤ topRate config :=
  (computeEffectiveRps_nonneg _ none _).trans (computeEffectiveRps_le config none)

theorem seconds_le {m n : Instant} (h : m ≤ n) : seconds m ≤ seconds n := by
  have : (m : ℚ) ≤ n := Nat.cast_le.mpr h
  unfold seconds
  linarith

theorem seconds_sub {m n : Instant} (h : m ≤ n) : ((n - m : Nat) : ℚ) / 1000000000 = seconds n - seconds m := by
  rw [Nat.cast_sub h, seconds, seconds, sub_div]

theorem seconds_add (m n : Instant) : seconds (m + n) = seconds m + seconds n := by
  rw [seconds, Nat.cast_add, add_div, seconds, seconds]

theorem dropAfter_nonneg : 0 ≤ dropAfter := by
  unfold dropAfter seconds
  positivity

/-! ## One request -/

/-- What the accounting relies on: a bucket of the configured burst, not refilled after `now`. -/
structure BucketOk (config : FirewallConfig) (now : Instant) (b : TokenBucket) : Prop where
  capacity : b.capacity = config.rateLimitBurst
  nonneg : 0 ≤ b.tokens
  atMost : b.tokens ≤ config.rateLimitBurst
  past : b.lastRefill ≤ now

theorem bucketOk_new (config : FirewallConfig) (now : Instant) :
    BucketOk config now (.new config.rateLimitRps config.rateLimitBurst now) :=
  ⟨rfl, Nat.cast_nonneg _, le_refl _, le_refl _⟩

theorem BucketOk.later {config : FirewallConfig} {m n : Instant} {b : TokenBucket} (h : BucketOk config m b)
    (hmn : m ≤ n) : BucketOk config n b := { h with past := h.past.trans hmn }

/-- The bookkeeping of the window leaves the tokens alone. -/
theorem noteRequestAt_frame (b : TokenBucket) (now : Instant) (alphaPct : Nat) :
    (b.noteRequestAt now alphaPct).capacity = b.capacity ∧ (b.noteRequestAt now alphaPct).tokens = b.tokens ∧
      (b.noteRequestAt now alphaPct).lastRefill = b.lastRefill := by
  unfold TokenBucket.noteRequestAt
  cases b.windowStart with
  | none => exact ⟨rfl, rfl, rfl⟩
  | some start =>
      dsimp only
      split <;> exact ⟨rfl, rfl, rfl⟩

/-- The tokens after the refill of a request at `now`. -/
def TokenBucket.refilled (b : TokenBucket) (now : Instant) : ℚ :=
  min (b.tokens + ((now - b.lastRefill : Nat) / 1000000000 : ℚ) * b.rate) b.capacity

theorem consume_spec (b : TokenBucket) (now : Instant) :
    (b.consume now).2.capacity = b.capacity ∧ (b.consume now).2.lastRefill = now ∧
      ((b.consume now).1 = true ↔ 1 ≤ b.refilled now) ∧
      (b.consume now).2.tokens = b.refilled now - if (b.consume now).1 then 1 else 0 := by
  unfold TokenBucket.consume TokenBucket.refilled
  dsimp only
  split
  · rename_i hone
    exact ⟨rfl, rfl, iff_of_true rfl hone, rfl⟩
  · rename_i hnone
    exact ⟨rfl, rfl, iff_of_false Bool.false_ne_true hnone, by simp⟩

/-- The bucket of `ip` as a request at `now` charges it: fresh if there is none, with the rate of the window. -/
def charged (fw : Firewall) (ip : IpAddr) (now : Instant) : TokenBucket :=
  let bucket := (fw.buckets ip).getD (.new fw.config.rateLimitRps fw.config.rateLimitBurst now)
  let bucket := bucket.noteRequestAt now fw.config.ewmaAlphaPct
  { bucket with
    rate := computeEffectiveRps fw.config.rateLimitRps bucket.ewmaPerWindow fw.config.adaptiveRateLimit }

theorem charged_some {fw : Firewall} {ip : IpAddr} {b : TokenBucket} (hb : fw.buckets ip = some b) (now : Instant) :
    (charged fw ip now).capacity = b.capacity ∧ (charged fw ip now).tokens = b.tokens ∧
      (charged fw ip now).lastRefill = b.lastRefill := by
  simp only [charged, hb, Option.getD_some]
  exact noteRequestAt_frame b now fw.config.ewmaAlphaPct

theorem refilled_at_once {b : TokenBucket} {now : Instant} (h : b.lastRefill = now) :
    b.refilled now = min b.tokens b.capacity := by
  simp [TokenBucket.refilled, h]

theorem takeToken_eq (fw : Firewall) (ip : IpAddr) (now : Instant) :
    fw.takeToken ip now = (((charged fw ip now).consume now).1, ((charged fw ip now).consume now).2.violations,
      { fw with buckets := Function.update fw.buckets ip (some ((charged fw ip now).consume now).2) }) := by
  unfold takeToken charged
  dsimp only

/-- A request is allowed exactly if it is not blocked and finds a token; only then, and if it is refused for
want of one, does it change the bucket. -/
theorem checkRequest_cases (fw : Firewall) (ip : IpAddr) (now : Instant) (henabled : fw.config.enabled = true) :
    ((fw.checkRequest ip now).1.isAllowed = false ∧ (fw.checkRequest ip now).2 = fw) ∨
    ((fw.checkRequest ip now).1.isAllowed = ((charged fw ip now).consume now).1 ∧
      (fw.checkRequest ip now).2.config = fw.config ∧
      (fw.checkRequest ip now).2.buckets =
        Function.update fw.buckets ip (some ((charged fw ip now).consume now).2)) := by
  unfold checkRequest
  rw [takeToken_eq]
  simp only [henabled, Bool.not_true, Bool.false_eq_true, ↓reduceIte]
  cases hblock : fw.checkBlocklist ip now with
  | some decision =>
      left
      refine ⟨?_, rfl⟩
      unfold checkBlocklist at hblock
      split at hblock
      · split at hblock
        · cases hblock
          rfl
        · cases hblock
      · cases hblock
  | none =>
      right
      dsimp only
      cases ((charged fw ip now).consume now).1 with
      | true => exact ⟨rfl, rfl, rfl⟩
      | false =>
          simp only [Bool.false_eq_true, ↓reduceIte]
          split
          · exact ⟨rfl, rfl, rfl⟩
          · split
            · exact ⟨rfl, rfl, rfl⟩
            · exact ⟨rfl, rfl, rfl⟩

theorem charged_ok {config : FirewallConfig} {fw : Firewall} (hconfig : fw.config = config) {ip : IpAddr}
    {last now : Instant} (hlast : last ≤ now) (hok : ∀ b, fw.buckets ip = some b → BucketOk config last b) :
    BucketOk config now (charged fw ip now) ∧ 0 ≤ (charged fw ip now).rate ∧
      (charged fw ip now).rate ≤ topRate config := by
  subst hconfig
  refine ⟨?_, computeEffectiveRps_nonneg _ _ _, computeEffectiveRps_le fw.config _⟩
  have hfound : BucketOk fw.config now
      ((fw.buckets ip).getD (.new fw.config.rateLimitRps fw.config.rateLimitBurst now)) := by
    cases hb : fw.buckets ip with
    | none => exact bucketOk_new fw.config now
    | some b => exact (hok b hb).later hlast
  obtain ⟨hcap, htok, hrefill⟩ := noteRequestAt_frame
    ((fw.buckets ip).getD (.new fw.config.rateLimitRps fw.config.rateLimitBurst now)) now fw.config.ewmaAlphaPct
  refine ⟨hcap.trans hfound.capacity, ?_, ?_, ?_⟩
  · exact htok ▸ hfound.nonneg
  · exact htok ▸ hfound.atMost
  · exact hrefill ▸ hfound.past

/-- The level a request finds: at most the burst, and at most what was there and what the top rate added. -/
theorem refilled_bounds {config : FirewallConfig} {now : Instant} {b : TokenBucket} (h : BucketOk config now b)
    (hrate : 0 ≤ b.rate) (htop : b.rate ≤ topRate config) :
    0 ≤ b.refilled now ∧ b.refilled now ≤ config.rateLimitBurst ∧
      b.refilled now ≤ b.tokens + topRate config * (seconds now - seconds b.lastRefill) := by
  have hpast := seconds_le h.past
  have hnonneg := h.nonneg
  have hburst : (0 : ℚ) ≤ config.rateLimitBurst := Nat.cast_nonneg _
  unfold TokenBucket.refilled
  rw [seconds_sub h.past, h.capacity]
  have hgain : 0 ≤ (seconds now - seconds b.lastRefill) * b.rate := mul_nonneg (by linarith) hrate
  refine ⟨le_min (by linarith) hburst, min_le_right _ _, (min_le_left _ _).trans ?_⟩
  have := mul_le_mul_of_nonneg_left htop (show 0 ≤ seconds now - seconds b.lastRefill by linarith)
  linarith

theorem consume_ok {config : FirewallConfig} {now : Instant} {b : TokenBucket} (h : BucketOk config now b)
    (hrate : 0 ≤ b.rate) (htop : b.rate ≤ topRate config) : BucketOk config now (b.consume now).2 := by
  obtain ⟨hcap, hlast, htaken, htok⟩ := consume_spec b now
  obtain ⟨hnonneg, hburst, -⟩ := refilled_bounds h hrate htop
  refine ⟨hcap.trans h.capacity, ?_, ?_, hlast.le⟩
  · rw [htok]
    split
    · rename_i ht
      linarith [htaken.mp ht]
    · linarith
  · rw [htok]
    split <;> linarith

/-! ## The requests paid for -/

/-- After calls up to `last`, `paid` requests of `ip` were allowed from `a` on: the bucket has paid for them out of
the burst and of what came in since, and a bucket that was dropped has been idle for long enough to pay alone. -/
structure Paid (config : FirewallConfig) (ip : IpAddr) (a : ℚ) (last : Instant) (paid : Nat) (fw : Firewall) :
    Prop where
  sameConfig : fw.config = config
  bucket : ∀ b, fw.buckets ip = some b → BucketOk config last b
  started : paid ≠ 0 → a ≤ seconds last
  covered : ∀ b, fw.buckets ip = some b → paid ≠ 0 →
    paid + b.tokens ≤ config.rateLimitBurst + topRate config * (seconds b.lastRefill - a)
  dropped : fw.buckets ip = none → paid ≠ 0 → (paid : ℚ) ≤ topRate config * (seconds last - a)

section Step

variable {config : FirewallConfig} {ip : IpAddr} {a : ℚ} {last now : Instant} {paid : Nat} {fw : Firewall}

theorem Paid.later (h : Paid config ip a last paid fw) (hnow : last ≤ now) (fw' : Firewall)
    (hconfig : fw'.config = fw.config) (hbuckets : fw'.buckets ip = fw.buckets ip) :
    Paid config ip a now paid fw' := by
  have htime := seconds_le hnow
  refine ⟨hconfig.trans h.sameConfig, fun b hb => ?_, fun hp => (h.started hp).trans htime, fun b hb => ?_,
    fun hb hp => ?_⟩
  · exact (h.bucket b (hbuckets ▸ hb)).later hnow
  · exact h.covered b (hbuckets ▸ hb)
  · have hrate := mul_le_mul_of_nonneg_left htime (topRate_nonneg config)
    have hpaid := h.dropped (hbuckets ▸ hb) hp
    rw [mul_sub] at *
    linarith

/-- A request within the window that finds a token is paid for, one that does not costs nothing. -/
theorem Paid.consume (h : Paid config ip a last paid fw) (hnow : last ≤ now) {paid' : Nat}
    (hpaid : paid' ≤ paid + if ((charged fw ip now).consume now).1 then 1 else 0)
    (hstart : paid' ≠ 0 → a ≤ seconds now) (fw' : Firewall) (hconfig : fw'.config = fw.config)
    (hbuckets : fw'.buckets ip = some ((charged fw ip now).consume now).2) :
    Paid config ip a now paid' fw' := by
  obtain ⟨hok, hrate, htop⟩ := charged_ok h.sameConfig hnow h.bucket
  obtain ⟨-, hlast, -, htok⟩ := consume_spec (charged fw ip now) now
  obtain ⟨-, hburst, hgain⟩ := refilled_bounds hok hrate htop
  have hcast : (paid' : ℚ) ≤ paid + if ((charged fw ip now).consume now).1 then 1 else 0 := by exact_mod_cast hpaid
  refine ⟨hconfig.trans h.sameConfig, fun b hb => ?_, hstart, fun b hb hp => ?_, fun hb => ?_⟩
  · rw [hbuckets, Option.some.injEq] at hb
    exact hb ▸ consume_ok hok hrate htop
  · rw [hbuckets, Option.some.injEq] at hb
    subst hb
    rw [hlast, htok]
    have htime := hstart hp
    have htotal : (paid' : ℚ) + (TokenBucket.refilled (charged fw ip now) now -
        if ((charged fw ip now).consume now).1 then 1 else 0) ≤ paid + (charged fw ip now).refilled now := by
      linarith
    apply htotal.trans ?_
    by_cases hzero : paid = 0
    · have := mul_nonneg (topRate_nonneg config) (show 0 ≤ seconds now - a by linarith)
      simp only [hzero, Nat.cast_zero]
      linarith
    · cases hb : fw.buckets ip with
      | none =>
          -- The fresh bucket is full, and the dropped one had the requests paid for without the burst.
          have hdropped := h.dropped hb hzero
          have := mul_le_mul_of_nonneg_left (seconds_le hnow) (topRate_nonneg config)
          rw [mul_sub] at *
          linarith
      | some b =>
          have hcovered := h.covered b hb hzero
          obtain ⟨-, htokens, hrefill⟩ := charged_some hb now
          rw [htokens, hrefill] at hgain
          rw [mul_sub] at *
          linarith
  · simp [hbuckets] at hb

/-- A bucket that `cleanup` drops has been idle for more than 300 seconds. -/
theorem Paid.cleanup (h : Paid config ip a last paid fw) (hnow : last ≤ now)
    (hburst : config.rateLimitBurst ≤ topRate config * dropAfter) :
    Paid config ip a now paid (fw.cleanup now) := by
  cases hb : fw.buckets ip with
  | none =>
      apply h.later hnow (fw.cleanup now) rfl
      simp [Firewall.cleanup, hb]
  | some b =>
      cases hidle : b.isIdle now (durationFromSecs 300) with
      | false =>
          apply h.later hnow (fw.cleanup now) rfl
          simp [Firewall.cleanup, hb, hidle]
      | true =>
          have hnone : (fw.cleanup now).buckets ip = none := by simp [Firewall.cleanup, hb, hidle]
          have htime := seconds_le hnow
          refine ⟨h.sameConfig, by simp [hnone], fun hp => (h.started hp).trans htime, by simp [hnone],
            fun _ hp => ?_⟩
          have hidle' : b.lastRefill + (durationFromSecs 300 + 1) ≤ now := by
            simp only [TokenBucket.isIdle, decide_eq_true_eq] at hidle
            exact Nat.add_le_of_le_sub' (h.bucket b hb |>.past.trans hnow) hidle
          have hgap := seconds_le hidle'
          rw [seconds_add] at hgap
          have hcovered := h.covered b hb hp
          have hnonneg := (h.bucket b hb).nonneg
          have hscaled := mul_le_mul_of_nonneg_left hgap (topRate_nonneg config)
          rw [mul_add] at hscaled
          change _ + topRate config * dropAfter ≤ _ at hscaled
          rw [mul_sub] at *
          linarith

/-! ## A run of calls -/

/-- One call keeps the requests paid for, those it allows in the window included. -/
theorem Paid.call (h : Paid config ip a last paid fw) (henabled : config.enabled = true)
    (hburst : config.rateLimitBurst ≤ topRate config * dropAfter) (hnow : last ≤ now) (t : ℚ) (c : Call) :
    Paid config ip a now (paid + allowedIn ip a t (fw.call now c).1) (fw.call now c).2 := by
  cases c with
  | checkRequest other =>
      have hen : fw.config.enabled = true := h.sameConfig ▸ henabled
      simp only [Firewall.call, allowedIn, List.countP_singleton]
      rcases checkRequest_cases fw other now hen with ⟨hrefused, hsame⟩ | ⟨hallowed, hconfig, hbuckets⟩
      · rw [hsame]
        simpa [hrefused] using h.later hnow fw rfl rfl
      · by_cases hip : other = ip
        · subst hip
          rw [hallowed]
          apply h.consume hnow
          · apply Nat.add_le_add_left
            by_cases htaken : ((charged fw other now).consume now).1 = true
            · rw [if_pos htaken]
              split <;> simp
            · simp [htaken]
          · intro hne
            by_cases hin : a ≤ seconds now
            · exact hin
            · exact (h.started (by simpa [hin] using hne)).trans (seconds_le hnow)
          · exact hconfig
          · rw [hbuckets, Function.update_self]
        · simp only [hip, false_and, decide_false, Bool.false_eq_true, ↓reduceIte]
          exact h.later hnow _ hconfig (by rw [hbuckets, Function.update_of_ne (Ne.symm hip)])
  | cleanup => exact h.cleanup hnow hburst
  | blockIp other duration reason => exact h.later hnow (fw.blockIp other now duration reason) rfl rfl
  | unblockIp other => exact h.later hnow (fw.unblockIp other) rfl rfl
  | onConnect other =>
      apply h.later hnow (fw.onConnect other)
      · unfold onConnect
        split <;> rfl
      · unfold onConnect
        split <;> rfl
  | onDisconnect other =>
      apply h.later hnow (fw.onDisconnect other)
      · unfold onDisconnect
        split <;> rfl
      · unfold onDisconnect
        split <;> rfl

theorem Paid.le (h : Paid config ip a last paid fw) (hpaid : paid ≠ 0) :
    (paid : ℚ) ≤ config.rateLimitBurst + topRate config * (seconds last - a) := by
  have hburst : (0 : ℚ) ≤ config.rateLimitBurst := Nat.cast_nonneg _
  cases hb : fw.buckets ip with
  | none => linarith [h.dropped hb hpaid]
  | some b =>
      have hok := h.bucket b hb
      have hcovered := h.covered b hb hpaid
      have hnonneg := hok.nonneg
      have := mul_le_mul_of_nonneg_left (seconds_le hok.past) (topRate_nonneg config)
      rw [mul_sub] at *
      linarith

theorem call_answers (fw : Firewall) (now : Instant) (c : Call) (r : Answer) (hr : r ∈ (fw.call now c).1) :
    r.instant = now := by
  cases c with
  | checkRequest other => rw [List.mem_singleton.mp hr]
  | _ => simp [Firewall.call] at hr

theorem Paid.run (h : Paid config ip a last paid fw) (henabled : config.enabled = true)
    (hburst : config.rateLimitBurst ≤ topRate config * dropAfter) {t : ℚ} {calls : List (Instant × Call)}
    (hsorted : (last :: calls.map (·.1)).Pairwise (· ≤ ·))
    (hpaid : (paid : ℚ) ≤ config.rateLimitBurst + topRate config * t) :
    ((paid + allowedIn ip a t (fw.runCalls calls).1 : Nat) : ℚ) ≤
      config.rateLimitBurst + topRate config * t := by
  induction calls generalizing last paid fw with
  | nil => simpa [runCalls, allowedIn] using hpaid
  | cons timed calls ih =>
      obtain ⟨now, c⟩ := timed
      rw [List.map_cons, List.pairwise_cons] at hsorted
      obtain ⟨hnow, hrest⟩ := hsorted
      have hnext := h.call henabled hburst (hnow now (by simp)) t c
      simp only [runCalls, allowedIn, List.countP_append, ← Nat.add_assoc]
      apply ih hnext hrest
      by_cases hcount : allowedIn ip a t (fw.call now c).1 = 0
      · rwa [hcount]
      · -- The call allowed a request in the window, so `now` is not past its end.
        obtain ⟨r, hr, hin⟩ := List.countP_pos_iff.mp (Nat.pos_of_ne_zero hcount)
        simp only [decide_eq_true_eq] at hin
        rw [call_answers fw now c r hr] at hin
        have hle := hnext.le (by omega)
        have := mul_le_mul_of_nonneg_left (show seconds now - a ≤ t by linarith [hin.2.2.2])
          (topRate_nonneg config)
        linarith

end Step

theorem paid_new (config : FirewallConfig) (ip : IpAddr) (a : ℚ) : Paid config ip a 0 0 (Firewall.new config) :=
  ⟨rfl, by simp [Firewall.new], by simp, by simp, by simp⟩

/-! ## Bursts on fresh buckets -/

/-- `k` times a whole burst, each right after a `cleanup` that finds the bucket idle. -/
def bursts (ip : IpAddr) (burst : Nat) (start : Instant) : Nat → List (Instant × Call)
  | 0 => []
  | k + 1 =>
      (start, .cleanup) :: (List.replicate burst (start, .checkRequest ip) ++
        bursts ip burst (start + (durationFromSecs 300 + 1)) k)

theorem bursts_from (ip : IpAddr) (burst k : Nat) (start : Instant) :
    (∀ now ∈ (bursts ip burst start k).map (·.1), start ≤ now) ∧
      ((bursts ip burst start k).map (·.1)).Pairwise (· ≤ ·) := by
  induction k generalizing start with
  | zero => simp [bursts]
  | succ k ih =>
      obtain ⟨hfrom, hsorted⟩ := ih (start + (durationFromSecs 300 + 1))
      have hlater : ∀ now ∈ (bursts ip burst (start + (durationFromSecs 300 + 1)) k).map (·.1), start ≤ now :=
        fun now hnow => (Nat.le_add_right _ _).trans (hfrom now hnow)
      have hall : ∀ now ∈ List.replicate burst start ++
          (bursts ip burst (start + (durationFromSecs 300 + 1)) k).map (·.1), start ≤ now := by
        intro now hnow
        rcases List.mem_append.mp hnow with hnow | hnow
        · exact (List.eq_of_mem_replicate hnow).ge
        · exact hlater now hnow
      simp only [bursts, List.map_cons, List.map_append, List.map_replicate]
      refine ⟨fun now hnow => ?_, ?_⟩
      · rcases List.mem_cons.mp hnow with rfl | hnow
        · exact le_refl _
        · exact hall now hnow
      · apply List.pairwise_cons.mpr ⟨hall, List.pairwise_append.mpr ⟨?_, hsorted, ?_⟩⟩
        · exact List.pairwise_replicate.mpr (.inr (le_refl start))
        · intro m hm now hnow
          rw [List.eq_of_mem_replicate hm]
          exact hlater now hnow

theorem runCalls_append (fw : Firewall) (calls rest : List (Instant × Call)) :
    fw.runCalls (calls ++ rest) =
      ((fw.runCalls calls).1 ++ ((fw.runCalls calls).2.runCalls rest).1, ((fw.runCalls calls).2.runCalls rest).2) := by
  induction calls generalizing fw with
  | nil => rfl
  | cons timed calls ih =>
      obtain ⟨now, c⟩ := timed
      simp only [List.cons_append, runCalls, ih, List.append_assoc]

/-- `ip` is not blocked and `left` requests at `now` still find a token. -/
structure Affords (config : FirewallConfig) (ip : IpAddr) (now : Instant) (left : Nat) (fw : Firewall) : Prop where
  sameConfig : fw.config = config
  notBlocked : fw.blocklist ip = none
  level : (charged fw ip now).refilled now = left

section Burst

variable {config : FirewallConfig} {ip : IpAddr} {now : Instant} {left : Nat} {fw : Firewall}

theorem Affords.request (h : Affords config ip now (left + 1) fw) (henabled : config.enabled = true) :
    (fw.checkRequest ip now).1 = .allow ∧ Affords config ip now left (fw.checkRequest ip now).2 ∧
      ∀ b, (fw.checkRequest ip now).2.buckets ip = some b → b.lastRefill = now := by
  obtain ⟨hcap, hlast, htaken, htok⟩ := consume_spec (charged fw ip now) now
  have hok : ((charged fw ip now).consume now).1 = true := by
    rw [htaken, h.level]
    simp
  have hblock : fw.checkBlocklist ip now = none := by simp [checkBlocklist, h.notBlocked]
  have hcheck : fw.checkRequest ip now = (.allow, { fw with
      buckets := Function.update fw.buckets ip (some ((charged fw ip now).consume now).2) }) := by
    unfold checkRequest
    rw [takeToken_eq]
    simp only [h.sameConfig, henabled, Bool.not_true, Bool.false_eq_true, ↓reduceIte, hblock, hok]
  rw [hcheck]
  refine ⟨rfl, ⟨h.sameConfig, h.notBlocked, ?_⟩, fun b hb => ?_⟩
  · -- No time passes, so the next request finds what this one left.
    obtain ⟨hcap', htok', hlast'⟩ := charged_some (show ({ fw with
        buckets := Function.update fw.buckets ip (some ((charged fw ip now).consume now).2) } : Firewall).buckets ip =
      some ((charged fw ip now).consume now).2 from Function.update_self ip _ fw.buckets) now
    have hle : ((left + 1 : Nat) : ℚ) ≤ (charged fw ip now).capacity := h.level ▸ min_le_right _ _
    push_cast at hle
    rw [if_pos hok, h.level] at htok
    rw [refilled_at_once (hlast'.trans hlast), hcap', htok', hcap, htok]
    push_cast
    rw [add_sub_cancel_right]
    exact min_eq_left (by linarith)
  · simp only [Function.update_self, Option.some.injEq] at hb
    exact hb ▸ hlast

theorem Affords.burst (h : Affords config ip now left fw) (henabled : config.enabled = true)
    (hlast : ∀ b, left = 0 → fw.buckets ip = some b → b.lastRefill = now) :
    (fw.runCalls (List.replicate left (now, .checkRequest ip))).1 = List.replicate left ⟨now, ip, .allow⟩ ∧
      Affords config ip now 0 (fw.runCalls (List.replicate left (now, .checkRequest ip))).2 ∧
      ∀ b, (fw.runCalls (List.replicate left (now, .checkRequest ip))).2.buckets ip = some b →
        b.lastRefill = now := by
  induction left generalizing fw with
  | zero => exact ⟨rfl, h, fun b => hlast b rfl⟩
  | succ left ih =>
      obtain ⟨hallow, hnext, hrefill⟩ := h.request henabled
      obtain ⟨hanswers, hend, hbuckets⟩ := ih hnext fun b _ => hrefill b
      simp only [List.replicate_succ, runCalls, call]
      refine ⟨?_, hend, hbuckets⟩
      rw [hanswers, hallow]
      rfl

/-- Each burst finds a fresh bucket and is allowed as a whole. -/
theorem runCalls_bursts (config : FirewallConfig) (ip : IpAddr) (a t : ℚ) (k : Nat) (start : Instant)
    (hconfig : fw.config = config)
    (henabled : config.enabled = true) (hpos : 0 < config.rateLimitBurst) (hfree : fw.blocklist ip = none)
    (hidle : ∀ b, fw.buckets ip = some b → b.lastRefill + (durationFromSecs 300 + 1) ≤ start)
    (ha : a ≤ seconds start) (ht : seconds start + k * dropAfter ≤ a + t + dropAfter) :
    allowedIn ip a t (fw.runCalls (bursts ip config.rateLimitBurst start k)).1 = k * config.rateLimitBurst := by
  induction k generalizing fw start with
  | zero => simp [bursts, runCalls, allowedIn]
  | succ k ih =>
      have hfresh : (fw.cleanup start).buckets ip = none := by
        cases hb : fw.buckets ip with
        | none => simp [cleanup, hb]
        | some b =>
            have hgone : b.isIdle start (durationFromSecs 300) = true := by
              simp only [TokenBucket.isIdle, decide_eq_true_eq]
              exact Nat.lt_sub_of_add_lt ((Nat.add_comm _ _).trans_lt (hidle b hb))
            simp [cleanup, hb, hgone]
      have hlevel : (charged (fw.cleanup start) ip start).refilled start = config.rateLimitBurst := by
        obtain ⟨hcap, htok, hlast⟩ := noteRequestAt_frame (.new fw.config.rateLimitRps fw.config.rateLimitBurst start)
          start fw.config.ewmaAlphaPct
        have hnow : (charged (fw.cleanup start) ip start).lastRefill = start := by
          simp only [charged, hfresh, Option.getD_none]
          exact hlast
        rw [refilled_at_once hnow]
        simp only [charged, hfresh, Option.getD_none]
        change min (TokenBucket.noteRequestAt _ _ fw.config.ewmaAlphaPct).tokens
          (TokenBucket.noteRequestAt _ _ fw.config.ewmaAlphaPct).capacity = _
        rw [show (fw.cleanup start).config = fw.config from rfl, hcap, htok]
        simp [TokenBucket.new, hconfig]
      have hafford : Affords config ip start config.rateLimitBurst (fw.cleanup start) :=
        ⟨hconfig, by simp [cleanup, hfree], hlevel⟩
      obtain ⟨hanswers, hend, hbuckets⟩ := hafford.burst henabled fun _ hzero => absurd hzero hpos.ne'
      have htail := ih (start + (durationFromSecs 300 + 1)) hend.sameConfig hend.notBlocked
        (fun b hb => (congrArg (· + (durationFromSecs 300 + 1)) (hbuckets b hb)).le)
        (ha.trans (seconds_le (Nat.le_add_right _ _))) (by
          rw [seconds_add]
          change seconds start + dropAfter + _ ≤ _
          push_cast at ht
          linarith)
      have hin : seconds start ≤ a + t := by
        have := mul_nonneg (Nat.cast_nonneg (α := ℚ) k) dropAfter_nonneg
        push_cast at ht
        linarith
      simp only [bursts, runCalls, call, runCalls_append, List.nil_append, allowedIn, List.countP_append] at htail ⊢
      rw [htail, hanswers]
      simp only [List.countP_replicate, ha, hin, FirewallDecision.isAllowed, and_self, decide_true, ↓reduceIte]
      ring

end Burst

end ThreeVa.Firewall
