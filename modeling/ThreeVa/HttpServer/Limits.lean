import ThreeVa.HttpServer.Body
import Mathlib.Algebra.Order.Monoid.Unbundled.WithTop
import Mathlib.Order.Lattice.Nat
import Mathlib.Order.WithBot

/-!
# Time limits of a request

The limits of `handle_connection` of `js/src/builtins/http_server.rs`: those of the firewall, those the application
sets on the server, and what the two give for the head and for the body. Durations and instants are in one unit.
-/

namespace ThreeVa.HttpServer

/-! ## What the application sets -/

/-- `ServerTimeouts`: 0 is not set. -/
structure ServerTimeouts where
  headersMs : Nat
  requestMs : Nat
  keepaliveMs : Nat
deriving DecidableEq

def setTimeout (ms : Nat) : Option Nat := if ms = 0 then none else some ms

def ServerTimeouts.headers (t : ServerTimeouts) : Option Nat := setTimeout t.headersMs

def ServerTimeouts.request (t : ServerTimeouts) : Option Nat := setTimeout t.requestMs

def ServerTimeouts.keepalive (t : ServerTimeouts) : Option Nat := setTimeout t.keepaliveMs

/-! ## One request -/

/-- The application tightens a limit of the firewall; `slack` is the time Node adds. -/
def tighten (limit : Nat) (app : Option Nat) (slack : Nat) : Nat :=
  match app with
  | some d => if d = 0 then limit else min limit (d + slack)
  | none => limit

def hdrLimit (hdrTimeout keepaliveTimeout : Nat) (app : ServerTimeouts) (requestsServed : Nat) : Nat :=
  if requestsServed = 0 then tighten hdrTimeout app.headers 0 else tighten keepaliveTimeout app.keepalive 1000

/-- The deadline of a request read from `now` on. -/
def requestDeadline (app : ServerTimeouts) (now : Nat) : Option Nat :=
  (app.request.filter fun d => d ≠ 0).map (now + ·)

/-- `none` where the answer is `408 Request Timeout`. -/
def hdrBudget (limit : Nat) (deadline : Option Nat) (now : Nat) : Option Nat :=
  match deadline with
  | some deadline =>
      let left := deadline - now
      if left = 0 then none else some (min limit left)
  | none => some limit

def bodyBudget (bodyTimeout : Nat) (deadline : Option Nat) (now : Nat) : Nat :=
  match deadline with
  | some deadline =>
      let left := deadline - now
      if left = 0 then 0 else min bodyTimeout left
  | none => bodyTimeout

/-- The deadline `pump_length` and `pump_chunked` set; there is none with a body timeout of zero. -/
def pumpDeadline (bodyTimeout now : Nat) : Option Nat := if bodyTimeout = 0 then none else some (now + bodyTimeout)

/-! ## Limits and their minimum -/

/-- A limit that may be off, which is `⊤`. -/
abbrev Limit := WithTop Nat

/-- A duration as the pumps read it. -/
def readLimit (d : Nat) : Limit := if d = 0 then ⊤ else d

/-- What the request timeout leaves of itself after `spent`. -/
def requestLimit (app : ServerTimeouts) (spent : Nat) : Limit :=
  if app.requestMs = 0 then ⊤ else (app.requestMs - spent : Nat)

/-- The limit of the body of a request that is read from `started` on, with `spent` gone before its body. -/
def bodyLimit (bodyTimeout : Nat) (app : ServerTimeouts) (started spent : Nat) : Limit :=
  readLimit (bodyBudget bodyTimeout (requestDeadline app started) (started + spent))

/-- The body runs under the minimum of the limits that are on. -/
structure LimitsCompose (bodyTimeout : Nat) (app : ServerTimeouts) (started spent : Nat) : Prop where
  minimum : bodyLimit bodyTimeout app started spent = min (readLimit bodyTimeout) (requestLimit app spent)
  bounded : app.requestMs ≠ 0 → bodyLimit bodyTimeout app started spent ≠ ⊤
  firewall : bodyLimit bodyTimeout app started spent ≤ readLimit bodyTimeout
  application : bodyLimit bodyTimeout app started spent ≤ requestLimit app spent

/-- No request timeout is set, or it is not over yet and the firewall has a limit of its own. -/
def LimitsApart (bodyTimeout : Nat) (app : ServerTimeouts) (spent : Nat) : Prop :=
  app.requestMs = 0 ∨ (spent < app.requestMs ∧ bodyTimeout ≠ 0)

instance (bodyTimeout : Nat) (app : ServerTimeouts) (spent : Nat) : Decidable (LimitsApart bodyTimeout app spent) :=
  inferInstanceAs (Decidable (_ ∨ _))

/-! ## Basic facts -/

theorem requestDeadline_eq (app : ServerTimeouts) (now : Nat) :
    requestDeadline app now = if app.requestMs = 0 then none else some (now + app.requestMs) := by
  unfold requestDeadline ServerTimeouts.request setTimeout
  by_cases h : app.requestMs = 0
  · simp [h]
  · simp [h, Option.filter]

/-- A pump stops where its limit ends. -/
theorem pumpDeadline_limit (bodyTimeout now : Nat) :
    pumpDeadline bodyTimeout now = WithTop.map (now + ·) (readLimit bodyTimeout) := by
  unfold pumpDeadline readLimit
  split <;> rfl

theorem readLimit_zero : readLimit 0 = ⊤ := rfl

theorem readLimit_of_ne_zero {d : Nat} (h : d ≠ 0) : readLimit d = (d : Limit) := if_neg h

theorem bodyLimit_unset {app : ServerTimeouts} (h : app.requestMs = 0) (bodyTimeout started spent : Nat) :
    bodyLimit bodyTimeout app started spent = readLimit bodyTimeout := by
  rw [bodyLimit, requestDeadline_eq, if_pos h]
  rfl

/-- With a request timeout, the budget of the body is zero once it is over or where the firewall has no limit. -/
theorem bodyBudget_set {app : ServerTimeouts} (h : app.requestMs ≠ 0) (bodyTimeout started spent : Nat) :
    bodyBudget bodyTimeout (requestDeadline app started) (started + spent) =
      min bodyTimeout (app.requestMs - spent) := by
  rw [requestDeadline_eq, if_neg h]
  have hleft : started + app.requestMs - (started + spent) = app.requestMs - spent := by omega
  simp only [bodyBudget, hleft]
  split
  · rename_i hzero
    rw [hzero, Nat.min_zero]
  · rfl

/-- The head is never read past the request deadline. -/
theorem hdrBudget_deadline {limit deadline now budget : Nat} (h : hdrBudget limit (some deadline) now = some budget) :
    budget ≤ limit ∧ now + budget ≤ deadline := by
  simp only [hdrBudget] at h
  split at h
  · cases h
  · rw [Option.some.injEq] at h
    omega

/-! ## When the limits compose -/

theorem bodyLimit_apart {bodyTimeout : Nat} {app : ServerTimeouts} {spent : Nat} (started : Nat)
    (h : LimitsApart bodyTimeout app spent) :
    bodyLimit bodyTimeout app started spent = min (readLimit bodyTimeout) (requestLimit app spent) := by
  obtain hunset | ⟨hspent, htimeout⟩ := h
  · rw [bodyLimit_unset hunset, requestLimit, if_pos hunset, min_top_right]
  · have hset : app.requestMs ≠ 0 := by omega
    have hmin : min bodyTimeout (app.requestMs - spent) ≠ 0 := by omega
    rw [bodyLimit, bodyBudget_set hset, readLimit_of_ne_zero hmin, readLimit_of_ne_zero htimeout, requestLimit,
      if_neg hset]
    exact WithTop.coe_min ..

/-- A request timeout that is over, or stands beside a limit that is off, leaves the body without any limit. -/
theorem bodyLimit_not_apart {bodyTimeout : Nat} {app : ServerTimeouts} {spent : Nat} (started : Nat)
    (h : ¬ LimitsApart bodyTimeout app spent) : app.requestMs ≠ 0 ∧ bodyLimit bodyTimeout app started spent = ⊤ := by
  simp only [LimitsApart, not_or, not_and_or, not_lt, not_not] at h
  obtain ⟨hset, hgone⟩ := h
  have hmin : min bodyTimeout (app.requestMs - spent) = 0 := by omega
  exact ⟨hset, by rw [bodyLimit, bodyBudget_set hset, hmin, readLimit_zero]⟩

theorem limitsCompose_apart {bodyTimeout : Nat} {app : ServerTimeouts} {spent : Nat} (started : Nat)
    (h : LimitsApart bodyTimeout app spent) : LimitsCompose bodyTimeout app started spent := by
  have hmin := bodyLimit_apart started h
  refine ⟨hmin, fun hset hoff => ?_, hmin ▸ min_le_left _ _, hmin ▸ min_le_right _ _⟩
  have hle : bodyLimit bodyTimeout app started spent ≤ requestLimit app spent := hmin ▸ min_le_right _ _
  rw [hoff, requestLimit, if_neg hset, top_le_iff] at hle
  exact WithTop.coe_ne_top hle

end ThreeVa.HttpServer
