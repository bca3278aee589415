import ThreeVa.Firewall.State

/-! The walk over the `X-Forwarded-For` entries. -/

namespace ThreeVa.Firewall
open Text

variable {trusted : List ProxyRule}

theorem firstUntrusted_append {s : List Str} (h : ∀ e ∈ s, TrustedEntry trusted e) (rest : List Str) :
    firstUntrusted trusted (s ++ rest) = firstUntrusted trusted rest := by
  induction s with
  | nil => rfl
  | cons e s ih =>
      obtain ⟨a, hparse, htrusted⟩ := h e (by simp)
      rw [List.cons_append, firstUntrusted, hparse]
      dsimp only
      rw [if_pos htrusted]
      exact ih fun x hx => h x (by simp [hx])

/-- It stops at the first entry that is not one: with that address, or with nothing when it is malformed. -/
theorem firstUntrusted_stop {e : Str} (h : ¬ TrustedEntry trusted e) (rest : List Str) :
    firstUntrusted trusted (e :: rest) = parseIp e := by
  rw [firstUntrusted]
  cases hparse : parseIp e with
  | none => rfl
  | some a =>
      dsimp only
      rw [if_neg fun htrusted => h ⟨a, hparse, htrusted⟩]

theorem firstUntrusted_all {s : List Str} (h : ∀ e ∈ s, TrustedEntry trusted e) :
    firstUntrusted trusted s = none := by
  simpa [firstUntrusted] using firstUntrusted_append h []

section Resolve

variable {peer : IpAddr} {xff : Str}

theorem resolveForwardedFor_hop (hpeer : trustedBy trusted peer = true) {left s : List Str} {e : Str}
    (hentries : xffEntries xff = left ++ e :: s) (hs : ∀ x ∈ s, TrustedEntry trusted x)
    (he : ¬ TrustedEntry trusted e) :
    resolveForwardedFor peer xff trusted = (parseIp e).or ((xffEntries xff).head?.bind parseIp) := by
  have hrev : (xffEntries xff).reverse = s.reverse ++ e :: left.reverse := by simp [hentries]
  have hwalk : firstUntrusted trusted (xffEntries xff).reverse = parseIp e := by
    rw [hrev, firstUntrusted_append (by simpa using hs), firstUntrusted_stop he]
  rw [resolveForwardedFor, if_pos hpeer, hwalk]
  cases parseIp e <;> rfl

theorem resolveForwardedFor_all_trusted (hpeer : trustedBy trusted peer = true)
    (hs : ∀ x ∈ xffEntries xff, TrustedEntry trusted x) :
    resolveForwardedFor peer xff trusted = (xffEntries xff).head?.bind parseIp := by
  rw [resolveForwardedFor, if_pos hpeer, firstUntrusted_all (by simpa using hs)]

end Resolve

/-- Every header splits at its last entry that is not a trusted hop. -/
theorem exists_last_untrusted (entries : List Str) :
    (∀ x ∈ entries, TrustedEntry trusted x) ∨
      ∃ left e s, entries = left ++ e :: s ∧ (∀ x ∈ s, TrustedEntry trusted x) ∧ ¬ TrustedEntry trusted e := by
  induction entries with
  | nil => exact .inl (by simp)
  | cons x rest ih =>
      rcases ih with hall | ⟨left, e, s, rfl, hs, he⟩
      · by_cases hx : TrustedEntry trusted x
        · exact .inl (by simpa using ⟨hx, hall⟩)
        · exact .inr ⟨[], x, rest, rfl, hall, hx⟩
      · exact .inr ⟨x :: left, e, s, rfl, hs, he⟩

end ThreeVa.Firewall
