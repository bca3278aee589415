import Mathlib.Data.List.Basic

/-!
# Decoding what comes in parts

Of what has come a decoder decodes a beginning, and holds back the rest until more comes.
-/

namespace HeldBack

variable {α β : Type}

/-- What is held back after some parts, and what was decoded: `cut` is how much is decoded at once. -/
def run (cut : List α → Nat) (decode : List α → List β) (held : List α) : List (List α) → List α × List β
  | [] => (held, [])
  | part :: parts =>
      let all := held ++ part
      let after := run cut decode (all.drop (cut all)) parts
      (after.1, decode (all.take (cut all)) ++ after.2)

/-- Inputs that may be cut there: they are decoded as the beginning and the rest are, and the rest may be cut again. -/
structure Cuts (cut : List α → Nat) (decode : List α → List β) (good : List α → Prop) : Prop where
  split : ∀ x y, good (x ++ y) → decode (x.take (cut x)) ++ decode (x.drop (cut x) ++ y) = decode (x ++ y)
  rest : ∀ x y, good (x ++ y) → good (x.drop (cut x) ++ y)

variable {cut : List α → Nat} {decode : List α → List β} {good : List α → Prop}

/-- What was decoded, and what is decoded of the bytes that are held back and of those to come, is what is decoded of all. -/
theorem run_decode (h : Cuts cut decode good) {held more : List α} {parts : List (List α)}
    (hgood : good (held ++ parts.flatten ++ more)) :
    (run cut decode held parts).2 ++ decode ((run cut decode held parts).1 ++ more) =
      decode (held ++ parts.flatten ++ more) := by
  induction parts generalizing held with
  | nil => simp [run]
  | cons part parts ih =>
      have hassoc : held ++ (part :: parts).flatten ++ more = (held ++ part) ++ (parts.flatten ++ more) := by
        simp [List.append_assoc]
      rw [hassoc] at hgood ⊢
      have hnext := ih (by rw [List.append_assoc]; exact h.rest _ _ hgood)
      rw [run, List.append_assoc, hnext, List.append_assoc, h.split _ _ hgood]

theorem run_good (h : Cuts cut decode good) {held more : List α} {parts : List (List α)}
    (hgood : good (held ++ parts.flatten ++ more)) : good ((run cut decode held parts).1 ++ more) := by
  induction parts generalizing held with
  | nil => simpa [run] using hgood
  | cons part parts ih =>
      have hassoc : held ++ (part :: parts).flatten ++ more = (held ++ part) ++ (parts.flatten ++ more) := by
        simp [List.append_assoc]
      rw [hassoc] at hgood
      exact ih (by rw [List.append_assoc]; exact h.rest _ _ hgood)

/-- What holds of the decoder if `p` does is enough where `p` is asked of the input. -/
theorem Cuts.of_const {p : Prop} (h : p → Cuts cut decode fun _ => True) : Cuts cut decode fun _ => p where
  split x y hp := (h hp).split x y trivial
  rest _ _ hp := hp

theorem Cuts.const (h : Cuts cut decode fun _ => True) (p : Prop) : Cuts cut decode fun _ => p := .of_const fun _ => h

/-- A decoder that decodes each item by itself may cut anywhere. -/
theorem cuts_flatMap (cut : List α → Nat) (f : α → List β) : Cuts cut (List.flatMap f) fun _ => True where
  split x y _ := by rw [← List.flatMap_append, ← List.append_assoc, List.take_append_drop]
  rest _ _ _ := trivial

end HeldBack
