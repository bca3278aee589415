import ThreeVa.Lib.Lines

/-!
# Package names

The names of packages in the registry, plain ones and ones in a scope.
-/

namespace ThreeVa.Locks
open Text

def isNameChar (c : Char) : Bool := c.isAlphanum || c ∈ ['-', '_', '.', '~', '!', '*']

/-- A part of a name. -/
structure NamePart where
  text : Str
  ne : text ≠ []
  chars : ∀ c ∈ text, isNameChar c

/-- `base` or `@scope/base` -/
structure PackageName where
  scope : Option NamePart
  base : NamePart

namespace PackageName

def text (name : PackageName) : Str :=
  match name.scope with
  | none => name.base.text
  | some scope => '@' :: scope.text ++ '/' :: name.base.text

end PackageName

/-! ## The characters of a name -/

theorem isNameChar_printable {c : Char} (h : isNameChar c) : 33 ≤ c.toNat ∧ c.toNat ≤ 126 := by
  simp only [isNameChar, Bool.or_eq_true, decide_eq_true_eq, List.mem_cons, List.not_mem_nil, or_false] at h
  rcases h with h | rfl | rfl | rfl | rfl | rfl | rfl
  · exact isAlphanum_printable h
  all_goals decide

theorem NamePart.not_mem (part : NamePart) {c : Char} (h : isNameChar c = false) : c ∉ part.text := by
  intro hmem
  rw [part.chars c hmem] at h
  cases h

namespace PackageName

variable {name : PackageName} {c : Char}

theorem mem_text (h : c ∈ name.text) : isNameChar c ∨ c = '@' ∨ c = '/' := by
  unfold text at h
  split at h
  · exact .inl (name.base.chars c h)
  · rename_i scope _
    rcases List.mem_cons.mp h with rfl | h
    · exact .inr (.inl rfl)
    · rcases List.mem_append.mp h with h | h
      · exact .inl (scope.chars c h)
      · rcases List.mem_cons.mp h with rfl | h
        · exact .inr (.inr rfl)
        · exact .inl (name.base.chars c h)

theorem printable (h : c ∈ name.text) : 33 ≤ c.toNat ∧ c.toNat ≤ 126 := by
  rcases mem_text h with h | rfl | rfl
  · exact isNameChar_printable h
  · decide
  · decide

theorem printable_text (name : PackageName) : Printable name.text := fun _ h => Nat.le_of_succ_le (printable h).1

theorem not_mem_text (hname : isNameChar c = false) (hat : c ≠ '@') (hslash : c ≠ '/') : c ∉ name.text := by
  intro h
  rcases mem_text h with h | h | h
  · rw [hname] at h
    cases h
  · exact hat h
  · exact hslash h

theorem text_ne_nil : name.text ≠ [] := by
  unfold text
  split
  · exact name.base.ne
  · simp

end PackageName

end ThreeVa.Locks
