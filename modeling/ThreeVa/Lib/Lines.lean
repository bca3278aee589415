import ThreeVa.Lib.Trim

/-!
# Lines of a text

`str::lines`: a line ends at a line feed, which takes a carriage return before it along. The last line needs no line feed
and keeps its carriage return.
-/

namespace Text

/-! ## Joined texts -/

section Join

variable {α : Type}

theorem mem_intercalate_list {sep : List α} {c : α} {ls : List (List α)} (h : c ∈ sep.intercalate ls) :
    c ∈ sep ∨ ∃ l ∈ ls, c ∈ l := by
  induction ls with
  | nil => simp at h
  | cons l ls ih =>
      cases ls with
      | nil =>
          rw [List.intercalate_singleton] at h
          exact .inr ⟨l, List.mem_cons_self, h⟩
      | cons l' ls =>
          rw [List.intercalate_cons_cons, List.mem_append, List.mem_append] at h
          rcases h with (h | h) | h
          · exact .inr ⟨l, List.mem_cons_self, h⟩
          · exact .inl h
          · exact (ih h).imp_right fun ⟨x, hx, hc⟩ => ⟨x, List.mem_cons_of_mem _ hx, hc⟩

theorem mem_intercalate {sep c : α} {ls : List (List α)} (h : c ∈ [sep].intercalate ls) : c = sep ∨ ∃ l ∈ ls, c ∈ l :=
  (mem_intercalate_list h).imp_left List.mem_singleton.mp

theorem intercalate_concat {sep : α} (l l' : List α) (ls : List (List α)) :
    [sep].intercalate (l :: (ls ++ [l'])) = [sep].intercalate (l :: ls) ++ sep :: l' := by
  induction ls generalizing l with
  | nil => simp
  | cons x ls ih =>
      rw [List.cons_append, List.intercalate_cons_cons, List.intercalate_cons_cons, ih x]
      simp

/-- What is appended to the last piece is appended to the text. -/
theorem intercalate_concat_append (sep : α) (ls : List (List α)) (l rest : List α) :
    [sep].intercalate (ls ++ [l ++ rest]) = [sep].intercalate (ls ++ [l]) ++ rest := by
  induction ls with
  | nil => simp
  | cons a ls ih =>
      rw [List.cons_append, List.cons_append, List.intercalate_cons_of_ne_nil (by simp),
        List.intercalate_cons_of_ne_nil (by simp), ih]
      simp

end Join

/-! ## Lines -/

def stripCr (line : Str) : Str := if line.getLast? = some '\r' then line.dropLast else line

def lines (s : Str) : List Str :=
  let parts := s.splitOn '\n'
  parts.dropLast.map stripCr ++ (parts.getLast?.filter fun line => !line.isEmpty).toList

/-- `join("\n")` -/
def joinLines (ls : List Str) : Str := ['\n'].intercalate ls

theorem stripCr_of_not_mem {line : Str} (h : '\r' ∉ line) : stripCr line = line := by
  unfold stripCr
  rw [if_neg]
  exact fun hlast => h (List.mem_of_getLast? hlast)

theorem stripCr_append_cr (line : Str) : stripCr (line ++ ['\r']) = line := by simp [stripCr]

theorem lines_joinLines {ls : List Str} (hls : ∀ l ∈ ls, '\n' ∉ l ∧ l ≠ []) :
    lines (joinLines ls) = ls.dropLast.map stripCr ++ ls.getLast?.toList := by
  cases ls with
  | nil => rfl
  | cons l ls =>
      unfold lines joinLines
      rw [List.splitOn_intercalate '\n' (fun x hx => (hls x hx).1) (by simp)]
      have hlast : (l :: ls).getLast? = some ((l :: ls).getLast (by simp)) := List.getLast?_eq_some_getLast _
      have hne : (l :: ls).getLast (by simp) ≠ [] := (hls _ (List.getLast_mem _)).2
      simp only [hlast]
      generalize (l :: ls).getLast _ = last at hne
      cases last with
      | nil => exact absurd rfl hne
      | cons c last => rfl

/-- Lines that each end with a line feed. -/
def writeLines (ls : List Str) : Str := ls.flatMap fun l => l ++ ['\n']

/-- Splitting a text is splitting a first part, and the rest after the last piece of it. -/
theorem splitOn_append {α : Type} [DecidableEq α] (s t : List α) (c : α) :
    (s ++ t).splitOn c = (s.splitOn c).dropLast ++ ((s.splitOn c).getLastD [] ++ t).splitOn c := by
  induction s with
  | nil => rfl
  | cons x s ih =>
      have hne := List.splitOn_ne_nil c s
      rw [List.cons_append, List.splitOn_cons_eq_if_modifyHead, List.splitOn_cons_eq_if_modifyHead, ih]
      split
      · rw [List.dropLast_cons_of_ne_nil hne, List.getLastD_cons, List.cons_append]
      · rename_i hx
        cases hs : s.splitOn c with
        | nil => exact absurd hs hne
        | cons piece pieces =>
            cases pieces with
            | nil =>
                show List.modifyHead (List.cons x) ([] ++ (piece ++ t).splitOn c) = [] ++ (x :: piece ++ t).splitOn c
                rw [List.nil_append, List.nil_append, List.cons_append, List.splitOn_cons_eq_if_modifyHead, if_neg hx]
            | cons piece' pieces => rfl

theorem splitOn_writeLines {ls : List Str} (h : ∀ l ∈ ls, '\n' ∉ l) : (writeLines ls).splitOn '\n' = ls ++ [[]] := by
  induction ls with
  | nil => rfl
  | cons l ls ih =>
      rw [writeLines, List.flatMap_cons, List.append_assoc, List.singleton_append,
        List.splitOn_append_cons_self_of_not_mem (h l List.mem_cons_self), List.cons_append, List.cons.injEq]
      exact ⟨rfl, ih fun x hx => h x (List.mem_cons_of_mem _ hx)⟩

/-! ## Texts without control characters -/

def Printable (s : Str) : Prop := ∀ c ∈ s, 32 ≤ c.toNat

section Printable

variable {s t : Str}

theorem printable_of_all (h : (s.all fun c => 32 ≤ c.toNat) = true) : Printable s := by
  simp only [List.all_eq_true, decide_eq_true_eq] at h
  exact h

theorem Printable.append (hs : Printable s) (ht : Printable t) : Printable (s ++ t) := by
  intro c hc
  rcases List.mem_append.mp hc with h | h
  · exact hs c h
  · exact ht c h

theorem Printable.cons {c : Char} (hc : 32 ≤ c.toNat) (hs : Printable s) : Printable (c :: s) := by
  intro d hd
  rcases List.mem_cons.mp hd with rfl | h
  · exact hc
  · exact hs d h

theorem Printable.indented (n : Nat) (hs : Printable s) : Printable (indented n s) := by
  refine .append (fun c hc => ?_) hs
  rw [List.eq_of_mem_replicate hc]
  decide

theorem Printable.intercalate {sep : Str} {ls : List Str} (hsep : Printable sep) (hls : ∀ l ∈ ls, Printable l) :
    Printable (sep.intercalate ls) := by
  intro c hc
  rcases mem_intercalate_list hc with h | ⟨l, hl, h⟩
  · exact hsep c h
  · exact hls l hl c h

theorem Printable.breaks (h : Printable s) : '\n' ∉ s ∧ '\r' ∉ s :=
  ⟨fun hc => absurd (h _ hc) (by decide), fun hc => absurd (h _ hc) (by decide)⟩

end Printable

theorem lines_writeLines {ls : List Str} (h : ∀ l ∈ ls, '\n' ∉ l ∧ '\r' ∉ l) : lines (writeLines ls) = ls := by
  have hcr : ls.map stripCr = ls := by
    conv_rhs => rw [← List.map_id ls]
    exact List.map_congr_left fun l hl => stripCr_of_not_mem (h l hl).2
  unfold lines
  rw [splitOn_writeLines fun l hl => (h l hl).1]
  simp [hcr]

end Text
