import ThreeVa.Lib.Passes
import ThreeVa.Lib.Text

/-!
# The text passes of the transpiler

`strip_flow`, and the rewriting of dynamic imports in `transpile_to_cjs_with_path`. Both walk over the bytes of a text; a
recognised construct is passed over, any other byte is pushed as a character.
-/

namespace ThreeVa.Js
open Text

def bytesOf (s : String) : Bytes := s.toList.map byteOf

def asciiLowerByte (b : UInt8) : UInt8 := if 65 ≤ b.toNat ∧ b.toNat ≤ 90 then b + 32 else b

/-- `eq_ignore_ascii_case` of byte slices: slices of different lengths differ. -/
def eqIgnoreAsciiCaseBytes (a b : Bytes) : Bool := a.map asciiLowerByte = b.map asciiLowerByte

/-! ## Flow -/

/-- How many bytes there are before the end of the line. -/
def toLineEnd (rest : Bytes) : Nat := (rest.takeWhile (· ≠ byteOf '\n')).length

/-- How many bytes there are up to the end of the statement, with its semicolon. -/
def toStatementEnd (rest : Bytes) : Nat :=
  let n := (rest.takeWhile fun b => b ≠ byteOf ';' && b ≠ byteOf '\n').length
  if rest[n]? = some (byteOf ';') then n + 1 else n

/-- The branches of `strip_flow`; the second and the fourth compare slices of different lengths. -/
def flowConstruct : Finder := fun _ rest =>
  if rest.head? = some (byteOf '@') ∧ 4 < rest.length ∧ rest.take 5 = bytesOf "@flow" then some (toLineEnd rest, [])
  else if rest.head? = some (byteOf '@') ∧ 7 < rest.length ∧ rest.take 8 = bytesOf "@format" then
    some (toLineEnd rest, [])
  else if 14 < rest.length ∧ eqIgnoreAsciiCaseBytes (rest.take 14) (bytesOf "import typeof ") then
    some (toStatementEnd rest, [])
  else if 11 < rest.length ∧ eqIgnoreAsciiCaseBytes (rest.take 12) (bytesOf "import type \x7b") then
    some (toStatementEnd rest, [])
  else if 11 < rest.length ∧ eqIgnoreAsciiCaseBytes (rest.take 12) (bytesOf "import type ") then
    some (toStatementEnd rest, [])
  else none

def stripFlow (source : Str) : Str := runPass flowConstruct none 0 (encodeUtf8 source)

def flowPieces (source : Str) : List Piece := pieces flowConstruct none 0 (encodeUtf8 source)

/-! ## Dynamic imports -/

/-- A byte after which `import` is the end of a longer name, or a property. -/
def isNameByte (b : UInt8) : Bool :=
  (48 ≤ b.toNat && b.toNat ≤ 57) || (65 ≤ b.toNat && b.toNat ≤ 90) || (97 ≤ b.toNat && b.toNat ≤ 122) ||
    b = byteOf '_' || b = byteOf '$' || b = byteOf '.'

/-- What comes after the parenthesis that closes the open ones; nothing if they are not closed. -/
def afterParens : Nat → Bytes → Option Bytes
  | 0, rest => some rest
  | _ + 1, [] => none
  | depth + 1, b :: rest =>
      if b = byteOf '(' then afterParens (depth + 2) rest
      else if b = byteOf ')' then afterParens depth rest
      else afterParens (depth + 1) rest

/-- `import(params) {` is a method of that name. -/
def isMethod (params : Bytes) : Bool :=
  match afterParens 1 params with
  | some k =>
      (k.dropWhile fun b => b = byteOf ' ' || b = byteOf '\t' || b = byteOf '\n' || b = byteOf '\r').head? =
        some (byteOf '\x7b')
  | none => false

/-- The head of a call, up to its parenthesis. -/
def importHead : Finder := fun before rest =>
  if rest.head? = some (byteOf 'i') ∧ 7 ≤ rest.length ∧ rest.take 6 = bytesOf "import" then
    let beforeOk := before.all fun b => !isNameByte b
    let blanks := ((rest.drop 6).takeWhile fun b => b = byteOf ' ' || b = byteOf '\t').length
    match rest.drop (6 + blanks) with
    | b :: params =>
        if beforeOk ∧ b = byteOf '(' ∧ isMethod params = false then some (6 + blanks, "__importAsync".toList) else none
    | [] => none
  else none

def rewriteImports (out : Str) : Str :=
  if "import(".toList <:+: out then runPass importHead none 0 (encodeUtf8 out) else out

/-- A text without `import(` is left alone. -/
def importPieces (out : Str) : List Piece :=
  if "import(".toList <:+: out then pieces importHead none 0 (encodeUtf8 out) else (encodeUtf8 out).map Piece.kept

/-! ## A construct has a byte -/

theorem toLineEnd_pos {rest : Bytes} (h : rest.head? = some (byteOf '@')) : 0 < toLineEnd rest := by
  obtain ⟨tail, rfl⟩ := List.head?_eq_some_iff.mp h
  rw [toLineEnd, List.takeWhile_cons_of_pos (by decide), List.length_cons]
  exact Nat.succ_pos _

/-- A statement that begins with a letter, in either case. -/
theorem toStatementEnd_pos {rest : Bytes} {n : Nat} {keyword : Bytes} (hlength : n < rest.length)
    (heq : eqIgnoreAsciiCaseBytes (rest.take (n + 1)) (byteOf 'i' :: keyword) = true) : 0 < toStatementEnd rest := by
  cases rest with
  | nil => simp at hlength
  | cons b rest =>
      have hb : asciiLowerByte b = byteOf 'i' := by
        simp only [eqIgnoreAsciiCaseBytes, List.take_succ_cons, List.map_cons, decide_eq_true_eq, List.cons.injEq] at heq
        rw [heq.1]
        decide
      have hstop : b ≠ byteOf ';' ∧ b ≠ byteOf '\n' := by
        constructor <;> rintro rfl <;> exact absurd hb (by decide)
      have hfirst : 0 < ((b :: rest).takeWhile fun b => b ≠ byteOf ';' && b ≠ byteOf '\n').length := by
        rw [List.takeWhile_cons_of_pos (by simp [hstop])]
        exact Nat.succ_pos _
      simp only [toStatementEnd]
      split
      · exact Nat.succ_pos _
      · exact hfirst

theorem flowConstruct_pos (before : Option UInt8) (bs : Bytes) (n : Nat) (written : Str)
    (h : flowConstruct before bs = some (n, written)) : 0 < n := by
  unfold flowConstruct at h
  split at h
  · rename_i hflow
    cases h
    exact toLineEnd_pos hflow.1
  · split at h
    · rename_i hformat
      cases h
      exact toLineEnd_pos hformat.1
    · split at h
      · rename_i himport
        cases h
        exact toStatementEnd_pos (by omega) himport.2
      · split at h
        · rename_i himport
          cases h
          exact toStatementEnd_pos himport.1 himport.2
        · split at h
          · rename_i himport
            cases h
            exact toStatementEnd_pos himport.1 himport.2
          · cases h

theorem importHead_pos (before : Option UInt8) (bs : Bytes) (n : Nat) (written : Str)
    (h : importHead before bs = some (n, written)) : 0 < n := by
  unfold importHead at h
  split at h
  · simp only at h
    split at h
    · split at h
      · cases h
        omega
      · cases h
    · cases h
  · cases h

/-! ## The pieces are the text -/

theorem flowPieces_source (source : Str) : (flowPieces source).flatMap Piece.source = encodeUtf8 source :=
  pieces_source flowConstruct_pos none 0 (encodeUtf8 source)

theorem flatMap_kept_source (bs : Bytes) : (bs.map Piece.kept).flatMap Piece.source = bs := by
  rw [List.flatMap_map]
  exact List.flatMap_singleton' bs

theorem flatMap_kept_wanted (bs : Bytes) : (bs.map Piece.kept).flatMap Piece.wanted = bs := by
  rw [List.flatMap_map]
  exact List.flatMap_singleton' bs

theorem importPieces_source (out : Str) : (importPieces out).flatMap Piece.source = encodeUtf8 out := by
  unfold importPieces
  split
  · exact pieces_source importHead_pos none 0 (encodeUtf8 out)
  · exact flatMap_kept_source _

end ThreeVa.Js
