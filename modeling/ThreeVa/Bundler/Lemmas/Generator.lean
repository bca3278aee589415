import ThreeVa.Bundler.Generator

/-! Numbers in base 64 VLQ, the pieces of a bundle, and the lines that its mappings are read to. -/

namespace ThreeVa.Bundler
open Text SourceMap

/-! ## VLQ -/

theorem decodeDigits_symbol_last {d : Nat} (h : d < 32) (rest : Str) :
    decodeDigits (base64Symbol d :: rest) = some (d, rest) := by
  have hvalue : base64Value (base64Symbol d) = some d := by rw [base64Value_symbol, Nat.mod_eq_of_lt (by omega)]
  simp [decodeDigits, hvalue, h]

theorem decodeDigits_symbol_more {d n : Nat} (h : d < 32) {s rest : Str} (hs : decodeDigits s = some (n, rest)) :
    decodeDigits (base64Symbol (d + 32) :: s) = some (d + 32 * n, rest) := by
  have hvalue : base64Value (base64Symbol (d + 32)) = some (d + 32) := by
    rw [base64Value_symbol, Nat.mod_eq_of_lt (by omega)]
  simp [decodeDigits, hvalue, hs]

/-- The digits of a number that is not negative are read back. -/
theorem vlqLoop_decodes {fuel : Nat} {n : Int} (hn : 0 ≤ n) (hlt : n < 32 ^ (fuel + 1)) :
    ∃ s, vlqLoop (fuel + 1) n = some s ∧ ∀ rest, decodeDigits (s ++ rest) = some (n.toNat, rest) := by
  induction fuel generalizing n with
  | zero =>
      have hlt : n < 32 := hlt
      have hdigit : (n % 32).toNat = n.toNat := by omega
      refine ⟨[base64Symbol n.toNat], by simp [vlqLoop, show n / 32 = 0 by omega, hdigit], fun rest => ?_⟩
      exact decodeDigits_symbol_last (by omega) rest
  | succ fuel ih =>
      unfold vlqLoop
      by_cases hzero : n / 32 = 0
      · have hdigit : (n % 32).toNat = n.toNat := by omega
        refine ⟨[base64Symbol n.toNat], by simp [hzero, hdigit], fun rest => ?_⟩
        exact decodeDigits_symbol_last (by omega) rest
      · have hpos : 0 < n / 32 := by omega
        obtain ⟨s, hloop, hs⟩ := ih (le_of_lt hpos) (by rw [Int.pow_succ] at hlt; omega)
        have hdigit : (n % 32 + 32).toNat = (n % 32).toNat + 32 := by omega
        have hnumber : (n % 32).toNat + 32 * (n / 32).toNat = n.toNat := by omega
        refine ⟨base64Symbol ((n % 32).toNat + 32) :: s, by simp [hzero, hpos, hloop, hdigit], fun rest => ?_⟩
        rw [List.cons_append, decodeDigits_symbol_more (by omega) (hs rest), hnumber]

/-- A negative number stays negative under the shift, so the loop does not end. -/
theorem vlqLoop_of_neg (fuel : Nat) {n : Int} (hn : n < 0) : vlqLoop fuel n = none := by
  induction fuel generalizing n with
  | zero => rfl
  | succ fuel ih =>
      unfold vlqLoop
      have hneg : n / 32 < 0 := by omega
      simp [show n / 32 ≠ 0 by omega, ih hneg]

def zigzag (n : Int) : Int := 2 * n.natAbs + if n < 0 then 1 else 0

theorem signed_zigzag (n : Int) : signed (zigzag n).toNat = n := by
  unfold signed zigzag
  by_cases hneg : n < 0
  · simp only [hneg, ↓reduceIte]
    rw [if_pos (by omega)]
    omega
  · simp only [hneg, ↓reduceIte]
    rw [if_neg (by omega)]
    omega

theorem wrapI64_of_small {n : Int} (h : -2 ^ 63 ≤ n) (h' : n < 2 ^ 63) : wrapI64 n = n := by
  unfold wrapI64
  rw [Int.bmod_eq_of_le] <;> omega

/-- Read by a standard decoder, an encoded number is the number exactly where doubling it does not overflow. -/
theorem vlqEncodeValue_decodes_iff (v : Int64) :
    (∃ s, vlqEncodeValue v = some s ∧ decodeVlq s = some (v.toInt, [])) ↔ -2 ^ 62 < v.toInt ∧ v.toInt < 2 ^ 62 := by
  have hlow := v.le_toInt
  have hhigh := v.toInt_lt
  constructor
  · rintro ⟨s, hencode, hdecode⟩
    by_contra hout
    unfold vlqEncodeValue at hencode
    by_cases hmin : v.toInt = -2 ^ 63
    · -- the magnitude of the least number is doubled to zero
      have hone : s = ['B'] := by
        rw [hmin] at hencode
        have hloop : vlqLoop 13 (wrapI64 (2 * wrapI64 (-2 ^ 63 : Int).natAbs) + 1) = some ['B'] := by decide +kernel
        have hencode : vlqLoop 13 (wrapI64 (2 * wrapI64 (-2 ^ 63 : Int).natAbs) + 1) = some s := hencode
        rw [hloop] at hencode
        exact (Option.some.inj hencode).symm
      rw [hone, hmin] at hdecode
      exact absurd hdecode (by decide +kernel)
    · have hinner : wrapI64 v.toInt.natAbs = v.toInt.natAbs := wrapI64_of_small (by omega) (by omega)
      have houter : wrapI64 (2 * (v.toInt.natAbs : Int)) = 2 * v.toInt.natAbs - 2 ^ 64 := by
        unfold wrapI64
        rw [Int.bmod_def]
        omega
      have hneg : wrapI64 (2 * wrapI64 v.toInt.natAbs) + (if v.toInt < 0 then 1 else 0) < 0 := by
        rw [hinner, houter]
        split <;> omega
      rw [vlqLoop_of_neg 13 hneg] at hencode
      cases hencode
  · rintro ⟨hgt, hlt⟩
    have hwrap : wrapI64 (2 * wrapI64 v.toInt.natAbs) + (if v.toInt < 0 then 1 else 0) = zigzag v.toInt := by
      rw [wrapI64_of_small (n := v.toInt.natAbs) (by omega) (by omega), wrapI64_of_small (by omega) (by omega)]
      rfl
    have hnonneg : 0 ≤ zigzag v.toInt := by unfold zigzag; split <;> omega
    have hbound : zigzag v.toInt < 32 ^ 13 := by unfold zigzag; split <;> omega
    obtain ⟨s, hloop, hs⟩ := vlqLoop_decodes hnonneg hbound
    refine ⟨s, by rw [vlqEncodeValue, hwrap]; exact hloop, ?_⟩
    have hdecode := hs []
    rw [List.append_nil] at hdecode
    rw [decodeVlq, hdecode]
    simp [signed_zigzag]

/-! ## Segments -/

def sameLine : Str := ['A', 'A', 'A', 'A']

def nextLine : Str := ['A', 'A', 'C', 'A']

def nextSource : Str := ['A', 'C', 'A', 'A']

/-- The three segments as they are written and read. -/
theorem segments_written :
    (encodeVlqSegment 0 0 0 0 = some sameLine ∧ decodeNumbers sameLine = some [0, 0, 0, 0]) ∧
      (encodeVlqSegment 0 0 1 0 = some nextLine ∧ decodeNumbers nextLine = some [0, 0, 1, 0]) ∧
      (encodeVlqSegment 0 1 0 0 = some nextSource ∧ decodeNumbers nextSource = some [0, 1, 0, 0]) := by decide +kernel

theorem encode_sameLine : encodeVlqSegment 0 0 0 0 = some sameLine := segments_written.1.1

theorem encode_nextLine : encodeVlqSegment 0 0 1 0 = some nextLine := segments_written.2.1.1

theorem encode_nextSource : encodeVlqSegment 0 1 0 0 = some nextSource := segments_written.2.2.1

theorem decodeLine_sameLine (f : Fields) : decodeLine f sameLine = some ([⟨0, some (f.source, f.line)⟩], f) := by
  simp [decodeLine_single (by decide) (by decide) segments_written.1.2]

theorem decodeLine_nextLine (f : Fields) :
    decodeLine f nextLine = some ([⟨0, some (f.source, f.line + 1)⟩], { f with line := f.line + 1 }) := by
  simp [decodeLine_single (by decide) (by decide) segments_written.2.1.2]

theorem decodeLine_nextSource (f : Fields) :
    (decodeLine f nextSource).map Prod.fst = some [⟨0, some (f.source + 1, f.line)⟩] := by
  simp [decodeLine_single (by decide) (by decide) segments_written.2.2.2]

/-! ## Mappings -/

theorem mapM_of_some {α β : Type} {f : α → Option β} {g : α → β} {l : List α} (h : ∀ a ∈ l, f a = some (g a)) :
    l.mapM f = some (l.map g) := by
  induction l with
  | nil => rfl
  | cons a l ih =>
      rw [List.mapM_cons, h a List.mem_cons_self, ih fun b hb => h b (List.mem_cons_of_mem _ hb)]
      rfl

/-- The first segment of a module moves on by its place among the sources, the others by a line. -/
theorem moduleMappings_eq (srcIdx : Nat) (code : Str) :
    moduleMappings srcIdx code =
      (encodeVlqSegment 0 (Int64.ofNat srcIdx) 0 0).map fun first =>
        first :: List.replicate (lineCount code - 1) nextLine := by
  obtain ⟨n, hn⟩ : ∃ n, lineCount code = n + 1 := Nat.exists_eq_succ_of_ne_zero (by unfold lineCount; omega)
  have hrest : ((List.range n).map Nat.succ).mapM (fun origLine => encodeVlqSegment 0
      (if origLine = 0 then Int64.ofNat srcIdx else 0) (if origLine = 0 then 0 else 1) 0) =
        some (((List.range n).map Nat.succ).map fun _ => nextLine) := by
    refine mapM_of_some fun a ha => ?_
    obtain ⟨k, -, rfl⟩ := List.mem_map.mp ha
    simp [encode_nextLine]
  unfold moduleMappings
  rw [hn, List.range_succ_eq_map, List.mapM_cons, hrest]
  cases h : encodeVlqSegment 0 (Int64.ofNat srcIdx) 0 0 with
  | none => simp [h]
  | some first => simp [h, Function.comp_def, List.map_const']

theorem separator_not_mem_symbol (d : Nat) : base64Symbol d ≠ ';' := by
  intro h
  have hvalue := base64Value_symbol d
  rw [h] at hvalue
  exact absurd hvalue (by simp [base64Value])

theorem separator_not_mem_vlqLoop {fuel : Nat} {n : Int} {s : Str} (h : vlqLoop fuel n = some s) : ';' ∉ s := by
  induction fuel generalizing n s with
  | zero => cases h
  | succ fuel ih =>
      unfold vlqLoop at h
      simp only at h
      split at h
      · cases h
        simpa using (separator_not_mem_symbol _).symm
      · obtain ⟨t, ht, rfl⟩ := Option.map_eq_some_iff.mp h
        rw [List.mem_cons, not_or]
        exact ⟨(separator_not_mem_symbol _).symm, ih ht⟩

theorem separator_not_mem_segment {a b c d : Int64} {s : Str} (h : encodeVlqSegment a b c d = some s) : ';' ∉ s := by
  simp only [encodeVlqSegment, vlqEncodeValue, Option.bind_eq_bind, Option.bind_eq_some_iff, Option.pure_def,
    Option.some.injEq] at h
  obtain ⟨sa, ha, sb, hb, sc, hc, sd, hd, rfl⟩ := h
  simp [separator_not_mem_vlqLoop ha, separator_not_mem_vlqLoop hb, separator_not_mem_vlqLoop hc,
    separator_not_mem_vlqLoop hd]

theorem separator_not_mem_moduleMappings {srcIdx : Nat} {code : Str} {ls : List Str}
    (h : moduleMappings srcIdx code = some ls) : ∀ l ∈ ls, ';' ∉ l := by
  rw [moduleMappings_eq] at h
  obtain ⟨first, hfirst, rfl⟩ := Option.map_eq_some_iff.mp h
  intro l hl
  rcases List.mem_cons.mp hl with rfl | hl
  · exact separator_not_mem_segment hfirst
  · rw [List.eq_of_mem_replicate hl]
    decide

theorem mem_of_mapM {α β : Type} {f : α → Option β} {l : List α} {bs : List β} (h : l.mapM f = some bs) :
    ∀ b ∈ bs, ∃ a ∈ l, f a = some b := by
  induction l generalizing bs with
  | nil =>
      cases h
      simp
  | cons a l ih =>
      simp only [List.mapM_cons, Option.bind_eq_bind, Option.bind_eq_some_iff, Option.pure_def, Option.some.injEq] at h
      obtain ⟨b, hb, rest, hrest, rfl⟩ := h
      intro c hc
      rcases List.mem_cons.mp hc with rfl | hc
      · exact ⟨a, List.mem_cons_self, hb⟩
      · obtain ⟨a', ha', hfa⟩ := ih hrest c hc
        exact ⟨a', List.mem_cons_of_mem _ ha', hfa⟩

theorem separator_not_mem_mappingsLines {format : OutputFormat} {modules : Modules} {ls : List Str}
    (h : mappingsLines format modules = some ls) : ∀ l ∈ ls, ';' ∉ l := by
  simp only [mappingsLines, Option.bind_eq_bind, Option.bind_eq_some_iff, Option.pure_def, Option.some.injEq] at h
  obtain ⟨segments, hsegments, rfl⟩ := h
  intro l hl
  rcases List.mem_append.mp hl with hheader | hl
  · rw [List.eq_of_mem_replicate hheader]
    exact List.not_mem_nil
  · obtain ⟨part, hpart, hl⟩ := List.mem_flatten.mp hl
    obtain ⟨m, -, hm⟩ := mem_of_mapM hsegments part hpart
    exact separator_not_mem_moduleMappings hm l hl

/-- After the header the first module is mapped from its first line on, whatever follows. -/
theorem mappingsLines_cons {format : OutputFormat} {modules : Modules} {m : Str × Str} {rest : List (Str × Str)}
    (hmodules : modules.list = m :: rest) {ls : List Str} (h : mappingsLines format modules = some ls) :
    ∃ tail, ls = List.replicate (headerLines format) [] ++
        (sameLine :: (List.replicate (lineCount m.2 - 1) nextLine ++ tail)) ∧
      (rest = [] ∧ tail = [] ∨ rest ≠ [] ∧ ∃ others, tail = nextSource :: others) := by
  have hfirst : moduleMappings 0 m.2 = some (sameLine :: List.replicate (lineCount m.2 - 1) nextLine) := by
    rw [moduleMappings_eq, show Int64.ofNat 0 = 0 from rfl, encode_sameLine]
    rfl
  simp only [mappingsLines, hmodules, List.zipIdx_cons, List.mapM_cons, hfirst, Option.bind_eq_bind, Option.bind_some,
    Option.bind_eq_some_iff, Option.pure_def, Option.some.injEq] at h
  obtain ⟨segments, ⟨others, hothers, rfl⟩, rfl⟩ := h
  refine ⟨others.flatten, by simp, ?_⟩
  cases rest with
  | nil =>
      cases hothers
      simp
  | cons m' rest =>
      have hsecond : encodeVlqSegment 0 (Int64.ofNat (0 + 1)) 0 0 = some nextSource := encode_nextSource
      simp only [List.zipIdx_cons, List.mapM_cons, moduleMappings_eq, Option.bind_eq_bind, Option.bind_eq_some_iff,
        Option.pure_def, Option.some.injEq, Option.map_eq_some_iff, hsecond] at hothers
      obtain ⟨part, ⟨first, rfl, rfl⟩, tail, -, rfl⟩ := hothers
      simp

/-- The lines that a reader splits the mappings into are those that were joined. -/
theorem decodeMappings_of_lines {format : OutputFormat} {modules : Modules} {ls : List Str} (hne : ls ≠ [])
    (h : mappingsLines format modules = some ls) :
    ∃ text, mappings format modules = some text ∧ decodeMappings text = decodeLines .zero ls := by
  refine ⟨[';'].intercalate ls, by rw [mappings, h]; rfl, ?_⟩
  rw [decodeMappings, List.splitOn_intercalate ';' (separator_not_mem_mappingsLines h) hne]

/-! ## Pieces -/

theorem newlines_append (s t : Str) : newlines (s ++ t) = newlines s + newlines t := List.count_append

theorem length_splitOn_newline (s : Str) : (s.splitOn '\n').length = newlines s + 1 := by
  induction s with
  | nil => rfl
  | cons c s ih =>
      rw [List.splitOn] at ih ⊢
      rw [List.splitOnP_cons_eq_if_modifyHead, newlines, List.count_cons]
      split
      · rw [List.length_cons, ih, newlines]
      · rw [List.length_modifyHead, ih, newlines]

theorem lineCount_le (code : Str) : lineCount code ≤ newlines code + 1 := by
  have hparts := length_splitOn_newline code
  have hlast : ∀ o : Option Str, o.toList.length ≤ 1 := fun o => by cases o <;> simp
  have hlines : (lines code).length ≤ newlines code + 1 := by
    rw [lines, List.length_append, List.length_map, List.length_dropLast]
    exact (Nat.add_le_add_left (hlast _) _).trans (by omega)
  unfold lineCount
  omega

theorem carriedFrom_ge {g : Nat} {ps : List Piece} {p : Nat × Nat × Nat} (h : p ∈ carriedFrom g ps) : g ≤ p.1 := by
  induction ps generalizing g with
  | nil => cases h
  | cons piece ps ih =>
      cases piece with
      | glue text =>
          have hle := ih h
          omega
      | code j text =>
          rcases List.mem_append.mp h with hhere | hrest
          · obtain ⟨k, -, rfl⟩ := List.mem_map.mp hhere
            exact Nat.le_add_right g k
          · have hle := ih hrest
            omega

theorem codeOf_eq (modules : Modules) (name : String) :
    codeOf modules name = (indexOfName modules name).bind fun i => modules.list[i]?.map Prod.snd := by
  unfold codeOf indexOfName
  induction modules.list with
  | nil => rfl
  | cons m rest ih =>
      rw [List.find?_cons, List.findIdx?_cons]
      cases hname : decide (m.1 = name.toList) with
      | true => rfl
      | false =>
          rw [ih]
          cases rest.findIdx? fun x => decide (x.1 = name.toList) with
          | none => rfl
          | some i => rfl

theorem indexOfName_lt {modules : Modules} {name : String} {i : Nat} (h : indexOfName modules name = some i) :
    ∃ m, modules.list[i]? = some m := by
  obtain ⟨hlt, -⟩ := List.findIdx?_eq_some_iff_getElem.mp h
  exact ⟨_, List.getElem?_eq_getElem hlt⟩

theorem flatMap_pieceAt (modules : Modules) (i : Nat) :
    (pieceAt modules i).flatMap Piece.text = (modules.list[i]?.map Prod.snd).getD [] := by
  unfold pieceAt
  cases modules.list[i]? with
  | none => rfl
  | some m => simp [Piece.text]

theorem codeOf_or_first (modules : Modules) (o : Option Nat) (ho : ∀ i, o = some i → ∃ m, modules.list[i]? = some m) :
    (o.bind fun i => modules.list[i]?.map Prod.snd).or (firstCode modules) =
      modules.list[o.getD 0]?.map Prod.snd := by
  cases o with
  | none => simp [firstCode, List.head?_eq_getElem?]
  | some i =>
      obtain ⟨m, hm⟩ := ho i rfl
      simp [hm]

theorem indexOfName_or_bind (modules : Modules) (a b : Option Nat)
    (ha : ∀ i, a = some i → ∃ m, modules.list[i]? = some m) :
    (a.bind fun i => modules.list[i]?.map Prod.snd).or (b.bind fun i => modules.list[i]?.map Prod.snd) =
      (a.or b).bind fun i => modules.list[i]?.map Prod.snd := by
  cases a with
  | none => rfl
  | some i =>
      obtain ⟨m, hm⟩ := ha i rfl
      simp [hm]

/-- The place of the module that an immediately invoked bundle holds. -/
def mainIndex (modules : Modules) : Nat := ((indexOfName modules "index").or (indexOfName modules "main")).getD 0

theorem mainIndex_get {modules : Modules} (hne : modules.list ≠ []) :
    ∃ m, modules.list[mainIndex modules]? = some m := by
  unfold mainIndex
  cases hindex : indexOfName modules "index" with
  | some i => exact indexOfName_lt hindex
  | none =>
      cases hmain : indexOfName modules "main" with
      | some i => exact indexOfName_lt hmain
      | none => exact ⟨_, List.getElem?_eq_getElem (List.length_pos_iff.mpr hne)⟩

theorem generateIife_eq {modules : Modules} {m : Str × Str} (hm : modules.list[mainIndex modules]? = some m) :
    generateIife modules = "(function() \x7b\n".toList ++ m.2 ++ "\n\x7d)();".toList := by
  have hcode : ((codeOf modules "index").or (codeOf modules "main")).or (firstCode modules) = some m.2 := by
    rw [codeOf_eq, codeOf_eq, indexOfName_or_bind _ _ _ fun i hi => indexOfName_lt hi, codeOf_or_first]
    · rw [show ((indexOfName modules "index").or (indexOfName modules "main")).getD 0 = mainIndex modules from rfl, hm]
      rfl
    · intro i hi
      rcases Option.or_eq_some_iff.mp hi with hindex | ⟨-, hmain⟩
      · exact indexOfName_lt hindex
      · exact indexOfName_lt hmain
  rw [generateIife, hcode]

theorem pieces_iife {modules : Modules} {m : Str × Str} (hm : modules.list[mainIndex modules]? = some m) :
    pieces .iife modules =
      [.glue "(function() \x7b\n".toList, .code (mainIndex modules) m.2, .glue "\n\x7d)();".toList] := by
  have hne : modules.list ≠ [] := by
    intro hnil
    simp [hnil] at hm
  have hpiece : pieceAt modules (mainIndex modules) = [.code (mainIndex modules) m.2] := by simp [pieceAt, hm]
  unfold mainIndex at hpiece
  rw [pieces, if_neg hne, hpiece]
  rfl

/-- A bundle is its pieces, one after another. -/
theorem generate_eq_pieces (format : OutputFormat) (modules : Modules) :
    generate format modules = (pieces format modules).flatMap Piece.text := by
  cases format with
  | iife =>
      by_cases hnil : modules.list = []
      · simp [generate, pieces, hnil, generateIife, codeOf, firstCode]
      · obtain ⟨m, hm⟩ := mainIndex_get hnil
        rw [generate, generateIife_eq hm, pieces_iife hm]
        simp [Piece.text]
  | umd =>
      have hmain : ((codeOf modules "index").or (firstCode modules)) =
          modules.list[(indexOfName modules "index").getD 0]?.map Prod.snd := by
        rw [codeOf_eq]
        exact codeOf_or_first _ _ fun i hi => indexOfName_lt hi
      simp [generate, generateUmd, pieces, hmain, flatMap_pieceAt, Piece.text]
  | cjs =>
      rw [generate, generateCjs, pieces, List.flatMap_assoc]
      nth_rewrite 1 [← List.zipIdx_map_fst 0 modules.list]
      rw [List.flatMap_map]
      exact List.flatMap_congr fun x _ => by simp [Piece.text]
  | esm =>
      rw [generate, generateEsm, pieces, List.flatMap_assoc]
      nth_rewrite 1 [← List.zipIdx_map_fst 0 modules.list]
      rw [List.flatMap_map]
      exact List.flatMap_congr fun x _ => by simp [Piece.text]

theorem newlines_generate_ge {format : OutputFormat} {modules : Modules} {p : Piece} {ps : List Piece}
    (h : pieces format modules = p :: ps) : newlines p.text ≤ newlines (generate format modules) := by
  rw [generate_eq_pieces, h, List.flatMap_cons, newlines_append]
  omega

/-! ## What a reader sees -/

/-- The line after the header is mapped to the first line of the first module. -/
theorem positionsAt_header {format : OutputFormat} {modules : Modules} (hne : modules.list ≠ []) {text : Str}
    {decoded : List (List Segment)} (htext : mappings format modules = some text)
    (hdecoded : decodeMappings text = some decoded) : (0, 0) ∈ positionsAt decoded (headerLines format) := by
  obtain ⟨m, rest, hmodules⟩ := List.exists_cons_of_ne_nil hne
  obtain ⟨ls, hls, -⟩ := Option.map_eq_some_iff.mp htext
  obtain ⟨tail, hlines, -⟩ := mappingsLines_cons hmodules hls
  obtain ⟨text', htext', hdecode⟩ := decodeMappings_of_lines (by rw [hlines]; simp) hls
  cases htext.symm.trans htext'
  rw [hdecode, hlines] at hdecoded
  obtain ⟨after, rfl, hafter⟩ := decodeLines_replicate_nil _ hdecoded
  obtain ⟨segs, f', others, hsame, -, rfl⟩ := decodeLines_cons.mp hafter
  rw [decodeLine_sameLine] at hsame
  cases hsame
  simp [positionsAt, Fields.zero]

/-- The line after those of the first module is mapped where there is another module. -/
theorem positionsAt_second {format : OutputFormat} {modules : Modules} {m m' : Str × Str} {rest : List (Str × Str)}
    (hmodules : modules.list = m :: m' :: rest) {text : Str} {decoded : List (List Segment)}
    (htext : mappings format modules = some text) (hdecoded : decodeMappings text = some decoded) :
    ∃ p, p ∈ positionsAt decoded (headerLines format + lineCount m.2) := by
  obtain ⟨ls, hls, -⟩ := Option.map_eq_some_iff.mp htext
  obtain ⟨tail, hlines, hnil | ⟨-, others, rfl⟩⟩ := mappingsLines_cons hmodules hls
  · simp at hnil
  obtain ⟨text', htext', hdecode⟩ := decodeMappings_of_lines (by rw [hlines]; simp) hls
  cases htext.symm.trans htext'
  have hpos : 1 ≤ lineCount m.2 := Nat.le_max_right _ _
  have hsplit : ls = (List.replicate (headerLines format) [] ++ sameLine ::
      List.replicate (lineCount m.2 - 1) nextLine) ++ nextSource :: others := by rw [hlines]; simp
  rw [hdecode, hsplit] at hdecoded
  obtain ⟨f, segs, hsegs, hget⟩ := decodeLines_append hdecoded
  rw [decodeLine_nextSource] at hsegs
  cases hsegs
  have hlength : (List.replicate (headerLines format) [] ++ sameLine ::
      List.replicate (lineCount m.2 - 1) nextLine).length = headerLines format + lineCount m.2 := by
    simp only [List.length_append, List.length_replicate, List.length_cons]
    omega
  rw [hlength] at hget
  exact ⟨(f.source + 1, f.line), by simp [positionsAt, hget]⟩

theorem decodeLines_replicate_nextLine (n : Nat) (f : Fields) :
    decodeLines f (List.replicate n nextLine) =
      some ((List.range n).map fun k => [⟨0, some (f.source, f.line + (k + 1))⟩]) := by
  induction n generalizing f with
  | zero => rfl
  | succ n ih =>
      rw [List.replicate_succ, decodeLines_cons]
      refine ⟨_, _, _, decodeLine_nextLine f, ih _, ?_⟩
      rw [List.range_succ_eq_map, List.map_cons, List.map_map]
      simp only [List.cons.injEq, List.map_inj_left, Function.comp_apply]
      refine ⟨by simp, fun k _ => ?_⟩
      rw [show f.line + (((k + 1 : Nat) : Int) + 1) = f.line + 1 + ((k : Int) + 1) by omega]
      exact ⟨rfl, trivial⟩

/-- The one module of an immediately invoked bundle is mapped line by line. -/
theorem decodeMappings_single {modules : Modules} {m : Str × Str} (hmodules : modules.list = [m]) :
    ∃ text, mappings .iife modules = some text ∧
      decodeMappings text = some ([] :: (List.range (lineCount m.2)).map fun k => [⟨0, some (0, (k : Int))⟩]) := by
  have hsegments : mappingsLines .iife modules =
      some ([] :: sameLine :: List.replicate (lineCount m.2 - 1) nextLine) := by
    simp [mappingsLines, hmodules, moduleMappings_eq, encode_sameLine, headerLines]
  obtain ⟨text, htext, hdecode⟩ := decodeMappings_of_lines (by simp) hsegments
  refine ⟨text, htext, hdecode.trans ?_⟩
  have hpos : 1 ≤ lineCount m.2 := Nat.le_max_right _ _
  have hcount : lineCount m.2 = lineCount m.2 - 1 + 1 := by omega
  rw [decodeLines_cons]
  refine ⟨[], .zero, _, rfl, decodeLines_cons.mpr ⟨_, _, _, decodeLine_sameLine _, decodeLines_replicate_nextLine _ _,
    rfl⟩, ?_⟩
  rw [hcount, List.range_succ_eq_map, List.map_cons, List.map_map]
  simp [Fields.zero]

theorem mem_carried_iife {modules : Modules} {m : Str × Str} (hm : modules.list[mainIndex modules]? = some m)
    {g j k : Nat} :
    (g, j, k) ∈ carriedFrom 0 (pieces .iife modules) ↔ g = k + 1 ∧ j = mainIndex modules ∧ k < lineCount m.2 := by
  have hcarried : carriedFrom 0 (pieces .iife modules) =
      (List.range (lineCount m.2)).map fun k => (1 + k, mainIndex modules, k) := by
    rw [pieces_iife hm]
    simp only [carriedFrom, List.append_nil]
    rfl
  rw [hcarried, List.mem_map]
  constructor
  · rintro ⟨k', hk', heq⟩
    cases heq
    exact ⟨Nat.add_comm 1 k, rfl, List.mem_range.mp hk'⟩
  · rintro ⟨rfl, rfl, hk⟩
    exact ⟨k, List.mem_range.mpr hk, by rw [Nat.add_comm]⟩

/-- Two modules cannot both stand in an immediately invoked bundle. -/
theorem not_mapRight_iife {modules : Modules} {m m' : Str × Str} {rest : List (Str × Str)}
    (hmodules : modules.list = m :: m' :: rest) : ¬ MapRight .iife modules := by
  rintro ⟨text, decoded, htext, hdecoded, -, honly⟩
  have hne : modules.list ≠ [] := by simp [hmodules]
  obtain ⟨n, hn⟩ := mainIndex_get hne
  have hlines : newlines (generate .iife modules) = newlines n.2 + 2 := by
    rw [generate, generateIife_eq hn, newlines_append, newlines_append]
    have hhead : newlines "(function() \x7b\n".toList = 1 := by decide
    have htail : newlines "\n\x7d)();".toList = 1 := by decide
    omega
  -- the line after the header is mapped to the first source, so that is the one in the bundle
  obtain ⟨j, k, hp, hcarried⟩ := honly 1 (by omega) _ (positionsAt_header hne htext hdecoded)
  obtain ⟨hk, hj, -⟩ := (mem_carried_iife hn).mp hcarried
  have hzero : mainIndex modules = 0 := by
    have hsource := congrArg Prod.fst hp
    simp only at hsource
    omega
  have hnm : n = m := by
    rw [hzero, hmodules] at hn
    exact (Option.some.inj hn).symm
  subst hnm
  -- the line after its last is mapped too
  have hcount := lineCount_le n.2
  obtain ⟨p, hp⟩ := positionsAt_second hmodules htext hdecoded
  obtain ⟨j, k, -, hcarried⟩ := honly (1 + lineCount n.2) (by omega) p hp
  obtain ⟨hk, -, hlt⟩ := (mem_carried_iife hn).mp hcarried
  omega

theorem newlines_moduleHead (name : Str) : 0 < newlines (moduleHead name) := by
  have hend : '\n' ∈ "\n".toList := by decide
  exact List.count_pos_iff.mpr (List.mem_append_right _ hend)

theorem newlines_umdHead : newlines umdHead = 7 := by decide +kernel

/-- More lines than the header that is counted come before the first module. -/
theorem pieces_head {format : OutputFormat} {modules : Modules} (hformat : format ≠ .iife) (hne : modules.list ≠ []) :
    ∃ text ps, pieces format modules = .glue text :: ps ∧ headerLines format < newlines text := by
  obtain ⟨m, rest, hmodules⟩ := List.exists_cons_of_ne_nil hne
  cases format with
  | iife => exact absurd rfl hformat
  | umd => exact ⟨umdHead, _, rfl, by rw [newlines_umdHead]; decide⟩
  | cjs =>
      simp only [pieces, hmodules, List.zipIdx_cons, List.flatMap_cons, List.cons_append]
      exact ⟨_, _, rfl, newlines_moduleHead _⟩
  | esm =>
      simp only [pieces, hmodules, List.zipIdx_cons, List.flatMap_cons, List.cons_append]
      refine ⟨_, _, rfl, ?_⟩
      rw [newlines_append]
      exact Nat.lt_add_right _ (newlines_moduleHead _)

/-- The line after the header that is counted is not a line of a module. -/
theorem not_mapRight_of_header {format : OutputFormat} {modules : Modules} (hformat : format ≠ .iife)
    (hne : modules.list ≠ []) : ¬ MapRight format modules := by
  rintro ⟨map, decoded, hmap, hdecoded, -, honly⟩
  obtain ⟨text, ps, hpieces, hheader⟩ := pieces_head hformat hne
  have hge : newlines text ≤ newlines (generate format modules) := newlines_generate_ge hpieces
  obtain ⟨j, k, -, hcarried⟩ := honly (headerLines format) (by omega) _ (positionsAt_header hne hmap hdecoded)
  rw [hpieces] at hcarried
  have hlow := carriedFrom_ge (g := 0 + newlines text) hcarried
  simp only at hlow
  omega

theorem mapRight_single {modules : Modules} {m : Str × Str} (hmodules : modules.list = [m]) :
    MapRight .iife modules := by
  obtain ⟨text, htext, hdecoded⟩ := decodeMappings_single hmodules
  obtain ⟨n, hn⟩ := mainIndex_get (show modules.list ≠ [] by simp [hmodules])
  have hmain : mainIndex modules = 0 ∧ n = m := by
    rw [hmodules] at hn
    obtain ⟨hlt, hget⟩ := List.getElem?_eq_some_iff.mp hn
    have hzero : mainIndex modules = 0 := by simpa using hlt
    exact ⟨hzero, by simpa [hzero] using hget.symm⟩
  obtain ⟨hzero, rfl⟩ := hmain
  refine ⟨text, _, htext, hdecoded, fun g j k hcarried => ?_, fun g _ p hp => ?_⟩
  · obtain ⟨rfl, rfl, hk⟩ := (mem_carried_iife hn).mp hcarried
    simp [positionsAt, hk, hzero]
  · cases g with
    | zero => simp [positionsAt] at hp
    | succ k =>
        by_cases hk : k < lineCount n.2
        · simp only [positionsAt, List.getElem?_cons_succ, List.getElem?_map, List.getElem?_range hk, Option.map_some,
            Option.getD_some, List.filterMap_cons, List.filterMap_nil, List.mem_singleton] at hp
          exact ⟨0, k, hp, (mem_carried_iife hn).mpr ⟨rfl, hzero.symm, hk⟩⟩
        · have hnone : (List.range (lineCount n.2))[k]? = none := List.getElem?_eq_none (by simpa using hk)
          simp [positionsAt, hnone] at hp

theorem carriedFrom_pieces_nil (format : OutputFormat) {modules : Modules} (hmodules : modules.list = []) :
    carriedFrom 0 (pieces format modules) = [] := by
  cases format <;> simp [pieces, hmodules, carriedFrom, pieceAt]

/-- Without a module the mappings are those of the header alone. -/
theorem mapRight_nil (format : OutputFormat) {modules : Modules} (hmodules : modules.list = []) :
    MapRight format modules := by
  have hlines : mappingsLines format modules = some (List.replicate (headerLines format) []) := by
    simp [mappingsLines, hmodules]
  have hdecoded : decodeMappings ([';'].intercalate (List.replicate (headerLines format) [])) =
      some (List.replicate (max (headerLines format) 1) []) := by
    cases format <;> decide +kernel
  refine ⟨_, _, by rw [mappings, hlines]; rfl, hdecoded, fun g j k hcarried => ?_, fun g _ p hp => ?_⟩
  · rw [carriedFrom_pieces_nil format hmodules] at hcarried
    cases hcarried
  · rw [positionsAt, List.getElem?_replicate] at hp
    split at hp <;> cases hp

end ThreeVa.Bundler
