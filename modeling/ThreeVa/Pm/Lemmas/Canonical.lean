import ThreeVa.Pm.Canonical

namespace ThreeVa.Pm
open Text Entries List

variable {tables : CharTables}

/-! ## What the text of a value begins with -/

/-- The first character of a text, with one stand-in for the characters a number may begin with. -/
def kindOf (c : Char) : Char := if c.isDigit = true ∨ c = '-' then '0' else c

def kind : Json → Char
  | .null => 'n'
  | .bool b => if b then 't' else 'f'
  | .int _ => '0'
  | .float _ => '0'
  | .str _ => '"'
  | .arr _ => '['
  | .obj _ => '\x7b'

theorem isNumberText_integerText (n : Int) : IsNumberText (integerText n) := by
  have hdigit : ∀ c ∈ decimal n.natAbs, isNumberChar c = true := by
    intro c hc
    simp [isNumberChar, decimal_isDigit hc]
  have hhead : ∃ c rest, decimal n.natAbs = c :: rest ∧ c.isDigit = true := by
    cases hd : decimal n.natAbs with
    | nil => exact absurd hd Nat.toDigits_ne_nil
    | cons c rest => exact ⟨c, rest, rfl, decimal_isDigit (n := n.natAbs) (by simp [hd])⟩
  unfold integerText
  split
  · exact ⟨List.forall_mem_cons.mpr ⟨by decide, hdigit⟩, '-', _, rfl, .inr rfl⟩
  · obtain ⟨c, rest, hd, hc⟩ := hhead
    exact ⟨hdigit, c, rest, hd, .inl hc⟩

theorem isNumberText_numberText {v : Json} (hv : WellFormed v) {text : Str} (h : numberText v = some text) :
    IsNumberText text := by
  cases hv with
  | int n =>
      cases h
      exact isNumberText_integerText n
  | float htext =>
      cases h
      exact htext
  | null => cases h
  | bool b => cases h
  | str s => cases h
  | arr hitems => cases h
  | obj hkeys hfields => cases h

theorem sortedJsonString_number {v : Json} {text : Str} (h : numberText v = some text) :
    sortedJsonString tables v = text := by
  cases v <;> simp_all [numberText, sortedJsonString]

theorem sortedJsonString_head (tables : CharTables) {v : Json} (hv : WellFormed v) :
    ∃ c rest, sortedJsonString tables v = c :: rest ∧ kindOf c = kind v := by
  have hnumber : ∀ {text}, IsNumberText text → ∃ c rest, text = c :: rest ∧ kindOf c = '0' := by
    rintro text ⟨-, c, rest, htext, hc⟩
    exact ⟨c, rest, htext, if_pos hc⟩
  cases hv with
  | null => exact ⟨'n', _, rfl, by decide⟩
  | bool b => cases b with
    | true => exact ⟨'t', _, rfl, by decide⟩
    | false => exact ⟨'f', _, rfl, by decide⟩
  | int n => exact hnumber (isNumberText_integerText n)
  | float htext => exact hnumber htext
  | str s => exact ⟨'"', _, rfl, rfl⟩
  | arr hitems => exact ⟨'[', _, rfl, rfl⟩
  | obj hkeys hfields => exact ⟨'\x7b', _, rfl, rfl⟩

def closes (c : Char) : Bool := c = ']' || c = '\x7d'

theorem kind_ne_closes (v : Json) : closes (kind v) = false := by
  cases v with
  | bool b => cases b <;> decide
  | _ => exact rfl

theorem head_not_closes (tables : CharTables) {v : Json} (hv : WellFormed v) :
    ∃ c rest, sortedJsonString tables v = c :: rest ∧ closes c = false := by
  obtain ⟨c, rest, htext, hc⟩ := sortedJsonString_head tables hv
  refine ⟨c, rest, htext, Bool.not_eq_true _ ▸ fun h => ?_⟩
  have hkind : kindOf c = c := by
    simp only [closes, Bool.or_eq_true, decide_eq_true_eq] at h
    rcases h with rfl | rfl <;> decide
  rw [hkind] at hc
  rw [hc, kind_ne_closes v] at h
  cases h

/-! ## The parts of a value -/

theorem itemTexts_eq_map (items : List Json) : itemTexts tables items = items.map (sortedJsonString tables) := by
  induction items with
  | nil => rfl
  | cons v vs ih => rw [itemTexts, List.map_cons, ih]

theorem fieldTexts_eq_map (fields : List (Str × Json)) :
    fieldTexts tables fields = fields.map fun x => (x.1, sortedJsonString tables x.2) := by
  induction fields with
  | nil => rfl
  | cons x fs ih => rw [fieldTexts, List.map_cons, ih]

def byKey {α : Type} (a b : Str × α) : Ordering := compare a.1 b.1

instance {α : Type} : Std.TransCmp (byKey (α := α)) := transCmp_on Prod.fst inferInstance

/-- An entry of an object. -/
def fieldText (tables : CharTables) (x : Str × Json) : Str :=
  (Escapes.debug tables).quote x.1 ++ ':' :: sortedJsonString tables x.2

theorem sortedJsonString_obj (fields : List (Str × Json)) : sortedJsonString tables (.obj fields) =
    '\x7b' :: [','].intercalate ((sortBy byKey fields).map (fieldText tables)) ++ ['\x7d'] := by
  rw [sortedJsonString, fieldTexts_eq_map]
  have hsort : sortBy byKey (fields.map fun x => (x.1, sortedJsonString tables x.2)) =
      (sortBy byKey fields).map fun x => (x.1, sortedJsonString tables x.2) :=
    (List.map_insertionSort (fun a b => (byKey a b).isLE = true) (fun a b => (byKey a b).isLE = true)
      (fun x : Str × Json => (x.1, sortedJsonString tables x.2)) fields fun a _ b _ => Iff.rfl).symm
  show '\x7b' :: [','].intercalate ((sortBy byKey _).map (entryText tables)) ++ ['\x7d'] = _
  rw [hsort, List.map_map]
  rfl

theorem sortedJsonString_arr (items : List Json) : sortedJsonString tables (.arr items) =
    '[' :: [','].intercalate (items.map (sortedJsonString tables)) ++ [']'] := by
  rw [sortedJsonString, itemTexts_eq_map]

/-! ## Reading a value back -/

theorem ends_not_number {r : Str} (h : Ends ',' closes r) : ∀ c ∈ r.head?, isNumberChar c = false := by
  intro c hc
  have hstop := h c hc
  simp only [closes, Bool.or_eq_true, decide_eq_true_eq] at hstop
  rcases hstop with rfl | rfl | rfl <;> decide

/-- A number ends where something comes that is not of a number. -/
theorem takeWhile_number {text r : Str} (htext : IsNumberText text) (hr : Ends ',' closes r) :
    (text ++ r).takeWhile isNumberChar = text := by
  rw [List.takeWhile_append_of_pos htext.1]
  cases r with
  | nil => simp
  | cons c r => simp [ends_not_number hr c rfl]

theorem number_append_inj {t t' r r' : Str} (ht : IsNumberText t) (ht' : IsNumberText t') (hr : Ends ',' closes r)
    (hr' : Ends ',' closes r') (h : t ++ r = t' ++ r') : t = t' ∧ r = r' := by
  have htext := congrArg (List.takeWhile isNumberChar) h
  rw [takeWhile_number ht hr, takeWhile_number ht' hr'] at htext
  subst htext
  exact ⟨rfl, List.append_cancel_left h⟩

/-- What the text of a value tells: the value up to the order of keys, and where it ends. -/
def Reads (tables : CharTables) (v : Json) : Prop :=
  WellFormed v → ∀ w, WellFormed w → ∀ r r', Ends ',' closes r → Ends ',' closes r' →
    sortedJsonString tables v ++ r = sortedJsonString tables w ++ r' → SameValue v w ∧ r = r'

theorem kind_eq_of_append {v w : Json} (hv : WellFormed v) (hw : WellFormed w) {r r' : Str}
    (h : sortedJsonString tables v ++ r = sortedJsonString tables w ++ r') : kind v = kind w := by
  obtain ⟨c, rest, hc, hkind⟩ := sortedJsonString_head tables hv
  obtain ⟨c', rest', hc', hkind'⟩ := sortedJsonString_head tables hw
  rw [hc, hc'] at h
  rw [← hkind, ← hkind', (List.cons.inj h).1]

theorem reads_number {v : Json} {text : Str} (hnumber : numberText v = some text) : Reads tables v := by
  intro hv w hw r r' hr hr' h
  have hkind := kind_eq_of_append hv hw h
  obtain ⟨text', hnumber'⟩ : ∃ text', numberText w = some text' := by
    cases v <;> cases w <;> simp_all [kind, numberText] <;> split at hkind <;> simp at hkind
  rw [sortedJsonString_number hnumber, sortedJsonString_number hnumber'] at h
  obtain ⟨rfl, hrest⟩ := number_append_inj (isNumberText_numberText hv hnumber) (isNumberText_numberText hw hnumber')
    hr hr' h
  exact ⟨.number hnumber hnumber', hrest⟩

theorem reads_arr {items : List Json} (ih : ∀ v ∈ items, Reads tables v) : Reads tables (.arr items) := by
  intro hv w hw r r' hr hr' h
  have hkind := kind_eq_of_append hv hw h
  cases w with
  | arr items' =>
      cases hv with
      | arr hitems =>
      cases hw with
      | arr hitems' =>
      rw [sortedJsonString_arr, sortedJsonString_arr, List.cons_append, List.cons_append, List.cons_append,
        List.cons_append, List.append_assoc, List.append_assoc] at h
      have hread : Readable (sortedJsonString tables) ',' closes SameValue items items' :=
        fun x hx y hy => ih x hx (hitems x hx) y (hitems' y hy)
      have hhead : ∀ x, x ∈ items ∨ x ∈ items' → ∃ c rest, sortedJsonString tables x = c :: rest ∧ c ≠ ']' := by
        intro x hx
        obtain ⟨c, rest, hc, hclose⟩ := head_not_closes tables (hx.elim (hitems x) (hitems' x))
        refine ⟨c, rest, hc, ?_⟩
        rintro rfl
        cases hclose
      obtain ⟨hall, hrest⟩ := intercalate_inj rfl (by decide) hread hhead (List.cons.inj h).2
      exact ⟨.arr hall.length_eq fun i hx hy => hall.get hx hy, hrest⟩
  | bool b => cases b <;> cases hkind
  | null => cases hkind
  | int n => cases hkind
  | float text => cases hkind
  | str s => cases hkind
  | obj fields => cases hkind

/-! ## The keys of an object -/

theorem get?_of_mem {fields : List (Str × Json)} (hkeys : (fields.map Prod.fst).Nodup) {k : Str} {v : Json} :
    Json.get? fields k = some v ↔ (k, v) ∈ fields :=
  Entries.get?_eq_some (e := ⟨fields, hkeys⟩)

theorem get?_sortBy {fields : List (Str × Json)} (hkeys : (fields.map Prod.fst).Nodup) (k : Str) :
    Json.get? (sortBy byKey fields) k = Json.get? fields k := by
  have hperm : sortBy byKey fields ~ fields := List.perm_insertionSort _ _
  have hkeys' : ((sortBy byKey fields).map Prod.fst).Nodup := (hperm.map Prod.fst).nodup_iff.mpr hkeys
  ext v
  rw [get?_of_mem hkeys, get?_of_mem hkeys', hperm.mem_iff]

theorem get?_rel {fs gs : List (Str × Json)} (h : List.Forall₂ (fun x y => x.1 = y.1 ∧ SameValue x.2 y.2) fs gs)
    (k : Str) : (Json.get? fs k).isSome = (Json.get? gs k).isSome ∧
      ∀ v w, Json.get? fs k = some v → Json.get? gs k = some w → SameValue v w := by
  induction h with
  | nil => exact ⟨rfl, fun v w hv => by cases hv⟩
  | @cons x y fs gs hxy _ ih =>
      obtain ⟨hkey, hvalue⟩ := hxy
      by_cases hk : x.1 = k
      · have hk' : y.1 = k := hkey ▸ hk
        simp only [Json.get?, List.find?_cons, hk, hk', decide_true, Option.map_some, Option.isSome_some,
          Option.some.injEq, true_and]
        rintro v w rfl rfl
        exact hvalue
      · have hk' : y.1 ≠ k := hkey ▸ hk
        simpa only [Json.get?, List.find?_cons, hk, hk', decide_false] using ih

theorem reads_obj {fields : List (Str × Json)} (ih : ∀ x ∈ fields, Reads tables x.2) : Reads tables (.obj fields) := by
  intro hv w hw r r' hr hr' h
  have hkind := kind_eq_of_append hv hw h
  cases w with
  | obj fields' =>
      cases hv with
      | obj hkeys hfields =>
      cases hw with
      | obj hkeys' hfields' =>
      rw [sortedJsonString_obj, sortedJsonString_obj, List.cons_append, List.cons_append, List.cons_append,
        List.cons_append, List.append_assoc, List.append_assoc] at h
      have hread : Readable (fieldText tables) ',' closes (fun x y => x.1 = y.1 ∧ SameValue x.2 y.2) (sortBy byKey fields)
          (sortBy byKey fields') := by
        intro x hx y hy r r' hr hr' heq
        have hx := mem_sortBy.mp hx
        have hy := mem_sortBy.mp hy
        rw [fieldText, fieldText, List.append_assoc, List.append_assoc] at heq
        obtain ⟨hkey, htext⟩ := Escapes.quote_append_inj heq
        obtain ⟨hsame, hrest⟩ := ih x hx (hfields x hx) y.2 (hfields' y hy) r r' hr hr' (List.cons.inj htext).2
        exact ⟨⟨hkey, hsame⟩, hrest⟩
      obtain ⟨hall, hrest⟩ := intercalate_inj rfl (by decide) hread (fun x _ => ⟨'"', _, rfl, by decide⟩)
        (List.cons.inj h).2
      refine ⟨.obj (fun k => ?_) (fun k v w hv hw => ?_), hrest⟩
      · rw [← get?_sortBy hkeys, ← get?_sortBy hkeys', (get?_rel hall k).1]
      · rw [← get?_sortBy hkeys] at hv
        rw [← get?_sortBy hkeys'] at hw
        exact (get?_rel hall k).2 v w hv hw
  | bool b => cases b <;> cases hkind
  | null => cases hkind
  | int n => cases hkind
  | float text => cases hkind
  | str s => cases hkind
  | arr items => cases hkind

/-- The text of a value and what follows it are told apart, for every value. -/
theorem reads (v : Json) : Reads tables v := by
  induction v using Json.induction with
  | null =>
      intro hv w hw r r' hr hr' h
      have hkind := kind_eq_of_append hv hw h
      cases w with
      | null => exact ⟨.null, List.append_cancel_left h⟩
      | bool b => cases b <;> cases hkind
      | _ => cases hkind
  | bool b =>
      intro hv w hw r r' hr hr' h
      have hkind := kind_eq_of_append hv hw h
      cases w with
      | bool b' =>
          have hb : b = b' := by cases b <;> cases b' <;> first | rfl | cases hkind
          subst hb
          exact ⟨.bool b, List.append_cancel_left h⟩
      | _ => cases b <;> cases hkind
  | int n => exact reads_number rfl
  | float text => exact reads_number rfl
  | str s =>
      intro hv w hw r r' hr hr' h
      have hkind := kind_eq_of_append hv hw h
      cases w with
      | str s' =>
          obtain ⟨rfl, hrest⟩ := Escapes.quote_append_inj h
          exact ⟨.str s, hrest⟩
      | bool b => cases b <;> cases hkind
      | _ => cases hkind
  | arr items ih => exact reads_arr ih
  | obj fields ih => exact reads_obj ih

/-! ## The text forgets the order of keys -/

theorem nodup_fieldTexts {fields : List (Str × Json)} (h : (fields.map Prod.fst).Nodup) :
    ((fieldTexts tables fields).map Prod.fst).Nodup := by
  rw [fieldTexts_eq_map, List.map_map]
  exact h

theorem mem_fieldTexts_of {fs gs : List (Str × Json)} (hfs : (fs.map Prod.fst).Nodup) (hgs : (gs.map Prod.fst).Nodup)
    (hkeys : ∀ k, (Json.get? fs k).isSome = (Json.get? gs k).isSome)
    (heq : ∀ k v w, Json.get? fs k = some v → Json.get? gs k = some w →
      sortedJsonString tables v = sortedJsonString tables w) (x : Str × Str) (hx : x ∈ fieldTexts tables fs) :
    x ∈ fieldTexts tables gs := by
  rw [fieldTexts_eq_map] at hx ⊢
  obtain ⟨⟨k, v⟩, hmem, rfl⟩ := List.mem_map.mp hx
  have hget := (get?_of_mem hfs).mpr hmem
  have hsome : (Json.get? gs k).isSome = true := by rw [← hkeys k, hget]; rfl
  obtain ⟨w, hget'⟩ := Option.isSome_iff_exists.mp hsome
  exact List.mem_map.mpr ⟨(k, w), (get?_of_mem hgs).mp hget', by rw [heq k v w hget hget']⟩

theorem text_eq_of_same {v w : Json} (h : SameValue v w) (hv : WellFormed v) (hw : WellFormed w) :
    sortedJsonString tables v = sortedJsonString tables w := by
  induction h with
  | null => rfl
  | bool b => rfl
  | number hnumber hnumber' => rw [sortedJsonString_number hnumber, sortedJsonString_number hnumber']
  | str s => rfl
  | @arr xs ys hlen _ ih =>
      cases hv with
      | arr hxs =>
      cases hw with
      | arr hys =>
      have hmap : xs.map (sortedJsonString tables) = ys.map (sortedJsonString tables) := by
        apply List.ext_getElem (by rw [List.length_map, List.length_map, hlen])
        intro i hx hy
        rw [List.getElem_map, List.getElem_map]
        rw [List.length_map] at hx hy
        exact ih i hx hy (hxs _ (List.getElem_mem hx)) (hys _ (List.getElem_mem hy))
      rw [sortedJsonString_arr, sortedJsonString_arr, hmap]
  | @obj fs gs hkeys _ ih =>
      cases hv with
      | obj hfs hvs =>
      cases hw with
      | obj hgs hws =>
      have hperm : fieldTexts tables fs ~ fieldTexts tables gs := by
        refine (List.perm_ext_iff_of_nodup (nodup_fieldTexts hfs).of_map (nodup_fieldTexts hgs).of_map).mpr fun x => ?_
        refine ⟨mem_fieldTexts_of hfs hgs hkeys (fun k v w hv hw => ?_) x,
          mem_fieldTexts_of hgs hfs (fun k => (hkeys k).symm) (fun k w v hw hv => ?_) x⟩
        · exact ih k v w hv hw (hvs _ ((get?_of_mem hfs).mp hv)) (hws _ ((get?_of_mem hgs).mp hw))
        · exact (ih k v w hv hw (hvs _ ((get?_of_mem hfs).mp hv)) (hws _ ((get?_of_mem hgs).mp hw))).symm
      have hsort : sortBy byKey (fieldTexts tables fs) = sortBy byKey (fieldTexts tables gs) :=
        sortBy_eq_of_perm hperm fun a ha b hb heq =>
          eq_of_key_eq ⟨fieldTexts tables fs, nodup_fieldTexts hfs⟩ ha hb (Std.LawfulEqCmp.eq_of_compare heq)
      rw [sortedJsonString, sortedJsonString]
      exact congrArg (fun l => '\x7b' :: [','].intercalate (l.map (entryText tables)) ++ ['\x7d']) hsort

/-- Two values have one text exactly if they are equal up to the order of keys. -/
theorem text_eq_iff {v w : Json} (hv : WellFormed v) (hw : WellFormed w) :
    sortedJsonString tables v = sortedJsonString tables w ↔ SameValue v w := by
  refine ⟨fun h => ?_, fun h => text_eq_of_same h hv hw⟩
  exact (reads v hv w hw [] [] (by simp [Ends]) (by simp [Ends]) (by rw [h])).1

/-! ## The dependency fields -/

theorem manifestDepKeys_nodup : manifestDepKeys.Nodup := by decide

theorem valueGet_wellFormed {val : Json} (h : WellFormed val) {key : Str} {v : Json} (hget : valueGet val key = some v) :
    WellFormed v := by
  obtain ⟨fields, hfields, hget⟩ := Option.bind_eq_some_iff.mp hget
  cases h with
  | obj hkeys hvs =>
      cases hfields
      exact hvs _ ((get?_of_mem hkeys).mp hget)
  | _ => cases hfields

/-- The fields of some keys are those of the value. -/
theorem get?_fieldsOf (val : Json) {keys : List Str} (key : Str) :
    Json.get? (keys.filterMap fun key => (valueGet val key).map (key, ·)) key =
      if key ∈ keys then valueGet val key else none := by
  induction keys with
  | nil => rfl
  | cons k keys ih =>
      rw [List.filterMap_cons]
      cases hget : valueGet val k with
      | none =>
          rw [Option.map_none, ih]
          by_cases hk : key = k
          · simp [hk, hget]
          · simp [hk]
      | some v =>
          by_cases hk : key = k
          · simp [Json.get?, hk, hget]
          · have hk' : ¬k = key := fun h => hk h.symm
            simpa [Json.get?, hk, hk'] using ih

theorem fieldsOf_keys (val : Json) {keys : List Str} (h : keys.Nodup) :
    ((keys.filterMap fun key => (valueGet val key).map (key, ·)).map Prod.fst).Nodup := by
  refine List.Nodup.sublist ?_ h
  induction keys with
  | nil => exact List.Sublist.slnil
  | cons k keys ih =>
      rw [List.filterMap_cons]
      cases valueGet val k with
      | none => exact (ih (List.nodup_cons.mp h).2).cons k
      | some v => exact (ih (List.nodup_cons.mp h).2).cons_cons k

theorem manifestDepFields_wellFormed {val : Json} (h : WellFormed val) : WellFormed (manifestDepFields val) := by
  refine .obj (fieldsOf_keys val manifestDepKeys_nodup) fun x hx => ?_
  obtain ⟨key, -, hx⟩ := List.mem_filterMap.mp hx
  obtain ⟨v, hget, rfl⟩ := Option.map_eq_some_iff.mp hx
  exact valueGet_wellFormed h hget

theorem same_manifestDepFields {v w : Json} :
    SameValue (manifestDepFields v) (manifestDepFields w) ↔ ∀ key ∈ manifestDepKeys, SameField v w key := by
  constructor
  · intro h key hkey
    cases h with
    | obj hkeys hfields =>
        have hkeys := hkeys key
        have hfields := hfields key
        rw [get?_fieldsOf, get?_fieldsOf, if_pos hkey, if_pos hkey] at hkeys hfields
        unfold SameField
        cases hv : valueGet v key with
        | none =>
            rw [hv] at hkeys
            rw [Option.isSome_eq_false_iff.mp hkeys.symm |> Option.isNone_iff_eq_none.mp]
            exact .none
        | some x =>
            rw [hv] at hkeys
            obtain ⟨y, hw⟩ := Option.isSome_iff_exists.mp hkeys.symm
            rw [hw]
            exact .some (hfields x y hv hw)
    | number hv hw => cases hv
  · intro h
    refine .obj (fun k => ?_) fun k x y hx hy => ?_
    · rw [get?_fieldsOf, get?_fieldsOf]
      split
      · rename_i hk
        have hsame := h k hk
        unfold SameField at hsame
        generalize valueGet v k = x at hsame
        generalize valueGet w k = y at hsame
        cases hsame <;> rfl
      · rfl
    · rw [get?_fieldsOf] at hx hy
      split at hx
      · rename_i hk
        rw [if_pos hk] at hy
        have hsame := h k hk
        unfold SameField at hsame
        rw [hx, hy] at hsame
        cases hsame with
        | some hsame => exact hsame
      · cases hx

end ThreeVa.Pm
