import ThreeVa.HttpServer.Respond

/-! The bytes sent are those of the message meant, which is well formed exactly if the answer fits. -/

namespace ThreeVa.HttpServer.Respond
open Text

/-! ## Bytes of names and values -/

theorem forall_byte {p : UInt8 → Prop} (h : ∀ n < 256, p (.ofNat n)) (b : UInt8) : p b := by
  have hb := h b.toNat b.toNat_lt
  rwa [UInt8.ofNat_toNat] at hb

/-- The checks of bytes are those of the parser. -/
theorem bytes_checked : ∀ b, isValueByte b = Http.isFieldByte b ∧ isStatusByte b = Http.isFieldByte b ∧
    (Http.isTchar b = true → b.toNat < 0x80) := forall_byte (by decide +kernel)

theorem printable_byte {n : Nat} (hlt : n < 0x7F) (hle : 0x20 ≤ n) :
    Http.isFieldByte (.ofNat n) = true ∧ (n ≠ 0x20 → Http.isBlank (.ofNat n) = false) := by
  have hnat : (UInt8.ofNat n).toNat = n := toNat_ofNat_uint8 (by omega)
  simp only [Http.isFieldByte, Http.isBlank, Bool.or_eq_true, Bool.and_eq_true, decide_eq_true_eq, ← UInt8.toNat_inj,
    UInt8.le_iff_toNat_le, hnat, Bool.or_eq_false_iff, decide_eq_false_iff_not, UInt8.reduceToNat, ne_eq]
  omega

theorem isNameByte_eq (b : UInt8) : isNameByte b = Http.isTchar b := by
  have hchars : encodeUtf8 "!#$%&'*+-.^_`|~".toList =
      [0x21, 0x23, 0x24, 0x25, 0x26, 0x27, 0x2A, 0x2B, 0x2D, 0x2E, 0x5E, 0x5F, 0x60, 0x7C, 0x7E] := rfl
  rw [isNameByte, Http.isTchar, hchars, isAsciiAlphanumeric, Bool.or_assoc, Bool.or_assoc, Bool.or_assoc]

theorem isValueByte_eq (b : UInt8) : isValueByte b = Http.isFieldByte b := (bytes_checked b).1

theorem isStatusByte_eq (b : UInt8) : isStatusByte b = Http.isFieldByte b := (bytes_checked b).2.1

theorem isValidHeaderName_iff {name : Str} : isValidHeaderName name = true ↔
    encodeUtf8 name ≠ [] ∧ ∀ b ∈ encodeUtf8 name, Http.isTchar b = true := by
  have hnil : encodeUtf8 name = [] ↔ name = [] := ⟨fun h => encodeUtf8_inj h, fun h => by rw [h]; rfl⟩
  rw [isValidHeaderName, Bool.and_eq_true, Bool.not_eq_true', List.isEmpty_eq_false_iff, List.all_eq_true, Ne, Ne, hnil]
  simp only [isNameByte_eq]

theorem isValidHeaderValue_iff {value : Str} : isValidHeaderValue value = true ↔
    ∀ b ∈ encodeUtf8 value, Http.isFieldByte b = true := by
  rw [isValidHeaderValue, List.all_eq_true]
  simp only [isValueByte_eq]

theorem isValidStatusText_iff {value : Str} : isValidStatusText value = true ↔
    ∀ b ∈ encodeUtf8 value, Http.isFieldByte b = true := by
  rw [isValidStatusText, List.all_eq_true]
  simp only [isStatusByte_eq]

/-! ## Lower case -/

theorem ascii_of_validName {name : Str} (h : isValidHeaderName name = true) : ∀ c ∈ name, c.toNat < 0x80 := by
  intro c hc
  have hbytes : ∀ b ∈ encodeChar c, b.toNat < 0x80 := by
    intro b hb
    exact (bytes_checked b).2.2 ((isValidHeaderName_iff.mp h).2 b (List.mem_flatMap.mpr ⟨c, hc, hb⟩))
  exact toNat_lt_of_encodeChar hbytes

theorem lowerChar_of_ascii {c : Char} (h : c.toNat < 0x80) : lowerChar c = [c.toLower] := by
  have hdot : c ≠ '\u0130' := by
    rintro rfl
    exact absurd h (by decide)
  have hkelvin : c ≠ '\u212A' := by
    rintro rfl
    exact absurd h (by decide)
  rw [lowerChar, if_neg hdot, if_neg hkelvin]

theorem toLowercase_of_ascii {s : Str} (h : ∀ c ∈ s, c.toNat < 0x80) : toLowercase s = toAsciiLowercase s := by
  induction s with
  | nil => rfl
  | cons c s ih =>
      rw [List.forall_mem_cons] at h
      rw [toLowercase, List.flatMap_cons, lowerChar_of_ascii h.1]
      exact congrArg _ (ih h.2)

theorem lowerByte_encode {s : Str} (h : ∀ c ∈ s, c.toNat < 0x80) :
    (encodeUtf8 s).map Http.lowerByte = encodeUtf8 (toAsciiLowercase s) := by
  have hchar : ∀ n < 128, (Char.ofNat n).toLower.toNat < 0x80 ∧
      Http.lowerByte (.ofNat n) = .ofNat (Char.ofNat n).toLower.toNat := by decide +kernel
  have hlower : ∀ c ∈ s, c.toLower.toNat < 0x80 ∧ Http.lowerByte (.ofNat c.toNat) = .ofNat c.toLower.toNat := by
    intro c hc
    have hc := hchar c.toNat (h c hc)
    rwa [Char.ofNat_toNat] at hc
  have hascii : ∀ c ∈ toAsciiLowercase s, c.toNat < 0x80 := by
    intro c hc
    obtain ⟨d, hd, rfl⟩ := List.mem_map.mp hc
    exact (hlower d hd).1
  rw [encodeUtf8_of_ascii h, encodeUtf8_of_ascii hascii, toAsciiLowercase, List.map_map, List.map_map]
  exact List.map_congr_left fun c hc => (hlower c hc).2

/-- The parser finds the names that are skipped. -/
theorem lowerByte_eq_iff {name lower : Str} (h : isValidHeaderName name = true) :
    (encodeUtf8 name).map Http.lowerByte = encodeUtf8 lower ↔ toLowercase name = lower := by
  rw [lowerByte_encode (ascii_of_validName h), toLowercase_of_ascii (ascii_of_validName h)]
  exact ⟨encodeUtf8_inj, fun h => by rw [h]⟩

/-! ## The bytes sent -/

theorem pushHeaders_eq_ok {skipped : List Str} {resp out : Str} {extra : List (Str × Str)} :
    pushHeaders skipped resp extra = .ok out ↔
      (∀ h ∈ extra.filter (fun h => toLowercase h.1 ∉ skipped),
        isValidHeaderName h.1 = true ∧ isValidHeaderValue h.2 = true) ∧
      out = resp ++ headerLines (extra.filter fun h => toLowercase h.1 ∉ skipped) := by
  induction extra generalizing resp with
  | nil => simp [pushHeaders, headerLines, @eq_comm _ out]
  | cons h extra ih =>
      obtain ⟨k, v⟩ := h
      rw [pushHeaders]
      by_cases hskip : toLowercase k ∈ skipped
      · simp only [hskip, if_true, ih]
        simp [hskip]
      · by_cases hvalid : isValidHeaderName k = true ∧ isValidHeaderValue v = true
        · simp only [hskip, if_false, hvalid.1, hvalid.2, Bool.not_true, Bool.or_self, Bool.false_eq_true, ih]
          simp [hskip, hvalid, headerLines]
        · have hrefused : (!isValidHeaderName k || !isValidHeaderValue v) = true := by
            rw [← Bool.not_and, Bool.not_eq_true', ← Bool.not_eq_true, Bool.and_eq_true]
            exact hvalid
          simp only [hskip, if_false, hrefused, if_true, reduceCtorEq, false_iff, not_and]
          intro hall
          exact absurd (hall (k, v) (by simp [hskip])) hvalid

variable {serde : SerdeJson} {date : HttpDate} {o : Options} {a : Answer}

theorem encode_eol : encodeUtf8 eol = Http.crlf := rfl

theorem encode_headerLines (headers : List (Str × Str)) : encodeUtf8 (headerLines headers) =
    (headers.map fun (k, v) => (encodeUtf8 k, encodeUtf8 v)).flatMap fun f => Http.fieldLine f ++ Http.crlf := by
  induction headers with
  | nil => rfl
  | cons h headers ih =>
      have hcolon : encodeUtf8 [':', ' '] = [0x3A, 0x20] := rfl
      rw [headerLines, List.flatMap_cons, encodeUtf8_append, List.map_cons, List.flatMap_cons]
      refine congr (congrArg _ ?_) ih
      simp only [headerLine, encodeUtf8_append, encode_eol, hcolon, Http.fieldLine]
      simp

theorem serialize_meant : Http.serialize (meant serde date o a) =
    encodeUtf8 (versionText ++ decimal a.status ++ ' ' :: a.statusText ++ eol ++
      headerLines (allHeaders serde date o a) ++ eol) ++ a.body := by
  have hspace : encodeUtf8 (' ' :: a.statusText) = 0x20 :: encodeUtf8 a.statusText := rfl
  rw [Http.serialize, meant, List.flatMap_cons, List.flatMap_map, Http.statusLine]
  simp only [encodeUtf8_append, encode_headerLines, encode_eol, hspace, List.append_assoc]
  rfl

/-- The bytes of an accepted answer. -/
theorem respondWith_eq_ok {bytes : Bytes} : respondWith serde date o a = .ok bytes ↔
    Accepted serde o a ∧ bytes = Http.serialize (meant serde date o a) := by
  rw [serialize_meant, respondWith]
  by_cases hstatus : isValidStatusText a.statusText = true
  · simp only [hstatus, Bool.not_true, Bool.false_eq_true, if_false]
    cases hpush : pushHeaders o.skipped (versionText ++ decimal a.status ++ ' ' :: a.statusText ++ eol)
        (parseExtraHeaders serde a.headersJson) with
    | error e =>
        refine iff_of_false (by simp [bind, Except.bind]) fun h => ?_
        cases hpush.symm.trans (pushHeaders_eq_ok.mpr ⟨h.1.headers, rfl⟩)
    | ok resp =>
        obtain ⟨hheaders, hresp⟩ := pushHeaders_eq_ok.mp hpush
        have hlines : ∀ s t : List (Str × Str), headerLines (s ++ t) = headerLines s ++ headerLines t :=
          fun s t => List.flatMap_append
        simp only [bind, Except.bind, pure, Except.pure, Except.ok.injEq, hresp, allHeaders, hlines, appHeaders,
          List.append_assoc]
        exact ⟨fun h => ⟨⟨hstatus, hheaders⟩, h.symm⟩, fun h => h.2.symm⟩
  · simp only [hstatus, Bool.not_false, if_true, reduceCtorEq, false_iff]
    exact fun h => hstatus h.1.statusText

theorem Call.run_eq (c : Call) : c.run serde date = respondWith serde date c.options c.answer := by cases c <;> rfl

/-- One message is sent if the one meant is well formed. -/
theorem oneMessage_iff_wellFormed (c : Call) : c.OneMessage serde date ↔
    (Accepted serde c.options c.answer → (meant serde date c.options c.answer).WellFormed) := by
  constructor
  · intro h haccepted
    exact Http.wellFormed_of_parse (h _ ((c.run_eq).trans (respondWith_eq_ok.mpr ⟨haccepted, rfl⟩)))
  · intro h bytes hrun
    rw [c.run_eq, respondWith_eq_ok] at hrun
    obtain ⟨haccepted, rfl⟩ := hrun
    have hparse := Http.parse_serialize (h haccepted) []
    rwa [List.append_nil] at hparse

/-! ## The headers sent -/

/-- A header with a valid name, and a value that is read as it is. -/
def Readable (h : Str × Str) : Prop :=
  isValidHeaderName h.1 = true ∧ isValidHeaderValue h.2 = true ∧ Unpadded h.2

theorem unpadded_of_clean {value : Str} (h : ∀ b ∈ encodeUtf8 value, Http.isBlank b = false) : Unpadded value := by
  rw [Unpadded, Http.trimBlanks, dropWhile_of_first fun b hb => h b (List.mem_of_head? hb),
    rdropWhile_of_last fun b hb => h b (List.mem_of_getLast? hb)]

theorem serverFields_valid : ∀ f ∈ [dateField, connectionField, keepAliveField, contentLengthField],
    isValidHeaderName f = true := by decide

theorem toLowercase_serverFields : [dateField, connectionField, keepAliveField, contentLengthField].map toLowercase =
    [dateName, connectionName, keepAliveName, contentLengthName] := rfl

theorem serverNames_nodup :
    [dateName, connectionName, keepAliveName, contentLengthName, transferEncodingName].Nodup := by decide +kernel

theorem readable_dateHeaders : ∀ h ∈ dateHeaders date o, Readable h := by
  have hname : isValidHeaderName dateField = true := serverFields_valid _ (by simp)
  unfold dateHeaders
  split
  · rw [List.forall_mem_singleton]
    refine ⟨hname, ?_, date.tight⟩
    rw [isValidHeaderValue_iff, encodeUtf8_of_ascii fun c hc => by have := date.printable c hc; omega]
    intro b hb
    obtain ⟨c, hc, rfl⟩ := List.mem_map.mp hb
    exact (printable_byte (date.printable c hc).2 (date.printable c hc).1).1
  · simp

theorem readable_length (n : Nat) : Readable (contentLengthField, decimal n) := by
  have hname : isValidHeaderName contentLengthField = true := serverFields_valid _ (by simp)
  have hbyte : ∀ b ∈ encodeUtf8 (decimal n), Http.isFieldByte b = true ∧ Http.isBlank b = false := by
    rw [Http.encodeUtf8_decimal]
    intro b hb
    obtain ⟨c, hc, rfl⟩ := List.mem_map.mp hb
    have hrange := Http.digit_range hc
    have hbyte := @printable_byte c.toNat (by omega) (by omega)
    exact ⟨hbyte.1, hbyte.2 (by omega)⟩
  exact ⟨hname, isValidHeaderValue_iff.mpr fun b hb => (hbyte b hb).1, unpadded_of_clean fun b hb => (hbyte b hb).2⟩

theorem readable_connection (closeAfter : Bool) : Readable (connectionField, connectionValue closeAfter) := by
  have hvalue : ∀ closeAfter, isValidHeaderValue (connectionValue closeAfter) = true ∧
      Unpadded (connectionValue closeAfter) := by decide
  exact ⟨serverFields_valid _ (by simp), hvalue closeAfter⟩

theorem readable_connectionHeaders {extra : List (Str × Str)} {closeAfter : Bool} :
    (∀ h ∈ connectionHeaders o extra closeAfter, Readable h) ↔
      (advertises o extra closeAfter = true → isValidHeaderValue o.keepAlive = true ∧ Unpadded o.keepAlive) := by
  have hname : isValidHeaderName keepAliveField = true := serverFields_valid _ (by simp)
  have hconnection : ∀ h ∈ (if o.sendConnection then [(connectionField, connectionValue closeAfter)] else []),
      Readable h := by
    split
    · exact List.forall_mem_singleton.mpr (readable_connection closeAfter)
    · simp
  rw [connectionHeaders, List.forall_mem_append, and_iff_right hconnection]
  split
  · rename_i hadvertises
    rw [List.forall_mem_singleton]
    simp [Readable, hname, hadvertises]
  · rename_i hadvertises
    simp [hadvertises]

/-- All headers can be read if those of the application are unpadded and `Keep-Alive` is valid. -/
theorem readable_allHeaders (haccepted : Accepted serde o a) (hframing : o.framing = 0) :
    (∀ h ∈ allHeaders serde date o a, Readable h) ↔ (∀ h ∈ appHeaders serde o a, Unpadded h.2) ∧
      (advertises o (parseExtraHeaders serde a.headersJson) a.closeAfter = true →
        isValidHeaderValue o.keepAlive = true ∧ Unpadded o.keepAlive) := by
  have happ : (∀ h ∈ appHeaders serde o a, Readable h) ↔ ∀ h ∈ appHeaders serde o a, Unpadded h.2 :=
    forall₂_congr fun h hh => ⟨fun hread => hread.2.2, fun hpad =>
      ⟨(haccepted.headers h hh).1, (haccepted.headers h hh).2, hpad⟩⟩
  have hlength : ∀ h ∈ framingHeaders o.framing a.body.length, Readable h := by
    rw [hframing]
    exact List.forall_mem_singleton.mpr (readable_length _)
  rw [allHeaders, List.forall_mem_append, List.forall_mem_append, List.forall_mem_append, happ,
    readable_connectionHeaders, and_iff_left readable_dateHeaders, and_iff_left hlength]

theorem validName_allHeaders (haccepted : Accepted serde o a) (hframing : o.framing = 0) :
    ∀ h ∈ allHeaders serde date o a, isValidHeaderName h.1 = true := by
  have hconnection : ∀ extra, ∀ h ∈ connectionHeaders o extra a.closeAfter, isValidHeaderName h.1 = true := by
    intro extra h hh
    simp only [connectionHeaders, List.mem_append, List.mem_ite_nil_right, List.mem_singleton] at hh
    rcases hh with ⟨-, rfl⟩ | ⟨-, rfl⟩
    · exact (readable_connection a.closeAfter).1
    · exact serverFields_valid keepAliveField (by simp)
  rw [allHeaders, hframing, List.forall_mem_append, List.forall_mem_append, List.forall_mem_append]
  exact ⟨⟨⟨fun h hh => (haccepted.headers h hh).1, fun h hh => (readable_dateHeaders h hh).1⟩, hconnection _⟩,
    List.forall_mem_singleton.mpr (readable_length _).1⟩

/-! ## The framing -/

/-- The values that the parser finds under a name. -/
theorem valuesOf_encode {headers : List (Str × Str)} (h : ∀ x ∈ headers, isValidHeaderName x.1 = true) (lower : Str) :
    Http.valuesOf (encodeUtf8 lower) (headers.map fun (k, v) => (encodeUtf8 k, encodeUtf8 v)) =
      (headers.filter fun x => toLowercase x.1 = lower).map fun x => encodeUtf8 x.2 := by
  induction headers with
  | nil => rfl
  | cons x headers ih =>
      rw [List.forall_mem_cons] at h
      have hx : _ ↔ toLowercase x.1 = lower := lowerByte_eq_iff h.1
      have ih := ih h.2
      simp only [Http.valuesOf, List.map_cons, List.filter_cons] at ih ⊢
      by_cases hlower : toLowercase x.1 = lower
      · simp [hlower, hx.mpr hlower, ih]
      · simp [hlower, mt hx.mp hlower, ih]

theorem filter_serverHeaders (lower : Str) (hdate : lower ≠ dateName) (hconnection : lower ≠ connectionName)
    (halive : lower ≠ keepAliveName) {extra : List (Str × Str)} {closeAfter : Bool} :
    (dateHeaders date o ++ connectionHeaders o extra closeAfter).filter (fun x => toLowercase x.1 = lower) = [] := by
  have hlower := toLowercase_serverFields
  simp only [List.map_cons, List.map_nil, List.cons.injEq, and_true] at hlower
  obtain ⟨hdateField, hconnectionField, hkeepAliveField, -⟩ := hlower
  rw [List.filter_eq_nil_iff]
  intro x hx
  have hcases : toLowercase x.1 = dateName ∨ toLowercase x.1 = connectionName ∨ toLowercase x.1 = keepAliveName := by
    simp only [dateHeaders, connectionHeaders, List.mem_append, List.mem_ite_nil_right, List.mem_singleton] at hx
    rcases hx with ⟨-, rfl⟩ | ⟨-, rfl⟩ | ⟨-, rfl⟩
    · exact .inl hdateField
    · exact .inr (.inl hconnectionField)
    · exact .inr (.inr hkeepAliveField)
  rw [decide_eq_true_eq]
  rintro rfl
  exact hcases.elim hdate (Or.elim · hconnection halive)

/-- The length is the only one, and the application may have set a transfer coding. -/
theorem contentLength_meant (haccepted : Accepted serde o a) (hframing : o.framing = 0)
    (hskip : contentLengthName ∈ o.skipped) : Http.contentLength (meant serde date o a).fields =
      if ∀ h ∈ appHeaders serde o a, toLowercase h.1 ≠ transferEncodingName then some a.body.length else none := by
  have hnames : ∀ x ∈ allHeaders serde date o a, isValidHeaderName x.1 = true := validName_allHeaders haccepted hframing
  have happ : (appHeaders serde o a).filter (fun x => toLowercase x.1 = contentLengthName) = [] := by
    rw [List.filter_eq_nil_iff]
    intro x hx heq
    rw [decide_eq_true_eq] at heq
    have hkept := (List.mem_filter.mp hx).2
    simp [heq, hskip] at hkept
  have hlower : toLowercase contentLengthField = contentLengthName := by
    have hall := toLowercase_serverFields
    simp only [List.map_cons, List.map_nil, List.cons.injEq, and_true] at hall
    exact hall.2.2.2
  have hnodup := serverNames_nodup
  simp only [List.nodup_cons, List.mem_cons, List.not_mem_nil, or_false, not_or] at hnodup
  obtain ⟨⟨-, -, hdate, hdate'⟩, ⟨-, hconnection, hconnection'⟩, ⟨halive, halive'⟩, hcoding, -⟩ := hnodup
  have hlength : Http.valuesOf Http.contentLengthName (meant serde date o a).fields =
      [encodeUtf8 (decimal a.body.length)] := by
    refine (valuesOf_encode hnames contentLengthName).trans ?_
    rw [allHeaders, List.append_assoc (appHeaders serde o a), List.filter_append, List.filter_append, happ,
      filter_serverHeaders contentLengthName (Ne.symm hdate) (Ne.symm hconnection) (Ne.symm halive), hframing]
    simp [framingHeaders, hlower]
  have hte : Http.valuesOf Http.transferEncodingName (meant serde date o a).fields =
      ((appHeaders serde o a).filter fun x => toLowercase x.1 = transferEncodingName).map fun x => encodeUtf8 x.2 := by
    refine (valuesOf_encode hnames transferEncodingName).trans ?_
    rw [allHeaders, List.append_assoc (appHeaders serde o a), List.filter_append, List.filter_append,
      filter_serverHeaders transferEncodingName (Ne.symm hdate') (Ne.symm hconnection') (Ne.symm halive'), hframing]
    simp [framingHeaders, hlower, hcoding]
  rw [Http.contentLength, hlength, hte]
  split_ifs with hnone
  · have hfilter : (appHeaders serde o a).filter (fun x => toLowercase x.1 = transferEncodingName) = [] :=
      List.filter_eq_nil_iff.mpr fun x hx => by simpa using hnone x hx
    rw [hfilter]
    exact Http.number_decimal _
  · rw [not_forall] at hnone
    obtain ⟨x, hnone⟩ := hnone
    obtain ⟨hx, heq⟩ := Classical.not_imp.mp hnone
    rw [not_not] at heq
    cases hfilter : (appHeaders serde o a).filter (fun x => toLowercase x.1 = transferEncodingName) with
    | nil => exact absurd heq (by simpa using List.filter_eq_nil_iff.mp hfilter x hx)
    | cons y ys => rfl

theorem readable_iff {h : Str × Str} : Readable h ↔ (encodeUtf8 h.1 ≠ [] ∧ ∀ b ∈ encodeUtf8 h.1, Http.isTchar b = true) ∧
    (∀ b ∈ encodeUtf8 h.2, Http.isFieldByte b = true) ∧ Http.trimBlanks (encodeUtf8 h.2) = encodeUtf8 h.2 := by
  rw [Readable, isValidHeaderName_iff, isValidHeaderValue_iff]
  rfl

/-- A transfer coding of the application is sent unless its name is skipped. -/
theorem noCoding_iff (haccepted : Accepted serde o a) :
    (∀ h ∈ appHeaders serde o a, toLowercase h.1 ≠ transferEncodingName) ↔ transferEncodingName ∈ o.skipped ∨
      ∀ h ∈ appHeaders serde o a, toAsciiLowercase h.1 ≠ transferEncodingName := by
  have hascii : ∀ h ∈ appHeaders serde o a, toLowercase h.1 = toAsciiLowercase h.1 :=
    fun h hh => toLowercase_of_ascii (ascii_of_validName (haccepted.headers h hh).1)
  constructor
  · exact fun hall => .inr fun h hh => hascii h hh ▸ hall h hh
  · rintro (hskip | hall) h hh
    · intro heq
      have hkept := (List.mem_filter.mp hh).2
      simp [heq, hskip] at hkept
    · exact hascii h hh ▸ hall h hh

theorem wellFormed_iff_fits (haccepted : Accepted serde o a) (hframing : o.framing = 0)
    (hskip : contentLengthName ∈ o.skipped) : (meant serde date o a).WellFormed ↔ Fits serde o a := by
  have hread : (∀ h ∈ allHeaders serde date o a, Readable h) ↔ _ := readable_allHeaders haccepted hframing
  have hlength : Http.contentLength (meant serde date o a).fields = _ := contentLength_meant haccepted hframing hskip
  have hcoding := noCoding_iff haccepted
  have hfields : (∀ f ∈ (meant serde date o a).fields, (f.1 ≠ [] ∧ ∀ b ∈ f.1, Http.isTchar b = true) ∧
      (∀ b ∈ f.2, Http.isFieldByte b = true) ∧ Http.trimBlanks f.2 = f.2) ↔
        ∀ h ∈ allHeaders serde date o a, Readable h := by
    simp only [meant, List.forall_mem_map, readable_iff]
  constructor
  · intro h
    obtain ⟨hunpadded, halive⟩ := hread.mp (hfields.mp fun f hf => ⟨h.names f hf, h.values f hf⟩)
    refine ⟨h.status, fun hless => ?_, hunpadded, hcoding.mp ?_, halive⟩
    · have hbody := h.body
      rwa [if_pos (show Http.bodyless (meant serde date o a).status = true from hless)] at hbody
    · by_contra hnone
      exact h.framed (hlength.trans (if_neg hnone))
  · intro h
    have hnone := hcoding.mpr h.coding
    rw [if_pos hnone] at hlength
    have hall := hfields.mpr (hread.mpr ⟨h.unpadded, h.keepAlive⟩)
    refine ⟨h.status, isValidStatusText_iff.mp haccepted.statusText, fun f hf => (hall f hf).1, fun f hf => (hall f hf).2,
      by simp [hlength], ?_⟩
    split
    · rename_i hless
      exact h.body hless
    · exact hlength

end ThreeVa.HttpServer.Respond
