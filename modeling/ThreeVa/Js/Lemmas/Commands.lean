import ThreeVa.Js.Commands
import ThreeVa.Lib.Lines

/-!
# The command lines are the commands written out
-/

namespace ThreeVa.Js
open Text CommandLine

namespace Imap

/-! ## Lists of flags -/

theorem writeParams_flagsAfter (flag : Str) (flags : List Str) :
    writeParams (flagsAfter (flag :: flags)) = ' ' :: flagStr (flag :: flags) ++ [')'] := by
  induction flags generalizing flag with
  | nil => simp [flagsAfter, writeParams, flagStr, Kind.write]
  | cons flag' flags ih =>
      rw [flagsAfter, writeParams_cons, ih]
      · simp [flagStr, Kind.write]
      · simp

theorem writeParams_flagList (flags : List Str) : writeParams (flagList flags) = " (".toList ++ flagStr flags ++ [')'] := by
  cases flags with
  | nil => rfl
  | cons flag flags =>
      cases flags with
      | nil => simp [flagList, writeParams, flagStr, Kind.write]
      | cons flag' flags =>
          rw [flagList, writeParams_cons, writeParams_flagsAfter]
          · simp [flagStr, Kind.write]
          · simp

theorem writeParams_section (bodies : Str) :
    writeParams [section' bodies] = " (".toList ++ fetchItems bodies ++ [')'] := by
  unfold section' fetchItems
  repeat' split
  all_goals simp [writeParams, constant, Kind.write]

def statusParams : List (Kind × Str) :=
  [constant "(MESSAGES".toList, constant "RECENT".toList, constant "UNSEEN".toList, constant "UIDNEXT".toList,
    constant "UIDVALIDITY)".toList]

theorem writeParams_status : " (".toList ++ statusItems ++ ")".toList = writeParams statusParams := rfl

theorem critStr_eq (criteria : List Criterion) : critStr criteria = writeParams (criteria.flatMap criterionParams) := by
  unfold critStr writeParams
  rw [List.flatMap_assoc]
  refine List.flatMap_congr fun criterion _ => ?_
  cases criterion <;> simp [criterionParams, searchKey, Kind.write]

/-! ## Searching -/

def Graphic (c : Char) : Prop := 33 ≤ c.toNat ∧ c.toNat ≤ 126

theorem isJsSpace_of_graphic {c : Char} (h : Graphic c) : isJsSpace c = false := by
  have hfeff : c ≠ '\uFEFF' := by
    rintro rfl
    exact absurd h.2 (by decide)
  have hspace : isWhitespace c = false := by
    unfold Graphic at h
    simp only [isWhitespace, Bool.or_eq_false_iff, Bool.and_eq_false_iff, decide_eq_false_iff_not]
    omega
  simp [isJsSpace, hspace, hfeff]

theorem graphic_of_isNumber {s : Str} (h : isNumber s = true) : ∀ c ∈ s, Graphic c := by
  intro c hc
  rw [isNumber, Bool.and_eq_true] at h
  have hdigit := List.all_eq_true.mp h.2 c hc
  unfold Graphic
  simp only [Char.isDigit, Bool.and_eq_true, decide_eq_true_eq, UInt32.le_iff_toNat_le] at hdigit
  have h0 : (48 : Nat) ≤ c.toNat := hdigit.1
  have h9 : c.toNat ≤ 57 := hdigit.2
  omega

theorem graphic_of_isSequenceSet {s : Str} (h : isSequenceSet s = true) : s ≠ [] ∧ ∀ c ∈ s, Graphic c := by
  refine ⟨by rintro rfl; exact absurd h (by decide), fun c hc => ?_⟩
  rw [isSequenceSet, List.all_eq_true] at h
  rw [← show [','].intercalate (s.splitOn ',') = s from List.intercalate_splitOn ','] at hc
  rcases mem_intercalate hc with rfl | ⟨range, hrange, hc⟩
  · exact ⟨by decide, by decide⟩
  · have hends := (Bool.and_eq_true _ _ ▸ h range hrange).2
    rw [← show [':'].intercalate (range.splitOn ':') = range from List.intercalate_splitOn ':'] at hc
    rcases mem_intercalate hc with rfl | ⟨n, hn, hc⟩
    · exact ⟨by decide, by decide⟩
    · rcases (Bool.or_eq_true _ _).mp (List.all_eq_true.mp hends n hn) with hnumber | hstar
      · exact graphic_of_isNumber hnumber c hc
      · rw [of_decide_eq_true hstar, List.mem_singleton] at hc
        subst hc
        exact ⟨by decide, by decide⟩

theorem graphic_of_isAtom {s : Str} (h : isAtom s = true) : s ≠ [] ∧ ∀ c ∈ s, Graphic c := by
  rw [isAtom, Bool.and_eq_true] at h
  refine ⟨by rintro rfl; exact absurd h.1 (by decide), fun c hc => ?_⟩
  have hchar := List.all_eq_true.mp h.2 c hc
  simp only [isAtomChar, Bool.and_eq_true, decide_eq_true_eq] at hchar
  exact hchar.1

/-- A search key of the grammar. -/
def IsKey (k : Str) : Prop := isAtom k = true ∨ isSequenceSet k = true

theorem IsKey.tight {k : Str} (h : IsKey k) : Tight isJsSpace k := by
  obtain ⟨hne, hgraphic⟩ := h.elim graphic_of_isAtom graphic_of_isSequenceSet
  exact tight_of_clean hne fun c hc => isJsSpace_of_graphic (hgraphic c hc)

def criterionText : Criterion → Str
  | .key k => k
  | .pair k value => k ++ ([' ', '"'] ++ value ++ ['"'])

theorem tight_criterionText {criterion : Criterion} (h : ∀ p ∈ criterionParams criterion, p.1.Allows p.2) :
    Tight isJsSpace (criterionText criterion) := by
  cases criterion with
  | key k => exact (IsKey.tight ((Bool.or_eq_true _ _).mp (h _ List.mem_cons_self).1))
  | pair k value =>
      have hk : Tight isJsSpace k := IsKey.tight ((Bool.or_eq_true _ _).mp (h _ List.mem_cons_self).1)
      refine Tight.append hk.ne (by simp) hk.first ?_
      rw [List.getLast?_concat]
      intro c hc
      obtain rfl := Option.some.inj hc
      decide

theorem tight_search {criteria : List Criterion} (hne : criteria ≠ [])
    (h : ∀ p ∈ criteria.flatMap criterionParams, p.1.Allows p.2) :
    ∃ text, critStr criteria = ' ' :: text ∧ Tight isJsSpace text := by
  have hcrit : ∀ criterion criteria, critStr (criterion :: criteria) = ' ' :: criterionText criterion ++ critStr criteria := by
    intro criterion criteria
    cases criterion <;> simp [critStr, criterionText]
  induction criteria with
  | nil => exact absurd rfl hne
  | cons criterion criteria ih =>
      rw [List.flatMap_cons, List.forall_mem_append] at h
      have hfirst := tight_criterionText h.1
      rw [hcrit]
      by_cases hrest : criteria = []
      · subst hrest
        exact ⟨criterionText criterion, by simp [critStr], hfirst⟩
      · obtain ⟨text, htext, htight⟩ := ih hrest h.2
        refine ⟨criterionText criterion ++ critStr criteria, rfl, ?_⟩
        refine Tight.append hfirst.ne (by simp [htext]) hfirst.first ?_
        rw [htext, List.getLast?_cons_of_ne_nil htight.ne]
        exact htight.last

theorem jsTrim_space (s : Str) : jsTrim (' ' :: s) = jsTrim s := by
  rw [jsTrim, List.dropWhile_cons_of_pos (by decide)]
  rfl

theorem jsTrim_of_tight {s : Str} (h : Tight isJsSpace s) : jsTrim s = s := by
  rw [jsTrim, h.dropWhile_eq, h.rdropWhile_eq]

theorem length_jsTrim (s : Str) : (jsTrim s).length ≤ s.length ∧ (s.length ≤ (jsTrim s).length → jsTrim s = s) := by
  have hstart : s.dropWhile isJsSpace <:+ s := List.dropWhile_suffix _
  have hend : jsTrim s <+: s.dropWhile isJsSpace := List.rdropWhile_prefix _ _
  refine ⟨hend.length_le.trans hstart.length_le, fun h => ?_⟩
  have hs : s.dropWhile isJsSpace = s := hstart.eq_of_length (by have := hend.length_le; have := hstart.length_le; omega)
  rw [hs] at hend
  exact hend.eq_of_length (by have := hend.length_le; omega)

/-! ## The lines -/

/-- Every command but `append` and a search is sent as it is written. -/
theorem cmd_eq (tag : Str) (call : ImapCall) (happend : ∀ mailbox body, call ≠ .append mailbox body)
    (hsearch : ∀ criteria, call ≠ .search criteria) : cmd tag call = tag ++ keyword call ++ writeParams (params call) := by
  cases call with
  | append mailbox body => exact absurd rfl (happend mailbox body)
  | search criteria => exact absurd rfl (hsearch criteria)
  | login username password =>
      show tag ++ " LOGIN \"".toList ++ username ++ "\" \"".toList ++ password ++ "\"".toList =
        tag ++ " LOGIN".toList ++ writeParams [(.quoted, username), (.quoted, password)]
      simp [writeParams, Kind.write]
  | list reference mailbox =>
      show tag ++ " LIST \"".toList ++ reference ++ "\" \"".toList ++ orElse mailbox ['*'] ++ "\"".toList =
        tag ++ " LIST".toList ++ writeParams [(.quoted, reference), (.quoted, orElse mailbox ['*'])]
      simp [writeParams, Kind.write]
  | status mailbox =>
      show tag ++ " STATUS \"".toList ++ mailbox ++ "\" (".toList ++ statusItems ++ ")".toList =
        tag ++ " STATUS".toList ++ writeParams ((.quoted, mailbox) :: statusParams)
      rw [writeParams_cons, ← writeParams_status]
      simp [Kind.write]
  | select mailbox readOnly =>
      cases readOnly with
      | true =>
          show tag ++ " EXAMINE \"".toList ++ mailbox ++ "\"".toList =
            tag ++ " EXAMINE".toList ++ writeParams [(.quoted, mailbox)]
          simp [writeParams, Kind.write]
      | false =>
          show tag ++ " SELECT \"".toList ++ mailbox ++ "\"".toList =
            tag ++ " SELECT".toList ++ writeParams [(.quoted, mailbox)]
          simp [writeParams, Kind.write]
  | create mailbox =>
      show tag ++ " CREATE \"".toList ++ mailbox ++ "\"".toList =
        tag ++ " CREATE".toList ++ writeParams [(.quoted, mailbox)]
      simp [writeParams, Kind.write]
  | delete mailbox =>
      show tag ++ " DELETE \"".toList ++ mailbox ++ "\"".toList =
        tag ++ " DELETE".toList ++ writeParams [(.quoted, mailbox)]
      simp [writeParams, Kind.write]
  | subscribe mailbox =>
      show tag ++ " SUBSCRIBE \"".toList ++ mailbox ++ "\"".toList =
        tag ++ " SUBSCRIBE".toList ++ writeParams [(.quoted, mailbox)]
      simp [writeParams, Kind.write]
  | rename oldMailbox newMailbox =>
      show tag ++ " RENAME \"".toList ++ oldMailbox ++ "\" \"".toList ++ newMailbox ++ "\"".toList =
        tag ++ " RENAME".toList ++ writeParams [(.quoted, oldMailbox), (.quoted, newMailbox)]
      simp [writeParams, Kind.write]
  | fetch sequence bodies =>
      show tag ++ " FETCH ".toList ++ sequence ++ " (".toList ++ fetchItems bodies ++ ")".toList =
        tag ++ " FETCH".toList ++ writeParams [(sequenceSet, sequence), section' bodies]
      rw [writeParams_cons, writeParams_section]
      simp [sequenceSet, Kind.write]
  | copy sequence mailbox =>
      show tag ++ " COPY ".toList ++ sequence ++ " \"".toList ++ mailbox ++ "\"".toList =
        tag ++ " COPY".toList ++ writeParams [(sequenceSet, sequence), (.quoted, mailbox)]
      simp [writeParams, Kind.write, sequenceSet]
  | move sequence mailbox =>
      show tag ++ " MOVE ".toList ++ sequence ++ " \"".toList ++ mailbox ++ "\"".toList =
        tag ++ " MOVE".toList ++ writeParams [(sequenceSet, sequence), (.quoted, mailbox)]
      simp [writeParams, Kind.write, sequenceSet]
  | store op sequence flags =>
      show tag ++ " STORE ".toList ++ sequence ++ " ".toList ++ storeName op ++ " (".toList ++ flagStr flags ++ ")".toList =
        tag ++ " STORE".toList ++ writeParams ((sequenceSet, sequence) :: constant (storeName op) :: flagList flags)
      rw [writeParams_cons, writeParams_cons, writeParams_flagList]
      simp [sequenceSet, constant, Kind.write]

end Imap

theorem writeParams_rest (text : Str) : writeParams [(.rest, text)] = ' ' :: text := by simp [writeParams, Kind.write]

theorem writeParams_word (ok : Str → Bool) (text : Str) : writeParams [(.word [] [] ok, text)] = ' ' :: text := by
  simp [writeParams, Kind.write]

theorem writeParams_trailing (text : Str) : writeParams [(.trailing, text)] = " :".toList ++ text := by
  simp [writeParams, Kind.write]

theorem Pop3.cmd_eq (call : Pop3Call) : Pop3.cmd call = Pop3.keyword call ++ writeParams (Pop3.params call) := by
  cases call with
  | user text | pass text =>
      show _ = _ ++ writeParams [(.rest, text)]
      rw [writeParams_rest]
      rfl
  | list msgNumber | retr msgNumber | dele msgNumber | uidl msgNumber =>
      show _ = _ ++ writeParams [(number, msgNumber)]
      rw [number, writeParams_word]
      rfl

theorem Irc.cmd_eq (call : IrcCall) : Irc.cmd call = Irc.keyword call ++ writeParams (Irc.params call) := by
  cases call with
  | send line =>
      show line = line ++ []
      rw [List.append_nil]
  | pass password =>
      show "PASS ".toList ++ password = "PASS".toList ++ writeParams [(middle, password)]
      simp [writeParams, Kind.write, middle]
  | nick newnick =>
      show "NICK ".toList ++ newnick = "NICK".toList ++ writeParams [(middle, newnick)]
      simp [writeParams, Kind.write, middle]
  | user username mode realname =>
      show "USER ".toList ++ username ++ " ".toList ++ Imap.orElse mode ['0'] ++ " * :".toList ++
          Imap.orElse realname username =
        "USER".toList ++ writeParams [(middle, username), (middle, Imap.orElse mode ['0']), constant ['*'],
          (.trailing, Imap.orElse realname username)]
      simp [writeParams, Kind.write, middle, constant]
  | privmsg target text =>
      show "PRIVMSG ".toList ++ target ++ " :".toList ++ text =
        "PRIVMSG".toList ++ writeParams [(middle, target), (.trailing, text)]
      simp [writeParams, Kind.write, middle]
  | notice target text =>
      show "NOTICE ".toList ++ target ++ " :".toList ++ text =
        "NOTICE".toList ++ writeParams [(middle, target), (.trailing, text)]
      simp [writeParams, Kind.write, middle]
  | join channel key =>
      show "JOIN ".toList ++ channel ++ key.elim [] (" ".toList ++ ·) =
        "JOIN".toList ++ writeParams ((middle, channel) :: (key.map fun key => (middle, key)).toList)
      cases key <;> simp [writeParams, Kind.write, middle]
  | part channel reason =>
      show "PART ".toList ++ channel ++ reason.elim [] (" :".toList ++ ·) =
        "PART".toList ++ writeParams ((middle, channel) :: (reason.map fun reason => (Kind.trailing, reason)).toList)
      cases reason <;> simp [writeParams, Kind.write, middle]
  | kick channel nick reason =>
      show "KICK ".toList ++ channel ++ " ".toList ++ nick ++ reason.elim [] (" :".toList ++ ·) =
        "KICK".toList ++
          writeParams ((middle, channel) :: (middle, nick) :: (reason.map fun reason => (Kind.trailing, reason)).toList)
      cases reason <;> simp [writeParams, Kind.write, middle]
  | quit reason =>
      show "QUIT".toList ++ reason.elim [] (" :".toList ++ ·) =
        "QUIT".toList ++ writeParams (reason.map fun reason => (Kind.trailing, reason)).toList
      cases reason <;> simp [writeParams, Kind.write]
  | mode target mode =>
      show ("MODE ".toList ++ target ++ if mode = [] then [] else " ".toList ++ mode) =
        "MODE".toList ++ writeParams ((middle, target) :: if mode = [] then [] else [(middle, mode)])
      by_cases h : mode = [] <;> simp [writeParams, Kind.write, middle, h]

theorem Ftp.cmd_eq (call : FtpCall) : Ftp.cmd call = Ftp.keyword call ++ writeParams (Ftp.params call) := by
  cases call with
  | list path =>
      show ("LIST".toList ++ if path = [] then [] else ' ' :: path) =
        "LIST".toList ++ writeParams (if path = [] then [] else [(.rest, path)])
      by_cases h : path = [] <;> simp [writeParams, Kind.write, h]
  | user text | pass text | cwd text | mkdir text | rmdir text | get text | put text | append text | delete text
  | renameFrom text | renameTo text | site text =>
      show _ = _ ++ writeParams [(.rest, text)]
      rw [writeParams_rest]
      rfl

/-! ## Calls -/

namespace Call

theorem write_eq (call : Call) : call.command.write = call.keyword ++ writeParams call.params := rfl

theorem sendsOne_of_write {call : Call} (h : call.cmd = call.keyword ++ writeParams call.params) :
    call.SendsOne ↔ call.command.Clean := by
  rw [SendsOne, sent, h, ← write_eq]
  exact call.command.isSent_write

/-- The line of `append` is ended inside the command already. -/
theorem not_sendsOne_append (tag : Nat) (mailbox body : Str) : ¬ SendsOne (.imap tag (.append mailbox body)) := by
  rintro ⟨line, hline, hunbroken, -⟩
  obtain rfl := List.append_cancel_right hline
  refine (hunbroken '\r' ?_).1 rfl
  show '\r' ∈ Imap.nextTag tag ++ " APPEND \"".toList ++ mailbox ++ "\" \x7b".toList
    ++ decimal (encodeUtf8 body).length ++ ['\x7d', '\r', '\n']
  simp

theorem params_search (tag : Nat) (criteria : List Criterion) :
    (command (.imap tag (.search criteria))).params = criteria.flatMap Imap.criterionParams := rfl

theorem cmd_search (tag : Nat) (criteria : List Criterion) :
    cmd (.imap tag (.search criteria)) =
      keyword (.imap tag (.search criteria)) ++ ' ' :: Imap.jsTrim (Imap.critStr criteria) := by
  show Imap.nextTag tag ++ " SEARCH ".toList ++ Imap.jsTrim (Imap.critStr criteria) =
    (Imap.nextTag tag ++ " SEARCH".toList) ++ ' ' :: Imap.jsTrim (Imap.critStr criteria)
  simp

/-- A search that is read as it was given is sent as it is written: what is cut off would be missing. -/
theorem cmd_of_sendsOne_search {tag : Nat} {criteria : List Criterion} (h : SendsOne (.imap tag (.search criteria))) :
    criteria ≠ [] ∧ cmd (.imap tag (.search criteria)) = (command (.imap tag (.search criteria))).write := by
  obtain ⟨line, hline, -, hparse⟩ := h
  obtain rfl : line = _ := (List.append_cancel_right hline).symm
  rw [cmd_search, Command.parse, show (command (.imap tag (.search criteria))).keyword = keyword (.imap tag (.search criteria))
    from rfl, stripPrefix_eq_some.mpr rfl, Option.bind_some, params_search] at hparse
  have hlen := length_of_readParams hparse
  cases criteria with
  | nil => exact absurd hparse (by simp [readParams])
  | cons criterion criteria =>
      refine ⟨by simp, ?_⟩
      have htext : ∃ text, Imap.critStr (criterion :: criteria) = ' ' :: text := by
        cases criterion <;> exact ⟨_, rfl⟩
      obtain ⟨text, htext⟩ := htext
      have hsame : Imap.jsTrim text = text := by
        rw [← Imap.critStr_eq, htext, Imap.jsTrim_space, List.length_cons, List.length_cons] at hlen
        exact (Imap.length_jsTrim text).2 (by omega)
      rw [cmd_search, write_eq]
      show _ = _ ++ writeParams ((criterion :: criteria).flatMap Imap.criterionParams)
      rw [← Imap.critStr_eq, htext, Imap.jsTrim_space, hsame]

theorem sendsOne_search (tag : Nat) (criteria : List Criterion) :
    SendsOne (.imap tag (.search criteria)) ↔ Clean (.imap tag (.search criteria)) := by
  have hwrite : cmd (.imap tag (.search criteria)) = (command (.imap tag (.search criteria))).write →
      (SendsOne (.imap tag (.search criteria)) ↔ (command (.imap tag (.search criteria))).Clean) :=
    fun h => sendsOne_of_write h
  constructor
  · intro h
    obtain ⟨hne, hcmd⟩ := cmd_of_sendsOne_search h
    exact ⟨hne, (hwrite hcmd).mp h⟩
  · rintro ⟨hne, hclean⟩
    obtain ⟨text, htext, htight⟩ := Imap.tight_search hne fun p hp => (hclean.2 p hp).2
    refine (hwrite ?_).mpr hclean
    rw [cmd_search, write_eq]
    show _ = _ ++ writeParams (criteria.flatMap Imap.criterionParams)
    rw [← Imap.critStr_eq, htext, Imap.jsTrim_space, Imap.jsTrim_of_tight htight]

theorem sendsOne_iff (call : Call) : call.SendsOne ↔ call.Clean := by
  cases call with
  | imap tag call =>
      by_cases happend : ∃ mailbox body, call = .append mailbox body
      · obtain ⟨mailbox, body, rfl⟩ := happend
        exact iff_of_false (not_sendsOne_append tag mailbox body) id
      · by_cases hsearch : ∃ criteria, call = .search criteria
        · obtain ⟨criteria, rfl⟩ := hsearch
          exact sendsOne_search tag criteria
        · have hcmd := Imap.cmd_eq (Imap.nextTag tag) call (fun mailbox body h => happend ⟨mailbox, body, h⟩)
            fun criteria h => hsearch ⟨criteria, h⟩
          rw [sendsOne_of_write (show (Call.imap tag call).cmd = _ from hcmd)]
          cases call with
          | append mailbox body => exact absurd ⟨mailbox, body, rfl⟩ happend
          | search criteria => exact absurd ⟨criteria, rfl⟩ hsearch
          | _ => exact Iff.rfl
  | pop3 call => exact sendsOne_of_write (Pop3.cmd_eq call)
  | irc call => exact sendsOne_of_write (Irc.cmd_eq call)
  | ftp call => exact sendsOne_of_write (Ftp.cmd_eq call)

end Call

end ThreeVa.Js
