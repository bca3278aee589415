import ThreeVa.Pm.Auditor

/-!
# Audits

What each loop of an audit adds to the cache and to the results, then a whole audit and the audits one after the other.
-/

namespace ThreeVa.Pm.Auditor
open Text

variable {ρ : Type}

/-! ## Names of files -/

theorem at_notMem_safeName {name : Str} (h : '@' ∉ name.dropWhile (· = '@')) : '@' ∉ safeName name := by
  intro hat
  obtain ⟨c, hc, hat⟩ := List.mem_flatMap.mp hat
  split at hat
  · revert hat
    decide
  · exact h (List.mem_singleton.mp hat ▸ hc)

/-! ## Chunks -/

theorem flatten_chunksUpTo {α : Type} {size : Nat} (hsize : 0 < size) (fuel : Nat) (l : List α) (h : l.length ≤ fuel) :
    (chunksUpTo size fuel l).flatten = l := by
  induction fuel generalizing l with
  | zero =>
      rw [List.length_eq_zero_iff.mp (Nat.le_zero.mp h)]
      rfl
  | succ fuel ih =>
      cases l with
      | nil => rfl
      | cons a l =>
          rw [chunksUpTo, List.flatten_cons, ih _ (by rw [List.length_drop]; omega), List.take_append_drop]
          simp

theorem flatten_queries (a : Audit ρ) (cache : Cache ρ) : (a.queries cache).flatten = (a.looked cache).toFetch :=
  flatten_chunksUpTo (by decide) _ _ (Nat.le_refl _)

/-! ## The loops -/

section Loops

variable {cache : Cache ρ} {b : Batch ρ} {chunk : List Pair} {s s' : Progress ρ} {p q : Pair}
  {vulns : List (RawVuln ρ)} {raw : Entries Pair (List (RawVuln ρ))}

theorem isSome_insert (h : (raw.get? q).isSome) : ((raw.insert p vulns).get? q).isSome := by
  rw [Entries.get?_insert]
  split
  · rfl
  · exact h

theorem isSome_insert_self : ((raw.insert p vulns).get? p).isSome := by
  rw [Entries.get?_insert, if_pos rfl]
  rfl

/-- What is found in the cache, with the clock at its reading. -/
structure LookedUp (cache : Cache ρ) (force : Bool) (readAt : Nat → Nat) (packages : List Pair) (i : Nat)
    (l l' : Looked ρ) : Prop where
  raw : ∀ p vulns, l'.rawResults.get? p = some vulns → l.rawResults.get? p = some vulns ∨
    ∃ j, packages[j]? = some p ∧ readCache cache p force (readAt (i + j)) = some vulns
  keeps : ∀ p, (l.rawResults.get? p).isSome → (l'.rawResults.get? p).isSome
  fetches : ∀ p ∈ l.toFetch, p ∈ l'.toFetch
  found : ∀ p ∈ packages, (l'.rawResults.get? p).isSome ∨ p ∈ l'.toFetch
  known : ∀ p ∈ l'.toFetch, p ∈ l.toFetch ∨ p ∈ packages

theorem lookUp_spec (force : Bool) (readAt : Nat → Nat) (packages : List Pair) (i : Nat) (l : Looked ρ) :
    LookedUp cache force readAt packages i l (lookUp cache force readAt i packages l) := by
  induction packages generalizing i l with
  | nil =>
      exact { raw := fun p vulns h => .inl h
              keeps := fun p h => h
              fetches := fun p h => h
              found := fun p h => by cases h
              known := fun p h => .inl h }
  | cons q packages ih =>
      rw [lookUp]
      cases hread : readCache cache q force (readAt i) with
      | some cached =>
          have hrest := ih (i + 1) { l with cacheHits := l.cacheHits + 1, rawResults := l.rawResults.insert q cached }
          refine ⟨fun p vulns h => ?_, fun p h => hrest.keeps p (isSome_insert h), fun p h => hrest.fetches p h,
            fun p hp => ?_, fun p h => (hrest.known p h).imp_right (List.mem_cons_of_mem _)⟩
          · rcases hrest.raw p vulns h with h | ⟨j, hj, h⟩
            · rw [Entries.get?_insert] at h
              split at h
              · rename_i hp
                cases h
                exact .inr ⟨0, by rw [hp]; rfl, by rw [hp]; exact hread⟩
              · exact .inl h
            · exact .inr ⟨j + 1, hj, by rw [← h]; congr 2; omega⟩
          · rcases List.mem_cons.mp hp with rfl | hp
            · exact .inl (hrest.keeps p isSome_insert_self)
            · exact hrest.found p hp
      | none =>
          have hrest := ih (i + 1) { l with toFetch := l.toFetch ++ [q] }
          refine ⟨fun p vulns h => ?_, fun p h => hrest.keeps p h,
            fun p h => hrest.fetches p (List.mem_append_left _ h), fun p hp => ?_, fun p h => ?_⟩
          · rcases hrest.raw p vulns h with h | ⟨j, hj, h⟩
            · exact .inl h
            · exact .inr ⟨j + 1, hj, by rw [← h]; congr 2; omega⟩
          · rcases List.mem_cons.mp hp with rfl | hp
            · exact .inr (hrest.fetches p (List.mem_append_right _ (List.mem_singleton.mpr rfl)))
            · exact hrest.found p hp
          · rcases hrest.known p h with h | h
            · rcases List.mem_append.mp h with h | h
              · exact .inl h
              · exact .inr (List.mem_singleton.mp h ▸ List.mem_cons_self)
            · exact .inr (List.mem_cons_of_mem _ h)

/-- An answer to a query from the `i`-th on. -/
def AnswerIn (b : Batch ρ) (chunk : List Pair) (i : Nat) (results : List (List (RawVuln ρ))) (answer : Answer ρ) : Prop :=
  ∃ j, chunk[i + j]? = some answer.pair ∧ results[j]? = some answer.vulns ∧ answer.time = b.clock (i + j)

theorem AnswerIn.cons {i : Nat} {results : List (List (RawVuln ρ))} {answer : Answer ρ}
    (h : AnswerIn b chunk (i + 1) results answer) : AnswerIn b chunk i (vulns :: results) answer := by
  obtain ⟨j, hquery, hresult, htime⟩ := h
  have hindex : i + 1 + j = i + (j + 1) := by omega
  rw [hindex] at hquery htime
  exact ⟨j + 1, hquery, hresult, htime⟩

/-- What a step adds: entries under `Adds`, and results that are such answers or otherwise as `Other` says. -/
structure Extends (Adds : Answer ρ → Prop) (Other : Pair → List (RawVuln ρ) → Prop) (s s' : Progress ρ) : Prop where
  cache : ∀ f entry, s'.cache f = some entry → s.cache f = some entry ∨
    ∃ p, cacheFilename p = f ∧ Adds ⟨p, entry.vulns, entry.fetchedAtUnix⟩
  raw : ∀ p vulns, s'.rawResults.get? p = some vulns → s.rawResults.get? p = some vulns ∨
    (∃ time, Adds ⟨p, vulns, time⟩) ∨ Other p vulns
  keeps : ∀ p, (s.rawResults.get? p).isSome → (s'.rawResults.get? p).isSome

theorem Extends.refl {Adds : Answer ρ → Prop} {Other : Pair → List (RawVuln ρ) → Prop} : Extends Adds Other s s where
  cache _ _ h := .inl h
  raw _ _ h := .inl h
  keeps _ h := h

theorem Extends.trans {Adds : Answer ρ → Prop} {Other : Pair → List (RawVuln ρ) → Prop} {s₁ s₂ s₃ : Progress ρ}
    (h : Extends Adds Other s₁ s₂) (h' : Extends Adds Other s₂ s₃) : Extends Adds Other s₁ s₃ where
  cache f entry hf := (h'.cache f entry hf).elim (h.cache f entry) .inr
  raw p vulns hp := (h'.raw p vulns hp).elim (h.raw p vulns) .inr
  keeps p hp := h'.keeps p (h.keeps p hp)

theorem Extends.mono {Adds Adds' : Answer ρ → Prop} {Other Other' : Pair → List (RawVuln ρ) → Prop}
    (h : Extends Adds Other s s') (hadds : ∀ answer, Adds answer → Adds' answer)
    (hother : ∀ p vulns, Other p vulns → Other' p vulns) : Extends Adds' Other' s s' where
  cache f entry hf := (h.cache f entry hf).imp_right fun ⟨p, hp, hadd⟩ => ⟨p, hp, hadds _ hadd⟩
  raw p vulns hp := (h.raw p vulns hp).imp_right (.imp (fun ⟨time, hadd⟩ => ⟨time, hadds _ hadd⟩) (hother p vulns))
  keeps := h.keeps

theorem writeCache_spec {now : Nat} {fate : Fate} {f : Str} {entry : CacheEntry ρ}
    (h : writeCache cache p vulns now fate f = some entry) :
    cache f = some entry ∨ cacheFilename p = f ∧ entry = ⟨now, vulns⟩ := by
  cases fate with
  | stored =>
      rw [writeCache, Function.update_apply] at h
      split at h
      · rename_i hf
        cases h
        exact .inr ⟨hf.symm, rfl⟩
      · exact .inl h
  | failed => exact .inl h
  | torn =>
      rw [writeCache, Function.update_apply] at h
      split at h
      · cases h
      · exact .inl h

theorem storeAnswers_spec {i : Nat} {results : List (List (RawVuln ρ))} (h : storeAnswers b chunk i results s = some s') :
    Extends (AnswerIn b chunk i results) (fun _ _ => False) s s' ∧
      (∀ j p, j < results.length → chunk[i + j]? = some p → (s'.rawResults.get? p).isSome) ∧
      s'.networkErrors = s.networkErrors := by
  induction results generalizing i s with
  | nil =>
      cases h
      exact ⟨.refl, fun j p hj => absurd hj (Nat.not_lt_zero j), rfl⟩
  | cons vulns results ih =>
      rw [storeAnswers] at h
      split at h
      · cases h
      · rename_i q hq
        obtain ⟨hrest, hfound, herrors⟩ := ih h
        have hanswer : AnswerIn b chunk i (vulns :: results) ⟨q, vulns, b.clock i⟩ := ⟨0, hq, rfl, rfl⟩
        have hfirst : Extends (AnswerIn b chunk i (vulns :: results)) (fun _ _ => False) s
            { s with
              cache := writeCache s.cache q vulns (b.clock i) (b.fate i)
              rawResults := s.rawResults.insert q vulns } := by
          refine ⟨fun f entry hf => ?_, fun p v hp => ?_, fun p => isSome_insert⟩
          · rcases writeCache_spec hf with hold | ⟨hname, rfl⟩
            · exact .inl hold
            · exact .inr ⟨q, hname, hanswer⟩
          · rw [Entries.get?_insert] at hp
            split at hp
            · rename_i hpq
              cases hp
              exact .inr (.inl ⟨_, hpq ▸ hanswer⟩)
            · exact .inl hp
        refine ⟨hfirst.trans (hrest.mono (fun _ => AnswerIn.cons) fun _ _ h => h), fun j p hj hp => ?_, herrors⟩
        cases j with
        | zero =>
            obtain rfl : q = p := Option.some.inj (hq.symm.trans hp)
            exact hrest.keeps q isSome_insert_self
        | succ j => exact hfound j p (Nat.lt_of_succ_lt_succ hj) (by rw [← hp]; congr 1; omega)

theorem isSome_storeAnswers {i : Nat} {results : List (List (RawVuln ρ))} (h : i + results.length ≤ chunk.length) :
    (storeAnswers b chunk i results s).isSome := by
  induction results generalizing i s with
  | nil => rfl
  | cons vulns results ih =>
      rw [List.length_cons] at h
      rw [storeAnswers, List.getElem?_eq_getElem (by omega : i < chunk.length)]
      exact ih (by omega)

theorem fallBack_spec (cache : Cache ρ) (ps : List Pair) (raw : Entries Pair (List (RawVuln ρ))) :
    (∀ p vulns, (fallBack cache ps raw).get? p = some vulns → raw.get? p = some vulns ∨
      p ∈ ps ∧ vulns = readStaleCache cache p) ∧
    (∀ p, (raw.get? p).isSome → ((fallBack cache ps raw).get? p).isSome) ∧
    ∀ p ∈ ps, ((fallBack cache ps raw).get? p).isSome := by
  induction ps generalizing raw with
  | nil => exact ⟨fun _ _ h => .inl h, fun _ h => h, fun _ h => by cases h⟩
  | cons q ps ih =>
      obtain ⟨hraw, hkeeps, hfound⟩ := ih (raw.insert q (readStaleCache cache q))
      refine ⟨fun p vulns h => ?_, fun p h => hkeeps p (isSome_insert h), fun p hp => ?_⟩
      · rcases hraw p vulns h with h | ⟨hp, h⟩
        · rw [Entries.get?_insert] at h
          split at h
          · rename_i hpq
            cases h
            exact .inr ⟨hpq ▸ List.mem_cons_self, by rw [hpq]⟩
          · exact .inl h
        · exact .inr ⟨List.mem_cons_of_mem _ hp, h⟩
      · rcases List.mem_cons.mp hp with rfl | hp
        · exact hkeeps p isSome_insert_self
        · exact hfound p hp

/-- An answer of a batch that has not failed. -/
def Given (b : Batch ρ) (chunk : List Pair) (answer : Answer ρ) : Prop :=
  ∃ results, queryOsvBatch b = .ok results ∧ AnswerIn b chunk 0 results answer

/-- What the cache had for a package of a batch that has failed. -/
def FellBack (b : Batch ρ) (chunk : List Pair) (cache : Cache ρ) (p : Pair) (vulns : List (RawVuln ρ)) : Prop :=
  (∃ msg, queryOsvBatch b = .error msg) ∧ p ∈ chunk ∧ vulns = readStaleCache cache p

theorem fetchChunk_spec (h : fetchChunk b chunk s = some s') :
    Extends (Given b chunk) (FellBack b chunk s.cache) s s' ∧
      (∀ j p, chunk[j]? = some p → (∀ results, queryOsvBatch b = .ok results → j < results.length) →
        (s'.rawResults.get? p).isSome) ∧
      (s'.networkErrors ≠ [] ↔ s.networkErrors ≠ [] ∨ ∃ msg, queryOsvBatch b = .error msg) := by
  rw [fetchChunk] at h
  split at h
  · rename_i results hresults
    obtain ⟨hextends, hfound, herrors⟩ := storeAnswers_spec h
    refine ⟨hextends.mono (fun answer ha => ⟨results, hresults, ha⟩) fun _ _ h => h.elim, fun j p hp hj => ?_, ?_⟩
    · exact hfound j p (hj results hresults) (by rwa [Nat.zero_add])
    · rw [herrors]
      refine ⟨.inl, fun h => h.elim id fun herror => ?_⟩
      obtain ⟨msg, hmsg⟩ := herror
      rw [hresults] at hmsg
      cases hmsg
  · rename_i msg hmsg
    cases h
    obtain ⟨hraw, hkeeps, hfound⟩ := fallBack_spec s.cache chunk s.rawResults
    refine ⟨⟨fun f entry hf => .inl hf, fun p vulns hp => ?_, hkeeps⟩, fun j p hp _ => ?_, ?_⟩
    · exact (hraw p vulns hp).imp_right fun h => .inr ⟨⟨msg, hmsg⟩, h⟩
    · exact hfound p (List.mem_of_getElem? hp)
    · exact iff_of_true (by simp) (.inr ⟨msg, hmsg⟩)

theorem isSome_fetchChunk (h : ∀ results, queryOsvBatch b = .ok results → results.length ≤ chunk.length) :
    (fetchChunk b chunk s).isSome := by
  rw [fetchChunk]
  split
  · rename_i results hresults
    exact isSome_storeAnswers (by rw [Nat.zero_add]; exact h results hresults)
  · rfl

variable {batches : Nat → Batch ρ} {k : Nat} {queries : List (List Pair)}

/-- An answer of one of the batches. -/
def GivenBy (batches : Nat → Batch ρ) (k : Nat) (queries : List (List Pair)) (answer : Answer ρ) : Prop :=
  ∃ i chunk, queries[i]? = some chunk ∧ Given (batches (k + i)) chunk answer

/-- What a cache that holds what `Sound` says had for a package of a batch that has failed. -/
def FellBackBy (Sound : Cache ρ → Prop) (batches : Nat → Batch ρ) (k : Nat) (queries : List (List Pair)) (p : Pair)
    (vulns : List (RawVuln ρ)) : Prop :=
  ∃ i chunk cache, queries[i]? = some chunk ∧ Sound cache ∧ FellBack (batches (k + i)) chunk cache p vulns

theorem GivenBy.cons {answer : Answer ρ} (h : GivenBy batches (k + 1) queries answer) :
    GivenBy batches k (chunk :: queries) answer := by
  obtain ⟨i, c, hc, h⟩ := h
  rw [Nat.add_right_comm, Nat.add_assoc] at h
  exact ⟨i + 1, c, hc, h⟩

theorem FellBackBy.cons {Sound : Cache ρ → Prop} (h : FellBackBy Sound batches (k + 1) queries p vulns) :
    FellBackBy Sound batches k (chunk :: queries) p vulns := by
  obtain ⟨i, c, cache, hc, hsound, h⟩ := h
  rw [Nat.add_right_comm, Nat.add_assoc] at h
  exact ⟨i + 1, c, cache, hc, hsound, h⟩

theorem fetchAll_spec {Sound : Cache ρ → Prop}
    (hsound : ∀ s s' : Progress ρ, ∀ Other, Extends (GivenBy batches k queries) Other s s' → Sound s.cache → Sound s'.cache)
    (hs : Sound s.cache) (h : fetchAll batches k queries s = some s') :
    Extends (GivenBy batches k queries) (FellBackBy Sound batches k queries) s s' ∧
      (∀ i chunk j p, queries[i]? = some chunk → chunk[j]? = some p →
        (∀ results, queryOsvBatch (batches (k + i)) = .ok results → j < results.length) →
        (s'.rawResults.get? p).isSome) ∧
      (s'.networkErrors ≠ [] ↔ s.networkErrors ≠ [] ∨
        ∃ i < queries.length, ∃ msg, queryOsvBatch (batches (k + i)) = .error msg) := by
  induction queries generalizing k s with
  | nil =>
      cases h
      refine ⟨.refl, fun i chunk j p h => (by cases h), ?_⟩
      exact ⟨.inl, fun h => h.elim id fun ⟨i, hi, _⟩ => absurd hi (Nat.not_lt_zero i)⟩
  | cons chunk queries ih =>
      obtain ⟨s₁, hs₁, h⟩ := Option.bind_eq_some_iff.mp h
      obtain ⟨hfirst, hfound, herrors⟩ := fetchChunk_spec hs₁
      have hfirst' : Extends (GivenBy batches k (chunk :: queries)) (FellBackBy Sound batches k (chunk :: queries)) s s₁ :=
        hfirst.mono (fun _ ha => ⟨0, chunk, rfl, ha⟩) fun _ _ hf => ⟨0, chunk, s.cache, rfl, hs, hf⟩
      obtain ⟨hrest, hfound', herrors'⟩ := ih
        (fun s s' Other hext => hsound s s' Other (hext.mono (fun _ => GivenBy.cons) fun _ _ h => h))
        (hsound s s₁ _ hfirst' hs) h
      refine ⟨hfirst'.trans (hrest.mono (fun _ => GivenBy.cons) fun _ _ => FellBackBy.cons), fun i c j p hi hp hj => ?_, ?_⟩
      · cases i with
        | zero =>
            cases hi
            exact hrest.keeps p (hfound j p hp hj)
        | succ i =>
            refine hfound' i c j p hi hp fun results hresults => hj results ?_
            rwa [Nat.add_right_comm, Nat.add_assoc] at hresults
      · rw [herrors', herrors, or_assoc]
        refine or_congr_right ⟨fun h => ?_, fun ⟨i, hi, msg, hmsg⟩ => ?_⟩
        · rcases h with ⟨msg, hmsg⟩ | ⟨i, hi, msg, hmsg⟩
          · exact ⟨0, Nat.zero_lt_succ _, msg, hmsg⟩
          · rw [Nat.add_right_comm, Nat.add_assoc] at hmsg
            exact ⟨i + 1, Nat.succ_lt_succ hi, msg, hmsg⟩
        · cases i with
          | zero => exact .inl ⟨msg, hmsg⟩
          | succ i =>
              refine .inr ⟨i, Nat.lt_of_succ_lt_succ hi, msg, ?_⟩
              rwa [Nat.add_right_comm, Nat.add_assoc]

theorem isSome_fetchAll (h : ∀ i chunk results, queries[i]? = some chunk →
    queryOsvBatch (batches (k + i)) = .ok results → results.length ≤ chunk.length) :
    (fetchAll batches k queries s).isSome := by
  induction queries generalizing k s with
  | nil => rfl
  | cons chunk queries ih =>
      obtain ⟨s₁, hs₁⟩ := Option.isSome_iff_exists.mp
        (isSome_fetchChunk (b := batches k) (s := s) fun results hresults => h 0 chunk results rfl hresults)
      rw [fetchAll, hs₁]
      refine ih fun i c results hc hresults => h (i + 1) c results hc ?_
      rwa [Nat.add_right_comm, Nat.add_assoc] at hresults

theorem mem_answers {answer : Answer ρ} : answer ∈ b.answers chunk ↔ Given b chunk answer := by
  unfold Batch.answers Given
  split
  · rename_i results hresults
    rw [hresults]
    simp only [List.mem_map, Prod.exists, List.mem_zipIdx_iff_getElem?, List.getElem?_zip_eq_some, AnswerIn, Nat.zero_add,
      Except.ok.injEq, exists_eq_left']
    constructor
    · rintro ⟨name, version, vulns, j, ⟨hp, hvulns⟩, rfl⟩
      exact ⟨j, hp, hvulns, rfl⟩
    · rintro ⟨j, hp, hvulns, htime⟩
      exact ⟨answer.pair.1, answer.pair.2, answer.vulns, j, ⟨hp, hvulns⟩, by rw [← htime]⟩
  · rename_i msg hmsg
    rw [hmsg]
    exact iff_of_false List.not_mem_nil fun ⟨results, h, _⟩ => nomatch h

theorem mem_answersFrom {answer : Answer ρ} : answer ∈ answersFrom batches k queries ↔ GivenBy batches k queries answer := by
  induction queries generalizing k with
  | nil => exact iff_of_false List.not_mem_nil fun ⟨i, chunk, h, _⟩ => nomatch h
  | cons chunk queries ih =>
      rw [answersFrom, List.mem_append, ih, mem_answers]
      constructor
      · rintro (h | h)
        · exact ⟨0, chunk, rfl, h⟩
        · exact h.cons
      · rintro ⟨i, c, hc, h⟩
        cases i with
        | zero =>
            cases hc
            exact .inl h
        | succ i =>
            rw [← Nat.add_assoc, Nat.add_right_comm] at h
            exact .inr ⟨i, c, hc, h⟩

end Loops

/-! ## An audit -/

namespace State

/-- Every entry of a cache is an answer for a package with that file. -/
def Sound (audited : List Pair) (log : List (Answer ρ)) (cache : Cache ρ) : Prop :=
  ∀ f entry, cache f = some entry →
    ∃ p ∈ audited, cacheFilename p = f ∧ ⟨p, entry.vulns, entry.fetchedAtUnix⟩ ∈ log

variable {s : State ρ} {a : Audit ρ} {p : Pair} {vulns : List (RawVuln ρ)} {parseSeverity : ρ → VulnSeverity}

theorem mem_toFetch {i : Nat} {chunk : List Pair} (hchunk : (a.queries s.cache)[i]? = some chunk) (hp : p ∈ chunk) :
    p ∈ (a.looked s.cache).toFetch := by
  rw [← flatten_queries]
  exact List.mem_flatten_of_mem (List.mem_of_getElem? hchunk) hp

theorem looked_spec (s : State ρ) (a : Audit ρ) :
    LookedUp s.cache a.force a.readAt a.packages 0 ⟨0, .empty, []⟩ (a.looked s.cache) := lookUp_spec _ _ _ _ _

theorem mem_packages_of_toFetch (h : p ∈ (a.looked s.cache).toFetch) : p ∈ a.packages :=
  ((looked_spec s a).known p h).elim (fun h => nomatch h) id

theorem Sound.extends {s' s'' : Progress ρ} {Other : Pair → List (RawVuln ρ) → Prop}
    (hextends : Extends (GivenBy a.batches 0 (a.queries s.cache)) Other s' s'')
    (h : Sound (s.known a) (s.log ++ a.answers s.cache) s'.cache) :
    Sound (s.known a) (s.log ++ a.answers s.cache) s''.cache := by
  intro f entry hf
  rcases hextends.cache f entry hf with hf | ⟨p, hp, hgiven⟩
  · exact h f entry hf
  · refine ⟨p, List.mem_append_right _ ?_, hp, List.mem_append_right _ (mem_answersFrom.mpr hgiven)⟩
    obtain ⟨i, chunk, hchunk, results, -, j, hquery, -⟩ := hgiven
    exact mem_packages_of_toFetch (mem_toFetch hchunk (List.mem_of_getElem? hquery))

/-- What the file of a known package holds is for that package. -/
theorem Sound.entry {cache : Cache ρ} {log : List (Answer ρ)} {entry : CacheEntry ρ} (h : Sound (s.known a) log cache)
    (hgood : Good s a) (hp : p ∈ s.known a) (hentry : cache (cacheFilename p) = some entry) :
    ⟨p, entry.vulns, entry.fetchedAtUnix⟩ ∈ log := by
  obtain ⟨q, hq, hname, hlog⟩ := h _ entry hentry
  rwa [hgood.distinct q hq p hp hname] at hlog

theorem Sound.mono {audited audited' : List Pair} {log log' : List (Answer ρ)} {cache : Cache ρ}
    (h : Sound audited log cache) (haudited : audited ⊆ audited') (hlog : log ⊆ log') : Sound audited' log' cache := by
  intro f entry hf
  obtain ⟨p, hp, hname, hmem⟩ := h f entry hf
  exact ⟨p, haudited hp, hname, hlog hmem⟩

/-- What is read from the cache is an answer of the last day. -/
theorem justified_cached {report : AuditReport} {i : Nat} (hs : Sound s.audited s.log s.cache) (hgood : Good s a)
    (hp : a.packages[i]? = some p) (hread : readCache s.cache p a.force (a.readAt i) = some vulns) :
    Justified s a report p vulns := by
  have hknown : p ∈ s.known a := List.mem_append_right _ (List.mem_of_getElem? hp)
  rw [readCache] at hread
  split at hread
  · cases hread
  · rename_i hforce
    split at hread
    · rename_i entry hentry
      split at hread
      · rename_i hfresh
        cases hread
        have hlog := (hs.mono (List.subset_append_left _ _) (List.Subset.refl _)).entry hgood hknown hentry
        exact .cached i _ (by simpa using hforce) hp hlog hfresh
      · cases hread
    · cases hread

theorem justified_stale {report : AuditReport} (hgood : Good s a) (hreport : report.networkErrors ≠ [])
    (h : FellBackBy (Sound (s.known a) (s.log ++ a.answers s.cache)) a.batches 0 (a.queries s.cache) p vulns) :
    Justified s a report p vulns := by
  obtain ⟨i, chunk, cache, hchunk, hsound, ⟨msg, hmsg⟩, hp, rfl⟩ := h
  rw [Nat.zero_add] at hmsg
  refine .stale i chunk msg hchunk hp hmsg hreport ?_
  rw [readStaleCache]
  split
  · rename_i entry hentry
    have hknown : p ∈ s.known a := List.mem_append_right _ (mem_packages_of_toFetch (mem_toFetch hchunk hp))
    exact .inr ⟨_, hsound.entry hgood hknown hentry⟩
  · exact .inl rfl

/-- The results of all batches, or what stands for a package that has none. -/
theorem justified {report : AuditReport} {s' : Progress ρ} (hs : Sound s.audited s.log s.cache) (hgood : Good s a)
    (hextends : Extends (GivenBy a.batches 0 (a.queries s.cache))
      (FellBackBy (Sound (s.known a) (s.log ++ a.answers s.cache)) a.batches 0 (a.queries s.cache))
      ⟨s.cache, (a.looked s.cache).rawResults, []⟩ s')
    (hfound : ∀ i chunk j p, (a.queries s.cache)[i]? = some chunk → chunk[j]? = some p →
      (∀ results, queryOsvBatch (a.batches (0 + i)) = .ok results → j < results.length) → (s'.rawResults.get? p).isSome)
    (herrors : report.networkErrors ≠ [] ↔
      ∃ i < (a.queries s.cache).length, ∃ msg, queryOsvBatch (a.batches i) = .error msg)
    (hp : p ∈ a.packages) : Justified s a report p ((s'.rawResults.get? p).getD []) := by
  have hlooked := looked_spec s a
  cases hraw : s'.rawResults.get? p with
  | some vulns =>
      rcases hextends.raw p vulns hraw with hread | ⟨time, hgiven⟩ | hfell
      · rcases hlooked.raw p vulns hread with h | ⟨j, hj, hread⟩
        · cases h
        · rw [Nat.zero_add] at hread
          exact justified_cached hs hgood hj hread
      · exact .answered time (mem_answersFrom.mpr hgiven)
      · refine justified_stale hgood (herrors.mpr ?_) hfell
        obtain ⟨i, chunk, cache, hchunk, -, ⟨msg, hmsg⟩, -⟩ := hfell
        rw [Nat.zero_add] at hmsg
        exact ⟨i, (List.getElem?_eq_some_iff.mp hchunk).1, msg, hmsg⟩
  | none =>
      have hfetch : p ∈ (a.looked s.cache).toFetch := by
        refine (hlooked.found p hp).resolve_left fun h => ?_
        have hsome := hextends.keeps p h
        rw [hraw] at hsome
        cases hsome
      rw [← flatten_queries, List.mem_flatten] at hfetch
      obtain ⟨chunk, hchunk, hmem⟩ := hfetch
      obtain ⟨i, hi⟩ := List.mem_iff_getElem?.mp hchunk
      obtain ⟨j, hj⟩ := List.mem_iff_getElem?.mp hmem
      have hshort : ∃ results, queryOsvBatch (a.batches i) = .ok results ∧ results.length ≤ j := by
        by_contra hall
        have hsome := hfound i chunk j p hi hj fun results hresults => by
          by_contra hlength
          exact hall ⟨results, by rwa [Nat.zero_add] at hresults, Nat.not_lt.mp hlength⟩
        rw [hraw] at hsome
        cases hsome
      obtain ⟨results, hresults, hlength⟩ := hshort
      have hless := Nat.lt_of_le_of_lt hlength (List.getElem?_eq_some_iff.mp hj).1
      refine .missing (fun answer hanswer hpair => ?_) (herrors.mpr (hgood.complete i chunk results hi hresults hless)) rfl
      obtain ⟨i', chunk', hchunk', results', hresults', j', hquery, hresult, -⟩ := mem_answersFrom.mp hanswer
      rw [Nat.zero_add] at hquery
      have hsome := hfound i' chunk' j' p hchunk' (hpair ▸ hquery) fun results hresults => by
        obtain rfl : results' = results := Except.ok.inj (hresults'.symm.trans hresults)
        exact (List.getElem?_eq_some_iff.mp hresult).1
      rw [hraw] at hsome
      cases hsome

/-- An audit under the conditions ends with a report that is justified. -/
theorem runAuditIn_spec (hs : Sound s.audited s.log s.cache) (hgood : Good s a) :
    ∃ cache report, runAuditIn parseSeverity s.cache a = some (cache, report) ∧ Attributed parseSeverity s a report ∧
      Sound (s.known a) (s.log ++ a.answers s.cache) cache := by
  have hs' : Sound (s.known a) (s.log ++ a.answers s.cache) s.cache :=
    hs.mono (List.subset_append_left _ _) (List.subset_append_left _ _)
  rw [runAuditIn]
  split
  · rename_i hempty
    have hempty := List.isEmpty_iff.mp hempty
    refine ⟨_, _, rfl, ⟨fun _ => [], ?_, ?_⟩, hs'⟩
    · rw [hempty]
      rfl
    · rw [hempty]
      exact fun p hp => nomatch hp
  · obtain ⟨s', hs₁⟩ := Option.isSome_iff_exists.mp
      (isSome_fetchAll (s := ⟨s.cache, (a.looked s.cache).rawResults, []⟩) fun i chunk results hchunk hresults =>
        hgood.fits i chunk results hchunk (by rwa [Nat.zero_add] at hresults))
    have hsound : ∀ s₀ s₁ : Progress ρ, ∀ Other, Extends (GivenBy (a.batches) 0 (a.queries s.cache)) Other s₀ s₁ →
        Sound (s.known a) (s.log ++ a.answers s.cache) s₀.cache → Sound (s.known a) (s.log ++ a.answers s.cache) s₁.cache :=
      fun _ _ _ => Sound.extends
    obtain ⟨hextends, hfound, herrors⟩ := fetchAll_spec hsound hs' hs₁
    rw [hs₁]
    refine ⟨_, _, rfl, ⟨fun p => (s'.rawResults.get? p).getD [], ?_, fun p hp => ?_⟩, hs'.extends hextends⟩
    · refine List.filterMap_congr fun p _ => ?_
      cases hraw : s'.rawResults.get? p with
      | none => simp [hraw, finding]
      | some vulns => simp [hraw]
    · exact justified hs hgood hextends hfound (by simpa [report] using herrors) hp

/-- What holds of the cache after each audit of a history. -/
theorem sound_step {s' : State ρ} (hs : Sound s.audited s.log s.cache) (hgood : Good s a)
    (hstep : s.step parseSeverity a = some s') : Sound s'.audited s'.log s'.cache := by
  obtain ⟨cache, report, hrun, -, hsound⟩ := @runAuditIn_spec _ s a parseSeverity hs hgood
  rw [step, hrun] at hstep
  cases hstep
  exact hsound

/-- Before the first audit there is no cache. -/
theorem sound_start : Sound [] [] (start : State ρ).cache :=
  fun _ _ h => nomatch h

end State

end ThreeVa.Pm.Auditor
