import ThreeVa.Js.CallerScope
import ThreeVa.Lib.Lines
import ThreeVa.Permissions.Lemmas.Check

/-! Who is held responsible along runs of the hooks. -/

namespace ThreeVa.Js.CallerScope
open Text Permissions

/-! ## Tags -/

variable {s : Str} {scopes : List Str}

/-- A name without an end of line is read back from a tag. -/
theorem mem_splitOn_joinTag (hs : '\n' ∉ s) (h : s ∈ scopes) : s ∈ (joinTag scopes).splitOn '\n' := by
  induction scopes with
  | nil => cases h
  | cons x rest ih =>
      have hself : x = s → s ∈ x.splitOn '\n' := by
        rintro rfl
        rw [List.splitOn_eq_singleton hs]
        exact List.mem_singleton_self _
      cases rest with
      | nil =>
          rw [joinTag, List.intercalate_singleton]
          exact hself (List.mem_singleton.mp h).symm
      | cons y rest =>
          rw [joinTag, List.intercalate_cons_of_ne_nil (List.cons_ne_nil _ _), List.append_assoc, List.singleton_append,
            List.splitOn_append_cons_self, List.mem_append]
          rcases List.mem_cons.mp h with rfl | h
          · exact .inl (hself rfl)
          · exact .inr (ih h)

theorem joinTag_ne_nil (hs : s ≠ []) (h : s ∈ scopes) : joinTag scopes ≠ [] := by
  cases scopes with
  | nil => cases h
  | cons x rest =>
      cases rest with
      | nil =>
          rw [joinTag, List.intercalate_singleton]
          exact List.mem_singleton.mp h ▸ hs
      | cons y rest =>
          rw [joinTag, List.intercalate_cons_of_ne_nil (List.cons_ne_nil _ _)]
          simp

/-! ## What is put aside -/

/-- Inherited scopes and what hooks, jobs and calls put aside. -/
structure Base where
  inherited : List Str
  saved : List (List Str)
  calls : List (Option (List Str))

def Engine.base (e : Engine) : Base := ⟨e.scope.inherited, e.saved, e.calls⟩

/-- What is put aside since a base, frame by frame. A reaction that began before the first rule of a package put nothing
aside, and neither did the call of a plain function. -/
inductive Chain (R : Set Str → List Str → Prop) (base : Base) : List Frame → Base → Prop
  | nil : Chain R base [] base
  | reaction {aside fs inherited prev saved calls} (h : R aside prev) (rest : Chain R base fs ⟨prev, saved, calls⟩) :
      Chain R base (.reaction aside :: fs) ⟨inherited, prev :: saved, calls⟩
  | untracked {aside fs inherited calls} (h : R aside inherited) (rest : Chain R base fs ⟨inherited, [], calls⟩) :
      Chain R base (.reaction aside :: fs) ⟨inherited, [], calls⟩
  | guarded {aside fs inherited prev saved calls} (h : R aside prev) (rest : Chain R base fs ⟨prev, saved, calls⟩) :
      Chain R base (.call aside :: fs) ⟨inherited, saved, some prev :: calls⟩
  | plain {aside fs inherited saved calls} (h : R aside inherited) (rest : Chain R base fs ⟨inherited, saved, calls⟩) :
      Chain R base (.call aside :: fs) ⟨inherited, saved, none :: calls⟩

/-- The frames that are open put aside what was in force before them. -/
structure Nested (R : Set Str → List Str → Prop) (base : Base) (x : System) : Prop where
  active : x.flow.active = x.engine.scope.rulesActive
  idle : x.flow.active = false → x.engine.saved = []
  chain : Chain R base x.flow.frames x.engine.base

section Nested

variable {R : Set Str → List Str → Prop} {base : Base} {x y : System} {event : Event}

/-- The end of a reaction puts back what its beginning put aside. -/
theorem chain_after {e : Engine} {aside : Set Str} {frames : List Frame} (h : Chain R base (.reaction aside :: frames) e.base)
    (hidle : e.scope.rulesActive = false → e.saved = []) :
    (e.step .after).scope.rulesActive = e.scope.rulesActive ∧ (e.scope.rulesActive = false → (e.step .after).saved = []) ∧
      Chain R base frames (e.step .after).base ∧ R aside (e.step .after).scope.inherited := by
  generalize hbase : e.base = b at h
  cases h with
  | reaction hput hrest =>
      injection hbase with hinherited hsaved hcalls
      simp only [Engine.step]
      have hactive : e.scope.rulesActive = true := by
        by_contra hfalse
        rw [hidle (Bool.not_eq_true _ ▸ hfalse)] at hsaved
        cases hsaved
      rw [if_pos hactive, hsaved]
      refine ⟨rfl, fun hfalse => absurd (hactive.symm.trans hfalse) (by decide), ?_, hput⟩
      show Chain R base frames ⟨_, _, e.calls⟩
      rw [hcalls]
      exact hrest
  | untracked hput hrest =>
      injection hbase with hinherited hsaved hcalls
      have hstay : e.step .after = e := by
        simp only [Engine.step]
        rw [hsaved]
        exact ite_self _
      rw [hstay]
      refine ⟨rfl, fun _ => hsaved, ?_, hinherited ▸ hput⟩
      rw [Engine.base, hinherited, hsaved, hcalls]
      exact hrest

/-- The end of a job or of a call puts back what its beginning put aside. -/
theorem chain_leave {e : Engine} {aside : Set Str} {frames : List Frame} (h : Chain R base (.call aside :: frames) e.base) :
    (e.step .leave).scope.rulesActive = e.scope.rulesActive ∧ (e.step .leave).saved = e.saved ∧
      Chain R base frames (e.step .leave).base ∧ R aside (e.step .leave).scope.inherited := by
  simp only [Engine.step]
  generalize hbase : e.base = b at h
  cases h with
  | guarded hput hrest =>
      injection hbase with hinherited hsaved hcalls
      rw [hcalls]
      refine ⟨rfl, rfl, ?_, hput⟩
      show Chain R base frames ⟨_, e.saved, _⟩
      rw [hsaved]
      exact hrest
  | plain hput hrest =>
      injection hbase with hinherited hsaved hcalls
      rw [hcalls]
      refine ⟨rfl, rfl, ?_, hinherited ▸ hput⟩
      show Chain R base frames ⟨e.scope.inherited, e.saved, _⟩
      rw [hinherited, hsaved]
      exact hrest

/-- One event keeps the frames nested, and what ends puts back what was in force. -/
theorem nested_step (h : Nested R base x) (hnow : R x.flow.now x.engine.scope.inherited) (hstep : x.step event = some y) :
    Nested R base y ∧ (event = .after ∨ event = .leave → R y.flow.now y.engine.scope.inherited) := by
  obtain ⟨flow, hflow, rfl⟩ := Option.map_eq_some_iff.mp hstep
  have hsame : ∀ {e : Engine} {a : Flow}, a.active = e.scope.rulesActive → a.frames = x.flow.frames →
      e.base = x.engine.base → (a.active = false → x.flow.active = false) → Nested R base ⟨e, a⟩ := by
    intro e a hactive hframes hbase hidle
    refine ⟨hactive, fun hfalse => ?_, ?_⟩
    · rw [show e.saved = x.engine.saved from congrArg Base.saved hbase]
      exact h.idle (hidle hfalse)
    · rw [hframes, hbase]
      exact h.chain
  cases event with
  | activate =>
      obtain rfl := Option.some.inj hflow
      exact ⟨hsame rfl rfl rfl (fun h => nomatch h), fun h => by rcases h with h | h <;> cases h⟩
  | frames names =>
      obtain rfl := Option.some.inj hflow
      exact ⟨hsame h.active rfl rfl id, fun h => by rcases h with h | h <;> cases h⟩
  | setScope scope =>
      obtain rfl := Option.some.inj hflow
      exact ⟨hsame h.active rfl rfl id, fun h => by rcases h with h | h <;> cases h⟩
  | init p parent =>
      obtain rfl := Option.some.inj hflow
      refine ⟨?_, fun h => by rcases h with h | h <;> cases h⟩
      simp only [Engine.step]
      split <;> split <;> exact hsame h.active rfl rfl id
  | before p =>
      obtain rfl := Option.some.inj hflow
      refine ⟨?_, fun h => by rcases h with h | h <;> cases h⟩
      simp only [Engine.step]
      split
      · rename_i hactive
        refine ⟨h.active, fun hfalse => ?_, .reaction hnow h.chain⟩
        exact absurd (h.active.trans hactive) (by simp [show x.flow.active = false from hfalse])
      · rename_i hactive
        have hfalse : x.flow.active = false := h.active.trans (Bool.not_eq_true _ ▸ hactive)
        have hsaved := h.idle hfalse
        refine ⟨h.active, fun _ => hsaved, ?_⟩
        have hchain := h.chain
        rw [Engine.base, hsaved] at hchain ⊢
        exact .untracked hnow hchain
  | after =>
      simp only [Flow.step] at hflow
      split at hflow
      · rename_i aside frames hframes
        obtain rfl := Option.some.inj hflow
        have hchain := h.chain
        rw [hframes] at hchain
        obtain ⟨hactive, hsaved, hkept, hput⟩ := chain_after hchain fun hfalse => h.idle (h.active.trans hfalse)
        exact ⟨⟨h.active.trans hactive.symm, fun hfalse => hsaved (h.active.symm.trans hfalse), hkept⟩, fun _ => hput⟩
      · cases hflow
  | resolve p =>
      obtain rfl := Option.some.inj hflow
      exact ⟨hsame h.active rfl rfl id, fun h => by rcases h with h | h <;> cases h⟩
  | bind f =>
      obtain rfl := Option.some.inj hflow
      exact ⟨hsame h.active rfl rfl id, fun h => by rcases h with h | h <;> cases h⟩
  | call f =>
      obtain rfl := Option.some.inj hflow
      refine ⟨?_, fun h => by rcases h with h | h <;> cases h⟩
      simp only [Engine.step]
      split
      · exact ⟨h.active, h.idle, .plain hnow h.chain⟩
      · exact ⟨h.active, h.idle, .guarded hnow h.chain⟩
  | schedule j =>
      obtain rfl := Option.some.inj hflow
      exact ⟨hsame h.active rfl rfl id, fun h => by rcases h with h | h <;> cases h⟩
  | fire j =>
      obtain rfl := Option.some.inj hflow
      exact ⟨⟨h.active, h.idle, .guarded hnow h.chain⟩, fun h => by rcases h with h | h <;> cases h⟩
  | leave =>
      simp only [Flow.step] at hflow
      split at hflow
      · rename_i aside frames hframes
        obtain rfl := Option.some.inj hflow
        have hchain := h.chain
        rw [hframes] at hchain
        obtain ⟨hactive, hsaved, hkept, hput⟩ := chain_leave hchain
        exact ⟨⟨h.active.trans hactive.symm, fun hfalse => hsaved.trans (h.idle hfalse), hkept⟩, fun _ => hput⟩
      · cases hflow

end Nested

/-! ## Who is held responsible -/

/-- A package that is responsible for something is held responsible for it. -/
structure Covers (s : Str) (x : System) : Prop where
  nested : ∃ base, Nested (fun aside kept => s ∈ aside → s ∈ kept) base x
  stack : ∃ packages, x.engine.scope.stackResolver = some packages ∧ (s ∈ x.flow.stack → s ∈ packages)
  current : s ∈ x.flow.current → x.engine.scope.current = s ∧ s ≠ rootScope ∧ s ≠ []
  now : s ∈ x.flow.now → s ∈ x.engine.scope.inherited
  unmarked : x.flow.active = false → ∀ p, s ∉ x.flow.promise p
  promise : ∀ p, s ∈ x.flow.promise p → s ∈ x.engine.read p
  bound : ∀ f, s ∈ x.flow.bound f → s ∈ (x.engine.bound f).splitOn '\n' ∧ x.engine.bound f ≠ []
  job : ∀ j, s ∈ x.flow.job j → s ∈ x.engine.jobs j

section Covers

variable {x y : System} {event : Event}

theorem mem_stackPackages {entry : Option Str} {names : List (Option Str)} :
    s ∈ stackPackages entry names ↔ entry ≠ some s ∧ ∃ name ∈ names, name.bind packageScope = some s := by
  have hfold : ∀ (names : List (Option Str)) (out : List Str), s ∈ names.foldl (addFrame entry) out ↔
      s ∈ out ∨ entry ≠ some s ∧ ∃ name ∈ names, name.bind packageScope = some s := by
    intro names
    induction names with
    | nil => simp
    | cons name names ih =>
        intro out
        rw [List.foldl_cons, ih, addFrame]
        cases hname : name.bind packageScope with
        | none => simp [hname]
        | some pkg =>
            simp only [List.mem_cons, exists_eq_or_imp, hname, Option.some.injEq]
            split
            · rename_i hnew
              rw [List.mem_append, List.mem_singleton]
              constructor
              · rintro ((h | rfl) | h)
                · exact .inl h
                · exact .inr ⟨hnew.1, .inl rfl⟩
                · exact .inr ⟨h.1, .inr h.2⟩
              · rintro (h | ⟨hentry, rfl | h⟩)
                · exact .inl (.inl h)
                · exact .inl (.inr rfl)
                · exact .inr ⟨hentry, h⟩
            · rename_i hold
              constructor
              · rintro (h | h)
                · exact .inl h
                · exact .inr ⟨h.1, .inr h.2⟩
              · rintro (h | ⟨hentry, rfl | h⟩)
                · exact .inl h
                · rw [not_and_or, not_not, not_not] at hold
                  exact hold.elim (fun h => absurd h hentry) .inl
                · exact .inr ⟨hentry, h⟩
  rw [stackPackages, hfold]
  simp

theorem Covers.responsible (h : Covers s x) (hs : s ∈ x.flow.responsible) : s ∈ x.engine.scope.denyScopes := by
  obtain ⟨packages, hresolver, hstack⟩ := h.stack
  obtain ⟨base, hnested⟩ := h.nested
  have hpackage : s ∈ x.engine.scope.packageScopes ∨ s = x.engine.scope.currentScope ∧ s ≠ rootScope := by
    rcases hs with (⟨hactive, hs⟩ | hs) | hs
    · left
      simp [ScopeState.packageScopes, ScopeState.runningScopes, ScopeState.stackScopes, hresolver,
        hnested.active.symm.trans hactive, hstack hs]
    · obtain ⟨hcurrent, hroot, hne⟩ := h.current hs
      exact .inr ⟨by rw [ScopeState.currentScope, hcurrent, if_neg hne], hroot⟩
    · left
      simp [ScopeState.packageScopes, h.now hs]
  unfold ScopeState.denyScopes
  split
  · rcases hpackage with hpackage | ⟨rfl, -⟩
    · exact List.mem_append_left _ hpackage
    · simp
  · rename_i hcurrent
    rcases hpackage with hpackage | ⟨rfl, hroot⟩
    · exact hpackage
    · rw [not_and_or, not_not, not_not] at hcurrent
      exact hcurrent.elim (fun h => absurd h hroot) id

theorem mem_initScopes {e : Engine} {parent : Option Nat} :
    s ∈ e.initScopes parent ↔ s ∈ e.scope.denyScopes ∨ ∃ p ∈ parent, s ∈ e.read p := by
  rw [Engine.initScopes, List.mem_dedup, List.mem_insertionSort, List.mem_append]
  cases parent <;> simp

/-- A mark names everyone who is responsible. -/
theorem Covers.init (h : Covers s x) {parent : Option Nat}
    (hmem : s ∈ x.flow.responsible ∪ (parent.map x.flow.promise).getD ∅) : s ∈ x.engine.initScopes parent := by
  rw [mem_initScopes]
  rcases hmem with hmem | hmem
  · exact .inl (h.responsible hmem)
  · cases parent with
    | none => cases hmem
    | some p => exact .inr ⟨p, rfl, h.promise p hmem⟩

/-- An event that changes what is in force and what is put aside, and nothing else. -/
structure Engine.Kept (e e' : Engine) : Prop where
  active : e'.scope.rulesActive = e.scope.rulesActive
  resolver : e'.scope.stackResolver = e.scope.stackResolver
  current : e'.scope.current = e.scope.current
  tags : e'.tags = e.tags
  bound : e'.bound = e.bound
  jobs : e'.jobs = e.jobs

theorem Engine.Kept.refl (e : Engine) : Kept e e := ⟨rfl, rfl, rfl, rfl, rfl, rfl⟩

theorem Engine.kept_step (e : Engine) (h : (∃ p, event = .before p) ∨ event = .after ∨ (∃ f, event = .call f) ∨
    (∃ j, event = .fire j) ∨ event = .leave) : e.Kept (e.step event) := by
  rcases h with ⟨p, rfl⟩ | rfl | ⟨f, rfl⟩ | ⟨j, rfl⟩ | rfl
  all_goals simp only [Engine.step]
  all_goals repeat' split
  all_goals exact ⟨rfl, rfl, rfl, rfl, rfl, rfl⟩

theorem Covers.kept (h : Covers s x) {e : Engine} (hkept : x.engine.Kept e) {now : Set Str} {frames : List Frame} {base : Base}
    (hnested : Nested (fun aside kept => s ∈ aside → s ∈ kept) base ⟨e, { x.flow with now := now, frames := frames }⟩)
    (hnow : s ∈ now → s ∈ e.scope.inherited) : Covers s ⟨e, { x.flow with now := now, frames := frames }⟩ where
  nested := ⟨base, hnested⟩
  stack := hkept.resolver ▸ h.stack
  current := hkept.current ▸ h.current
  now := hnow
  unmarked := h.unmarked
  promise := fun p hp => by
    have hread : e.read p = x.engine.read p := by rw [Engine.read, Engine.read, hkept.tags]
    exact hread ▸ h.promise p hp
  bound := hkept.bound ▸ h.bound
  job := hkept.jobs ▸ h.job

theorem forall_update {α β : Type} {P : α → β → Prop} {f : Nat → α} {g : Nat → β} {j : Nat} {a : α} {b : β}
    (h : ∀ k, P (f k) (g k)) (hj : P a b) (k : Nat) : P (Function.update f j a k) (Function.update g j b k) := by
  by_cases hk : k = j
  · rw [hk, Function.update_self, Function.update_self]
    exact hj
  · rw [Function.update_of_ne hk, Function.update_of_ne hk]
    exact h k

/-- A promise is made: its mark names everyone who is responsible for it. -/
theorem covers_init (hs : '\n' ∉ s) (h : Covers s x) {p : Nat} {parent : Option Nat} {flow : Flow} {base : Base}
    (hflow : flow = if x.flow.active then
      { x.flow with promise := Function.update x.flow.promise p (x.flow.responsible ∪ (parent.map x.flow.promise).getD ∅) }
      else x.flow)
    (hnested : Nested (fun aside kept => s ∈ aside → s ∈ kept) base ⟨x.engine.step (.init p parent), flow⟩) :
    Covers s ⟨x.engine.step (.init p parent), flow⟩ := by
  obtain ⟨base', hbefore⟩ := h.nested
  cases hactive : x.flow.active with
  | false =>
      rw [hactive] at hflow
      subst hflow
      have hsame : x.engine.step (.init p parent) = x.engine := by
        rw [Engine.step, hbefore.active.symm.trans hactive]
        rfl
      rw [hsame] at hnested ⊢
      exact { h with nested := ⟨base, hnested⟩ }
  | true =>
      rw [hactive, if_pos rfl] at hflow
      subst hflow
      have hrules : x.engine.scope.rulesActive = true := hbefore.active.symm.trans hactive
      by_cases hempty : x.engine.initScopes parent = []
      · have hsame : x.engine.step (.init p parent) = x.engine := by
          rw [Engine.step, hempty]
          simp
        rw [hsame] at hnested ⊢
        refine { h with nested := ⟨base, hnested⟩, unmarked := fun hfalse => ?_, promise := fun k hk => ?_ }
        · exact absurd (hactive.symm.trans hfalse) (by decide)
        · by_cases hkp : k = p
          · subst hkp
            have hmem : s ∈ Function.update x.flow.promise k _ k := hk
            rw [Function.update_self] at hmem
            exact absurd (h.init hmem) (hempty ▸ List.not_mem_nil)
          · have hmem : s ∈ Function.update x.flow.promise p _ k := hk
            rw [Function.update_of_ne hkp] at hmem
            exact h.promise k hmem
      · have hmark : x.engine.step (.init p parent) =
            { x.engine with tags := Function.update x.engine.tags p (some (joinTag (x.engine.initScopes parent))) } := by
          rw [Engine.step, hrules, if_pos (by simpa using hempty)]
        rw [hmark] at hnested ⊢
        refine { h with nested := ⟨base, hnested⟩, unmarked := fun hfalse => ?_, promise := ?_ }
        · exact absurd (hactive.symm.trans hfalse) (by decide)
        · exact forall_update (P := fun blamed tag => s ∈ blamed → s ∈ readTag tag) h.promise fun hmem => mem_splitOn_joinTag hs (h.init hmem)

/-- One event: who is responsible is held responsible after it. -/
theorem covers_step (hs : '\n' ∉ s) (hne : s ≠ []) (h : Covers s x) (hstep : x.step event = some y) : Covers s y := by
  obtain ⟨base, hnested⟩ := h.nested
  obtain ⟨hnext, hput⟩ := nested_step hnested h.now hstep
  obtain ⟨flow, hflow, rfl⟩ := Option.map_eq_some_iff.mp hstep
  cases event with
  | activate =>
      obtain rfl := Option.some.inj hflow
      exact { h with nested := ⟨base, hnext⟩, unmarked := fun hfalse => nomatch hfalse }
  | frames names =>
      obtain rfl := Option.some.inj hflow
      exact { h with nested := ⟨base, hnext⟩, stack := ⟨_, rfl, mem_stackPackages.mpr⟩ }
  | setScope scope =>
      obtain rfl := Option.some.inj hflow
      refine { h with nested := ⟨base, hnext⟩, current := ?_ }
      rintro ⟨rfl, hroot, hempty⟩
      exact ⟨if_neg hroot, hroot, hempty⟩
  | init p parent =>
      obtain rfl := Option.some.inj hflow
      exact covers_init hs h rfl hnext
  | before p =>
      obtain rfl := Option.some.inj hflow
      refine h.kept (x.engine.kept_step (.inl ⟨p, rfl⟩)) hnext fun hp => ?_
      simp only [Engine.step]
      split
      · exact h.promise p hp
      · rename_i hactive
        exact absurd hp (h.unmarked (hnested.active.trans (Bool.not_eq_true _ ▸ hactive)) p)
  | after =>
      simp only [Flow.step] at hflow
      split at hflow
      · obtain rfl := Option.some.inj hflow
        exact h.kept (x.engine.kept_step (.inr (.inl rfl))) hnext (hput (.inl rfl))
      · cases hflow
  | resolve p =>
      obtain rfl := Option.some.inj hflow
      exact { h with nested := ⟨base, hnext⟩ }
  | bind f =>
      obtain rfl := Option.some.inj hflow
      refine { h with nested := ⟨base, hnext⟩, bound := ?_ }
      refine forall_update (P := fun blamed tag => s ∈ blamed → s ∈ tag.splitOn '\n' ∧ tag ≠ []) h.bound ?_
      rintro ⟨hactive, hmem⟩
      rw [if_pos (hnested.active.symm.trans hactive)]
      exact ⟨mem_splitOn_joinTag hs (h.responsible hmem), joinTag_ne_nil hne (h.responsible hmem)⟩
  | call f =>
      obtain rfl := Option.some.inj hflow
      refine h.kept (x.engine.kept_step (.inr (.inr (.inl ⟨f, rfl⟩)))) hnext fun hmem => ?_
      simp only [Engine.step]
      split
      · rename_i hplain
        exact hmem.elim h.now fun hbound => absurd hplain (h.bound f hbound).2
      · refine List.mem_append.mpr (hmem.imp h.now fun hbound => ?_)
        exact List.mem_filter.mpr ⟨(h.bound f hbound).1, by simpa using hne⟩
  | schedule j =>
      obtain rfl := Option.some.inj hflow
      refine { h with nested := ⟨base, hnext⟩, job := ?_ }
      exact forall_update (P := fun blamed kept => s ∈ blamed → s ∈ kept) h.job h.responsible
  | fire j =>
      obtain rfl := Option.some.inj hflow
      exact h.kept (x.engine.kept_step (.inr (.inr (.inr (.inl ⟨j, rfl⟩))))) hnext (h.job j)
  | leave =>
      simp only [Flow.step] at hflow
      split at hflow
      · obtain rfl := Option.some.inj hflow
        exact h.kept (x.engine.kept_step (.inr (.inr (.inr (.inr rfl))))) hnext (hput (.inr rfl))
      · cases hflow

end Covers

/-! ## Runs -/

theorem covers_start (entry : Option Str) (active : Bool) : Covers s (System.start entry active) where
  nested := ⟨(System.start entry active).engine.base, ⟨rfl, fun _ => rfl, .nil⟩⟩
  stack := ⟨[], rfl, fun h => nomatch h⟩
  current := fun h => nomatch h
  now := fun h => nomatch h
  unmarked := fun _ _ h => nomatch h
  promise := fun _ h => nomatch h
  bound := fun _ h => nomatch h
  job := fun _ h => nomatch h

/-- Nobody without a name is responsible for anything. -/
structure Named (a : Flow) : Prop where
  running : [] ∉ a.stack ∧ [] ∉ a.current ∧ [] ∉ a.now
  aside : ∀ frame ∈ a.frames, [] ∉ frame.aside
  promise : ∀ p, [] ∉ a.promise p
  bound : ∀ f, [] ∉ a.bound f
  job : ∀ j, [] ∉ a.job j

theorem packageScope_ne {path : Str} : packageScope path ≠ some [] := by
  intro h
  obtain ⟨rest, -, h⟩ := Option.bind_eq_some_iff.mp h
  split at h
  · cases h
  · split at h
    · cases h
    · rename_i hfirst
      split at h
      · obtain ⟨second, -, h⟩ := Option.map_eq_some_iff.mp h
        exact absurd (List.append_eq_nil_iff.mp h).2 (List.cons_ne_nil _ _)
      · exact hfirst (Option.some.inj h)

theorem Named.responsible {a : Flow} (h : Named a) : [] ∉ a.responsible := by
  rintro ((⟨-, hmem⟩ | hmem) | hmem)
  · exact h.running.1 hmem
  · exact h.running.2.1 hmem
  · exact h.running.2.2 hmem

theorem named_step {a b : Flow} {entry : Option Str} {event : Event} (h : Named a) (hstep : a.step entry event = some b) :
    Named b := by
  have hupdate : ∀ {f : Nat → Set Str} {j : Nat} {blamed : Set Str}, (∀ k, [] ∉ f k) → [] ∉ blamed →
      ∀ k, [] ∉ Function.update f j blamed k := fun hf hblamed =>
    forall_update (P := fun (blamed : Set Str) (_ : Unit) => [] ∉ blamed) (g := fun _ => ()) (b := ()) hf hblamed
  have hpush : ∀ frame, frame = Frame.reaction a.now ∨ frame = Frame.call a.now → ∀ f ∈ frame :: a.frames, [] ∉ f.aside := by
    intro frame hframe f hf
    rcases List.mem_cons.mp hf with rfl | hf
    · rcases hframe with rfl | rfl
      · exact h.running.2.2
      · exact h.running.2.2
    · exact h.aside f hf
  cases event with
  | activate | resolve p =>
      obtain rfl := Option.some.inj hstep
      exact { h with }
  | frames names =>
      obtain rfl := Option.some.inj hstep
      refine { h with running := ⟨?_, h.running.2⟩ }
      rintro ⟨-, name, -, hname⟩
      obtain ⟨path, -, hpath⟩ := Option.bind_eq_some_iff.mp hname
      exact packageScope_ne hpath
  | setScope scope =>
      obtain rfl := Option.some.inj hstep
      exact { h with running := ⟨h.running.1, fun hmem => hmem.2.2 hmem.1.symm, h.running.2.2⟩ }
  | init p parent =>
      obtain rfl := Option.some.inj hstep
      split
      · refine { h with promise := hupdate h.promise ?_ }
        rintro (hmem | hmem)
        · exact h.responsible hmem
        · cases parent with
          | none => exact hmem
          | some q => exact h.promise q hmem
      · exact h
  | before p =>
      obtain rfl := Option.some.inj hstep
      exact { h with running := ⟨h.running.1, h.running.2.1, h.promise p⟩, aside := hpush _ (.inl rfl) }
  | bind f =>
      obtain rfl := Option.some.inj hstep
      exact { h with bound := hupdate h.bound fun hmem => h.responsible hmem.2 }
  | call f =>
      obtain rfl := Option.some.inj hstep
      refine { h with running := ⟨h.running.1, h.running.2.1, ?_⟩, aside := hpush _ (.inr rfl) }
      exact fun hmem => hmem.elim h.running.2.2 (h.bound f)
  | schedule j =>
      obtain rfl := Option.some.inj hstep
      exact { h with job := hupdate h.job h.responsible }
  | fire j =>
      obtain rfl := Option.some.inj hstep
      exact { h with running := ⟨h.running.1, h.running.2.1, h.job j⟩, aside := hpush _ (.inr rfl) }
  | after | leave =>
      simp only [Flow.step] at hstep
      split at hstep
      · rename_i aside frames hframes
        obtain rfl := Option.some.inj hstep
        have hall := hframes ▸ h.aside
        refine { h with running := ⟨h.running.1, h.running.2.1, hall _ List.mem_cons_self⟩, aside := ?_ }
        exact fun frame hframe => hall frame (List.mem_cons_of_mem _ hframe)
      · cases hstep

theorem named_run {entry : Option Str} {active : Bool} {events : List Event} {x : System}
    (hrun : Runs.exec System.step (System.start entry active) events = some x) : Named x.flow := by
  have hkeep : ∀ (x : System) (event : Event) (y : System), Named x.flow → x.step event = some y → Named y.flow := by
    intro x event y h hstep
    obtain ⟨flow, hflow, rfl⟩ := Option.map_eq_some_iff.mp hstep
    exact named_step h hflow
  refine Runs.exec_preserves hkeep ?_ hrun
  exact ⟨⟨id, id, id⟩, fun _ h => (nomatch h), fun _ => id, fun _ => id, fun _ => id⟩

theorem covers_run (hs : '\n' ∉ s) (hne : s ≠ []) {entry : Option Str} {active : Bool} {events : List Event} {x : System}
    (hrun : Runs.exec System.step (System.start entry active) events = some x) : Covers s x :=
  Runs.exec_preserves (fun _ _ _ h hstep => covers_step hs hne h hstep) (covers_start entry active) hrun

/-- Whoever is responsible is asked. -/
theorem responsible_asked (hs : '\n' ∉ s) {entry : Option Str} {active : Bool} {events : List Event} {x : System}
    (hrun : Runs.exec System.step (System.start entry active) events = some x) (hmem : s ∈ x.flow.responsible) :
    s ∈ x.engine.scope.denyScopes := by
  refine (covers_run hs ?_ hrun).responsible hmem
  rintro rfl
  exact (named_run hrun).responsible hmem

theorem nested_run {base : Base} {x y : System} {events : List Event} (h : Nested (fun _ _ => True) base x)
    (hrun : Runs.exec System.step x events = some y) : Nested (fun _ _ => True) base y :=
  Runs.exec_preserves (fun _ _ _ h hstep => (nested_step h trivial hstep).1) h hrun

/-- Events that end all they begin put back what was in force before them, and what was put aside. -/
theorem base_of_closed {base : Base} {x y : System} {events : List Event} (h : Nested (fun _ _ => True) base x)
    (hrun : Runs.exec System.step x.fresh events = some y) (hclosed : y.flow.frames = []) :
    y.engine.base = x.engine.base := by
  have hstart : Nested (fun _ _ => True) x.engine.base x.fresh := ⟨h.active, h.idle, .nil⟩
  have hend : Nested (fun _ _ => True) x.engine.base y := nested_run hstart hrun
  have hchain := hend.chain
  rw [hclosed] at hchain
  generalize hbase : y.engine.base = b at hchain
  cases hchain
  rfl

end ThreeVa.Js.CallerScope
