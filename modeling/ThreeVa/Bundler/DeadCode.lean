import Mathlib.Data.Set.Basic
import ThreeVa.Lib.Text

/-!
# Dead code

`DeadCodeEliminator` of `bundler/src/tree_shaker.rs`. Of a program the statements it looks into are kept apart; any other
expression, loop head, function head or statement is a leaf. A program is a module, so a function in a block belongs to
the block.
-/

namespace ThreeVa.Bundler.DeadCode
open Text

/-! ## Programs -/

/-- What the pass does not look into, with the `var` names that it declares in the function around it. -/
structure Leaves where
  Expr : Type
  ForHead : Type
  FunctionHead : Type
  Other : Type
  headNames : ForHead → List Str
  otherNames : Other → List Str

inductive Expression (L : Leaves)
  | booleanLiteral (value : Bool)
  | other (e : L.Expr)

inductive Statement (L : Leaves)
  | blockStatement (body : List (Statement L))
  | ifStatement (test : Expression L) (consequent : Statement L) (alternate : Option (Statement L))
  | forStatement (head : L.ForHead) (body : Statement L)
  | whileStatement (test : Expression L) (body : Statement L)
  | functionDeclaration (head : L.FunctionHead) (body : Option (List (Statement L)))
  | other (o : L.Other)

variable {L : Leaves}

/-! ## The pass -/

/-- The test of `retain`. -/
def retained : Statement L → Bool
  | .ifStatement (.booleanLiteral value) _ alternate => value || alternate.isSome
  | _ => true

mutual

def eliminateDeadCode : List (Statement L) → List (Statement L)
  | [] => []
  | s :: rest => if retained s then inside s :: eliminateDeadCode rest else eliminateDeadCode rest

/-- The `match` of the second loop. -/
def inside : Statement L → Statement L
  | .blockStatement body => .blockStatement (eliminateDeadCode body)
  | .ifStatement test consequent alternate =>
      .ifStatement test (insideBlock consequent) (insideAlternate alternate)
  | .forStatement head body => .forStatement head (insideBlock body)
  | .whileStatement test body => .whileStatement test (insideBlock body)
  | .functionDeclaration head body => .functionDeclaration head (insideFunction body)
  | .other o => .other o

/-- A branch or a body is looked into if it is a block. -/
def insideBlock : Statement L → Statement L
  | .blockStatement body => .blockStatement (eliminateDeadCode body)
  | s => s

def insideAlternate : Option (Statement L) → Option (Statement L)
  | none => none
  | some s => some (insideBlock s)

def insideFunction : Option (List (Statement L)) → Option (List (Statement L))
  | none => none
  | some body => some (eliminateDeadCode body)

end

/-! ## `var` names -/

mutual

/-- The names that statements declare in the function around them. -/
def varNames : List (Statement L) → List Str
  | [] => []
  | s :: rest => namesOf s ++ varNames rest

def namesOf : Statement L → List Str
  | .blockStatement body => varNames body
  | .ifStatement _ consequent alternate => namesOf consequent ++ namesOfAlternate alternate
  | .forStatement head body => L.headNames head ++ namesOf body
  | .whileStatement _ body => namesOf body
  | .functionDeclaration _ _ => []
  | .other o => L.otherNames o

def namesOfAlternate : Option (Statement L) → List Str
  | none => []
  | some s => namesOf s

end

mutual

/-- The names that the dropped statements of a function declare in it. -/
def droppedNames : List (Statement L) → List Str
  | [] => []
  | s :: rest => if retained s then droppedInside s ++ droppedNames rest else namesOf s ++ droppedNames rest

def droppedInside : Statement L → List Str
  | .blockStatement body => droppedNames body
  | .ifStatement _ consequent alternate => droppedInBlock consequent ++ droppedInAlternate alternate
  | .forStatement _ body => droppedInBlock body
  | .whileStatement _ body => droppedInBlock body
  | .functionDeclaration _ _ => []
  | .other _ => []

def droppedInBlock : Statement L → List Str
  | .blockStatement body => droppedNames body
  | _ => []

def droppedInAlternate : Option (Statement L) → List Str
  | none => []
  | some s => droppedInBlock s

end

mutual

/-- The bodies of the functions that the pass looks into. -/
def functions : List (Statement L) → List (List (Statement L))
  | [] => []
  | s :: rest => if retained s then functionsInside s ++ functions rest else functions rest

def functionsInside : Statement L → List (List (Statement L))
  | .blockStatement body => functions body
  | .ifStatement _ consequent alternate => functionsInBlock consequent ++ functionsInAlternate alternate
  | .forStatement _ body => functionsInBlock body
  | .whileStatement _ body => functionsInBlock body
  | .functionDeclaration _ body => functionsOf body
  | .other _ => []

def functionsInBlock : Statement L → List (List (Statement L))
  | .blockStatement body => functions body
  | _ => []

def functionsInAlternate : Option (Statement L) → List (List (Statement L))
  | none => []
  | some s => functionsInBlock s

def functionsOf : Option (List (Statement L)) → List (List (Statement L))
  | none => []
  | some body => body :: functions body

end

/-- Every name that a dropped statement declares is declared by a statement of its function that stays. -/
def KeepsNames (program : List (Statement L)) : Prop :=
  ∀ body ∈ program :: functions program, ∀ x ∈ droppedNames body, x ∈ varNames (eliminateDeadCode body)

/-! ## What programs mean -/

/-- A meaning that is put together from the meanings of the parts. A function or a program begins with the declaration of
its `var` names; `if (false)` does nothing. -/
structure Semantics (L : Leaves) where
  Meaning : Type
  Behaviour : Type
  nop : Meaning
  seq : Meaning → Meaning → Meaning
  block : Meaning → Meaning
  cond : Expression L → Meaning → Option Meaning → Meaning
  forLoop : L.ForHead → Meaning → Meaning
  whileLoop : Expression L → Meaning → Meaning
  function : L.FunctionHead → Option (Set Str × Meaning) → Meaning
  other : L.Other → Meaning
  program : Set Str → Meaning → Behaviour
  nop_seq : ∀ d, seq nop d = d
  cond_false : ∀ d, cond (.booleanLiteral false) d none = nop

namespace Semantics

variable (S : Semantics L)

mutual

def statements : List (Statement L) → S.Meaning
  | [] => S.nop
  | s :: rest => S.seq (statement s) (statements rest)

def statement : Statement L → S.Meaning
  | .blockStatement body => S.block (statements body)
  | .ifStatement test consequent alternate => S.cond test (statement consequent) (branch alternate)
  | .forStatement head body => S.forLoop head (statement body)
  | .whileStatement test body => S.whileLoop test (statement body)
  | .functionDeclaration head body => S.function head (code body)
  | .other o => S.other o

def branch : Option (Statement L) → Option S.Meaning
  | none => none
  | some s => some (statement s)

def code : Option (List (Statement L)) → Option (Set Str × S.Meaning)
  | none => none
  | some body => some ({x | x ∈ varNames body}, statements body)

end

def behaviour (program : List (Statement L)) : S.Behaviour :=
  S.program {x | x ∈ varNames program} (S.statements program)

end Semantics

/-! ## Completions -/

/-- How a statement ends. -/
inductive Completion (V : Type)
  | normal
  | break (label : Option Str)
  | continue (label : Option Str)
  | return (v : V)
  | throw (v : V)

abbrev Code (State V : Type) := State → Completion V → State → Prop

/-- What the leaves do, and scopes. A function is defined by the names and the code of its body. -/
structure Machine (L : Leaves) where
  State : Type
  Value : Type
  truthy : Value → Bool
  eval : L.Expr → State → Except Value Value → State → Prop
  enterBlock : State → State
  leaveBlock : State → State
  forInit : L.ForHead → Code State Value
  forTest : L.ForHead → State → Except Value Bool → State → Prop
  forUpdate : L.ForHead → Code State Value
  define : L.FunctionHead → Set Str → Code State Value → State → State
  /-- What a leaf does when its block begins. -/
  hoist : L.Other → State → State
  run : L.Other → Code State Value
  declareVars : Set Str → State → State

namespace Machine

variable (M : Machine L)

/-- The truth of an expression, or what it throws. -/
def test : Expression L → M.State → Except M.Value Bool → M.State → Prop
  | .booleanLiteral value, st, result, st' => result = .ok value ∧ st' = st
  | .other e, st, result, st' => ∃ r, M.eval e st r st' ∧ result = r.map M.truthy

/-- A loop takes the completions without a label that are meant for it. -/
inductive Loop (test : M.State → Except M.Value Bool → M.State → Prop) (body update : Code M.State M.Value) :
    Code M.State M.Value
  | done {st st'} (htest : test st (.ok false) st') : Loop test body update st .normal st'
  | throws {st v st'} (htest : test st (.error v) st') : Loop test body update st (.throw v) st'
  | next {st st1 c st2 st3 c' st'} (htest : test st (.ok true) st1) (hbody : body st1 c st2)
      (hc : c = .normal ∨ c = .continue none) (hupdate : update st2 .normal st3)
      (hloop : Loop test body update st3 c' st') : Loop test body update st c' st'
  | updateThrows {st st1 c st2 v st'} (htest : test st (.ok true) st1) (hbody : body st1 c st2)
      (hc : c = .normal ∨ c = .continue none) (hupdate : update st2 (.throw v) st') :
      Loop test body update st (.throw v) st'
  | left {st st1 st'} (htest : test st (.ok true) st1) (hbody : body st1 (.break none) st') :
      Loop test body update st .normal st'
  | abrupt {st st1 c st'} (htest : test st (.ok true) st1) (hbody : body st1 c st') (hnormal : c ≠ .normal)
      (hcontinue : c ≠ .continue none) (hbreak : c ≠ .break none) : Loop test body update st c st'

def pass : Code M.State M.Value := fun st c st' => c = .normal ∧ st' = st

def andThen (first second : Code M.State M.Value) : Code M.State M.Value := fun st c st' =>
  (∃ mid, first st .normal mid ∧ second mid c st') ∨ c ≠ .normal ∧ first st c st'

/-- The code of a block: functions are defined when it begins. -/
def scopeOf (d : (M.State → M.State) × Code M.State M.Value) : Code M.State M.Value := fun st c st' =>
  ∃ inner, d.2 (d.1 (M.enterBlock st)) c inner ∧ st' = M.leaveBlock inner

/-- The names are declared, the functions defined, and the statements run. -/
def bodyOf (names : Set Str) (d : (M.State → M.State) × Code M.State M.Value) : Code M.State M.Value := fun st =>
  d.2 (d.1 (M.declareVars names st))

/-- Statements mean what they define when their block begins, and how they run and complete. -/
def semantics : Semantics L where
  Meaning := (M.State → M.State) × Code M.State M.Value
  Behaviour := Code M.State M.Value
  nop := (id, M.pass)
  seq a b := (b.1 ∘ a.1, M.andThen a.2 b.2)
  block d := (id, M.scopeOf d)
  cond test d branch := (id, fun st c st' =>
    (∃ v, M.test test st (.error v) st' ∧ c = .throw v) ∨ (∃ mid, M.test test st (.ok true) mid ∧ d.2 mid c st') ∨
      ∃ mid, M.test test st (.ok false) mid ∧ ((branch.map Prod.snd).getD M.pass) mid c st')
  forLoop head d := (id, fun st c st' => ∃ inner,
    M.andThen (M.forInit head) (M.Loop (M.forTest head) d.2 (M.forUpdate head)) (M.enterBlock st) c inner ∧
      st' = M.leaveBlock inner)
  whileLoop test d := (id, M.Loop (M.test test) d.2 M.pass)
  function head code := ((code.map fun c => M.define head c.1 (M.bodyOf c.1 c.2)).getD id, M.pass)
  other o := (M.hoist o, M.run o)
  program names d := M.bodyOf names d
  nop_seq d := by
    refine Prod.ext rfl (funext₃ fun st c st' => propext ⟨?_, fun h => .inl ⟨st, ⟨rfl, rfl⟩, h⟩⟩)
    rintro (⟨mid, ⟨-, rfl⟩, h⟩ | ⟨hc, h, -⟩)
    · exact h
    · exact absurd h hc
  cond_false d := by
    refine Prod.ext rfl (funext₃ fun st c st' => propext ⟨?_, fun h => .inr (.inr ⟨st, ⟨rfl, rfl⟩, h⟩)⟩)
    rintro (⟨v, ⟨h, -⟩, -⟩ | ⟨mid, ⟨h, -⟩, -⟩ | ⟨mid, ⟨-, rfl⟩, h⟩)
    · cases h
    · cases h
    · exact h

/-- How a program runs from a state. -/
def runs (program : List (Statement L)) : Code M.State M.Value := M.semantics.behaviour program

end Machine

/-- The pass changes no behaviour. -/
def Preserved (program : List (Statement L)) : Prop :=
  ∀ S : Semantics L, S.behaviour (eliminateDeadCode program) = S.behaviour program

end ThreeVa.Bundler.DeadCode

namespace ThreeVa.Bundler.DeadCode
open Text

variable {L : Leaves}

theorem retained_eq_false {s : Statement L} :
    retained s = false ↔ ∃ consequent, s = .ifStatement (.booleanLiteral false) consequent none := by
  cases s with
  | ifStatement test consequent alternate =>
      cases test with
      | booleanLiteral value => cases value <;> cases alternate <;> simp [retained]
      | other e => simp [retained]
  | _ => simp [retained]

/-! ## Names -/

mutual

/-- A name is lost with a dropped statement, or still declared. -/
theorem mem_varNames (x : Str) :
    (p : List (Statement L)) → (x ∈ varNames p ↔ x ∈ droppedNames p ∨ x ∈ varNames (eliminateDeadCode p))
  | [] => by simp [varNames, droppedNames, eliminateDeadCode]
  | s :: rest => by
      have hs := mem_namesOf x s
      have hrest := mem_varNames x rest
      rw [varNames, droppedNames, eliminateDeadCode]
      split <;> simp only [varNames, List.mem_append] <;> grind

theorem mem_namesOf (x : Str) :
    (s : Statement L) → (x ∈ namesOf s ↔ x ∈ droppedInside s ∨ x ∈ namesOf (inside s))
  | .blockStatement body => by
      rw [namesOf, droppedInside, inside, namesOf]
      exact mem_varNames x body
  | .ifStatement test consequent alternate => by
      have hc := mem_namesOf_block x consequent
      have ha := mem_namesOf_alternate x alternate
      simp only [namesOf, droppedInside, inside, List.mem_append]
      grind
  | .forStatement head body => by
      have hb := mem_namesOf_block x body
      simp only [namesOf, droppedInside, inside, List.mem_append]
      grind
  | .whileStatement test body => by
      rw [namesOf, droppedInside, inside, namesOf]
      exact mem_namesOf_block x body
  | .functionDeclaration head body => by simp [namesOf, droppedInside, inside]
  | .other o => by simp [namesOf, droppedInside, inside]

theorem mem_namesOf_block (x : Str) :
    (s : Statement L) → (x ∈ namesOf s ↔ x ∈ droppedInBlock s ∨ x ∈ namesOf (insideBlock s))
  | .blockStatement body => by
      rw [namesOf, droppedInBlock, insideBlock, namesOf]
      exact mem_varNames x body
  | .ifStatement _ _ _ => by simp [droppedInBlock, insideBlock]
  | .forStatement _ _ => by simp [droppedInBlock, insideBlock]
  | .whileStatement _ _ => by simp [droppedInBlock, insideBlock]
  | .functionDeclaration _ _ => by simp [droppedInBlock, insideBlock]
  | .other _ => by simp [droppedInBlock, insideBlock]

theorem mem_namesOf_alternate (x : Str) :
    (a : Option (Statement L)) →
      (x ∈ namesOfAlternate a ↔ x ∈ droppedInAlternate a ∨ x ∈ namesOfAlternate (insideAlternate a))
  | none => by simp [namesOfAlternate, droppedInAlternate, insideAlternate]
  | some s => by
      rw [namesOfAlternate, droppedInAlternate, insideAlternate, namesOfAlternate]
      exact mem_namesOf_block x s

end

/-- The names of a function after the pass. -/
def SameNames (body : List (Statement L)) : Prop := {x | x ∈ varNames (eliminateDeadCode body)} = {x | x ∈ varNames body}

theorem sameNames_iff {body : List (Statement L)} :
    SameNames body ↔ ∀ x ∈ droppedNames body, x ∈ varNames (eliminateDeadCode body) := by
  simp only [SameNames, Set.ext_iff, Set.mem_ofPred_eq, mem_varNames _ body]
  exact forall_congr' fun x => by tauto

theorem keepsNames_iff {program : List (Statement L)} :
    KeepsNames program ↔ ∀ body ∈ program :: functions program, SameNames body := by
  simp only [KeepsNames, sameNames_iff]

/-! ## Meanings -/

namespace Semantics

variable (S : Semantics L)

mutual

/-- Statements mean what they meant if every function in them declares what it declared. -/
theorem statements_eliminate :
    (p : List (Statement L)) → (∀ body ∈ functions p, SameNames body) → S.statements (eliminateDeadCode p) = S.statements p
  | [], _ => rfl
  | s :: rest, h => by
      rw [functions] at h
      rw [eliminateDeadCode]
      split at h
      · rename_i hs
        rw [if_pos hs, statements, statements, statement_inside s fun body hb => h body (List.mem_append_left _ hb),
          statements_eliminate rest fun body hb => h body (List.mem_append_right _ hb)]
      · rename_i hs
        obtain ⟨consequent, rfl⟩ := retained_eq_false.mp (Bool.eq_false_iff.mpr hs)
        rw [if_neg hs, statements_eliminate rest h, statements, statement, branch, S.cond_false, S.nop_seq]

theorem statement_inside :
    (s : Statement L) → (∀ body ∈ functionsInside s, SameNames body) → S.statement (inside s) = S.statement s
  | .blockStatement body, h => by
      rw [inside, statement, statement, statements_eliminate body h]
  | .ifStatement test consequent alternate, h => by
      rw [functionsInside] at h
      rw [inside, statement, statement, statement_block consequent fun body hb => h body (List.mem_append_left _ hb),
        branch_alternate alternate fun body hb => h body (List.mem_append_right _ hb)]
  | .forStatement head body, h => by
      rw [inside, statement, statement, statement_block body h]
  | .whileStatement test body, h => by
      rw [inside, statement, statement, statement_block body h]
  | .functionDeclaration head body, h => by
      rw [inside, statement, statement, code_function body h]
  | .other o, _ => rfl

theorem statement_block :
    (s : Statement L) → (∀ body ∈ functionsInBlock s, SameNames body) → S.statement (insideBlock s) = S.statement s
  | .blockStatement body, h => by
      rw [insideBlock, statement, statement, statements_eliminate body h]
  | .ifStatement _ _ _, _ => rfl
  | .forStatement _ _, _ => rfl
  | .whileStatement _ _, _ => rfl
  | .functionDeclaration _ _, _ => rfl
  | .other _, _ => rfl

theorem branch_alternate :
    (a : Option (Statement L)) → (∀ body ∈ functionsInAlternate a, SameNames body) →
      S.branch (insideAlternate a) = S.branch a
  | none, _ => rfl
  | some s, h => by
      rw [insideAlternate, branch, branch, statement_block s h]

theorem code_function :
    (f : Option (List (Statement L))) → (∀ body ∈ functionsOf f, SameNames body) →
      S.code (insideFunction f) = S.code f
  | none, _ => rfl
  | some body, h => by
      rw [functionsOf] at h
      rw [insideFunction, code, code, statements_eliminate body fun b hb => h b (List.mem_cons_of_mem _ hb)]
      have hnames : SameNames body := h body List.mem_cons_self
      rw [SameNames] at hnames
      rw [hnames]

end

/-! ## A semantics that tells the names -/

/-- The names of the functions of a program in their order. -/
def observer (L : Leaves) : Semantics L where
  Meaning := List (Set Str)
  Behaviour := List (Set Str)
  nop := []
  seq := (· ++ ·)
  block d := d
  cond test d branch :=
    match test, branch with
    | .booleanLiteral false, none => []
    | _, branch => d ++ branch.getD []
  forLoop _ d := d
  whileLoop _ d := d
  function _ code :=
    match code with
    | none => []
    | some (names, d) => names :: d
  other _ := []
  program names d := names :: d
  nop_seq _ := rfl
  cond_false _ := rfl

theorem observer_if {test : Expression L} {consequent : Statement L} {alternate : Option (Statement L)}
    (h : retained (.ifStatement test consequent alternate) = true) (d : List (Set Str)) (branch : Option (List (Set Str)))
    (hbranch : branch.isSome = alternate.isSome) : (observer L).cond test d branch = d ++ branch.getD [] := by
  unfold observer
  simp only
  split
  · cases alternate with
    | none => cases h
    | some s => cases hbranch
  · rfl

theorem branch_isSome (a : Option (Statement L)) :
    ((observer L).branch a).isSome = a.isSome ∧ ((observer L).branch (insideAlternate a)).isSome = a.isSome := by
  cases a <;> exact ⟨rfl, rfl⟩

mutual

/-- The pass leaves every function in its place; if it leaves the names that are told, it leaves those of each function. -/
theorem statements_observed :
    (p : List (Statement L)) →
      ((observer L).statements (eliminateDeadCode p)).length = ((observer L).statements p).length ∧
        ((observer L).statements (eliminateDeadCode p) = (observer L).statements p → ∀ body ∈ functions p, SameNames body)
  | [] => ⟨rfl, fun _ body hb => by cases hb⟩
  | s :: rest => by
      obtain ⟨hlength, hsame⟩ := statements_observed rest
      rw [eliminateDeadCode, functions]
      split
      · rename_i hs
        obtain ⟨hlength', hsame'⟩ := statement_observed s hs
        refine ⟨List.length_append.trans ((congrArg₂ (· + ·) hlength' hlength).trans List.length_append.symm), fun heq => ?_⟩
        obtain ⟨h1, h2⟩ := List.append_inj heq hlength'
        intro body hb
        exact (List.mem_append.mp hb).elim (hsame' h1 body) (hsame h2 body)
      · rename_i hs
        obtain ⟨consequent, rfl⟩ := retained_eq_false.mp (Bool.eq_false_iff.mpr hs)
        exact ⟨hlength, hsame⟩

theorem statement_observed :
    (s : Statement L) → retained s = true →
      ((observer L).statement (inside s)).length = ((observer L).statement s).length ∧
        ((observer L).statement (inside s) = (observer L).statement s → ∀ body ∈ functionsInside s, SameNames body)
  | .blockStatement body, _ => statements_observed body
  | .ifStatement test consequent alternate, hs => by
      obtain ⟨hlength, hsame⟩ := block_observed consequent
      obtain ⟨hlength', hsame'⟩ := branch_observed alternate
      obtain ⟨hbranch, hinside⟩ := branch_isSome alternate
      have hbefore := observer_if hs ((observer L).statement consequent) ((observer L).branch alternate) hbranch
      have hafter := observer_if hs ((observer L).statement (insideBlock consequent))
        ((observer L).branch (insideAlternate alternate)) hinside
      refine ⟨(congrArg List.length hafter).trans (Eq.trans ?_ (congrArg List.length hbefore).symm), fun heq => ?_⟩
      · exact List.length_append.trans ((congrArg₂ (· + ·) hlength hlength').trans List.length_append.symm)
      · obtain ⟨h1, h2⟩ := List.append_inj (hafter.symm.trans (heq.trans hbefore)) hlength
        intro body hb
        exact (List.mem_append.mp hb).elim (hsame h1 body) (hsame' h2 body)
  | .forStatement head body, _ => block_observed body
  | .whileStatement test body, _ => block_observed body
  | .functionDeclaration head body, _ => code_observed head body
  | .other o, _ => ⟨rfl, fun _ body hb => by cases hb⟩

theorem block_observed :
    (s : Statement L) →
      ((observer L).statement (insideBlock s)).length = ((observer L).statement s).length ∧
        ((observer L).statement (insideBlock s) = (observer L).statement s → ∀ body ∈ functionsInBlock s, SameNames body)
  | .blockStatement body => statements_observed body
  | .ifStatement _ _ _ => ⟨rfl, fun _ body hb => by cases hb⟩
  | .forStatement _ _ => ⟨rfl, fun _ body hb => by cases hb⟩
  | .whileStatement _ _ => ⟨rfl, fun _ body hb => by cases hb⟩
  | .functionDeclaration _ _ => ⟨rfl, fun _ body hb => by cases hb⟩
  | .other _ => ⟨rfl, fun _ body hb => by cases hb⟩

theorem branch_observed :
    (a : Option (Statement L)) →
      (((observer L).branch (insideAlternate a)).getD []).length = (((observer L).branch a).getD []).length ∧
        (((observer L).branch (insideAlternate a)).getD [] = ((observer L).branch a).getD [] →
          ∀ body ∈ functionsInAlternate a, SameNames body)
  | none => ⟨rfl, fun _ body hb => by cases hb⟩
  | some s => block_observed s

theorem code_observed (head : L.FunctionHead) :
    (f : Option (List (Statement L))) →
      ((observer L).function head ((observer L).code (insideFunction f))).length =
          ((observer L).function head ((observer L).code f)).length ∧
        ((observer L).function head ((observer L).code (insideFunction f)) =
          (observer L).function head ((observer L).code f) → ∀ body ∈ functionsOf f, SameNames body)
  | none => ⟨rfl, fun _ body hb => by cases hb⟩
  | some body => by
      obtain ⟨hlength, hsame⟩ := statements_observed body
      refine ⟨congrArg Nat.succ hlength, fun heq => ?_⟩
      obtain ⟨hnames, hrest⟩ := List.cons.inj heq
      exact List.forall_mem_cons.mpr ⟨hnames, hsame hrest⟩

end

end Semantics

/-- No semantics sees a difference exactly if every function still declares its names. -/
theorem preserved_iff {program : List (Statement L)} : Preserved program ↔ KeepsNames program := by
  rw [keepsNames_iff, List.forall_mem_cons]
  constructor
  · intro h
    obtain ⟨hnames, hrest⟩ := List.cons.inj (h (Semantics.observer L))
    exact ⟨hnames, (Semantics.statements_observed program).2 hrest⟩
  · rintro ⟨hnames, hfunctions⟩ S
    rw [SameNames] at hnames
    rw [Semantics.behaviour, Semantics.behaviour, S.statements_eliminate program hfunctions, hnames]

/-- Programs whose names stay declared run to the same completions and states. -/
theorem runs_eliminate (M : Machine L) {program : List (Statement L)} (h : KeepsNames program) :
    M.runs (eliminateDeadCode program) = M.runs program :=
  preserved_iff.mpr h M.semantics

end ThreeVa.Bundler.DeadCode
