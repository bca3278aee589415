import Mathlib.Data.List.Perm.Basic
import Mathlib.Logic.Relation

/-!
# A sender with one item at a time

Items are accepted and wait until they are sent, one at a time and in parts. What has been sent is a sequence of the parts of
items; it is all of the accepted items in order if none overtakes another, none is given up and none is lost.
-/

/-- An item that was given up, or sent as a whole. -/
structure Outbox.Done (ι β : Type) where
  item : ι
  taken : List β
  whole : Bool

/-- An item that is being sent. -/
structure Outbox.Active (ι β : Type) where
  item : ι
  taken : List β
  left : List β

structure Outbox (ι β : Type) where
  accepted : List ι
  done : List (Outbox.Done ι β)
  active : Option (Outbox.Active ι β)
  waiting : List ι
  lost : List ι
  wire : List β

namespace Outbox

variable {ι β : Type} {data : ι → List β}

/-- Items may overtake others unless the step is `strict`. -/
inductive Step (data : ι → List β) (strict : Prop) (o : Outbox ι β) : Outbox ι β → Prop
  | accept (i : ι) : Step data strict o { o with accepted := o.accepted ++ [i], waiting := o.waiting ++ [i] }
  | begin (i : ι) (rest : List ι) (hactive : o.active = none) (hwaiting : o.waiting = i :: rest) :
      Step data strict o { o with active := some ⟨i, [], data i⟩, waiting := rest }
  | send (a : Active ι β) (bytes left : List β) (hactive : o.active = some a) (hleft : a.left = bytes ++ left) :
      Step data strict o { o with active := some ⟨a.item, a.taken ++ bytes, left⟩, wire := o.wire ++ bytes }
  | finish (a : Active ι β) (whole : Bool) (hactive : o.active = some a) (hwhole : whole = true → a.left = []) :
      Step data strict o { o with active := none, done := o.done ++ [⟨a.item, a.taken, whole⟩] }
  | lose (before gone after : List ι) (hwaiting : o.waiting = before ++ gone ++ after) :
      Step data strict o { o with waiting := before ++ after, lost := o.lost ++ gone }
  | reorder (waiting : List ι) (hperm : waiting.Perm o.waiting) (hstrict : strict → waiting = o.waiting) :
      Step data strict o { o with waiting }

variable {strict : Prop}

/-- The items that are not done yet. -/
def pending (o : Outbox ι β) : List ι := (o.active.map Active.item).toList ++ o.waiting

/-- What holds whatever the order. -/
structure Accounted (data : ι → List β) (o : Outbox ι β) : Prop where
  all : o.accepted.Perm (o.done.map Done.item ++ o.pending ++ o.lost)
  wire : o.wire = o.done.flatMap Done.taken ++ (o.active.map Active.taken).getD []
  active : ∀ a ∈ o.active, a.taken ++ a.left = data a.item
  done : ∀ d ∈ o.done, d.taken <+: data d.item ∧ (d.whole = true → d.taken = data d.item)

theorem Step.accounted {o o' : Outbox ι β} (h : Step data strict o o') (ho : Accounted data o) : Accounted data o' := by
  cases h with
  | accept i =>
      refine ⟨?_, ho.wire, ho.active, ho.done⟩
      have hall := ho.all.append_right [i]
      refine hall.trans ?_
      simp only [pending, List.append_assoc]
      exact (((List.perm_append_comm).append_left _).append_left _).append_left _
  | begin i rest hactive hwaiting =>
      refine ⟨?_, ?_, ?_, ho.done⟩
      · have hall := ho.all
        simp only [pending, hactive, hwaiting] at hall
        simpa [pending] using hall
      · have hwire := ho.wire
        simp only [hactive] at hwire
        simpa using hwire
      · rintro a ⟨⟩
        rfl
  | send a bytes left hactive hleft =>
      have hwhole := ho.active a hactive
      refine ⟨?_, ?_, ?_, ho.done⟩
      · simpa [pending, hactive] using ho.all
      · simp [ho.wire, hactive, List.append_assoc]
      · rintro a' ⟨⟩
        rw [List.append_assoc, ← hleft]
        exact hwhole
  | finish a whole hactive hleft =>
      have hwhole := ho.active a hactive
      refine ⟨?_, ?_, by simp, ?_⟩
      · simpa [pending, hactive, List.append_assoc] using ho.all
      · simp [ho.wire, hactive]
      · intro d hd
        rcases List.mem_append.mp hd with hd | hd
        · exact ho.done d hd
        · obtain rfl := List.mem_singleton.mp hd
          refine ⟨⟨a.left, hwhole⟩, fun hw => ?_⟩
          rw [← hwhole, hleft hw, List.append_nil]
  | lose before gone after hwaiting =>
      refine ⟨?_, ho.wire, ho.active, ho.done⟩
      have hall := ho.all
      have hgone : (gone ++ (after ++ o.lost)).Perm (after ++ (o.lost ++ gone)) := by
        rw [← List.append_assoc after]
        exact List.perm_append_comm
      simp only [pending, hwaiting, List.append_assoc] at hall ⊢
      exact hall.trans (((hgone.append_left _).append_left _).append_left _)
  | reorder waiting hperm hstrict =>
      refine ⟨ho.all.trans ?_, ho.wire, ho.active, ho.done⟩
      exact ((hperm.symm.append_left _).append_left _).append_right _

/-- What holds besides if no item overtakes another. -/
def InOrder (o : Outbox ι β) : Prop := o.lost = [] → o.accepted = o.done.map Done.item ++ o.pending

theorem Step.inOrder {o o' : Outbox ι β} (h : Step data True o o') (ho : o.InOrder) : o'.InOrder := by
  cases h with
  | accept i => exact fun hlost => by simp [ho hlost, pending]
  | begin i rest hactive hwaiting => exact fun hlost => by simp [ho hlost, pending, hactive, hwaiting]
  | send a bytes left hactive hleft => exact fun hlost => by simp [ho hlost, pending, hactive]
  | finish a whole hactive hleft => exact fun hlost => by simp [ho hlost, pending, hactive]
  | lose before gone after hwaiting =>
      intro hlost
      obtain ⟨hnone, rfl⟩ := List.append_eq_nil_iff.mp hlost
      simp [ho hnone, pending, hwaiting]
  | reorder waiting hperm hstrict =>
      rw [hstrict trivial]
      exact ho

/-- If every item that is done was sent as a whole, what was sent is a beginning of what was accepted. -/
theorem InOrder.wire {o : Outbox ι β} (h : o.InOrder) (ho : Accounted data o) (hlost : o.lost = [])
    (hwhole : ∀ d ∈ o.done, d.whole = true) :
    o.wire ++ ((o.active.map Active.left).getD [] ++ o.waiting.flatMap data) = o.accepted.flatMap data := by
  have hdone : o.done.flatMap Done.taken = (o.done.map Done.item).flatMap data := by
    rw [List.flatMap_map]
    exact List.flatMap_congr fun d hd => (ho.done d hd).2 (hwhole d hd)
  have hactive : (o.active.map Active.taken).getD [] ++ (o.active.map Active.left).getD [] =
      (o.active.map Active.item).toList.flatMap data := by
    cases ha : o.active with
    | none => rfl
    | some a => simpa using ho.active a ha
  rw [h hlost, ho.wire, hdone, pending, List.flatMap_append, List.flatMap_append, ← hactive]
  simp only [List.append_assoc]

theorem accounted_of_steps {o o' : Outbox ι β} (h : Relation.ReflTransGen (Step data strict) o o') (ho : Accounted data o) :
    Accounted data o' := by
  induction h with
  | refl => exact ho
  | tail _ hstep ih => exact hstep.accounted ih

theorem inOrder_of_steps {o o' : Outbox ι β} (h : Relation.ReflTransGen (Step data True) o o') (ho : o.InOrder) :
    o'.InOrder := by
  induction h with
  | refl => exact ho
  | tail _ hstep ih => exact hstep.inOrder ih

end Outbox
