import AutomatonDump.Proofs.Automaton.Handles
import AutomatonDump.Proofs.Roster.HistoryPassages
/-! How an automaton grows. No operation moves a state, renumbers it or takes an edge from it: it stays
at its position, and its edges are followed by those that are added. So an automaton that has been put
aside can be compared with what becomes of it, state by state and with positions for targets, as if
numbers were compared, although positions mean nothing from one automaton to another. -/
namespace AutomatonDump
variable {L : Type}

structure State.Grows (s t : State L) : Prop where
  number : t.number = s.number
  edges : s.edges.toList <+: t.edges.toList

namespace State

theorem growsSelf (s : State L) : s.Grows s := ⟨rfl,List.prefix_refl _⟩

theorem growsTrans {s t u : State L} (first : s.Grows t) (second : t.Grows u) : s.Grows u :=
  ⟨second.number.trans first.number,first.edges.trans second.edges⟩

end State

namespace Automaton
variable {a b c : Automaton L}

def Extends (a b : Automaton L) : Prop :=
  ∀ (i : Nat) (s : State L), a.states[i]? = some s → ∃ t, b.states[i]? = some t ∧ s.Grows t

theorem extendsSelf (a : Automaton L) : a.Extends a := fun _ s stands => ⟨s,stands,s.growsSelf⟩

theorem extendsTrans (first : a.Extends b) (second : b.Extends c) : a.Extends c := by
  intro i s stands
  obtain ⟨t,between,early⟩ := first i s stands
  obtain ⟨u,last,late⟩ := second i t between
  exact ⟨u,last,State.growsTrans early late⟩

theorem extendsAppend (a : Automaton L) (n : Number) (acceptance : Acceptance) :
    a.Extends (a.append n acceptance) := by
  intro i s stands
  have inside := (Array.getElem?_eq_some_iff.mp stands).1
  have kept : (a.append n acceptance).states[i]? = a.states[i]? := by
    simp [append,Array.getElem?_push,Nat.ne_of_lt inside]
  exact ⟨s,kept.trans stands,s.growsSelf⟩

theorem extendsModify (a : Automaton L) (n : Number) {change : State L → State L}
    (grows : ∀ s : State L, s.Grows (change s)) : a.Extends (a.modify n change) := by
  intro i s stands
  simp only [modify,Array.getElem?_modify,stands]
  split
  · exact ⟨change s,rfl,grows s⟩
  · exact ⟨s,rfl,s.growsSelf⟩

theorem extendsEnsure (a : Automaton L) (n : Number) : a.Extends (a.ensure n) := by
  unfold ensure
  split
  · exact extendsSelf a
  · exact extendsAppend a n .nothing

theorem extendsDeclare (a : Automaton L) (n : Number) (acceptance : Acceptance) :
    a.Extends (a.declare n acceptance) := by
  unfold declare
  split
  · exact extendsModify a n fun s => ⟨rfl,List.prefix_refl _⟩
  · exact extendsAppend a n acceptance

theorem extendsConnect (a : Automaton L) (source : Number) (label : L) (target : Number) :
    a.Extends (a.connect source label target) := by
  refine extendsTrans (extendsTrans (extendsEnsure a target) (extendsEnsure _ source)) ?_
  refine extendsModify _ source fun s => ⟨rfl,?_⟩
  rw [Array.toList_push]
  exact List.prefix_append _ _

theorem extendsApply (a : Automaton L) (o : Operation L) : a.Extends (o.apply a) := by
  cases o with
  | declare n acceptance => exact extendsDeclare a n acceptance
  | connect source label target => exact extendsConnect a source label target
  | startAt n => exact extendsEnsure a n
  | dropStart => exact extendsSelf a

theorem extendsRun (a : Automaton L) (operations : List (Operation L)) : a.Extends (a.run operations) := by
  induction operations generalizing a with
  | nil => exact extendsSelf a
  | cons o rest ih => exact extendsTrans (extendsApply a o) (ih (o.apply a))

section
variable {p : a.Place} {q : b.Place}

theorem placeGrown (grown : a.Extends b) (p : a.Place) :
    ∃ q : b.Place, q.val = p.val ∧ (a.state p).Grows (b.state q) := by
  obtain ⟨t,stands,grows⟩ := grown p (a.state p) (Array.getElem?_eq_getElem p.isLt)
  obtain ⟨inside,rfl⟩ := Array.getElem?_eq_some_iff.mp stands
  exact ⟨⟨p,inside⟩,rfl,grows⟩

theorem numberGrown (grown : a.Extends b) {i : Nat} {n : Number} (stored : a.numberAt? i = some n) :
    b.numberAt? i = some n := by
  obtain ⟨s,stands,rfl⟩ := Option.map_eq_some_iff.mp stored
  obtain ⟨t,later,grows⟩ := grown i s stands
  exact Option.map_eq_some_iff.mpr ⟨t,later,grows.number⟩

theorem entryGrown (w : a.WellFormed) (grown : a.Extends b) (p : a.Place) :
    b.entry (a.state p) = a.entry (a.state p) := by
  refine entrySame fun e edge => ?_
  have inside : e.target < a.states.size := w.targets _ (Array.getElem_mem p.isLt) e edge
  have stored : a.numberAt? e.target = some (a.number ⟨e.target,inside⟩) := placeStored ⟨e.target,inside⟩
  rw [stored,numberGrown grown stored]

def exits (a : Automaton L) (p : a.Place) : List (L × Number) := (a.links p).map fun x => (x.label,a.number x.target)

theorem exitsEntry (p : a.Place) : a.exits p = (a.entry (a.state p)).edges := (edgesByPlace p).symm

theorem exitsGrown (w : a.WellFormed) (grown : a.Extends b) (grows : (a.state p).Grows (b.state q)) :
    a.exits p <+: b.exits q := by
  rw [exitsEntry,exitsEntry,← entryGrown w grown]
  exact grows.edges.filterMap _

theorem exitsCounted (w : a.WellFormed) (p : a.Place) : (a.exits p).length = (a.state p).edges.toList.length := by
  have counted := congrArg List.length (linkPositions w p)
  simpa [exits] using counted

theorem stateGrown (left : a.WellFormed) (right : b.WellFormed) (grown : a.Extends b)
    (grows : (a.state p).Grows (b.state q)) :
    b.state q = a.state p ↔ (b.state q).acceptance = (a.state p).acceptance ∧ b.exits q = a.exits p := by
  constructor
  · intro same
    refine ⟨congrArg State.acceptance same,?_⟩
    rw [exitsEntry,exitsEntry,same,entryGrown left grown]
  · rintro ⟨acceptance,exits⟩
    have counted := congrArg List.length exits
    rw [exitsCounted left,exitsCounted right] at counted
    have edges := Array.toList_inj.mp (grows.edges.eq_of_length counted.symm)
    have number := grows.number
    generalize b.state q = t at *
    generalize a.state p = s at *
    cases s; cases t
    cases number; cases acceptance; cases edges
    rfl

end
end Automaton

theorem Construction.exitsLater (c : Construction L) (later : List (Operation L)) {p : c.automaton.Place}
    {q : (c.automaton.run later).Place} (number : (c.automaton.run later).number q = c.automaton.number p) :
    (c.automaton.run later).exits q = c.automaton.exits p ++ Roster.edgesFrom later (c.automaton.number p) := by
  have after := Roster.historyLinks _ (c.laterRoster later) q
  have before := Roster.historyLinks _ c.automatonRoster p
  rw [Automaton.exits,Automaton.exits,after,before,number,Roster.edgesFromAppend]

/-- States keep their positions and numbers, and their exits come first among those that they have later.
Therefore a state is the same as before exactly if it accepts the same and has the same exits, that is,
if it accepts the same and no edge was added from it. -/
theorem statesOnlyGrow (c : Construction L) (later : List (Operation L)) :
    let a := c.automaton
    let b := a.run later
    (∀ p : a.Place, ∃ q : b.Place, q.val = p.val ∧ b.number q = a.number p ∧ a.exits p <+: b.exits q) ∧
    ∀ n p, a.find? n = some p → ∃ q, b.find? n = some q ∧ q.val = p.val ∧
      (b.state? n = a.state? n ↔
        (b.state q).acceptance = (a.state p).acceptance ∧ b.exits q = a.exits p) ∧
      (b.state? n = a.state? n ↔
        (b.state q).acceptance = (a.state p).acceptance ∧ ∀ label target, .connect n label target ∉ later) := by
  intro a b
  have left : a.WellFormed := c.automatonWellFormed
  have right : b.WellFormed := Automaton.runWellFormed left later
  have grown : a.Extends b := Automaton.extendsRun a later
  constructor
  · intro p
    obtain ⟨q,position,grows⟩ := Automaton.placeGrown grown p
    exact ⟨q,position,grows.number,Automaton.exitsGrown left grown grows⟩
  · intro n p found
    obtain ⟨q,position,grows⟩ := Automaton.placeGrown grown p
    have number : a.number p = n := Automaton.findNumber left found
    have kept : b.number q = n := grows.number.trans number
    have found' : b.find? n = some q := kept ▸ Automaton.findPlace right q
    have states : b.state? n = a.state? n ↔
        (b.state q).acceptance = (a.state p).acceptance ∧ b.exits q = a.exits p := by
      rw [Automaton.state?,Automaton.state?,found,found',Option.map_some,Option.map_some,Option.some.injEq]
      exact Automaton.stateGrown left right grown grows
    refine ⟨q,found',position,states,states.trans (and_congr_right fun _ => ?_)⟩
    rw [c.exitsLater later grows.number,List.append_right_eq_self,number,Roster.edgesFromNothing]

/- The knot later on: its loop accepts something else for a time, and its start gets an edge to a new
state. -/
def loosened : List (Operation Char) :=
  [.declare 9 .nothing,.connect 4 'z' 7,.startAt 7,.declare 9 (.alternative 1),.dropStart]

theorem knotLoosened :
    let a := knot.automaton
    let b := a.run loosened
    (∃ p q, a.find? 9 = some p ∧ b.find? 9 = some q ∧ q.val = p.val ∧
      b.exits q = a.exits p ∧ b.state? 9 = a.state? 9) ∧
    ∃ p q, a.find? 4 = some p ∧ b.find? 4 = some q ∧ q.val = p.val ∧ b.state? 4 ≠ a.state? 4 := by
  intro a b
  have loop : ∃ p q, a.find? 9 = some p ∧ b.find? 9 = some q ∧
      (b.state q).acceptance = (a.state p).acceptance := by decide +kernel
  have start : ∃ p, a.find? 4 = some p := by decide +kernel
  obtain ⟨p,q,found,found',acceptance⟩ := loop
  obtain ⟨s,four⟩ := start
  have compared := (statesOnlyGrow knot loosened).2
  constructor
  · obtain ⟨r,nine,position,exits,operations⟩ := compared 9 p found
    cases Option.some.inj (found'.symm.trans nine)
    have same : b.state? 9 = a.state? 9 := operations.mpr ⟨acceptance,by simp [loosened]⟩
    exact ⟨p,q,found,found',position,(exits.mp same).2,same⟩
  · obtain ⟨t,four',position,_,operations⟩ := compared 4 s four
    refine ⟨s,t,four,four',position,fun same => ?_⟩
    exact (operations.mp same).2 'z' 7 (by simp [loosened])

end AutomatonDump
