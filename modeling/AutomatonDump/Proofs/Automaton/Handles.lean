import AutomatonDump.Proofs.Passage
/-! Positions as an automaton keeps them: in the position table, for the start, in the edges. All of
them are occupied, so nothing is lost where a position is turned into a place, and whatever position
one gets hold of, its state is found again by number. -/
namespace AutomatonDump
variable {L : Type}

namespace Automaton
variable {a : Automaton L}

inductive Handle (a : Automaton L) : Nat → Prop where
  | start {i : Nat} (stored : a.start = some i) : Handle a i
  | found {n : Number} {i : Nat} (stored : a.positions[n]? = some i) : Handle a i
  | listed {i : Nat} (counted : i < a.size) : Handle a i
  | follow {i : Nat} {s : State L} {e : Edge L} (before : Handle a i) (stands : a.states[i]? = some s)
      (edge : e ∈ s.edges) : Handle a e.target

theorem handleOccupied (w : a.WellFormed) {i : Nat} (handle : a.Handle i) : i < a.size := by
  cases handle with
  | start stored => exact w.start i stored
  | found stored => exact positionOccupied ((w.inverse _ i).mp stored)
  | listed counted => exact counted
  | follow before stands edge => exact w.targets _ (Array.mem_of_getElem? stands) _ edge

theorem placeOccupied {i : Nat} (occupied : i < a.states.size) : a.place? i = some ⟨i,occupied⟩ := dif_pos occupied

theorem startPosition (w : a.WellFormed) : a.start?.map Fin.val = a.start := by
  unfold start?
  cases stored : a.start with
  | none => rfl
  | some i => rw [Option.bind_some,placeOccupied (w.start i stored)]; rfl

theorem findPosition (w : a.WellFormed) (n : Number) : (a.find? n).map Fin.val = a.positions[n]? := by
  unfold find?
  by_cases used : n ∈ a.positions
  · have stands := slotUsed w used
    rw [placeOccupied (positionOccupied stands),(w.inverse n _).mpr stands]
    rfl
  · rw [slotFree used,place?,dif_neg (Nat.lt_irrefl _),Std.TreeMap.getElem?_eq_none used]
    rfl

theorem findPlace (w : a.WellFormed) (p : a.Place) : a.find? (a.number p) = some p := by
  have position := findPosition w (a.number p)
  rw [(w.inverse _ _).mpr (placeStored p)] at position
  obtain ⟨q,found,same⟩ := Option.map_eq_some_iff.mp position
  rw [found,Fin.ext same]

theorem findNumber (w : a.WellFormed) {n : Number} {p : a.Place} (found : a.find? n = some p) : a.number p = n := by
  have position := findPosition w n
  rw [found,Option.map_some] at position
  exact Option.some.inj ((placeStored p).symm.trans ((w.inverse n p.val).mp position.symm))

theorem linkPositions (w : a.WellFormed) (p : a.Place) :
    (a.links p).map (fun x => (x.label,x.target.val)) = (a.state p).edges.toList.map fun e => (e.label,e.target) := by
  rw [links,List.map_filterMap,← List.filterMap_eq_map]
  apply List.filterMap_congr
  intro e inside
  have stored : a.state p ∈ a.states := Array.getElem_mem p.isLt
  rw [placeOccupied (w.targets _ stored e (by simpa using inside))]
  rfl

theorem linksCounted (w : a.WellFormed) (p : a.Place) : (a.links p).length = (a.state p).edges.size := by
  simpa using congrArg List.length (linkPositions w p)

theorem numbersDistinct (w : a.WellFormed) : a.numbers.Nodup := by
  rw [← rosterNumbers,Roster.numbers,entriesByPlace,List.map_map]
  exact (List.nodup_finRange _).map fun p q same => placeUnique w same

end Automaton

/-- The position table and the sequence of states stay in step, whatever is done to an automaton, and
every position in use is occupied. So no place is missed at the start, in a search or along an edge, and
each position that can be got hold of has a state that its number leads back to. -/
theorem positionsLeadToStates (c : Construction L) :
    let a := c.automaton
    a.WellFormed ∧ a.numbers.Nodup ∧
    a.start?.map Fin.val = a.start ∧
    (∀ n, (a.find? n).map Fin.val = a.positions[n]?) ∧
    (∀ p, (a.links p).map (fun x => (x.label,x.target.val)) =
      (a.state p).edges.toList.map fun e => (e.label,e.target)) ∧
    ∀ i, a.Handle i → ∃ p : a.Place, p.val = i ∧ a.find? (a.number p) = some p ∧
      a.positions[a.number p]? = some i := by
  intro a
  have w : a.WellFormed := c.automatonWellFormed
  refine ⟨w,Automaton.numbersDistinct w,Automaton.startPosition w,Automaton.findPosition w,
    Automaton.linkPositions w,fun i handle => ?_⟩
  let p : a.Place := ⟨i,Automaton.handleOccupied w handle⟩
  exact ⟨p,rfl,Automaton.findPlace w p,(w.inverse _ _).mpr (Automaton.placeStored p)⟩

/- A loop that brings its only state along, and a start in front of it. -/
def knot : Construction Char where
  clauses := []
  start := none
  changes := [.connect 9 'x' 9,.connect 4 'y' 9,.declare 9 (.alternative 1),.startAt 4]

theorem knotFollowed : knot.automaton.Handle 0 ∧ ∃ p : knot.automaton.Place, p.val = 0 ∧
    knot.automaton.find? (knot.automaton.number p) = some p ∧
    knot.automaton.positions[knot.automaton.number p]? = some 0 := by
  have start : knot.automaton.Handle 1 := .start (by decide +kernel)
  have first : knot.automaton.states[1]? = some ⟨4,.nothing,#[⟨'y',0⟩]⟩ := by decide +kernel
  have loop : knot.automaton.states[0]? = some ⟨9,.alternative 1,#[⟨'x',0⟩]⟩ := by decide +kernel
  have around : knot.automaton.Handle 0 := .follow (e := ⟨'x',0⟩)
    (.follow (e := ⟨'y',0⟩) start first (by simp)) loop (by simp)
  exact ⟨around,(positionsLeadToStates knot).2.2.2.2.2 0 around⟩

end AutomatonDump
