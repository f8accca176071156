import AutomatonDump.Proofs.Dump.Course
import AutomatonDump.Proofs.Dump.Outcome
import AutomatonDump.Proofs.Roster.HistoryPassages
import AutomatonDump.Proofs.Traversal.DiscoveryOrder
import AutomatonDump.Proofs.Traversal.Levels
/-! The order in which a dump marks the states: that of their discovery, and so by their distance
from the start. Hence the labels asked for, and the refusal that is met if there are several. -/
namespace AutomatonDump
variable {L ε : Type}

namespace Progress
variable {a : Automaton L} {resolve : Resolver L ε} {p : a.Place} {turns : List (Turn a)} {r : Report L ε}

theorem marksByDistance (w : a.WellFormed) (course : Course resolve (outset p) turns r) :
    a.ByDistance (a.number p) (Turn.marks turns) := by
  obtain ⟨later,run⟩ := courseBegins course
  have visits : a.visits p = Turn.marks turns ++ later := run
  have whole := Automaton.visitsByDistance w p
  rw [visits] at whole
  exact ⟨fun q h => whole.measured q (List.mem_append_left _ h),(List.pairwise_append.mp whole.ordered).1⟩

theorem refusedNearest (w : a.WellFormed) (course : Course resolve (outset p) turns r) {e : ε}
    (failed : r.outcome = .error e) : ∃ x ∈ a.links x.source, turns.getLast? = some (.refused x) ∧
      resolve x.label = .error e ∧ r.asked.getLast? = some x.label ∧
      ∃ nearest, a.roster.Distance (a.number p) nearest (a.number x.source) ∧
        ∀ y ∈ a.roster.passagesFrom (a.number p), (∃ e, resolve y.label = .error e) →
          ∀ steps, a.roster.Distance (a.number p) steps y.source → nearest ≤ steps := by
  obtain ⟨before,x,later,rfl,inside,error,last,run,accepted⟩ := courseBroken course failed
  have visits : a.visits p = Turn.marks before ++ x.source :: later := run
  have whole := Automaton.visitsByDistance w p
  obtain ⟨nearest,distance⟩ := whole.measured x.source (visits ▸ List.mem_append_right _ List.mem_cons_self)
  refine ⟨x,inside,List.getLast?_concat ..,error,last,nearest,distance,?_⟩
  rw [visits] at whole
  have ahead := (List.pairwise_cons.mp (List.pairwise_append.mp whole.ordered).2.1).1
  rintro y passage ⟨e',refused⟩ steps far
  obtain ⟨link,listed,rfl⟩ := List.mem_map.mp ((Automaton.routePassages w p).mem_iff.mpr passage)
  obtain ⟨s,visited,owned⟩ := List.mem_flatMap.mp listed
  cases Automaton.sourceOfLink owned
  rw [visits] at visited
  rcases List.mem_append.mp visited with early | rest
  · exact absurd (accepted _ early link owned) (Resolver.notAccepted refused)
  · rcases List.mem_cons.mp rest with here | behind
    · exact distance.2 steps (here ▸ far.1)
    · exact ahead _ behind nearest steps distance far

end Progress

/-- The states that a dump marks when no label is refused are those of the search that marks what it
discovers, in the same order. The labels asked for are those of their edges, state by state. -/
theorem dumpFollowsDiscoveries (c : Construction L) (p : c.automaton.Place) (willing : Resolver L ε)
    (never : ∀ label, willing.Accepts label) :
    let a := c.automaton
    let r := a.reportFrom willing (some p)
    (∃ turns, Progress.Course willing (.outset p) turns r) ∧
    (∀ turns, Progress.Course willing (.outset p) turns r → Turn.marks turns = a.discoveries p) ∧
    r.asked = (a.discoveries p).flatMap fun q =>
      (Roster.edgesFrom c.operations (a.number q)).map Prod.fst := by
  intro a r
  have accepted : r = _ := Automaton.reportAccepted fun x _ => never x.label
  have order := Automaton.visitsDiscoveries c.automatonWellFormed p
  refine ⟨Progress.runCourse willing _,fun turns course => ?_,?_⟩
  · exact (Progress.courseComplete course (congrArg Report.outcome accepted)).trans order
  · rw [accepted,← order,Automaton.route,List.map_flatMap]
    refine List.flatMap_congr fun q _ => ?_
    rw [← Roster.historyLinks c.operations c.automatonRoster q,List.map_map]
    rfl

/- Two ways to the last state, one over a state that is left at a refused label; the first edge of
all is refused too, but farther away. -/
def forked : Construction Text where
  clauses := [.edges [(3,"?".toList,0),(0,"a".toList,2),(0,"b".toList,1),(0,"a".toList,2),(2,"c".toList,2)]]
  start := some 0
  changes := [.connect 2 "d".toList 3,.connect 1 "?".toList 3]

theorem forkedDiscovered : ∃ p, forked.automaton.start? = some p ∧ (∀ label, verbatim.Accepts label) ∧
    let a := forked.automaton
    let r := a.reportFrom verbatim (some p)
    (a.discoveries p).map a.number = [0,2,1,3] ∧
    (∃ turns, Progress.Course verbatim (.outset p) turns r) ∧
    (∀ turns, Progress.Course verbatim (.outset p) turns r → Turn.marks turns = a.discoveries p) ∧
    r.asked = (a.discoveries p).flatMap fun q =>
      (Roster.edgesFrom forked.operations (a.number q)).map Prod.fst := by
  have order : ∃ p, forked.automaton.start? = some p ∧
      (forked.automaton.discoveries p).map forked.automaton.number = [0,2,1,3] := by decide +kernel
  obtain ⟨p,found,discovered⟩ := order
  have never : ∀ label, verbatim.Accepts label := fun label => ⟨Shape.text.display label,rfl⟩
  exact ⟨p,found,never,discovered,dumpFollowsDiscoveries forked p verbatim never⟩

/-- Whether or not a label is refused, states are marked in an order of their distances from the
start. The refusal that ends a dump belongs to an edge that none with a refused label is nearer. -/
theorem dumpGoesByDistance (c : Construction L) (p : c.automaton.Place) (resolve : Resolver L ε) :
    let a := c.automaton
    let r := a.reportFrom resolve (some p)
    (∃ turns, Progress.Course resolve (.outset p) turns r) ∧
    ∀ turns, Progress.Course resolve (.outset p) turns r →
      a.ByDistance (a.number p) (Turn.marks turns) ∧
      ∀ e, r.outcome = .error e → ∃ x ∈ a.links x.source, turns.getLast? = some (.refused x) ∧
        resolve x.label = .error e ∧ r.asked.getLast? = some x.label ∧
        ∃ nearest, a.roster.Distance (a.number p) nearest (a.number x.source) ∧
          ∀ y ∈ a.roster.passagesFrom (a.number p), (∃ e, resolve y.label = .error e) →
            ∀ steps, a.roster.Distance (a.number p) steps y.source → nearest ≤ steps := by
  intro a r
  refine ⟨Progress.runCourse resolve _,fun turns course => ⟨?_,fun e failed => ?_⟩⟩
  · exact Progress.marksByDistance c.automatonWellFormed course
  · exact Progress.refusedNearest c.automatonWellFormed course failed

theorem forkedRefused : ∃ p, forked.automaton.start? = some p ∧
    let a := forked.automaton
    let r := a.reportFrom questioning (some p)
    r.outcome = .error "?".toList ∧ r.asked = ["a".toList,"b".toList,"a".toList,"c".toList,"d".toList,"?".toList] ∧
    ∃ turns, Progress.Course questioning (.outset p) turns r ∧ a.ByDistance (a.number p) (Turn.marks turns) ∧
      ∃ x ∈ a.links x.source, turns.getLast? = some (.refused x) ∧
        questioning x.label = .error "?".toList ∧ r.asked.getLast? = some x.label ∧
        ∃ nearest, a.roster.Distance (a.number p) nearest (a.number x.source) ∧
          ∀ y ∈ a.roster.passagesFrom (a.number p), (∃ e, questioning y.label = .error e) →
            ∀ steps, a.roster.Distance (a.number p) steps y.source → nearest ≤ steps := by
  have report : ∃ p, forked.automaton.start? = some p ∧
      (forked.automaton.reportFrom questioning (some p)).outcome = .error "?".toList ∧
      (forked.automaton.reportFrom questioning (some p)).asked =
        ["a".toList,"b".toList,"a".toList,"c".toList,"d".toList,"?".toList] := by decide +kernel
  obtain ⟨p,found,failed,asked⟩ := report
  obtain ⟨⟨turns,course⟩,told⟩ := dumpGoesByDistance forked p questioning
  exact ⟨p,found,failed,asked,turns,course,(told turns course).1,(told turns course).2 _ failed⟩

end AutomatonDump
