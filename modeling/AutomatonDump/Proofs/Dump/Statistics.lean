import AutomatonDump.Proofs.Automaton.Handles
import AutomatonDump.Proofs.Dump.Course
import AutomatonDump.Proofs.Dump.Outcome
import Mathlib.Algebra.GroupWithZero.Nat
/-! How much a dump does. Every turn takes one entry from the queue and every edge of a marked state
puts one in, so that the work is told by what the start reaches, and so is what the dump reports. -/
namespace AutomatonDump
variable {L ε : Type}

namespace Automaton
variable {a : Automaton L} {resolve : Resolver L ε} {p : a.Place}

noncomputable def edgesReached (a : Automaton L) (p : a.Place) : Nat :=
  ((a.reached p).map fun q => (a.state q).edges.size).sum

theorem routeCounted (w : a.WellFormed) (p : a.Place) : (a.route p).length = a.edgesReached p := by
  have edges := (visitsPerm w p).map fun q => (a.state q).edges.size
  rw [route,List.length_flatMap,edgesReached,← edges.sum_nat]
  exact congrArg List.sum (List.map_congr_left fun q _ => linksCounted w q)

theorem reportCounted (w : a.WellFormed) (accepts : ∀ x ∈ a.route p, resolve.Accepts x.label) :
    let text := compose ((a.route p).map fun x => a.line x (resolve.text x.label))
    a.reportFrom resolve (some p) = ⟨(a.route p).map Link.label,.ok (some text),
      [.visited (a.reached p).length (a.edgesReached p),.produced text]⟩ := by
  rw [reportAccepted accepts,routeCounted w,(visitsPerm w p).length_eq]

end Automaton

namespace Progress
variable {a : Automaton L} {resolve : Resolver L ε} {w : Progress a} {p : a.Place} {turns : List (Turn a)}
  {r : Report L ε}

theorem waitingVisit (w : Progress a) (p : a.Place) (rest : List a.Place) (asked : List L) (lines : List Text) :
    (w.visit p rest asked lines).frontier.waiting.length = rest.length + (a.links p).length := by
  simp [visit,Frontier.visit,Automaton.targets]

/- An entry that leaves the queue was in it at first or was put in by an edge of a marked place. If
nothing is refused, none of these is left over. -/
theorem courseTurns (course : Course resolve w turns r) : ∃ unused,
    turns.length + unused = w.frontier.waiting.length + ((Turn.marks turns).flatMap a.links).length ∧
    ∀ t, r.outcome = .ok t → unused = 0 := by
  induction course with
  | finish queue => exact ⟨0,by rw [queue]; rfl,fun _ _ => rfl⟩
  | @drop w p rest turns r queue seen _ ih =>
    obtain ⟨unused,later,used⟩ := ih
    have shorter : (w.drop rest).frontier.waiting.length = rest.length := rfl
    rw [shorter] at later
    refine ⟨unused,?_,used⟩
    rw [queue,List.length_cons,List.length_cons,Turn.marksDropped]
    omega
  | visit queue fresh accepts _ ih =>
    obtain ⟨unused,later,used⟩ := ih
    rw [waitingVisit] at later
    refine ⟨unused,?_,used⟩
    rw [queue,List.length_cons,List.length_cons,Turn.marksVisited,List.flatMap_cons,List.length_append]
    omega
  | @refuse w rest before x after e queue fresh place accepts error =>
    refine ⟨rest.length + (a.links x.source).length,?_,fun t shown => nomatch shown⟩
    have marked : Turn.marks [Turn.refused x] = [x.source] := rfl
    simp only [queue,marked,List.flatMap_singleton,List.length_cons,List.length_nil]
    omega

theorem turnsBounded (w : a.WellFormed) (course : Course resolve (outset p) turns r) :
    turns.length ≤ 1 + a.edgesReached p := by
  obtain ⟨unused,turns,_⟩ := courseTurns course
  obtain ⟨later,run⟩ := courseBegins course
  have visits : a.visits p = Turn.marks _ ++ later := run
  have edges := Automaton.routeCounted w p
  rw [Automaton.route,visits,List.flatMap_append,List.length_append] at edges
  have waiting : (outset p).frontier.waiting.length = 1 := rfl
  omega

theorem turnsCounted (w : a.WellFormed) (course : Course resolve (outset p) turns r) {t : Option Text}
    (shown : r.outcome = .ok t) : turns.length = 1 + a.edgesReached p := by
  obtain ⟨unused,turns,used⟩ := courseTurns course
  rw [courseComplete course shown,used t shown] at turns
  exact turns.trans (congrArg (1 + ·) (Automaton.routeCounted w p))

end Progress

/-- A dump ends after one turn for its start and at most one for each edge that the start reaches,
whatever is refused. If no label is, there are as many turns as that, they mark each reached state once
and no other, every edge is asked for once, and the log tells the numbers of both. -/
theorem dumpWorkIsCounted (c : Construction L) (p : c.automaton.Place) (resolve : Resolver L ε) :
    let a := c.automaton
    let r := a.reportFrom resolve (some p)
    (∃ turns, Progress.Course resolve (.outset p) turns r) ∧
    ∀ turns, Progress.Course resolve (.outset p) turns r →
      turns.length ≤ 1 + a.edgesReached p ∧
      ((∀ x ∈ a.roster.passagesFrom (a.number p), resolve.Accepts x.label) →
        turns.length = 1 + a.edgesReached p ∧
        (Turn.marks turns).Nodup ∧
        (∀ q, q ∈ Turn.marks turns ↔ a.roster.Reaches (a.number p) (a.number q)) ∧
        r.asked.length = a.edgesReached p ∧
        ∃ t, r.outcome = .ok (some t) ∧
          r.events = [.visited (a.reached p).length (a.edgesReached p),.produced t]) := by
  intro a r
  have w : a.WellFormed := c.automatonWellFormed
  refine ⟨Progress.runCourse resolve _,fun turns course => ⟨Progress.turnsBounded w course,fun accepts => ?_⟩⟩
  have route := (Automaton.routeForall w resolve.Accepts).mpr accepts
  have accepted : r = _ := Automaton.reportCounted w route
  have shown := congrArg Report.outcome accepted
  have marks : Turn.marks turns = a.visits p := Progress.courseComplete course shown
  refine ⟨Progress.turnsCounted w course shown,?_,?_,?_,_,shown,congrArg Report.events accepted⟩
  · exact marks ▸ Automaton.visitsDistinct w p
  · exact fun q => marks ▸ Automaton.visitsIffReaches w
  · rw [accepted,List.length_map,Automaton.routeCounted w]

theorem tangleCounted : ∃ p, tangle.automaton.start? = some p ∧
    (∀ x ∈ tangle.automaton.roster.passagesFrom (tangle.automaton.number p), questioning.Accepts x.label) ∧
    let a := tangle.automaton
    let r := a.reportFrom questioning (some p)
    (a.reached p).length = 3 ∧ a.edgesReached p = 5 ∧
    ∃ turns, Progress.Course questioning (.outset p) turns r ∧ turns.length = 6 ∧ (Turn.marks turns).Nodup ∧
      (∀ q, q ∈ Turn.marks turns ↔ a.roster.Reaches (a.number p) (a.number q)) ∧
      ∃ t, r.outcome = .ok (some t) ∧ r.events = [.visited 3 5,.produced t] := by
  have route : ∃ p, tangle.automaton.start? = some p ∧
      (∀ x ∈ tangle.automaton.route p, questioning.Accepts x.label) ∧
      (tangle.automaton.visits p).length = 3 ∧ (tangle.automaton.route p).length = 5 := by decide +kernel
  obtain ⟨p,found,accepts,visits,edges⟩ := route
  have w := tangle.automatonWellFormed
  have states : (tangle.automaton.reached p).length = 3 := (Automaton.visitsPerm w p).length_eq.symm.trans visits
  have counted : tangle.automaton.edgesReached p = 5 := (Automaton.routeCounted w p).symm.trans edges
  have passages := (Automaton.routeForall w _).mp accepts
  obtain ⟨⟨turns,course⟩,told⟩ := dumpWorkIsCounted tangle p questioning
  obtain ⟨number,distinct,marks,_,t,shown,events⟩ := (told turns course).2 passages
  rw [counted] at number events
  rw [states] at events
  exact ⟨p,found,passages,states,counted,turns,course,number,distinct,marks,t,shown,events⟩

/-- The log has a single entry where there is no start, and none where a label is refused. The entries of a
dump with a text tell how many states and edges the start reaches, and the text itself. -/
theorem logFollowsOutcome (c : Construction L) (resolve : Resolver L ε) (start : Option c.automaton.Place) :
    let a := c.automaton
    let r := a.reportFrom resolve start
    (start = none → r.log = ["TRACE no start state, nothing to serialize".toList]) ∧
    (∀ e, r.outcome = .error e → r.log = []) ∧
    ∀ p t, start = some p → r.outcome = .ok (some t) → r.log =
      ["DEBUG visited ".toList ++ Text.natural (a.reached p).length ++ " states and emitted ".toList ++
          Text.natural (a.edgesReached p) ++ " lines".toList,
        "TRACE produced dfa string from automaton\n".toList ++ t] := by
  intro a r
  have w : a.WellFormed := c.automatonWellFormed
  cases start with
  | none => exact ⟨fun _ => rfl,nofun,nofun⟩
  | some p =>
    rcases resolve.firstRefusal Automaton.Link.label (a.route p) with all | ⟨before,x,after,e,place,accepted,refused⟩
    · have accepted : r = _ := Automaton.reportCounted w all
      rw [accepted]
      refine ⟨nofun,nofun,fun q t same shown => ?_⟩
      cases same
      cases shown
      rfl
    · have broken : r = _ := Automaton.reportRefused place accepted refused
      rw [broken]
      exact ⟨nofun,fun _ _ => rfl,nofun⟩

end AutomatonDump
