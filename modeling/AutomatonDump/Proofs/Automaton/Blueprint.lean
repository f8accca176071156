import AutomatonDump.Proofs.Automaton.Growth
/-! What becomes of a blueprint. In whatever mixture its clauses come, there are only two lists to look at,
the states that were given and the edges, and everything about the automaton is read off these lists number
by number. -/
namespace AutomatonDump
variable {L : Type}

namespace Blueprint
variable (b : Blueprint L) (start : Option Number)

theorem operationsArrivals : Roster.arrivals (b.operations start) =
    b.states.map Prod.fst ++ b.edges.flatMap (fun e => [e.2.2,e.1]) ++ start.toList := by
  unfold Roster.arrivals operations
  rw [List.flatMap_append,List.flatMap_append,List.flatMap_map,List.flatMap_map,List.map_eq_flatMap]
  cases start <;> rfl

theorem operationsRead {α : Type} (read : Operation L → Option α) : (b.operations start).filterMap read =
    b.states.filterMap (fun s => read (.declare s.1 s.2)) ++
      b.edges.filterMap (fun e => read (.connect e.1 e.2.1 e.2.2)) ++
      start.toList.filterMap fun n => read (.startAt n) := by
  unfold operations
  rw [List.filterMap_append,List.filterMap_append,List.filterMap_map,List.filterMap_map]
  cases start <;> rfl

theorem operationsAcceptance (n : Number) : Roster.lastAcceptance (b.operations start) n =
    ((b.states.filter (·.1 = n)).map Prod.snd).getLast?.getD .nothing := by
  have edges : b.edges.filterMap (fun e => Operation.declared? n (.connect e.1 e.2.1 e.2.2)) = [] :=
    List.filterMap_none b.edges
  have starts : start.toList.filterMap (fun m => Operation.declared? (L := L) n (.startAt m)) = [] :=
    List.filterMap_none start.toList
  rw [Roster.lastAcceptance,operationsRead,edges,starts,List.append_nil,List.append_nil]
  exact congrArg (·.getLast?.getD .nothing) (Roster.pickedByNumber b.states n)

theorem operationsEdges : Roster.edges (b.operations start) = b.edges := by
  have states : b.states.filterMap (fun s => Operation.edge? (L := L) (.declare s.1 s.2)) = [] :=
    List.filterMap_none b.states
  have starts : start.toList.filterMap (fun m => Operation.edge? (L := L) (.startAt m)) = [] :=
    List.filterMap_none start.toList
  rw [Roster.edges,operationsRead,states,starts,List.append_nil,List.nil_append]
  exact List.filterMap_some

theorem operationsStart : Roster.lastStart (b.operations start) = start := by
  have states : b.states.filterMap (fun s => Operation.start? (L := L) (.declare s.1 s.2)) = [] :=
    List.filterMap_none b.states
  have edges : b.edges.filterMap (fun e => Operation.start? (.connect e.1 e.2.1 e.2.2)) = [] :=
    List.filterMap_none b.edges
  rw [Roster.lastStart,operationsRead,states,edges]
  cases start <;> rfl

end Blueprint

/-- An automaton made of a blueprint has the states given, then the ends of the edges, each target before
its source, then the start, each number where it comes first. A state accepts what was given last for its
number, if anything was, and its exits are the edges given from its number, in their order. Where the
clauses of one kind stand among those of the other makes no difference. -/
theorem blueprintComesTrue (clauses : List (Clause L)) (start : Option Number) :
    let states := clauses.flatMap Clause.declared
    let edges := clauses.flatMap Clause.drawn
    let a := (Blueprint.ofClauses clauses).build start
    a.numbers = (states.map Prod.fst ++ edges.flatMap (fun e => [e.2.2,e.1]) ++ start.toList).eraseDups ∧
    (∀ p, (a.state p).acceptance = ((states.filter (·.1 = a.number p)).map Prod.snd).getLast?.getD .nothing) ∧
    (∀ p, a.exits p = (edges.filter (·.1 = a.number p)).map Prod.snd) ∧
    a.start?.map a.number = start := by
  intro states edges a
  let b := Blueprint.ofClauses clauses
  have w : a.WellFormed := Automaton.runWellFormed Automaton.emptyWellFormed (b.operations start)
  have history : a.roster = Roster.ofHistory (b.operations start) := Automaton.rosterOfRun (b.operations start)
  have declared : b.states = states := Blueprint.statesOfClauses clauses Blueprint.empty
  have drawn : b.edges = edges := Blueprint.edgesOfClauses clauses Blueprint.empty
  refine ⟨?_,fun p => ?_,fun p => ?_,?_⟩
  · rw [← Automaton.rosterNumbers,history,Roster.ofHistory,Roster.tabulateNumbers,b.operationsArrivals,
      declared,drawn]
  · rw [← Automaton.acceptanceOfPlace w,history,Roster.historyAcceptance,b.operationsAcceptance,declared]
  · rw [Automaton.exits,Roster.historyLinks _ history,Roster.edgesFromFilter,b.operationsEdges,drawn]
  · rw [Automaton.startRoster,history]
    exact b.operationsStart start

/- Edges in front of the states that they connect, states that are given several times, and a start that
nothing else mentions. -/
def mixture : List (Clause Char) :=
  [.edges [(1,'x',3),(7,'z',7)],.plain [7,3],.alternative 3 (-1),.edges [(7,'y',2)],.rules 3 ["ID".toList],
    .state 2 (.alternative 5),.plain [2]]

theorem mixtureComesTrue :
    let a := (Blueprint.ofClauses mixture).build (some 9)
    a.numbers = [7,3,2,1,9] ∧
    (∀ p, a.number p = 3 → (a.state p).acceptance = .rules ["ID".toList]) ∧
    (∀ p, a.number p = 2 → (a.state p).acceptance = .nothing) ∧
    (∀ p, a.number p = 7 → a.exits p = [('z',7),('y',2)]) ∧
    a.start?.map a.number = some 9 := by
  intro a
  obtain ⟨numbers,acceptances,exits,start⟩ := blueprintComesTrue mixture (some 9)
  have states : mixture.flatMap Clause.declared = [(7,.nothing),(3,.nothing),(3,.alternative (-1)),
      (3,.rules ["ID".toList]),(2,.alternative 5),(2,.nothing)] := by simp [mixture]
  have edges : mixture.flatMap Clause.drawn = [(1,'x',3),(7,'z',7),(7,'y',2)] := by simp [mixture]
  rw [states,edges] at numbers
  rw [states] at acceptances
  rw [edges] at exits
  refine ⟨numbers.trans (by decide),fun p three => ?_,fun p two => ?_,fun p seven => ?_,start⟩
  · rw [acceptances p,three]
    rfl
  · rw [acceptances p,two]
    rfl
  · rw [exits p,seven]
    rfl

end AutomatonDump
