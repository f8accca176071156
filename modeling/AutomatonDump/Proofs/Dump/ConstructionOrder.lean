import AutomatonDump.Proofs.Dump.Outcome
import AutomatonDump.Proofs.Roster.HistoryPassages
/-! The order in which an automaton is put together leaves no trace in its dump. Positions,
the order of edges and the course of the traversal may all differ; edges with multiplicity,
the last acceptances and the final start settle the text. -/
namespace AutomatonDump
variable {L ε : Type}

namespace Construction

structure SameParts (c d : Construction L) : Prop where
  edges : (Roster.edges c.operations).Perm (Roster.edges d.operations)
  acceptance : ∀ n, Roster.lastAcceptance c.operations n = Roster.lastAcceptance d.operations n
  start : Roster.lastStart c.operations = Roster.lastStart d.operations

theorem startNumber (c : Construction L) :
    c.automaton.start?.map c.automaton.number = Roster.lastStart c.operations := by
  rw [Automaton.startRoster,automatonRoster]
  rfl

theorem samePassages {c d : Construction L} (same : c.SameParts d) (n : Number) :
    (c.automaton.roster.passagesFrom n).Perm (d.automaton.roster.passagesFrom n) := by
  rw [automatonRoster,automatonRoster]
  exact Roster.passagesFromPerm same.edges same.acceptance n

end Construction

/- The same text, none in both, or an error in both, not necessarily the same one. -/
def Report.Alike (r s : Report L ε) : Prop :=
  (∃ t, r.outcome = .ok t ∧ s.outcome = .ok t) ∨
    (∃ e, r.outcome = .error e) ∧ ∃ e, s.outcome = .error e

namespace Automaton

theorem outcomesAlike {a b : Automaton L} (left : a.WellFormed) (right : b.WellFormed) {p : a.Place} {q : b.Place}
    (passages : (a.roster.passagesFrom (a.number p)).Perm (b.roster.passagesFrom (b.number q)))
    (resolve : Resolver L ε) : (a.reportFrom resolve (some p)).Alike (b.reportFrom resolve (some q)) := by
  rcases resolve.someRefusal Passage.label (a.roster.passagesFrom (a.number p)) with all | ⟨x,inside,e,refused⟩
  · have others : ∀ x ∈ b.roster.passagesFrom (b.number q), resolve.Accepts x.label :=
      fun x inside => all x (passages.mem_iff.mpr inside)
    have lines := passages.map fun x => (x.relabel resolve.text).line
    refine .inl ⟨_,outcomeAccepted left all,?_⟩
    rw [outcomeAccepted right others,composePerm lines]
  · exact .inr ⟨outcomeRefused left inside refused,outcomeRefused right (passages.mem_iff.mp inside) refused⟩

end Automaton

/-- Two constructions of the same parts are dumped alike. -/
theorem orderLeavesNoTrace (c d : Construction L) (same : c.SameParts d) (resolve : Resolver L ε) :
    (c.automaton.report resolve).Alike (d.automaton.report resolve) := by
  have starts := (c.startNumber.trans same.start).trans d.startNumber.symm
  unfold Automaton.report
  cases hc : c.automaton.start? with
  | none =>
    cases hd : d.automaton.start? with
    | none => exact .inl ⟨none,rfl,rfl⟩
    | some q => rw [hc,hd] at starts; cases starts
  | some p =>
    cases hd : d.automaton.start? with
    | none => rw [hc,hd] at starts; cases starts
    | some q =>
      rw [hc,hd] at starts
      have number : c.automaton.number p = d.automaton.number q := Option.some.inj starts
      exact Automaton.outcomesAlike c.automatonWellFormed d.automatonWellFormed
        (number ▸ Construction.samePassages same _) resolve

/- The tangle once more, without a blueprint: edges the other way round, states accepting late or
for a time only, and other starts before the last. -/
def rearranged : Construction Text where
  clauses := []
  start := none
  changes := [.startAt 5,.connect 4 "e".toList 4,.declare 1 (.alternative 3),.connect 5 "?".toList 0,
    .connect 1 "c\nd".toList 4,.connect 0 "a".toList 1,.dropStart,.connect 1 "b".toList 0,
    .declare 4 (.rules ["NUM".toList,"FLOAT".toList]),.connect 0 "a".toList 1,.declare 1 .nothing,.startAt 0]

theorem rearrangedAlike : tangle.SameParts rearranged ∧
    (tangle.automaton.report questioning).Alike (rearranged.automaton.report questioning) := by
  have same : tangle.SameParts rearranged := {
    edges := by decide +kernel
    acceptance := by
      intro n
      by_cases four : n = 4
      · subst four; decide +kernel
      · by_cases one : n = 1
        · subst one; decide +kernel
        · have before : tangle.operations.filterMap (Operation.declared? n) = [] := by
            simp [tangle,Construction.operations,Blueprint.ofClauses,Blueprint.operations,Blueprint.add,
              Blueprint.empty,Clause.state,Operation.declared?,Ne.symm four]
          have after : rearranged.operations.filterMap (Operation.declared? n) = [] := by
            simp [rearranged,Construction.operations,Blueprint.ofClauses,Blueprint.operations,
              Blueprint.empty,Operation.declared?,Ne.symm four,Ne.symm one]
          rw [Roster.lastAcceptance,Roster.lastAcceptance,before,after]
    start := by decide +kernel }
  exact ⟨same,orderLeavesNoTrace tangle rearranged same questioning⟩

end AutomatonDump
