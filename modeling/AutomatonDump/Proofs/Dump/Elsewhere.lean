import AutomatonDump.Proofs.Dump.ConstructionOrder
/-! Dumps of one automaton from different states. From a state that is reached there is less to be seen, and
states that reach each other see the same, though not in the same order. -/
namespace AutomatonDump
variable {L ε : Type}

namespace Roster
variable {r : Roster L} {m n : Number}

theorem passagesShrink (reaches : r.Reaches n m) : (r.passagesFrom m).Sublist (r.passagesFrom n) := by
  refine List.monotone_filter_right _ fun x reached => ?_
  simp only [decide_eq_true_eq] at reached ⊢
  exact reachesTrans reaches reached

theorem passagesShared (there : r.Reaches n m) (back : r.Reaches m n) : r.passagesFrom n = r.passagesFrom m :=
  List.Sublist.antisymm (passagesShrink back) (passagesShrink there)

end Roster

namespace Automaton
variable {a : Automaton L} {p q : a.Place} {resolve : Resolver L ε}

theorem shownFarther (w : a.WellFormed) (reaches : a.roster.Reaches (a.number p) (a.number q)) {t : Text}
    (shown : (a.reportFrom resolve (some p)).outcome = .ok (some t)) :
    (a.reportFrom resolve (some q)).outcome = .ok (some (compose (a.linesFrom resolve q))) := by
  have accepts := ((textShown w).mp shown).1
  exact (textShown w).mpr ⟨fun x inside => accepts x ((Roster.passagesShrink reaches).subset inside),rfl⟩

end Automaton

/-- Where a dump from one state has a text, so has a dump from any state that it reaches, and all lines
of the second are among those of the first. If the two states reach each other, they have the same text
or none of them has one. -/
theorem reachedShowsLess (c : Construction L) (resolve : Resolver L ε) (p q : c.automaton.Place)
    (reaches : c.automaton.roster.Reaches (c.automaton.number p) (c.automaton.number q)) :
    let a := c.automaton
    let first := a.reportFrom resolve (some p)
    let second := a.reportFrom resolve (some q)
    (∀ t, first.outcome = .ok (some t) → ∃ u, second.outcome = .ok (some u) ∧
      t = compose (a.linesFrom resolve p) ∧ u = compose (a.linesFrom resolve q) ∧
      (a.linesFrom resolve q).Subperm (a.linesFrom resolve p)) ∧
    (a.roster.Reaches (a.number q) (a.number p) →
      (∃ t, first.outcome = .ok (some t) ∧ second.outcome = .ok (some t)) ∨
        (∃ e, first.outcome = .error e) ∧ ∃ e, second.outcome = .error e) := by
  intro a first second
  have w : a.WellFormed := c.automatonWellFormed
  constructor
  · intro t shown
    have lines := (Roster.passagesShrink reaches).map resolve.line
    exact ⟨_,Automaton.shownFarther w reaches shown,Automaton.textLines w shown,rfl,lines.subperm⟩
  · intro back
    have passages := Roster.passagesShared reaches back
    rcases Automaton.outcomesAlike w w (List.Perm.of_eq passages) resolve with ⟨t,left,right⟩ | failed
    · cases t with
      | none => exact absurd left (Automaton.outcomeStarted p)
      | some t => exact .inl ⟨t,left,right⟩
    · exact .inr failed

/- From both states of the cycle in the tangle there is the same to be seen, from the loop behind it only
the loop. -/
theorem tangleElsewhere : ∃ p q s,
    let a := tangle.automaton
    (a.number p,a.number q,a.number s) = (0,1,4) ∧
    a.roster.Reaches (a.number p) (a.number q) ∧ a.roster.Reaches (a.number q) (a.number p) ∧
    (a.reportFrom verbatim (some p)).outcome = .ok (some tangleText) ∧
    (a.reportFrom verbatim (some q)).outcome = .ok (some tangleText) ∧
    a.roster.Reaches (a.number p) (a.number s) ∧ ¬ a.roster.Reaches (a.number s) (a.number p) ∧
    ∃ u, (a.reportFrom verbatim (some s)).outcome = .ok (some u) ∧
      tangleText = compose (a.linesFrom verbatim p) ∧ u = compose (a.linesFrom verbatim s) ∧
      (a.linesFrom verbatim s).Subperm (a.linesFrom verbatim p) := by
  have places : ∃ p q s, tangle.automaton.start? = some p ∧
      (tangle.automaton.number p,tangle.automaton.number q,tangle.automaton.number s) = (0,1,4) ∧
      q ∈ tangle.automaton.visits p ∧ p ∈ tangle.automaton.visits q ∧
      s ∈ tangle.automaton.visits p ∧ p ∉ tangle.automaton.visits s := by decide +kernel
  obtain ⟨p,q,s,started,numbers,there,back,behind,away⟩ := places
  simp only [Automaton.visitsIffReaches tangle.automatonWellFormed] at there back behind away
  have shown := tangleOutcome
  rw [Automaton.reportStarted started] at shown
  refine ⟨p,q,s,numbers,there,back,shown,?_,behind,away,(reachedShowsLess tangle verbatim p s behind).1 _ shown⟩
  rcases (reachedShowsLess tangle verbatim p q there).2 back with ⟨t,left,right⟩ | ⟨⟨e,_⟩,_⟩
  · exact right.trans (left.symm.trans shown)
  · exact nomatch e

end AutomatonDump
