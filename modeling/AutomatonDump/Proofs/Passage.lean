import AutomatonDump.Automaton.Blueprint
import AutomatonDump.Dump.Report
import AutomatonDump.Roster.History
import AutomatonDump.Roster.View
import Mathlib.Data.List.FinRange
/-! How an automaton comes about, from a blueprint and then by changes one after another, and what
a dump shows of it. A passage is an edge with number and acceptance of both ends. Passages can be told
from the roster, which is where statements about dumps take them from, and by place, which is how a
dump meets them. -/
namespace AutomatonDump
variable {L : Type}

theorem Automaton.rosterOfRun (operations : List (Operation L)) :
    (Automaton.empty.run operations).roster = Roster.ofHistory operations := by
  rw [Automaton.runRoster Automaton.emptyWellFormed,Automaton.emptyRoster]
  exact Roster.runHistory [] operations

structure Construction (L : Type) where
  clauses : List (Clause L)
  start : Option Number
  changes : List (Operation L)
  deriving DecidableEq, Repr

namespace Construction

def automaton (c : Construction L) : Automaton L :=
  ((Blueprint.ofClauses c.clauses).build c.start).run c.changes

def operations (c : Construction L) : List (Operation L) :=
  (Blueprint.ofClauses c.clauses).operations c.start ++ c.changes

theorem automatonRun (c : Construction L) : c.automaton = Automaton.empty.run c.operations :=
  (List.foldl_append ..).symm

theorem automatonWellFormed (c : Construction L) : c.automaton.WellFormed := by
  rw [automatonRun]
  exact Automaton.runWellFormed Automaton.emptyWellFormed c.operations

theorem automatonRoster (c : Construction L) : c.automaton.roster = Roster.ofHistory c.operations := by
  rw [automatonRun,Automaton.rosterOfRun]

theorem laterRoster (c : Construction L) (later : List (Operation L)) :
    (c.automaton.run later).roster = Roster.ofHistory (c.operations ++ later) := by
  rw [Automaton.runRoster c.automatonWellFormed,automatonRoster,Roster.runHistory]

end Construction

structure Passage (α : Type) where
  source : Number
  sourceAcceptance : Acceptance
  label : α
  target : Number
  targetAcceptance : Acceptance
  deriving DecidableEq, Repr

namespace Passage

def relabel {α β : Type} (f : α → β) (x : Passage α) : Passage β :=
  ⟨x.source,x.sourceAcceptance,f x.label,x.target,x.targetAcceptance⟩

def line (x : Passage Text) : Text :=
  tag x.source x.sourceAcceptance ++ "-".toList ++ x.label ++ "->".toList ++
    tag x.target x.targetAcceptance

end Passage

namespace Roster

def acceptance (r : Roster L) (n : Number) : Acceptance :=
  ((r.entry? n).map Entry.acceptance).getD .nothing

def passageAt (r : Roster L) (x : Number × L × Number) : Passage L :=
  ⟨x.1,r.acceptance x.1,x.2.1,x.2.2,r.acceptance x.2.2⟩

def passages (r : Roster L) : List (Passage L) :=
  r.entries.flatMap fun e => e.edges.map fun x => ⟨e.number,e.acceptance,x.1,x.2,r.acceptance x.2⟩

open Classical in
noncomputable def passagesFrom (r : Roster L) (n : Number) : List (Passage L) :=
  r.passages.filter fun x => r.Reaches n x.source

theorem passagesFromIff {r : Roster L} {n : Number} {x : Passage L} :
    x ∈ r.passagesFrom n ↔ x ∈ r.passages ∧ r.Reaches n x.source := by
  simp only [passagesFrom,List.mem_filter,decide_eq_true_eq]

theorem passagesChosen {r : Roster L} {n : Number} {xs : List (Passage L)} {chosen : Passage L → Prop}
    [DecidablePred chosen] (same : r.passages.Perm xs) (reached : ∀ x, r.Reaches n x.source ↔ chosen x) :
    (r.passagesFrom n).Perm (xs.filter fun x => chosen x) := by
  rw [passagesFrom,List.filter_congr fun x _ => decide_eq_decide.mpr (reached x)]
  exact same.filter _

theorem endsReached {r : Roster L} {n : Number} (holds : Acceptance → Prop) (plain : holds .nothing)
    (states : ∀ e ∈ r.entries, r.Reaches n e.number → holds e.acceptance) :
    ∀ x ∈ r.passagesFrom n, holds x.sourceAcceptance ∧ holds x.targetAcceptance := by
  intro x inside
  obtain ⟨listed,reaches⟩ := passagesFromIff.mp inside
  obtain ⟨e,entry,edge⟩ := List.mem_flatMap.mp listed
  obtain ⟨y,here,rfl⟩ := List.mem_map.mp edge
  refine ⟨states e entry reaches,?_⟩
  change holds (r.acceptance y.2)
  rw [acceptance]
  cases found : r.entry? y.2 with
  | none => exact plain
  | some t =>
    have number : t.number = y.2 := by simpa using List.find?_some found
    have arrow : r.Arrow e.number y.1 y.2 := ⟨e,entry,rfl,here⟩
    exact states t (List.mem_of_find?_eq_some found) (number ▸ reachesStep reaches arrow)

end Roster

namespace Automaton
variable {a : Automaton L}

def passage (a : Automaton L) (link : a.Link) : Passage L :=
  ⟨a.number link.source,(a.state link.source).acceptance,link.label,
    a.number link.target,(a.state link.target).acceptance⟩

theorem passageLine (link : a.Link) (f : L → Text) :
    ((a.passage link).relabel f).line = a.line link (f link.label) := rfl

theorem placeStored (p : a.Place) : a.numberAt? p = some (a.number p) := by
  simp [numberAt?,number,state]

theorem numberAtPlace (i : Nat) : a.numberAt? i = (a.place? i).map a.number := by
  unfold place?
  split
  · exact placeStored ⟨i,_⟩
  · simp_all [numberAt?]

theorem startRoster (a : Automaton L) : a.start?.map a.number = a.roster.start := by
  unfold start? roster
  cases a.start with
  | none => rfl
  | some i => exact (numberAtPlace i).symm

theorem placeUnique (w : a.WellFormed) {p q : a.Place} (same : a.number p = a.number q) : p = q :=
  Fin.ext (positionUnique w (placeStored p) (same ▸ placeStored q))

theorem entriesByPlace (a : Automaton L) : a.roster.entries = a.places.map fun p => a.entry (a.state p) := by
  have states : a.states.toList = a.places.map a.state := by
    apply List.ext_getElem
    · simp [places]
    · intro i _ _; simp [places,state]
  rw [roster,states,List.map_map]
  rfl

theorem placeListed (p : a.Place) : a.entry (a.state p) ∈ a.roster.entries := by
  rw [entriesByPlace]
  exact List.mem_map.mpr ⟨p,List.mem_finRange p,rfl⟩

theorem edgesByPlace (p : a.Place) :
    (a.entry (a.state p)).edges = (a.links p).map fun x => (x.label,a.number x.target) := by
  rw [links,List.map_filterMap]
  apply List.filterMap_congr
  intro e _
  rw [numberAtPlace,Option.map_map,Option.map_map]
  rfl

theorem entryOfPlace (w : a.WellFormed) (p : a.Place) :
    a.roster.entry? (a.number p) = some (a.entry (a.state p)) := by
  unfold Roster.entry?
  rw [entriesByPlace,List.find?_map]
  have only : a.places.find? (fun q => decide (a.number q = a.number p)) = some p := by
    cases found : a.places.find? fun q => decide (a.number q = a.number p) with
    | none =>
      have absent := List.find?_eq_none.mp found p (List.mem_finRange p)
      simp at absent
    | some q =>
      have same : a.number q = a.number p := by simpa using List.find?_some found
      rw [placeUnique w same]
  exact congrArg (Option.map fun q => a.entry (a.state q)) only

theorem acceptanceOfPlace (w : a.WellFormed) (p : a.Place) :
    a.roster.acceptance (a.number p) = (a.state p).acceptance := by
  rw [Roster.acceptance,entryOfPlace w]
  rfl

theorem sourceOfLink {p : a.Place} {link : a.Link} (inside : link ∈ a.links p) : link.source = p := by
  obtain ⟨e,_,found⟩ := List.mem_filterMap.mp inside
  obtain ⟨q,_,rfl⟩ := Option.map_eq_some_iff.mp found
  rfl

theorem passagesByPlace (w : a.WellFormed) :
    a.roster.passages = a.places.flatMap fun p => (a.links p).map a.passage := by
  rw [Roster.passages,entriesByPlace,List.flatMap_map]
  apply List.flatMap_congr
  intro p _
  rw [edgesByPlace,List.map_map]
  apply List.map_congr_left
  intro link inside
  simp only [Function.comp_apply,passage,acceptanceOfPlace w,sourceOfLink inside]
  rfl

theorem arrowIffLink (w : a.WellFormed) {p : a.Place} {label : L} {n : Number} :
    a.roster.Arrow (a.number p) label n ↔ ∃ link ∈ a.links p, link.label = label ∧ a.number link.target = n := by
  constructor
  · rintro ⟨e,inside,same,edge⟩
    rw [entriesByPlace] at inside
    obtain ⟨q,_,rfl⟩ := List.mem_map.mp inside
    cases placeUnique w same
    rw [edgesByPlace] at edge
    obtain ⟨link,here,equal⟩ := List.mem_map.mp edge
    exact ⟨link,here,(Prod.mk.inj equal).1,(Prod.mk.inj equal).2⟩
  · rintro ⟨link,here,rfl,rfl⟩
    refine ⟨a.entry (a.state p),placeListed p,rfl,?_⟩
    rw [edgesByPlace]
    exact List.mem_map.mpr ⟨link,here,rfl⟩

theorem linkArrow (w : a.WellFormed) {p q : a.Place} (target : q ∈ a.targets p) :
    ∃ label, a.roster.Arrow (a.number p) label (a.number q) := by
  obtain ⟨link,inside,rfl⟩ := List.mem_map.mp target
  exact ⟨link.label,(arrowIffLink w).mpr ⟨link,inside,rfl,rfl⟩⟩

theorem arrowLink (w : a.WellFormed) {m : Number} {label : L} {q : a.Place}
    (arrow : a.roster.Arrow m label (a.number q)) : ∃ p, a.number p = m ∧ q ∈ a.targets p := by
  have source : ∃ p, a.number p = m := by
    obtain ⟨e,entry,rfl,_⟩ := arrow
    rw [entriesByPlace] at entry
    obtain ⟨p,_,rfl⟩ := List.mem_map.mp entry
    exact ⟨p,rfl⟩
  obtain ⟨p,rfl⟩ := source
  obtain ⟨link,here,_,same⟩ := (arrowIffLink w).mp arrow
  exact ⟨p,rfl,List.mem_map.mpr ⟨link,here,placeUnique w same⟩⟩

end Automaton
end AutomatonDump
