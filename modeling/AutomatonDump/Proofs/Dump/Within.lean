import AutomatonDump.Proofs.Dump.Outcome
import AutomatonDump.Proofs.Roster.HistoryPassages
import AutomatonDump.Proofs.Traversal.Renaming
/-! A dump sees what its start reaches and nothing else. What an operation changes is one state, and
what it says of others comes to nothing: the entries that can be reached from a number stay as they are
while nobody among them is changed, whatever numbers and labels are used beyond. -/
namespace AutomatonDump
variable {L ε : Type}

namespace Roster

section
variable {r s : Roster L} {n : Number}

def SameFrom (r s : Roster L) (n : Number) : Prop := ∀ m, r.Reaches n m → s.entry? m = r.entry? m

theorem sameAcceptance (same : r.SameFrom s n) {m : Number} (reaches : r.Reaches n m) :
    s.acceptance m = r.acceptance m := by
  rw [acceptance,acceptance,same m reaches]

end
variable (os : List (Operation L))

theorem historyListed {n : Number} : n ∈ (ofHistory os).numbers ↔ n ∈ arrivals os := by
  rw [ofHistory,tabulateNumbers,List.mem_eraseDups]

theorem reachedArrives {m n : Number} (known : m ∈ arrivals os) (reaches : (ofHistory os).Reaches m n) :
    n ∈ arrivals os := by
  obtain ⟨steps,walk⟩ := reaches
  cases walk with
  | stay => exact known
  | extend _ last => exact (endsArrive os ((historyArrow os).mp last)).2

theorem entryUntouched {later : List (Operation L)} {n : Number} (known : n ∈ arrivals os)
    (others : ∀ o ∈ later, o.changed? ≠ some n) :
    entry? (ofHistory (os ++ later)) n = entry? (ofHistory os) n := by
  obtain ⟨undeclared,unconnected⟩ := untouched later others
  have arrived : n ∈ arrivals (os ++ later) := by
    rw [arrivals,List.flatMap_append]
    exact List.mem_append_left _ known
  have acceptance : lastAcceptance (os ++ later) n = lastAcceptance os n := by
    simp [lastAcceptance,undeclared]
  rw [historyEntry,historyEntry,if_pos arrived,if_pos known,acceptance,edgesFromAppend,unconnected,List.append_nil]

theorem sameAfter {later : List (Operation L)} {n : Number} (known : n ∈ arrivals os)
    (others : ∀ o ∈ later, ∀ m, o.changed? = some m → ¬ (ofHistory os).Reaches n m) :
    (ofHistory os).SameFrom (ofHistory (os ++ later)) n := fun m reaches =>
  entryUntouched os (reachedArrives os known reaches) fun o inside changed => others o inside m changed reaches

theorem startUntouched {later : List (Operation L)} (others : ∀ o ∈ later, o.start? = none) :
    lastStart (os ++ later) = lastStart os := by
  rw [lastStart,List.filterMap_append,List.filterMap_eq_nil_iff.mpr others,List.append_nil]
  rfl

theorem reachesAfter {later : List (Operation L)} {m n : Number}
    (others : ∀ o ∈ later, ∀ m, o.changed? = some m → ¬ (ofHistory os).Reaches n m) :
    (ofHistory (os ++ later)).Reaches n m ↔ (ofHistory os).Reaches n m := by
  have apart : edges (os ++ later) = edges os ++ edges later := List.filterMap_append
  constructor
  · rintro ⟨steps,walk⟩
    induction walk with
    | stay => exact reachesSelf _ n
    | extend _ last ih =>
      rw [historyArrow,apart] at last
      rcases List.mem_append.mp last with old | new
      · exact reachesStep ih ((historyArrow os).mpr old)
      · exact absurd ih (others _ (edgesListed.mp new) _ rfl)
  · refine reachesAlong fun m label k arrow => ?_
    rw [historyArrow] at arrow ⊢
    exact apart ▸ List.mem_append_left _ arrow

def InReach (r : Roster L) (m : Number) : Prop := ∃ n, r.start = some n ∧ r.Reaches n m

def Beyond (r : Roster L) : Operation L → Prop
  | .declare n _ => ¬ r.InReach n
  | .connect source _ _ => ¬ r.InReach source
  | .startAt _ => False
  | .dropStart => False

def AllBeyond (r : Roster L) : List (Operation L) → Prop
  | [] => True
  | o :: rest => r.Beyond o ∧ (r.apply o).AllBeyond rest

section
variable {r s : Roster L} {o : Operation L}

theorem beyondStart (beyond : r.Beyond o) : o.start? = none := by
  cases o with
  | declare n acceptance => rfl
  | connect source label target => rfl
  | startAt n => exact beyond.elim
  | dropStart => exact beyond.elim

theorem beyondChanged (beyond : r.Beyond o) {m : Number} (changed : o.changed? = some m) : ¬ r.InReach m := by
  cases o with
  | declare n acceptance => exact Option.some.inj changed ▸ beyond
  | connect source label target => exact Option.some.inj changed ▸ beyond
  | startAt n => exact beyond.elim
  | dropStart => exact beyond.elim

theorem beyondSame (same : ∀ m, s.InReach m ↔ r.InReach m) : s.Beyond o ↔ r.Beyond o := by
  cases o with
  | declare n acceptance => exact not_congr (same n)
  | connect source label target => exact not_congr (same source)
  | startAt n => exact Iff.rfl
  | dropStart => exact Iff.rfl

end

theorem inReachAfter {later : List (Operation L)} (beyond : ∀ o ∈ later, (ofHistory os).Beyond o) (m : Number) :
    (ofHistory (os ++ later)).InReach m ↔ (ofHistory os).InReach m := by
  have start : (ofHistory (os ++ later)).start = (ofHistory os).start :=
    startUntouched os fun o inside => beyondStart (beyond o inside)
  rw [InReach,InReach,start]
  refine exists_congr fun n => and_congr_right fun started => reachesAfter os fun o inside k changed reaches => ?_
  exact beyondChanged (beyond o inside) changed ⟨n,started,reaches⟩

theorem allBeyondIff (later : List (Operation L)) :
    (ofHistory os).AllBeyond later ↔ ∀ o ∈ later, (ofHistory os).Beyond o := by
  induction later generalizing os with
  | nil => simp [AllBeyond]
  | cons o rest ih =>
    rw [AllBeyond,← historyNext,ih,List.forall_mem_cons]
    refine and_congr_right fun beyond => forall₂_congr fun other _ => beyondSame ?_
    exact inReachAfter os (List.forall_mem_singleton.mpr beyond)

end Roster

theorem Roster.sameRenames {r s : Roster L} {n : Number} (same : r.SameFrom s n) : r.Renames id s n where
  injective := Function.injective_id
  edges m reaches := by
    rw [id,same m reaches]
    cases r.entry? m <;> simp

namespace Automaton
variable {a b : Automaton L} {resolve : Resolver L ε} {p : a.Place} {q : b.Place}

theorem passageOfArrow (w : a.WellFormed) (link : a.Link) : a.passage link = a.roster.passageAt (a.arrow link) := by
  simp only [passage,Roster.passageAt,arrow,acceptanceOfPlace w]

theorem routeShown (w : a.WellFormed) (p : a.Place) :
    (a.route p).map a.passage = ((a.route p).map a.arrow).map a.roster.passageAt := by
  rw [List.map_map]
  exact List.map_congr_left fun link _ => passageOfArrow w link

theorem routeReaches (w : a.WellFormed) {link : a.Link} (inside : link ∈ a.route p) :
    a.roster.Reaches (a.number p) (a.number link.source) ∧ a.roster.Reaches (a.number p) (a.number link.target) := by
  obtain ⟨r,visited,owned⟩ := List.mem_flatMap.mp inside
  cases sourceOfLink owned
  have source := (visitsIffReaches w).mp visited
  exact ⟨source,Roster.reachesTrans source (Frontier.reachesTarget w (List.mem_map.mpr ⟨link,owned,rfl⟩))⟩

theorem routeSame (left : a.WellFormed) (right : b.WellFormed) (same : a.roster.SameFrom b.roster (a.number p))
    (number : b.number q = a.number p) : (b.route q).map b.passage = (a.route p).map a.passage := by
  have arrows := routeRenamed left right (Roster.sameRenames same) number
  simp only [id,List.map_id'] at arrows
  rw [routeShown right,arrows,List.map_map]
  refine List.map_congr_left fun link inside => ?_
  obtain ⟨source,target⟩ := routeReaches left inside
  rw [passageOfArrow left,Function.comp_apply,Roster.passageAt,Roster.passageAt]
  exact congr (congrArg (Passage.mk _ · _ _) (Roster.sameAcceptance same source)) (Roster.sameAcceptance same target)

theorem transcribeSame {xs : List a.Link} {ys : List b.Link} (same : ys.map b.passage = xs.map a.passage) :
    b.transcribe resolve ys = a.transcribe resolve xs := by
  induction xs generalizing ys with
  | nil => rw [List.map_eq_nil_iff.mp same]; rfl
  | cons x rest ih =>
    obtain ⟨y,later,rfl,head,tail⟩ := List.map_eq_cons_iff.mp same
    have label : y.label = x.label := congrArg Passage.label head
    have line (t : Text) : b.line y t = a.line x t :=
      congrArg (fun z : Passage L => (z.relabel fun _ => t).line) head
    simp only [transcribe,label,line,ih tail]

theorem reportSame (left : a.WellFormed) (right : b.WellFormed) (same : a.roster.SameFrom b.roster (a.number p))
    (number : b.number q = a.number p) : b.reportFrom resolve (some q) = a.reportFrom resolve (some p) := by
  have visits := congrArg List.length (visitsRenamed left right (Roster.sameRenames same) number)
  rw [List.length_map,List.length_map] at visits
  rw [reportConclude,reportConclude,transcribeSame (routeSame left right same number),visits]
  rfl

end Automaton

namespace Construction
variable (c : Construction L) {resolve : Resolver L ε} {later : List (Operation L)} {p : c.automaton.Place}

theorem placeArrives (p : c.automaton.Place) : c.automaton.number p ∈ Roster.arrivals c.operations := by
  rw [← Roster.historyListed,← automatonRoster]
  exact List.mem_map.mpr ⟨_,Automaton.placeListed p,rfl⟩

theorem laterStartNumber (others : ∀ o ∈ later, o.start? = none) :
    (c.automaton.run later).start?.map (c.automaton.run later).number =
      c.automaton.start?.map c.automaton.number := by
  rw [Automaton.startRoster,Automaton.startRoster,laterRoster,automatonRoster]
  exact Roster.startUntouched _ others

theorem laterStart (others : ∀ o ∈ later, o.start? = none) (started : c.automaton.start? = some p) :
    ∃ q, (c.automaton.run later).start? = some q ∧ (c.automaton.run later).number q = c.automaton.number p := by
  have start := c.laterStartNumber others
  rw [started] at start
  exact Option.map_eq_some_iff.mp start

theorem laterReport (starts : ∀ o ∈ later, o.start? = none) (started : c.automaton.start? = some p)
    (others : ∀ o ∈ later, ∀ m, o.changed? = some m →
      ¬ c.automaton.roster.Reaches (c.automaton.number p) m) :
    (c.automaton.run later).report resolve = c.automaton.report resolve := by
  obtain ⟨q,found,number⟩ := c.laterStart starts started
  have same : c.automaton.roster.SameFrom (c.automaton.run later).roster (c.automaton.number p) := by
    rw [automatonRoster] at others ⊢
    rw [laterRoster]
    exact Roster.sameAfter _ (c.placeArrives p) others
  rw [Automaton.reportStarted found,Automaton.reportStarted started]
  exact Automaton.reportSame c.automatonWellFormed (Automaton.runWellFormed c.automatonWellFormed later) same number

end Construction

namespace Automaton
variable {a : Automaton L} {p : a.Place}

theorem inReachIff (started : a.start? = some p) {m : Number} :
    a.roster.InReach m ↔ a.roster.Reaches (a.number p) m := by
  have start := startRoster a
  rw [started,Option.map_some] at start
  simp [Roster.InReach,← start]

theorem inReachVisited (w : a.WellFormed) (started : a.start? = some p) {m : Number} :
    a.roster.InReach m ↔ ∃ q ∈ a.visits p, a.number q = m := by
  rw [inReachIff started]
  constructor
  · rintro ⟨steps,walk⟩
    exact visitsClosed w walk
  · rintro ⟨q,visited,rfl⟩
    exact (visitsIffReaches w).mp visited

end Automaton

/-- Operations beyond reach bring nothing within reach and make no difference to a report: its labels,
its outcome and its events are the same. For whether they are beyond reach it does not matter if each is
asked at the beginning or when its turn comes. -/
theorem beyondReachUnseen (c : Construction L) (resolve : Resolver L ε) (later : List (Operation L)) :
    let a := c.automaton
    let b := a.run later
    (a.roster.AllBeyond later ↔ ∀ o ∈ later, a.roster.Beyond o) ∧
    (a.roster.AllBeyond later →
      b.report resolve = a.report resolve ∧ ∀ m, b.roster.InReach m ↔ a.roster.InReach m) := by
  intro a b
  have apart : a.roster.AllBeyond later ↔ ∀ o ∈ later, a.roster.Beyond o := by
    rw [c.automatonRoster]
    exact Roster.allBeyondIff c.operations later
  refine ⟨apart,fun all => ?_⟩
  have beyond := apart.mp all
  have starts : ∀ o ∈ later, o.start? = none := fun o inside => Roster.beyondStart (beyond o inside)
  constructor
  · cases started : a.start? with
    | none =>
      have unstarted : b.start? = none := by
        have start := c.laterStartNumber starts
        rw [started] at start
        exact Option.map_eq_none_iff.mp start
      rw [Automaton.reportUnstarted started,Automaton.reportUnstarted unstarted]
    | some p =>
      refine c.laterReport starts started fun o inside m changed reaches => ?_
      exact Roster.beyondChanged (beyond o inside) changed ((Automaton.inReachIff started).mpr reaches)
  · rw [c.automatonRoster] at beyond ⊢
    rw [c.laterRoster]
    exact Roster.inReachAfter c.operations beyond

/- Edges from a state beyond reach and from new ones, into the tangle and with a refused label, and new
acceptances for both. -/
def strayed : List (Operation Text) :=
  [.connect 5 "g".toList 4,.connect 6 "?".toList 5,.declare 5 (.alternative (-1)),.connect 7 "h".toList 7,
    .declare 6 (.rules []),.connect 6 "a".toList 0,.declare 8 .nothing]

theorem tangleStrayed : tangle.automaton.roster.AllBeyond strayed ∧
    (tangle.automaton.run strayed).report questioning = tangle.automaton.report questioning ∧
    ∀ m, (tangle.automaton.run strayed).roster.InReach m ↔ tangle.automaton.roster.InReach m := by
  have start : ∃ p, tangle.automaton.start? = some p ∧
      (tangle.automaton.visits p).map tangle.automaton.number = [0,1,4] := by decide +kernel
  obtain ⟨p,started,visited⟩ := start
  have within (m : Number) : tangle.automaton.roster.InReach m ↔ m ∈ [0,1,4] := by
    rw [Automaton.inReachVisited tangle.automatonWellFormed started,← List.mem_map,visited]
  have unseen := beyondReachUnseen tangle questioning strayed
  have all : tangle.automaton.roster.AllBeyond strayed :=
    unseen.1.mpr (by simp [strayed,Roster.Beyond,within])
  exact ⟨all,unseen.2 all⟩

end AutomatonDump
