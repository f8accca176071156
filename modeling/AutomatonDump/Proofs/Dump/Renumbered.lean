import AutomatonDump.Proofs.Dump.Within
import AutomatonDump.Proofs.Dump.ConstructionOrder
import AutomatonDump.Proofs.Dump.Refusal
/-! Dumps under new numbers. Operation by operation the second history does to the renamed states what
the first does, except that it may declare other acceptances. Neither numbers nor acceptances steer the
traversal: the same labels are asked for in the same order, and what the log counts is the same. -/
namespace AutomatonDump
variable {L ε : Type} {ρ : Number → Number}

namespace Operation

inductive Renamed (ρ : Number → Number) : Operation L → Operation L → Prop where
  | declare (n : Number) (before after : Acceptance) : Renamed ρ (.declare n before) (.declare (ρ n) after)
  | connect (source : Number) (label : L) (target : Number) :
      Renamed ρ (.connect source label target) (.connect (ρ source) label (ρ target))
  | startAt (n : Number) : Renamed ρ (.startAt n) (.startAt (ρ n))
  | dropStart : Renamed ρ .dropStart .dropStart

def rename (ρ : Number → Number) : Operation L → Operation L
  | .declare n acceptance => .declare (ρ n) acceptance
  | .connect source label target => .connect (ρ source) label (ρ target)
  | .startAt n => .startAt (ρ n)
  | .dropStart => .dropStart

theorem renameRenamed (ρ : Number → Number) (o : Operation L) : o.Renamed ρ (o.rename ρ) := by
  cases o with
  | declare n acceptance => exact .declare n acceptance acceptance
  | connect source label target => exact .connect source label target
  | startAt n => exact .startAt n
  | dropStart => exact .dropStart

section
variable {o other : Operation L} (same : o.Renamed ρ other)
include same

theorem arrivalsRename : other.arrivals = o.arrivals.map ρ := by cases same <;> rfl

theorem edgeRename : other.edge? = o.edge?.map fun e => (ρ e.1,e.2.1,ρ e.2.2) := by cases same <;> rfl

theorem startRename : other.start? = o.start?.map (Option.map ρ) := by cases same <;> rfl

end

theorem declaredRename (injective : Function.Injective ρ) (n : Number) (o : Operation L) :
    (o.rename ρ).declared? (ρ n) = o.declared? n := by
  cases o with
  | declare m acceptance => simp [rename,declared?,injective.eq_iff]
  | connect source label target => rfl
  | startAt m => rfl
  | dropStart => rfl

end Operation

namespace Roster
variable {os others : List (Operation L)}

section
variable (same : List.Forall₂ (Operation.Renamed ρ) os others)
include same

theorem arrivalsRenamed : arrivals others = (arrivals os).map ρ := by
  induction same with
  | nil => rfl
  | cons head _ ih => simp only [arrivals] at ih ⊢; simp [Operation.arrivalsRename head,ih]

theorem pickedRenamed {α : Type} {pick : Operation L → Option α} {f : α → α}
    (each : ∀ {o other}, o.Renamed ρ other → pick other = (pick o).map f) :
    others.filterMap pick = (os.filterMap pick).map f := by
  induction same with
  | nil => rfl
  | @cons o _ _ _ head _ ih =>
    simp only [List.filterMap_cons,each head]
    cases pick o <;> simp [ih]

theorem edgesRenamed : edges others = (edges os).map fun e => (ρ e.1,e.2.1,ρ e.2.2) :=
  pickedRenamed same Operation.edgeRename

theorem startRenamed : lastStart others = (lastStart os).map ρ := by
  rw [lastStart,lastStart,pickedRenamed same Operation.startRename,List.getLast?_map]
  cases (os.filterMap Operation.start?).getLast? <;> rfl

theorem edgesFromRenamed (injective : Function.Injective ρ) (n : Number) :
    edgesFrom others (ρ n) = (edgesFrom os n).map fun x => (x.1,ρ x.2) := by
  simp [edgesFromFilter,edgesRenamed same,List.filter_map,Function.comp_def,injective.eq_iff]

theorem renamesHistory (injective : Function.Injective ρ) (n : Number) :
    (ofHistory os).Renames ρ (ofHistory others) n where
  injective := injective
  edges m _ := by
    have arrived : ρ m ∈ arrivals others ↔ m ∈ arrivals os := by
      rw [arrivalsRenamed same,List.mem_map_of_injective injective]
    rw [historyEntry,historyEntry]
    by_cases known : m ∈ arrivals os
    · rw [if_pos known,if_pos (arrived.mpr known)]
      exact congrArg some (edgesFromRenamed same injective m)
    · rw [if_neg known,if_neg fun inside => known (arrived.mp inside)]
      rfl

end

theorem acceptanceRenamed (injective : Function.Injective ρ) (os : List (Operation L)) (n : Number) :
    lastAcceptance (os.map (Operation.rename ρ)) (ρ n) = lastAcceptance os n := by
  have declared : (Operation.declared? (ρ n) ∘ Operation.rename ρ : Operation L → Option Acceptance) =
      Operation.declared? n := funext (Operation.declaredRename injective n)
  rw [lastAcceptance,List.filterMap_map,declared,lastAcceptance]

end Roster

/- Reports that keep step: they ask for the same labels, have a text both or none, or are ended by the
same refusal, and they log the same numbers. -/
inductive Report.Abreast (resolve : Resolver L ε) : Report L ε → Report L ε → Prop where
  | silent : Abreast resolve ⟨[],.ok none,[.noStart]⟩ ⟨[],.ok none,[.noStart]⟩
  | shown (asked : List L) (t u : Text) (states lines : Nat) :
      Abreast resolve ⟨asked,.ok (some t),[.visited states lines,.produced t]⟩
        ⟨asked,.ok (some u),[.visited states lines,.produced u]⟩
  | refused (before : List L) {label : L} {e : ε} (error : resolve label = .error e) :
      Abreast resolve ⟨before ++ [label],.error e,[]⟩ ⟨before ++ [label],.error e,[]⟩

def Passage.rename {α : Type} (ρ : Number → Number) (x : Passage α) : Passage α :=
  {x with source := ρ x.source, target := ρ x.target}

namespace Automaton
variable {a b : Automaton L} {resolve : Resolver L ε} {p : a.Place} {q : b.Place}

theorem reportAcceptedLabels (accepts : ∀ label ∈ (a.route p).map Link.label, resolve.Accepts label) :
    ∃ t, a.reportFrom resolve (some p) = ⟨(a.route p).map Link.label,.ok (some t),
      [.visited (a.visits p).length ((a.route p).map Link.label).length,.produced t]⟩ := by
  rw [reportAccepted (List.forall_mem_map.mp accepts),List.length_map]
  exact ⟨_,rfl⟩

theorem reportRefusedLabels {before after : List L} {label : L} {e : ε}
    (place : (a.route p).map Link.label = before ++ label :: after)
    (accepts : ∀ label ∈ before, resolve.Accepts label) (error : resolve label = .error e) :
    a.reportFrom resolve (some p) = ⟨before ++ [label],.error e,[]⟩ := by
  obtain ⟨early,others,route,rfl,rest⟩ := List.map_eq_append_iff.mp place
  obtain ⟨x,late,rfl,rfl,_⟩ := List.map_eq_cons_iff.mp rest
  rw [reportRefused route (List.forall_mem_map.mp accepts) error,List.map_append]
  rfl

theorem reportsAbreast (labels : (b.route q).map Link.label = (a.route p).map Link.label)
    (visits : (b.visits q).length = (a.visits p).length) :
    (a.reportFrom resolve (some p)).Abreast resolve (b.reportFrom resolve (some q)) := by
  rcases resolve.firstRefusal id ((a.route p).map Link.label) with all | ⟨before,label,after,e,place,accepts,error⟩
  · obtain ⟨t,left⟩ := reportAcceptedLabels all
    obtain ⟨u,right⟩ := reportAcceptedLabels (labels ▸ all)
    rw [left,right,labels,visits]
    exact .shown ..
  · rw [reportRefusedLabels place accepts error,reportRefusedLabels (labels.trans place) accepts error]
    exact .refused before error

theorem routeLabels (a : Automaton L) (p : a.Place) :
    (a.route p).map Link.label = ((a.route p).map a.arrow).map fun x => x.2.1 := by
  rw [List.map_map]
  rfl

theorem labelsRenamed (left : a.WellFormed) (right : b.WellFormed)
    (same : a.roster.Renames ρ b.roster (a.number p)) (number : b.number q = ρ (a.number p)) :
    (b.route q).map Link.label = (a.route p).map Link.label := by
  rw [routeLabels,routeLabels,routeRenamed left right same number,List.map_map]
  rfl

theorem reportsRenamed (left : a.WellFormed) (right : b.WellFormed)
    (same : a.roster.Renames ρ b.roster (a.number p)) (number : b.number q = ρ (a.number p)) :
    (a.reportFrom resolve (some p)).Abreast resolve (b.reportFrom resolve (some q)) := by
  have visits := congrArg List.length (visitsRenamed left right same number)
  rw [List.length_map,List.length_map] at visits
  exact reportsAbreast (labelsRenamed left right same number) visits

theorem passagesRenamed (left : a.WellFormed) (right : b.WellFormed)
    (same : a.roster.Renames ρ b.roster (a.number p)) (number : b.number q = ρ (a.number p))
    (acceptances : ∀ n, b.roster.acceptance (ρ n) = a.roster.acceptance n) :
    (b.roster.passagesFrom (b.number q)).Perm ((a.roster.passagesFrom (a.number p)).map (Passage.rename ρ)) := by
  have renamed (x : Number × L × Number) :
      b.roster.passageAt (ρ x.1,x.2.1,ρ x.2.2) = (a.roster.passageAt x).rename ρ := by
    simp only [Roster.passageAt,Passage.rename,acceptances]
  have routes : (b.route q).map b.passage = ((a.route p).map a.passage).map (Passage.rename ρ) := by
    rw [routeShown right,routeShown left,routeRenamed left right same number]
    simp [Function.comp_def,renamed]
  exact (routePassages right q).symm.trans (routes ▸ (routePassages left p).map _)

end Automaton

namespace Construction
variable {c d : Construction L}

section
variable (renamed : List.Forall₂ (Operation.Renamed ρ) c.operations d.operations)
include renamed

theorem startsRenamed :
    d.automaton.start?.map d.automaton.number = (c.automaton.start?.map c.automaton.number).map ρ := by
  rw [c.startNumber,d.startNumber]
  exact Roster.startRenamed renamed

theorem unstartedRenamed (unstarted : c.automaton.start? = none) : d.automaton.start? = none := by
  have starts := startsRenamed renamed
  rw [unstarted] at starts
  exact Option.map_eq_none_iff.mp starts

theorem startedRenamed {p : c.automaton.Place} (started : c.automaton.start? = some p) :
    ∃ q, d.automaton.start? = some q ∧ d.automaton.number q = ρ (c.automaton.number p) := by
  have starts := startsRenamed renamed
  rw [started] at starts
  exact Option.map_eq_some_iff.mp starts

theorem rosterRenamed (injective : Function.Injective ρ) (n : Number) :
    c.automaton.roster.Renames ρ d.automaton.roster n := by
  rw [c.automatonRoster,d.automatonRoster]
  exact Roster.renamesHistory renamed injective n

end

theorem acceptanceKept (injective : Function.Injective ρ)
    (kept : d.operations = c.operations.map (Operation.rename ρ)) (n : Number) :
    d.automaton.roster.acceptance (ρ n) = c.automaton.roster.acceptance n := by
  rw [c.automatonRoster,d.automatonRoster,Roster.historyAcceptance,Roster.historyAcceptance,kept]
  exact Roster.acceptanceRenamed injective c.operations n

end Construction

/-- Where the same is done to renamed states, whatever they are declared to accept, the reports keep step.
If the acceptances are the same too, then the texts are made of the same lines up to the numbers in the
tags, each as often in one as in the other. -/
theorem numbersNeverSteer (c d : Construction L) (resolve : Resolver L ε) (injective : Function.Injective ρ)
    (renamed : List.Forall₂ (Operation.Renamed ρ) c.operations d.operations) :
    let a := c.automaton
    let b := d.automaton
    (a.report resolve).Abreast resolve (b.report resolve) ∧
    (d.operations = c.operations.map (Operation.rename ρ) → ∀ p, a.start? = some p →
      ∃ q, b.start? = some q ∧ b.number q = ρ (a.number p) ∧
        (b.linesFrom resolve q).Perm
          (((a.roster.passagesFrom (a.number p)).map (Passage.rename ρ)).map resolve.line) ∧
        ∀ t u, (a.report resolve).outcome = .ok (some t) → (b.report resolve).outcome = .ok (some u) →
          t = compose (a.linesFrom resolve p) ∧ u = compose (b.linesFrom resolve q)) := by
  intro a b
  have left : a.WellFormed := c.automatonWellFormed
  have right : b.WellFormed := d.automatonWellFormed
  have same (n : Number) : a.roster.Renames ρ b.roster n := Construction.rosterRenamed renamed injective n
  constructor
  · cases started : a.start? with
    | none =>
      have unstarted := Construction.unstartedRenamed renamed started
      rw [Automaton.reportUnstarted started,Automaton.reportUnstarted unstarted]
      exact .silent
    | some p =>
      obtain ⟨q,started',number⟩ := Construction.startedRenamed renamed started
      rw [Automaton.reportStarted started,Automaton.reportStarted started']
      exact Automaton.reportsRenamed left right (same _) number
  · intro kept p started
    obtain ⟨q,started',number⟩ := Construction.startedRenamed renamed started
    have acceptances := Construction.acceptanceKept injective kept
    have lines := (Automaton.passagesRenamed left right (same _) number acceptances).map resolve.line
    refine ⟨q,started',number,lines,fun t u shown shown' => ?_⟩
    rw [Automaton.reportStarted started] at shown
    rw [Automaton.reportStarted started'] at shown'
    exact ⟨Automaton.textLines left shown,Automaton.textLines right shown'⟩

/- The tangle with its numbers turned around, so that tags sort the other way, and once more with an
acceptance that it does not have. -/
def turned : Construction Text where
  clauses := []
  start := none
  changes := tangle.operations.map (Operation.rename (~~~ ·))

def disguised : Construction Text where
  clauses := []
  start := none
  changes := tangle.operations.map fun o => match o.rename (~~~ ·) with
    | .declare n _ => .declare n (.alternative 7)
    | other => other

def turnedText : Text :=
  (":s4294967291=> NUM FLOAT-e->:s4294967291=> NUM FLOAT\nd->:s4294967291=> NUM FLOAT\n" ++
    "s4294967294-b->s4294967295\ns4294967294-c\n" ++
    "s4294967295-a->s4294967294\ns4294967295-a->s4294967294").toList

theorem turnedOutcome : (turned.automaton.report verbatim).outcome = .ok (some turnedText) :=
  Automaton.reportYields (by decide +kernel)

theorem tangleTurned : Function.Injective (fun n : Number => ~~~n) ∧
    List.Forall₂ (Operation.Renamed (~~~ ·)) tangle.operations disguised.operations ∧
    (tangle.automaton.report demanding).Abreast demanding (disguised.automaton.report demanding) ∧
    List.Forall₂ (Operation.Renamed (~~~ ·)) tangle.operations turned.operations ∧
    turned.operations = tangle.operations.map (Operation.rename (~~~ ·)) ∧
    ∃ p q, tangle.automaton.start? = some p ∧ turned.automaton.start? = some q ∧
      (turned.automaton.linesFrom verbatim q).Perm
        (((tangle.automaton.roster.passagesFrom (tangle.automaton.number p)).map
          (Passage.rename (~~~ ·))).map verbatim.line) ∧
      tangleText = compose (tangle.automaton.linesFrom verbatim p) ∧
      turnedText = compose (turned.automaton.linesFrom verbatim q) := by
  have injective : Function.Injective (fun n : Number => ~~~n) := fun _ _ => UInt32.not_inj.mp
  have turns : List.Forall₂ (Operation.Renamed (~~~ ·)) tangle.operations turned.operations :=
    List.forall₂_map_right_iff.mpr (List.forall₂_same.mpr fun o _ => Operation.renameRenamed _ o)
  have disguises : List.Forall₂ (Operation.Renamed (~~~ ·)) tangle.operations disguised.operations := by
    refine List.forall₂_map_right_iff.mpr (List.forall₂_same.mpr fun o _ => ?_)
    cases o with
    | declare n acceptance => exact .declare n acceptance _
    | connect source label target => exact .connect source label target
    | startAt n => exact .startAt n
    | dropStart => exact .dropStart
  have start : ∃ p, tangle.automaton.start? = some p := by decide +kernel
  obtain ⟨p,started⟩ := start
  have same : turned.operations = tangle.operations.map (Operation.rename (~~~ ·)) := rfl
  obtain ⟨q,started',_,lines,texts⟩ := (numbersNeverSteer tangle turned verbatim injective turns).2 same p started
  exact ⟨injective,disguises,(numbersNeverSteer tangle disguised demanding injective disguises).1,turns,same,
    p,q,started,started',lines,texts _ _ tangleOutcome turnedOutcome⟩

end AutomatonDump
