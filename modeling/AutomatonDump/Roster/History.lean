import AutomatonDump.Roster.Basic
/-! What a sequence of operations amounts to, read off the sequence without carrying it out:
who arrives when, which edges are added, what was declared last, and where the start is. -/
namespace AutomatonDump
variable {L : Type}

namespace Operation

def arrivals : Operation L → List Number
  | .declare n _ => [n]
  | .connect source _ target => [target,source]
  | .startAt n => [n]
  | .dropStart => []

def edge? : Operation L → Option (Number × L × Number)
  | .connect source label target => some (source,label,target)
  | _ => none

def declared? (n : Number) : Operation L → Option Acceptance
  | .declare m acceptance => if m = n then some acceptance else none
  | _ => none

def changed? : Operation L → Option Number
  | .declare n _ => some n
  | .connect source _ _ => some source
  | _ => none

theorem changedArrives {o : Operation L} {n : Number} (changed : o.changed? = some n) : n ∈ o.arrivals := by
  cases o with
  | declare m acceptance => exact List.mem_singleton.mpr (Option.some.inj changed).symm
  | connect source label target =>
    exact List.mem_cons_of_mem _ (List.mem_singleton.mpr (Option.some.inj changed).symm)
  | startAt m => cases changed
  | dropStart => cases changed

def start? : Operation L → Option (Option Number)
  | .startAt n => some (some n)
  | .dropStart => some none
  | _ => none

end Operation

namespace Roster

def arrivals (operations : List (Operation L)) : List Number := operations.flatMap Operation.arrivals

def edges (operations : List (Operation L)) : List (Number × L × Number) :=
  operations.filterMap Operation.edge?

def edgesFrom (operations : List (Operation L)) (n : Number) : List (L × Number) :=
  (edges operations).filterMap fun e => if e.1 = n then some e.2 else none

def lastAcceptance (operations : List (Operation L)) (n : Number) : Acceptance :=
  (operations.filterMap (Operation.declared? n)).getLast?.getD .nothing

def lastStart (operations : List (Operation L)) : Option Number :=
  (operations.filterMap Operation.start?).getLast?.join

theorem edgesListed {operations : List (Operation L)} {source : Number} {label : L} {target : Number} :
    (source,label,target) ∈ edges operations ↔ .connect source label target ∈ operations := by
  unfold edges
  rw [List.mem_filterMap]
  constructor
  · rintro ⟨o,inside,found⟩
    cases o with
    | connect s l t => cases Option.some.inj found; exact inside
    | declare n acceptance => cases found
    | startAt n => cases found
    | dropStart => cases found
  · exact fun inside => ⟨_,inside,rfl⟩

theorem edgesFromAppend (before later : List (Operation L)) (n : Number) :
    edgesFrom (before ++ later) n = edgesFrom before n ++ edgesFrom later n := by
  simp [edgesFrom,edges]

def tabulate (numbers : List Number) (acceptance : Number → Acceptance)
    (edges : Number → List (L × Number)) (start : Option Number) : Roster L :=
  ⟨numbers.eraseDups.map fun n => ⟨n,acceptance n,edges n⟩,start⟩

def ofHistory (operations : List (Operation L)) : Roster L :=
  tabulate (arrivals operations) (lastAcceptance operations) (edgesFrom operations) (lastStart operations)

theorem firstArrivals {α : Type} [BEq α] [LawfulBEq α] (ns : List α) (n : α) [Decidable (n ∈ ns)] :
    (ns ++ [n]).eraseDups = if n ∈ ns then ns.eraseDups else ns.eraseDups ++ [n] := by
  rw [List.eraseDups_append]
  by_cases known : n ∈ ns
  · rw [if_pos known]
    simp [List.removeAll,known]
  · rw [if_neg known]
    simp [List.removeAll,known,List.eraseDups_cons]

section
variable {ns : List Number} {acceptance : Number → Acceptance} {edges : Number → List (L × Number)}
  {start : Option Number}

theorem tabulateNumbers : (tabulate ns acceptance edges start).numbers = ns.eraseDups := by
  simp [tabulate,numbers,Function.comp_def]

theorem tabulateAppend {n : Number} (fresh : n ∉ ns) :
    tabulate (ns ++ [n]) acceptance edges start =
      ⟨(tabulate ns acceptance edges start).entries ++ [⟨n,acceptance n,edges n⟩],start⟩ := by
  simp [tabulate,firstArrivals,fresh]

theorem tabulateKnown {n : Number} (known : n ∈ ns) :
    tabulate (ns ++ [n]) acceptance edges start = tabulate ns acceptance edges start := by
  simp [tabulate,firstArrivals,known]

theorem tabulateEnsure {n : Number} (plain : n ∉ ns → acceptance n = .nothing ∧ edges n = []) :
    (tabulate ns acceptance edges start).ensure n = tabulate (ns ++ [n]) acceptance edges start := by
  have listed : n ∈ (tabulate ns acceptance edges start).numbers ↔ n ∈ ns := by
    rw [tabulateNumbers,List.mem_eraseDups]
  unfold ensure
  by_cases known : n ∈ ns
  · rw [if_pos (listed.mpr known),tabulateKnown known]
  · rw [if_neg (fun h => known (listed.mp h)),tabulateAppend known,(plain known).1,(plain known).2]
    rfl

theorem tabulateChange {n : Number} {f : Entry L → Entry L} {acceptance' : Number → Acceptance}
    {edges' : Number → List (L × Number)} (here : f ⟨n,acceptance n,edges n⟩ = ⟨n,acceptance' n,edges' n⟩)
    (elsewhere : ∀ m, m ≠ n → acceptance' m = acceptance m ∧ edges' m = edges m) :
    (tabulate ns acceptance edges start).change n f = tabulate ns acceptance' edges' start := by
  simp only [tabulate,change,List.map_map,Roster.mk.injEq,and_true]
  apply List.map_congr_left
  intro m _
  by_cases same : m = n
  · subst same
    simp [here]
  · simp [same,elsewhere m same]

end

section
variable (os : List (Operation L))

theorem arrivalsNext (o : Operation L) : arrivals (os ++ [o]) = arrivals os ++ o.arrivals := by
  simp [arrivals]

theorem acceptanceNext (o : Operation L) (n : Number) :
    lastAcceptance (os ++ [o]) n = (o.declared? n).getD (lastAcceptance os n) := by
  unfold lastAcceptance
  rw [List.filterMap_append]
  cases h : o.declared? n with
  | none => simp [h]
  | some acceptance => simp [h]

theorem edgesNext (o : Operation L) (n : Number) :
    edgesFrom (os ++ [o]) n =
      edgesFrom os n ++ (o.edge?.bind fun e => if e.1 = n then some e.2 else none).toList := by
  unfold edgesFrom edges
  rw [List.filterMap_append,List.filterMap_append]
  congr 1
  cases h : o.edge? with
  | none => simp [h]
  | some e => by_cases same : e.1 = n <;> simp [h,same]

theorem startNext (o : Operation L) : lastStart (os ++ [o]) = o.start?.getD (lastStart os) := by
  unfold lastStart
  rw [List.filterMap_append]
  cases h : o.start? with
  | none => simp [h]
  | some n => simp [h]

theorem untouched {n : Number} (others : ∀ o ∈ os, o.changed? ≠ some n) :
    os.filterMap (Operation.declared? n) = [] ∧ edgesFrom os n = [] := by
  constructor
  · rw [List.filterMap_eq_nil_iff]
    intro o h
    cases o with
    | declare m acceptance =>
      have other : m ≠ n := fun same => others _ h (congrArg some same)
      simp [Operation.declared?,other]
    | connect source label target => rfl
    | startAt m => rfl
    | dropStart => rfl
  · unfold edgesFrom edges
    rw [List.filterMap_filterMap,List.filterMap_eq_nil_iff]
    intro o h
    cases o with
    | connect source label target =>
      have other : source ≠ n := fun same => others _ h (congrArg some same)
      simp [Operation.edge?,other]
    | declare m acceptance => rfl
    | startAt m => rfl
    | dropStart => rfl

theorem strangerPlain {n : Number} (stranger : n ∉ arrivals os) :
    lastAcceptance os n = .nothing ∧ edgesFrom os n = [] := by
  obtain ⟨undeclared,unconnected⟩ := untouched os fun o h changed =>
    stranger (List.mem_flatMap.mpr ⟨o,h,Operation.changedArrives changed⟩)
  exact ⟨by simp [lastAcceptance,undeclared],unconnected⟩

theorem historyNext (o : Operation L) : ofHistory (os ++ [o]) = (ofHistory os).apply o := by
  have plain {n : Number} := strangerPlain os (n := n)
  unfold ofHistory
  rw [arrivalsNext,startNext]
  cases o with
  | declare n acceptance =>
    have acceptances (m : Number) : lastAcceptance (os ++ [.declare n acceptance]) m =
        if n = m then acceptance else lastAcceptance os m := by
      rw [acceptanceNext]
      by_cases same : n = m <;> simp [Operation.declared?,same]
    have edges (m : Number) : edgesFrom (os ++ [.declare n acceptance]) m = edgesFrom os m := by
      rw [edgesNext]; simp [Operation.edge?]
    have listed : n ∈ (ofHistory os).numbers ↔ n ∈ arrivals os := by
      rw [ofHistory,tabulateNumbers,List.mem_eraseDups]
    change tabulate (arrivals os ++ [n]) _ _ (lastStart os) = (ofHistory os).declare n acceptance
    unfold declare
    by_cases known : n ∈ arrivals os
    · rw [if_pos (listed.mpr known),tabulateKnown known]
      refine (tabulateChange ?_ fun m other => ⟨?_,edges m⟩).symm
      · rw [acceptances,if_pos rfl,edges]
      · rw [acceptances,if_neg (Ne.symm other)]
    · rw [if_neg (fun h => known (listed.mp h)),tabulateAppend known,acceptances,if_pos rfl,edges,
        (plain known).2,append]
      congr 2
      apply List.map_congr_left
      intro m inside
      have other : n ≠ m := fun same => known (same ▸ List.mem_eraseDups.mp inside)
      rw [acceptances,if_neg other,edges]
  | connect source label target =>
    have acceptances : lastAcceptance (os ++ [.connect source label target]) = lastAcceptance os := by
      funext m
      rw [acceptanceNext]; rfl
    have apart : arrivals os ++ (Operation.connect source label target).arrivals =
        arrivals os ++ [target] ++ [source] := by simp [Operation.arrivals]
    rw [apply,connect,tabulateEnsure plain,
      tabulateEnsure fun fresh => plain fun inside => fresh (List.mem_append_left _ inside),
      acceptances,apart]
    refine (tabulateChange ?_ fun m other => ⟨rfl,?_⟩).symm
    · rw [edgesNext]; simp [Operation.edge?]
    · rw [edgesNext]; simp [Operation.edge?,Ne.symm other]
  | startAt n =>
    have acceptances : lastAcceptance (os ++ [.startAt n]) = lastAcceptance os := by
      funext m; rw [acceptanceNext]; rfl
    have edges : edgesFrom (os ++ [.startAt n]) = edgesFrom os := by
      funext m; rw [edgesNext]; simp [Operation.edge?]
    rw [apply,startAt,tabulateEnsure plain,acceptances,edges]
    rfl
  | dropStart =>
    have acceptances : lastAcceptance (os ++ [.dropStart]) = lastAcceptance os := by
      funext m; rw [acceptanceNext]; rfl
    have edges : edgesFrom (os ++ [.dropStart]) = edgesFrom os := by
      funext m; rw [edgesNext]; simp [Operation.edge?]
    rw [acceptances,edges]
    simp [apply,dropStart,tabulate,Operation.arrivals,Operation.start?]

end

theorem runHistory (before os : List (Operation L)) :
    (ofHistory before).run os = ofHistory (before ++ os) := by
  induction os generalizing before with
  | nil => simp [run]
  | cons o rest ih =>
    have next := ih (before ++ [o])
    rw [historyNext,List.append_assoc] at next
    exact next

end Roster
end AutomatonDump
