import AutomatonDump.Proofs.Automaton.Handles
/-! What can be observed of an automaton is what its roster shows: positions serve to look things up
and leave no trace of their own, apart from the order of arrival. -/
namespace AutomatonDump
variable {L : Type}

def Automaton.replies (a : Automaton L) : List (Operation L) → List (Option Bool)
  | [] => []
  | o :: rest => o.reply a :: (o.apply a).replies rest

def Roster.replies (r : Roster L) : List (Operation L) → List (Option Bool)
  | [] => []
  | o :: rest => r.reply o :: (r.apply o).replies rest

namespace Automaton
variable {a : Automaton L} {r : Roster L}

structure Shows (a : Automaton L) (r : Roster L) : Prop where
  size : a.size = r.entries.length
  isEmpty : a.isEmpty = r.entries.isEmpty
  numbers : a.numbers = r.numbers
  start : a.start?.map a.number = r.start
  index : ∀ n, (a.find? n).map Fin.val = r.index? n
  acceptance : ∀ n, (a.state? n).map State.acceptance = (r.entry? n).map Entry.acceptance
  edges : ∀ n, (a.find? n).map (fun p => (a.links p).map fun x => (x.label,a.number x.target)) =
    (r.entry? n).map Entry.edges
  trail : ∀ n indices, (a.trail (a.find? n) indices).map (Option.map a.number) =
    r.trail ((r.entry? n).map Entry.number) indices
  trailFromStart : ∀ indices, (a.trail a.start? indices).map (Option.map a.number) = r.trail r.start indices

theorem repliesRoster (w : a.WellFormed) (operations : List (Operation L)) :
    a.replies operations = a.roster.replies operations := by
  induction operations generalizing a with
  | nil => rfl
  | cons o rest ih => rw [replies,Roster.replies,replyRoster w,ih (applyWellFormed w o),applyRoster w]

theorem missingUnlisted (w : a.WellFormed) {n : Number} (missing : a.find? n = none) :
    ∀ e ∈ a.roster.entries, e.number ≠ n := by
  intro e inside same
  have listed : n ∈ a.roster.numbers := List.mem_map.mpr ⟨e,inside,same⟩
  have position := findPosition w n
  rw [missing,Std.TreeMap.getElem?_eq_some_getElem ((rosterLists w).mp listed)] at position
  cases position

theorem entryRoster (w : a.WellFormed) (n : Number) :
    a.roster.entry? n = (a.find? n).map fun p => a.entry (a.state p) := by
  cases found : a.find? n with
  | some p =>
    cases findNumber w found
    exact entryOfPlace w p
  | none =>
    refine List.find?_eq_none.mpr fun e inside => ?_
    simpa using missingUnlisted w found e inside

theorem indexRoster (w : a.WellFormed) (n : Number) : (a.find? n).map Fin.val = a.roster.index? n := by
  cases found : a.find? n with
  | some p =>
    cases findNumber w found
    have listed : p.val < a.places.length := p.isLt.trans_eq List.length_finRange.symm
    have stands : a.places[p.val] = p := by simp [places]
    rw [Roster.index?,entriesByPlace,List.findIdx?_map]
    refine (List.findIdx?_eq_some_iff_getElem.mpr ⟨listed,?_,fun j earlier same => ?_⟩).symm
    · rw [stands]
      exact decide_eq_true rfl
    · have equal : a.places[j] = p := placeUnique w (of_decide_eq_true same)
      have position : j = p.val := by simpa [places] using congrArg Fin.val equal
      exact absurd position (Nat.ne_of_lt earlier)
  | none =>
    symm
    refine List.findIdx?_eq_none_iff.mpr fun e inside => ?_
    simpa using missingUnlisted w found e inside

theorem trailRoster (w : a.WellFormed) (p : Option a.Place) (indices : List Nat) :
    (a.trail p indices).map (Option.map a.number) = a.roster.trail (p.map a.number) indices := by
  induction indices generalizing p with
  | nil => rfl
  | cons i rest ih =>
    rw [trail,Roster.trail,List.map_cons,ih]
    cases p with
    | none => rfl
    | some p =>
      rw [Option.map_some,Option.bind_some,Option.bind_some,entryOfPlace w,Option.bind_some,edgesByPlace,
        List.getElem?_map,Option.map_map,Option.map_map]
      rfl

theorem showsRoster (w : a.WellFormed) : a.Shows a.roster where
  size := by simp [size,roster]
  isEmpty := by simp [isEmpty,roster]
  numbers := (rosterNumbers a).symm
  start := startRoster a
  index := indexRoster w
  acceptance n := by rw [entryRoster w,state?,Option.map_map,Option.map_map]; rfl
  edges n := by
    rw [entryRoster w,Option.map_map]
    exact congrArg (Option.map · (a.find? n)) (funext fun p => (edgesByPlace p).symm)
  trail n indices := by
    rw [trailRoster w,entryRoster w,Option.map_map]
    rfl
  trailFromStart indices := by rw [trailRoster w,startRoster]

end Automaton

/-- Whatever is done to an empty automaton, the replies are those of the empty roster, and in the end
there is nothing to be observed that the roster does not show. -/
theorem rosterTellsEverything (operations : List (Operation L)) :
    Automaton.empty.replies operations = Roster.empty.replies operations ∧
    (Automaton.empty.run operations).Shows (Roster.empty.run operations) := by
  have w : (Automaton.empty : Automaton L).WellFormed := Automaton.emptyWellFormed
  refine ⟨Automaton.repliesRoster w operations,?_⟩
  have shown := Automaton.showsRoster (Automaton.runWellFormed w operations)
  rwa [Automaton.runRoster w,Automaton.emptyRoster] at shown

end AutomatonDump
