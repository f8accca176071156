import AutomatonDump.Automaton.WellFormed
import AutomatonDump.Roster.Basic
/-! The roster of an automaton, in which every position is replaced by the number found
there. On well-formed automata each operation does to the roster what it is meant to do. -/
namespace AutomatonDump.Automaton
variable {L : Type}

def entry (a : Automaton L) (s : State L) : Entry L :=
  ⟨s.number,s.acceptance,s.edges.toList.filterMap fun e => (a.numberAt? e.target).map fun n => (e.label,n)⟩

def roster (a : Automaton L) : Roster L :=
  ⟨a.states.toList.map a.entry,a.start.bind a.numberAt?⟩

theorem emptyRoster : (empty : Automaton L).roster = .empty := rfl

theorem rosterNumbers (a : Automaton L) : a.roster.numbers = a.numbers := by
  simp [roster,Roster.numbers,numbers,entry,Function.comp_def]

theorem rosterLists {a : Automaton L} (w : a.WellFormed) {n : Number} :
    n ∈ a.roster.numbers ↔ n ∈ a.positions := by
  rw [usedIff w,rosterNumbers,numbers,List.mem_map]
  constructor
  · rintro ⟨s,inside,rfl⟩
    obtain ⟨i,found⟩ := List.mem_iff_getElem?.mp inside
    exact ⟨i,by simp [numberAt?,← Array.getElem?_toList,found]⟩
  · rintro ⟨i,found⟩
    obtain ⟨s,stored,same⟩ := Option.map_eq_some_iff.mp found
    exact ⟨s,List.mem_iff_getElem?.mpr ⟨i,by simpa using stored⟩,same⟩

theorem entrySame {a b : Automaton L} {s : State L}
    (same : ∀ e ∈ s.edges, b.numberAt? e.target = a.numberAt? e.target) : b.entry s = a.entry s := by
  have edges : ∀ e ∈ s.edges.toList, b.numberAt? e.target = a.numberAt? e.target :=
    fun e h => same e (by simpa using h)
  simp only [entry,Entry.mk.injEq,true_and]
  generalize s.edges.toList = es at edges
  induction es with
  | nil => rfl
  | cons e rest ih =>
    rw [List.filterMap_cons,List.filterMap_cons,edges e List.mem_cons_self,
      ih fun x h => edges x (List.mem_cons_of_mem _ h)]

theorem appendRoster {a : Automaton L} (w : a.WellFormed) (n : Number) (acceptance : Acceptance) :
    (a.append n acceptance).roster = a.roster.append n acceptance := by
  have inner (i : Nat) (inside : i < a.states.size) :
      (a.append n acceptance).numberAt? i = a.numberAt? i := by
    rw [numberAtAppend,if_neg (Nat.ne_of_lt inside)]
  have old : a.states.toList.map (a.append n acceptance).entry = a.states.toList.map a.entry :=
    List.map_congr_left fun s h =>
      entrySame fun e inside => inner _ (w.targets s (by simpa using h) e inside)
  have start : a.start.bind (a.append n acceptance).numberAt? = a.start.bind a.numberAt? := by
    cases h : a.start with
    | none => rfl
    | some i => exact inner i (w.start i h)
  have states : (a.append n acceptance).states = a.states.push ⟨n,acceptance,#[]⟩ := rfl
  have kept : (a.append n acceptance).start = a.start := rfl
  simp only [roster,Roster.append,states,kept,Array.toList_push,List.map_append,old,start]
  rfl

theorem modifyRoster {a : Automaton L} (w : a.WellFormed) (n : Number) {change : State L → State L}
    {f : Entry L → Entry L} (keeps : ∀ s, (change s).number = s.number)
    (meets : ∀ s, a.entry (change s) = f (a.entry s)) :
    (a.modify n change).roster = a.roster.change n f := by
  have numbers := numberAtModify a n keeps
  have entries : (a.modify n change).entry = a.entry := funext fun s => entrySame fun e _ => numbers e.target
  have start : (a.modify n change).start.bind (a.modify n change).numberAt? = a.start.bind a.numberAt? :=
    congrArg _ (funext numbers)
  rw [roster,roster,start,entries]
  simp only [Roster.change,Roster.mk.injEq,and_true]
  apply List.ext_getElem?
  intro j
  simp only [modify,Array.toList_modify,List.getElem?_map,List.getElem?_modify]
  cases found : a.states.toList[j]? with
  | none => rfl
  | some s =>
    have stored : a.numberAt? j = some s.number := by
      rw [numberAt?,← Array.getElem?_toList,found]; rfl
    have here : a.slot n = j ↔ s.number = n := by
      constructor
      · intro same
        by_cases used : n ∈ a.positions
        · have slot := slotUsed w used
          rw [same,stored] at slot
          exact Option.some.inj slot
        · exact absurd (positionOccupied stored) (by rw [← same,slotFree used]; exact Nat.lt_irrefl _)
      · intro same
        subst same
        exact positionUnique w (slotUsed w ((usedIff w).mpr ⟨j,stored⟩)) stored
    simp only [Option.map_eq_map,Option.map_some,Option.some.injEq]
    by_cases same : (a.entry s).number = n
    · rw [if_pos (here.mpr same),if_pos same,meets]
    · rw [if_neg (fun h => same (here.mp h)),if_neg same]

theorem ensureRoster {a : Automaton L} (w : a.WellFormed) (n : Number) :
    (a.ensure n).roster = a.roster.ensure n := by
  unfold ensure Roster.ensure
  by_cases used : n ∈ a.positions
  · rw [if_pos used,if_pos ((rosterLists w).mpr used)]
  · rw [if_neg used,if_neg fun h => used ((rosterLists w).mp h),appendRoster w]

theorem declareRoster {a : Automaton L} (w : a.WellFormed) (n : Number) (acceptance : Acceptance) :
    (a.declare n acceptance).roster = a.roster.declare n acceptance := by
  unfold declare Roster.declare
  by_cases used : n ∈ a.positions
  · rw [if_pos used,if_pos ((rosterLists w).mpr used)]
    exact modifyRoster w n (fun _ => rfl) fun _ => rfl
  · rw [if_neg used,if_neg fun h => used ((rosterLists w).mp h),appendRoster w]

theorem connectRoster {a : Automaton L} (w : a.WellFormed) (source : Number) (label : L)
    (target : Number) : (a.connect source label target).roster = a.roster.connect source label target := by
  have first := ensureWellFormed w target
  have whole := ensureWellFormed first source
  have stands := slotUsed whole (ensureKeepsUse (ensureUses a target) source)
  rw [Roster.connect,← ensureRoster w,← ensureRoster first]
  refine modifyRoster whole source (fun _ => rfl) fun s => ?_
  simp [entry,List.filterMap_append,stands]

theorem startAtRoster {a : Automaton L} (w : a.WellFormed) (n : Number) :
    (a.startAt n).roster = a.roster.startAt n := by
  have stands := slotUsed (ensureWellFormed w n) (ensureUses a n)
  rw [Roster.startAt,← ensureRoster w]
  exact congrArg (Roster.mk _) stands

theorem dropStartRoster (a : Automaton L) : a.dropStart.roster = a.roster.dropStart := rfl

theorem applyRoster {a : Automaton L} (w : a.WellFormed) (o : Operation L) :
    (o.apply a).roster = a.roster.apply o := by
  cases o with
  | declare n acceptance => exact declareRoster w n acceptance
  | connect source label target => exact connectRoster w source label target
  | startAt n => exact startAtRoster w n
  | dropStart => exact dropStartRoster a

theorem replyRoster {a : Automaton L} (w : a.WellFormed) (o : Operation L) :
    o.reply a = a.roster.reply o := by
  cases o with
  | declare n acceptance => simp only [Operation.reply,Roster.reply,rosterLists w]
  | connect source label target => rfl
  | startAt n => rfl
  | dropStart => rfl

theorem runRoster {a : Automaton L} (w : a.WellFormed) (operations : List (Operation L)) :
    (a.run operations).roster = a.roster.run operations := by
  induction operations generalizing a with
  | nil => rfl
  | cons o rest ih =>
    exact (ih (applyWellFormed w o)).trans (congrArg (Roster.run · rest) (applyRoster w o))

end AutomatonDump.Automaton
