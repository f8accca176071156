import AutomatonDump.Proofs.Passage
import Mathlib.Data.List.Induction
import Mathlib.Data.List.Perm.Basic
/-! The passages of a history. Each added edge gives one, with the acceptances declared last for
its ends. Their multiset and what is reached along them do not depend on who arrived when. -/
namespace AutomatonDump.Roster
variable {L : Type}

theorem firstArrivalsDistinct (ns : List Number) : ns.eraseDups.Nodup := by
  induction ns using List.reverseRecOn with
  | nil => exact List.nodup_nil
  | append_singleton before n ih =>
    rw [firstArrivals]
    split
    · exact ih
    · rename_i stranger
      exact List.nodup_append.mpr ⟨ih,List.nodup_singleton n,fun m inside o last same =>
        stranger (List.mem_singleton.mp last ▸ same ▸ List.mem_eraseDups.mp inside)⟩

theorem heapsPerm {α κ : Type} [DecidableEq κ] (key : α → κ) {keys : List κ} (distinct : keys.Nodup)
    {xs : List α} (covered : ∀ x ∈ xs, key x ∈ keys) :
    (keys.flatMap fun k => xs.filter fun x => key x = k).Perm xs := by
  induction keys generalizing xs with
  | nil =>
    cases xs with
    | nil => exact .nil
    | cons x rest => exact nomatch covered x List.mem_cons_self
  | cons k rest ih =>
    obtain ⟨absent,distinct⟩ := List.nodup_cons.mp distinct
    have others : ∀ x ∈ xs.filter (fun x => !decide (key x = k)), key x ∈ rest := by
      intro x inside
      obtain ⟨inside,differs⟩ := List.mem_filter.mp inside
      rcases List.mem_cons.mp (covered x inside) with same | later
      · simp [same] at differs
      · exact later
    have untouched : ∀ m ∈ rest, xs.filter (fun x => key x = m) =
        (xs.filter fun x => !decide (key x = k)).filter fun x => key x = m := by
      intro m later
      rw [List.filter_filter]
      apply List.filter_congr
      intro x _
      have apart : m ≠ k := fun same => absent (same ▸ later)
      by_cases here : key x = m <;> simp [here,apart]
    rw [List.flatMap_cons,List.flatMap_congr untouched]
    exact ((ih distinct others).append_left _).trans (List.filter_append_perm _ xs)

theorem pickedByNumber {α : Type} (xs : List (Number × α)) (n : Number) :
    xs.filterMap (fun x => if x.1 = n then some x.2 else none) = (xs.filter fun x => x.1 = n).map Prod.snd := by
  induction xs with
  | nil => rfl
  | cons x rest ih => by_cases here : x.1 = n <;> simp [here,ih]

section
variable (os : List (Operation L))

theorem endsArrive {e : Number × L × Number} (inside : e ∈ edges os) :
    e.1 ∈ arrivals os ∧ e.2.2 ∈ arrivals os := by
  have arrives (n : Number) (here : n ∈ [e.2.2,e.1]) : n ∈ arrivals os :=
    List.mem_flatMap.mpr ⟨_,edgesListed.mp inside,here⟩
  exact ⟨arrives _ (List.mem_cons_of_mem _ List.mem_cons_self),arrives _ List.mem_cons_self⟩

theorem edgesFromFilter (n : Number) :
    edgesFrom os n = ((edges os).filter fun e => e.1 = n).map Prod.snd := pickedByNumber (edges os) n

theorem edgesFromNothing {n : Number} : edgesFrom os n = [] ↔ ∀ label target, .connect n label target ∉ os := by
  rw [edgesFromFilter,List.map_eq_nil_iff,List.filter_eq_nil_iff]
  constructor
  · intro none label target inside
    exact none _ (edgesListed.mpr inside) (decide_eq_true rfl)
  · rintro never ⟨m,label,target⟩ listed here
    cases of_decide_eq_true here
    exact never label target (edgesListed.mp listed)

theorem historyEntry (n : Number) : entry? (ofHistory os) n =
    if n ∈ arrivals os then some ⟨n,lastAcceptance os n,edgesFrom os n⟩ else none := by
  unfold entry?
  rw [ofHistory,tabulate,List.find?_map]
  cases found : (arrivals os).eraseDups.find? ((fun e : Entry L => decide (e.number = n)) ∘
      fun m => ⟨m,lastAcceptance os m,edgesFrom os m⟩) with
  | none =>
    have stranger : n ∉ arrivals os := fun inside => by
      have absent := List.find?_eq_none.mp found n (List.mem_eraseDups.mpr inside)
      simp at absent
    rw [if_neg stranger,Option.map_none]
  | some m =>
    have same : m = n := by simpa using List.find?_some found
    have known := List.mem_eraseDups.mp (List.mem_of_find?_eq_some found)
    rw [if_pos (same ▸ known),Option.map_some,same]

theorem historyLinks {a : Automaton L} (history : a.roster = ofHistory os) (p : a.Place) :
    (a.links p).map (fun x => (x.label,a.number x.target)) = edgesFrom os (a.number p) := by
  have entry : a.entry (a.state p) ∈ (ofHistory os).entries := history ▸ Automaton.placeListed p
  obtain ⟨n,_,same⟩ := List.mem_map.mp entry
  have number : n = a.number p := congrArg Entry.number same
  rw [← Automaton.edgesByPlace,← same,number]

theorem historyAcceptance (n : Number) : (ofHistory os).acceptance n = lastAcceptance os n := by
  rw [acceptance,historyEntry]
  split
  · rfl
  · rename_i stranger
    exact (strangerPlain os stranger).1.symm

theorem historyArrow {m n : Number} {label : L} :
    (ofHistory os).Arrow m label n ↔ (m,label,n) ∈ edges os := by
  constructor
  · rintro ⟨e,inside,rfl,edge⟩
    obtain ⟨m,_,rfl⟩ := List.mem_map.mp inside
    rw [edgesFromFilter] at edge
    obtain ⟨x,kept,same⟩ := List.mem_map.mp edge
    obtain ⟨listed,source⟩ := List.mem_filter.mp kept
    cases of_decide_eq_true source
    exact same ▸ listed
  · intro listed
    refine ⟨⟨m,lastAcceptance os m,edgesFrom os m⟩,?_,rfl,?_⟩
    · exact List.mem_map.mpr ⟨m,List.mem_eraseDups.mpr ((endsArrive os listed).1),rfl⟩
    · rw [edgesFromFilter]
      exact List.mem_map.mpr ⟨_,List.mem_filter.mpr ⟨listed,decide_eq_true rfl⟩,rfl⟩

def passageOf (e : Number × L × Number) : Passage L :=
  ⟨e.1,lastAcceptance os e.1,e.2.1,e.2.2,lastAcceptance os e.2.2⟩

theorem passageOfHistory (e : Number × L × Number) : passageOf os e = (ofHistory os).passageAt e := by
  rw [passageOf,passageAt,historyAcceptance,historyAcceptance]

theorem historyPassages : (ofHistory os).passages.Perm ((edges os).map (passageOf os)) := by
  have heaps : (ofHistory os).passages =
      ((arrivals os).eraseDups.flatMap fun n => (edges os).filter fun e => e.1 = n).map (passageOf os) := by
    have entries : (ofHistory os).entries = (arrivals os).eraseDups.map fun n =>
        ⟨n,lastAcceptance os n,edgesFrom os n⟩ := rfl
    rw [List.map_flatMap,passages,entries,List.flatMap_map]
    apply List.flatMap_congr
    intro n _
    rw [edgesFromFilter,List.map_map]
    apply List.map_congr_left
    intro e kept
    cases of_decide_eq_true (List.mem_filter.mp kept).2
    exact congrArg (Passage.mk _ _ _ _) (historyAcceptance os e.2.2)
  rw [heaps]
  exact (heapsPerm Prod.fst (firstArrivalsDistinct _) fun e inside =>
    List.mem_eraseDups.mpr ((endsArrive os inside).1)).map _

end

theorem reachesAlong {r s : Roster L} (arrows : ∀ m label n, r.Arrow m label n → s.Arrow m label n)
    {m n : Number} (reaches : r.Reaches m n) : s.Reaches m n := by
  obtain ⟨steps,walk⟩ := reaches
  induction walk with
  | stay => exact reachesSelf s m
  | extend _ last ih => exact reachesStep ih (arrows _ _ _ last)

theorem passagesFromPerm {os others : List (Operation L)} (edges : (edges os).Perm (edges others))
    (acceptance : ∀ n, lastAcceptance os n = lastAcceptance others n) (n : Number) :
    ((ofHistory os).passagesFrom n).Perm ((ofHistory others).passagesFrom n) := by
  have reaches (m : Number) : (ofHistory os).Reaches n m ↔ (ofHistory others).Reaches n m :=
    ⟨reachesAlong fun _ _ _ arrow => (historyArrow _).mpr (edges.mem_iff.mp ((historyArrow _).mp arrow)),
      reachesAlong fun _ _ _ arrow => (historyArrow _).mpr (edges.mem_iff.mpr ((historyArrow _).mp arrow))⟩
  have passages : (ofHistory os).passages.Perm (ofHistory others).passages := by
    refine (historyPassages os).trans (((edges.map _).trans ?_).trans (historyPassages others).symm)
    rw [List.map_congr_left fun e _ => show passageOf os e = passageOf others e by
      rw [passageOf,passageOf,acceptance,acceptance]]
  classical
  exact passagesChosen passages fun x => reaches x.source

end AutomatonDump.Roster
