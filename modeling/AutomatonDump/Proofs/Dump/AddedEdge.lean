import AutomatonDump.Proofs.Dump.Within
/-! What one more edge does to a dump. A walk that uses it can be cut before its first use and after
its last, so that what is reached with it was reached from its target before. Within reach it brings its
own line and those of the passages beyond, which are those from its target that the start did not reach,
provided that their labels are accepted, and takes none away. -/
namespace AutomatonDump
variable {L ε : Type}

namespace Roster

open Classical in
noncomputable def passagesBeyond (r : Roster L) (n target : Number) : List (Passage L) :=
  (r.passagesFrom target).filter fun x => ¬ r.Reaches n x.source

structure Adds (r s : Roster L) (e : Number × L × Number) : Prop where
  arrows : ∀ m label n, s.Arrow m label n ↔ r.Arrow m label n ∨ (m,label,n) = e
  passages : s.passages.Perm (r.passages ++ [r.passageAt e])

section
variable {r s : Roster L} {e : Number × L × Number} {n target : Number}

theorem passagesBeyondIff {x : Passage L} :
    x ∈ r.passagesBeyond n target ↔ x ∈ r.passagesFrom target ∧ ¬ r.Reaches n x.source := by
  simp only [passagesBeyond,List.mem_filter,decide_eq_true_eq]

theorem nothingBeyond (reaches : r.Reaches n target) : r.passagesBeyond n target = [] := by
  refine List.eq_nil_iff_forall_not_mem.mpr fun x inside => ?_
  obtain ⟨listed,beyond⟩ := passagesBeyondIff.mp inside
  exact beyond (reachesTrans reaches (passagesFromIff.mp listed).2)

theorem reachesAdded (adds : r.Adds s e) {m k : Number} :
    s.Reaches m k ↔ r.Reaches m k ∨ r.Reaches m e.1 ∧ r.Reaches e.2.2 k := by
  constructor
  · rintro ⟨steps,walk⟩
    induction walk with
    | stay => exact .inl (reachesSelf r m)
    | extend _ last ih =>
      rcases (adds.arrows _ _ _).mp last with old | rfl
      · rcases ih with before | ⟨first,second⟩
        · exact .inl (reachesStep before old)
        · exact .inr ⟨first,reachesStep second old⟩
      · -- Whether or not the edge was used before, its source was reached without it.
        exact .inr ⟨ih.elim id And.left,reachesSelf r _⟩
  · have along {i j : Number} (old : r.Reaches i j) : s.Reaches i j :=
      reachesAlong (fun _ _ _ arrow => (adds.arrows _ _ _).mpr (.inl arrow)) old
    rintro (old | ⟨first,second⟩)
    · exact along old
    · have added : s.Arrow e.1 e.2.1 e.2.2 := (adds.arrows _ _ _).mpr (.inr rfl)
      exact reachesTrans (reachesStep (along first) added) (along second)

open Classical in
theorem passagesFromEither (r : Roster L) (n target : Number) :
    (r.passages.filter fun x => r.Reaches n x.source ∨ r.Reaches target x.source).Perm
      (r.passagesFrom n ++ r.passagesBeyond n target) := by
  let either := r.passages.filter fun x => r.Reaches n x.source ∨ r.Reaches target x.source
  have first : either.filter (fun x => decide (r.Reaches n x.source)) = r.passagesFrom n := by
    rw [List.filter_filter,passagesFrom]
    refine List.filter_congr fun x _ => ?_
    by_cases here : r.Reaches n x.source <;> simp [here]
  have second : either.filter (fun x => !decide (r.Reaches n x.source)) = r.passagesBeyond n target := by
    rw [List.filter_filter,passagesBeyond,passagesFrom,List.filter_filter]
    refine List.filter_congr fun x _ => ?_
    by_cases here : r.Reaches n x.source <;> simp [here]
  have split := List.filter_append_perm (fun x => decide (r.Reaches n x.source)) either
  rw [first,second] at split
  exact split.symm

theorem passagesAdded (adds : r.Adds s e) (reaches : r.Reaches n e.1) :
    (s.passagesFrom n).Perm (r.passagesFrom n ++ r.passageAt e :: r.passagesBeyond n e.2.2) := by
  classical
  have either (x : Passage L) : s.Reaches n x.source ↔ r.Reaches n x.source ∨ r.Reaches e.2.2 x.source := by
    rw [reachesAdded adds]
    exact or_congr_right (and_iff_right reaches)
  have kept := passagesChosen adds.passages either
  have here : r.Reaches n (r.passageAt e).source ∨ r.Reaches e.2.2 (r.passageAt e).source := .inl reaches
  rw [List.filter_append,List.filter_singleton,decide_eq_true here,cond_true] at kept
  refine (kept.trans ((passagesFromEither r n e.2.2).append_right _)).trans ?_
  rw [List.append_assoc]
  exact (List.perm_append_singleton _ _).append_left _

end

theorem addsConnected (os : List (Operation L)) (source : Number) (label : L) (target : Number) :
    (ofHistory os).Adds (ofHistory (os ++ [.connect source label target])) (source,label,target) := by
  have edges : edges (os ++ [.connect source label target]) = edges os ++ [(source,label,target)] := by
    simp [edges,Operation.edge?]
  have acceptance (n : Number) : lastAcceptance (os ++ [.connect source label target]) n = lastAcceptance os n :=
    acceptanceNext os _ n
  have passage : passageOf (os ++ [.connect source label target]) = passageOf os := by
    funext x
    rw [passageOf,passageOf,acceptance,acceptance]
  refine ⟨fun m l n => ?_,?_⟩
  · rw [historyArrow,historyArrow,edges,List.mem_append,List.mem_singleton]
  · have all := historyPassages (os ++ [.connect source label target])
    rw [edges,passage,List.map_append,List.map_singleton,passageOfHistory] at all
    exact all.trans ((historyPassages os).symm.append_right _)

end Roster

/- How a text has grown by an edge: the lines of both texts, told from the roster before the edge. -/
structure Grown (resolve : Resolver L ε) (r s : Roster L) (n : Number) (e : Number × L × Number)
    (t u : Text) : Prop where
  before : t = compose ((r.passagesFrom n).map resolve.line)
  after : u = compose ((s.passagesFrom n).map resolve.line)
  lines : ((s.passagesFrom n).map resolve.line).Perm ((r.passagesFrom n).map resolve.line ++
    resolve.line (r.passageAt e) :: (r.passagesBeyond n e.2.2).map resolve.line)
  single : r.Reaches n e.2.2 → ((s.passagesFrom n).map resolve.line).Perm
    ((r.passagesFrom n).map resolve.line ++ [resolve.line (r.passageAt e)])
  kept : t ≠ [] → (Text.pieces t).Subperm (Text.pieces u)

namespace Roster
variable {r s : Roster L} {e : Number × L × Number} {n : Number} {resolve : Resolver L ε}

theorem labelsAdded (adds : r.Adds s e) (reaches : r.Reaches n e.1) (holds : L → Prop) :
    (∀ x ∈ s.passagesFrom n, holds x.label) ↔
      (∀ x ∈ r.passagesFrom n, holds x.label) ∧ holds e.2.1 ∧ ∀ x ∈ r.passagesFrom e.2.2, holds x.label := by
  have added : (∀ x ∈ s.passagesFrom n, holds x.label) ↔ (∀ x ∈ r.passagesFrom n, holds x.label) ∧
      holds e.2.1 ∧ ∀ x ∈ r.passagesBeyond n e.2.2, holds x.label := by
    simp only [(passagesAdded adds reaches).mem_iff,List.forall_mem_append,List.forall_mem_cons]
    rfl
  rw [added]
  refine and_congr_right fun old => and_congr_right fun _ => ⟨fun beyond x inside => ?_,fun all x inside => ?_⟩
  · by_cases known : r.Reaches n x.source
    · exact old x (passagesFromIff.mpr ⟨(passagesFromIff.mp inside).1,known⟩)
    · exact beyond x (passagesBeyondIff.mpr ⟨inside,known⟩)
  · exact all x (passagesBeyondIff.mp inside).1

theorem linesAdded (adds : r.Adds s e) (reaches : r.Reaches n e.1) :
    Grown resolve r s n e (compose ((r.passagesFrom n).map resolve.line))
      (compose ((s.passagesFrom n).map resolve.line)) := by
  have lines := (passagesAdded adds reaches).map resolve.line
  rw [List.map_append,List.map_cons] at lines
  have grows := ((List.sublist_append_left ((r.passagesFrom n).map resolve.line) _).subperm).trans lines.symm.subperm
  refine ⟨rfl,rfl,lines,fun known => ?_,fun some => composedGrows (fun none => ?_) grows⟩
  · rwa [nothingBeyond known] at lines
  · exact some (by rw [none,composeNothing])

end Roster

theorem Construction.connectAdds (c : Construction L) (source : Number) (label : L) (target : Number) :
    c.automaton.roster.Adds (c.automaton.connect source label target).roster (source,label,target) := by
  have later := c.laterRoster [.connect source label target]
  rw [c.automatonRoster]
  exact later ▸ Roster.addsConnected c.operations source label target

theorem Automaton.outcomeGrown {a b : Automaton L} {resolve : Resolver L ε} {p : a.Place} {q : b.Place}
    {e : Number × L × Number} (left : a.WellFormed) (right : b.WellFormed) (adds : a.roster.Adds b.roster e)
    (number : b.number q = a.number p) (reaches : a.roster.Reaches (a.number p) e.1) :
    ((∃ u, (b.reportFrom resolve (some q)).outcome = .ok (some u)) ↔
      (∃ t, (a.reportFrom resolve (some p)).outcome = .ok (some t)) ∧ resolve.Accepts e.2.1 ∧
        ∀ x ∈ a.roster.passagesFrom e.2.2, resolve.Accepts x.label) ∧
    ∀ t u, (a.reportFrom resolve (some p)).outcome = .ok (some t) →
      (b.reportFrom resolve (some q)).outcome = .ok (some u) →
      Grown resolve a.roster b.roster (a.number p) e t u := by
  simp only [textShown left,textShown right,number,exists_and_left,exists_eq,and_true]
  refine ⟨Roster.labelsAdded adds reaches resolve.Accepts,?_⟩
  rintro t u ⟨_,rfl⟩ ⟨_,rfl⟩
  exact Roster.linesAdded adds reaches

/-- An added edge makes no difference if its source is not there or out of reach. Otherwise there is a
text with it exactly if there was one without it and all labels are accepted that it brings within
reach, and the text grows by its line and those of the passages beyond. -/
theorem addedEdgeShows (c : Construction L) (resolve : Resolver L ε) (source : Number) (label : L)
    (target : Number) {p : c.automaton.Place} (started : c.automaton.start? = some p) :
    let a := c.automaton
    let b := a.connect source label target
    let n := a.number p
    (source ∉ a.numbers ∨ ¬ a.roster.Reaches n source → b.report resolve = a.report resolve) ∧
    (a.roster.Reaches n source →
      ((∃ u, (b.report resolve).outcome = .ok (some u)) ↔
        (∃ t, (a.report resolve).outcome = .ok (some t)) ∧ resolve.Accepts label ∧
          ∀ x ∈ a.roster.passagesFrom target, resolve.Accepts x.label) ∧
      ∀ t u, (a.report resolve).outcome = .ok (some t) → (b.report resolve).outcome = .ok (some u) →
        Grown resolve a.roster b.roster n (source,label,target) t u) := by
  intro a b n
  have w : a.WellFormed := c.automatonWellFormed
  have starts : ∀ o ∈ [Operation.connect source label target], o.start? = none :=
    List.forall_mem_singleton.mpr rfl
  constructor
  · intro apart
    have missed : ¬ a.roster.Reaches n source :=
      apart.elim (fun missing reaches => missing (Automaton.reachedListed w reaches)) id
    exact c.laterReport starts started
      (List.forall_mem_singleton.mpr fun m changed => Option.some.inj changed ▸ missed)
  · intro reaches
    obtain ⟨q,found,number⟩ := c.laterStart starts started
    have after : b.report resolve = b.reportFrom resolve (some q) := Automaton.reportStarted found
    rw [after,Automaton.reportStarted started]
    exact Automaton.outcomeGrown w (Automaton.connectWellFormed w source label target)
      (c.connectAdds source label target) number reaches

/- The tangle with an edge to the state that was out of reach, which brings the refused label along. -/
def joined : Automaton Text := tangle.automaton.connect 4 "f".toList 5

def joinedText : Text :=
  (":s4=> NUM FLOAT-e->:s4=> NUM FLOAT\n:s4=> NUM FLOAT-f->s5\n" ++
    "d->:s4=> NUM FLOAT\ns0-a->s1\ns0-a->s1\ns1-b->s0\ns1-c\ns5-?->s0").toList

theorem joinedOutcome : (joined.report verbatim).outcome = .ok (some joinedText) :=
  Automaton.reportYields (by decide +kernel)

theorem tangleGrown : ∃ p, tangle.automaton.start? = some p ∧
    let n := tangle.automaton.number p
    let r := tangle.automaton.roster
    ¬ r.Reaches n 5 ∧
    (tangle.automaton.connect 5 "g".toList 4).report questioning = tangle.automaton.report questioning ∧
    r.Reaches n 4 ∧ (¬ ∃ u, (joined.report questioning).outcome = .ok (some u)) ∧
    (tangle.automaton.report verbatim).outcome = .ok (some tangleText) ∧
    (joined.report verbatim).outcome = .ok (some joinedText) ∧
    Grown verbatim r joined.roster n (4,"f".toList,5) tangleText joinedText := by
  have places : ∃ p, tangle.automaton.start? = some p ∧
      (∃ q, tangle.automaton.number q = 4 ∧ q ∈ tangle.automaton.visits p) ∧
      ∃ q, tangle.automaton.number q = 5 ∧ q ∉ tangle.automaton.visits p ∧
        ¬ ∀ x ∈ tangle.automaton.route q, questioning.Accepts x.label := by decide +kernel
  obtain ⟨p,started,⟨q,four,visited⟩,r,five,unvisited,refusal⟩ := places
  have w := tangle.automatonWellFormed
  have reaches := (Automaton.visitsIffReaches w).mp visited
  have missed := mt (Automaton.visitsIffReaches w).mpr unvisited
  have refused := mt (Automaton.routeForall w questioning.Accepts).mpr refusal
  rw [four] at reaches
  rw [five] at missed refused
  have away := (addedEdgeShows tangle questioning 5 "g".toList 4 started).1 (.inr missed)
  have questioned := (addedEdgeShows tangle questioning 4 "f".toList 5 started).2 reaches
  have grown := (addedEdgeShows tangle verbatim 4 "f".toList 5 started).2 reaches
  exact ⟨p,started,missed,away,reaches,fun shown => refused (questioned.1.mp shown).2.2,
    tangleOutcome,joinedOutcome,grown.2 _ _ tangleOutcome joinedOutcome⟩

end AutomatonDump
