import AutomatonDump.Proofs.Traversal.Coverage
import Mathlib.Data.Nat.Find
/-! The traversal goes by distance. At any time one level waits, and behind it the next; all that
is nearer has been marked. Places that wait although they are marked may stand in either level. -/
namespace AutomatonDump
variable {L : Type}

theorem Roster.reachesMeasured {r : Roster L} {m n : Number} (reaches : r.Reaches m n) :
    ∃ steps, r.Distance m steps n := by
  classical
  exact ⟨Nat.find reaches,Nat.find_spec reaches,fun _ walk => Nat.find_min' reaches walk⟩

namespace Automaton
variable {a : Automaton L}

structure ByDistance (a : Automaton L) (start : Number) (places : List a.Place) : Prop where
  measured : ∀ q ∈ places, ∃ steps, a.roster.Distance start steps (a.number q)
  ordered : places.Pairwise fun q s => ∀ j k, a.roster.Distance start j (a.number q) →
    a.roster.Distance start k (a.number s) → j ≤ k

end Automaton

namespace Frontier
variable {a : Automaton L} {f : Frontier a} {p : a.Place} {rest now next : List a.Place}
  {start : Number} {k : Nat}

structure Levels (f : Frontier a) (start : Number) (k : Nat) (now next : List a.Place) : Prop where
  queue : f.waiting = now ++ next
  current : ∀ q ∈ now, a.roster.Walk start k (a.number q)
  following : ∀ q ∈ next, a.roster.Walk start (k + 1) (a.number q)
  nearer : ∀ q : a.Place, ∀ j < k, a.roster.Walk start j (a.number q) → a.number q ∈ f.marked
  level : ∀ q : a.Place, a.roster.Walk start k (a.number q) → a.number q ∈ f.marked ∨ q ∈ now
  closed : ∀ q, a.number q ∈ f.marked → ∀ r ∈ a.targets q, a.number r ∈ f.marked ∨ r ∈ f.waiting

theorem levelsOutset (w : a.WellFormed) (p : a.Place) : (outset p).Levels (a.number p) 0 [p] [] where
  queue := rfl
  current q h := by
    cases List.mem_singleton.mp h
    exact .stay
  following q h := nomatch h
  nearer q j h := nomatch h
  level q walk := by
    generalize same : a.number q = n at walk
    cases walk
    exact .inr (List.mem_singleton.mpr (Automaton.placeUnique w same))
  closed q h := absurd h Std.TreeSet.not_mem_emptyc

theorem levelsAdvance (w : a.WellFormed) (levels : f.Levels start k [] next) :
    f.Levels start (k + 1) next [] where
  queue := levels.queue.trans (List.append_nil _).symm
  current := levels.following
  following q h := nomatch h
  nearer q j h walk := by
    rcases Nat.lt_succ_iff_lt_or_eq.mp h with less | rfl
    · exact levels.nearer q j less walk
    · exact (levels.level q walk).resolve_right List.not_mem_nil
  level q walk := by
    generalize same : a.number q = n at walk
    cases walk with
    | extend before last =>
      subst same
      obtain ⟨s,rfl,target⟩ := Automaton.arrowLink w last
      have marked := (levels.level s before).resolve_right List.not_mem_nil
      exact (levels.closed s marked q target).imp_right fun waits => by rwa [levels.queue] at waits
  closed := levels.closed

theorem levelsFront (w : a.WellFormed) (levels : f.Levels start k now next) (queue : f.waiting = p :: rest) :
    ∃ k now next, f.Levels start k (p :: now) next := by
  cases now with
  | cons q now =>
    cases (List.cons.inj (queue.symm.trans levels.queue)).1
    exact ⟨k,now,next,levels⟩
  | nil =>
    have same : next = p :: rest := levels.queue.symm.trans queue
    exact ⟨k + 1,rest,[],same ▸ levelsAdvance w levels⟩

theorem markedOrRest {q : a.Place} (head : a.number p ∈ f.marked) (h : q ∈ p :: rest) :
    a.number q ∈ f.marked ∨ q ∈ rest := by
  rcases List.mem_cons.mp h with rfl | later
  · exact .inl head
  · exact .inr later

theorem levelsDrop (levels : f.Levels start k (p :: now) next) (queue : f.waiting = p :: rest)
    (seen : a.number p ∈ f.marked) : (f.drop rest).Levels start k now next where
  queue := (List.cons.inj (queue.symm.trans levels.queue)).2
  current q h := levels.current q (List.mem_cons_of_mem p h)
  following := levels.following
  nearer := levels.nearer
  level q walk := by
    rcases levels.level q walk with marked | inside
    · exact .inl marked
    · exact markedOrRest seen inside
  closed q marked r target := by
    rcases levels.closed q marked r target with old | waits
    · exact .inl old
    · exact markedOrRest seen (queue ▸ waits)

theorem levelsVisit (w : a.WellFormed) (levels : f.Levels start k (p :: now) next)
    (queue : f.waiting = p :: rest) : (f.visit p rest).Levels start k now (next ++ a.targets p) where
  queue := by
    have behind : rest = now ++ next := (List.cons.inj (queue.symm.trans levels.queue)).2
    rw [visit,behind,List.append_assoc]
  current q h := levels.current q (List.mem_cons_of_mem p h)
  following q h := by
    rcases List.mem_append.mp h with old | target
    · exact levels.following q old
    · obtain ⟨label,arrow⟩ := Automaton.linkArrow w target
      exact .extend (levels.current p List.mem_cons_self) arrow
  nearer q j h walk := markedVisit (levels.nearer q j h walk)
  level q walk := by
    rcases levels.level q walk with marked | inside
    · exact .inl (markedVisit marked)
    · exact markedOrRest Std.TreeSet.mem_insert_self inside
  closed q marked r target := by
    rcases (markedIff w).mp marked with rfl | old
    · exact .inr (List.mem_append_right _ target)
    · rcases levels.closed q old r target with seen | waits
      · exact .inl (markedVisit seen)
      · exact (markedOrRest Std.TreeSet.mem_insert_self (queue ▸ waits)).imp_right (List.mem_append_left _)

/- The head of the queue stands in the level of the whole rest or before it, and what is visited
later was not marked, so that it is no nearer. -/
theorem runOrdered (w : a.WellFormed) (levels : f.Levels start k now next) :
    f.run.Pairwise fun q s => ∀ j k, a.roster.Distance start j (a.number q) →
      a.roster.Distance start k (a.number s) → j ≤ k := by
  induction f using Frontier.run.induct generalizing k now next with
  | case1 f queue =>
    rw [runEmpty queue]
    exact .nil
  | case2 f p rest queue seen ih =>
    obtain ⟨k,now,next,levels⟩ := levelsFront w levels queue
    rw [runDrop queue seen]
    exact ih (levelsDrop levels queue seen)
  | case3 f p rest queue fresh ih =>
    obtain ⟨k,now,next,levels⟩ := levelsFront w levels queue
    rw [runVisit queue fresh]
    refine .cons (fun s later i j near far => ?_) (ih (levelsVisit w levels queue))
    have unmarked := (runCovers w (f.visit p rest)).fresh s later
    have reached : i ≤ k := near.2 k (levels.current p List.mem_cons_self)
    refine Nat.le_trans reached (Nat.le_of_not_lt fun nearer => unmarked ?_)
    exact markedVisit (levels.nearer s j nearer far.1)

end Frontier

theorem Automaton.visitsByDistance {a : Automaton L} (w : a.WellFormed) (p : a.Place) :
    a.ByDistance (a.number p) (a.visits p) where
  measured _ h := Roster.reachesMeasured ((visitsIffReaches w).mp h)
  ordered := Frontier.runOrdered w (Frontier.levelsOutset w p)

end AutomatonDump
