import AutomatonDump.Proofs.Passage
import Mathlib.Data.List.Perm.Basic
/-! The traversal visits each reachable state once and no other, and so its route has the
passages from its start, each as often as there are edges for it. -/
namespace AutomatonDump
variable {L : Type}

namespace Frontier
variable {a : Automaton L} {f : Frontier a} {p : a.Place} {rest visited : List a.Place}

def Met (f : Frontier a) (visited : List a.Place) (p : a.Place) : Prop :=
  a.number p ∈ f.marked ∨ a.number p ∈ visited.map a.number

/- What the visits still to come have to do with the queue and the marks before them. Places that
wait twice, or wait although they are marked, do no harm: they are met either way. -/
structure Covers (f : Frontier a) (visited : List a.Place) : Prop where
  distinct : (visited.map a.number).Nodup
  fresh : ∀ q ∈ visited, a.number q ∉ f.marked
  reached : ∀ q ∈ visited, ∃ p ∈ f.waiting, a.roster.Reaches (a.number p) (a.number q)
  served : ∀ p ∈ f.waiting, f.Met visited p
  closed : ∀ q ∈ visited, ∀ r ∈ a.targets q, f.Met visited r

theorem coversEmpty (queue : f.waiting = []) : f.Covers [] where
  distinct := List.nodup_nil
  fresh q h := nomatch h
  reached q h := nomatch h
  served p h := by rw [queue] at h; cases h
  closed q h := nomatch h

theorem coversDrop (queue : f.waiting = p :: rest) (seen : a.number p ∈ f.marked)
    (later : (f.drop rest).Covers visited) : f.Covers visited where
  distinct := later.distinct
  fresh := later.fresh
  reached q h := by
    obtain ⟨s,waits,reaches⟩ := later.reached q h
    exact ⟨s,queue ▸ List.mem_cons_of_mem p waits,reaches⟩
  served s h := by
    rw [queue] at h
    rcases List.mem_cons.mp h with rfl | waits
    · exact .inl seen
    · exact later.served s waits
  closed := later.closed

theorem markedVisit {n : Number} (marked : n ∈ f.marked) : n ∈ (f.visit p rest).marked :=
  Std.TreeSet.mem_insert.mpr (.inr marked)

theorem markedIff (w : a.WellFormed) {q : a.Place} :
    a.number q ∈ (f.visit p rest).marked ↔ q = p ∨ a.number q ∈ f.marked := by
  rw [visit,Std.TreeSet.mem_insert,Std.compare_eq_iff_eq]
  exact or_congr_left ⟨fun number => Automaton.placeUnique w number.symm,fun equal => equal ▸ rfl⟩

theorem metVisit {s : a.Place} (met : (f.visit p rest).Met visited s) : f.Met (p :: visited) s := by
  rcases met with marked | here
  · rcases Std.TreeSet.mem_insert.mp marked with same | old
    · exact .inr (List.mem_cons.mpr (.inl (Std.compare_eq_iff_eq.mp same).symm))
    · exact .inl old
  · exact .inr (List.mem_cons_of_mem _ here)

theorem reachesTarget (w : a.WellFormed) {q : a.Place} (target : q ∈ a.targets p) :
    a.roster.Reaches (a.number p) (a.number q) := by
  obtain ⟨label,arrow⟩ := Automaton.linkArrow w target
  exact Roster.reachesStep (Roster.reachesSelf _ _) arrow

theorem coversVisit (w : a.WellFormed) (queue : f.waiting = p :: rest) (fresh : a.number p ∉ f.marked)
    (later : (f.visit p rest).Covers visited) : f.Covers (p :: visited) where
  distinct := by
    refine List.nodup_cons.mpr ⟨?_,later.distinct⟩
    intro again
    obtain ⟨q,inside,same⟩ := List.mem_map.mp again
    exact later.fresh q inside (same ▸ Std.TreeSet.mem_insert_self)
  fresh q h := by
    rcases List.mem_cons.mp h with rfl | inside
    · exact fresh
    · exact fun old => later.fresh q inside (markedVisit old)
  reached q h := by
    have first : p ∈ f.waiting := queue ▸ List.mem_cons_self
    rcases List.mem_cons.mp h with rfl | inside
    · exact ⟨q,first,Roster.reachesSelf _ _⟩
    · obtain ⟨s,waits,reaches⟩ := later.reached q inside
      rcases List.mem_append.mp waits with old | target
      · exact ⟨s,queue ▸ List.mem_cons_of_mem p old,reaches⟩
      · exact ⟨p,first,Roster.reachesTrans (reachesTarget w target) reaches⟩
  served s h := by
    rw [queue] at h
    rcases List.mem_cons.mp h with rfl | waits
    · exact .inr (List.mem_cons_self ..)
    · exact metVisit (later.served s (List.mem_append_left _ waits))
  closed q h r target := by
    rcases List.mem_cons.mp h with rfl | inside
    · exact metVisit (later.served r (List.mem_append_right _ target))
    · exact metVisit (later.closed q inside r target)

theorem runCovers (w : a.WellFormed) (f : Frontier a) : f.Covers f.run := by
  induction f using Frontier.run.induct with
  | case1 f queue => rw [runEmpty queue]; exact coversEmpty queue
  | case2 f p rest queue seen ih => rw [runDrop queue seen]; exact coversDrop queue seen ih
  | case3 f p rest queue fresh ih => rw [runVisit queue fresh]; exact coversVisit w queue fresh ih

end Frontier

namespace Automaton
variable {a : Automaton L}

theorem visitsDistinct (w : a.WellFormed) (p : a.Place) : (a.visits p).Nodup :=
  List.Nodup.of_map a.number (Frontier.runCovers w (.outset p)).distinct

theorem visitsClosed (w : a.WellFormed) {p : a.Place} {steps : Nat} {n : Number}
    (walk : a.roster.Walk (a.number p) steps n) : ∃ q ∈ a.visits p, a.number q = n := by
  have covers := Frontier.runCovers w (.outset p)
  have met (q : a.Place) (met : (Frontier.outset p).Met (a.visits p) q) :
      ∃ s ∈ a.visits p, a.number s = a.number q := by
    rcases met with none | here
    · exact absurd none Std.TreeSet.not_mem_emptyc
    · exact List.mem_map.mp here
  induction walk with
  | stay => exact met p (covers.served p List.mem_cons_self)
  | extend _ last ih =>
    obtain ⟨q,inside,rfl⟩ := ih
    obtain ⟨link,here,_,rfl⟩ := (arrowIffLink w).mp last
    exact met link.target (covers.closed q inside _ (List.mem_map.mpr ⟨link,here,rfl⟩))

theorem reachedListed (w : a.WellFormed) {p : a.Place} {n : Number} (reaches : a.roster.Reaches (a.number p) n) :
    n ∈ a.numbers := by
  obtain ⟨steps,walk⟩ := reaches
  obtain ⟨q,_,rfl⟩ := visitsClosed w walk
  rw [← rosterNumbers]
  exact List.mem_map.mpr ⟨_,placeListed q,rfl⟩

theorem visitsIffReaches (w : a.WellFormed) {p q : a.Place} :
    q ∈ a.visits p ↔ a.roster.Reaches (a.number p) (a.number q) := by
  constructor
  · intro inside
    obtain ⟨s,first,reaches⟩ := (Frontier.runCovers w (.outset p)).reached q inside
    cases List.mem_singleton.mp first
    exact reaches
  · rintro ⟨steps,walk⟩
    obtain ⟨s,inside,same⟩ := visitsClosed w walk
    exact placeUnique w same ▸ inside

open Classical in
noncomputable def reached (a : Automaton L) (p : a.Place) : List a.Place :=
  a.places.filter fun q => a.roster.Reaches (a.number p) (a.number q)

theorem reachedIff {p q : a.Place} : q ∈ a.reached p ↔ a.roster.Reaches (a.number p) (a.number q) := by
  simp only [reached,List.mem_filter,decide_eq_true_eq]
  exact and_iff_right (List.mem_finRange q)

theorem reachedDistinct (p : a.Place) : (a.reached p).Nodup := by
  unfold reached
  exact (List.nodup_finRange _).filter _

theorem visitsPerm (w : a.WellFormed) (p : a.Place) : (a.visits p).Perm (a.reached p) := by
  refine (List.perm_ext_iff_of_nodup (visitsDistinct w p) (reachedDistinct p)).mpr fun q => ?_
  rw [visitsIffReaches w,reachedIff]

theorem entriesVisited (w : a.WellFormed) {p : a.Place} {holds : Acceptance → Prop}
    (all : ∀ q ∈ a.visits p, holds (a.state q).acceptance) :
    ∀ e ∈ a.roster.entries, a.roster.Reaches (a.number p) e.number → holds e.acceptance := by
  intro e inside reaches
  rw [entriesByPlace] at inside
  obtain ⟨q,_,rfl⟩ := List.mem_map.mp inside
  exact all q ((visitsIffReaches w).mpr reaches)

theorem filterByOwner {α β : Type} {g : α → List β} {kept : β → Bool} {chosen : α → Bool}
    (owner : ∀ x, ∀ y ∈ g x, kept y = chosen x) (xs : List α) :
    (xs.flatMap g).filter kept = (xs.filter chosen).flatMap g := by
  induction xs with
  | nil => rfl
  | cons x rest ih =>
    rw [List.flatMap_cons,List.filter_append,ih]
    cases h : chosen x with
    | true =>
      have all : (g x).filter kept = g x := List.filter_eq_self.mpr fun y inside => (owner x y inside).trans h
      rw [List.filter_cons_of_pos h,List.flatMap_cons,all]
    | false =>
      have none : (g x).filter kept = [] := by
        refine List.filter_eq_nil_iff.mpr fun y inside => ?_
        rw [owner x y inside,h]
        exact Bool.false_ne_true
      rw [List.filter_cons_of_neg (by rw [h]; exact Bool.false_ne_true),none,List.nil_append]

theorem routePassages (w : a.WellFormed) (p : a.Place) :
    ((a.route p).map a.passage).Perm (a.roster.passagesFrom (a.number p)) := by
  have source (q : a.Place) : ∀ x ∈ (a.links q).map a.passage, x.source = a.number q := by
    intro x inside
    obtain ⟨link,here,rfl⟩ := List.mem_map.mp inside
    exact congrArg a.number (sourceOfLink here)
  rw [route,List.map_flatMap,Roster.passagesFrom,passagesByPlace w,
    filterByOwner fun q x inside => by rw [source q x inside]]
  exact (visitsPerm w p).flatMap_right _

theorem routeLength (w : a.WellFormed) (p : a.Place) :
    (a.route p).length = (a.roster.passagesFrom (a.number p)).length := by
  rw [← (routePassages w p).length_eq,List.length_map]

end Automaton
end AutomatonDump
