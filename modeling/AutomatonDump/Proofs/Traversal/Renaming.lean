import AutomatonDump.Proofs.Traversal.Coverage
import Mathlib.Logic.Function.Basic
/-! Traversals of two automata of which one holds what can be reached in the other, under other
numbers perhaps and at other positions. They go the same way, since numbers only serve to tell states
apart. -/
namespace AutomatonDump
variable {L : Type}

namespace Roster

def arrowsFrom (r : Roster L) (m : Number) : List (Number × L × Number) :=
  ((r.entry? m).map Entry.edges).elim [] fun edges => edges.map fun x => (m,x)

structure Renames (ρ : Number → Number) (r s : Roster L) (n : Number) : Prop where
  injective : Function.Injective ρ
  edges : ∀ m, r.Reaches n m → (s.entry? (ρ m)).map Entry.edges =
    (r.entry? m).map fun e => e.edges.map fun x => (x.1,ρ x.2)

end Roster

namespace Automaton
variable {a b : Automaton L} {ρ : Number → Number} {n : Number}

def arrow (a : Automaton L) (link : a.Link) : Number × L × Number :=
  (a.number link.source,link.label,a.number link.target)

theorem linksArrows (w : a.WellFormed) (p : a.Place) :
    (a.links p).map a.arrow = a.roster.arrowsFrom (a.number p) := by
  rw [Roster.arrowsFrom,entryOfPlace w,Option.map_some,Option.elim_some,edgesByPlace,List.map_map]
  apply List.map_congr_left
  intro link inside
  simp only [arrow,sourceOfLink inside]
  rfl

theorem routeArrows (w : a.WellFormed) (p : a.Place) :
    (a.route p).map a.arrow = ((a.visits p).map a.number).flatMap a.roster.arrowsFrom := by
  rw [route,List.map_flatMap,List.flatMap_map]
  exact List.flatMap_congr fun q _ => linksArrows w q

theorem targetsRenamed (left : a.WellFormed) (right : b.WellFormed) (same : a.roster.Renames ρ b.roster n)
    {p : a.Place} {q : b.Place} (reaches : a.roster.Reaches n (a.number p)) (number : b.number q = ρ (a.number p)) :
    (b.targets q).map b.number = (a.targets p).map (ρ ∘ a.number) := by
  have edges := same.edges (a.number p) reaches
  rw [← number,entryOfPlace left,entryOfPlace right,Option.map_some,Option.map_some,edgesByPlace,edgesByPlace] at edges
  have ends := congrArg (List.map Prod.snd) (Option.some.inj edges)
  simpa [targets,Function.comp_def] using ends

end Automaton
namespace Frontier
variable {a b : Automaton L} {ρ : Number → Number} {n : Number} {f : Frontier a} {g : Frontier b}
  {p : a.Place} {rest : List a.Place}

structure Mirrors (ρ : Number → Number) (n : Number) (f : Frontier a) (g : Frontier b) : Prop where
  waiting : g.waiting.map b.number = f.waiting.map (ρ ∘ a.number)
  marked : ∀ m, ρ m ∈ g.marked ↔ m ∈ f.marked
  reached : ∀ q ∈ f.waiting, a.roster.Reaches n (a.number q)

theorem mirrorsHead (mirrors : f.Mirrors ρ n g) (queue : f.waiting = p :: rest) :
    ∃ q later, g.waiting = q :: later ∧ b.number q = ρ (a.number p) ∧
      later.map b.number = rest.map (ρ ∘ a.number) := by
  have waiting := mirrors.waiting
  rw [queue,List.map_cons] at waiting
  obtain ⟨q,later,queue',number,numbers⟩ := List.map_eq_cons_iff.mp waiting
  exact ⟨q,later,queue',number,numbers⟩

theorem mirrorsDrop (mirrors : f.Mirrors ρ n g) (queue : f.waiting = p :: rest) {later : List b.Place}
    (numbers : later.map b.number = rest.map (ρ ∘ a.number)) : (f.drop rest).Mirrors ρ n (g.drop later) where
  waiting := numbers
  marked := mirrors.marked
  reached q inside := mirrors.reached q (queue ▸ List.mem_cons_of_mem p inside)

theorem mirrorsVisit (left : a.WellFormed) (right : b.WellFormed) (same : a.roster.Renames ρ b.roster n)
    (mirrors : f.Mirrors ρ n g) (queue : f.waiting = p :: rest) {q : b.Place} {later : List b.Place}
    (number : b.number q = ρ (a.number p)) (numbers : later.map b.number = rest.map (ρ ∘ a.number)) :
    (f.visit p rest).Mirrors ρ n (g.visit q later) where
  waiting := by
    have reaches := mirrors.reached p (queue ▸ List.mem_cons_self)
    rw [visit,visit,List.map_append,List.map_append,numbers,
      Automaton.targetsRenamed left right same reaches number]
  marked m := by
    rw [visit,visit,Std.TreeSet.mem_insert,Std.TreeSet.mem_insert,Std.compare_eq_iff_eq,Std.compare_eq_iff_eq,
      number,same.injective.eq_iff,mirrors.marked]
  reached r inside := by
    rcases List.mem_append.mp inside with old | target
    · exact mirrors.reached r (queue ▸ List.mem_cons_of_mem p old)
    · exact Roster.reachesTrans (mirrors.reached p (queue ▸ List.mem_cons_self)) (reachesTarget left target)

theorem mirrorsRun (left : a.WellFormed) (right : b.WellFormed) (same : a.roster.Renames ρ b.roster n)
    (mirrors : f.Mirrors ρ n g) : g.run.map b.number = f.run.map (ρ ∘ a.number) := by
  induction f using Frontier.run.induct generalizing g with
  | case1 f queue =>
    have queue' : g.waiting = [] := List.map_eq_nil_iff.mp (mirrors.waiting.trans (by rw [queue]; rfl))
    rw [runEmpty queue,runEmpty queue']
    rfl
  | case2 f p rest queue seen ih =>
    obtain ⟨q,later,queue',number,numbers⟩ := mirrorsHead mirrors queue
    have seen' : b.number q ∈ g.marked := number ▸ (mirrors.marked _).mpr seen
    rw [runDrop queue seen,runDrop queue' seen',ih (mirrorsDrop mirrors queue numbers)]
  | case3 f p rest queue fresh ih =>
    obtain ⟨q,later,queue',number,numbers⟩ := mirrorsHead mirrors queue
    have fresh' : b.number q ∉ g.marked := fun seen => fresh ((mirrors.marked _).mp (number ▸ seen))
    rw [runVisit queue fresh,runVisit queue' fresh',List.map_cons,List.map_cons,number,
      ih (mirrorsVisit left right same mirrors queue number numbers)]
    rfl

theorem mirrorsOutset {p : a.Place} {q : b.Place} (number : b.number q = ρ (a.number p)) :
    (outset p).Mirrors ρ (a.number p) (outset q) where
  waiting := by simpa [outset] using number
  marked m := iff_of_false Std.TreeSet.not_mem_emptyc Std.TreeSet.not_mem_emptyc
  reached r inside := List.mem_singleton.mp inside ▸ Roster.reachesSelf _ _

end Frontier

namespace Automaton
variable {a b : Automaton L} {ρ : Number → Number} {p : a.Place} {q : b.Place}

theorem visitsRenamed (left : a.WellFormed) (right : b.WellFormed) (same : a.roster.Renames ρ b.roster (a.number p))
    (number : b.number q = ρ (a.number p)) : (b.visits q).map b.number = (a.visits p).map (ρ ∘ a.number) :=
  Frontier.mirrorsRun left right same (Frontier.mirrorsOutset number)

theorem routeRenamed (left : a.WellFormed) (right : b.WellFormed) (same : a.roster.Renames ρ b.roster (a.number p))
    (number : b.number q = ρ (a.number p)) :
    (b.route q).map b.arrow = ((a.route p).map a.arrow).map fun x => (ρ x.1,x.2.1,ρ x.2.2) := by
  rw [routeArrows left,routeArrows right,visitsRenamed left right same number,List.map_flatMap,List.flatMap_map,
    List.flatMap_map]
  refine List.flatMap_congr fun r visited => ?_
  have edges := same.edges _ ((visitsIffReaches left).mp visited)
  rw [Roster.arrowsFrom,Roster.arrowsFrom,Function.comp_apply,edges]
  cases a.roster.entry? (a.number r) with
  | none => rfl
  | some e => simp [Function.comp_def]

end Automaton
end AutomatonDump
