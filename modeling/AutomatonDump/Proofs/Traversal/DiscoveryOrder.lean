import AutomatonDump.Proofs.Traversal.Coverage
/-! The traversal visits places in the order in which they are discovered. Breadth-first search is
usually told otherwise: a place is marked when it is discovered, joins the queue then, and never joins
it again. The queue of the traversal may hold places that are marked or that wait elsewhere too; without
these it is the queue of that search. -/
namespace AutomatonDump
variable {L : Type}

structure Discovery (a : Automaton L) where
  queue : List a.Place
  marked : List a.Place

namespace Discovery
variable {a : Automaton L} {d : Discovery a}

def outset (p : a.Place) : Discovery a := ⟨[p],[p]⟩

def discover (d : Discovery a) (q : a.Place) : Discovery a :=
  if q ∈ d.marked then d else ⟨d.queue ++ [q],d.marked ++ [q]⟩

def expand (d : Discovery a) (p : a.Place) (rest : List a.Place) : Discovery a :=
  (a.targets p).foldl discover ⟨rest,d.marked⟩

def undiscovered (a : Automaton L) (marked : List a.Place) : Nat :=
  (a.remaining fun p => p ∈ marked).length

def work (d : Discovery a) : Nat := d.queue.length + undiscovered a d.marked

theorem undiscoveredMark {marked : List a.Place} {q : a.Place} (fresh : q ∉ marked) :
    undiscovered a (marked ++ [q]) + 1 ≤ undiscovered a marked := by
  have places : ((a.remaining fun p => p ∈ marked ++ [q]).flatMap fun p => [p]).length + 1 ≤
      ((a.remaining fun p => p ∈ marked).flatMap fun p => [p]).length :=
    Automaton.remainingShrinks _ (fun _ seen => List.mem_append_left _ seen) fresh (by simp)
  simpa [undiscovered] using places

theorem discoverWork (d : Discovery a) (q : a.Place) : (d.discover q).work ≤ d.work := by
  unfold discover
  split
  · exact Nat.le_refl _
  · have places := undiscoveredMark ‹_›
    simp only [work,List.length_append,List.length_singleton]
    omega

theorem discoverAllWork (d : Discovery a) (qs : List a.Place) : (qs.foldl discover d).work ≤ d.work := by
  induction qs generalizing d with
  | nil => exact Nat.le_refl _
  | cons q rest ih => exact Nat.le_trans (ih (d.discover q)) (discoverWork d q)

def run (d : Discovery a) : List a.Place :=
  match _queue : d.queue with
  | [] => []
  | p :: rest => p :: (d.expand p rest).run
termination_by d.work
decreasing_by
  refine Nat.lt_of_le_of_lt (discoverAllWork _ _) ?_
  simp only [work,_queue,List.length_cons]
  omega

theorem runEmpty (queue : d.queue = []) : d.run = [] := by
  rw [run]
  split
  · rfl
  · simp_all

theorem runNext {p : a.Place} {rest : List a.Place} (queue : d.queue = p :: rest) :
    d.run = p :: (d.expand p rest).run := by
  rw [run]
  split
  · simp_all
  · rename_i q later same
    obtain ⟨rfl,rfl⟩ := List.cons.inj (queue.symm.trans same)
    rfl

end Discovery

def Automaton.discoveries (a : Automaton L) (p : a.Place) : List a.Place := (Discovery.outset p).run

namespace Frontier
variable {a : Automaton L} {f : Frontier a} {d : Discovery a} {p : a.Place} {rest : List a.Place}

def pending (f : Frontier a) : List a.Place := (f.waiting.filter fun q => a.number q ∉ f.marked).eraseDups

/- A search that has come as far as the traversal: what it has discovered has been visited or waits. -/
structure Matches (f : Frontier a) (d : Discovery a) : Prop where
  queue : d.queue = f.pending
  marked : ∀ q, q ∈ d.marked ↔ a.number q ∈ f.marked ∨ q ∈ f.waiting

def queued (f : Frontier a) (qs : List a.Place) : Frontier a := {f with waiting := f.waiting ++ qs}

theorem pendingQueued (f : Frontier a) (q : a.Place) : (f.queued [q]).pending =
    if a.number q ∈ f.marked ∨ q ∈ f.waiting then f.pending else f.pending ++ [q] := by
  have apart : (f.queued [q]).pending = ((f.waiting.filter fun r => a.number r ∉ f.marked) ++
      [q].filter fun r => a.number r ∉ f.marked).eraseDups := by rw [pending,queued,List.filter_append]
  rw [apart]
  by_cases seen : a.number q ∈ f.marked
  · rw [if_pos (.inl seen),List.filter_cons_of_neg (by simpa using seen),List.filter_nil,List.append_nil]
    rfl
  · have waits : q ∈ (f.waiting.filter fun r => a.number r ∉ f.marked) ↔
        a.number q ∈ f.marked ∨ q ∈ f.waiting := by simp [seen]
    rw [List.filter_cons_of_pos (by simpa using seen),List.filter_nil,Roster.firstArrivals]
    exact if_congr waits rfl rfl

theorem matchesQueued (same : f.Matches d) (q : a.Place) : (f.queued [q]).Matches (d.discover q) := by
  unfold Discovery.discover
  by_cases known : q ∈ d.marked
  · rw [if_pos known]
    refine ⟨?_,fun r => ?_⟩
    · rw [pendingQueued,if_pos ((same.marked q).mp known)]
      exact same.queue
    · rw [same.marked,queued,List.mem_append,List.mem_singleton]
      constructor
      · exact fun met => met.imp id .inl
      · rintro (marked | waits | rfl)
        · exact .inl marked
        · exact .inr waits
        · exact (same.marked r).mp known
  · rw [if_neg known]
    refine ⟨?_,fun r => ?_⟩
    · rw [pendingQueued,if_neg fun met => known ((same.marked q).mpr met)]
      exact congrArg (· ++ [q]) same.queue
    · rw [List.mem_append,same.marked,queued,List.mem_append]
      exact or_assoc

theorem matchesQueuedAll (same : f.Matches d) (qs : List a.Place) :
    (f.queued qs).Matches (qs.foldl Discovery.discover d) := by
  induction qs generalizing f d with
  | nil => rwa [queued,List.append_nil]
  | cons q rest ih =>
    have next := ih (matchesQueued same q)
    rwa [queued,queued,List.append_assoc] at next

theorem matchesDrop (queue : f.waiting = p :: rest) (seen : a.number p ∈ f.marked) (same : f.Matches d) :
    (f.drop rest).Matches d where
  queue := by
    rw [same.queue,pending,pending,queue,List.filter_cons_of_neg (by simpa using seen)]
    rfl
  marked q := by
    rw [same.marked,queue,List.mem_cons]
    constructor
    · rintro (marked | rfl | waits)
      · exact .inl marked
      · exact .inl seen
      · exact .inr waits
    · exact fun met => met.imp id .inr

theorem matchesVisit (w : a.WellFormed) (queue : f.waiting = p :: rest) (fresh : a.number p ∉ f.marked)
    (same : f.Matches d) : ∃ later, d.queue = p :: later ∧ (f.visit p rest).Matches (d.expand p later) := by
  -- The visit up to the moment when the targets join the queue.
  let left : Frontier a := ⟨rest,(f.visit p rest).marked⟩
  have first : f.pending = p :: left.pending := by
    rw [pending,queue,List.filter_cons_of_pos (by simpa using fresh),List.eraseDups_cons,List.filter_filter]
    congr 2
    apply List.filter_congr
    intro q _
    by_cases here : q = p <;> simp [left,markedIff w,here]
  have matched : left.Matches ⟨left.pending,d.marked⟩ := by
    refine ⟨rfl,fun q => ?_⟩
    rw [same.marked,queue,List.mem_cons,markedIff w,or_left_comm]
    exact or_assoc.symm
  exact ⟨left.pending,same.queue.trans first,matchesQueuedAll matched (a.targets p)⟩

theorem matchesRun (w : a.WellFormed) (same : f.Matches d) : f.run = d.run := by
  induction f using Frontier.run.induct generalizing d with
  | case1 f queue =>
    rw [runEmpty queue,Discovery.runEmpty]
    rw [same.queue,pending,queue]
    rfl
  | case2 f p rest queue seen ih => rw [runDrop queue seen,ih (matchesDrop queue seen same)]
  | case3 f p rest queue fresh ih =>
    obtain ⟨later,next,matched⟩ := matchesVisit w queue fresh same
    rw [runVisit queue fresh,Discovery.runNext next,ih matched]

theorem matchesOutset (p : a.Place) : (outset p).Matches (.outset p) where
  queue := by simp [Discovery.outset,pending,outset,List.eraseDups_cons]
  marked q := by simp [Discovery.outset,outset]

end Frontier

theorem Automaton.visitsDiscoveries {a : Automaton L} (w : a.WellFormed) (p : a.Place) :
    a.visits p = a.discoveries p := Frontier.matchesRun w (Frontier.matchesOutset p)

end AutomatonDump
