import AutomatonDump.Proofs.Dump.Route
import AutomatonDump.Proofs.Passage
/-! The course of a dump, turn by turn, and the report it comes to. A place taken from the queue
is dropped if it is marked. Otherwise it is marked, and then all its labels are accepted or the dump
ends at the first that is refused. The places marked are those of the traversal, as far as it gets. -/
namespace AutomatonDump
variable {L ε : Type}

inductive Turn (a : Automaton L) where
  | dropped (p : a.Place)
  | visited (p : a.Place)
  | refused (link : a.Link)

namespace Turn
variable {a : Automaton L}

def marked? : Turn a → Option a.Place
  | .dropped _ => none
  | .visited p => some p
  | .refused link => some link.source

def marks (turns : List (Turn a)) : List a.Place := turns.filterMap marked?

theorem marksDropped (p : a.Place) (turns : List (Turn a)) : marks (.dropped p :: turns) = marks turns := rfl

theorem marksVisited (p : a.Place) (turns : List (Turn a)) :
    marks (.visited p :: turns) = p :: marks turns := rfl

theorem marksRefused (turns : List (Turn a)) (link : a.Link) :
    marks (turns ++ [.refused link]) = marks turns ++ [link.source] := List.filterMap_append

end Turn

namespace Automaton
variable {a : Automaton L} {resolve : Resolver L ε} {xs : List a.Link}

theorem acceptedLinks {lines : List Text} (accepted : (a.transcribe resolve xs).lines = .ok lines) :
    ∀ x ∈ xs, resolve.Accepts x.label := by
  rcases resolve.firstRefusal Link.label xs with all | ⟨before,x,after,e,rfl,accepts,error⟩
  · exact all
  · rw [transcribeRefused accepts error] at accepted
    cases accepted

theorem refusedLink {e : ε} (refused : (a.transcribe resolve xs).lines = .error e) :
    ∃ before x after, xs = before ++ x :: after ∧ (∀ y ∈ before, resolve.Accepts y.label) ∧
      resolve x.label = .error e := by
  rcases resolve.firstRefusal Link.label xs with all | ⟨before,x,after,e',rfl,accepts,error⟩
  · rw [transcribeAccepted all] at refused
    cases refused
  · rw [transcribeRefused accepts error] at refused
    cases refused
    exact ⟨before,x,after,rfl,accepts,error⟩

end Automaton

namespace Progress
variable {a : Automaton L}

inductive Course (resolve : Resolver L ε) : Progress a → List (Turn a) → Report L ε → Prop where
  | finish {w : Progress a} (queue : w.frontier.waiting = []) : Course resolve w [] w.finish
  | drop {w : Progress a} {p rest turns r} (queue : w.frontier.waiting = p :: rest)
      (seen : a.number p ∈ w.frontier.marked) (later : Course resolve (w.drop rest) turns r) :
      Course resolve w (.dropped p :: turns) r
  | visit {w : Progress a} {p rest turns r} (queue : w.frontier.waiting = p :: rest)
      (fresh : a.number p ∉ w.frontier.marked) (accepts : ∀ x ∈ a.links p, resolve.Accepts x.label)
      (later : Course resolve (w.visit p rest ((a.links p).map Automaton.Link.label)
        ((a.links p).map fun x => a.line x (resolve.text x.label))) turns r) :
      Course resolve w (.visited p :: turns) r
  | refuse {w : Progress a} {rest before x after e} (queue : w.frontier.waiting = x.source :: rest)
      (fresh : a.number x.source ∉ w.frontier.marked) (place : a.links x.source = before ++ x :: after)
      (accepts : ∀ y ∈ before, resolve.Accepts y.label) (error : resolve x.label = .error e) :
      Course resolve w [.refused x] (w.refuse ((before ++ [x]).map Automaton.Link.label) e)

variable {resolve : Resolver L ε} {w : Progress a} {turns : List (Turn a)} {r : Report L ε}

theorem runCourse (resolve : Resolver L ε) (w : Progress a) : ∃ turns, Course resolve w turns (w.run resolve) := by
  induction w using Progress.run.induct resolve with
  | case1 w queue =>
    rw [runFinish queue]
    exact ⟨[],.finish queue⟩
  | case2 w p rest queue seen ih =>
    obtain ⟨turns,later⟩ := ih
    exact ⟨.dropped p :: turns,.drop queue seen (runDrop queue seen ▸ later)⟩
  | case3 w p rest queue fresh part e refused =>
    obtain ⟨before,x,after,place,accepts,error⟩ := Automaton.refusedLink refused
    have inside : x ∈ a.links p := place ▸ List.mem_append_right _ List.mem_cons_self
    cases Automaton.sourceOfLink inside
    refine ⟨[.refused x],?_⟩
    rw [runRefuse queue fresh refused,place,Automaton.transcribeRefused accepts error]
    exact .refuse queue fresh place accepts error
  | case4 w p rest queue fresh part lines accepted ih =>
    have accepts := Automaton.acceptedLinks accepted
    obtain ⟨turns,later⟩ := ih
    refine ⟨.visited p :: turns,.visit queue fresh accepts ?_⟩
    rw [runVisit queue fresh accepted]
    simp only [part,Automaton.transcribeAccepted accepts] at accepted later ⊢
    cases accepted
    exact later

theorem courseComplete (course : Course resolve w turns r) {t : Option Text} (shown : r.outcome = .ok t) :
    Turn.marks turns = w.frontier.run := by
  induction course with
  | finish queue => exact (Frontier.runEmpty queue).symm
  | drop queue seen _ ih => rw [Turn.marksDropped,ih shown,Frontier.runDrop queue seen]; rfl
  | visit queue fresh _ _ ih => rw [Turn.marksVisited,ih shown,Frontier.runVisit queue fresh]; rfl
  | refuse => cases shown

theorem courseBroken (course : Course resolve w turns r) {e : ε} (failed : r.outcome = .error e) :
    ∃ before x later, turns = before ++ [.refused x] ∧ x ∈ a.links x.source ∧ resolve x.label = .error e ∧
      r.asked.getLast? = some x.label ∧ w.frontier.run = Turn.marks before ++ x.source :: later ∧
      ∀ q ∈ Turn.marks before, ∀ y ∈ a.links q, resolve.Accepts y.label := by
  induction course with
  | finish => cases failed
  | drop queue seen _ ih =>
    obtain ⟨before,x,later,rfl,inside,error,last,run,accepted⟩ := ih failed
    exact ⟨.dropped _ :: before,x,later,rfl,inside,error,last,(Frontier.runDrop queue seen).trans run,accepted⟩
  | visit queue fresh accepts _ ih =>
    obtain ⟨before,x,later,rfl,inside,error,last,run,accepted⟩ := ih failed
    refine ⟨.visited _ :: before,x,later,rfl,inside,error,last,?_,?_⟩
    · exact (Frontier.runVisit queue fresh).trans (congrArg (_ :: ·) run)
    · exact List.forall_mem_cons.mpr ⟨accepts,accepted⟩
  | refuse queue fresh place accepts error =>
    cases failed
    refine ⟨[],_,_,rfl,?_,error,?_,Frontier.runVisit queue fresh,List.forall_mem_nil _⟩
    · exact place ▸ List.mem_append_right _ List.mem_cons_self
    · simp [refuse]

theorem courseBegins (course : Course resolve w turns r) : ∃ later, w.frontier.run = Turn.marks turns ++ later := by
  cases shown : r.outcome with
  | ok t => exact ⟨[],by rw [courseComplete course shown,List.append_nil]⟩
  | error e =>
    obtain ⟨before,x,later,rfl,_,_,_,run,_⟩ := courseBroken course shown
    exact ⟨later,by rw [Turn.marksRefused,List.append_assoc]; exact run⟩

end Progress
end AutomatonDump
