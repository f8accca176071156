import AutomatonDump.Automaton.Basic
import Std.Data.TreeSet
/-! The traversal behind a dump: first in, first out, along the edges in their order. A place
may wait several times. At its first turn its number is marked and its targets join the end of
the queue; its later turns are dropped. Each place met leaves what remains and takes along all that
hangs on it, which is why a traversal ends. -/
namespace AutomatonDump
variable {L : Type}

namespace Automaton

def remaining (a : Automaton L) (met : a.Place → Prop) [DecidablePred met] : List a.Place :=
  a.places.filter fun p => ¬ met p

private theorem filterShrinks {α β : Type} (f : α → List β) {before after : α → Bool} {xs : List α} {x : α}
    (less : ∀ y, after y = true → before y = true) (inside : x ∈ xs)
    (was : before x = true) (gone : after x = false) :
    ((xs.filter after).flatMap f).length + (f x).length ≤ ((xs.filter before).flatMap f).length := by
  have all : ∀ ys : List α,
      ((ys.filter after).flatMap f).length ≤ ((ys.filter before).flatMap f).length := by
    intro ys
    induction ys with
    | nil => exact Nat.le_refl _
    | cons y rest ih =>
      cases h : after y with
      | true =>
        rw [List.filter_cons_of_pos h,List.filter_cons_of_pos (less y h),List.flatMap_cons,
          List.flatMap_cons,List.length_append,List.length_append]
        exact Nat.add_le_add_left ih _
      | false =>
        rw [List.filter_cons_of_neg (by simp [h]),List.filter_cons]
        split
        · rw [List.flatMap_cons,List.length_append]; omega
        · exact ih
  induction xs with
  | nil => cases inside
  | cons y rest ih =>
    rcases List.mem_cons.mp inside with rfl | deeper
    · have tail := all rest
      rw [List.filter_cons_of_neg (by simp [gone]),List.filter_cons_of_pos was,List.flatMap_cons,
        List.length_append]
      omega
    · have tail := ih deeper
      cases h : after y with
      | true =>
        rw [List.filter_cons_of_pos h,List.filter_cons_of_pos (less y h),List.flatMap_cons,
          List.flatMap_cons,List.length_append,List.length_append]
        omega
      | false =>
        rw [List.filter_cons_of_neg (by simp [h]),List.filter_cons]
        split
        · rw [List.flatMap_cons,List.length_append]; omega
        · exact tail

theorem remainingShrinks {β : Type} {a : Automaton L} (f : a.Place → List β)
    {before after : a.Place → Prop} [DecidablePred before] [DecidablePred after]
    (kept : ∀ q, before q → after q) {p : a.Place} (fresh : ¬ before p) (met : after p) :
    ((a.remaining after).flatMap f).length + (f p).length ≤ ((a.remaining before).flatMap f).length :=
  filterShrinks f (fun q h => decide_eq_true fun seen => of_decide_eq_true h (kept q seen))
    (List.mem_finRange p) (decide_eq_true fresh) (decide_eq_false fun out => out met)

end Automaton

structure Frontier (a : Automaton L) where
  waiting : List a.Place
  marked : Std.TreeSet Number

namespace Frontier
variable {a : Automaton L}

def outset (p : a.Place) : Frontier a := ⟨[p],∅⟩

def drop (f : Frontier a) (rest : List a.Place) : Frontier a := {f with waiting := rest}

def visit (f : Frontier a) (p : a.Place) (rest : List a.Place) : Frontier a :=
  ⟨rest ++ a.targets p,f.marked.insert (a.number p)⟩

def edgesLeft (a : Automaton L) (marked : Std.TreeSet Number) : Nat :=
  ((a.remaining fun p => a.number p ∈ marked).flatMap a.targets).length

def turns (f : Frontier a) : Nat := f.waiting.length + edgesLeft a f.marked

theorem edgesLeftInsert {marked : Std.TreeSet Number} {p : a.Place} (fresh : a.number p ∉ marked) :
    edgesLeft a (marked.insert (a.number p)) + (a.targets p).length ≤ edgesLeft a marked :=
  Automaton.remainingShrinks a.targets (fun _ seen => Std.TreeSet.mem_insert.mpr (.inr seen)) fresh
    Std.TreeSet.mem_insert_self

theorem dropTurns {f : Frontier a} {p : a.Place} {rest : List a.Place} (queue : f.waiting = p :: rest) :
    (f.drop rest).turns < f.turns := by
  have same : (f.drop rest).turns = rest.length + edgesLeft a f.marked := rfl
  rw [same,turns,queue,List.length_cons]
  omega

theorem visitTurns {f : Frontier a} {p : a.Place} {rest : List a.Place} (queue : f.waiting = p :: rest)
    (fresh : a.number p ∉ f.marked) : (f.visit p rest).turns < f.turns := by
  have edges := edgesLeftInsert fresh
  have same : (f.visit p rest).turns =
      (rest ++ a.targets p).length + edgesLeft a (f.marked.insert (a.number p)) := rfl
  rw [same,turns,queue,List.length_cons,List.length_append]
  omega

def run (f : Frontier a) : List a.Place :=
  match _queue : f.waiting with
  | [] => []
  | p :: rest => if _seen : a.number p ∈ f.marked then (f.drop rest).run else p :: (f.visit p rest).run
termination_by f.turns
decreasing_by
  · exact dropTurns _queue
  · exact visitTurns _queue _seen

theorem runEmpty {f : Frontier a} (queue : f.waiting = []) : f.run = [] := by
  rw [run]
  split
  · rfl
  · simp_all

theorem runDrop {f : Frontier a} {p : a.Place} {rest : List a.Place} (queue : f.waiting = p :: rest)
    (seen : a.number p ∈ f.marked) : f.run = (f.drop rest).run := by
  rw [run]
  split
  · simp_all
  · rename_i q later same
    obtain ⟨rfl,rfl⟩ := List.cons.inj (queue.symm.trans same)
    rw [dif_pos seen]

theorem runVisit {f : Frontier a} {p : a.Place} {rest : List a.Place} (queue : f.waiting = p :: rest)
    (fresh : a.number p ∉ f.marked) : f.run = p :: (f.visit p rest).run := by
  rw [run]
  split
  · simp_all
  · rename_i q later same
    obtain ⟨rfl,rfl⟩ := List.cons.inj (queue.symm.trans same)
    rw [dif_neg fresh]

end Frontier

namespace Automaton

def visits (a : Automaton L) (p : a.Place) : List a.Place := (Frontier.outset p).run

def route (a : Automaton L) (p : a.Place) : List a.Link := (a.visits p).flatMap a.links

end Automaton
end AutomatonDump
