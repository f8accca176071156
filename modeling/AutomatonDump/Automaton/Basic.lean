import AutomatonDump.Text.Basic
import Std.Data.TreeMap
/-! Automata as a sequence of states in the order of their creation, and the four ways to change
one. An edge refers to its target by position in that sequence; `positions` finds the position of
a numbered state. A number identifies a state within one automaton and has no further meaning. -/
namespace AutomatonDump

inductive Acceptance where
  | nothing
  | rules (names : List Text)
  | alternative (index : Int32)
  deriving DecidableEq, Repr

namespace Acceptance

instance : Inhabited Acceptance := ⟨.nothing⟩

def accepts : Acceptance → Bool
  | .nothing => false
  | .rules _ => true
  | .alternative _ => true

theorem acceptsIff (a : Acceptance) : a.accepts = true ↔ a ≠ default := by
  cases a <;> simp [accepts,default]

end Acceptance

abbrev Number := UInt32

structure Edge (L : Type) where
  label : L
  target : Nat
  deriving DecidableEq, Repr

structure State (L : Type) where
  number : Number
  acceptance : Acceptance
  edges : Array (Edge L)
  deriving DecidableEq, Repr

structure Automaton (L : Type) where
  states : Array (State L)
  positions : Std.TreeMap Number Nat
  start : Option Nat

namespace Automaton
variable {L : Type}

def empty : Automaton L := ⟨#[],∅,none⟩
instance : Inhabited (Automaton L) := ⟨empty⟩

def size (a : Automaton L) : Nat := a.states.size
def isEmpty (a : Automaton L) : Bool := a.states.isEmpty
def numbers (a : Automaton L) : List Number := a.states.toList.map State.number

/- Places are the positions that are occupied. Following an edge leads from place to place, so
no state is ever looked for in vain. -/
abbrev Place (a : Automaton L) := Fin a.states.size

def state (a : Automaton L) (p : a.Place) : State L := a.states[p]
def number (a : Automaton L) (p : a.Place) : Number := (a.state p).number
def places (a : Automaton L) : List a.Place := List.finRange a.states.size

def place? (a : Automaton L) (i : Nat) : Option a.Place :=
  if h : i < a.states.size then some ⟨i,h⟩ else none

def slot (a : Automaton L) (n : Number) : Nat := a.positions.getD n a.states.size

def find? (a : Automaton L) (n : Number) : Option a.Place := a.place? (a.slot n)
def start? (a : Automaton L) : Option a.Place := a.start.bind a.place?
def state? (a : Automaton L) (n : Number) : Option (State L) := (a.find? n).map a.state

structure Link (a : Automaton L) where
  source : a.Place
  label : L
  target : a.Place

def links (a : Automaton L) (p : a.Place) : List a.Link :=
  (a.state p).edges.toList.filterMap fun e => (a.place? e.target).map fun q => ⟨p,e.label,q⟩

def targets (a : Automaton L) (p : a.Place) : List a.Place := (a.links p).map Link.target

def trail (a : Automaton L) : Option a.Place → List Nat → List (Option a.Place)
  | p, [] => [p]
  | p, i :: rest => p :: a.trail (p.bind fun q => (a.links q)[i]?.map Link.target) rest

def append (a : Automaton L) (n : Number) (acceptance : Acceptance) : Automaton L :=
  let positions := a.positions.insert n a.states.size
  {a with states := a.states.push ⟨n,acceptance,#[]⟩,positions}

def ensure (a : Automaton L) (n : Number) : Automaton L :=
  if n ∈ a.positions then a else a.append n .nothing

def modify (a : Automaton L) (n : Number) (change : State L → State L) : Automaton L :=
  {a with states := a.states.modify (a.slot n) change}

def declare (a : Automaton L) (n : Number) (acceptance : Acceptance) : Automaton L :=
  if n ∈ a.positions then a.modify n fun s => {s with acceptance := acceptance}
  else a.append n acceptance

/- Adds an edge. A missing target is created before a missing source. -/
def connect (a : Automaton L) (source : Number) (label : L) (target : Number) : Automaton L :=
  let whole := (a.ensure target).ensure source
  let edge := ⟨label,whole.slot target⟩
  whole.modify source fun s => {s with edges := s.edges.push edge}

def startAt (a : Automaton L) (n : Number) : Automaton L :=
  let whole := a.ensure n
  {whole with start := some (whole.slot n)}

def dropStart (a : Automaton L) : Automaton L := {a with start := none}

end Automaton

inductive Operation (L : Type) where
  | declare (number : Number) (acceptance : Acceptance)
  | connect (source : Number) (label : L) (target : Number)
  | startAt (number : Number)
  | dropStart
  deriving DecidableEq, Repr

namespace Operation
variable {L : Type}

def apply (a : Automaton L) : Operation L → Automaton L
  | .declare n acceptance => a.declare n acceptance
  | .connect source label target => a.connect source label target
  | .startAt n => a.startAt n
  | .dropStart => a.dropStart

def reply (a : Automaton L) : Operation L → Option Bool
  | .declare n _ => some (n ∉ a.positions)
  | _ => none

end Operation

def Automaton.run {L : Type} (a : Automaton L) (operations : List (Operation L)) : Automaton L :=
  operations.foldl Operation.apply a
end AutomatonDump
