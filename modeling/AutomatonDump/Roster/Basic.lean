import AutomatonDump.Automaton.Basic
/-! An automaton told by numbers alone: who is there, in the order of arrival, what each
accepts, and where its edges lead. Nothing in it refers to a position. Walks along its edges tell
what can be reached, and in how few steps. -/
namespace AutomatonDump

structure Entry (L : Type) where
  number : Number
  acceptance : Acceptance
  edges : List (L × Number)
  deriving DecidableEq, Repr

structure Roster (L : Type) where
  entries : List (Entry L)
  start : Option Number
  deriving DecidableEq, Repr

namespace Roster
variable {L : Type}

def empty : Roster L := ⟨[],none⟩
def numbers (r : Roster L) : List Number := r.entries.map Entry.number
def entry? (r : Roster L) (n : Number) : Option (Entry L) := r.entries.find? (·.number = n)
def index? (r : Roster L) (n : Number) : Option Nat := r.entries.findIdx? (·.number = n)

def trail (r : Roster L) : Option Number → List Nat → List (Option Number)
  | n, [] => [n]
  | n, i :: rest =>
      n :: r.trail (((n.bind r.entry?).bind fun e => e.edges[i]?).map Prod.snd) rest

def append (r : Roster L) (n : Number) (acceptance : Acceptance) : Roster L :=
  {r with entries := r.entries ++ [⟨n,acceptance,[]⟩]}

def ensure (r : Roster L) (n : Number) : Roster L :=
  if n ∈ r.numbers then r else r.append n .nothing

def change (r : Roster L) (n : Number) (f : Entry L → Entry L) : Roster L :=
  {r with entries := r.entries.map fun e => if e.number = n then f e else e}

def declare (r : Roster L) (n : Number) (acceptance : Acceptance) : Roster L :=
  if n ∈ r.numbers then r.change n fun e => {e with acceptance := acceptance}
  else r.append n acceptance

def connect (r : Roster L) (source : Number) (label : L) (target : Number) : Roster L :=
  ((r.ensure target).ensure source).change source fun e => {e with edges := e.edges ++ [(label,target)]}

def startAt (r : Roster L) (n : Number) : Roster L := {r.ensure n with start := some n}
def dropStart (r : Roster L) : Roster L := {r with start := none}

def apply (r : Roster L) : Operation L → Roster L
  | .declare n acceptance => r.declare n acceptance
  | .connect source label target => r.connect source label target
  | .startAt n => r.startAt n
  | .dropStart => r.dropStart

def reply (r : Roster L) : Operation L → Option Bool
  | .declare n _ => some (n ∉ r.numbers)
  | _ => none

def run (r : Roster L) (operations : List (Operation L)) : Roster L := operations.foldl apply r

def Arrow (r : Roster L) (m : Number) (label : L) (n : Number) : Prop :=
  ∃ e ∈ r.entries, e.number = m ∧ (label,n) ∈ e.edges

inductive Walk (r : Roster L) (m : Number) : Nat → Number → Prop where
  | stay : Walk r m 0 m
  | extend {steps : Nat} {n o : Number} {label : L} (before : Walk r m steps n)
      (last : r.Arrow n label o) : Walk r m (steps + 1) o

def Reaches (r : Roster L) (m n : Number) : Prop := ∃ steps, r.Walk m steps n

def Distance (r : Roster L) (m : Number) (steps : Nat) (n : Number) : Prop :=
  r.Walk m steps n ∧ ∀ others, r.Walk m others n → steps ≤ others

theorem reachesSelf (r : Roster L) (n : Number) : r.Reaches n n := ⟨0,.stay⟩

theorem reachesStep {r : Roster L} {m n o : Number} {label : L} (before : r.Reaches m n)
    (last : r.Arrow n label o) : r.Reaches m o :=
  before.elim fun steps walk => ⟨steps + 1,.extend walk last⟩

theorem walkJoin {r : Roster L} {m n o : Number} {j k : Nat} (first : r.Walk m j n)
    (second : r.Walk n k o) : r.Walk m (j + k) o := by
  induction second with
  | stay => exact first
  | extend _ last ih => exact .extend ih last

theorem reachesTrans {r : Roster L} {m n o : Number} (first : r.Reaches m n)
    (second : r.Reaches n o) : r.Reaches m o := by
  obtain ⟨j,before⟩ := first
  obtain ⟨k,after⟩ := second
  exact ⟨j + k,walkJoin before after⟩

end Roster
end AutomatonDump
