import AutomatonDump.Automaton.Basic
/-! A blueprint lists states and edges, in any mixture, before an automaton is made of them.
The states come first then, whatever the order in which the two kinds were given. -/
namespace AutomatonDump

structure Blueprint (L : Type) where
  states : List (Number × Acceptance)
  edges : List (Number × L × Number)
  deriving DecidableEq, Repr

inductive Clause (L : Type) where
  | states (entries : List (Number × Acceptance))
  | edges (entries : List (Number × L × Number))
  deriving DecidableEq, Repr

namespace Clause
variable {L : Type}

def plain (numbers : List Number) : Clause L := .states (numbers.map fun n => (n,.nothing))
def state (n : Number) (acceptance : Acceptance) : Clause L := .states [(n,acceptance)]
def rules (n : Number) (names : List Text) : Clause L := .state n (.rules names)
def alternative (n : Number) (index : Int32) : Clause L := .state n (.alternative index)

def declared : Clause L → List (Number × Acceptance)
  | .states entries => entries
  | .edges _ => []

def drawn : Clause L → List (Number × L × Number)
  | .states _ => []
  | .edges entries => entries

@[simp] theorem declaredEdges (entries : List (Number × L × Number)) : (edges entries).declared = [] := rfl

@[simp] theorem declaredPlain (numbers : List Number) :
    (plain numbers : Clause L).declared = numbers.map fun n => (n,.nothing) := rfl

@[simp] theorem declaredState (n : Number) (acceptance : Acceptance) :
    (state n acceptance : Clause L).declared = [(n,acceptance)] := rfl

@[simp] theorem declaredRules (n : Number) (names : List Text) :
    (rules n names : Clause L).declared = [(n,.rules names)] := rfl

@[simp] theorem declaredAlternative (n : Number) (index : Int32) :
    (alternative n index : Clause L).declared = [(n,.alternative index)] := rfl

@[simp] theorem drawnEdges (entries : List (Number × L × Number)) : (edges entries).drawn = entries := rfl

@[simp] theorem drawnPlain (numbers : List Number) : (plain numbers : Clause L).drawn = [] := rfl

@[simp] theorem drawnState (n : Number) (acceptance : Acceptance) : (state n acceptance : Clause L).drawn = [] := rfl

@[simp] theorem drawnRules (n : Number) (names : List Text) : (rules n names : Clause L).drawn = [] := rfl

@[simp] theorem drawnAlternative (n : Number) (index : Int32) : (alternative n index : Clause L).drawn = [] := rfl

end Clause

namespace Blueprint
variable {L : Type}

def empty : Blueprint L := ⟨[],[]⟩

def add (b : Blueprint L) : Clause L → Blueprint L
  | .states entries => {b with states := b.states ++ entries}
  | .edges entries => {b with edges := b.edges ++ entries}

def ofClauses (clauses : List (Clause L)) : Blueprint L := clauses.foldl add empty

def operations (b : Blueprint L) (start : Option Number) : List (Operation L) :=
  b.states.map (fun s => .declare s.1 s.2) ++ b.edges.map (fun e => .connect e.1 e.2.1 e.2.2) ++
    (start.map .startAt).toList

def build (b : Blueprint L) (start : Option Number) : Automaton L :=
  Automaton.empty.run (b.operations start)

theorem statesOfClauses (clauses : List (Clause L)) (b : Blueprint L) :
    (clauses.foldl add b).states = b.states ++ clauses.flatMap Clause.declared := by
  induction clauses generalizing b with
  | nil => simp
  | cons c rest ih => cases c <;> simp [ih,add,Clause.declared]

theorem edgesOfClauses (clauses : List (Clause L)) (b : Blueprint L) :
    (clauses.foldl add b).edges = b.edges ++ clauses.flatMap Clause.drawn := by
  induction clauses generalizing b with
  | nil => simp
  | cons c rest ih => cases c <;> simp [ih,add,Clause.drawn]

end Blueprint
end AutomatonDump
