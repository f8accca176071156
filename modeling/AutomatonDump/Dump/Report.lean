import AutomatonDump.Label.Lexicon
import AutomatonDump.Text.Lines
import AutomatonDump.Traversal.Frontier
/-! Dumping an automaton: the text itself, together with the labels asked for and the events
logged on the way. A line shows the tags of the two ends of an edge around the text of its label,
and after the first refusal no label is asked for any more. There is no text without a start, and
a refused label logs nothing. -/
namespace AutomatonDump
variable {L ε : Type}

def tag (n : Number) : Acceptance → Text
  | .nothing => 's' :: Text.natural n.toNat
  | .rules names => ":s".toList ++ Text.natural n.toNat ++ "=>".toList ++ names.flatMap (' ' :: ·)
  | .alternative index => ":s".toList ++ Text.natural n.toNat ++ "=>".toList ++ Text.integer index.toInt

def State.tag (s : State L) : Text := AutomatonDump.tag s.number s.acceptance

namespace Automaton

def tag (a : Automaton L) (p : a.Place) : Text := (a.state p).tag

def line (a : Automaton L) (link : a.Link) (label : Text) : Text :=
  a.tag link.source ++ "-".toList ++ label ++ "->".toList ++ a.tag link.target

def inspect (a : Automaton L) (debug : L → Text) (link : a.Link) : Text :=
  "-".toList ++ debug link.label ++ "->".toList ++ Text.natural (a.number link.target).toNat

def roll (a : Automaton L) : Text := Text.braced (a.places.map a.tag)

end Automaton

structure Transcript (L ε : Type) where
  asked : List L
  lines : Except ε (List Text)

namespace Automaton

def transcribe (a : Automaton L) (resolve : Resolver L ε) : List a.Link → Transcript L ε
  | [] => ⟨[],.ok []⟩
  | link :: rest => match resolve link.label with
    | .error e => ⟨[link.label],.error e⟩
    | .ok text =>
        let later := a.transcribe resolve rest
        ⟨link.label :: later.asked,later.lines.map (a.line link text :: ·)⟩

end Automaton

inductive Level where
  | trace
  | debug
  deriving DecidableEq, Repr

def Level.name : Level → Text
  | .trace => "TRACE".toList
  | .debug => "DEBUG".toList

inductive Event where
  | noStart
  | visited (states lines : Nat)
  | produced (dump : Text)
  deriving DecidableEq, Repr

namespace Event

def level : Event → Level
  | .noStart => .trace
  | .visited _ _ => .debug
  | .produced _ => .trace

def message : Event → Text
  | .noStart => "no start state, nothing to serialize".toList
  | .visited states lines =>
      "visited ".toList ++ Text.natural states ++ " states and emitted ".toList ++
        Text.natural lines ++ " lines".toList
  | .produced dump => "produced dfa string from automaton\n".toList ++ dump

def entry (e : Event) : Text := e.level.name ++ ' ' :: e.message

end Event

structure Report (L ε : Type) where
  asked : List L
  outcome : Except ε (Option Text)
  events : List Event

def Report.log (r : Report L ε) : List Text := r.events.map Event.entry

/- Every line closed by a line break, then sorted. A break within a name makes two lines of
one, and both take part in the sorting. -/
def compose (lines : List Text) : Text := Text.sortLines (lines.flatMap (· ++ ['\n']))

structure Progress (a : Automaton L) where
  frontier : Frontier a
  asked : Array L
  lines : Array Text

namespace Progress
variable {a : Automaton L}

def outset (p : a.Place) : Progress a := ⟨.outset p,#[],#[]⟩

def drop (w : Progress a) (rest : List a.Place) : Progress a := {w with frontier := w.frontier.drop rest}

def visit (w : Progress a) (p : a.Place) (rest : List a.Place) (asked : List L) (lines : List Text) :
    Progress a := ⟨w.frontier.visit p rest,w.asked ++ asked,w.lines ++ lines⟩

def finish (w : Progress a) : Report L ε :=
  let text := compose w.lines.toList
  ⟨w.asked.toList,.ok (some text),[.visited w.frontier.marked.size w.lines.size,.produced text]⟩

def refuse (w : Progress a) (asked : List L) (e : ε) : Report L ε := ⟨w.asked.toList ++ asked,.error e,[]⟩

/-- At the first turn of a place all its labels are resolved, unless one is refused: then the dump
ends in the middle of the place, with others still waiting. -/
def run (w : Progress a) (resolve : Resolver L ε) : Report L ε :=
  match _queue : w.frontier.waiting with
  | [] => w.finish
  | p :: rest =>
    if _seen : a.number p ∈ w.frontier.marked then (w.drop rest).run resolve
    else
      let part := a.transcribe resolve (a.links p)
      match part.lines with
      | .error e => w.refuse part.asked e
      | .ok lines => (w.visit p rest part.asked lines).run resolve
termination_by w.frontier.turns
decreasing_by
  · exact Frontier.dropTurns _queue
  · exact Frontier.visitTurns _queue _seen

end Progress

namespace Automaton

def reportFrom (a : Automaton L) (resolve : Resolver L ε) : Option a.Place → Report L ε
  | none => ⟨[],.ok none,[.noStart]⟩
  | some p => (Progress.outset p).run resolve

def report (a : Automaton L) (resolve : Resolver L ε) : Report L ε := a.reportFrom resolve a.start?

end Automaton
end AutomatonDump
