import AutomatonDump.Text.Basic
/-! Shapes of displayable data and the values that have them. Integers have a fixed width in
bits, with or without a sign. A reference has the values of what it refers to; it is a shape of
its own because lists tell it apart. `display` is the compact form of dumps: nothing is escaped,
and a list is braced, except that characters run together between double quotes. `debug` is
the form for inspection, in which every text is quoted and escaped. -/
namespace AutomatonDump

structure IntKind where
  signed : Bool
  bits : Nat
  deriving DecidableEq, Repr

namespace IntKind

def least (k : IntKind) : Int := if k.signed then -Int.pow 2 (k.bits - 1) else 0
def greatest (k : IntKind) : Int := Int.pow 2 (if k.signed then k.bits - 1 else k.bits) - 1

def Holds (k : IntKind) (n : Int) : Prop := k.least ≤ n ∧ n ≤ k.greatest
instance (k n) : Decidable (Holds k n) := by unfold Holds; infer_instance

end IntKind

inductive Shape where
  | int (kind : IntKind)
  | text
  | char
  | unit
  | list (element : Shape)
  | pair (first second : Shape)
  | ref (target : Shape)
  deriving DecidableEq, Repr

namespace Shape

def Value : Shape → Type
  | .int k => {n : Int // k.Holds n}
  | .text => Text
  | .char => Char
  | .unit => Unit
  | .list e => List e.Value
  | .pair s t => s.Value × t.Value
  | .ref t => t.Value

def decideEq : (s : Shape) → DecidableEq s.Value
  | .int k => inferInstanceAs (DecidableEq {n : Int // k.Holds n})
  | .text => inferInstanceAs (DecidableEq Text)
  | .char => inferInstanceAs (DecidableEq Char)
  | .unit => inferInstanceAs (DecidableEq Unit)
  | .list e => have := e.decideEq; inferInstanceAs (DecidableEq (List e.Value))
  | .pair s t => have := s.decideEq; have := t.decideEq; inferInstanceAs (DecidableEq (s.Value × t.Value))
  | .ref t => t.decideEq

instance (s : Shape) : DecidableEq s.Value := s.decideEq

/- How a list with elements of this shape encloses its displayed elements. Only a character
itself makes a quoted list, a reference to one does not. -/
def enclose : Shape → List Text → Text
  | .char, parts => '"' :: parts.flatten ++ ['"']
  | _, parts => Text.braced parts

theorem encloseBraced {s : Shape} (other : s ≠ .char) (parts : List Text) :
    s.enclose parts = Text.braced parts := by
  cases s with
  | char => exact absurd rfl other
  | _ => rfl

def display : (s : Shape) → s.Value → Text
  | .int _, n => Text.integer n.val
  | .text, t => t
  | .char, c => [c]
  | .unit, _ => ['-']
  | .list e, xs => e.enclose (xs.map e.display)
  | .pair s t, (x,y) => Text.parenthesised [s.display x,t.display y]
  | .ref t, x => t.display x

theorem displayList (e : Shape) (xs : List e.Value) :
    (list e).display xs = e.enclose (xs.map e.display) := rfl

theorem displayPair (s t : Shape) (x : s.Value) (y : t.Value) :
    (pair s t).display (x,y) = Text.parenthesised [s.display x,t.display y] := rfl

def debug : (s : Shape) → s.Value → Text
  | .int _, n => Text.integer n.val
  | .text, t => Text.quoted '"' t
  | .char, c => Text.quoted '\'' [c]
  | .unit, _ => Text.parenthesised []
  | .list e, xs => Text.bracketed (xs.map e.debug)
  | .pair s t, (x,y) => Text.parenthesised [s.debug x,t.debug y]
  | .ref t, x => t.debug x

def forget : Shape → Shape
  | .list e => .list e.forget
  | .pair s t => .pair s.forget t.forget
  | .ref t => t.forget
  | s => s

def direct : (s : Shape) → s.Value → s.forget.Value
  | .int _, n => n
  | .text, t => t
  | .char, c => c
  | .unit, u => u
  | .list e, xs => xs.map e.direct
  | .pair s t, (x,y) => (s.direct x,t.direct y)
  | .ref t, x => t.direct x

def RefersToChar (s : Shape) : Prop := s.forget = .char ∧ s ≠ .char
instance (s : Shape) : Decidable (RefersToChar s) := by unfold RefersToChar; infer_instance

def character : (s : Shape) → s.forget = .char → s.Value → Char
  | .char, _, c => c
  | .ref t, same, x => t.character same x

def ListsPlainly : Shape → Prop
  | .list e => ¬ e.RefersToChar ∧ e.ListsPlainly
  | .pair s t => s.ListsPlainly ∧ t.ListsPlainly
  | .ref t => t.ListsPlainly
  | _ => True

/- Built from integers and units alone, so that no text or character can pass for a bracket. -/
def Bracketed : Shape → Prop
  | .int _ => True
  | .unit => True
  | .text => False
  | .char => False
  | .list e => e.Bracketed
  | .pair s t => s.Bracketed ∧ t.Bracketed
  | .ref t => t.Bracketed

end Shape
end AutomatonDump
