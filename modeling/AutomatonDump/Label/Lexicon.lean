import AutomatonDump.Shape.Basic
import Std.Data.TreeMap
/-! The symbols of a grammar. The condition on an edge has numbers, which a lexicon reads as
characters or as tokens. A token has the name registered last, and a number that means nothing is
refused. A resolver is a function, so asking it again for a label gives the same text or the same
refusal. -/
namespace AutomatonDump

inductive Condition where
  | epsilon
  | atom (number : Int32)
  | range (low high : Int32)
  | oneOf (ranges : List (Int32 × Int32))
  deriving DecidableEq, Repr

namespace Condition

def numbers : Condition → List Int32
  | .epsilon => []
  | .atom n => [n]
  | .range low high => [low,high]
  | .oneOf ranges => ranges.flatMap fun r => [r.1,r.2]

private def number (n : Int32) : Text := Text.integer n.toInt
private def bounds (low high : Int32) : Text := Text.parenthesised [number low,number high]

def debug : Condition → Text
  | .epsilon => "Epsilon".toList
  | .atom n => "Atom".toList ++ Text.parenthesised [number n]
  | .range low high => "Range".toList ++ bounds low high
  | .oneOf ranges =>
      "Set".toList ++ Text.parenthesised [Text.bracketed (ranges.map fun r => bounds r.1 r.2)]

end Condition

abbrev Resolver (L ε : Type) := L → Except ε Text

namespace Resolver

def plain (s : Shape) : Resolver s.Value Empty := fun label => .ok (s.display label)

def strict (s : Shape) (refused : List Text) : Resolver s.Value Text := fun label =>
  if s.display label ∈ refused then .error (s.display label) else .ok (s.display label)

end Resolver

inductive Reading where
  | characters
  | tokens
  deriving DecidableEq, Repr

inductive Refusal where
  | notACharacter (number : Int32)
  | unnamedToken (number : Int32)
  deriving DecidableEq, Repr

def Refusal.message : Refusal → Text
  | .notACharacter n => Text.integer n.toInt ++ " is not a valid code point".toList
  | .unnamedToken n =>
      "token type ".toList ++ Text.integer n.toInt ++ " has no display name in the vocabulary".toList

structure Lexicon where
  reading : Reading
  names : Std.TreeMap Int32 Text

namespace Lexicon

def ofReading (reading : Reading) : Lexicon := ⟨reading,∅⟩

def register (v : Lexicon) (token : Int32) (name : Text) : Lexicon :=
  {v with names := v.names.insert token name}

def registerAll (v : Lexicon) (entries : List (Int32 × Text)) : Lexicon :=
  entries.foldl (fun v entry => v.register entry.1 entry.2) v

def name? (v : Lexicon) (token : Int32) : Option Text := v.names[token]?

/- The end of the input is marked by one number under either reading. It comes first, so a name
registered for that number is never used. -/
def endOfInput : Int32 := -1

def character? (n : Int32) : Option Char :=
  if 0 ≤ n.toInt ∧ n.toInt.toNat.isValidChar then some (Char.ofNat n.toInt.toNat) else none

def atom (v : Lexicon) (n : Int32) : Except Refusal Text :=
  if n = endOfInput then .ok "EOF".toList
  else match v.reading with
  | .characters => match character? n with
    | some c => .ok (Text.literal c)
    | none => .error (.notACharacter n)
  | .tokens => match v.name? n with
    | some name => .ok name
    | none => .error (.unnamedToken n)

def range (v : Lexicon) (low high : Int32) : Except Refusal Text :=
  if low = high then v.atom low
  else do
    let first ← v.atom low
    let last ← v.atom high
    return first ++ "..".toList ++ last

def resolve (v : Lexicon) : Resolver Condition Refusal
  | .epsilon => .ok ['ε']
  | .atom n => v.atom n
  | .range low high => v.range low high
  | .oneOf ranges => do
    let parts ← ranges.mapM fun r => v.range r.1 r.2
    return Text.braced parts

end Lexicon
end AutomatonDump
