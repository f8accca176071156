import AutomatonDump.Proofs.Label.Registration
import AutomatonDump.Proofs.Text.Legible
/-! The texts of a lexer tell its labels apart. An atom tells where it ends, a range goes on behind its
lower bound with dots or not at all, and the first character shows whether there is a set. Only a range of
one character is written as that character. -/
namespace AutomatonDump

/- A range of one number taken for that number. Ranges within a set stay as they are. -/
def Condition.collapse : Condition → Condition
  | .range low high => if low = high then .atom low else .range low high
  | label => label

theorem Condition.collapseRange (low high : Int32) :
    (range low high).collapse = if low = high then .atom low else .range low high := rfl

namespace Lexicon
variable {v : Lexicon} {t : Text}

theorem characterInjective {m n : Int32} {c : Char} (left : character? m = some c)
    (right : character? n = some c) : m = n :=
  Int32.toInt_inj.mp ((characterCode.mp left).trans (characterCode.mp right).symm)

theorem atomBegins (characters : v.reading = .characters) {n : Int32} (ok : v.atom n = .ok t) :
    ∃ c later, t = c :: later ∧ (c = 'E' ∨ c = '\'') := by
  rcases (characterAtomOk characters).mp ok with ⟨_,rfl⟩ | ⟨_,c,_,rfl⟩
  · exact ⟨'E',_,rfl,.inl rfl⟩
  · exact ⟨'\'',_,rfl,.inr rfl⟩

theorem atomLegible (characters : v.reading = .characters) :
    Text.Legible (fun n t => v.atom n = .ok t) fun _ => True := by
  intro m n s t rest others left right _ _ same
  rcases (characterAtomOk characters).mp left with ⟨first,rfl⟩ | ⟨_,c,found,rfl⟩
  · rcases (characterAtomOk characters).mp right with ⟨second,rfl⟩ | ⟨_,d,_,rfl⟩
    · exact ⟨first.trans second.symm,List.append_cancel_left same⟩
    · exact absurd (List.cons.inj same).1 (by decide)
  · rcases (characterAtomOk characters).mp right with ⟨_,rfl⟩ | ⟨_,d,found',rfl⟩
    · exact absurd (List.cons.inj same).1 (by decide)
    · obtain ⟨rfl,rests⟩ := Text.literalLegible rfl rfl trivial trivial same
      exact ⟨characterInjective found found',rests⟩

inductive Ending (v : Lexicon) (low : Int32) : Int32 → Text → Prop where
  | single : Ending v low low []
  | upTo {high : Int32} {last : Text} (apart : low ≠ high) (ends : v.atom high = .ok last) :
      Ending v low high ('.' :: '.' :: last)

theorem rangeEnding {low high : Int32} (ok : v.range low high = .ok t) :
    ∃ first tail, v.atom low = .ok first ∧ v.Ending low high tail ∧ first ++ tail = t := by
  rcases rangeOk.mp ok with ⟨rfl,only⟩ | ⟨apart,first,last,begins,ends,rfl⟩
  · exact ⟨t,[],only,.single,List.append_nil t⟩
  · exact ⟨first,_,begins,.upTo apart ends,by simp⟩

def WritesRange (v : Lexicon) (r : Int32 × Int32) (t : Text) : Prop := v.range r.1 r.2 = .ok t

def WritesRanges (v : Lexicon) (ranges : List (Int32 × Int32)) (t : Text) : Prop :=
  ∃ parts, List.Forall₂ v.WritesRange ranges parts ∧ Text.enumerated parts ++ ['}'] = t

theorem rangeBegins (characters : v.reading = .characters) {r : Int32 × Int32} (ok : v.WritesRange r t) :
    ∃ c later, t = c :: later ∧ (c = 'E' ∨ c = '\'') := by
  obtain ⟨first,tail,begins,_,rfl⟩ := rangeEnding ok
  obtain ⟨c,later,rfl,letter⟩ := atomBegins characters begins
  exact ⟨c,later ++ tail,rfl,letter⟩

/- What begins with a dot cannot follow: it would be taken for the way to an upper bound. -/
theorem rangeLegible (characters : v.reading = .characters) :
    Text.Legible v.WritesRange fun rest => rest.head? ≠ some '.' := by
  rintro ⟨low,high⟩ ⟨low',high'⟩ s t rest others left right bare bare' same
  obtain ⟨first,tail,begins,ends,rfl⟩ := rangeEnding left
  obtain ⟨second,tail',begins',ends',rfl⟩ := rangeEnding right
  rw [List.append_assoc,List.append_assoc] at same
  obtain ⟨equal,tails⟩ := atomLegible characters begins begins' trivial trivial same
  change low = low' at equal
  subst equal
  cases ends with
  | single =>
    cases ends' with
    | single => exact ⟨rfl,tails⟩
    | upTo _ _ => exact absurd (congrArg List.head? tails) bare
  | upTo apart last =>
    cases ends' with
    | single => exact absurd (congrArg List.head? tails).symm bare'
    | upTo apart' last' =>
      have behind := (List.cons.inj (List.cons.inj tails).2).2
      obtain ⟨rfl,rests⟩ := atomLegible characters last last' trivial trivial behind
      exact ⟨rfl,rests⟩

theorem rangesLegible (characters : v.reading = .characters) : Text.Legible v.WritesRanges fun _ => True := by
  refine Text.enumeratedLegible (by decide) ?_ ?_
  · intro r q s t rest others left right separated separated' same
    have dotless {rest : Text} (separated : Text.Separated '}' rest) : rest.head? ≠ some '.' := by
      obtain ⟨c,later,rfl,rfl | rfl⟩ := separated <;> simp
    exact rangeLegible characters left right (dotless separated) (dotless separated') same
  · intro r t ok
    obtain ⟨c,later,rfl,letter⟩ := rangeBegins characters ok
    exact ⟨c,later,rfl,by rcases letter with rfl | rfl <;> decide⟩

inductive Written (v : Lexicon) (t : Text) : Condition → Prop where
  | silent (text : 'ε' :: [] = t) : Written v t .epsilon
  | span {r : Int32 × Int32} (ok : v.WritesRange r t) : Written v t (Condition.range r.1 r.2).collapse
  | union {ranges : List (Int32 × Int32)} {later : Text} (all : v.WritesRanges ranges later)
      (text : '{' :: later = t) : Written v t (.oneOf ranges)

theorem resolveWritten {label : Condition} (ok : v.resolve label = .ok t) : v.Written t label.collapse := by
  cases label with
  | epsilon => exact .silent (Except.ok.inj ok)
  | atom n =>
    have one : (Condition.range n n).collapse = .atom n := if_pos rfl
    have text : v.WritesRange (n,n) t := (if_pos rfl).trans ok
    have span := Written.span text
    rw [one] at span
    exact span
  | range low high =>
    have text : v.WritesRange (low,high) t := ok
    exact .span text
  | oneOf ranges =>
    obtain ⟨parts,all,text⟩ := oneOfOk.mp ok
    exact .union ⟨parts,all,rfl⟩ text

theorem writtenUnique (characters : v.reading = .characters) {a b : Condition} (left : v.Written t a)
    (right : v.Written t b) : a = b := by
  -- The text of a span begins like an atom, which neither of the other two forms does.
  have begins {r : Int32 × Int32} {c : Char} {later : Text} (ok : v.WritesRange r t)
      (text : c :: later = t) : c ∈ ['E','\''] := by
    obtain ⟨d,rest,equal,letter⟩ := rangeBegins characters ok
    rw [(List.cons.inj (text.trans equal)).1]
    simpa using letter
  cases left with
  | silent text =>
    cases right with
    | silent _ => rfl
    | span ok => exact absurd (begins ok text) (by decide)
    | union _ text' => exact absurd (List.cons.inj (text.trans text'.symm)).1 (by decide)
  | span ok =>
    cases right with
    | silent text => exact absurd (begins ok text) (by decide)
    | span ok' => rw [Text.legibleEnd (rangeLegible characters) (by decide) ok ok']
    | union _ text => exact absurd (begins ok text) (by decide)
  | union all text =>
    cases right with
    | silent text' => exact absurd (List.cons.inj (text.trans text'.symm)).1 (by decide)
    | span ok => exact absurd (begins ok text) (by decide)
    | union all' text' =>
      obtain ⟨_,rfl⟩ := List.cons.inj (text.trans text'.symm)
      rw [Text.legibleEnd (rangesLegible characters) trivial all all']

theorem resolveCollapse (v : Lexicon) (label : Condition) : v.resolve label.collapse = v.resolve label := by
  cases label with
  | epsilon => rfl
  | atom n => rfl
  | range low high =>
    rw [Condition.collapseRange]
    by_cases single : low = high
    · rw [if_pos single]
      exact (if_pos single).symm
    · rw [if_neg single]
  | oneOf ranges => rfl

end Lexicon

/-- Two labels of lexers are written alike exactly if they are the same, a range of one character counting
as that character. -/
theorem lexerTextsUnambiguous {v w : Lexicon} (left : v.reading = .characters) (right : w.reading = .characters)
    {a b : Condition} {s t : Text} (first : v.resolve a = .ok s) (second : w.resolve b = .ok t) :
    s = t ↔ a.collapse = b.collapse := by
  have shared : v.resolve b = .ok t :=
    (Lexicon.resolveAgrees fun _ _ => ⟨left.trans right.symm,.inl left⟩).trans second
  constructor
  · rintro rfl
    exact Lexicon.writtenUnique left (Lexicon.resolveWritten first) (Lexicon.resolveWritten shared)
  · intro same
    rw [← Lexicon.resolveCollapse,same,Lexicon.resolveCollapse,shared] at first
    exact (Except.ok.inj first).symm

/- Sets of quotes, commas, dots, brackets, backslashes and what follows one, cut up differently. -/
def marks : Condition := .oneOf [(39,44),(46,46),(-1,125),(92,117),(0,10)]
def otherMarks : Condition := .oneOf [(39,44),(46,-1),(125,125),(92,117),(0,10)]

def marksText : Text := "\x7b'\\''..',', '.', EOF..'\x7d', '\\\\'..'u', '\\u0000'..'\\n'\x7d".toList
def otherMarksText : Text := "\x7b'\\''..',', '.'..EOF, '\x7d', '\\\\'..'u', '\\u0000'..'\\n'\x7d".toList

theorem marksApart :
    let v := Lexicon.ofReading .characters
    let w := v.register 92 "BACKSLASH".toList
    v.resolve marks = .ok marksText ∧ w.resolve otherMarks = .ok otherMarksText ∧ marksText ≠ otherMarksText ∧
    v.resolve (.range 92 92) = .ok "'\\\\'".toList ∧ w.resolve (.atom 92) = .ok "'\\\\'".toList ∧
    (Condition.range 92 92).collapse = (Condition.atom 92).collapse := by
  intro v w
  have first : v.resolve marks = .ok marksText := by decide +kernel
  have second : w.resolve otherMarks = .ok otherMarksText := by decide +kernel
  have outer : v.resolve (.range 92 92) = .ok "'\\\\'".toList := by decide +kernel
  have single : w.resolve (.atom 92) = .ok "'\\\\'".toList := by decide +kernel
  have apart : marks.collapse ≠ otherMarks.collapse := by decide
  exact ⟨first,second,fun same => apart ((lexerTextsUnambiguous rfl rfl first second).mp same),outer,single,
    (lexerTextsUnambiguous rfl rfl outer single).mp rfl⟩

end AutomatonDump
