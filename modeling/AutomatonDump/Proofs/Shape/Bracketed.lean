import AutomatonDump.Proofs.Text.Legible
import AutomatonDump.Shape.Basic
/-! What is displayed of bracketed data can be read back. A number ends where there is no digit, a list and a
pair end at their brackets, and so does everything that is nested in them. -/
namespace AutomatonDump.Shape

theorem bracketedList {e : Shape} (bracketed : (list e).Bracketed) (xs : List e.Value) :
    (list e).display xs = Text.braced (xs.map e.display) := by
  have other : e ≠ .char := by rintro rfl; exact bracketed
  rw [displayList,encloseBraced other]

theorem displayBegins {s : Shape} (bracketed : s.Bracketed) (x : s.Value) :
    ∃ c later, s.display x = c :: later ∧ c ≠ '}' := by
  induction s with
  | int k =>
    obtain ⟨c,later,text,sign⟩ := Text.integerBegins x.val
    refine ⟨c,later,text,?_⟩
    rintro rfl
    exact absurd sign (by decide)
  | text => exact absurd bracketed id
  | char => exact absurd bracketed id
  | unit => exact ⟨'-',[],rfl,by decide⟩
  | list e _ => exact ⟨'{',_,bracketedList bracketed x,by decide⟩
  | pair s t _ _ => exact ⟨'(',_,rfl,by decide⟩
  | ref t ih => exact ih bracketed x

theorem displayLegible {s : Shape} (bracketed : s.Bracketed) :
    Text.Legible (fun x t => s.display x = t) Text.Undigited := by
  induction s with
  | int k =>
    rintro m n _ _ rest others rfl rfl undigited undigited' same
    obtain ⟨numbers,rests⟩ := Text.integerLegible rfl rfl undigited undigited' same
    exact ⟨Subtype.ext numbers,rests⟩
  | text => exact absurd bracketed id
  | char => exact absurd bracketed id
  | unit =>
    rintro x y _ _ rest others rfl rfl _ _ same
    exact ⟨rfl,(List.cons.inj same).2⟩
  | list e ih =>
    have inner : e.Bracketed := bracketed
    have elements : Text.Legible (fun x t => e.display x = t) (Text.Separated '}') :=
      Text.separatedLegible (by decide) (ih inner)
    have solid {x : e.Value} {t : Text} (shown : e.display x = t) : ∃ c later, t = c :: later ∧ c ≠ '}' :=
      shown ▸ displayBegins inner x
    have braced (xs : List e.Value) : ∃ parts, List.Forall₂ (fun x t => e.display x = t) xs parts ∧
        Text.braced parts = (list e).display xs :=
      ⟨xs.map e.display,by simp [List.forall₂_map_right_iff,List.forall₂_same],(bracketedList bracketed xs).symm⟩
    rintro xs ys _ _ rest others rfl rfl _ _ same
    exact Text.bracedLegible elements solid (braced xs) (braced ys) trivial trivial same
  | pair s t first second =>
    rintro ⟨x,y⟩ ⟨x',y'⟩ _ _ rest others rfl rfl _ _ same
    exact Text.pairedLegible (Text.separatedLegible (by decide) (first bracketed.1))
      (Text.separatedLegible (by decide) (second bracketed.2)) ⟨_,_,rfl,rfl,rfl⟩ ⟨_,_,rfl,rfl,rfl⟩
      trivial trivial same
  | ref t ih => exact ih bracketed

/- A text may hold the comma that would end it. -/
example : (list .text).display ["1, 2".toList] = (list .text).display ["1".toList,"2".toList] := by decide

/-- Two values built from numbers and units by lists, pairs and references are displayed alike only if they are
the same value. -/
theorem displayInjective {s : Shape} (bracketed : s.Bracketed) : Function.Injective s.display := by
  intro x y same
  exact Text.legibleEnd (displayLegible bracketed) Text.undigitedNothing same rfl

def rows : Shape := .list (.pair (.list .unit) (.ref (.list (.int ⟨true,8⟩))))

/- The minus sign of a number, a unit of another list, and an empty list or none at all. -/
def ruled : rows.Value := [([(),()],[⟨-1,by decide⟩,⟨2,by decide⟩]),([],[])]
def reruled : rows.Value := [([()],[⟨-12,by decide⟩]),([()],[])]

theorem rowsApart :
    rows.Bracketed ∧ ruled ≠ reruled ∧
    rows.display ruled = "\x7b(\x7b-, -\x7d, \x7b-1, 2\x7d), (\x7b\x7d, \x7b\x7d)\x7d".toList ∧
    rows.display ruled ≠ rows.display reruled := by
  have bracketed : rows.Bracketed := ⟨trivial,trivial⟩
  have apart : ruled ≠ reruled := by decide
  exact ⟨bracketed,apart,by decide +kernel,fun same => apart (displayInjective bracketed same)⟩

end AutomatonDump.Shape
