import AutomatonDump.Shape.Basic
import Mathlib.Data.List.Basic
/-! Where references show. A list encloses its elements by their shape, and a reference to a character is
another shape than the character. Nothing else that is displayed depends on references. Opening braces tell the
two apart: a list of references to characters has one, which the list of the characters lacks. -/
namespace AutomatonDump

theorem Text.enumeratedCount {c : Char} (mark : c ∉ [',',' ']) (parts : List Text) :
    (enumerated parts).count c = parts.flatten.count c := by
  unfold enumerated
  induction parts with
  | nil => rfl
  | cons part rest ih =>
    cases rest with
    | nil => simp
    | cons next later =>
      rw [List.intercalate_cons_cons,List.flatten_cons,List.count_append,List.count_append,List.count_append,ih,
        List.count_eq_zero_of_not_mem mark,Nat.add_zero]

theorem Text.countMapped {α : Type} {c : Char} {f g : α → Text} (fewer : ∀ x, (f x).count c ≤ (g x).count c)
    (xs : List α) : (xs.map f).flatten.count c ≤ (xs.map g).flatten.count c := by
  induction xs with
  | nil => exact Nat.le_refl _
  | cons x rest ih =>
    simp only [List.map_cons,List.flatten_cons,List.count_append]
    exact Nat.add_le_add (fewer x) ih

namespace Shape

theorem forgetList (e : Shape) (xs : List e.Value) : (list e).forget.display ((list e).direct xs) =
    e.forget.enclose (xs.map fun x => e.forget.display (e.direct x)) :=
  congrArg e.forget.enclose List.map_map

theorem forgetPair (s t : Shape) (x : s.Value) (y : t.Value) :
    (pair s t).forget.display ((pair s t).direct (x,y)) =
      Text.parenthesised [s.forget.display (s.direct x),t.forget.display (t.direct y)] := rfl

theorem encloseForget {e : Shape} (direct : ¬ e.RefersToChar) (parts : List Text) :
    e.enclose parts = e.forget.enclose parts := by
  rcases Classical.em (e = .char) with rfl | other
  · rfl
  · have forgotten : e.forget ≠ .char := fun same => direct ⟨same,other⟩
    rw [encloseBraced other,encloseBraced forgotten]

theorem displayDirect {s : Shape} (plainly : s.ListsPlainly) (x : s.Value) :
    s.display x = s.forget.display (s.direct x) := by
  induction s with
  | list e ih =>
    obtain ⟨direct,inner⟩ := plainly
    have elements (xs : List e.Value) : (list e).display xs = (list e).forget.display ((list e).direct xs) :=
      calc (list e).display xs
        _ = e.enclose (xs.map fun y => e.forget.display (e.direct y)) :=
          congrArg e.enclose (List.map_congr_left fun y _ => ih inner y)
        _ = e.forget.enclose (xs.map fun y => e.forget.display (e.direct y)) := encloseForget direct _
        _ = (list e).forget.display ((list e).direct xs) := (forgetList e xs).symm
    exact elements x
  | pair s t first second =>
    obtain ⟨y,z⟩ := x
    rw [forgetPair,displayPair,first plainly.1,second plainly.2]
  | ref t ih => exact ih plainly x
  | _ => rfl

theorem zeroHolds (k : IntKind) : k.Holds 0 := by
  have positive (n : Nat) : 0 < Int.pow 2 n := Int.pow_pos (by decide)
  have low := positive (k.bits - 1)
  have high := positive (if k.signed then k.bits - 1 else k.bits)
  constructor
  · unfold IntKind.least
    split <;> omega
  · unfold IntKind.greatest
    omega

theorem inhabited (s : Shape) : Nonempty s.Value := by
  induction s with
  | int k => exact ⟨⟨0,zeroHolds k⟩⟩
  | text => exact ⟨([] : Text)⟩
  | char => exact ⟨('a' : Char)⟩
  | unit => exact ⟨()⟩
  | list e _ => exact ⟨([] : List e.Value)⟩
  | pair s t first second => exact ⟨(first.some,second.some)⟩
  | ref t ih => exact ih

section braces

theorem encloseCount (e : Shape) (parts : List Text) :
    (e.enclose parts).count '{' = parts.flatten.count '{' + if e = .char then 0 else 1 := by
  rcases Classical.em (e = .char) with rfl | other
  · simp [enclose]
  · rw [encloseBraced other,if_neg other,← Text.enumeratedCount (by decide)]
    simp [Text.braced]

theorem parenthesisedCount (u v : Text) :
    (Text.parenthesised [u,v]).count '{' = u.count '{' + v.count '{' := by
  have inside := Text.enumeratedCount (c := '{') (by decide) [u,v]
  simp only [List.flatten_cons,List.flatten_nil,List.append_nil,List.count_append] at inside
  simp [Text.parenthesised,inside]

theorem forgetBraces (s : Shape) (x : s.Value) :
    (s.forget.display (s.direct x)).count '{' ≤ (s.display x).count '{' := by
  induction s with
  | list e ih =>
    have brace : (if e.forget = .char then 0 else 1) ≤ if e = .char then 0 else 1 := by
      rcases Classical.em (e = .char) with rfl | other
      · exact Nat.le_refl _
      · rw [if_neg other]
        split <;> decide
    have whole (xs : List e.Value) : ((list e).forget.display ((list e).direct xs)).count '{' ≤
        ((list e).display xs).count '{' := by
      rw [forgetList,displayList,encloseCount,encloseCount]
      exact Nat.add_le_add (Text.countMapped ih xs) brace
    exact whole x
  | pair s t first second =>
    obtain ⟨y,z⟩ := x
    rw [forgetPair,displayPair,parenthesisedCount,parenthesisedCount]
    exact Nat.add_le_add (first y) (second z)
  | ref t ih => exact ih x
  | _ => exact Nat.le_refl _

theorem braceLost {s : Shape} (hidden : ¬ s.ListsPlainly) :
    ∃ x : s.Value, (s.forget.display (s.direct x)).count '{' < (s.display x).count '{' := by
  induction s with
  | list e ih =>
    rcases Classical.em e.RefersToChar with ⟨same,other⟩ | direct
    · refine ⟨([] : List e.Value),?_⟩
      rw [forgetList,displayList,encloseCount,encloseCount,if_pos same,if_neg other]
      exact Nat.lt_succ_self 0
    · obtain ⟨y,less⟩ := ih fun inner => hidden ⟨direct,inner⟩
      refine ⟨[y],?_⟩
      rw [forgetList,displayList,← encloseForget direct,encloseCount,encloseCount]
      simpa using less
  | pair s t first second =>
    rcases not_and_or.mp hidden with left | right
    · obtain ⟨y,less⟩ := first left
      obtain ⟨z⟩ := t.inhabited
      refine ⟨(y,z),?_⟩
      rw [forgetPair,displayPair,parenthesisedCount,parenthesisedCount]
      exact Nat.add_lt_add_of_lt_of_le less (forgetBraces t z)
    · obtain ⟨z,less⟩ := second right
      obtain ⟨y⟩ := s.inhabited
      refine ⟨(y,z),?_⟩
      rw [forgetPair,displayPair,parenthesisedCount,parenthesisedCount]
      exact Nat.add_lt_add_of_le_of_lt (forgetBraces s y) less
  | ref t ih => exact ih hidden
  | _ => exact absurd trivial hidden

theorem transparentIff (s : Shape) :
    s.ListsPlainly ↔ ∀ x : s.Value, s.display x = s.forget.display (s.direct x) := by
  refine ⟨displayDirect,fun transparent => ?_⟩
  by_contra hidden
  obtain ⟨x,less⟩ := braceLost hidden
  rw [transparent x] at less
  exact absurd less (Nat.lt_irrefl _)

end braces

section characters
variable {e : Shape}

theorem characterPlainly (same : e.forget = .char) : e.ListsPlainly := by
  induction e with
  | char => trivial
  | ref t ih => exact ih same
  | _ => cases same

theorem displayCharacter (same : e.forget = .char) (x : e.Value) : e.display x = [e.character same x] := by
  induction e with
  | char => rfl
  | ref t ih => exact ih same x
  | _ => cases same

theorem charactersQuoted (cs : List Char) : (list .char).display cs = '"' :: cs ++ ['"'] := by
  have parts : (cs.map ([·])).flatten = cs := by rw [← List.flatMap_def,List.flatMap_singleton']
  change '"' :: (cs.map ([·])).flatten ++ ['"'] = _
  rw [parts]

theorem charactersBraced (refers : e.RefersToChar) (xs : List e.Value) :
    (list e).display xs = Text.braced ((xs.map (e.character refers.1)).map ([·])) := by
  rw [displayList,encloseBraced refers.2,List.map_map]
  exact congrArg Text.braced (List.map_congr_left fun x _ => displayCharacter refers.1 x)

theorem charactersForget (same : e.forget = .char) (xs : List e.Value) :
    (list e).forget.display ((list e).direct xs) = (list .char).display (xs.map (e.character same)) := by
  have elements : (xs.map fun x => e.forget.display (e.direct x)) = (xs.map (e.character same)).map ([·]) := by
    rw [List.map_map]
    apply List.map_congr_left
    intro x _
    rw [← displayDirect (characterPlainly same)]
    exact displayCharacter same x
  rw [forgetList,elements,same]
  rfl

end characters

/-- A reference is displayed as what it refers to, whatever the value, exactly if no list has elements that refer
to characters. Such a list has its characters in braces, and never looks like the quoted list of the characters
themselves. -/
theorem referencesShowInLists :
    (∀ s : Shape, s.ListsPlainly ↔ ∀ x : s.Value, s.display x = s.forget.display (s.direct x)) ∧
    ∀ (e : Shape) (refers : e.RefersToChar) (xs : List e.Value),
      let cs := xs.map (e.character refers.1)
      (list e).display xs = Text.braced (cs.map ([·])) ∧
      (list .char).display cs = '"' :: cs ++ ['"'] ∧
      (list e).forget.display ((list e).direct xs) = (list .char).display cs ∧
      (list e).display xs ≠ (list .char).display cs := by
  refine ⟨transparentIff,fun e refers xs => ⟨charactersBraced refers xs,charactersQuoted _,
    charactersForget refers.1 xs,fun same => ?_⟩⟩
  rw [charactersBraced refers,charactersQuoted] at same
  exact absurd (List.cons.inj same).1 (by decide)

/- Lists of characters behind references, beside a character behind two of them. -/
def inscribed : Shape := .list (.pair (.ref (.ref .char)) (.ref (.list (.ref (.list .char)))))
def inscription : inscribed.Value := [('{',[['"',','],[]])]

def remote : Shape := .ref (.ref .char)
def brackets : List remote.Value := ['{','"','}']

theorem bracketsShown :
    inscribed.ListsPlainly ∧ inscribed.display inscription = inscribed.forget.display (inscribed.direct inscription) ∧
    remote.RefersToChar ∧ (list remote).display brackets = "\x7b\x7b, \", \x7d\x7d".toList ∧
    (list .char).display ['{','"','}'] = "\"\x7b\"\x7d\"".toList ∧
    (list remote).display brackets ≠ (list .char).display ['{','"','}'] := by
  have plainly : inscribed.ListsPlainly := by simp [inscribed,ListsPlainly,RefersToChar,forget]
  have refers : remote.RefersToChar := by decide
  obtain ⟨transparent,lists⟩ := referencesShowInLists
  obtain ⟨braced,quoted,_,apart⟩ := lists remote refers brackets
  exact ⟨plainly,(transparent inscribed).mp plainly inscription,refers,braced,quoted,apart⟩

end Shape
end AutomatonDump
