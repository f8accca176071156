import AutomatonDump.Dump.Report
import AutomatonDump.Proofs.Text.Legible
import AutomatonDump.Proofs.Text.Pieces
/-! Tags tell states apart. A tag is read from the left: its kind shows in the first character,
the number ends where the arrow begins, and what follows is a list of names, each after a
space, or a number, which has none. -/
namespace AutomatonDump

namespace Acceptance

def Spaceless : Acceptance → Prop
  | .rules names => ∀ name ∈ names, ' ' ∉ name
  | _ => True
instance (a : Acceptance) : Decidable a.Spaceless :=
  match a with
  | .nothing => .isTrue trivial
  | .rules names => inferInstanceAs (Decidable (∀ name ∈ names, ' ' ∉ name))
  | .alternative _ => .isTrue trivial

def payload : Acceptance → Text
  | .nothing => []
  | .rules names => names.flatMap (' ' :: ·)
  | .alternative index => Text.integer index.toInt

theorem integerCharacters {i : Int} {c : Char} (h : c ∈ Text.integer i) : c = '-' ∧ i < 0 ∨ c.isDigit := by
  cases i with
  | ofNat n => exact .inr (Text.naturalDigits h)
  | negSucc n =>
    rcases List.mem_cons.mp h with minus | digit
    · exact .inl ⟨minus,Int.negSucc_lt_zero n⟩
    · exact .inr (Text.naturalDigits digit)

theorem integerSpaceless (i : Int) : ' ' ∉ Text.integer i := by
  intro h
  rcases integerCharacters h with ⟨minus,_⟩ | digit
  · exact absurd minus (by decide)
  · exact absurd digit (by decide)

theorem namesInjective {names others : List Text} (left : ∀ name ∈ names, ' ' ∉ name)
    (right : ∀ name ∈ others, ' ' ∉ name)
    (same : names.flatMap (' ' :: ·) = others.flatMap (' ' :: ·)) : names = others := by
  -- Moving the first space to the end turns a space before each name into one after each.
  have turned (xs : List Text) : xs.flatMap (' ' :: ·) ++ [' '] = ' ' :: Text.terminated ' ' xs := by
    induction xs with
    | nil => rfl
    | cons x rest ih => simp only [List.flatMap_cons,List.append_assoc,ih,Text.terminated]; simp
  have closed := congrArg (· ++ [' ']) same
  simp only [turned] at closed
  exact Text.terminatedInjective left right (List.cons.inj closed).2

theorem namesNotInteger (names : List Text) (i : Int) : names.flatMap (' ' :: ·) ≠ Text.integer i := by
  intro same
  cases names with
  | nil =>
    obtain ⟨c,later,text,_⟩ := Text.integerBegins i
    exact List.cons_ne_nil c later (text.symm.trans same.symm)
  | cons name rest => exact integerSpaceless i (same ▸ List.mem_cons_self)

theorem payloadInjective {a b : Acceptance} (left : a.Spaceless) (right : b.Spaceless)
    (first : a ≠ .nothing) (second : b ≠ .nothing) (same : a.payload = b.payload) : a = b := by
  cases a with
  | nothing => exact absurd rfl first
  | rules names =>
    cases b with
    | nothing => exact absurd rfl second
    | rules others => rw [namesInjective left right same]
    | alternative index => exact absurd same (namesNotInteger _ _)
  | alternative index =>
    cases b with
    | nothing => exact absurd rfl second
    | rules others => exact absurd same.symm (namesNotInteger _ _)
    | alternative other => rw [Int32.toInt_inj.mp (Text.integerInjective same)]

end Acceptance

theorem tagAccepting (n : Number) {a : Acceptance} (accepting : a ≠ .nothing) :
    tag n a = ':' :: 's' :: (Text.natural n.toNat ++ '=' :: '>' :: a.payload) := by
  cases a with
  | nothing => exact absurd rfl accepting
  | rules names => simp [tag,Acceptance.payload]
  | alternative index => simp [tag,Acceptance.payload]

theorem naturalAvoids {c : Char} (h : c.isDigit = false) (n : Nat) : c ∉ Text.natural n := fun inside =>
  absurd (Text.naturalDigits inside) (by rw [h]; exact Bool.false_ne_true)

theorem tagInjective {m n : Number} {a b : Acceptance} (left : a.Spaceless) (right : b.Spaceless)
    (same : tag m a = tag n b) : m = n ∧ a = b := by
  rcases Classical.em (a = .nothing) with rfl | first
  · rcases Classical.em (b = .nothing) with rfl | second
    · exact ⟨UInt32.toNat_inj.mp (Text.naturalInjective (List.cons.inj same).2),rfl⟩
    · rw [tagAccepting n second] at same
      exact absurd (List.cons.inj same).1 (by decide)
  · rcases Classical.em (b = .nothing) with rfl | second
    · rw [tagAccepting m first] at same
      exact absurd (List.cons.inj same).1 (by decide)
    · rw [tagAccepting m first,tagAccepting n second] at same
      have behind := (List.cons.inj (List.cons.inj same).2).2
      obtain ⟨numbers,arrows⟩ := Text.firstMarkSplits (naturalAvoids rfl _) (naturalAvoids rfl _) behind
      exact ⟨UInt32.toNat_inj.mp (Text.naturalInjective numbers),
        Acceptance.payloadInjective left right first second (List.cons.inj arrows).2⟩

/- With a space in it, one name is tagged like two. -/
example : tag 1 (.rules ["a b".toList]) = tag 1 (.rules ["a".toList,"b".toList]) := by decide

theorem tagNonempty (n : Number) (a : Acceptance) : tag n a ≠ [] := by
  rcases Classical.em (a = .nothing) with rfl | accepting
  · exact List.cons_ne_nil _ _
  · rw [tagAccepting n accepting]
    exact List.cons_ne_nil _ _

theorem tagCharacters {n : Number} {a : Acceptance} {c : Char} (h : c ∈ tag n a) :
    c ∈ ":s=>".toList ∨ c.isDigit ∨ c ∈ a.payload := by
  rcases Classical.em (a = .nothing) with rfl | accepting
  · rcases List.mem_cons.mp h with rfl | digit
    · exact .inl (by decide)
    · exact .inr (.inl (Text.naturalDigits digit))
  · rw [tagAccepting n accepting] at h
    simp only [List.mem_cons,List.mem_append] at h
    rcases h with rfl | rfl | digit | rfl | rfl | later
    · exact .inl (by decide)
    · exact .inl (by decide)
    · exact .inr (.inl (Text.naturalDigits digit))
    · exact .inl (by decide)
    · exact .inl (by decide)
    · exact .inr (.inr later)

/-- Two states with no space in their rule names are tagged alike exactly if they have the same number and
accept the same; their edges do not matter. -/
theorem tagsTellStates {L M : Type} {s : State L} {t : State M} (left : s.acceptance.Spaceless)
    (right : t.acceptance.Spaceless) :
    s.tag = t.tag ↔ s.number = t.number ∧ s.acceptance = t.acceptance := by
  constructor
  · exact tagInjective left right
  · rintro ⟨numbers,acceptances⟩
    rw [State.tag,State.tag,numbers,acceptances]

/- A name that looks like a tag, a name that looks like an alternative, and names that are empty. -/
def impostor : State Text := ⟨4294967295,.rules ["s1=>-7".toList,[],"-7".toList],#[]⟩
def regrouped : State Unit := ⟨4294967295,.rules [[],"s1=>-7".toList,"-7".toList],#[⟨(),0⟩]⟩
def rejoined : State Unit := ⟨4294967295,.rules ["s1=>-7".toList,[],"-7".toList],#[⟨(),0⟩]⟩

theorem impostorTold :
    impostor.acceptance.Spaceless ∧ regrouped.acceptance.Spaceless ∧ rejoined.acceptance.Spaceless ∧
    impostor.tag = ":s4294967295=> s1=>-7  -7".toList ∧ impostor.tag ≠ regrouped.tag ∧
    impostor.tag = rejoined.tag := by
  have first : impostor.acceptance.Spaceless := by decide
  have second : regrouped.acceptance.Spaceless := by decide
  have third : rejoined.acceptance.Spaceless := by decide
  have apart : impostor.acceptance ≠ regrouped.acceptance := by decide
  exact ⟨first,second,third,by decide +kernel,fun same => apart ((tagsTellStates first second).mp same).2,
    (tagsTellStates first third).mpr ⟨rfl,rfl⟩⟩

end AutomatonDump
