import AutomatonDump.Proofs.Dump.Route
import AutomatonDump.Proofs.Dump.Tag
import AutomatonDump.Proofs.Text.Arrangement
import AutomatonDump.Proofs.Traversal.Coverage
import Mathlib.Data.List.Flatten
/-! The outcome of a dump, told from the passages that its start reaches and not from the route
that finds them: their lines in ascending order if every label is accepted, otherwise an error.
Only the start itself decides whether there is a text at all. The pieces of a text are those of the
lines that were put in, which only rule names and labels can break. -/
namespace AutomatonDump
variable {L ε : Type}

namespace Automaton
variable {a : Automaton L} {resolve : Resolver L ε} {p : a.Place}

theorem routeForall (w : a.WellFormed) (holds : L → Prop) : (∀ x ∈ a.route p, holds x.label) ↔
    ∀ x ∈ a.roster.passagesFrom (a.number p), holds x.label := by
  have same := routePassages w p
  constructor
  · intro all x inside
    obtain ⟨link,here,rfl⟩ := List.mem_map.mp (same.mem_iff.mpr inside)
    exact all link here
  · intro all link here
    exact all _ (same.mem_iff.mp (List.mem_map.mpr ⟨link,here,rfl⟩))

theorem outcomeAccepted (w : a.WellFormed)
    (accepts : ∀ x ∈ a.roster.passagesFrom (a.number p), resolve.Accepts x.label) :
    (a.reportFrom resolve (some p)).outcome = .ok (some (compose
      ((a.roster.passagesFrom (a.number p)).map fun x => (x.relabel resolve.text).line))) := by
  have lines := (routePassages w p).map fun x => (x.relabel resolve.text).line
  simp only [List.map_map,Function.comp_def,passageLine] at lines
  rw [reportAccepted ((routeForall w _).mpr accepts),← composePerm lines]

theorem outcomeRefused (w : a.WellFormed) {x : Passage L} {e : ε}
    (inside : x ∈ a.roster.passagesFrom (a.number p)) (refused : resolve x.label = .error e) :
    ∃ e, (a.reportFrom resolve (some p)).outcome = .error e := by
  rcases resolve.firstRefusal Link.label (a.route p) with all | ⟨before,y,after,e,place,accepted,first⟩
  · exact absurd ((routeForall w _).mp all x inside) (Resolver.notAccepted refused)
  · exact ⟨e,by rw [reportRefused place accepted first]⟩

theorem acceptedOutcome (w : a.WellFormed) {t : Text}
    (shown : (a.reportFrom resolve (some p)).outcome = .ok (some t)) :
    ∀ x ∈ a.roster.passagesFrom (a.number p), resolve.Accepts x.label := by
  rcases resolve.someRefusal Passage.label (a.roster.passagesFrom (a.number p)) with all | ⟨x,inside,e,refused⟩
  · exact all
  · obtain ⟨e',failed⟩ := outcomeRefused w inside refused
    rw [failed] at shown
    cases shown

theorem outcomeError (w : a.WellFormed) : (∃ e, (a.reportFrom resolve (some p)).outcome = .error e) ↔
    ∃ x ∈ a.roster.passagesFrom (a.number p), ∃ e, resolve x.label = .error e := by
  constructor
  · rintro ⟨e,failed⟩
    rcases resolve.someRefusal Passage.label (a.roster.passagesFrom (a.number p)) with all | refusal
    · rw [outcomeAccepted w all] at failed
      cases failed
    · exact refusal
  · rintro ⟨x,inside,e,refused⟩
    exact outcomeRefused w inside refused

theorem outcomeStarted (p : a.Place) : (a.reportFrom resolve (some p)).outcome ≠ .ok none := by
  rcases resolve.firstRefusal Link.label (a.route p) with all | ⟨before,y,after,e,place,accepted,first⟩
  · rw [reportAccepted all]
    exact fun none => nomatch none
  · rw [reportRefused place accepted first]
    exact fun none => nomatch none

end Automaton

section
variable {ls : List Text}

theorem composedPieces (some : ls ≠ []) :
    Text.pieces (compose ls) = (ls.flatMap Text.pieces).mergeSort Text.inOrder := by
  have filled : Text.terminated '\n' ls ≠ [] := fun none => some (Text.terminatedNothing.mp none)
  rw [← Text.linesTerminated]
  exact Text.sortedPieces filled

theorem composedOrdered {t : Text} (same : (Text.pieces t).Perm (ls.flatMap Text.pieces))
    (ordered : (Text.pieces t).Pairwise fun s u => Text.inOrder s u = true) : compose ls = t := by
  rw [← Text.linesTerminated] at same
  exact Text.sortLinesReached same ordered

theorem composeNothing : compose [] = [] := Text.sortLinesNothing

theorem composedEmpty (solid : ∀ l ∈ ls, l ≠ []) : compose ls = [] ↔ ls = [] := by
  refine ⟨fun empty => ?_,fun none => none ▸ composeNothing⟩
  cases ls with
  | nil => rfl
  | cons l rest =>
    have single : [[]] = ((l :: rest).flatMap Text.pieces).mergeSort Text.inOrder :=
      (congrArg Text.pieces empty).symm.trans (composedPieces (List.cons_ne_nil l rest))
    have all : Text.pieces l ++ rest.flatMap Text.pieces = [[]] :=
      List.perm_singleton.mp (single ▸ (List.mergeSort_perm _ Text.inOrder).symm)
    have only : Text.pieces l = [[]] := by
      rcases List.append_eq_singleton_iff.mp all with ⟨none,_⟩ | ⟨only,_⟩
      · exact absurd none (List.splitOn_ne_nil _ l)
      · exact only
    have gone : l = [] := by rw [← Text.unlinesPieces l,only]; rfl
    exact absurd gone (solid l List.mem_cons_self)

theorem composedGrows {ms : List Text} (some : ls ≠ []) (inside : ls.Subperm ms) :
    (Text.pieces (compose ls)).Subperm (Text.pieces (compose ms)) := by
  have some' : ms ≠ [] := fun none => some (List.subperm_nil.mp (none ▸ inside))
  obtain ⟨chosen,same,sub⟩ := inside
  have pieces : (ls.flatMap Text.pieces).Subperm (ms.flatMap Text.pieces) :=
    ⟨_,same.flatMap_right Text.pieces,sub.flatMap Text.pieces⟩
  rw [composedPieces some,composedPieces some']
  exact (List.mergeSort_perm _ Text.inOrder).subperm.trans
    (pieces.trans (List.mergeSort_perm _ Text.inOrder).symm.subperm)

theorem composedLineCount (solid : ∀ l ∈ ls, l ≠ []) :
    (compose ls).lineCount = ls.length + ls.flatten.count '\n' := by
  by_cases none : ls = []
  · rw [none,composeNothing]
    rfl
  · rw [Text.lineCount,if_neg fun empty => none ((composedEmpty solid).mp empty),← Text.piecesCounted,
      composedPieces none,List.length_mergeSort,Text.piecesOfAll]

end

namespace Acceptance

def Unbroken : Acceptance → Prop
  | .rules names => ∀ name ∈ names, '\n' ∉ name
  | _ => True
instance (a : Acceptance) : Decidable a.Unbroken :=
  match a with
  | .nothing => .isTrue trivial
  | .rules names => inferInstanceAs (Decidable (∀ name ∈ names, '\n' ∉ name))
  | .alternative _ => .isTrue trivial

theorem payloadUnbroken {a : Acceptance} : '\n' ∉ a.payload ↔ a.Unbroken := by
  cases a with
  | nothing => exact iff_of_true List.not_mem_nil trivial
  | rules names => simp [payload,Unbroken]
  | alternative index =>
    refine iff_of_true (fun inside => ?_) trivial
    rcases integerCharacters inside with ⟨minus,_⟩ | digit
    · exact absurd minus (by decide)
    · exact absurd digit (by decide)

theorem tagUnbroken (n : Number) {a : Acceptance} : '\n' ∉ tag n a ↔ a.Unbroken := by
  rw [← payloadUnbroken]
  constructor
  · intro whole inside
    rcases Classical.em (a = .nothing) with rfl | accepting
    · exact List.not_mem_nil inside
    · rw [tagAccepting n accepting] at whole
      exact whole (by simp [inside])
  · intro whole inside
    rcases tagCharacters inside with sign | digit | later
    · exact absurd sign (by decide)
    · exact absurd digit (by decide)
    · exact whole later

end Acceptance

namespace Passage

theorem lineMarks (x : Passage Text) : x.line =
    tag x.source x.sourceAcceptance ++ '-' :: (x.label ++ '-' :: '>' :: tag x.target x.targetAcceptance) := by
  simp [line]

theorem lineNonempty (x : Passage Text) : x.line ≠ [] := by
  rw [lineMarks]
  exact List.append_ne_nil_of_left_ne_nil (tagNonempty _ _) _

structure Unbroken (x : Passage Text) : Prop where
  source : x.sourceAcceptance.Unbroken
  label : '\n' ∉ x.label
  target : x.targetAcceptance.Unbroken

theorem lineUnbroken (x : Passage Text) : '\n' ∉ x.line ↔ x.Unbroken := by
  have marks : '\n' ≠ '-' ∧ '\n' ≠ '>' := by decide
  rw [lineMarks]
  simp only [List.mem_append,List.mem_cons,marks,false_or,not_or]
  rw [Acceptance.tagUnbroken,Acceptance.tagUnbroken]
  exact ⟨fun ⟨source,label,target⟩ => ⟨source,label,target⟩,fun h => ⟨h.source,h.label,h.target⟩⟩

end Passage

def Resolver.line (resolve : Resolver L ε) (x : Passage L) : Text := (x.relabel resolve.text).line

namespace Automaton
variable {a : Automaton L} {resolve : Resolver L ε} {p : a.Place}

theorem textShown (w : a.WellFormed) {t : Text} : (a.reportFrom resolve (some p)).outcome = .ok (some t) ↔
    (∀ x ∈ a.roster.passagesFrom (a.number p), resolve.Accepts x.label) ∧
      t = compose ((a.roster.passagesFrom (a.number p)).map resolve.line) := by
  constructor
  · intro shown
    have accepts := acceptedOutcome w shown
    exact ⟨accepts,Option.some.inj (Except.ok.inj (shown.symm.trans (outcomeAccepted w accepts)))⟩
  · rintro ⟨accepts,rfl⟩
    exact outcomeAccepted w accepts

noncomputable def linesFrom (a : Automaton L) (resolve : Resolver L ε) (p : a.Place) : List Text :=
  (a.roster.passagesFrom (a.number p)).map resolve.line

theorem textLines (w : a.WellFormed) {t : Text} (shown : (a.reportFrom resolve (some p)).outcome = .ok (some t)) :
    t = compose (a.linesFrom resolve p) := ((textShown w).mp shown).2

/- The text is made of the lines on the route, as far as can be seen without sorting. -/
def Yields (a : Automaton L) (resolve : Resolver L ε) (p : a.Place) (t : Text) : Prop :=
  (∀ x ∈ a.route p, resolve.Accepts x.label) ∧
  (Text.pieces t).Perm (((a.route p).map fun x => a.line x (resolve.text x.label)).flatMap Text.pieces) ∧
  (Text.pieces t).Pairwise fun s u => Text.inOrder s u = true
instance (a : Automaton L) (resolve : Resolver L ε) (p : a.Place) (t : Text) : Decidable (a.Yields resolve p t) := by
  unfold Yields
  infer_instance

theorem reportYields {t : Text} (yields : ∃ p, a.start? = some p ∧ a.Yields resolve p t) :
    (a.report resolve).outcome = .ok (some t) := by
  obtain ⟨p,found,accepts,same,ordered⟩ := yields
  rw [reportStarted found,reportAccepted accepts,composedOrdered same ordered]

end Automaton

/-- A dump has no text exactly when there is no start. Otherwise, if the label of every passage from
the start is accepted, its text joins the pieces of their lines, arranged by bytes. -/
theorem dumpArrangesPassages (c : Construction L) (resolve : Resolver L ε) (start : Option c.automaton.Place) :
    ((c.automaton.reportFrom resolve start).outcome = .ok none ↔ start = none) ∧
    ∀ p, start = some p →
      (∀ x ∈ c.automaton.roster.passagesFrom (c.automaton.number p), resolve.Accepts x.label) →
      ∃ arranged : List Text,
        (c.automaton.reportFrom resolve start).outcome = .ok (some (['\n'].intercalate arranged)) ∧
        arranged.Perm ((c.automaton.roster.passagesFrom (c.automaton.number p)).flatMap fun x =>
          (x.relabel resolve.text).line.splitOn '\n') ∧
        arranged.Pairwise Text.BytesAscend := by
  refine ⟨?_,?_⟩
  · cases start with
    | none => exact ⟨fun _ => rfl,fun _ => rfl⟩
    | some p => exact ⟨fun none => absurd none (Automaton.outcomeStarted p),fun none => nomatch none⟩
  · rintro p rfl accepts
    refine ⟨_,?_,List.mergeSort_perm _ Text.inOrder,?_⟩
    · rw [Automaton.outcomeAccepted c.automatonWellFormed accepts,composeArranged,List.flatMap_map]
      rfl
    · have ordered := List.pairwise_mergeSort Text.inOrderTrans Text.inOrderTotal
        ((c.automaton.roster.passagesFrom (c.automaton.number p)).flatMap fun x =>
          Text.pieces (x.relabel resolve.text).line)
      exact ordered.imp Text.inOrderIffBytes.mp

/- A cycle, a double edge, a loop, a label that breaks its line, and a refused label out of reach. -/
def tangle : Construction Text where
  clauses := [.state 4 (.rules ["NUM".toList,"FLOAT".toList]),
    .edges [(0,"a".toList,1),(1,"b".toList,0),(0,"a".toList,1),(1,"c\nd".toList,4),(5,"?".toList,0)]]
  start := some 0
  changes := [.connect 4 "e".toList 4]

def questioning : Resolver Text Text := Resolver.strict .text ["?".toList]

def verbatim : Resolver Text Empty := Resolver.plain .text

def tangleText : Text :=
  (":s4=> NUM FLOAT-e->:s4=> NUM FLOAT\n" ++
    "d->:s4=> NUM FLOAT\ns0-a->s1\ns0-a->s1\ns1-b->s0\ns1-c").toList

theorem tangleOutcome : (tangle.automaton.report verbatim).outcome = .ok (some tangleText) :=
  Automaton.reportYields (by decide +kernel)

theorem tangleArranged : ∃ p, tangle.automaton.start? = some p ∧
    (∀ x ∈ tangle.automaton.roster.passagesFrom (tangle.automaton.number p), questioning.Accepts x.label) ∧
    (tangle.automaton.reportFrom questioning (some p)).outcome = .ok (some tangleText) ∧
    ∃ arranged : List Text,
      tangleText = ['\n'].intercalate arranged ∧
      arranged.Perm ((tangle.automaton.roster.passagesFrom (tangle.automaton.number p)).flatMap fun x =>
        (x.relabel questioning.text).line.splitOn '\n') ∧
      arranged.Pairwise Text.BytesAscend := by
  have yields : ∃ p, tangle.automaton.start? = some p ∧ tangle.automaton.Yields questioning p tangleText := by
    decide +kernel
  have outcome := Automaton.reportYields yields
  obtain ⟨p,found,accepts,_⟩ := yields
  rw [Automaton.reportStarted found] at outcome
  have passages := (Automaton.routeForall tangle.automatonWellFormed _).mp accepts
  obtain ⟨arranged,shown,same,ascend⟩ := (dumpArrangesPassages tangle questioning (some p)).2 p rfl passages
  have text : tangleText = ['\n'].intercalate arranged :=
    Option.some.inj (Except.ok.inj (outcome.symm.trans shown))
  exact ⟨p,found,passages,outcome,arranged,text,same,ascend⟩

end AutomatonDump
