import AutomatonDump.Proofs.Automaton.Handles
import AutomatonDump.Proofs.Dump.Outcome
import AutomatonDump.Proofs.Label.Resolution
/-! The lines of a dump. Each line that is put in shows a dash, so that sorting the text once more changes
nothing. There is one for each passage and one more for every line break in a label or in the name of a
rule; a lexer brings no break along in its labels. -/
namespace AutomatonDump
variable {L ε : Type}

theorem composedCanonical {ls : List Text} (solid : ∀ l ∈ ls, ∃ c ∈ l, c ≠ '\n') :
    (compose ls).getLast? ≠ some '\n' ∧ Text.sortLines (compose ls) = compose ls := by
  cases ls with
  | nil =>
    rw [composeNothing]
    exact ⟨nofun,composeNothing⟩
  | cons l rest =>
    obtain ⟨c,inside,letter⟩ := solid l List.mem_cons_self
    have part : c ∈ Text.terminated '\n' (l :: rest) :=
      List.mem_flatMap.mpr ⟨l,List.mem_cons_self,List.mem_append_left _ inside⟩
    exact Text.solidSettles ⟨c,part,letter⟩

theorem Passage.lineDash (x : Passage Text) : '-' ∈ x.line := by
  rw [lineMarks]
  exact List.mem_append_right _ List.mem_cons_self

namespace Automaton
variable {a : Automaton L} {p : a.Place}

theorem routeEmpty : a.route p = [] ↔ a.links p = [] := by
  have first : a.visits p = p :: ((Frontier.outset p).visit p []).run :=
    Frontier.runVisit rfl Std.TreeSet.not_mem_emptyc
  rw [route,first,List.flatMap_cons,List.append_eq_nil_iff]
  refine and_iff_left_of_imp fun none => ?_
  have queue : ((Frontier.outset p).visit p []).waiting = [] := congrArg (List.map Link.target) none
  rw [Frontier.runEmpty queue]
  rfl

theorem passagesEmpty (w : a.WellFormed) : a.roster.passagesFrom (a.number p) = [] ↔ (a.state p).edges = #[] := by
  rw [← List.length_eq_zero_iff,← routeLength w,List.length_eq_zero_iff,routeEmpty,← List.length_eq_zero_iff,
    linksCounted w,Array.size_eq_zero_iff]

end Automaton

/-- The text of a dump does not end with a line break, sorting its lines again changes nothing, and it is
empty exactly if no edge leaves the start. -/
theorem dumpStaysSorted (c : Construction L) (p : c.automaton.Place) (resolve : Resolver L ε) {t : Text}
    (shown : (c.automaton.reportFrom resolve (some p)).outcome = .ok (some t)) :
    t.getLast? ≠ some '\n' ∧ Text.sortLines t = t ∧ (t = [] ↔ (c.automaton.state p).edges = #[]) := by
  have w := c.automatonWellFormed
  have text : t = compose (c.automaton.linesFrom resolve p) := Automaton.textLines w shown
  have dashes : ∀ l ∈ c.automaton.linesFrom resolve p, '-' ∈ l :=
    List.forall_mem_map.mpr fun x _ => Passage.lineDash _
  obtain ⟨ends,fixed⟩ := composedCanonical fun l inside => ⟨'-',dashes l inside,by decide⟩
  refine ⟨text ▸ ends,text ▸ fixed,?_⟩
  rw [text,composedEmpty fun l inside => List.ne_nil_of_mem (dashes l inside),Automaton.linesFrom,
    List.map_eq_nil_iff,Automaton.passagesEmpty w]

/- One edge with breaks around its label and around the name of a rule. -/
def frayed : Construction Text where
  clauses := [.state 1 (.rules ["\nX\n".toList]),.edges [(0,"\n\na\n".toList,1)]]
  start := some 0
  changes := []

def frayedText : Text := "\n\n->:s1=> \nX\na\ns0-".toList

theorem frayedOutcome : (frayed.automaton.report verbatim).outcome = .ok (some frayedText) :=
  Automaton.reportYields (by decide +kernel)

theorem frayedSorted : ∃ p, frayed.automaton.start? = some p ∧
    (frayed.automaton.reportFrom verbatim (some p)).outcome = .ok (some frayedText) ∧
    frayedText.getLast? ≠ some '\n' ∧ Text.sortLines frayedText = frayedText ∧
    (frayedText = [] ↔ (frayed.automaton.state p).edges = #[]) := by
  have start : ∃ p, frayed.automaton.start? = some p := by decide +kernel
  obtain ⟨p,found⟩ := start
  have shown := frayedOutcome
  rw [Automaton.reportStarted found] at shown
  exact ⟨p,found,shown,dumpStaysSorted frayed p verbatim shown⟩

namespace Automaton
variable {a : Automaton L} {resolve : Resolver L ε} {p : a.Place}

theorem composedReport (w : a.WellFormed) {t : Text}
    (shown : (a.reportFrom resolve (some p)).outcome = .ok (some t)) :
    let passages := (a.roster.passagesFrom (a.number p)).map (Passage.relabel resolve.text)
    t = compose (passages.map Passage.line) ∧
    ∃ states, (a.reportFrom resolve (some p)).events = [.visited states passages.length,.produced t] := by
  intro passages
  obtain ⟨accepts,composed⟩ := (textShown w).mp shown
  have text : t = compose (passages.map Passage.line) := by
    rw [composed,List.map_map]
    rfl
  have counted : (a.route p).length = passages.length := (routeLength w p).trans (List.length_map _).symm
  have report := reportAccepted ((routeForall w resolve.Accepts).mpr accepts)
  refine ⟨text,(a.visits p).length,?_⟩
  rw [report] at shown ⊢
  rw [counted,Option.some.inj (Except.ok.inj shown)]

end Automaton

/-- The lines of a dump outnumber its passages by the line breaks within them, so that there is one line
for each exactly if no label is broken and no name of a rule at an end of an edge. -/
theorem breaksMakeLines (c : Construction L) (p : c.automaton.Place) (resolve : Resolver L ε) {t : Text}
    (shown : (c.automaton.reportFrom resolve (some p)).outcome = .ok (some t)) :
    let passages := (c.automaton.roster.passagesFrom (c.automaton.number p)).map (Passage.relabel resolve.text)
    (∃ states, (c.automaton.reportFrom resolve (some p)).events =
      [.visited states passages.length,.produced t]) ∧
    t.lineCount = passages.length + (passages.map Passage.line).flatten.count '\n' ∧
    (t.lineCount = passages.length ↔ ∀ x ∈ passages, x.Unbroken) := by
  intro passages
  obtain ⟨text,events⟩ := Automaton.composedReport c.automatonWellFormed shown
  have solid : ∀ l ∈ passages.map Passage.line, l ≠ [] :=
    List.forall_mem_map.mpr fun x _ => Passage.lineNonempty x
  have lines : t.lineCount = passages.length + (passages.map Passage.line).flatten.count '\n' := by
    rw [text,composedLineCount solid,List.length_map]
  refine ⟨events,lines,?_⟩
  rw [lines,Nat.add_eq_left,List.count_eq_zero]
  constructor
  · intro unbroken x inside
    refine (Passage.lineUnbroken x).mp fun broken => unbroken ?_
    exact List.mem_flatten.mpr ⟨x.line,List.mem_map.mpr ⟨x,inside,rfl⟩,broken⟩
  · intro whole broken
    obtain ⟨l,listed,here⟩ := List.mem_flatten.mp broken
    obtain ⟨x,inside,rfl⟩ := List.mem_map.mp listed
    exact (Passage.lineUnbroken x).mpr (whole x inside) here

/- One edge with a break in its label. -/
def severed : Construction Text where
  clauses := [.edges [(0,"a\nb".toList,1)]]
  start := some 0
  changes := []

theorem severedOutcome : (severed.automaton.report verbatim).outcome = .ok (some "b->s1\ns0-a".toList) :=
  Automaton.reportYields (by decide +kernel)

theorem severedLines : ∃ p, severed.automaton.start? = some p ∧
    (severed.automaton.reportFrom verbatim (some p)).outcome = .ok (some "b->s1\ns0-a".toList) ∧
    let passages :=
      (severed.automaton.roster.passagesFrom (severed.automaton.number p)).map (Passage.relabel verbatim.text)
    (∃ states, (severed.automaton.reportFrom verbatim (some p)).events =
      [.visited states passages.length,.produced "b->s1\ns0-a".toList]) ∧
    Text.lineCount "b->s1\ns0-a".toList =
      passages.length + (passages.map Passage.line).flatten.count '\n' ∧
    (Text.lineCount "b->s1\ns0-a".toList = passages.length ↔ ∀ x ∈ passages, x.Unbroken) := by
  have start : ∃ p, severed.automaton.start? = some p := by decide +kernel
  obtain ⟨p,found⟩ := start
  have shown := severedOutcome
  rw [Automaton.reportStarted found] at shown
  exact ⟨p,found,shown,breaksMakeLines severed p verbatim shown⟩

theorem oneEdgeTwoLines : ¬ ∀ (c : Construction Text) (p : c.automaton.Place) (t : Text),
    (c.automaton.reportFrom verbatim (some p)).outcome = .ok (some t) →
    t.lineCount = (c.automaton.roster.passagesFrom (c.automaton.number p)).length := by
  intro always
  have start : ∃ p, severed.automaton.start? = some p ∧ (severed.automaton.route p).length = 1 := by decide +kernel
  obtain ⟨p,found,single⟩ := start
  have shown := severedOutcome
  rw [Automaton.reportStarted found] at shown
  have passages := Automaton.routeLength severed.automatonWellFormed p
  rw [single,← always severed p _ shown] at passages
  exact absurd passages (by decide)

namespace Roster
variable {r : Roster Condition} {n : Number} {v : Lexicon}

theorem lexerPassages (characters : v.reading = .characters)
    (states : ∀ e ∈ r.entries, r.Reaches n e.number → e.acceptance.Unbroken)
    (accepts : ∀ x ∈ r.passagesFrom n, Resolver.Accepts v.resolve x.label) :
    ∀ x ∈ (r.passagesFrom n).map (Passage.relabel (Resolver.text v.resolve)), x.Unbroken := by
  refine List.forall_mem_map.mpr fun x inside => ?_
  obtain ⟨source,target⟩ := endsReached Acceptance.Unbroken trivial states x inside
  have printable := Lexicon.resolvePrintable characters (Resolver.acceptedText (accepts x inside))
  exact ⟨source,fun broken => printable _ broken (by decide),target⟩

end Roster

/-- No label of a lexer is written with a control character. Where no rule within reach has a line
break in its name, the pieces of a dump are the lines of its passages in ascending order, and its text is
empty exactly if there are none. -/
theorem lexerLinesStayWhole :
    (∀ (v : Lexicon) (label : Condition) (t : Text), v.reading = .characters → v.resolve label = .ok t →
      t.Printable) ∧
    ∀ (c : Construction Condition) (p : c.automaton.Place) (v : Lexicon) (t : Text),
      v.reading = .characters →
      (∀ e ∈ c.automaton.roster.entries, c.automaton.roster.Reaches (c.automaton.number p) e.number →
        e.acceptance.Unbroken) →
      (c.automaton.reportFrom v.resolve (some p)).outcome = .ok (some t) →
      let passages := c.automaton.roster.passagesFrom (c.automaton.number p)
      let lines := (passages.map (Passage.relabel (Resolver.text v.resolve))).map Passage.line
      lines.length = passages.length ∧ (t = [] ↔ lines = []) ∧
      (lines ≠ [] → (Text.pieces t).Perm lines ∧ (Text.pieces t).Pairwise Text.BytesAscend) := by
  refine ⟨fun v label t characters ok => Lexicon.resolvePrintable characters ok,?_⟩
  intro c p v t characters states shown passages lines
  have w := c.automatonWellFormed
  have text : t = compose lines := (Automaton.composedReport w shown).1
  have unbroken := Roster.lexerPassages characters states (Automaton.acceptedOutcome w shown)
  have solid : ∀ l ∈ lines, l ≠ [] := List.forall_mem_map.mpr fun x _ => Passage.lineNonempty x
  have whole : ∀ l ∈ lines, '\n' ∉ l :=
    List.forall_mem_map.mpr fun x inside => (Passage.lineUnbroken x).mpr (unbroken x inside)
  refine ⟨by simp [lines],text ▸ composedEmpty solid,fun some => ?_⟩
  have pieces : Text.pieces t = lines.mergeSort Text.inOrder := by
    rw [text,composedPieces some]
    exact congrArg (List.mergeSort · Text.inOrder) (Text.terminatedWhole whole)
  rw [pieces]
  refine ⟨List.mergeSort_perm lines Text.inOrder,?_⟩
  exact (List.pairwise_mergeSort Text.inOrderTrans Text.inOrderTotal lines).imp Text.inOrderIffBytes.mp

/- Control characters one by one, in a range and in a set, the end of the input, and a rule out of reach
whose name breaks its line. -/
def blanks : Construction Condition where
  clauses := [.state 1 (.rules ["BLANK".toList]),.state 7 (.rules ["a\nb".toList]),
    .edges [(0,.atom 10,1),(1,.oneOf [(0,31),(133,133),(39,92)],1),(1,.range (-1) 127,0),(7,.epsilon,0)]]
  start := some 0
  changes := []

def lexer : Lexicon := .ofReading .characters

def blankText : Text :=
  (":s1=> BLANK-EOF..'\\u007F'->s0\n" ++
    ":s1=> BLANK-\x7b'\\u0000'..'\\u001F', '\\u0085', '\\''..'\\\\'\x7d->:s1=> BLANK\n" ++
    "s0-'\\n'->:s1=> BLANK").toList

theorem blanksOutcome : (blanks.automaton.report lexer.resolve).outcome = .ok (some blankText) :=
  Automaton.reportYields (by decide +kernel)

theorem deletedText : lexer.resolve (.range (-1) 127) = .ok "EOF..'\\u007F'".toList := by decide +kernel

theorem blanksWhole : lexer.reading = .characters ∧
    lexer.resolve (.range (-1) 127) = .ok "EOF..'\\u007F'".toList ∧ Text.Printable "EOF..'\\u007F'".toList ∧
    ∃ p, blanks.automaton.start? = some p ∧
    (∀ e ∈ blanks.automaton.roster.entries,
      blanks.automaton.roster.Reaches (blanks.automaton.number p) e.number → e.acceptance.Unbroken) ∧
    (blanks.automaton.reportFrom lexer.resolve (some p)).outcome = .ok (some blankText) ∧
    let passages := blanks.automaton.roster.passagesFrom (blanks.automaton.number p)
    let lines := (passages.map (Passage.relabel (Resolver.text lexer.resolve))).map Passage.line
    lines.length = passages.length ∧ lines ≠ [] ∧
    (Text.pieces blankText).Perm lines ∧ (Text.pieces blankText).Pairwise Text.BytesAscend := by
  have start : ∃ p, blanks.automaton.start? = some p ∧
      (∀ q ∈ blanks.automaton.visits p, (blanks.automaton.state q).acceptance.Unbroken) ∧
      (blanks.automaton.route p).length = 3 := by decide +kernel
  obtain ⟨p,found,visited,edges⟩ := start
  have states := Automaton.entriesVisited blanks.automatonWellFormed visited
  have shown := blanksOutcome
  rw [Automaton.reportStarted found] at shown
  have printable := lexerLinesStayWhole.1 lexer _ _ rfl deletedText
  obtain ⟨each,_,pieces⟩ := lexerLinesStayWhole.2 blanks p lexer blankText rfl states shown
  have three := (Automaton.routeLength blanks.automatonWellFormed p).symm.trans edges
  have some := List.ne_nil_of_length_eq_add_one (each.trans three)
  exact ⟨rfl,deletedText,printable,p,found,states,shown,each,some,pieces some⟩

end AutomatonDump
