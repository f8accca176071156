import AutomatonDump.Proofs.Dump.Outcome
/-! The text of a dump determines the passages it shows. A line is split at its first and its last
dash, which belong to no tag, so that a label may contain anything but a line break. -/
namespace AutomatonDump
variable {L M ε δ : Type}

namespace Acceptance

/- Nothing in the tag can be taken for a mark of the line: neither a dash nor a line break, and
no space within a name. -/
def Plain : Acceptance → Prop
  | .nothing => True
  | .rules names => ∀ name ∈ names, ' ' ∉ name ∧ '-' ∉ name ∧ '\n' ∉ name
  | .alternative index => 0 ≤ index.toInt
instance (a : Acceptance) : Decidable a.Plain :=
  match a with
  | .nothing => .isTrue trivial
  | .rules names => inferInstanceAs (Decidable (∀ name ∈ names, ' ' ∉ name ∧ '-' ∉ name ∧ '\n' ∉ name))
  | .alternative index => inferInstanceAs (Decidable (0 ≤ index.toInt))

theorem plainSpaceless {a : Acceptance} (plain : a.Plain) : a.Spaceless := by
  cases a with
  | nothing => trivial
  | rules names => exact fun name inside => (plain name inside).1
  | alternative index => trivial

theorem plainUnbroken {a : Acceptance} (plain : a.Plain) : a.Unbroken := by
  cases a with
  | nothing => trivial
  | rules names => exact fun name inside => (plain name inside).2.2
  | alternative index => trivial

theorem plainTagDashless {a : Acceptance} (plain : a.Plain) (n : Number) : '-' ∉ tag n a := by
  intro h
  rcases tagCharacters h with sign | digit | later
  · exact absurd sign (by decide)
  · exact absurd digit (by decide)
  · cases a with
    | nothing => exact List.not_mem_nil later
    | rules names =>
      obtain ⟨name,inside,here⟩ := List.mem_flatMap.mp later
      rcases List.mem_cons.mp here with separator | deeper
      · exact absurd separator (by decide)
      · exact (plain name inside).2.1 deeper
    | alternative index =>
      rcases integerCharacters later with ⟨_,negative⟩ | digit
      · exact absurd plain (Int.not_le.mpr negative)
      · exact absurd digit (by decide)

end Acceptance

namespace Passage

structure Plain (x : Passage Text) : Prop where
  source : x.sourceAcceptance.Plain
  target : x.targetAcceptance.Plain
  label : '\n' ∉ x.label

theorem lineInjective {x y : Passage Text} (left : x.Plain) (right : y.Plain) (same : x.line = y.line) :
    x = y := by
  have behind {a : Acceptance} (plain : a.Plain) (n : Number) : '-' ∉ '>' :: tag n a := by
    intro h
    rcases List.mem_cons.mp h with head | inside
    · exact absurd head (by decide)
    · exact Acceptance.plainTagDashless plain n inside
  rw [lineMarks,lineMarks] at same
  obtain ⟨sources,later⟩ := Text.firstMarkSplits (Acceptance.plainTagDashless left.source _)
    (Acceptance.plainTagDashless right.source _) same
  obtain ⟨labels,targets⟩ := Text.lastMarkSplits (behind left.target _) (behind right.target _) later
  obtain ⟨s,sa⟩ := tagInjective (Acceptance.plainSpaceless left.source)
    (Acceptance.plainSpaceless right.source) sources
  obtain ⟨t,ta⟩ := tagInjective (Acceptance.plainSpaceless left.target)
    (Acceptance.plainSpaceless right.target) (List.cons.inj targets).2
  cases x; cases y
  cases s; cases sa; cases labels; cases t; cases ta
  rfl

/- Without a sign that is no dash the source could take over the beginning of the label. -/
example : line ⟨0,.rules [],"3-a".toList,1,.nothing⟩ = line ⟨0,.alternative (-3),"a".toList,1,.nothing⟩ := by
  decide

theorem lineWhole {x : Passage Text} (plain : x.Plain) : '\n' ∉ x.line :=
  (lineUnbroken x).mpr ⟨Acceptance.plainUnbroken plain.source,plain.label,Acceptance.plainUnbroken plain.target⟩

end Passage

theorem unlinesInjective {ls ms : List Text} (left : ∀ l ∈ ls, l ≠ [] ∧ '\n' ∉ l)
    (right : ∀ l ∈ ms, l ≠ [] ∧ '\n' ∉ l) (same : Text.unlines ls = Text.unlines ms) : ls = ms := by
  have readBack {xs : List Text} (whole : ∀ l ∈ xs, l ≠ [] ∧ '\n' ∉ l) :
      (Text.pieces (Text.unlines xs)).filter (· ≠ []) = xs := by
    cases xs with
    | nil => rfl
    | cons l rest =>
      rw [Text.piecesUnlines (List.cons_ne_nil _ _) fun x inside => (whole x inside).2]
      exact List.filter_eq_self.mpr fun x inside => decide_eq_true (whole x inside).1
  rw [← readBack left,same,readBack right]

theorem permOfImages {α β : Type} {f : α → β} {proper : α → Prop} {xs ys : List α}
    (injective : ∀ {x y}, proper x → proper y → f x = f y → x = y)
    (left : ∀ x ∈ xs, proper x) (right : ∀ y ∈ ys, proper y)
    (same : (xs.map f).Perm (ys.map f)) : xs.Perm ys := by
  have apart : Function.Injective fun x : {x // proper x} => f x.val :=
    fun x y equal => Subtype.ext (injective x.property y.property equal)
  rw [← List.attachWith_map_val left,← List.attachWith_map_val right,List.map_perm_map_iff apart] at same
  have members := same.map Subtype.val
  rw [List.attachWith_map_subtype_val,List.attachWith_map_subtype_val] at members
  exact members

theorem composeFaithful {xs ys : List (Passage Text)} (left : ∀ x ∈ xs, x.Plain) (right : ∀ y ∈ ys, y.Plain)
    (same : compose (xs.map Passage.line) = compose (ys.map Passage.line)) : xs.Perm ys := by
  have whole {zs : List (Passage Text)} (plain : ∀ z ∈ zs, z.Plain) :
      (zs.map Passage.line).flatMap Text.pieces = zs.map Passage.line := by
    apply Text.terminatedWhole
    intro l inside
    obtain ⟨z,here,rfl⟩ := List.mem_map.mp inside
    exact Passage.lineWhole (plain z here)
  have proper {zs : List (Passage Text)} (plain : ∀ z ∈ zs, z.Plain) :
      ∀ l ∈ (zs.map Passage.line).mergeSort Text.inOrder, l ≠ [] ∧ '\n' ∉ l := by
    intro l inside
    obtain ⟨z,here,rfl⟩ := List.mem_map.mp ((List.mergeSort_perm _ _).mem_iff.mp inside)
    exact ⟨Passage.lineNonempty z,Passage.lineWhole (plain z here)⟩
  rw [composeArranged,composeArranged,whole left,whole right] at same
  have arranged := unlinesInjective (proper left) (proper right) same
  refine permOfImages Passage.lineInjective left right ?_
  exact ((List.mergeSort_perm _ Text.inOrder).symm.trans (arranged ▸ List.mergeSort_perm _ Text.inOrder))

namespace Roster
variable {r : Roster L} {n : Number} {resolve : Resolver L ε}

structure PlainFrom (r : Roster L) (n : Number) (resolve : Resolver L ε) : Prop where
  states : ∀ e ∈ r.entries, r.Reaches n e.number → e.acceptance.Plain
  labels : ∀ x ∈ r.passagesFrom n, '\n' ∉ resolve.text x.label

theorem plainPassages (plain : r.PlainFrom n resolve) :
    ∀ x ∈ r.passagesFrom n, (x.relabel resolve.text).Plain := by
  intro x inside
  obtain ⟨source,target⟩ := endsReached Acceptance.Plain trivial plain.states x inside
  exact ⟨source,target,plain.labels x inside⟩

theorem plainRoute {a : Automaton L} (w : a.WellFormed) {p : a.Place}
    (states : ∀ e ∈ a.roster.entries, e.acceptance.Plain)
    (labels : ∀ x ∈ a.route p, '\n' ∉ resolve.text x.label) : a.roster.PlainFrom (a.number p) resolve :=
  ⟨fun e inside _ => states e inside,
    (Automaton.routeForall w fun label => '\n' ∉ resolve.text label).mp labels⟩

end Roster

/-- Two dumps with the same text have the same passages with their labels resolved, each as often
in one as in the other. -/
theorem textDeterminesPassages (c : Construction L) (d : Construction M) (resolve : Resolver L ε)
    (other : Resolver M δ) (p : c.automaton.Place) (q : d.automaton.Place) {t : Text}
    (left : (c.automaton.reportFrom resolve (some p)).outcome = .ok (some t))
    (right : (d.automaton.reportFrom other (some q)).outcome = .ok (some t))
    (plain : c.automaton.roster.PlainFrom (c.automaton.number p) resolve)
    (plain' : d.automaton.roster.PlainFrom (d.automaton.number q) other) :
    (∀ x ∈ c.automaton.roster.passagesFrom (c.automaton.number p), resolve.Accepts x.label) ∧
    (∀ y ∈ d.automaton.roster.passagesFrom (d.automaton.number q), other.Accepts y.label) ∧
    ((c.automaton.roster.passagesFrom (c.automaton.number p)).map (Passage.relabel resolve.text)).Perm
      ((d.automaton.roster.passagesFrom (d.automaton.number q)).map (Passage.relabel other.text)) := by
  have accepts := Automaton.acceptedOutcome c.automatonWellFormed left
  have accepts' := Automaton.acceptedOutcome d.automatonWellFormed right
  refine ⟨accepts,accepts',composeFaithful ?_ ?_ ?_⟩
  · exact List.forall_mem_map.mpr (Roster.plainPassages plain)
  · exact List.forall_mem_map.mpr (Roster.plainPassages plain')
  · rw [Automaton.outcomeAccepted c.automatonWellFormed accepts] at left
    rw [Automaton.outcomeAccepted d.automatonWellFormed accepts'] at right
    have first := Option.some.inj (Except.ok.inj left)
    have second := Option.some.inj (Except.ok.inj right)
    rw [List.map_map,List.map_map]
    exact first.trans second.symm

/- The same passages under two kinds of label, with dashes and arrows among their texts. -/
def spelled : Construction Text where
  clauses := [.state 1 (.rules ["ID".toList]),.state 2 (.alternative 3),
    .edges [(0,"->".toList,1),(1,"-".toList,2),(1,"-".toList,2),(2,"s0".toList,0)]]
  start := some 0
  changes := []

def coded : Construction Condition where
  clauses := []
  start := none
  changes := [.connect 2 (.atom 3) 0,.connect 1 (.range 2 2) 2,.declare 1 (.rules ["ID".toList]),.startAt 0,
    .connect 1 (.atom 2) 2,.connect 0 (.atom 1) 1,.declare 2 (.alternative 3)]

def names : Lexicon := (Lexicon.ofReading .tokens).registerAll [(1,"->".toList),(2,"-".toList),(3,"s0".toList)]

def shared : Text := ":s1=> ID--->:s2=>3\n:s1=> ID--->:s2=>3\n:s2=>3-s0->s0\ns0-->->:s1=> ID".toList

theorem spelledOutcome : (spelled.automaton.report verbatim).outcome = .ok (some shared) :=
  Automaton.reportYields (by decide +kernel)

theorem codedOutcome : (coded.automaton.report names.resolve).outcome = .ok (some shared) :=
  Automaton.reportYields (by decide +kernel)

theorem spelledCoded : ∃ p q,
    (spelled.automaton.reportFrom verbatim (some p)).outcome = .ok (some shared) ∧
    (coded.automaton.reportFrom names.resolve (some q)).outcome = .ok (some shared) ∧
    spelled.automaton.roster.PlainFrom (spelled.automaton.number p) verbatim ∧
    coded.automaton.roster.PlainFrom (coded.automaton.number q) names.resolve ∧
    ((spelled.automaton.roster.passagesFrom (spelled.automaton.number p)).map
        (Passage.relabel verbatim.text)).Perm
      ((coded.automaton.roster.passagesFrom (coded.automaton.number q)).map
        (Passage.relabel (Resolver.text names.resolve))) := by
  have first : ∃ p, spelled.automaton.start? = some p ∧
      ∀ x ∈ spelled.automaton.route p, '\n' ∉ verbatim.text x.label := by decide +kernel
  have second : ∃ q, coded.automaton.start? = some q ∧
      ∀ x ∈ coded.automaton.route q, '\n' ∉ Resolver.text names.resolve x.label := by decide +kernel
  obtain ⟨p,found,labels⟩ := first
  obtain ⟨q,found',labels'⟩ := second
  have left := spelledOutcome
  have right := codedOutcome
  rw [Automaton.reportStarted found] at left
  rw [Automaton.reportStarted found'] at right
  have plain := Roster.plainRoute spelled.automatonWellFormed (by decide +kernel) labels
  have plain' := Roster.plainRoute coded.automatonWellFormed (by decide +kernel) labels'
  have same := textDeterminesPassages spelled coded verbatim names.resolve p q left right plain plain'
  exact ⟨p,q,left,right,plain,plain',same.2.2⟩

end AutomatonDump
