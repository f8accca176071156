import AutomatonDump.Proofs.Dump.Outcome
/-! What becomes of a refused label. The labels come in an order that no resolver has a say in;
the first that is refused is the last that is asked for, and its error is that of the dump. -/
namespace AutomatonDump
variable {L ε δ : Type}

/- Reports on labels that come in a given order: all of them are asked for, or none after the
first that is refused. -/
inductive Inquiry (resolve : Resolver L ε) (labels : List L) : Report L ε → Prop where
  | complete {t : Text} {events : List Event} (accepts : ∀ label ∈ labels, resolve.Accepts label) :
      Inquiry resolve labels ⟨labels,.ok (some t),events⟩
  | refused {before after : List L} {label : L} {e : ε} (place : labels = before ++ label :: after)
      (accepts : ∀ label ∈ before, resolve.Accepts label) (error : resolve label = .error e) :
      Inquiry resolve labels ⟨before ++ [label],.error e,[]⟩

theorem Inquiry.askedInside {resolve : Resolver L ε} {labels : List L} {r : Report L ε}
    (inquiry : Inquiry resolve labels r) : ∀ label ∈ r.asked, label ∈ labels := by
  intro label asked
  cases inquiry with
  | complete accepts => exact asked
  | refused place accepts error =>
    rw [place]
    rcases List.mem_append.mp asked with early | last
    · exact List.mem_append_left _ early
    · exact List.mem_append_right _ (List.mem_singleton.mp last ▸ List.mem_cons_self)

namespace Automaton
variable {a : Automaton L} {resolve : Resolver L ε} {p : a.Place}

theorem askedWilling {willing : Resolver L δ} (never : ∀ label, willing.Accepts label) :
    (a.reportFrom willing (some p)).asked = (a.route p).map Link.label := by
  rw [reportAccepted fun x _ => never x.label]

theorem routeInquiry (resolve : Resolver L ε) (p : a.Place) :
    Inquiry resolve ((a.route p).map Link.label) (a.reportFrom resolve (some p)) := by
  rcases resolve.firstRefusal Link.label (a.route p) with all | ⟨before,x,after,e,place,accepted,error⟩
  · rw [reportAccepted all]
    exact .complete (List.forall_mem_map.mpr all)
  · have labels : (a.route p).map Link.label = before.map Link.label ++ x.label :: after.map Link.label := by
      rw [place,List.map_append,List.map_cons]
    rw [reportRefused place accepted error,List.map_append]
    exact .refused labels (List.forall_mem_map.mpr accepted) error

end Automaton

/-- Held against a dump from the same start that meets no refusal: its labels are those of the
passages, each once, and they are asked for up to the first that is refused. -/
theorem firstRefusalEndsDump (c : Construction L) (p : c.automaton.Place) (resolve : Resolver L ε)
    (willing : Resolver L δ) (never : ∀ label, willing.Accepts label) :
    let labels := (c.automaton.reportFrom willing (some p)).asked
    let passages := c.automaton.roster.passagesFrom (c.automaton.number p)
    let r := c.automaton.reportFrom resolve (some p)
    Inquiry resolve labels r ∧
    ((∃ e, r.outcome = .error e) ↔ ∃ x ∈ passages, ∃ e, resolve x.label = .error e) ∧
    (passages.map Passage.label).Perm labels ∧
    ∀ label ∈ r.asked, ∃ x ∈ passages, x.label = label := by
  intro labels passages r
  have route : labels = (c.automaton.route p).map Automaton.Link.label := Automaton.askedWilling never
  have inquiry : Inquiry resolve labels r := route ▸ Automaton.routeInquiry resolve p
  have counted : (passages.map Passage.label).Perm labels := by
    have same := (Automaton.routePassages c.automatonWellFormed p).map Passage.label
    rw [List.map_map] at same
    rw [route]
    exact same.symm
  refine ⟨inquiry,Automaton.outcomeError c.automatonWellFormed,counted,?_⟩
  intro label asked
  exact List.mem_map.mp (counted.mem_iff.mpr (inquiry.askedInside label asked))

/- The tangle with a refusal in the middle of a state on the cycle, while others wait, and one
that never comes up. -/
def demanding : Resolver Text Text := Resolver.strict .text ["c\nd".toList,"?".toList]

theorem tangleRefused : ∃ p, tangle.automaton.start? = some p ∧
    (∀ label, verbatim.Accepts label) ∧
    let labels := (tangle.automaton.reportFrom verbatim (some p)).asked
    let passages := tangle.automaton.roster.passagesFrom (tangle.automaton.number p)
    let r := tangle.automaton.reportFrom demanding (some p)
    labels = ["a".toList,"a".toList,"b".toList,"c\nd".toList,"e".toList] ∧
    r.asked = ["a".toList,"a".toList,"b".toList,"c\nd".toList] ∧
    Inquiry demanding labels r ∧
    ((∃ e, r.outcome = .error e) ↔ ∃ x ∈ passages, ∃ e, demanding x.label = .error e) ∧
    (passages.map Passage.label).Perm labels ∧
    ∀ label ∈ r.asked, ∃ x ∈ passages, x.label = label := by
  have inquiries : ∃ p, tangle.automaton.start? = some p ∧
      (tangle.automaton.reportFrom verbatim (some p)).asked =
        ["a".toList,"a".toList,"b".toList,"c\nd".toList,"e".toList] ∧
      (tangle.automaton.reportFrom demanding (some p)).asked =
        ["a".toList,"a".toList,"b".toList,"c\nd".toList] := by decide +kernel
  obtain ⟨p,found,labels,asked⟩ := inquiries
  have never : ∀ label, verbatim.Accepts label := fun label => ⟨Shape.text.display label,rfl⟩
  exact ⟨p,found,never,labels,asked,firstRefusalEndsDump tangle p demanding verbatim never⟩

end AutomatonDump
