import AutomatonDump.Dump.Report
import AutomatonDump.Proofs.Text.Pieces
/-! Asking for labels place by place, with an end at the first refusal, comes to the same as
transcribing the whole route. The route itself does not depend on the resolver. -/
namespace AutomatonDump
variable {L ε : Type}

namespace Resolver
variable {resolve : Resolver L ε}

def Accepts (resolve : Resolver L ε) (label : L) : Prop := ∃ t, resolve label = .ok t
instance (resolve : Resolver L ε) (label : L) : Decidable (resolve.Accepts label) :=
  match h : resolve label with
  | .ok t => .isTrue ⟨t,h⟩
  | .error _ => .isFalse fun ⟨_,ok⟩ => nomatch h.symm.trans ok

/- A refused label has no text; it is never looked at. -/
def text (resolve : Resolver L ε) (label : L) : Text :=
  match resolve label with
  | .ok t => t
  | .error _ => []

theorem acceptedText {label : L} (accepts : resolve.Accepts label) :
    resolve label = .ok (resolve.text label) := by
  obtain ⟨t,ok⟩ := accepts
  rw [text,ok]

theorem notAccepted {label : L} {e : ε} (refused : resolve label = .error e) : ¬ resolve.Accepts label := by
  rintro ⟨t,ok⟩
  rw [refused] at ok
  cases ok

theorem firstRefusal (resolve : Resolver L ε) {α : Type} (label : α → L) (xs : List α) :
    (∀ x ∈ xs, resolve.Accepts (label x)) ∨
      ∃ before x after e, xs = before ++ x :: after ∧ (∀ y ∈ before, resolve.Accepts (label y)) ∧
        resolve (label x) = .error e := by
  induction xs with
  | nil => exact .inl fun x h => nomatch h
  | cons x rest ih =>
    cases h : resolve (label x) with
    | error e => exact .inr ⟨[],x,rest,e,rfl,List.forall_mem_nil _,h⟩
    | ok t =>
      have head : resolve.Accepts (label x) := ⟨t,h⟩
      rcases ih with all | ⟨before,y,after,e,rfl,accepted,refused⟩
      · exact .inl (List.forall_mem_cons.mpr ⟨head,all⟩)
      · exact .inr ⟨x :: before,y,after,e,rfl,List.forall_mem_cons.mpr ⟨head,accepted⟩,refused⟩

theorem someRefusal (resolve : Resolver L ε) {α : Type} (label : α → L) (xs : List α) :
    (∀ x ∈ xs, resolve.Accepts (label x)) ∨ ∃ x ∈ xs, ∃ e, resolve (label x) = .error e := by
  rcases resolve.firstRefusal label xs with all | ⟨before,x,after,e,rfl,_,refused⟩
  · exact .inl all
  · exact .inr ⟨x,List.mem_append_right _ List.mem_cons_self,e,refused⟩

end Resolver

def Transcript.append (s t : Transcript L ε) : Transcript L ε :=
  match s.lines with
  | .error _ => s
  | .ok lines => ⟨s.asked ++ t.asked,t.lines.map (lines ++ ·)⟩

theorem Transcript.appendRefused {s t : Transcript L ε} {e : ε} (refused : s.lines = .error e) :
    s.append t = s := by
  simp only [append,refused]

namespace Automaton
variable {a : Automaton L} {resolve : Resolver L ε}

theorem transcribeAppend (xs ys : List a.Link) :
    a.transcribe resolve (xs ++ ys) = (a.transcribe resolve xs).append (a.transcribe resolve ys) := by
  induction xs with
  | nil =>
    cases h : a.transcribe resolve ys with
    | mk asked lines => cases lines <;> simp [transcribe,Transcript.append,h,Except.map]
  | cons x rest ih =>
    simp only [List.cons_append,transcribe,ih]
    cases resolve x.label with
    | error e => rfl
    | ok text =>
      cases h : a.transcribe resolve rest with
      | mk asked lines =>
        cases lines with
        | error e => rfl
        | ok ls => cases a.transcribe resolve ys with
          | mk _ others => cases others <;> rfl

theorem transcribeAccepted {xs : List a.Link} (accepts : ∀ x ∈ xs, resolve.Accepts x.label) :
    a.transcribe resolve xs = ⟨xs.map Link.label,.ok (xs.map fun x => a.line x (resolve.text x.label))⟩ := by
  induction xs with
  | nil => rfl
  | cons x rest ih =>
    obtain ⟨head,tail⟩ := List.forall_mem_cons.mp accepts
    simp only [transcribe,Resolver.acceptedText head,ih tail]
    rfl

theorem transcribeRefused {before after : List a.Link} {x : a.Link} {e : ε}
    (accepts : ∀ y ∈ before, resolve.Accepts y.label) (refused : resolve x.label = .error e) :
    a.transcribe resolve (before ++ x :: after) = ⟨(before ++ [x]).map Link.label,.error e⟩ := by
  have last : a.transcribe resolve (x :: after) = ⟨[x.label],.error e⟩ := by
    simp only [transcribe,refused]
  rw [transcribeAppend,transcribeAccepted accepts,last,List.map_append]
  rfl

end Automaton

namespace Progress
variable {a : Automaton L} {resolve : Resolver L ε} {w : Progress a} {p : a.Place} {rest : List a.Place}

def conclude (w : Progress a) (remaining : Transcript L ε) (visits : Nat) : Report L ε :=
  match remaining.lines with
  | .error e => w.refuse remaining.asked e
  | .ok lines =>
    let text := compose (w.lines.toList ++ lines)
    ⟨w.asked.toList ++ remaining.asked,.ok (some text),
      [.visited (w.frontier.marked.size + visits) (w.lines.size + lines.length),.produced text]⟩

theorem concludeRefused {remaining : Transcript L ε} {e : ε} (refused : remaining.lines = .error e)
    (visits : Nat) : w.conclude remaining visits = w.refuse remaining.asked e := by
  simp only [conclude,refused]

theorem runFinish (queue : w.frontier.waiting = []) : w.run resolve = w.finish := by
  rw [run]
  split
  · rfl
  · simp_all

theorem runTurn (queue : w.frontier.waiting = p :: rest) : w.run resolve =
    if a.number p ∈ w.frontier.marked then (w.drop rest).run resolve
    else match (a.transcribe resolve (a.links p)).lines with
      | .error e => w.refuse (a.transcribe resolve (a.links p)).asked e
      | .ok lines => (w.visit p rest (a.transcribe resolve (a.links p)).asked lines).run resolve := by
  rw [run]
  split
  · simp_all
  · rename_i q later same
    obtain ⟨rfl,rfl⟩ := List.cons.inj (queue.symm.trans same)
    rfl

theorem runDrop (queue : w.frontier.waiting = p :: rest) (seen : a.number p ∈ w.frontier.marked) :
    w.run resolve = (w.drop rest).run resolve := by
  rw [runTurn queue,if_pos seen]

theorem runRefuse {e : ε} (queue : w.frontier.waiting = p :: rest) (fresh : a.number p ∉ w.frontier.marked)
    (refused : (a.transcribe resolve (a.links p)).lines = .error e) :
    w.run resolve = w.refuse (a.transcribe resolve (a.links p)).asked e := by
  rw [runTurn queue,if_neg fresh,refused]

theorem runVisit {lines : List Text} (queue : w.frontier.waiting = p :: rest)
    (fresh : a.number p ∉ w.frontier.marked) (accepted : (a.transcribe resolve (a.links p)).lines = .ok lines) :
    w.run resolve = (w.visit p rest (a.transcribe resolve (a.links p)).asked lines).run resolve := by
  rw [runTurn queue,if_neg fresh,accepted]

theorem concludeVisit {part later : Transcript L ε} {lines : List Text} {visits : Nat}
    (fresh : a.number p ∉ w.frontier.marked) (accepted : part.lines = .ok lines) :
    (w.visit p rest part.asked lines).conclude later visits = w.conclude (part.append later) (visits + 1) := by
  have marks : (w.frontier.marked.insert (a.number p)).size = w.frontier.marked.size + 1 := by
    rw [Std.TreeSet.size_insert]
    exact if_neg fresh
  simp only [Transcript.append,accepted]
  cases h : later.lines with
  | error e => simp [conclude,h,Except.map,refuse,visit,List.append_assoc]
  | ok others =>
    have written : (w.lines ++ lines).size + others.length = w.lines.size + (lines ++ others).length := by
      rw [← Array.length_toList,Array.toList_appendList]
      simp [Nat.add_assoc]
    have visited : w.frontier.marked.size + 1 + visits = w.frontier.marked.size + (visits + 1) := by omega
    simp only [conclude,h,Except.map,visit,Frontier.visit,marks,written,visited,Array.toList_appendList,
      List.append_assoc]

theorem runConclude (resolve : Resolver L ε) (w : Progress a) : w.run resolve =
    w.conclude (a.transcribe resolve (w.frontier.run.flatMap a.links)) w.frontier.run.length := by
  induction w using Progress.run.induct resolve with
  | case1 w queue =>
    rw [runFinish queue,Frontier.runEmpty queue]
    simp [conclude,Automaton.transcribe,finish]
  | case2 w p rest queue seen ih =>
    rw [runDrop queue seen,ih,Frontier.runDrop queue seen]
    rfl
  | case3 w p rest queue fresh part e refused =>
    rw [runRefuse queue fresh refused,Frontier.runVisit queue fresh,List.flatMap_cons,
      Automaton.transcribeAppend,Transcript.appendRefused refused,concludeRefused refused]
  | case4 w p rest queue fresh part lines accepted ih =>
    rw [runVisit queue fresh accepted,ih,concludeVisit fresh accepted,Frontier.runVisit queue fresh,
      List.flatMap_cons,Automaton.transcribeAppend,List.length_cons]
    rfl

end Progress

theorem composeArranged (ls : List Text) :
    compose ls = Text.unlines ((ls.flatMap Text.pieces).mergeSort Text.inOrder) := by
  rw [compose,Text.sortLines,Text.sortedLines]
  exact congrArg (fun xs => Text.unlines (xs.mergeSort Text.inOrder)) (Text.linesTerminated ls)

theorem composePerm {ls ms : List Text} (same : ls.Perm ms) : compose ls = compose ms := by
  rw [composeArranged,composeArranged,Text.arrangementUnique (same.flatMap_right Text.pieces)]

namespace Automaton
variable {a : Automaton L} {resolve : Resolver L ε} {p : a.Place}

theorem reportUnstarted (unstarted : a.start? = none) : a.report resolve = ⟨[],.ok none,[.noStart]⟩ :=
  congrArg (a.reportFrom resolve) unstarted

theorem reportStarted (started : a.start? = some p) : a.report resolve = a.reportFrom resolve (some p) :=
  congrArg (a.reportFrom resolve) started

theorem reportConclude (resolve : Resolver L ε) (p : a.Place) : a.reportFrom resolve (some p) =
    (Progress.outset p).conclude (a.transcribe resolve (a.route p)) (a.visits p).length :=
  Progress.runConclude resolve (Progress.outset p)

theorem reportAccepted (accepts : ∀ x ∈ a.route p, resolve.Accepts x.label) :
    let text := compose ((a.route p).map fun x => a.line x (resolve.text x.label))
    a.reportFrom resolve (some p) = ⟨(a.route p).map Link.label,.ok (some text),
      [.visited (a.visits p).length (a.route p).length,.produced text]⟩ := by
  rw [reportConclude,transcribeAccepted accepts]
  simp [Progress.conclude,Progress.outset,Frontier.outset]

theorem reportRefused {before after : List a.Link} {x : a.Link} {e : ε}
    (place : a.route p = before ++ x :: after) (accepts : ∀ y ∈ before, resolve.Accepts y.label)
    (refused : resolve x.label = .error e) :
    a.reportFrom resolve (some p) = ⟨(before ++ [x]).map Link.label,.error e,[]⟩ := by
  rw [reportConclude,place,transcribeRefused accepts refused]
  rfl

end Automaton
end AutomatonDump
