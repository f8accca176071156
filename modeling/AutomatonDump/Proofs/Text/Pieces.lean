import AutomatonDump.Text.Lines
/-! Texts cut at a mark. Splitting parts that are closed by it gives the pieces of all parts in their
order and an empty rest, so that nothing of a part is lost or moves into another. At line breaks, a text
is its own arrangement if its pieces are in order and the last one is not empty. -/
namespace AutomatonDump.Text

def terminated (mark : Char) (parts : List Text) : Text := parts.flatMap (· ++ [mark])

theorem terminatedNothing {mark : Char} {parts : List Text} : terminated mark parts = [] ↔ parts = [] := by
  cases parts with
  | nil => exact iff_of_true rfl rfl
  | cons part rest => simp [terminated]

theorem terminatedSplit (mark : Char) (parts : List Text) :
    (terminated mark parts).splitOn mark = parts.flatMap (·.splitOn mark) ++ [[]] := by
  induction parts with
  | nil => exact List.splitOn_nil mark
  | cons part rest ih =>
    have apart : terminated mark (part :: rest) = part ++ mark :: terminated mark rest := by
      simp [terminated]
    rw [apart,List.splitOn_append_cons_self,ih,List.flatMap_cons,List.append_assoc]

theorem terminatedWhole {mark : Char} {parts : List Text} (whole : ∀ part ∈ parts, mark ∉ part) :
    parts.flatMap (·.splitOn mark) = parts := by
  induction parts with
  | nil => rfl
  | cons part rest ih =>
    have head := List.splitOn_eq_singleton (whole part List.mem_cons_self)
    rw [List.flatMap_cons,head,ih fun x h => whole x (List.mem_cons_of_mem _ h)]
    rfl

theorem terminatedInjective {mark : Char} {parts others : List Text}
    (left : ∀ part ∈ parts, mark ∉ part) (right : ∀ part ∈ others, mark ∉ part)
    (same : terminated mark parts = terminated mark others) : parts = others := by
  have split := congrArg (·.splitOn mark) same
  simp only [terminatedSplit,terminatedWhole left,terminatedWhole right] at split
  exact List.append_cancel_right split

theorem firstMarkSplits {mark : Char} {s t later last : Text} (left : mark ∉ s) (right : mark ∉ t)
    (same : s ++ mark :: later = t ++ mark :: last) : s = t ∧ later = last := by
  have split := congrArg (·.splitOn mark) same
  simp only [List.splitOn_append_cons_self_of_not_mem left,
    List.splitOn_append_cons_self_of_not_mem right] at split
  have heads : s = t := (List.cons.inj split).1
  subst heads
  exact ⟨rfl,(List.cons.inj (List.append_cancel_left same)).2⟩

theorem lastMarkSplits {mark : Char} {s t later last : Text} (left : mark ∉ later) (right : mark ∉ last)
    (same : s ++ mark :: later = t ++ mark :: last) : s = t ∧ later = last := by
  have turned := congrArg List.reverse same
  simp only [List.reverse_append,List.reverse_cons,List.append_assoc,List.singleton_append] at turned
  obtain ⟨tails,heads⟩ := firstMarkSplits (by simpa using left) (by simpa using right) turned
  exact ⟨List.reverse_inj.mp heads,List.reverse_inj.mp tails⟩

theorem linesTerminated (parts : List Text) : lines (terminated '\n' parts) = parts.flatMap pieces := by
  unfold lines pieces
  rw [terminatedSplit,List.getLast?_concat,if_pos rfl,List.dropLast_concat]

theorem arrangementUnique {ls ms : List Text} (same : ls.Perm ms) :
    ls.mergeSort inOrder = ms.mergeSort inOrder :=
  List.Perm.eq_of_pairwise (fun _ _ _ _ => inOrderAntisymm)
    (List.pairwise_mergeSort inOrderTrans inOrderTotal ls)
    (List.pairwise_mergeSort inOrderTrans inOrderTotal ms)
    ((List.mergeSort_perm ls inOrder).trans (same.trans (List.mergeSort_perm ms inOrder).symm))

def lineCount (t : Text) : Nat := if t = [] then 0 else t.count '\n' + 1

theorem piecesAfter (c : Char) (t : Text) : pieces (c :: t) =
    if c = '\n' then [] :: pieces t else (pieces t).modifyHead (c :: ·) := by
  rw [pieces,List.splitOn_cons_eq_if_modifyHead]
  simp only [beq_iff_eq,pieces]

theorem pieceWhole {t : Text} : ∀ l ∈ pieces t, '\n' ∉ l := by
  induction t with
  | nil => exact List.forall_mem_singleton.mpr List.not_mem_nil
  | cons c rest ih =>
    rw [piecesAfter]
    split
    · exact List.forall_mem_cons.mpr ⟨List.not_mem_nil,ih⟩
    · rename_i letter
      cases parts : pieces rest with
      | nil => exact List.forall_mem_nil _
      | cons first later =>
        obtain ⟨head,tail⟩ := List.forall_mem_cons.mp (parts ▸ ih)
        refine List.forall_mem_cons.mpr ⟨fun inside => ?_,tail⟩
        rcases List.mem_cons.mp inside with here | deeper
        · exact letter here.symm
        · exact head deeper

theorem piecesCounted (t : Text) : (pieces t).length = t.count '\n' + 1 := by
  induction t with
  | nil => rfl
  | cons c rest ih =>
    rw [piecesAfter,List.count_cons]
    split
    · rename_i line
      rw [List.length_cons,ih,if_pos (by simpa using line)]
    · rename_i letter
      rw [List.length_modifyHead,ih,if_neg (by simpa using letter)]

theorem piecesOfAll (ls : List Text) : (ls.flatMap pieces).length = ls.length + ls.flatten.count '\n' := by
  induction ls with
  | nil => rfl
  | cons l rest ih =>
    rw [List.flatMap_cons,List.length_append,piecesCounted,ih,List.flatten_cons,List.count_append,List.length_cons]
    omega

theorem pieceMember {t : Text} {c : Char} (inside : c ∈ t) (letter : c ≠ '\n') : ∃ l ∈ pieces t, c ∈ l := by
  rw [← unlinesPieces t] at inside
  rcases joinedMember inside with line | piece
  · exact absurd (List.mem_singleton.mp line) letter
  · exact piece

theorem pieceEmpty {t : Text} (ends : t.getLast? = some '\n') : (pieces t).getLast? = some [] := by
  obtain ⟨before,rfl⟩ := List.getLast?_eq_some_iff.mp ends
  rw [pieces,List.splitOn_append_cons_self,List.splitOn_nil,List.getLast?_concat]

theorem lastPieceSolid {ls : List Text} (ordered : ls.Pairwise fun s u => inOrder s u = true) {l : Text}
    (inside : l ∈ ls) (solid : l ≠ []) : ls.getLast? ≠ some [] := by
  intro last
  obtain ⟨before,rfl⟩ := List.getLast?_eq_some_iff.mp last
  rcases List.mem_append.mp inside with early | here
  · have late := (List.pairwise_append.mp ordered).2.2 l early [] (List.mem_singleton_self [])
    cases l with
    | nil => exact solid rfl
    | cons c rest => cases late
  · exact solid (List.mem_singleton.mp here)

theorem sortLinesFixed {t : Text} (ordered : (pieces t).Pairwise fun s u => inOrder s u = true)
    (closed : (pieces t).getLast? ≠ some []) : sortLines t = t := by
  rw [sortLines,sortedLines,lines,if_neg closed,List.mergeSort_of_pairwise ordered,unlinesPieces]

end AutomatonDump.Text
