import AutomatonDump.Proofs.Text.ByteOrder
import AutomatonDump.Proofs.Text.Pieces
/-! Sorting the lines of a text. The lines are what is joined again, so that splitting the result gives
them back in order. Any other character than a break makes for a line that is not empty, which stands
behind the empty ones, so that the result is its own arrangement. A text of breaks alone has nothing but
empty lines: all that sorting does to it is to take one break away, each time anew. -/
namespace AutomatonDump.Text
variable {s t : Text}

theorem linesWhole : ∀ l ∈ lines t, '\n' ∉ l := by
  unfold lines
  split
  · exact fun l inside => pieceWhole l (List.dropLast_subset _ inside)
  · exact pieceWhole

theorem unlinesClosed (ls : List Text) : unlines (ls ++ [[]]) = terminated '\n' ls := by
  unfold unlines terminated
  induction ls with
  | nil => rfl
  | cons l rest ih =>
    have more : rest ++ [[]] ≠ [] := List.append_ne_nil_of_right_ne_nil rest (List.cons_ne_nil [] [])
    rw [List.cons_append,List.intercalate_cons_of_ne_nil more,ih,List.flatMap_cons]

theorem textClosed (last : (pieces t).getLast? = some []) : t = terminated '\n' (lines t) := by
  obtain ⟨before,parts⟩ := List.getLast?_eq_some_iff.mp last
  rw [lines,if_pos last,parts,List.dropLast_concat,← unlinesClosed,← parts,unlinesPieces]

theorem textOpen (last : (pieces t).getLast? ≠ some []) : t = unlines (lines t) := by
  rw [lines,if_neg last,unlinesPieces]

theorem textRestored (t : Text) : t = terminated '\n' (lines t) ∨ t = unlines (lines t) := by
  by_cases last : (pieces t).getLast? = some []
  · exact .inl (textClosed last)
  · exact .inr (textOpen last)

theorem linesNothing : lines t = [] ↔ t = [] := by
  constructor
  · intro none
    have restored := textRestored t
    rw [none] at restored
    exact restored.elim id id
  · rintro rfl
    rfl

theorem lastPieceEmpty (filled : t ≠ []) : (pieces t).getLast? = some [] ↔ t.getLast? = some '\n' := by
  refine ⟨fun last => ?_,pieceEmpty⟩
  rcases List.eq_nil_or_concat (lines t) with none | ⟨before,l,ls⟩
  · exact absurd (linesNothing.mp none) filled
  · rw [textClosed last,ls,List.concat_eq_append,terminated,List.flatMap_append,List.flatMap_singleton,
      ← List.append_assoc,List.getLast?_concat]

theorem linesEnded (filled : t ≠ []) :
    lines t = if t.getLast? = some '\n' then (pieces t).dropLast else pieces t := by
  simp only [lines,lastPieceEmpty filled]

theorem sortedPieces (filled : t ≠ []) : pieces (sortLines t) = sortedLines t := by
  have arranged := sortedLinesPerm t
  refine piecesUnlines (fun none => ?_) fun l inside => linesWhole l (arranged.mem_iff.mp inside)
  exact filled (linesNothing.mp (List.nil_perm.mp (none ▸ arranged)))

theorem sortLinesNothing : sortLines [] = [] := by
  rw [sortLines,sortedLines,linesNothing.mpr rfl,List.mergeSort_nil]
  rfl

theorem sortLinesEnded (t : Text) : sortLines t =
    unlines ((if t.getLast? = some '\n' then (pieces t).dropLast else pieces t).mergeSort inOrder) := by
  by_cases filled : t = []
  · have unended : ([] : Text).getLast? ≠ some '\n' := nofun
    have single : pieces [] = [[]] := rfl
    rw [filled,sortLinesNothing,if_neg unended,single,List.mergeSort_singleton]
    rfl
  · rw [← linesEnded filled]
    rfl

theorem sortLinesReached (same : (pieces t).Perm (lines s))
    (ordered : (pieces t).Pairwise fun l m => inOrder l m = true) : sortLines s = t := by
  have arranged : sortedLines s = pieces t :=
    List.Perm.eq_of_pairwise (fun _ _ _ _ => inOrderAntisymm) (sortedLinesOrdered s) ordered
      ((sortedLinesPerm s).trans same.symm)
  rw [sortLines,arranged,unlinesPieces]

theorem sortLinesEmpty : sortLines t = [] ↔ t = [] ∨ t = ['\n'] := by
  constructor
  · intro empty
    by_cases filled : t = []
    · exact .inl filled
    · have only : [[]] = sortedLines t := (congrArg pieces empty).symm.trans (sortedPieces filled)
      have single : lines t = [[]] := List.perm_singleton.mp (only ▸ (sortedLinesPerm t).symm)
      have restored := textRestored t
      rw [single] at restored
      exact restored.symm
  · rintro (rfl | rfl)
    · exact sortLinesNothing
    · exact sortLinesReached (.refl [[]]) (List.pairwise_singleton _ [])

/-- The lines of a text are its pieces, without the empty one behind a break at the very end. Sorting keeps
each of them as often as it occurs, and puts them into the order of their bytes, which is also that of
their code points. -/
theorem sortingKeepsLines (t : Text) :
    sortLines [] = [] ∧
    (t ≠ [] →
      (pieces (sortLines t)).Perm (if t.getLast? = some '\n' then (pieces t).dropLast else pieces t) ∧
      (pieces (sortLines t)).Pairwise BytesAscend) ∧
    ∀ l m : Text, BytesAscend l m ↔ PointsAscend l m := by
  refine ⟨sortLinesNothing,fun filled => ?_,fun l m => inOrderIffBytes.symm.trans inOrderIffPoints⟩
  rw [sortedPieces filled,← linesEnded filled]
  exact ⟨sortedLinesPerm t,(sortedLinesOrdered t).imp inOrderIffBytes.mp⟩

/- Characters of one to four bytes, of which the last two would change places if surrogates were compared;
a line that begins another one; and empty lines, one of them before a break at the end. -/
def motley : Text := "😀\nab\n\n～\né\na\n\n".toList

def motleySorted : Text := "\n\na\nab\né\n～\n😀".toList

theorem motleyReached : sortLines motley = motleySorted := sortLinesReached (by decide +kernel) (by decide +kernel)

theorem motleyKept : motley ≠ [] ∧ sortLines motley = motleySorted ∧
    (pieces motleySorted).Perm (pieces motley).dropLast ∧ (pieces motleySorted).Pairwise BytesAscend := by
  have filled : motley ≠ [] := List.cons_ne_nil _ _
  have ended : motley.getLast? = some '\n' := by decide +kernel
  obtain ⟨kept,ascend⟩ := (sortingKeepsLines motley).2.1 filled
  rw [motleyReached,if_pos ended] at kept
  rw [motleyReached] at ascend
  exact ⟨filled,motleyReached,kept,ascend⟩

/-- Two texts are sorted into the same text exactly if they have the same lines, each as often in both,
or if there is nothing more to either of them than a single break. -/
theorem sortedAlikeIff (s t : Text) : sortLines s = sortLines t ↔
    (if s.getLast? = some '\n' then (s.splitOn '\n').dropLast else s.splitOn '\n').Perm
      (if t.getLast? = some '\n' then (t.splitOn '\n').dropLast else t.splitOn '\n') ∨
    (s = [] ∨ s = ['\n']) ∧ (t = [] ∨ t = ['\n']) := by
  constructor
  · intro same
    by_cases empty : sortLines s = []
    · exact .inr ⟨sortLinesEmpty.mp empty,sortLinesEmpty.mp (same.symm.trans empty)⟩
    · have left : s ≠ [] := fun none => empty (sortLinesEmpty.mpr (.inl none))
      have right : t ≠ [] := fun none => empty (same.trans (sortLinesEmpty.mpr (.inl none)))
      have arranged : sortedLines s = sortedLines t := by rw [← sortedPieces left,← sortedPieces right,same]
      have kept : (lines s).Perm (lines t) := (sortedLinesPerm s).symm.trans (arranged ▸ sortedLinesPerm t)
      rw [linesEnded left,linesEnded right] at kept
      exact .inl kept
  · rintro (same | ⟨left,right⟩)
    · rw [sortLinesEnded s,sortLinesEnded t]
      exact congrArg unlines (arrangementUnique same)
    · rw [sortLinesEmpty.mpr left,sortLinesEmpty.mpr right]

/- The lines of the motley text in another order, with the last of them left open. -/
def reordered : Text := "～

a
😀

ab
é".toList

theorem motleyReordered : sortLines motley = motleySorted ∧ sortLines reordered = motleySorted ∧
    sortLines motley.dropLast ≠ motleySorted ∧ sortLines [] = sortLines ['\n'] := by
  have same : sortLines motley = sortLines reordered := (sortedAlikeIff _ _).mpr (.inl (by decide +kernel))
  have fewer : sortLines motley ≠ sortLines motley.dropLast :=
    fun equal => absurd ((sortedAlikeIff _ _).mp equal) (by decide +kernel)
  rw [motleyReached] at same fewer
  exact ⟨motleyReached,same.symm,fewer.symm,(sortedAlikeIff _ _).mpr (.inr ⟨.inl rfl,.inr rfl⟩)⟩

def breaks (k : Nat) : Text := List.replicate k '\n'

theorem allBreaks (none : ¬ ∃ c ∈ t, c ≠ '\n') : t = breaks t.length :=
  List.eq_replicate_of_mem fun c inside => Decidable.byContradiction fun letter => none ⟨c,inside,letter⟩

theorem pieceListed {l : Text} (inside : l ∈ pieces t) (solid : l ≠ []) : l ∈ lines t := by
  unfold lines
  split
  · rename_i last
    obtain ⟨before,parts⟩ := List.getLast?_eq_some_iff.mp last
    rw [parts] at inside ⊢
    rw [List.dropLast_concat]
    exact (List.mem_append.mp inside).resolve_right fun empty => solid (List.mem_singleton.mp empty)
  · exact inside

theorem solidSettles (solid : ∃ c ∈ t, c ≠ '\n') :
    (sortLines t).getLast? ≠ some '\n' ∧ sortLines (sortLines t) = sortLines t := by
  obtain ⟨c,inside,letter⟩ := solid
  obtain ⟨piece,listed,here⟩ := pieceMember inside letter
  have arranged : pieces (sortLines t) = sortedLines t := sortedPieces (List.ne_nil_of_mem inside)
  have ordered : (pieces (sortLines t)).Pairwise fun l m => inOrder l m = true := arranged ▸ sortedLinesOrdered t
  have kept : piece ∈ pieces (sortLines t) := by
    rw [arranged]
    exact (sortedLinesPerm t).mem_iff.mpr (pieceListed listed (List.ne_nil_of_mem here))
  have closed := lastPieceSolid ordered kept (List.ne_nil_of_mem here)
  exact ⟨fun ends => closed (pieceEmpty ends),sortLinesFixed ordered closed⟩

theorem piecesBreaks (k : Nat) : pieces (breaks k) = List.replicate (k + 1) [] := by
  induction k with
  | zero => rfl
  | succ k ih => rw [breaks,List.replicate_succ,piecesAfter,if_pos rfl,← breaks,ih,← List.replicate_succ]

theorem linesBreaks (k : Nat) : lines (breaks k) = List.replicate k [] := by
  have last : (pieces (breaks k)).getLast? = some [] := by rw [piecesBreaks,List.replicate_succ',List.getLast?_concat]
  rw [lines,if_pos last,piecesBreaks,List.replicate_succ',List.dropLast_concat]

theorem sortLinesBreaks (k : Nat) : sortLines (breaks (k + 1)) = breaks k := by
  refine sortLinesReached ?_ ?_
  · rw [piecesBreaks,linesBreaks]
  · rw [piecesBreaks]
    exact List.pairwise_replicate.mpr (.inr rfl)

theorem breaksUnsettled (k : Nat) : (sortLines (breaks (k + 2))).getLast? = some '\n' ∧
    sortLines (sortLines (breaks (k + 2))) ≠ sortLines (breaks (k + 2)) := by
  rw [sortLinesBreaks,sortLinesBreaks]
  refine ⟨?_,fun same => ?_⟩
  · rw [breaks,List.replicate_succ',List.getLast?_concat]
  · have length := congrArg List.length same
    simp [breaks] at length

theorem settledOrBreaks (t : Text) :
    ((sortLines t).getLast? ≠ some '\n' ∧ sortLines (sortLines t) = sortLines t) ∨ ∃ k, t = breaks (k + 2) := by
  by_cases solid : ∃ c ∈ t, c ≠ '\n'
  · exact .inl (solidSettles solid)
  · have alone := allBreaks solid
    by_cases few : t.length < 2
    · have nothing : sortLines t = [] := sortLinesEmpty.mpr <| by
        rcases (by omega : t.length = 0 ∨ t.length = 1) with none | one
        · exact .inl (List.length_eq_zero_iff.mp none)
        · exact .inr (alone.trans (congrArg breaks one))
      rw [nothing]
      exact .inl ⟨nofun,sortLinesNothing⟩
    · refine .inr ⟨t.length - 2,?_⟩
      rwa [Nat.sub_add_cancel (Nat.le_of_not_lt few)]

/-- A sorted text ends with a break, and loses it when it is sorted again, exactly if the text was made of
breaks alone and of two at least. Of such texts sorting leaves one break fewer. -/
theorem sortingSettlesUnless (t : Text) :
    ((sortLines t).getLast? = some '\n' ↔ ∃ k, t = breaks (k + 2)) ∧
    (sortLines (sortLines t) ≠ sortLines t ↔ ∃ k, t = breaks (k + 2)) ∧
    ∀ k, sortLines (breaks (k + 1)) = breaks k := by
  have settled := settledOrBreaks t
  refine ⟨⟨fun ends => ?_,?_⟩,⟨fun unsettled => ?_,?_⟩,sortLinesBreaks⟩
  · exact settled.resolve_left fun fine => fine.1 ends
  · rintro ⟨k,rfl⟩
    exact (breaksUnsettled k).1
  · exact settled.resolve_left fun fine => unsettled fine.2
  · rintro ⟨k,rfl⟩
    exact (breaksUnsettled k).2

/- Two breaks are two empty lines, and these are joined by a break again. -/
theorem twoBreaksLeaveOne : (sortLines ['\n','\n']).getLast? = some '\n' ∧
    sortLines (sortLines ['\n','\n']) ≠ sortLines ['\n','\n'] := breaksUnsettled 0

end AutomatonDump.Text
