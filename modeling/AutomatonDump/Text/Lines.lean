import AutomatonDump.Text.Basic
/-! Lines of a text and their sorted arrangement: at the first difference the smaller code point
comes first, and a text comes before its continuations. Pieces are what stands between the line
breaks, empty ones included; lines are the same, except that one break at the very end closes
the last line instead of opening another. -/
namespace AutomatonDump.Text

def inOrder : Text → Text → Bool
  | [],_ => true
  | _ :: _,[] => false
  | c :: s,d :: t => decide (c.toNat < d.toNat) || (decide (c = d) && inOrder s t)

theorem inOrderCons {c d : Char} {s t : Text} :
    inOrder (c :: s) (d :: t) = true ↔ c.toNat < d.toNat ∨ c = d ∧ inOrder s t = true := by
  simp [inOrder]

theorem inOrderTotal (s t : Text) : (inOrder s t || inOrder t s) = true := by
  rw [Bool.or_eq_true]
  induction s generalizing t with
  | nil => exact .inl rfl
  | cons c s ih =>
    cases t with
    | nil => exact .inr rfl
    | cons d t =>
      rw [inOrderCons,inOrderCons]
      rcases Nat.lt_trichotomy c.toNat d.toNat with less | same | more
      · exact .inl (.inl less)
      · cases Char.toNat_inj.mp same
        exact (ih t).imp (fun h => .inr ⟨rfl,h⟩) fun h => .inr ⟨rfl,h⟩
      · exact .inr (.inl more)

theorem inOrderTrans (s t u : Text) (first : inOrder s t = true) (second : inOrder t u = true) :
    inOrder s u = true := by
  induction s generalizing t u with
  | nil => rfl
  | cons c s ih =>
    cases t with
    | nil => cases first
    | cons d t =>
      cases u with
      | nil => cases second
      | cons e u =>
        rw [inOrderCons] at first second ⊢
        rcases first with less | ⟨same,rest⟩
        · rcases second with more | ⟨equal,_⟩
          · exact .inl (Nat.lt_trans less more)
          · exact .inl (equal ▸ less)
        · rcases second with more | ⟨equal,tail⟩
          · exact .inl (same ▸ more)
          · exact .inr ⟨same.trans equal,ih t u rest tail⟩

theorem inOrderAntisymm {s t : Text} (first : inOrder s t = true) (second : inOrder t s = true) :
    s = t := by
  induction s generalizing t with
  | nil =>
    cases t with
    | nil => rfl
    | cons d t => cases second
  | cons c s ih =>
    cases t with
    | nil => cases first
    | cons d t =>
      rw [inOrderCons] at first second
      rcases first with less | ⟨same,rest⟩
      · rcases second with more | ⟨equal,_⟩
        · exact absurd (Nat.lt_trans less more) (Nat.lt_irrefl _)
        · exact absurd (equal ▸ less) (Nat.lt_irrefl _)
      · rcases second with more | ⟨_,tail⟩
        · exact absurd (same ▸ more) (Nat.lt_irrefl _)
        · rw [same,ih rest tail]

def pieces (t : Text) : List Text := t.splitOn '\n'

def lines (t : Text) : List Text :=
  if (pieces t).getLast? = some [] then (pieces t).dropLast else pieces t

def unlines (ls : List Text) : Text := ['\n'].intercalate ls

def sortedLines (t : Text) : List Text := (lines t).mergeSort inOrder
def sortLines (t : Text) : Text := unlines (sortedLines t)

theorem unlinesPieces (t : Text) : unlines (pieces t) = t := List.intercalate_splitOn '\n'

theorem piecesUnlines {ls : List Text} (some : ls ≠ []) (whole : ∀ l ∈ ls, '\n' ∉ l) :
    pieces (unlines ls) = ls := List.splitOn_intercalate '\n' whole some

theorem sortedLinesPerm (t : Text) : (sortedLines t).Perm (lines t) := List.mergeSort_perm ..

theorem sortedLinesOrdered (t : Text) : (sortedLines t).Pairwise fun s u => inOrder s u = true :=
  List.pairwise_mergeSort inOrderTrans inOrderTotal (lines t)

end AutomatonDump.Text
