import AutomatonDump.Text.Lines
/-! The order of texts by code points is the order of their bytes in UTF-8: the first byte of a
character tells how many follow, and the longer encodings belong to the larger code points. -/
namespace AutomatonDump.Text

def utf8 (t : Text) : List UInt8 := t.flatMap String.utf8EncodeChar

def BytesAscend (s t : Text) : Prop := utf8 s = utf8 t ∨ List.Lex (· < ·) (utf8 s) (utf8 t)

def PointsAscend (s t : Text) : Prop := s = t ∨ List.Lex (· < ·) (s.map Char.toNat) (t.map Char.toNat)

section
variable {a b : Nat} {x y : List UInt8}

theorem byteLess (fits : b < 256) (less : a < b) :
    List.Lex (· < ·) (UInt8.ofNat a :: x) (UInt8.ofNat b :: y) := by
  refine .rel (UInt8.lt_iff_toNat_lt.mpr ?_)
  rw [UInt8.toNat_ofNat',UInt8.toNat_ofNat',Nat.mod_eq_of_lt fits]
  exact Nat.lt_of_le_of_lt (Nat.mod_le a _) less

theorem byteSame (same : a = b) (rest : List.Lex (· < ·) x y) :
    List.Lex (· < ·) (UInt8.ofNat a :: x) (UInt8.ofNat b :: y) := by
  subst same
  exact .cons rest

end

theorem characterLess {c d : Char} (less : c.toNat < d.toNat) (x y : List UInt8) :
    List.Lex (· < ·) (String.utf8EncodeChar c ++ x) (String.utf8EncodeChar d ++ y) := by
  have bound : d.toNat < 0x110000 := by
    rcases d.valid with low | high
    · exact Nat.lt_trans low (by decide)
    · exact high.2
  unfold String.utf8EncodeChar
  change c.val.toNat < d.val.toNat at less
  change d.val.toNat < 0x110000 at bound
  generalize c.val.toNat = v at less
  generalize d.val.toNat = w at less bound
  -- By the number of bytes: unless it is the same for both, the first bytes already differ.
  simp only
  split
  · split
    · exact byteLess (by omega) less
    · split
      · exact byteLess (by omega) (by omega)
      · split <;> exact byteLess (by omega) (by omega)
  · split
    · rw [if_neg (by omega : ¬ w ≤ 0x7f)]
      split
      · rcases (by omega : v / 64 < w / 64 ∨ v / 64 = w / 64 ∧ v % 64 < w % 64) with h | h
        · exact byteLess (by omega) (by omega)
        · exact byteSame (by omega) (byteLess (by omega) (by omega))
      · split <;> exact byteLess (by omega) (by omega)
    · rw [if_neg (by omega : ¬ w ≤ 0x7f),if_neg (by omega : ¬ w ≤ 0x7ff)]
      split
      · split
        · rcases (by omega : v / 4096 < w / 4096 ∨ v / 4096 = w / 4096 ∧ v / 64 % 64 < w / 64 % 64 ∨
            v / 64 = w / 64 ∧ v % 64 < w % 64) with h | h | h
          · exact byteLess (by omega) (by omega)
          · exact byteSame (by omega) (byteLess (by omega) (by omega))
          · exact byteSame (by omega) (byteSame (by omega) (byteLess (by omega) (by omega)))
        · exact byteLess (by omega) (by omega)
      · rw [if_neg (by omega : ¬ w ≤ 0xffff)]
        rcases (by omega : v / 262144 < w / 262144 ∨
            v / 262144 = w / 262144 ∧ v / 4096 % 64 < w / 4096 % 64 ∨
            v / 4096 = w / 4096 ∧ v / 64 % 64 < w / 64 % 64 ∨
            v / 64 = w / 64 ∧ v % 64 < w % 64) with h | h | h | h
        · exact byteLess (by omega) (by omega)
        · exact byteSame (by omega) (byteLess (by omega) (by omega))
        · exact byteSame (by omega) (byteSame (by omega) (byteLess (by omega) (by omega)))
        · exact byteSame (by omega) (byteSame (by omega) (byteSame (by omega)
            (byteLess (by omega) (by omega))))

theorem sharedBeginning (common : List UInt8) {x y : List UInt8} (rest : List.Lex (· < ·) x y) :
    List.Lex (· < ·) (common ++ x) (common ++ y) := by
  induction common with
  | nil => exact rest
  | cons b later ih => exact .cons ih

theorem inOrderStrict {s t : Text} (ordered : inOrder s t = true) :
    s = t ∨ List.Lex (· < ·) (utf8 s) (utf8 t) := by
  induction s generalizing t with
  | nil =>
    cases t with
    | nil => exact .inl rfl
    | cons d t =>
      obtain ⟨b,later,some⟩ := List.exists_cons_of_ne_nil (String.utf8EncodeChar_ne_nil (c := d))
      have bytes : utf8 (d :: t) = b :: (later ++ utf8 t) := by simp [utf8,some]
      exact .inr (bytes ▸ .nil)
  | cons c s ih =>
    cases t with
    | nil => cases ordered
    | cons d t =>
      rw [inOrderCons] at ordered
      rcases ordered with less | ⟨rfl,rest⟩
      · exact .inr (characterLess less _ _)
      · rcases ih rest with rfl | before
        · exact .inl rfl
        · exact .inr (sharedBeginning _ before)

theorem inOrderIffBytes {s t : Text} : inOrder s t = true ↔ BytesAscend s t := by
  constructor
  · intro ordered
    exact (inOrderStrict ordered).imp (congrArg utf8) id
  · intro ascend
    rcases (Bool.or_eq_true _ _).mp (inOrderTotal s t) with ordered | reverse
    · exact ordered
    · rcases inOrderStrict reverse with rfl | after
      · exact reverse
      · have irreflexive (x : List UInt8) := List.lex_irrefl (r := (· < ·)) UInt8.lt_irrefl x
        rcases ascend with same | before
        · exact absurd (same ▸ after) (irreflexive _)
        · exact absurd (List.lex_trans (r := (· < ·)) UInt8.lt_trans before after) (irreflexive _)

theorem inOrderIffPoints {s t : Text} : inOrder s t = true ↔ PointsAscend s t := by
  induction s generalizing t with
  | nil =>
    refine iff_of_true rfl ?_
    cases t with
    | nil => exact .inl rfl
    | cons d t => exact .inr .nil
  | cons c s ih =>
    cases t with
    | nil => exact iff_of_false nofun (fun ascend => ascend.elim nofun nofun)
    | cons d t =>
      rw [inOrderCons,ih]
      unfold PointsAscend
      rw [List.map_cons,List.map_cons,List.cons_lex_cons_iff,List.cons.injEq,Char.toNat_inj,and_or_left]
      exact or_left_comm

end AutomatonDump.Text
