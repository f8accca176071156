import AutomatonDump.Text.Basic
import Mathlib.Data.List.Forall2
/-! Texts that tell where they end. What begins with such a text can be read from the front: it has one
reading, and one rest. Literals are read back by their quotes and escapes, numerals by the end of their digits,
and an enclosed enumeration by its commas and its bracket, as long as its parts can be told from those. -/
namespace AutomatonDump.Text

/- Things are told by the texts that spell them, where what follows is of the right kind. -/
def Legible {α : Type} (spells : α → Text → Prop) (follows : Text → Prop) : Prop :=
  ∀ {x y : α} {s t rest others : Text}, spells x s → spells y t → follows rest → follows others →
    s ++ rest = t ++ others → x = y ∧ rest = others

theorem legibleEnd {α : Type} {spells : α → Text → Prop} {follows : Text → Prop} (legible : Legible spells follows)
    (ends : follows []) {x y : α} {t : Text} (left : spells x t) (right : spells y t) : x = y :=
  (legible left right ends ends rfl).1

section literals

def hexValue (c : Char) : Nat := if c.isDigit then c.toNat - '0'.toNat else c.toNat - 'A'.toNat + 10

def unescaped (c : Char) : Char :=
  if c = 'n' then '\n' else if c = 'r' then '\r' else if c = 't' then '\t' else c

def readLiteral : Text → Option (Char × Text)
  | '\'' :: '\\' :: 'u' :: _ :: _ :: tens :: ones :: '\'' :: rest =>
      some (Char.ofNat (16 * hexValue tens + hexValue ones),rest)
  | '\'' :: '\\' :: c :: '\'' :: rest => some (unescaped c,rest)
  | '\'' :: c :: '\'' :: rest => some (c,rest)
  | _ => none

theorem controlDigits {n : Nat} (small : n < 0xa0) :
    fourHexDigits n = ['0','0',(n / 16).digitChar.toUpper,(n % 16).digitChar.toUpper] := by
  revert n
  decide +kernel

theorem hexValueDigit {d : Nat} (small : d < 16) : hexValue d.digitChar.toUpper = d := by
  revert d
  decide

theorem readControl {c : Char} (control : IsControl c) (rest : Text) :
    readLiteral ('\'' :: '\\' :: 'u' :: fourHexDigits c.toNat ++ '\'' :: rest) = some (c,rest) := by
  have small : c.toNat < 0xa0 := by unfold IsControl at control; omega
  have value : 16 * (c.toNat / 16) + c.toNat % 16 = c.toNat := Nat.div_add_mod c.toNat 16
  rw [controlDigits small]
  simp only [List.cons_append,List.nil_append,readLiteral]
  rw [hexValueDigit (by omega),hexValueDigit (by omega),value,Char.ofNat_toNat]

theorem readPlain {c : Char} (plain : shortEscape '\'' c = none) (rest : Text) :
    readLiteral ('\'' :: c :: '\'' :: rest) = some (c,rest) := by
  have unlike : c ≠ '\\' := by rintro rfl; exact absurd plain (by decide)
  simp [readLiteral,unlike]

theorem readShort {c e : Char} (escape : shortEscape '\'' c = some e) (rest : Text) :
    readLiteral ('\'' :: '\\' :: e :: '\'' :: rest) = some (c,rest) := by
  unfold shortEscape at escape
  split_ifs at escape <;> cases escape <;> subst c <;> rfl

theorem readLiteralBack (c : Char) (rest : Text) : readLiteral (literal c ++ rest) = some (c,rest) := by
  unfold literal
  split
  · rename_i e escape
    exact readShort escape rest
  · rename_i plain
    split
    · rename_i control
      simpa using readControl control rest
    · exact readPlain plain rest

theorem literalLegible : Legible (fun c t => literal c = t) fun _ => True := by
  rintro c d _ _ rest others rfl rfl _ _ same
  have read := congrArg readLiteral same
  rw [readLiteralBack,readLiteralBack] at read
  exact Prod.mk.inj (Option.some.inj read)

end literals

section numerals

def Undigited (rest : Text) : Prop := ∀ c ∈ rest.head?, c.isDigit = false

theorem undigitedNothing : Undigited [] := by rintro _ ⟨⟩

theorem digitsTaken {digits rest : Text} (all : ∀ c ∈ digits, c.isDigit = true) (undigited : Undigited rest) :
    (digits ++ rest).takeWhile Char.isDigit = digits := by
  rw [List.takeWhile_append_of_pos all]
  cases rest with
  | nil => exact List.append_nil digits
  | cons c later => rw [List.takeWhile_cons_of_neg (by simp [undigited c rfl]),List.append_nil]

theorem naturalLegible : Legible (fun n t => natural n = t) Undigited := by
  rintro m n _ _ rest others rfl rfl undigited undigited' same
  have digits := congrArg (·.takeWhile Char.isDigit) same
  simp only [digitsTaken (fun _ => naturalDigits) undigited,digitsTaken (fun _ => naturalDigits) undigited'] at digits
  rw [digits] at same
  exact ⟨naturalInjective digits,List.append_cancel_left same⟩

theorem naturalBegins (n : Nat) : ∃ c later, natural n = c :: later ∧ c.isDigit = true := by
  obtain ⟨c,later,text⟩ := List.exists_cons_of_ne_nil (naturalNonempty n)
  exact ⟨c,later,text,naturalDigits (text ▸ List.mem_cons_self)⟩

theorem integerBegins (i : Int) : ∃ c later, integer i = c :: later ∧ (c = '-' ∨ c.isDigit = true) := by
  cases i with
  | ofNat n =>
    obtain ⟨c,later,text,digit⟩ := naturalBegins n
    exact ⟨c,later,text,.inr digit⟩
  | negSucc n => exact ⟨'-',_,rfl,.inl rfl⟩

theorem integerLegible : Legible (fun i t => integer i = t) Undigited := by
  -- A minus sign is no digit, so the first character shows whether a number is below zero.
  have unsigned (m n : Nat) (rest others : Text) : natural m ++ rest ≠ '-' :: natural n ++ others := by
    obtain ⟨c,later,text,digit⟩ := naturalBegins m
    rw [text]
    intro same
    rw [(List.cons.inj same).1] at digit
    exact absurd digit (by decide)
  rintro i j _ _ rest others rfl rfl undigited undigited' same
  match i,j with
  | .ofNat m,.ofNat n =>
    obtain ⟨rfl,rests⟩ := naturalLegible rfl rfl undigited undigited' same
    exact ⟨rfl,rests⟩
  | .ofNat m,.negSucc n => exact absurd same (unsigned m (n + 1) rest others)
  | .negSucc m,.ofNat n => exact absurd same.symm (unsigned n (m + 1) others rest)
  | .negSucc m,.negSucc n =>
    obtain ⟨numbers,rests⟩ := naturalLegible rfl rfl undigited undigited' (List.cons.inj same).2
    exact ⟨congrArg Int.negSucc (Nat.succ.inj numbers),rests⟩

theorem integerInjective {i j : Int} (same : integer i = integer j) : i = j :=
  legibleEnd integerLegible undigitedNothing same rfl

end numerals

section enumerations
variable {α : Type} {spells : α → Text → Prop} {close : Char}

def remainder (close : Char) (parts : List Text) (rest : Text) : Text :=
  parts.foldr (fun part later => ',' :: ' ' :: part ++ later) (close :: rest)

theorem enumeratedRemainder (close : Char) (part : Text) (parts : List Text) (rest : Text) :
    enumerated (part :: parts) ++ close :: rest = part ++ remainder close parts rest := by
  unfold enumerated
  induction parts generalizing part with
  | nil => rw [List.intercalate_singleton]; rfl
  | cons next later ih =>
    rw [List.intercalate_cons_cons,List.append_assoc,List.append_assoc,ih]
    rfl

def Separated (close : Char) (rest : Text) : Prop := ∃ c later, rest = c :: later ∧ (c = ',' ∨ c = close)

theorem remainderSeparated (close : Char) (parts : List Text) (rest : Text) :
    Separated close (remainder close parts rest) := by
  cases parts with
  | nil => exact ⟨close,rest,rfl,.inr rfl⟩
  | cons part later => exact ⟨',',_,rfl,.inl rfl⟩

theorem separatedLegible (bracket : close.isDigit = false) (legible : Legible spells Undigited) :
    Legible spells (Separated close) := by
  have undigited {rest : Text} (separated : Separated close rest) : Undigited rest := by
    obtain ⟨c,later,rfl,mark⟩ := separated
    rintro _ ⟨⟩
    rcases mark with rfl | rfl
    · decide
    · exact bracket
  intro x y s t rest others left right separated separated' same
  exact legible left right (undigited separated) (undigited separated') same

theorem remainderLegible (apart : close ≠ ',') (legible : Legible spells (Separated close)) {xs ys : List α}
    {ss ts : List Text} {rest others : Text} (left : List.Forall₂ spells xs ss) (right : List.Forall₂ spells ys ts)
    (same : remainder close ss rest = remainder close ts others) : xs = ys ∧ rest = others := by
  induction left generalizing ys ts with
  | nil =>
    cases right with
    | nil => exact ⟨rfl,(List.cons.inj same).2⟩
    | cons _ _ => exact absurd (List.cons.inj same).1 apart
  | cons first _ ih =>
    cases right with
    | nil => exact absurd (List.cons.inj same).1.symm apart
    | cons second later =>
      have behind := (List.cons.inj (List.cons.inj same).2).2
      obtain ⟨rfl,rests⟩ := legible first second (remainderSeparated ..) (remainderSeparated ..) behind
      obtain ⟨rfl,equal⟩ := ih later rests
      exact ⟨rfl,equal⟩

/- The list of things that an enclosed enumeration spells. No part of it may begin with the bracket, or an
empty list could be taken for a longer one. -/
theorem enumeratedLegible (apart : close ≠ ',') (legible : Legible spells (Separated close))
    (solid : ∀ {x t}, spells x t → ∃ c later, t = c :: later ∧ c ≠ close) :
    Legible (fun xs t => ∃ parts, List.Forall₂ spells xs parts ∧ enumerated parts ++ [close] = t)
      fun _ => True := by
  rintro xs ys _ _ rest others ⟨ss,left,rfl⟩ ⟨ts,right,rfl⟩ _ _ same
  rw [List.append_assoc,List.append_assoc,List.singleton_append,List.singleton_append] at same
  cases left with
  | nil =>
    cases right with
    | nil => exact ⟨rfl,(List.cons.inj same).2⟩
    | cons second _ =>
      obtain ⟨c,later,rfl,unlike⟩ := solid second
      rw [enumeratedRemainder] at same
      exact absurd (List.cons.inj same).1.symm unlike
  | cons first before =>
    cases right with
    | nil =>
      obtain ⟨c,later,rfl,unlike⟩ := solid first
      rw [enumeratedRemainder] at same
      exact absurd (List.cons.inj same).1 unlike
    | cons second later =>
      rw [enumeratedRemainder,enumeratedRemainder] at same
      obtain ⟨rfl,rests⟩ := legible first second (remainderSeparated ..) (remainderSeparated ..) same
      obtain ⟨rfl,equal⟩ := remainderLegible apart legible before later rests
      exact ⟨rfl,equal⟩

theorem bracedLegible (legible : Legible spells (Separated '}'))
    (solid : ∀ {x t}, spells x t → ∃ c later, t = c :: later ∧ c ≠ '}') :
    Legible (fun xs t => ∃ parts, List.Forall₂ spells xs parts ∧ braced parts = t) fun _ => True := by
  rintro xs ys _ _ rest others ⟨ss,left,rfl⟩ ⟨ts,right,rfl⟩ _ _ same
  exact enumeratedLegible (by decide) legible solid ⟨ss,left,rfl⟩ ⟨ts,right,rfl⟩ trivial trivial
    (List.cons.inj same).2

theorem pairedLegible {β : Type} {second : β → Text → Prop} (before : Legible spells (Separated ')'))
    (behind : Legible second (Separated ')')) :
    Legible (fun (p : α × β) t => ∃ u v, spells p.1 u ∧ second p.2 v ∧ parenthesised [u,v] = t) fun _ => True := by
  rintro ⟨x,y⟩ ⟨x',y'⟩ _ _ rest others ⟨u,v,hx,hy,rfl⟩ ⟨u',v',hx',hy',rfl⟩ _ _ same
  have opened : enumerated [u,v] ++ [')'] ++ rest = enumerated [u',v'] ++ [')'] ++ others :=
    (List.cons.inj same).2
  rw [List.append_assoc,List.append_assoc,List.singleton_append,List.singleton_append,enumeratedRemainder,
    enumeratedRemainder] at opened
  obtain ⟨firsts,remainders⟩ := before hx hx' (remainderSeparated ..) (remainderSeparated ..) opened
  obtain ⟨seconds,rests⟩ := remainderLegible (by decide) behind (.cons hy .nil) (.cons hy' .nil) remainders
  exact ⟨Prod.ext firsts (List.cons.inj seconds).1,rests⟩

end enumerations

end AutomatonDump.Text
