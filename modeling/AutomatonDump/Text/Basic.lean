/-! A text is the list of its characters. Whatever a dump contains is built from texts by
concatenation, so splitting, sorting and comparing are statements about lists. Quoted texts and
character literals share the short escapes; only a literal also spells out the remaining control
characters, in capital hexadecimal digits. -/
namespace AutomatonDump

abbrev Text := List Char

namespace Text

def enumerated (parts : List Text) : Text := [',',' '].intercalate parts

def braced (parts : List Text) : Text := '{' :: enumerated parts ++ ['}']
def bracketed (parts : List Text) : Text := '[' :: enumerated parts ++ [']']
def parenthesised (parts : List Text) : Text := '(' :: enumerated parts ++ [')']

theorem joinedMember {separator : Text} {parts : List Text} {c : Char} (inside : c ∈ separator.intercalate parts) :
    c ∈ separator ∨ ∃ part ∈ parts, c ∈ part := by
  induction parts with
  | nil => exact absurd inside List.not_mem_nil
  | cons part rest ih =>
    cases rest with
    | nil => exact .inr ⟨part,List.mem_cons_self,by rwa [List.intercalate_singleton] at inside⟩
    | cons next later =>
      rw [List.intercalate_cons_cons] at inside
      rcases List.mem_append.mp inside with front | behind
      · rcases List.mem_append.mp front with here | between
        · exact .inr ⟨part,List.mem_cons_self,here⟩
        · exact .inl between
      · exact (ih behind).imp_right fun ⟨other,listed,here⟩ => ⟨other,List.mem_cons_of_mem part listed,here⟩

def natural (n : Nat) : Text := Nat.toDigits 10 n

def integer : Int → Text
  | .ofNat n => natural n
  | .negSucc n => '-' :: natural (n + 1)

def fourHexDigits (n : Nat) : Text := ((Nat.toDigits 16 n).map Char.toUpper).leftpad 4 '0'

theorem naturalNonempty (n : Nat) : natural n ≠ [] := by
  unfold natural
  rw [Nat.toDigits_eq_if (by decide)]
  split <;> simp

theorem naturalDigits {n : Nat} {c : Char} (h : c ∈ natural n) : c.isDigit :=
  Nat.isDigit_of_mem_toDigits (b := 10) (n := n) (by decide) (by decide) h

theorem naturalInjective {m n : Nat} (h : natural m = natural n) : m = n := by
  have read := congrArg (Nat.ofDigitChars 10 · 0) h
  simpa [natural,Nat.ofDigitChars_toDigits] using read

def shortEscape (quote c : Char) : Option Char :=
  if c = quote then some quote
  else if c = '\n' then some 'n'
  else if c = '\r' then some 'r'
  else if c = '\t' then some 't'
  else if c = '\\' then some '\\'
  else none

def quoted (quote : Char) (t : Text) : Text :=
  quote :: t.flatMap (fun c => match shortEscape quote c with
    | some e => ['\\',e]
    | none => [c]) ++ [quote]

def IsControl (c : Char) : Prop := c.toNat < 0x20 ∨ 0x7f ≤ c.toNat ∧ c.toNat < 0xa0
instance (c : Char) : Decidable (IsControl c) := by unfold IsControl; infer_instance

def literal (c : Char) : Text :=
  '\'' :: (match shortEscape '\'' c with
    | some e => ['\\',e]
    | none => if IsControl c then '\\' :: 'u' :: fourHexDigits c.toNat else [c]) ++ ['\'']

end Text
end AutomatonDump
