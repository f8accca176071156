import AutomatonDump.Label.Lexicon
import Mathlib.Data.List.Forall2
/-! What a lexicon makes of a condition, function by function: a text is the result exactly when the
parts have texts of which it consists. A lexer spells out every control character, so that its labels
are written without any. -/
namespace AutomatonDump

theorem bindOk {α β ε : Type} {x : Except ε α} {f : α → Except ε β} {y : β} :
    x.bind f = .ok y ↔ ∃ a, x = .ok a ∧ f a = .ok y := by
  cases x with
  | error e => exact ⟨(nomatch ·),fun ⟨_,failed,_⟩ => nomatch failed⟩
  | ok a => exact ⟨fun ok => ⟨a,rfl,ok⟩,fun ⟨_,same,ok⟩ => by cases same; exact ok⟩

theorem mapMOk {α β ε : Type} {f : α → Except ε β} {xs : List α} {ys : List β} :
    xs.mapM f = .ok ys ↔ List.Forall₂ (fun x y => f x = .ok y) xs ys := by
  induction xs generalizing ys with
  | nil =>
    rw [List.forall₂_nil_left_iff]
    exact ⟨fun ok => (Except.ok.inj ok).symm,congrArg Except.ok ∘ Eq.symm⟩
  | cons x rest ih =>
    rw [List.mapM_cons,List.forall₂_cons_left_iff]
    refine bindOk.trans ⟨?_,?_⟩
    · rintro ⟨y,head,later⟩
      obtain ⟨tail,rested,same⟩ := bindOk.mp later
      exact ⟨y,tail,head,ih.mp rested,(Except.ok.inj same).symm⟩
    · rintro ⟨y,tail,head,rested,rfl⟩
      exact ⟨y,head,bindOk.mpr ⟨tail,ih.mpr rested,rfl⟩⟩

theorem mapMSame {α β ε : Type} {f g : α → Except ε β} {xs : List α} (same : ∀ x ∈ xs, f x = g x) :
    xs.mapM f = xs.mapM g := by
  induction xs with
  | nil => rfl
  | cons x rest ih =>
    obtain ⟨head,tail⟩ := List.forall_mem_cons.mp same
    rw [List.mapM_cons,List.mapM_cons,head,ih tail]

namespace Lexicon
variable {v : Lexicon} {t : Text}

theorem characterCode {n : Int32} {c : Char} : character? n = some c ↔ n.toInt = c.toNat := by
  unfold character?
  constructor
  · intro found
    split at found
    · rename_i valid
      have code : (Char.ofNat n.toInt.toNat).toNat = n.toInt.toNat := by rw [Char.ofNat,dif_pos valid.2]; rfl
      rw [← Option.some.inj found,code,Int.toNat_of_nonneg valid.1]
    · cases found
  · intro code
    have same : n.toInt.toNat = c.toNat := by rw [code,Int.toNat_natCast]
    rw [if_pos ⟨code ▸ Int.natCast_nonneg c.toNat,same ▸ c.valid⟩,same,Char.ofNat_toNat]

theorem characterAtomOk (characters : v.reading = .characters) {n : Int32} : v.atom n = .ok t ↔
    n = endOfInput ∧ "EOF".toList = t ∨ n ≠ endOfInput ∧ ∃ c, character? n = some c ∧ Text.literal c = t := by
  unfold atom
  by_cases last : n = endOfInput
  · rw [if_pos last]
    exact ⟨fun ok => .inl ⟨last,Except.ok.inj ok⟩,fun h => by simp_all⟩
  · rw [if_neg last,characters]
    cases character? n with
    | none => simp [last]
    | some c => simp [last]

theorem rangeOk {low high : Int32} : v.range low high = .ok t ↔
    low = high ∧ v.atom low = .ok t ∨
    low ≠ high ∧ ∃ first last, v.atom low = .ok first ∧ v.atom high = .ok last ∧
      first ++ "..".toList ++ last = t := by
  unfold range
  by_cases same : low = high
  · rw [if_pos same]
    simp [same]
  · rw [if_neg same]
    refine bindOk.trans ⟨?_,?_⟩
    · rintro ⟨first,begins,later⟩
      obtain ⟨last,ends,joined⟩ := bindOk.mp later
      exact .inr ⟨same,first,last,begins,ends,Except.ok.inj joined⟩
    · rintro (⟨equal,_⟩ | ⟨_,first,last,begins,ends,joined⟩)
      · exact absurd equal same
      · exact ⟨first,begins,bindOk.mpr ⟨last,ends,congrArg Except.ok joined⟩⟩

theorem oneOfOk {ranges : List (Int32 × Int32)} : v.resolve (.oneOf ranges) = .ok t ↔
    ∃ parts, List.Forall₂ (fun r part => v.range r.1 r.2 = .ok part) ranges parts ∧ Text.braced parts = t := by
  refine bindOk.trans (exists_congr fun parts => ?_)
  rw [mapMOk]
  exact and_congr_right fun _ => ⟨Except.ok.inj,congrArg Except.ok⟩

end Lexicon

namespace Text

def Printable (t : Text) : Prop := ∀ c ∈ t, ¬ IsControl c
instance (t : Text) : Decidable t.Printable := List.decidableBAll _ t

theorem printableAppend {s t : Text} (left : s.Printable) (right : t.Printable) : (s ++ t).Printable :=
  List.forall_mem_append.mpr ⟨left,right⟩

theorem printableEnumerated {parts : List Text} (all : ∀ part ∈ parts, part.Printable) :
    (enumerated parts).Printable := by
  have separator : Printable [',',' '] := by decide
  intro c inside
  rcases joinedMember inside with between | ⟨part,listed,here⟩
  · exact separator c between
  · exact all part listed c here

theorem printableBraced {parts : List Text} (all : ∀ part ∈ parts, part.Printable) : (braced parts).Printable :=
  List.forall_mem_cons.mpr ⟨by decide,printableAppend (printableEnumerated all) (by decide)⟩

theorem digitsBelow {base : Nat} (some : 1 < base) {n : Nat} {c : Char} (h : c ∈ Nat.toDigits base n) :
    ∃ d < base, c = d.digitChar := by
  induction n using Nat.strongRecOn with
  | ind n ih =>
    rw [Nat.toDigits_eq_if some] at h
    split at h
    · exact ⟨n,‹_›,List.mem_singleton.mp h⟩
    · rename_i large
      rcases List.mem_append.mp h with early | last
      · exact ih (n / base) (Nat.div_lt_self (by omega) some) early
      · exact ⟨n % base,Nat.mod_lt n (by omega),List.mem_singleton.mp last⟩

theorem hexPrintable (n : Nat) : (fourHexDigits n).Printable := by
  have capital : ∀ d < 16, ¬ IsControl d.digitChar.toUpper := by decide
  intro c inside
  rw [fourHexDigits,List.leftpad] at inside
  rcases List.mem_append.mp inside with filled | digit
  · rw [List.eq_of_mem_replicate filled]
    decide
  · obtain ⟨e,listed,rfl⟩ := List.mem_map.mp digit
    obtain ⟨d,small,rfl⟩ := digitsBelow (by decide) listed
    exact capital d small

theorem escapeLetters {quote c e : Char} (escape : shortEscape quote c = some e) :
    e ∈ quote :: "nrt\\".toList := by
  unfold shortEscape at escape
  split_ifs at escape <;> cases escape <;> simp

theorem literalPrintable (c : Char) : (literal c).Printable := by
  refine List.forall_mem_cons.mpr ⟨by decide,printableAppend ?_ (by decide)⟩
  have letters : Printable ('\'' :: "nrt\\".toList) := by decide
  split
  · rename_i e escape
    exact List.forall_mem_cons.mpr ⟨by decide,List.forall_mem_singleton.mpr (letters e (escapeLetters escape))⟩
  · split
    · exact List.forall_mem_cons.mpr ⟨by decide,List.forall_mem_cons.mpr ⟨by decide,hexPrintable _⟩⟩
    · exact List.forall_mem_singleton.mpr ‹_›

end Text

namespace Lexicon
variable {v : Lexicon} {t : Text}

theorem atomPrintable (characters : v.reading = .characters) {n : Int32} (ok : v.atom n = .ok t) :
    t.Printable := by
  rcases (characterAtomOk characters).mp ok with ⟨_,rfl⟩ | ⟨_,c,_,rfl⟩
  · decide
  · exact Text.literalPrintable c

theorem rangePrintable (characters : v.reading = .characters) {low high : Int32}
    (ok : v.range low high = .ok t) : t.Printable := by
  rcases rangeOk.mp ok with ⟨_,only⟩ | ⟨_,first,last,begins,ends,rfl⟩
  · exact atomPrintable characters only
  · exact Text.printableAppend (Text.printableAppend (atomPrintable characters begins) (by decide))
      (atomPrintable characters ends)

theorem resolvePrintable (characters : v.reading = .characters) {label : Condition}
    (ok : v.resolve label = .ok t) : t.Printable := by
  cases label with
  | epsilon => cases ok; decide
  | atom n => exact atomPrintable characters ok
  | range low high => exact rangePrintable characters ok
  | oneOf ranges =>
    obtain ⟨parts,all,rfl⟩ := oneOfOk.mp ok
    refine Text.printableBraced ?_
    clear ok
    induction all with
    | nil => exact List.forall_mem_nil _
    | cons head _ ih => exact List.forall_mem_cons.mpr ⟨rangePrintable characters head,ih⟩

end Lexicon
end AutomatonDump
