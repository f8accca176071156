import AutomatonDump.Proofs.Label.Registration
/-! Which conditions a lexicon refuses. It looks at their numbers from left to right, and the first one
that means nothing to it is the one that its refusal names, wherever in a set of ranges it stands. -/
namespace AutomatonDump

def IsScalar (n : Int32) : Prop := 0 ≤ n.toInt ∧ n.toInt ≤ 0x10ffff ∧ ¬ (0xd800 ≤ n.toInt ∧ n.toInt ≤ 0xdfff)
instance (n : Int32) : Decidable (IsScalar n) := by unfold IsScalar; infer_instance

namespace Lexicon
variable {v : Lexicon} {α β : Type}

def Resolvable (v : Lexicon) (n : Int32) : Prop :=
  n = endOfInput ∨ v.reading = .characters ∧ IsScalar n ∨ v.reading = .tokens ∧ n ∈ v.names
instance (v : Lexicon) (n : Int32) : Decidable (v.Resolvable n) := by unfold Resolvable; infer_instance

def refusal (v : Lexicon) (n : Int32) : Refusal := match v.reading with
  | .characters => .notACharacter n
  | .tokens => .unnamedToken n

theorem characterScalar {n : Int32} : (character? n).isSome ↔ IsScalar n := by
  have gap : n.toInt.toNat.isValidChar ↔
      n.toInt.toNat < 0xd800 ∨ 0xdfff < n.toInt.toNat ∧ n.toInt.toNat < 0x110000 := Iff.rfl
  unfold character? IsScalar
  split <;> simp only [Option.isSome_some,Option.isSome_none,true_iff,Bool.false_eq_true,false_iff] <;> omega

theorem atomResolvable {n : Int32} (means : v.Resolvable n) : ∃ t, v.atom n = .ok t := by
  unfold atom
  by_cases last : n = endOfInput
  · exact ⟨_,if_pos last⟩
  · rw [if_neg last]
    rcases means with equal | ⟨characters,scalar⟩ | ⟨tokens,registered⟩
    · exact absurd equal last
    · obtain ⟨c,found⟩ := Option.isSome_iff_exists.mp (characterScalar.mpr scalar)
      exact ⟨_,by rw [characters,found]⟩
    · obtain ⟨name,found⟩ := Option.isSome_iff_exists.mp (nameRegistered.mpr registered)
      exact ⟨name,by rw [tokens,found]⟩

theorem atomRefused {n : Int32} (meaningless : ¬ v.Resolvable n) : v.atom n = .error (v.refusal n) := by
  unfold atom refusal
  obtain ⟨last,others⟩ := not_or.mp meaningless
  rw [if_neg last]
  cases reading : v.reading with
  | characters =>
    have none : character? n = none :=
      Option.not_isSome_iff_eq_none.mp fun found => others (.inl ⟨reading,characterScalar.mp found⟩)
    simp only [none]
  | tokens =>
    have none : v.name? n = none :=
      Option.not_isSome_iff_eq_none.mp fun named => others (.inr ⟨reading,nameRegistered.mp named⟩)
    simp only [none]

/- What comes of looking at numbers in this order: a result if all of them mean something, else the
refusal of the first that does not. -/
inductive Verdict (v : Lexicon) (numbers : List Int32) : Except Refusal α → Prop where
  | resolved {x : α} (all : ∀ n ∈ numbers, v.Resolvable n) : Verdict v numbers (.ok x)
  | refused {before after : List Int32} {n : Int32} (place : numbers = before ++ n :: after)
      (earlier : ∀ m ∈ before, v.Resolvable m) (first : ¬ v.Resolvable n) :
      Verdict v numbers (.error (v.refusal n))

theorem atomVerdict {n : Int32} {others : List Int32} (same : ∀ m ∈ others, m = n) :
    v.Verdict (n :: others) (v.atom n) := by
  by_cases means : v.Resolvable n
  · obtain ⟨t,ok⟩ := atomResolvable means
    rw [ok]
    exact .resolved (List.forall_mem_cons.mpr ⟨means,fun m inside => (same m inside).symm ▸ means⟩)
  · rw [atomRefused means]
    exact .refused rfl (List.forall_mem_nil _) means

theorem verdictAfter {ms ns : List Int32} {r : Except Refusal α} (all : ∀ n ∈ ms, v.Resolvable n)
    (later : v.Verdict ns r) : v.Verdict (ms ++ ns) r := by
  cases later with
  | resolved rest => exact .resolved (List.forall_mem_append.mpr ⟨all,rest⟩)
  | refused place earlier first =>
    exact .refused (by rw [place,List.append_assoc]) (List.forall_mem_append.mpr ⟨all,earlier⟩) first

theorem verdictBind {ms ns : List Int32} {r : Except Refusal α} {f : α → Except Refusal β}
    (first : v.Verdict ms r) (later : ∀ x, v.Verdict ns (f x)) : v.Verdict (ms ++ ns) (r.bind f) := by
  cases first with
  | @resolved x all => exact verdictAfter all (later x)
  | refused place earlier first =>
    exact .refused (by rw [place,List.append_assoc,List.cons_append]) earlier first

theorem verdictMap {ns : List Int32} {r : Except Refusal α} (first : v.Verdict ns r) (g : α → β) :
    v.Verdict ns (r.bind fun x => .ok (g x)) := by
  have whole := verdictBind first fun x => (.resolved (List.forall_mem_nil _) : v.Verdict [] (.ok (g x)))
  rwa [List.append_nil] at whole

theorem verdictAll {f : α → Except Refusal β} {numbers : α → List Int32}
    (each : ∀ x, v.Verdict (numbers x) (f x)) (xs : List α) : v.Verdict (xs.flatMap numbers) (xs.mapM f) := by
  induction xs with
  | nil => exact .resolved (List.forall_mem_nil _)
  | cons x rest ih =>
    rw [List.mapM_cons,List.flatMap_cons]
    exact verdictBind (each x) fun y => verdictMap ih (y :: ·)

theorem rangeVerdict (low high : Int32) : v.Verdict [low,high] (v.range low high) := by
  unfold range
  by_cases same : low = high
  · rw [if_pos same]
    exact atomVerdict (List.forall_mem_singleton.mpr same.symm)
  · rw [if_neg same]
    exact verdictBind (atomVerdict (List.forall_mem_nil _)) fun first =>
      verdictMap (atomVerdict (List.forall_mem_nil _)) (first ++ "..".toList ++ ·)

theorem resolveVerdict (label : Condition) : v.Verdict label.numbers (v.resolve label) := by
  cases label with
  | epsilon => exact .resolved (List.forall_mem_nil _)
  | atom n => exact atomVerdict (List.forall_mem_nil _)
  | range low high => exact rangeVerdict low high
  | oneOf ranges => exact verdictMap (verdictAll (fun r => rangeVerdict r.1 r.2) ranges) Text.braced

end Lexicon

/-- A condition has a text exactly if all its numbers mean something. Otherwise it is refused on account of
the first number that does not. -/
theorem firstMeaninglessRefused (v : Lexicon) (label : Condition) :
    ((∃ t, v.resolve label = .ok t) ↔ ∀ n ∈ label.numbers, v.Resolvable n) ∧
    ((∃ t, v.resolve label = .ok t) ∨
      ∃ before n after, label.numbers = before ++ n :: after ∧ (∀ m ∈ before, v.Resolvable m) ∧
        ¬ v.Resolvable n ∧ v.resolve label = .error (v.refusal n)) := by
  have verdict := v.resolveVerdict label
  generalize v.resolve label = r at verdict
  cases verdict with
  | @resolved t all => exact ⟨iff_of_true ⟨t,rfl⟩ all,.inl ⟨t,rfl⟩⟩
  | @refused before after n place earlier first =>
    refine ⟨iff_of_false (fun ⟨t,ok⟩ => nomatch ok) fun all => first (all n ?_),
      .inr ⟨before,n,after,place,earlier,first,rfl⟩⟩
    rw [place]
    exact List.mem_append_right _ List.mem_cons_self

/- Behind the end of the input and the last code point comes a surrogate, then what is no code point at all.
Of the tokens only one is named, and the first without a name is the lower bound of the third range. -/
def unsound : Condition := .oneOf [(-1,92),(0x10ffff,0xd800),(-2,0xdfff)]

def unnamed : Condition := .oneOf [(-1,3),(3,3),(4,3),(0,5)]

def singleName : Lexicon := .ofRegistrations .tokens [.token 3 "ID".toList]

theorem surrogateRefused :
    let v := Lexicon.ofReading .characters
    (¬ ∀ n ∈ unsound.numbers, v.Resolvable n) ∧ v.resolve unsound = .error (.notACharacter 0xd800) ∧
    (∃ before n after, unsound.numbers = before ++ n :: after ∧ (∀ m ∈ before, v.Resolvable m) ∧
      ¬ v.Resolvable n ∧ v.resolve unsound = .error (v.refusal n)) ∧
    singleName.Resolvable 3 ∧ singleName.resolve unnamed = .error (.unnamedToken 4) ∧
    ∃ before n after, unnamed.numbers = before ++ n :: after ∧ (∀ m ∈ before, singleName.Resolvable m) ∧
      ¬ singleName.Resolvable n ∧ singleName.resolve unnamed = .error (singleName.refusal n) := by
  intro v
  have surrogate : ¬ v.Resolvable 0xd800 := by decide +kernel
  have meaningless : ¬ ∀ n ∈ unsound.numbers, v.Resolvable n := fun all => surrogate (all _ (by decide))
  have refused : v.resolve unsound = .error (.notACharacter 0xd800) := by decide +kernel
  obtain ⟨accepted,verdict⟩ := firstMeaninglessRefused v unsound
  have named : singleName.Resolvable 3 :=
    .inr (.inr ⟨rfl,(Lexicon.registeredIff _ _ 3).mpr ⟨"ID".toList,List.mem_singleton_self _⟩⟩)
  have missing : singleName.resolve unnamed = .error (.unnamedToken 4) := by decide +kernel
  have unregistered := (firstMeaninglessRefused singleName unnamed).2.resolve_left fun ⟨t,ok⟩ => by
    rw [missing] at ok
    cases ok
  exact ⟨meaningless,refused,verdict.resolve_left fun ok => meaningless (accepted.mp ok),
    named,missing,unregistered⟩

end AutomatonDump
