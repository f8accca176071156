import AutomatonDump.Proofs.Label.Resolution
/-! How a lexicon comes by its names, and how little of that shows. A number has the name registered last,
and a condition is written with the names of its own numbers alone; a lexer uses none of them. -/
namespace AutomatonDump

inductive Registration where
  | token (number : Int32) (name : Text)
  | tokens (entries : List (Int32 × Text))
  deriving DecidableEq, Repr

namespace Registration

def apply (v : Lexicon) : Registration → Lexicon
  | .token n name => v.register n name
  | .tokens entries => v.registerAll entries

def entries : Registration → List (Int32 × Text)
  | .token n name => [(n,name)]
  | .tokens entries => entries

end Registration

namespace Lexicon
variable {v w : Lexicon}

def ofRegistrations (reading : Reading) (steps : List Registration) : Lexicon :=
  steps.foldl Registration.apply (ofReading reading)

def namesFor (entries : List (Int32 × Text)) (n : Int32) : List Text :=
  (entries.filter (·.1 = n)).map Prod.snd

theorem registrationsFlatten (steps : List Registration) (v : Lexicon) :
    steps.foldl Registration.apply v = v.registerAll (steps.flatMap Registration.entries) := by
  induction steps generalizing v with
  | nil => rfl
  | cons step rest ih =>
    have one : step.apply v = v.registerAll step.entries := by cases step <;> rfl
    rw [List.foldl_cons,ih,one,List.flatMap_cons]
    exact (List.foldl_append ..).symm

theorem registerReading (v : Lexicon) (entries : List (Int32 × Text)) :
    (v.registerAll entries).reading = v.reading := by
  induction entries generalizing v with
  | nil => rfl
  | cons entry rest ih => exact ih (v.register entry.1 entry.2)

theorem registerName (v : Lexicon) (m n : Int32) (name : Text) :
    (v.register m name).name? n = if m = n then some name else v.name? n := by
  simp only [name?,register,Std.TreeMap.getElem?_insert,Std.compare_eq_iff_eq]

theorem registerAllName (v : Lexicon) (entries : List (Int32 × Text)) (n : Int32) :
    (v.registerAll entries).name? n = (namesFor entries n).getLast?.or (v.name? n) := by
  induction entries generalizing v with
  | nil => rfl
  | cons entry rest ih =>
    have next : v.registerAll (entry :: rest) = (v.register entry.1 entry.2).registerAll rest := rfl
    rw [next,ih,registerName,namesFor,namesFor]
    by_cases same : entry.1 = n
    · rw [if_pos same,List.filter_cons_of_pos (by simpa using same),List.map_cons,List.getLast?_cons]
      cases ((rest.filter (·.1 = n)).map Prod.snd).getLast? <;> rfl
    · rw [if_neg same,List.filter_cons_of_neg (by simpa using same)]

theorem registrationsReading (reading : Reading) (steps : List Registration) :
    (ofRegistrations reading steps).reading = reading := by
  rw [ofRegistrations,registrationsFlatten,registerReading]
  rfl

theorem registrationsName (reading : Reading) (steps : List Registration) (n : Int32) :
    (ofRegistrations reading steps).name? n = (namesFor (steps.flatMap Registration.entries) n).getLast? := by
  have unnamed : (ofReading reading).name? n = none := Std.TreeMap.getElem?_emptyc
  rw [ofRegistrations,registrationsFlatten,registerAllName,unnamed,Option.or_none]

theorem nameRegistered {n : Int32} : (v.name? n).isSome ↔ n ∈ v.names := Std.TreeMap.mem_iff_isSome_getElem?.symm

theorem registeredIff (reading : Reading) (steps : List Registration) (n : Int32) :
    n ∈ (ofRegistrations reading steps).names ↔ ∃ name, (n,name) ∈ steps.flatMap Registration.entries := by
  rw [← nameRegistered,registrationsName,List.getLast?_isSome,List.ne_nil_iff_exists_cons]
  constructor
  · rintro ⟨name,later,names⟩
    obtain ⟨entry,listed,_⟩ := List.mem_map.mp (names ▸ List.mem_cons_self : name ∈ namesFor _ n)
    obtain ⟨inside,same⟩ := List.mem_filter.mp listed
    exact ⟨entry.2,by rwa [← of_decide_eq_true same]⟩
  · rintro ⟨name,inside⟩
    have listed : name ∈ namesFor (steps.flatMap Registration.entries) n :=
      List.mem_map.mpr ⟨(n,name),List.mem_filter.mpr ⟨inside,decide_eq_true rfl⟩,rfl⟩
    exact List.exists_cons_of_ne_nil (List.ne_nil_of_mem listed)

def Agrees (v w : Lexicon) (n : Int32) : Prop :=
  v.reading = w.reading ∧ (v.reading = .characters ∨ (n ≠ endOfInput → v.name? n = w.name? n))

theorem atomAgrees {n : Int32} (agrees : v.Agrees w n) : v.atom n = w.atom n := by
  obtain ⟨reading,names⟩ := agrees
  unfold atom
  by_cases last : n = endOfInput
  · rw [if_pos last,if_pos last]
  · rw [if_neg last,if_neg last,← reading]
    rcases names with characters | same
    · rw [characters]
    · rw [same last]

theorem rangeAgrees {low high : Int32} (first : v.Agrees w low) (last : v.Agrees w high) :
    v.range low high = w.range low high := by
  rw [range,range,atomAgrees first,atomAgrees last]

theorem resolveAgrees {label : Condition} (agrees : ∀ n ∈ label.numbers, v.Agrees w n) :
    v.resolve label = w.resolve label := by
  cases label with
  | epsilon => rfl
  | atom n => exact atomAgrees (agrees n (List.mem_singleton_self n))
  | range low high =>
    obtain ⟨first,later⟩ := List.forall_mem_cons.mp agrees
    exact rangeAgrees first (later high (List.mem_singleton_self high))
  | oneOf ranges =>
    have parts : ranges.mapM (fun r => v.range r.1 r.2) = ranges.mapM fun r => w.range r.1 r.2 := by
      refine mapMSame fun r inside => ?_
      have numbers (n : Int32) (bound : n ∈ [r.1,r.2]) : v.Agrees w n :=
        agrees n (List.mem_flatMap.mpr ⟨r,inside,bound⟩)
      exact rangeAgrees (numbers _ (by simp)) (numbers _ (by simp))
    rw [resolve,resolve,parts]

end Lexicon

/-- The name of a number is the one registered last. Lexicons of one reading write a condition alike or
refuse it alike, if they read characters, or if the names are the same for all its numbers but the end of
the input; so they do where each of these numbers was given the same names in the same order. -/
theorem lastRegistrationsShow (reading : Reading) (steps others : List Registration) :
    let v := Lexicon.ofRegistrations reading steps
    let w := Lexicon.ofRegistrations reading others
    let given := Lexicon.namesFor (steps.flatMap Registration.entries)
    let given' := Lexicon.namesFor (others.flatMap Registration.entries)
    (∀ n, v.name? n = (given n).getLast?) ∧
    ∀ label,
      (reading = .characters ∨ (∀ n ∈ label.numbers, n ≠ Lexicon.endOfInput → v.name? n = w.name? n) →
        v.resolve label = w.resolve label) ∧
      ((∀ n ∈ label.numbers, n ≠ Lexicon.endOfInput → given n = given' n) →
        v.resolve label = w.resolve label) := by
  intro v w given given'
  have left : v.reading = reading := Lexicon.registrationsReading reading steps
  have right : w.reading = reading := Lexicon.registrationsReading reading others
  have known := Lexicon.registrationsName reading steps
  have known' := Lexicon.registrationsName reading others
  have agree (label : Condition)
      (names : reading = .characters ∨ ∀ n ∈ label.numbers, n ≠ Lexicon.endOfInput → v.name? n = w.name? n) :
      v.resolve label = w.resolve label := by
    refine Lexicon.resolveAgrees fun n inside => ⟨left.trans right.symm,?_⟩
    exact names.imp left.trans fun same => same n inside
  refine ⟨known,fun label => ⟨agree label,fun same => agree label (.inr fun n inside last => ?_)⟩⟩
  exact (known n).trans ((congrArg List.getLast? (same n inside last)).trans (known' n).symm)

/- The names of three tokens, one of them corrected, and a name for the end of the input. -/
def corrected : List Registration :=
  [.token 3 "COMMA".toList,.tokens [(2,"ID".toList),(-1,"END".toList),(3,"','".toList)],.token 9 "WS".toList]

/- In another order only the names that the set of these tokens needs. -/
def uncorrected : List Registration := [.tokens [(3,"','".toList),(2,"ID".toList)]]

def tokenSet : Condition := .oneOf [(3,3),(-1,2)]

theorem correctedAlike :
    let v := Lexicon.ofRegistrations .tokens corrected
    let w := Lexicon.ofRegistrations .tokens uncorrected
    v.name? 3 = some "','".toList ∧ v.name? (-1) ≠ w.name? (-1) ∧
    (∀ n ∈ tokenSet.numbers, n ≠ Lexicon.endOfInput → v.name? n = w.name? n) ∧
    v.resolve tokenSet = w.resolve tokenSet ∧ w.resolve tokenSet = .ok "\x7b',', EOF..ID\x7d".toList := by
  intro v w
  obtain ⟨names,labels⟩ := lastRegistrationsShow .tokens corrected uncorrected
  have each : (tokenSet.numbers.all fun n => n = Lexicon.endOfInput ∨ v.name? n = w.name? n) = true := by
    decide +kernel
  have same : ∀ n ∈ tokenSet.numbers, n ≠ Lexicon.endOfInput → v.name? n = w.name? n :=
    fun n inside => (of_decide_eq_true (List.all_eq_true.mp each n inside)).resolve_left
  exact ⟨(names 3).trans (by decide +kernel),by decide +kernel,same,(labels tokenSet).1 (.inr same),
    by decide +kernel⟩

end AutomatonDump
