import AutomatonDump.Automaton.Basic
/-! What every automaton satisfies that was made by operations: the position table is the
inverse of the sequence of states, and every position referred to is occupied. -/
namespace AutomatonDump.Automaton
variable {L : Type}

def numberAt? (a : Automaton L) (i : Nat) : Option Number := a.states[i]?.map State.number

structure WellFormed (a : Automaton L) : Prop where
  inverse : ∀ (n : Number) (i : Nat), a.positions[n]? = some i ↔ a.numberAt? i = some n
  targets : ∀ s ∈ a.states, ∀ e ∈ s.edges, e.target < a.states.size
  start : ∀ i, a.start = some i → i < a.states.size

theorem slotUsed {a : Automaton L} (w : a.WellFormed) {n : Number} (used : n ∈ a.positions) :
    a.numberAt? (a.slot n) = some n := by
  have found := Std.TreeMap.getElem?_eq_some_getElem used
  rw [slot,Std.TreeMap.getD_eq_getD_getElem?,found]
  exact (w.inverse n _).mp found

theorem slotFree {a : Automaton L} {n : Number} (free : n ∉ a.positions) : a.slot n = a.states.size := by
  rw [slot,Std.TreeMap.getD_eq_getD_getElem?,Std.TreeMap.getElem?_eq_none free]
  rfl

theorem usedIff {a : Automaton L} (w : a.WellFormed) {n : Number} :
    n ∈ a.positions ↔ ∃ i, a.numberAt? i = some n := by
  rw [Std.TreeMap.mem_iff_isSome_getElem?,Option.isSome_iff_exists]
  exact exists_congr (w.inverse n)

theorem positionOccupied {a : Automaton L} {i : Nat} {n : Number} (h : a.numberAt? i = some n) :
    i < a.states.size := by
  obtain ⟨s,found,_⟩ := Option.map_eq_some_iff.mp h
  exact (Array.getElem?_eq_some_iff.mp found).1

theorem positionUnique {a : Automaton L} (w : a.WellFormed) {i j : Nat} {n : Number}
    (left : a.numberAt? i = some n) (right : a.numberAt? j = some n) : i = j :=
  Option.some.inj (((w.inverse n i).mpr left).symm.trans ((w.inverse n j).mpr right))

theorem emptyWellFormed : (empty : Automaton L).WellFormed where
  inverse n i := by simp [empty,numberAt?]
  targets s h := by simp [empty] at h
  start i h := by simp [empty] at h

theorem numberAtAppend (a : Automaton L) (n : Number) (acceptance : Acceptance) (i : Nat) :
    (a.append n acceptance).numberAt? i = if i = a.states.size then some n else a.numberAt? i := by
  simp only [numberAt?,append,Array.getElem?_push]
  split <;> rfl

theorem appendWellFormed {a : Automaton L} (w : a.WellFormed) {n : Number} (free : n ∉ a.positions)
    (acceptance : Acceptance) : (a.append n acceptance).WellFormed where
  inverse m i := by
    rw [numberAtAppend]
    simp only [append,Std.TreeMap.getElem?_insert,Std.compare_eq_iff_eq]
    by_cases same : n = m
    · subst same
      simp only [if_true,Option.some.injEq]
      constructor
      · intro h; simp [h]
      · intro h
        split at h
        · exact Eq.symm ‹_›
        · exact absurd ((usedIff w).mpr ⟨i,h⟩) free
    · simp only [if_neg same,w.inverse]
      split
      · rename_i last
        subst last
        have beyond : a.numberAt? a.states.size = none := by simp [numberAt?]
        simp [beyond,same]
      · rfl
  targets s h e inside := by
    simp only [append,Array.mem_push] at h
    simp only [append,Array.size_push]
    rcases h with old | new
    · exact Nat.lt_succ_of_lt (w.targets s old e inside)
    · subst new; simp at inside
  start i h := by
    simp only [append,Array.size_push]
    exact Nat.lt_succ_of_lt (w.start i h)

theorem ensureWellFormed {a : Automaton L} (w : a.WellFormed) (n : Number) : (a.ensure n).WellFormed := by
  unfold ensure
  split
  · exact w
  · exact appendWellFormed w ‹_› .nothing

theorem ensureUses (a : Automaton L) (n : Number) : n ∈ (a.ensure n).positions := by
  unfold ensure
  split
  · assumption
  · simp [append,Std.TreeMap.mem_insert]

theorem ensureKeepsUse {a : Automaton L} {m : Number} (used : m ∈ a.positions) (n : Number) :
    m ∈ (a.ensure n).positions := by
  unfold ensure
  split
  · exact used
  · simp [append,Std.TreeMap.mem_insert,used]

theorem numberAtModify (a : Automaton L) (n : Number) {change : State L → State L}
    (keeps : ∀ s, (change s).number = s.number) (i : Nat) :
    (a.modify n change).numberAt? i = a.numberAt? i := by
  simp only [numberAt?,modify,Array.getElem?_modify]
  split
  · simp [Function.comp_def,keeps]
  · rfl

theorem modifyWellFormed {a : Automaton L} (w : a.WellFormed) (n : Number) {change : State L → State L}
    (keeps : ∀ s, (change s).number = s.number)
    (targets : ∀ s ∈ a.states, ∀ e ∈ (change s).edges, e.target < a.states.size) :
    (a.modify n change).WellFormed where
  inverse m i := by rw [numberAtModify a n keeps]; exact w.inverse m i
  targets s h e inside := by
    simp only [modify,Array.size_modify]
    obtain ⟨i,found⟩ := Array.mem_iff_getElem?.mp h
    simp only [modify,Array.getElem?_modify] at found
    split at found
    · obtain ⟨old,stored,rfl⟩ := Option.map_eq_some_iff.mp found
      exact targets old (Array.mem_of_getElem? stored) e inside
    · exact w.targets s (Array.mem_of_getElem? found) e inside
  start i h := by simpa [modify] using w.start i h

theorem declareWellFormed {a : Automaton L} (w : a.WellFormed) (n : Number) (acceptance : Acceptance) :
    (a.declare n acceptance).WellFormed := by
  unfold declare
  split
  · exact modifyWellFormed w n (fun _ => rfl) w.targets
  · exact appendWellFormed w ‹_› acceptance

theorem connectWellFormed {a : Automaton L} (w : a.WellFormed) (source : Number) (label : L)
    (target : Number) : (a.connect source label target).WellFormed := by
  have whole := ensureWellFormed (ensureWellFormed w target) source
  refine modifyWellFormed whole source (fun _ => rfl) ?_
  intro s h e inside
  simp only [Array.mem_push] at inside
  rcases inside with old | new
  · exact whole.targets s h e old
  · subst new
    exact positionOccupied (slotUsed whole (ensureKeepsUse (ensureUses a target) source))

theorem startAtWellFormed {a : Automaton L} (w : a.WellFormed) (n : Number) : (a.startAt n).WellFormed where
  inverse := (ensureWellFormed w n).inverse
  targets := (ensureWellFormed w n).targets
  start i h := by
    cases Option.some.inj h
    exact positionOccupied (slotUsed (ensureWellFormed w n) (ensureUses a n))

theorem dropStartWellFormed {a : Automaton L} (w : a.WellFormed) : a.dropStart.WellFormed where
  inverse := w.inverse
  targets := w.targets
  start _ h := nomatch h

theorem applyWellFormed {a : Automaton L} (w : a.WellFormed) (o : Operation L) : (o.apply a).WellFormed := by
  cases o with
  | declare n acceptance => exact declareWellFormed w n acceptance
  | connect source label target => exact connectWellFormed w source label target
  | startAt n => exact startAtWellFormed w n
  | dropStart => exact dropStartWellFormed w

theorem runWellFormed {a : Automaton L} (w : a.WellFormed) (operations : List (Operation L)) :
    (a.run operations).WellFormed := by
  induction operations generalizing a with
  | nil => exact w
  | cons o rest ih => exact ih (applyWellFormed w o)

end AutomatonDump.Automaton
