import NormalForms.Ordered.Set
import NormalForms.Symbol

namespace NormalForms

open Std

inductive Label where
  | empty
  | letter (a : String)
deriving DecidableEq, Inhabited

namespace Label

def letter? : Label → Option String
  | empty => none
  | letter a => some a

/-- The empty label comes before all letters. -/
instance : Ord Label where
  compare := compareOn letter?

instance : TransOrd Label :=
  inferInstanceAs (TransCmp (compareOn letter?))

theorem letter?_injective {l m : Label} (h : l.letter? = m.letter?) : l = m := by
  cases l <;> cases m <;> simp_all [letter?]

instance : LawfulEqOrd Label where
  eq_of_compare h := letter?_injective (LawfulEqOrd.eq_of_compare (α := Option String) h)

end Label

@[ext]
structure Departure where
  source : String
  label : Label
deriving DecidableEq

@[ext]
structure Transition extends Departure where
  target : String
deriving DecidableEq

instance : Ord Departure where
  compare := compareLex (compareOn Departure.source) (compareOn Departure.label)

instance : TransOrd Departure :=
  inferInstanceAs (TransCmp (compareLex (compareOn Departure.source) (compareOn Departure.label)))

instance : LawfulEqOrd Departure where
  eq_of_compare {d e} h := by
    obtain ⟨hs, hl⟩ := compareLex_eq_eq.1 h
    exact Departure.ext (LawfulEqOrd.eq_of_compare hs) (LawfulEqOrd.eq_of_compare hl)

instance : Ord Transition where
  compare := compareLex (compareOn Transition.toDeparture) (compareOn Transition.target)

instance : TransOrd Transition :=
  inferInstanceAs (TransCmp (compareLex (compareOn Transition.toDeparture) (compareOn Transition.target)))

instance : LawfulEqOrd Transition where
  eq_of_compare {s t} h := by
    obtain ⟨hd, ht⟩ := compareLex_eq_eq.1 h
    have hd : s.toDeparture = t.toDeparture := LawfulEqOrd.eq_of_compare hd
    exact Transition.ext (congrArg (·.source) hd) (congrArg (·.label) hd) (LawfulEqOrd.eq_of_compare ht)

/-- A finite automaton that may have empty moves. The rows are the departures that are written down: those of its
transitions, and possibly others that lead nowhere. -/
structure Automaton where
  states : OrderedSet String
  alphabet : OrderedSet String
  transitions : OrderedSet Transition
  rows : OrderedSet Departure
  initial : String
  finals : OrderedSet String
deriving DecidableEq

namespace Automaton

theorem eq_of_mem_iff {fa fb : Automaton} (states : ∀ q, q ∈ fa.states ↔ q ∈ fb.states)
    (alphabet : ∀ a, a ∈ fa.alphabet ↔ a ∈ fb.alphabet) (transitions : ∀ t, t ∈ fa.transitions ↔ t ∈ fb.transitions)
    (rows : ∀ d, d ∈ fa.rows ↔ d ∈ fb.rows) (initial : fa.initial = fb.initial)
    (finals : ∀ q, q ∈ fa.finals ↔ q ∈ fb.finals) : fa = fb := by
  cases fa
  cases fb
  rw [mk.injEq]
  exact ⟨OrderedSet.ext_mem states, OrderedSet.ext_mem alphabet, OrderedSet.ext_mem transitions,
    OrderedSet.ext_mem rows, initial, OrderedSet.ext_mem finals⟩

variable (fa : Automaton)

def targets (d : Departure) : OrderedSet String :=
  .ofList ((fa.transitions.toList.filter (·.toDeparture = d)).map (·.target))

structure Valid : Prop where
  letters : ∀ a ∈ fa.alphabet, a ≠ "" ∧ a ∉ epsilonNames
  initial_mem : fa.initial ∈ fa.states
  finals_mem : ∀ q ∈ fa.finals, q ∈ fa.states
  target_mem : ∀ t ∈ fa.transitions, t.target ∈ fa.states
  departure_mem : ∀ t ∈ fa.transitions, t.toDeparture ∈ fa.rows
  source_mem : ∀ d ∈ fa.rows, d.source ∈ fa.states
  label_mem : ∀ d ∈ fa.rows, ∀ a, d.label = .letter a → a ∈ fa.alphabet

end Automaton

end NormalForms
