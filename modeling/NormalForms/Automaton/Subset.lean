import NormalForms.Automaton.Run

namespace NormalForms

/-- The name of a state, written so that its commas cannot be taken for those between two names. -/
def escapeState (name : String) : String :=
  .ofList (name.toList.flatMap fun c => if c = '\\' ∨ c = ',' then ['\\', c] else [c])

def stateKey (states : OrderedSet String) : String :=
  ",".intercalate (states.toList.map escapeState)

namespace Automaton

variable (fa : Automaton)

def moves (states : OrderedSet String) : List (String × OrderedSet String) :=
  (fa.alphabet.toList.map fun a => (a, fa.next states a)).filter (·.2 ≠ ∅)

def discovered (found : List (OrderedSet String)) (states : OrderedSet String) : List (OrderedSet String) :=
  ((fa.moves states).map (·.2)).eraseDups.filter (· ∉ found)

/-- Adds to the sets already `found` those that the `pending` ones lead to, in the order of discovery. The set that was
discovered last is looked at first. -/
def discover (fuel : Nat) (found pending : List (OrderedSet String)) : List (OrderedSet String) :=
  match fuel, pending with
  | fuel + 1, states :: pending =>
    let new := fa.discovered found states
    discover fuel (found ++ new) (new.reverse ++ pending)
  | _, _ => found

/-- The sets of states in which the words over the alphabet leave the automaton, but for the empty set. There are at
most as many as there are sets of states. -/
def subsets : List (OrderedSet String) :=
  fa.discover (Nat.pow 2 fa.states.toList.length) [fa.initialStates] [fa.initialStates]

def subsetTransitions (states : OrderedSet String) : List Transition :=
  (fa.moves states).map fun (a, next) => ⟨⟨stateKey states, .letter a⟩, stateKey next⟩

def determinize : Automaton :=
  let subsets := fa.subsets
  let transitions := subsets.flatMap fa.subsetTransitions
  { states := .ofList (subsets.map stateKey)
    alphabet := fa.alphabet
    transitions := .ofList transitions
    rows := .ofList (transitions.map (·.toDeparture))
    initial := stateKey fa.initialStates
    finals := .ofList ((subsets.filter fun states => states.toList.any (· ∈ fa.finals)).map stateKey) }

def registry : List (String × OrderedSet String) :=
  fa.subsets.map fun states => (stateKey states, states)

/-- How far the search for the sets has come: the sets found so far under their names, those that are still to be looked
at, and the transitions of the others. -/
structure Worklist where
  registry : List (String × OrderedSet String)
  pending : List (OrderedSet String)
  transitions : List Transition

namespace Worklist

def register (w : Worklist) (states : OrderedSet String) : Worklist :=
  if stateKey states ∈ w.registry.map (·.1) then w
  else { w with registry := w.registry ++ [(stateKey states, states)], pending := states :: w.pending }

def follow (source : String) (w : Worklist) (m : String × OrderedSet String) : Worklist :=
  { w.register m.2 with transitions := w.transitions ++ [⟨⟨source, .letter m.1⟩, stateKey m.2⟩] }

end Worklist

def opening : Worklist :=
  ⟨[(stateKey fa.initialStates, fa.initialStates)], [fa.initialStates], []⟩

def turn (w : Worklist) : Worklist :=
  match w.pending with
  | [] => w
  | states :: pending => (fa.moves states).foldl (Worklist.follow (stateKey states)) { w with pending }

end Automaton

end NormalForms
