import NormalForms.Automaton.Basic
import NormalForms.Reach

namespace NormalForms

def Label.word : Label → List String
  | empty => []
  | letter a => [a]

inductive Automaton.Path (fa : Automaton) : String → List String → String → Prop
  | refl (q : String) : Path fa q [] q
  | step {t : Transition} {word : List String} {q : String} :
      t ∈ fa.transitions → Path fa t.target word q → Path fa t.source (t.label.word ++ word) q

/-- How far the search along the empty moves has come: the states visited so far, and the stack of those that are still
to be looked at, with the top in front. A state may be on the stack more than once. -/
structure ClosureSearch where
  visited : OrderedSet String
  stack : List String
deriving DecidableEq

def ClosureSearch.opening (states : OrderedSet String) : ClosureSearch :=
  ⟨∅, states.toList.reverse⟩

namespace Automaton

variable (fa : Automaton)

def emptyMoves : List (String × String) :=
  (fa.transitions.toList.filter (·.label = .empty)).map fun t => (t.source, t.target)

def closure (states : OrderedSet String) : OrderedSet String :=
  .ofList (reach fa.emptyMoves states.toList)

def pushed (q : String) (visited : OrderedSet String) : List String :=
  ((fa.targets ⟨q, .empty⟩).toList.filter (· ∉ visited)).reverse

def pop (s : ClosureSearch) : ClosureSearch :=
  match s.stack with
  | [] => s
  | q :: stack =>
    if q ∈ s.visited then { s with stack }
    else
      let visited := s.visited.insert q
      ⟨visited, fa.pushed q visited ++ stack⟩

def move (states : OrderedSet String) (a : String) : OrderedSet String :=
  .ofList ((fa.transitions.toList.filter fun t => t.source ∈ states ∧ t.label = .letter a).map (·.target))

def next (states : OrderedSet String) (a : String) : OrderedSet String :=
  fa.closure (fa.move states a)

def initialStates : OrderedSet String :=
  fa.closure (.ofList [fa.initial])

/-- Reads a word from a set of states that is closed under empty moves. -/
def acceptsFrom (states : OrderedSet String) : List String → Bool
  | [] => states.toList.any (· ∈ fa.finals)
  | a :: word => a ∈ fa.alphabet && acceptsFrom (fa.next states a) word

def accepts (word : List String) : Bool :=
  fa.acceptsFrom fa.initialStates word

/-- Reads a word from a set of states, and rejects at once where `stops` says so of a letter and the states after it. -/
def readFrom (stops : String → OrderedSet String → Bool) (states : OrderedSet String) : List String → Bool
  | [] => states.toList.any (· ∈ fa.finals)
  | a :: word => !stops a (fa.next states a) && readFrom stops (fa.next states a) word

def givesUp (a : String) (states : OrderedSet String) : Bool :=
  a ∉ fa.alphabet || states = ∅

def walkFrom (q : String) : List String → Bool
  | [] => q ∈ fa.finals
  | a :: word =>
    a ∈ fa.alphabet &&
      match (fa.targets ⟨q, .letter a⟩).toList with
      | [p] => walkFrom p word
      | _ => false

def walk (word : List String) : Bool :=
  fa.walkFrom fa.initial word

def isDeterministic : Bool :=
  fa.transitions.toList.all fun t => t.label ≠ .empty && (fa.targets t.toDeparture).toList.length ≤ 1

end Automaton

end NormalForms
