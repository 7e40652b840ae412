import NormalForms.Automaton.Basic
import NormalForms.Error

namespace NormalForms

structure Row where
  source : String
  label : String
  targets : List String
deriving DecidableEq

/-- An automaton as it is written down, with names only and in any order. -/
structure Description where
  states : List String
  alphabet : List String
  transitions : List Row
  initial : String
  finals : List String
deriving DecidableEq

def Label.ofText (text : String) : Label :=
  if text = "" ∨ text ∈ epsilonNames then .empty else .letter text

def Label.text : Label → String
  | empty => ""
  | letter a => a

def Row.departure (r : Row) : Departure :=
  ⟨r.source, .ofText r.label⟩

namespace Description

variable (d : Description)

def stateFault? (q : String) : Option Error :=
  if q ∈ d.states then none else some (.automaton .undeclaredState q)

def labelFault? (text : String) : Option Error :=
  match Label.ofText text with
  | .empty => none
  | .letter a => if a ∈ d.alphabet then none else some (.automaton .undeclaredLetter a)

def letterFault? (a : String) : Option Error :=
  if Label.ofText a = .empty then some (.automaton .epsilonLetter a) else none

def initialFault? : Option Error :=
  if d.initial ∈ d.states then none else some (.automaton .undeclaredInitial d.initial)

def rowFault? (r : Row) : Option Error :=
  (d.stateFault? r.source).or ((d.labelFault? r.label).or (r.targets.findSome? d.stateFault?))

/-- The first fault of a description. The letters are looked at in increasing order, all else as it is written. -/
def fault? : Option Error :=
  ((OrderedSet.ofList d.alphabet).toList.findSome? letterFault?).or
    (d.initialFault?.or ((d.finals.findSome? d.stateFault?).or (d.transitions.findSome? d.rowFault?)))

end Description

namespace Automaton

def ofDescription (d : Description) : Except Error Automaton :=
  match d.fault? with
  | some e => .error e
  | none => .ok {
      states := .ofList d.states
      alphabet := .ofList d.alphabet
      transitions := .ofList (d.transitions.flatMap fun r => r.targets.map (⟨r.departure, ·⟩))
      rows := .ofList (d.transitions.map Row.departure)
      initial := d.initial
      finals := .ofList d.finals }

def description (fa : Automaton) : Description where
  states := fa.states.toList
  alphabet := fa.alphabet.toList
  transitions := fa.rows.toList.map fun d => ⟨d.source, d.label.text, (fa.targets d).toList⟩
  initial := fa.initial
  finals := fa.finals.toList

variable (fa : Automaton)

def checkState (q : String) : Except Error Unit :=
  if q ∈ fa.states then .ok () else .error (.automaton .undeclaredState q)

def readLabel (text : String) : Except Error Label :=
  match Label.ofText text with
  | .empty => .ok .empty
  | .letter a => if a ∈ fa.alphabet then .ok (.letter a) else .error (.automaton .undeclaredLetter a)

def withFinal (q : String) : Automaton :=
  { fa with finals := fa.finals.insert q }

def withRow (d : Departure) (targets : List String) : Automaton :=
  { fa with transitions := fa.transitions ∪ .ofList (targets.map (⟨d, ·⟩)), rows := fa.rows.insert d }

def addFinal (q : String) : Except Error Automaton := do
  fa.checkState q
  return fa.withFinal q

def addRow (r : Row) : Except Error Automaton := do
  fa.checkState r.source
  let label ← fa.readLabel r.label
  r.targets.forM fa.checkState
  return fa.withRow ⟨r.source, label⟩ r.targets

/-- Puts an automaton together from its description, one final state and one row after the other, and stops at the first
one that does not fit. -/
def assemble (d : Description) : Except Error Automaton := do
  let bare : Automaton := ⟨.ofList d.states, .ofList d.alphabet, ∅, ∅, d.initial, ∅⟩
  if let some a := bare.alphabet.toList.find? (Label.ofText · = .empty) then throw (.automaton .epsilonLetter a)
  if d.initial ∉ bare.states then throw (.automaton .undeclaredInitial d.initial)
  let opened ← d.finals.foldlM addFinal bare
  d.transitions.foldlM addRow opened

end Automaton

end NormalForms
