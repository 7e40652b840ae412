import NormalForms.Error
import NormalForms.Grammar.Basic

namespace NormalForms

def isDeclarable (name : String) : Bool :=
  name ≠ "" ∧ name ∉ epsilonNames

namespace Grammar

variable (g : Grammar)

def declares : Symbol → Bool
  | .epsilon => true
  | .terminal a => a ∈ g.terminals
  | .nonTerminal a => a ∈ g.nonTerminals

structure WellFormed : Prop where
  start_mem : g.start ∈ g.nonTerminals
  declarable : ∀ name ∈ g.terminals ++ g.nonTerminals, isDeclarable name = true
  disjoint : ∀ name ∈ g.terminals, name ∉ g.nonTerminals
  terminals_nodup : g.terminals.Nodup
  nonTerminals_nodup : g.nonTerminals.Nodup
  ne_nil : ∀ r ∈ g.rules, ∀ p ∈ r.alternatives, p ≠ []
  epsilon_alone : ∀ r ∈ g.rules, ∀ p ∈ r.alternatives, Symbol.epsilon ∈ p → p = [.epsilon]
  declared : ∀ r ∈ g.rules, ∀ p ∈ r.alternatives, ∀ s ∈ p, g.declares s = true
  alternatives_nodup : ∀ r ∈ g.rules, r.alternatives.Nodup

def alphabetFault? : Option Error :=
  if g.start ∉ g.nonTerminals then some (.grammar .undeclaredStart g.start)
  else
    match (g.terminals ++ g.nonTerminals).find? (!isDeclarable ·) with
    | some name => some (.grammar .emptyName name)
    | none => (g.terminals.find? (· ∈ g.nonTerminals)).map (.grammar .bothKinds ·)

def productionFault? (left : String) (p : Production) : Option Error :=
  if p = [] then some (.grammar .emptyProduction left)
  else if p.length > 1 ∧ Symbol.epsilon ∈ p then some (.grammar .epsilonInside left)
  else (p.find? (!g.declares ·)).map fun s => .grammar .undeclaredSymbol s.name

def fault? : Option Error :=
  g.alphabetFault?.or (g.rules.findSome? fun r => r.alternatives.findSome? (g.productionFault? r.left))

def checked : Except Error Grammar :=
  match g.fault? with
  | some e => .error e
  | none => .ok g

end Grammar

end NormalForms
