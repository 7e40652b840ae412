import NormalForms.Automaton.Basic
import NormalForms.Grammar.WellFormed

namespace NormalForms

def Transition.production (t : Transition) : Production :=
  match t.label with
  | .empty => [.nonTerminal t.target]
  | .letter a => [.terminal a, .nonTerminal t.target]

def Automaton.toGrammar (fa : Automaton) : Except Error Grammar :=
  match fa.states.toList.find? (· ∈ fa.alphabet) with
  | some q => .error (.grammar .letterState q)
  | none =>
    let ruleOf (q : String) : Rule :=
      ⟨q, (fa.transitions.toList.filter (·.source = q)).map Transition.production ++
        if q ∈ fa.finals then [[.epsilon]] else []⟩
    Grammar.checked
      { start := fa.initial
        terminals := fa.alphabet.toList
        rules := (fa.initial :: fa.states.toList).eraseDups.map ruleOf }

namespace Production

def isRightLinear : Production → Bool
  | [.epsilon] | [.terminal _] | [.nonTerminal _] | [.terminal _, .nonTerminal _] => true
  | _ => false

def isSingleTerminal : Production → Bool
  | [.terminal _] => true
  | _ => false

/-- The move that a right-linear production makes from its left side. A single terminal leads to the accepting state,
and the empty word makes no move. -/
def transition? (accepting left : String) : Production → Option Transition
  | [.terminal a] => some ⟨⟨left, .letter a⟩, accepting⟩
  | [.nonTerminal b] => some ⟨⟨left, .empty⟩, b⟩
  | [.terminal a, .nonTerminal b] => some ⟨⟨left, .letter a⟩, b⟩
  | _ => none

end Production

/-- The automaton of a right-linear grammar. Its states are the non-terminals and, if some production is a single
terminal, a fresh accepting state. -/
def Grammar.toAutomaton (g : Grammar) : Except Error Automaton :=
  match g.rules.find? fun r => !r.alternatives.all Production.isRightLinear with
  | some r => .error (.grammar .notRightLinear r.left)
  | none =>
    let fresh := g.freshName "final"
    let accepting := if g.rules.any fun r => r.alternatives.any Production.isSingleTerminal then [fresh] else []
    let transitions := g.rules.flatMap fun r => r.alternatives.filterMap (Production.transition? fresh r.left)
    let finals := (g.rules.filter fun r => [Symbol.epsilon] ∈ r.alternatives).map (·.left)
    .ok {
      states := .ofList (g.nonTerminals ++ accepting)
      alphabet := .ofList g.terminals
      transitions := .ofList transitions
      rows := .ofList (transitions.map (·.toDeparture))
      initial := g.start
      finals := .ofList (finals ++ accepting) }

end NormalForms
