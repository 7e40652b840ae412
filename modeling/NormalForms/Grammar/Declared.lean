import NormalForms.Grammar.WellFormed
import NormalForms.Text.Pieces

namespace NormalForms.Grammar

variable (g : Grammar)

def symbolNamed? (name : String) : Option Symbol :=
  if name ∈ epsilonNames then some .epsilon
  else if name ∈ g.terminals then some (.terminal name)
  else if name ∈ g.nonTerminals then some (.nonTerminal name)
  else none

def readWord (word : String) : Except Error Production :=
  match g.symbolNamed? word with
  | some s => .ok [s]
  | none =>
    word.toList.mapM fun c =>
      match g.symbolNamed? c.toString with
      | some s => .ok s
      | none => .error (.grammar .undeclaredSymbol c.toString)

def readProduction (text : String) : Except Error Production := do
  let p := (← (words text.toList).mapM g.readWord).flatten
  if p = [] then throw (.grammar .blankProduction text)
  if p.length > 1 ∧ Symbol.epsilon ∈ p then throw (.grammar .epsilonInside text)
  return p

def readRule (left : String) (texts : List String) : Except Error Rule := do
  if left ∉ g.nonTerminals then throw (.grammar .undeclaredLeft left)
  return ⟨left, ← texts.mapM g.readProduction⟩

def declare (nonTerminals terminals : List String) (rules : List (String × List String)) (start? : Option String) :
    Except Error Grammar := do
  let some start := start?.or nonTerminals.head? | throw (.grammar .noStart "")
  let names := nonTerminals.eraseDups
  let alphabets : Grammar := ⟨start, terminals.eraseDups, names.map (⟨·, []⟩)⟩
  if let some e := alphabets.alphabetFault? then throw e
  let read ← rules.mapM fun (left, texts) => alphabets.readRule left texts
  return { alphabets with rules := mergeRules names read }

end NormalForms.Grammar
