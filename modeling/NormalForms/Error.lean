namespace NormalForms

inductive GrammarFault where
  | noStart
  | undeclaredStart
  | emptyName
  | bothKinds
  | undeclaredLeft
  | undeclaredSymbol
  | emptyProduction
  | blankProduction
  | epsilonInside
  | letterState
  | notRightLinear
deriving DecidableEq

inductive AutomatonFault where
  | epsilonLetter
  | undeclaredInitial
  | undeclaredState
  | undeclaredLetter
deriving DecidableEq

inductive LineFault where
  | manyArrows
  | emptyLeft
  | brokenLeft
  | epsilonLeft
  | noLeft
  | noRules
deriving DecidableEq

inductive Error where
  | grammar (fault : GrammarFault) (symbol : String)
  | automaton (fault : AutomatonFault) (item : String)
  | line (number : Nat) (fault : LineFault)
deriving DecidableEq

def GrammarFault.reason : GrammarFault → String
  | noStart => "a grammar needs a start symbol"
  | undeclaredStart => "start symbol is not a declared non-terminal"
  | emptyName => "the empty string cannot be declared"
  | bothKinds => "declared as both terminal and non-terminal"
  | undeclaredLeft => "rule for an undeclared non-terminal"
  | undeclaredSymbol => "symbol is not declared"
  | emptyProduction => "empty production"
  | blankProduction => "empty production, write ε instead"
  | epsilonInside => "ε must stand alone"
  | letterState => "state has the name of an alphabet symbol"
  | notRightLinear => "production is not right-linear"

def AutomatonFault.reason : AutomatonFault → String
  | epsilonLetter => "ε cannot be part of the alphabet"
  | undeclaredInitial => "initial state is not declared"
  | undeclaredState => "state is not declared"
  | undeclaredLetter => "symbol is not in the alphabet"

def LineFault.reason : LineFault → String
  | manyArrows => "too many \"->\""
  | emptyLeft => "empty left side"
  | brokenLeft => "left side contains whitespace"
  | epsilonLeft => "ε cannot be a left side"
  | noLeft => "cannot find left side"
  | noRules => "empty grammar"

def Error.message : Error → String
  | grammar fault symbol => "malformed grammar: " ++ fault.reason ++ " (" ++ symbol ++ ")"
  | automaton fault item => "malformed automaton: " ++ fault.reason ++ " (" ++ item ++ ")"
  | line number fault => "Line " ++ toString number ++ ": " ++ fault.reason

end NormalForms
